import Conform.Proofs.JsonSchema.Expansion

/-!
Projections that are made again. What a lazy schema was built to is kept, so the document schema
that a projection gave is what the schema expands to from then on (`Schema.Projects`), and where a
schema expands to a document schema a projection gives just that, building nothing.
-/
namespace Conform

/-- A lazy schema that has been built in the one world has been built to the same in the other,
whatever else the worlds differ in. -/
def World.Retains (world final : World) : Prop := ∀ id v, world.HasBuilt id v → final.HasBuilt id v

variable {draft : String} {world after final : World} {expanding : List Nat} {id : Nat}
  {keywords : Keywords}
  {schema : Schema}

theorem World.Retains.trans (early : world.Retains after) (late : after.Retains final) :
    world.Retains final :=
  fun id v built => late id v (early id v built)

theorem World.Later.retains (later : world.Later after) : world.Retains after := fun _ _ built =>
    built.later later

theorem Expands.retained (expands : Expands draft world expanding id keywords)
    (retains : world.Retains final) :
    Expands draft final expanding id keywords := by
  induction expands with
  | cut inside => exact .cut inside
  | expanded outside built _ projected ih =>
    exact .expanded outside (retains _ _ built) ih projected

theorem Schema.Projects.retained (projects : schema.Projects draft world expanding keywords)
    (retains : world.Retains final) : schema.Projects draft final expanding keywords := by
  obtain ⟨fragments, nested, projected⟩ := projects
  exact ⟨fragments, fun id inner found => (nested id inner found).retained retains, projected⟩

namespace Eval

open Projection

/-- The second evaluation looks at nothing, and what it gives the first returns in the world,
changing nothing. -/
private structure Realizes (final : World) {α : Type} (run told : Eval α) : Prop where
  settled : Settled told
  returns : ∀ value, told = pure value → run.Returns final value final

/-- A projection realises another where the lazy schemas of the one realise those of the other. -/
private theorem realizes_congruence (final : World) : Congruence (Realizes final) True where
  pure value := ⟨.inl ⟨value, rfl⟩, fun _ given => returns_pure.mpr ⟨pure_injective given, rfl⟩⟩
  misuse _ {_} cause _ := ⟨.inr ⟨_, rfl⟩, fun _ given => absurd given.symm pure_ne_raise⟩
  bind {_ _ first second next further} early late := by
    rcases early.settled with ⟨given, rfl⟩ | ⟨fault, rfl⟩
    · refine ⟨(late given).settled, fun value told => ?_⟩
      exact returns_bind.mpr ⟨given, final, early.returns given rfl,
        (late given).returns value told⟩
    · exact ⟨.inr ⟨fault, rfl⟩, fun value told => absurd told.symm pure_ne_raise⟩

/-- A schema is projected to what it is put together to from fragments, if lazy schemas are
projected to these. -/
private theorem returns_ofSchema {onLazy : Nat → Eval Keywords} {fragments : Nat → Option Keywords}
    (lazies : ∀ id inner, fragments id = some inner → (onLazy id).Returns final inner final)
    (projected : ofSchema draft (ofFragments fragments) schema = pure keywords) :
    (ofSchema draft onLazy schema).Returns final keywords final := by
  have realized : ∀ id, Realizes final (onLazy id) (ofFragments fragments id) := fun id =>
    ⟨settled_ofFragments fragments id, fun inner given =>
      lazies id inner (ofFragments_eq_pure given)⟩
  exact (related_everywhere (realizes_congruence final) realized schema).returns keywords projected

/-- With a budget for every lazy schema that is not being expanded, a lazy schema is projected to
what it expands to: each level expands one of them, and all that it needs has been built. -/
private theorem returns_ofLazy (expands : Expands draft final expanding id keywords) :
    ∀ budget, (unexpanded final expanding).card < budget →
      (ofLazy draft budget expanding id).Returns final keywords final := by
  induction expands with
  | cut inside =>
    intro budget enough
    obtain ⟨budget, rfl⟩ := Nat.exists_eq_succ_of_ne_zero (Nat.ne_zero_of_lt enough)
    rw [ofLazy_cut inside]
    exact returns_pure.mpr ⟨rfl, rfl⟩
  | expanded outside built _ projected ih =>
    intro budget enough
    obtain ⟨budget, rfl⟩ := Nat.exists_eq_succ_of_ne_zero (Nat.ne_zero_of_lt enough)
    have resolved := resolve_of_hasBuilt built
    have fewer := card_unexpanded_lt (lt_potential_of_resolve resolved) outside
    rw [ofLazy_expanded outside]
    refine returns_bind.mpr ⟨_, final, resolved,
      returns_ofSchema (fun other inner found => ?_) projected⟩
    exact ih other inner found budget (by omega)

end Eval

namespace Schema

/-- Where a schema expands to a document schema, the projection gives it that document schema and
builds nothing. -/
theorem returns_of_projects (projects : schema.Projects draft final expanding keywords) :
    (schema.project draft expanding).Returns final keywords final := by
  obtain ⟨fragments, nested, projected⟩ := projects
  rw [Eval.Returns, Eval.ending_project]
  exact Eval.returns_ofSchema (fun id inner found =>
    Eval.returns_ofLazy (nested id inner found) _ (Eval.card_unexpanded_lt_budget final expanding))
      projected

/-- A schema that is projected again, in a world that keeps what the projection built, has the same
document schema, and nothing is built any more. -/
theorem returns_again (returned : (schema.project draft expanding).Returns world keywords after)
    (retains : after.Retains final) : (schema.project draft expanding).Returns final
      keywords final :=
  returns_of_projects (((projects_of_returns returned .refl keywords).mpr rfl).retained retains)

/-- Projections of a schema on the way to one world give it one document schema. -/
theorem keywords_unique {other between : World} {further : Keywords}
    (returned : (schema.project draft expanding).Returns world keywords after)
    (retains : after.Retains final)
    (also : (schema.project draft expanding).Returns other further between)
    (kept : between.Retains final) :
    further = keywords := by
  have first := returns_again returned retains
  have second := returns_again also kept
  rw [Eval.Returns, first] at second
  cases second
  rfl

end Schema

end Conform
