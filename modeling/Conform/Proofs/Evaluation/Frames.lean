import Conform.Proofs.Evaluation.LawfulRules
import Conform.Proofs.Evaluation.Worlds

/-!
What validation leaves alone. It writes down calls and builds lazy schemas; names, configuration,
open contexts and registered definitions are as they were when it ends, however it ends.
-/
namespace Conform

namespace World

/-- Nothing but the trace and the lazy schemas differs. -/
structure Framed (before after : World) : Prop where
  names : after.names = before.names
  settings : after.settings = before.settings
  contexts : after.contexts = before.contexts
  definitions : after.definitions = before.definitions

theorem Framed.refl (world : World) : world.Framed world := ⟨rfl, rfl, rfl, rfl⟩

theorem Framed.trans {first second third : World} (early : first.Framed second)
    (late : second.Framed third) : first.Framed third :=
  ⟨late.names.trans early.names, late.settings.trans early.settings,
    late.contexts.trans early.contexts, late.definitions.trans early.definitions⟩

/-- Lazy schemas may have come, and nothing was built. -/
def Awaits (before after : World) : Prop :=
  ∃ further, after.lazies = before.lazies ++ further ∧ ∀ cell ∈ further, cell.built = none

theorem awaits_of_same {before after : World} (same : after.lazies = before.lazies) :
    before.Awaits after :=
  ⟨[], by rw [same, List.append_nil], fun _ inside => nomatch inside⟩

theorem Awaits.trans {first second third : World} (early : first.Awaits second)
    (late : second.Awaits third) : first.Awaits third := by
  obtain ⟨further, one, unbuilt⟩ := early
  obtain ⟨others, two, also⟩ := late
  exact ⟨further ++ others, by rw [two, one, List.append_assoc],
    List.forall_mem_append.mpr ⟨unbuilt, also⟩⟩

end World

namespace Eval

variable {α β : Type} {related : World → World → Prop}

/-- The evaluation leads from every world to a related one, however it ends. -/
def Moves (related : World → World → Prop) (evaluation : Eval α) : Prop :=
  ∀ world, related world (evaluation.ending world).2

section Preorder

variable (refl : ∀ world, related world world)
  (trans : ∀ first second third, related first second → related second third → related first third)

include trans in
/-- What two steps of a relation are related by, their sequence is. -/
theorem Moves.bind {evaluation : Eval α} {next : α → Eval β} (first : evaluation.Moves related)
    (rest : ∀ value, (next value).Moves related) : (evaluation >>= next).Moves related := by
  intro world
  have early := first world
  rw [ending_bind]
  rcases ended : evaluation.ending world with ⟨fault | value, between⟩
  · rw [ended] at early
    exact early
  · rw [ended] at early
    exact trans _ _ _ early (rest value between)

include refl

theorem moves_pure (value : α) : (pure value : Eval α).Moves related := fun world => refl world

theorem moves_ofConstruction (made : Except Misuse α) : (ofConstruction made).Moves related := by
  intro world
  cases made <;> exact refl world

include trans

theorem moves_lookup (name : String) : (lookup name).Moves related := by
  refine Moves.bind trans (fun world => refl world) fun current => ?_
  cases current.names.get? name <;> exact fun world => refl world

omit refl trans in
theorem moves_perform (traces : ∀ world trace, related world (world.traced trace))
    (run : Traced α) :
    (perform run).Moves related := by
  intro world
  rw [ending_perform]
  exact traces world _

mutual

/-- Building a schema does no more to the world than running callbacks and taking in lazy
schemas. -/
theorem moves_build (traces : ∀ world trace, related world (world.traced trace))
    (lazies : ∀ label body, (newLazy label body).Moves related) :
    ∀ recipe : Recipe, recipe.build.Moves related
  | .calling run => moves_perform traces run
  | .reference name => moves_lookup refl trans name
  | .lazy label body => (lazies label body).bind trans fun _ => moves_pure refl _
  | .combine construction parts =>
    (moves_buildAll traces lazies parts).bind trans fun schemas =>
      moves_ofConstruction refl (construction schemas)

theorem moves_buildAll (traces : ∀ world trace, related world (world.traced trace))
    (lazies : ∀ label body, (newLazy label body).Moves related) :
    ∀ parts : List Recipe, (Recipe.buildAll parts).Moves related
  | [] => moves_pure refl _
  | part :: rest => (moves_build traces lazies part).bind trans fun _ =>
    (moves_buildAll traces lazies rest).bind trans fun _ => moves_pure refl _

end

/-- Running the factory of a lazy schema does no more than that either. -/
theorem moves_run (traces : ∀ world trace, related world (world.traced trace))
    (lazies : ∀ label body, (newLazy label body).Moves related) (cell : LazyCell) :
    cell.run.Moves related := by
  have rest : Moves related (do
      let schema ← cell.body.build
      ofConstruction schema.toValidator : Eval Validator) :=
    (moves_build refl trans traces lazies cell.body).bind trans fun schema =>
      moves_ofConstruction refl schema.toValidator
  unfold LazyCell.run
  cases cell.label with
  | some label => exact (moves_perform traces _).bind trans fun _ => rest
  | none => exact rest

end Preorder

private theorem framed_bind {evaluation : Eval α} {next : α → Eval β}
    (first : evaluation.Moves World.Framed) (rest : ∀ value, (next value).Moves World.Framed) :
    (evaluation >>= next).Moves World.Framed := first.bind (fun _ _ _ => .trans) rest

theorem framed_buildCell (id : Nat) (cell : LazyCell) :
    (World.buildCell id cell).Moves World.Framed := by
  have ran : cell.run.Moves World.Framed :=
    moves_run .refl (fun _ _ _ => .trans) (fun _ _ => ⟨rfl, rfl, rfl, rfl⟩)
      (fun _ _ _ => ⟨rfl, rfl, rfl, rfl⟩) cell
  exact framed_bind ran fun v => framed_bind (fun _ => ⟨rfl, rfl, rfl, rfl⟩) fun _ =>
    moves_pure .refl v

theorem framed_resolve (id : Nat) : (resolve id).Moves World.Framed := by
  intro world
  rw [World.ending_resolve]
  rcases world.lazies[id]? with _ | cell
  · exact .refl world
  · cases built : cell.built with
    | some v => simpa only [built] using World.Framed.refl world
    | none => simpa only [built] using framed_buildCell id cell world

private theorem awaits_newLazy (label : Option String) (body : Recipe) :
    (newLazy label body).Moves World.Awaits :=
  fun _ => ⟨[⟨label, body, none⟩], rfl, List.forall_mem_singleton.mpr rfl⟩

/-- Building a schema builds nothing lazy. -/
theorem awaits_build (recipe : Recipe) : recipe.build.Moves World.Awaits :=
  moves_build (fun _ => World.awaits_of_same rfl) (fun _ _ _ => .trans)
    (fun _ _ => World.awaits_of_same rfl) awaits_newLazy recipe

/-- Running a factory builds nothing lazy inside what it gives. -/
theorem awaits_run (cell : LazyCell) : cell.run.Moves World.Awaits :=
  moves_run (fun _ => World.awaits_of_same rfl) (fun _ _ _ => .trans)
    (fun _ _ => World.awaits_of_same rfl) awaits_newLazy cell

/-- What was built for a lazy schema is kept in its cell. -/
private theorem kept_of_buildCell {id : Nat} {cell : LazyCell} {v : Validator} {world after : World}
    (found : world.lazies[id]? = some cell)
    (returned : (World.buildCell id cell).Returns world v after) :
    after.lazies[id]? = some { cell with built := some v } := by
  obtain ⟨w, between, made, later⟩ := returns_bind.mp returned
  obtain ⟨further, appended, -⟩ := awaits_run cell world
  rw [show cell.run.ending world = _ from made] at appended
  obtain ⟨_, last, remembered, done⟩ := returns_bind.mp later
  obtain ⟨rfl, rfl⟩ := returns_pure.mp done
  cases remembered
  have kept : between.lazies[id]? = some cell := by
    rw [show between.lazies = world.lazies ++ further from appended]
    exact List.getElem?_append_left (List.getElem?_eq_some_iff.mp found).1 ▸ found
  change (between.lazies.modify id _)[id]? = _
  rw [List.getElem?_modify_eq, kept]
  rfl

/-- What a lazy schema was built to is what it stands for from then on, and finding it again changes
nothing. -/
theorem returns_resolve_again {id : Nat} {v : Validator} {world after : World}
    (resolved : (resolve id).Returns world v after) : (resolve id).Returns after v after := by
  have ending := World.ending_resolve world id
  rw [show (resolve id).ending world = _ from resolved] at ending
  cases found : world.lazies[id]? with
  | none =>
    simp only [found] at ending
    cases ending
  | some cell =>
    cases built : cell.built with
    | some w =>
      simp only [found, built] at ending
      cases ending
      exact resolved
    | none =>
      simp only [found, built] at ending
      have kept := kept_of_buildCell found ending.symm
      rw [Returns, World.ending_resolve]
      simp only [kept]

end Eval

/-- The law of leaving alone, seen from one world. -/
def Law.framing (start : World) : Law := .ofWorlds start.Framed

theorem Law.framing_respected (start : World) : (Law.framing start).Respected :=
  ofWorlds_respected (fun _ _ framed => framed.trans ⟨rfl, rfl, rfl, rfl⟩)
    fun world id framed => framed.trans (Eval.framed_resolve id world)

/-- Evaluation leads to later worlds. -/
theorem Rule.later_of_returns {budget : Nat} {rule : Rule} {x y : Value} {world after : World}
    (returned : (rule.safe (lazySafe budget) x).Returns world y after) : world.Later after := by
  have respected : (Law.ofWorlds world.Later).Respected :=
    Law.ofWorlds_respected (fun _ trace later => .traced trace later) fun _ id later =>
      .resolved id later
  have kept := keeps_safe respected (keeps_lazySafe respected budget) rule
    (fun piece _ => Law.ofWorlds_allows piece) x world .refl
  exact (kept.1 y after returned).1

/-- Validating leaves names, configuration, contexts and definitions alone. -/
theorem Validator.framed_safe (v : Validator) (x : Value) (world : World) :
    world.Framed ((v.safe x).ending world).2 := by
  have respected := Law.framing_respected world
  have kept := Rule.keeps_safe respected (Rule.keeps_lazySafe respected (world.budget x)) v.rule
    (fun piece _ => Law.ofWorlds_allows piece) x world (.refl world)
  rw [ending_safe]
  rcases ended : (v.rule.safe (Rule.lazySafe (world.budget x)) x).ending world with
    ⟨fault | failure | y, after⟩
  · exact (kept.2.2 fault after ended).1
  · exact (kept.2.1 failure after ended).1
  · exact (kept.1 y after ended).1

theorem Validator.framed_of_reports {v : Validator} {x : Value} {world after : World}
    {failure : Failure}
    (reported : (v.safe x).Reports world failure after) : world.Framed after := by
  have framed := v.framed_safe x world
  rwa [show (v.safe x).ending world = _ from reported] at framed

end Conform
