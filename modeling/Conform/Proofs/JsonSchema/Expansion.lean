import Conform.Proofs.Evaluation.Lazies
import Conform.Proofs.JsonSchema.Congruence
import Mathlib.Data.Finset.Card
import Mathlib.Data.Finset.Range

/-!
What becomes of lazy schemas in document schemas. The projection (`Schema.project`) is handed the
lazy schemas that are being expanded and remembers nothing. `Expands` says what it gives without a
budget and without building anything: inside its own expansion a lazy schema is cut, everywhere else
it is what it was built to, with only such occurrences cut. Nothing stops the projection but a lazy
schema it reaches that cannot be built, or a schema it meets whose description does not suit its
kind.
-/
namespace Conform

open Projection

/-- The document schema of a lazy schema, which is cut where it is among those that are being
expanded. -/
def Projection.ofLazy (draft : String) : Nat → List Nat → Nat → Eval Keywords
  | 0, _, _ => Eval.misuse .tooDeep
  | budget + 1, expanding, id =>
    if expanding.contains id then return []
    else do
      let v ← Eval.resolve id
      ofSchema draft (ofLazy draft budget (id :: expanding)) (.validator v)

namespace Schema

/-- The document schema of a schema while lazy schemas are being expanded. -/
def project (draft : String) (expanding : List Nat) (schema : Schema) : Eval Keywords := do
  let budget := (← get).lazyBound + 1
  ofSchema draft (ofLazy draft budget expanding) schema

/-- The document schemas of named schemas while lazy schemas are being expanded. -/
def projectAll (draft : String) (expanding : List Nat) : List (String × Schema) → Eval Keywords
  | [] => return []
  | (name, schema) :: rest => do
    let keywords ← schema.project draft expanding
    let further ← projectAll draft expanding rest
    return (.str name, .object keywords) :: further

end Schema

/-- Given fragments in place of lazy schemas. -/
def Projection.ofFragments (fragments : Nat → Option Keywords) (id : Nat) : Eval Keywords :=
  match fragments id with
  | some keywords => pure keywords
  | none => Eval.misuse (.absentKey (.int id))

/-- The fragment of a lazy schema that is met while others are being expanded, in a world where it
and what it refers to have been built. -/
inductive Expands (draft : String) (world : World) : List Nat → Nat → Keywords → Prop where
  | cut {expanding : List Nat} {id : Nat} (inside : id ∈ expanding) :
      Expands draft world expanding id []
  | expanded {expanding : List Nat} {id : Nat} {v : Validator} {keywords : Keywords}
      {fragments : Nat → Option Keywords} (outside : id ∉ expanding) (built : world.HasBuilt id v)
      (nested : ∀ other inner, fragments other = some inner →
        Expands draft world (id :: expanding) other inner)
      (projected : ofSchema draft (ofFragments fragments) (.validator v) = pure keywords) :
      Expands draft world expanding id keywords

/-- The document schema of a schema that is met while lazy schemas are being expanded, from the
fragments of the lazy schemas that it refers to. -/
def Schema.Projects (draft : String) (world : World) (expanding : List Nat) (schema : Schema)
    (keywords : Keywords) : Prop :=
  ∃ fragments : Nat → Option Keywords,
    (∀ id inner, fragments id = some inner → Expands draft world expanding id inner) ∧
      ofSchema draft (ofFragments fragments) schema = pure keywords

namespace World

/-- The lazy schemas that a projection comes to, each with a world from which on it can: those in
the schema, and those in what a lazy schema is built to that was reached before. -/
inductive Reaches (start : World) (schema : Schema) : World → Nat → Prop where
  | held {part : Schema} {id : Nat} (inside : schema.Contains part) (found : part.lazy? = some id) :
      Reaches start schema start id
  | through {base between after : World} {other id : Nat} {v : Validator} {part : Schema}
      (reached : Reaches start schema base other) (later : base.Later between)
      (built : (Eval.resolve other).Returns between v after)
      (inside : (Schema.validator v).Contains part) (found : part.lazy? = some id) :
      Reaches start schema after id

/-- A schema that a projection can meet: one in the schema, or in what a lazy schema that is reached
is built to. -/
def Meets (start : World) (schema part : Schema) : Prop :=
  schema.Contains part ∨ ∃ base id between v after, start.Reaches schema base id ∧
    base.Later between ∧ (Eval.resolve id).Returns between v after ∧
    (Schema.validator v).Contains part

/-- What can stop the projection of a schema: a lazy schema that is reached and could not be built,
or a schema that is met and does not suit. A lack of budget is neither. -/
inductive Blames (start : World) (schema : Schema) : Fault → World → Prop where
  | unbuilt {base between after : World} {id : Nat} {fault : Fault}
      (reached : start.Reaches schema base id) (later : base.Later between)
      (failed : (Eval.resolve id).Faults between fault after) : Blames start schema fault after
  | unsuited {after : World} {cause : Misuse} {part : Schema} (budgeted : cause ≠ .tooDeep)
      (met : start.Meets schema part) (odd : part.suits = false) :
      Blames start schema (.misuse cause) after

end World

namespace Eval

variable {α : Type}

theorem pure_injective {a b : α} (same : (pure a : Eval α) = pure b) : a = b := by
  have ended := congrFun same (World.initial "")
  change ((.ok a, _) : Except Fault α × World) = (.ok b, _) at ended
  cases ended
  rfl

theorem pure_ne_raise {a : α} {fault : Fault} : (pure a : Eval α) ≠ raise fault := by
  intro same
  have ended := congrFun same (World.initial "")
  change ((.ok a, _) : Except Fault α × World) = (.error fault, _) at ended
  cases ended

/-- The evaluation looks at nothing and changes nothing. -/
def Settled (evaluation : Eval α) : Prop :=
  (∃ value, evaluation = pure value) ∨ ∃ fault, evaluation = raise fault

/-- Settled evaluations that give the same value if they give any. -/
private structure Agree {α : Type} (one two : Eval α) : Prop where
  first : Settled one
  second : Settled two
  same : ∀ a b, one = pure a → two = pure b → a = b

/-- Projections agree where those of the lazy schemas do. -/
private theorem agree_congruence : Congruence Agree True where
  pure value := ⟨.inl ⟨value, rfl⟩, .inl ⟨value, rfl⟩, fun a b one two =>
    pure_injective (one.symm.trans two)⟩
  misuse _ {_} cause _ := ⟨.inr ⟨_, rfl⟩, .inr ⟨_, rfl⟩, fun a _ one _ =>
    absurd one.symm pure_ne_raise⟩
  bind {_ _ first second next further} early late := by
    rcases early.first with ⟨a, rfl⟩ | ⟨fault, rfl⟩
    · rcases early.second with ⟨b, rfl⟩ | ⟨fault, rfl⟩
      · cases early.same a b rfl rfl
        exact late a
      · exact ⟨(late a).first, .inr ⟨fault, rfl⟩, fun c d _ two => absurd two.symm pure_ne_raise⟩
    · rcases early.second with ⟨b, rfl⟩ | ⟨other, rfl⟩
      · exact ⟨.inr ⟨fault, rfl⟩, (late b).second, fun c d one _ => absurd one.symm pure_ne_raise⟩
      · exact ⟨.inr ⟨fault, rfl⟩, .inr ⟨other, rfl⟩, fun c d one _ => absurd one.symm pure_ne_raise⟩

theorem settled_ofFragments (fragments : Nat → Option Keywords) (id : Nat) :
    Settled (ofFragments fragments id) := by
  unfold ofFragments
  cases fragments id with
  | some keywords => exact .inl ⟨keywords, rfl⟩
  | none => exact .inr ⟨_, rfl⟩

theorem ofFragments_eq_pure {fragments : Nat → Option Keywords} {id : Nat} {keywords : Keywords}
    (given : ofFragments fragments id = pure keywords) : fragments id = some keywords := by
  unfold ofFragments at given
  cases found : fragments id with
  | some other =>
    simp only [found] at given
    rw [pure_injective given]
  | none =>
    simp only [found] at given
    exact absurd given.symm pure_ne_raise

/-- Fragments that agree where both are given are put together to the same document schema. -/
private theorem projected_unique {draft : String} {fragments others : Nat → Option Keywords}
    {schema : Schema} {keywords further : Keywords}
    (agree : ∀ id one two, fragments id = some one → others id = some two → one = two)
    (first : ofSchema draft (ofFragments fragments) schema = pure keywords)
    (second : ofSchema draft (ofFragments others) schema = pure further) : keywords = further := by
  have lazies : ∀ id, Agree (ofFragments fragments id) (ofFragments others id) := fun id =>
    ⟨settled_ofFragments fragments id, settled_ofFragments others id, fun one two given taken =>
      agree id one two (ofFragments_eq_pure given) (ofFragments_eq_pure taken)⟩
  exact (related_everywhere agree_congruence lazies schema).same keywords further first second

end Eval

variable {draft : String} {world after : World} {expanding : List Nat} {id : Nat}
  {keywords further : Keywords} {schema : Schema}

theorem World.HasBuilt.unique {v w : Validator} (first : world.HasBuilt id v)
    (second : world.HasBuilt id w) : v = w := by
  obtain ⟨cell, found, built⟩ := first
  obtain ⟨other, had, kept⟩ := second
  rw [found] at had
  cases had
  rw [built] at kept
  exact Option.some.inj kept

/-- A lazy schema has one fragment at most. -/
theorem Expands.unique (first : Expands draft world expanding id keywords)
    (second : Expands draft world expanding id further) : keywords = further := by
  induction first generalizing further with
  | cut inside =>
    cases second with
    | cut _ => rfl
    | expanded outside => exact absurd inside outside
  | expanded outside built nested projected ih =>
    cases second with
    | cut inside => exact absurd inside outside
    | expanded _ built' nested' projected' =>
      cases built.unique built'
      exact Eval.projected_unique (fun other one two given taken =>
        ih other one given (nested' other two taken)) projected projected'

theorem Schema.Projects.unique (first : schema.Projects draft world expanding keywords)
    (second : schema.Projects draft world expanding further) : keywords = further := by
  obtain ⟨fragments, nested, projected⟩ := first
  obtain ⟨others, nested', projected'⟩ := second
  exact Eval.projected_unique (fun id one two given taken =>
    (nested id one given).unique (nested' id two taken)) projected projected'

/-- All the fragments that lazy schemas have in a world. -/
private noncomputable def known (draft : String) (world : World) (expanding : List Nat) (id : Nat) :
    Option Keywords :=
  open Classical in
  if expands : ∃ keywords, Expands draft world expanding id keywords then
    some expands.choose else none

private theorem expands_of_known (found : known draft world expanding id = some keywords) :
    Expands draft world expanding id keywords := by
  unfold known at found
  split at found
  · next expands =>
    cases found
    exact expands.choose_spec
  · cases found

private theorem ofFragments_known (expands : Expands draft world expanding id keywords) :
    ofFragments (known draft world expanding) id = pure keywords := by
  have some : ∃ keywords, Expands draft world expanding id keywords := ⟨keywords, expands⟩
  have found : known draft world expanding id = .some some.choose := by
    unfold known
    rw [dif_pos some]
  rw [ofFragments, found, some.choose_spec.unique expands]

namespace Eval

variable {α : Type} {final : World}

/-- What the first evaluation returns on the way to the final world, the second gives without
looking. -/
private structure Follows (final : World) {α : Type} (run told : Eval α) : Prop where
  later : ∀ world value after, run.Returns world value after → world.Later after
  agrees : ∀ world value after, run.Returns world value after → after.Later final →
    told = pure value

/-- A projection follows another where the lazy schemas of the one follow those of the other. -/
private theorem follows_congruence (final : World) : Congruence (Follows final) True where
  pure value := by
    refine ⟨fun world given after returned => ?_, fun world given after returned _ => ?_⟩
    · obtain ⟨-, rfl⟩ := returns_pure.mp returned
      exact .refl
    · obtain ⟨rfl, -⟩ := returns_pure.mp returned
      rfl
  misuse _ {_} cause _ := ⟨fun _ _ _ returned => absurd returned returns_misuse,
    fun _ _ _ returned _ => absurd returned returns_misuse⟩
  bind {_ _ first second next further} early late := by
    refine ⟨fun world value after returned => ?_, fun world value after returned reached => ?_⟩
    · obtain ⟨given, between, begun, ended⟩ := returns_bind.mp returned
      exact (early.later _ _ _ begun).trans ((late given).later _ _ _ ended)
    · obtain ⟨given, between, begun, ended⟩ := returns_bind.mp returned
      have onwards := ((late given).later _ _ _ ended).trans reached
      rw [early.agrees _ _ _ begun onwards, pure_bind]
      exact (late given).agrees _ _ _ ended reached

/-- Projecting a schema follows its projection from fragments, if that of lazy schemas does. -/
private theorem follows_ofSchema (draft : String) {onLazy : Nat → Eval Keywords}
    {fragments : Nat → Option Keywords}
    (lazies : ∀ id, Follows final (onLazy id) (ofFragments fragments id)) (schema : Schema) :
    Follows final (ofSchema draft onLazy schema) (ofSchema draft (ofFragments fragments) schema) :=
  related_everywhere (follows_congruence final) lazies schema

theorem ofLazy_cut {budget : Nat} (inside : id ∈ expanding) :
    ofLazy draft (budget + 1) expanding id = pure [] :=
  if_pos (List.contains_iff_mem.mpr inside)

theorem ofLazy_expanded {budget : Nat} (outside : id ∉ expanding) :
    ofLazy draft (budget + 1) expanding id = (do
      let v ← resolve id
      ofSchema draft (ofLazy draft budget (id :: expanding)) (.validator v)) :=
  if_neg fun inside => outside (List.contains_iff_mem.mp inside)

/-- Whatever the budget, the fragment that a lazy schema is given is the one that it expands to. -/
private theorem follows_ofLazy (draft : String) (final : World) (budget : Nat) :
    ∀ expanding id, Follows final (ofLazy draft budget expanding id)
      (ofFragments (known draft final expanding) id) := by
  induction budget with
  | zero =>
    exact fun expanding id => ⟨fun _ _ _ returned => absurd returned returns_misuse,
      fun _ _ _ returned _ => absurd returned returns_misuse⟩
  | succ budget ih =>
    intro expanding id
    by_cases inside : id ∈ expanding
    · rw [ofLazy_cut inside, ofFragments_known (.cut inside)]
      exact (follows_congruence final).pure []
    · rw [ofLazy_expanded inside]
      have further := fun v : Validator =>
        follows_ofSchema draft (ih (id :: expanding)) (.validator v)
      refine ⟨fun world value after returned => ?_, fun world value after returned reached => ?_⟩
      · obtain ⟨v, between, resolved, ended⟩ := returns_bind.mp returned
        exact (World.Later.refl.of_returns resolved).trans ((further v).later _ _ _ ended)
      · obtain ⟨v, between, resolved, ended⟩ := returns_bind.mp returned
        have onwards := ((further v).later _ _ _ ended).trans reached
        have projected := (further v).agrees _ _ _ ended reached
        exact ofFragments_known (.expanded inside ((hasBuilt_of_resolve resolved).later onwards)
          (fun _ _ found => expands_of_known found) projected)

/-- A world later than another, with no more lazy schemas to come than there were at the start. -/
private structure Onwards (start base world : World) : Prop where
  later : base.Later world
  bounded : world.potential ≤ start.potential

/-- From the base on the evaluation goes onwards, and nothing stops it but what can stop a
projection. -/
private def Proceeds (start : World) (schema : Schema) (base : World) {α : Type} (run : Eval α) :
    Prop :=
  ∀ world, Onwards start base world →
    (∀ value after, run.Returns world value after → Onwards start base after) ∧
      ∀ fault after, run.Faults world fault after → start.Blames schema fault after

variable {start base : World}

private theorem Onwards.of_resolve {v : Validator} (onwards : Onwards start base world)
    (resolved : (resolve id).Returns world v after) : Onwards start base after :=
  ⟨onwards.later.of_returns resolved, Nat.le_trans (potential_resolve_le resolved) onwards.bounded⟩

/-- To proceed unless something that is met stops it is respected by the projection. -/
private theorem proceeds_congruence (start : World) (schema : Schema) (base : World) :
    Congruence (fun run _ => Proceeds start schema base run)
      (∃ part, start.Meets schema part ∧ part.suits = false) where
  pure value := by
    intro world onwards
    refine ⟨fun given after returned => ?_, fun fault after faulted => absurd faulted faults_pure⟩
    obtain ⟨-, rfl⟩ := returns_pure.mp returned
    exact onwards
  misuse := by
    intro amiss α cause budgeted world onwards
    obtain ⟨part, met, odd⟩ := amiss
    refine ⟨fun given after returned => absurd returned returns_misuse,
      fun fault after faulted => ?_⟩
    obtain ⟨rfl, -⟩ := faults_misuse.mp faulted
    exact .unsuited budgeted met odd
  bind := by
    intro α β first second next further early late world onwards
    refine ⟨fun value after returned => ?_, fun fault after faulted => ?_⟩
    · obtain ⟨given, between, begun, ended⟩ := returns_bind.mp returned
      exact (late given between ((early world onwards).1 _ _ begun)).1 value after ended
    · rcases faults_bind.mp faulted with stopped | ⟨given, between, begun, stopped⟩
      · exact (early world onwards).2 fault after stopped
      · exact (late given between ((early world onwards).1 _ _ begun)).2 fault after stopped

/-- The lazy schemas that are not being expanded, of all that there can be. -/
def unexpanded (start : World) (expanding : List Nat) : Finset Nat :=
  (Finset.range start.potential).filter fun id => id ∉ expanding

theorem card_unexpanded_lt (possible : id < start.potential) (outside : id ∉ expanding) :
    (unexpanded start (id :: expanding)).card < (unexpanded start expanding).card := by
  refine Finset.card_lt_card ⟨fun other member => ?_, fun all => ?_⟩
  · simp only [unexpanded, Finset.mem_filter, List.mem_cons, not_or] at member ⊢
    exact ⟨member.1, member.2.2⟩
  · have member : id ∈ unexpanded start expanding := by simp [unexpanded, possible, outside]
    have absent := all member
    simp [unexpanded] at absent

/-- The budget of a projection suffices for every lazy schema that there can be. -/
theorem card_unexpanded_lt_budget (world : World) (expanding : List Nat) :
    (unexpanded world expanding).card < world.lazyBound + 1 := by
  have some := Finset.card_filter_le (Finset.range world.potential) fun id => id ∉ expanding
  have possible := world.potential_le_lazyBound
  rw [Finset.card_range] at some
  exact Nat.lt_succ_of_le (Nat.le_trans some possible)

/-- The projection of a schema that is met proceeds as the lazy schemas in it do. -/
private theorem proceeds_ofSchema {onLazy : Nat → Eval Keywords} {part : Schema}
    (lazies : ∀ id, start.Reaches schema base id → Proceeds start schema base (onLazy id))
    (met : ∀ inner, part.Contains inner →
      start.Meets schema inner ∧ ∀ id, inner.lazy? = some id → start.Reaches schema base id) :
    Proceeds start schema base (ofSchema draft onLazy part) := by
  have ways : Parallel (fun run _ => Proceeds start schema base run)
      (∃ part, start.Meets schema part ∧ part.suits = false) (start.Reaches schema base)
      onLazy onLazy :=
    { proceeds_congruence start schema base with lazies := lazies }
  exact related_ofSchema ways part fun inner inside =>
    ⟨fun odd => ⟨inner, (met inner inside).1, odd⟩, (met inner inside).2⟩

/-- With a budget for every lazy schema that is not being expanded, the projection of a lazy schema
that has been reached goes onwards: each level expands one of them. -/
private theorem proceeds_ofLazy (draft : String) (schema : Schema) (budget : Nat) :
    ∀ base expanding, (unexpanded start expanding).card < budget →
      ∀ id, start.Reaches schema base id →
        Proceeds start schema base (ofLazy draft budget expanding id) := by
  induction budget with
  | zero => exact fun base expanding enough => absurd enough (Nat.not_lt_zero _)
  | succ budget ih =>
    intro base expanding enough id reached
    by_cases inside : id ∈ expanding
    · rw [ofLazy_cut inside]
      exact (proceeds_congruence start schema base).pure []
    · rw [ofLazy_expanded inside]
      intro world onwards
      have further : ∀ v between, (resolve id).Returns world v between →
          Proceeds start schema between
            (ofSchema draft (ofLazy draft budget (id :: expanding)) (.validator v)) := by
        intro v between resolved
        have possible := Nat.lt_of_lt_of_le (lt_potential_of_resolve resolved) onwards.bounded
        have left : (unexpanded start (id :: expanding)).card < budget := by
          have fewer := card_unexpanded_lt possible inside
          omega
        exact proceeds_ofSchema (ih between _ left) fun inner held =>
          ⟨.inr ⟨base, id, world, v, between, reached, onwards.later, resolved, held⟩,
            fun other found => .through reached onwards.later resolved held found⟩
      -- What follows the resolution starts from the world that it leaves.
      have begun : ∀ {v between}, (resolve id).Returns world v between →
          Onwards start between between := fun resolved =>
        ⟨.refl, (onwards.of_resolve resolved).bounded⟩
      refine ⟨fun value after returned => ?_, fun fault after faulted => ?_⟩
      · obtain ⟨v, between, resolved, ended⟩ := returns_bind.mp returned
        have beyond := (further v between resolved between (begun resolved)).1 value after ended
        exact ⟨(onwards.of_resolve resolved).later.trans beyond.later, beyond.bounded⟩
      · rcases faults_bind.mp faulted with failed | ⟨v, between, resolved, stopped⟩
        · exact .unbuilt reached onwards.later failed
        · exact (further v between resolved between (begun resolved)).2 fault after stopped

/-- The projection of a schema is that with a budget for every lazy schema that there can be. -/
theorem ending_project (draft : String) (expanding : List Nat) (schema : Schema) (world : World) :
    (schema.project draft expanding).ending world =
      (ofSchema draft (ofLazy draft (world.lazyBound + 1) expanding) schema).ending world := by
  rw [Schema.project, ending_get_bind]

private theorem proceeds_project (draft : String) (expanding : List Nat) (schema : Schema)
    (world : World) :
    Proceeds world schema world
      (ofSchema draft (ofLazy draft (world.lazyBound + 1) expanding) schema) :=
  proceeds_ofSchema
    (proceeds_ofLazy draft schema _ world expanding (card_unexpanded_lt_budget world expanding))
    fun _ held => ⟨.inl held, fun _ found => .held held found⟩

end Eval

namespace Schema

open Eval

/-- A schema whose projection returned has that document schema and no other, in every world that
can come. -/
theorem projects_of_returns {final : World}
    (returned : (schema.project draft expanding).Returns world keywords after)
    (later : after.Later final) (other : Keywords) :
    schema.Projects draft final expanding other ↔ other = keywords := by
  rw [Returns, ending_project] at returned
  have follows := follows_ofSchema draft
    (follows_ofLazy draft final (world.lazyBound + 1) expanding) schema
  have projected := follows.agrees _ _ _ returned later
  have projects : schema.Projects draft final expanding keywords :=
    ⟨known draft final expanding, fun _ _ found => expands_of_known found, projected⟩
  constructor
  · exact fun also => also.unique projects
  · rintro rfl
    exact projects

theorem later_of_project
    (returned : (schema.project draft expanding).Returns world keywords after) :
    world.Later after := by
  rw [Returns, ending_project] at returned
  exact ((proceeds_project draft expanding schema world world
    ⟨.refl, Nat.le_refl _⟩).1 _ _ returned).later

theorem blames_of_project {fault : Fault}
    (faulted : (schema.project draft expanding).Faults world fault after) :
    world.Blames schema fault after := by
  rw [Faults, ending_project] at faulted
  exact (proceeds_project draft expanding schema world world ⟨.refl, Nat.le_refl _⟩).2 _ _ faulted

/-- What is reached from a later world is reached from the earlier one. -/
private theorem reaches_earlier {start base : World} (later : start.Later world)
    (reached : world.Reaches schema base id) :
    ∃ earlier, start.Reaches schema earlier id ∧ earlier.Later base := by
  induction reached with
  | held inside found => exact ⟨start, .held inside found, later⟩
  | through _ onwards built inside found ih =>
    obtain ⟨earlier, reached, between⟩ := ih
    exact ⟨_, .through reached (between.trans onwards) built inside found, .refl⟩

/-- What is to blame later was to blame from the start. -/
private theorem blames_earlier {start : World} {fault : Fault} (later : start.Later world)
    (blames : world.Blames schema fault after) : start.Blames schema fault after := by
  cases blames with
  | unbuilt reached onwards failed =>
    obtain ⟨earlier, reached, between⟩ := reaches_earlier later reached
    exact .unbuilt reached (between.trans onwards) failed
  | unsuited budgeted met odd =>
    refine .unsuited budgeted ?_ odd
    rcases met with inside | ⟨base, id, world, v, after, reached, onwards, resolved, inside⟩
    · exact .inl inside
    · obtain ⟨earlier, reached, between⟩ := reaches_earlier later reached
      exact .inr ⟨earlier, id, world, v, after, reached, between.trans onwards, resolved, inside⟩

/-- Of named schemas every one is projected as if it stood alone, whatever the others expanded. -/
theorem projectAll_ends (draft : String) (expanding : List Nat)
    (definitions : List (String × Schema)) (world : World) :
    (∃ projected after, (projectAll draft expanding definitions).Returns world projected after ∧
        world.Later after ∧ ∀ final, after.Later final → List.Forall₂ (fun definition entry =>
          ∃ keywords, entry = (.str definition.1, .object keywords) ∧ ∀ other,
            definition.2.Projects draft final expanding other ↔ other = keywords)
          definitions projected) ∨
      ∃ fault after, (projectAll draft expanding definitions).Faults world fault after ∧
        ∃ definition ∈ definitions, world.Blames definition.2 fault after := by
  induction definitions generalizing world with
  | nil => exact .inl ⟨[], world, returns_pure.mpr ⟨rfl, rfl⟩, .refl, fun _ _ => .nil⟩
  | cons definition rest ih =>
    obtain ⟨name, schema⟩ := definition
    rcases ends (schema.project draft expanding) world with
      ⟨keywords, between, first⟩ | ⟨fault, after, faulted⟩
    · rcases ih between with ⟨projected, after, others, later, each⟩ | ⟨fault, after,
        faulted, blamed⟩
      · refine .inl ⟨(.str name, .object keywords) :: projected, after, ?_,
          (later_of_project first).trans later, fun final reached => ?_⟩
        · exact returns_bind.mpr ⟨_, _, first, returns_bind.mpr ⟨_, _, others,
            returns_pure.mpr ⟨rfl, rfl⟩⟩⟩
        · exact .cons ⟨keywords, rfl, projects_of_returns first (later.trans reached)⟩
            (each final reached)
      · obtain ⟨definition, member, blamed⟩ := blamed
        refine .inr ⟨fault, after, ?_, definition, List.mem_cons_of_mem _ member,
          blames_earlier (later_of_project first) blamed⟩
        exact faults_bind.mpr (.inr ⟨_, _, first, faults_bind.mpr (.inl faulted)⟩)
    · exact .inr ⟨fault, after, faults_bind.mpr (.inl faulted), (name, schema), List.mem_cons_self,
        blames_of_project faulted⟩

/-- Where a lazy schema occurs, its fragment takes on the documentation of the occurrence. -/
theorem projects_lazy {rule : Rule} {parameters : List (String × Parameter)}
    {docs : Documentation} {default : Value} {codec : Option Codec} :
    (validator ⟨rule, some ⟨.lazy, parameters, .deferred id, docs, default⟩, codec⟩).Projects
      draft world expanding keywords ↔
      ∃ inner, Expands draft world expanding id inner ∧ keywords = inner.document docs default := by
  have read : ∀ fragments, ofSchema draft (ofFragments fragments)
      (validator ⟨rule, some ⟨.lazy, parameters, .deferred id, docs, default⟩, codec⟩) = (do
        let inner ← ofFragments fragments id
        return inner.document docs default) := fun _ => rfl
  constructor
  · rintro ⟨fragments, nested, projected⟩
    rw [read] at projected
    cases found : fragments id with
    | some inner =>
      rw [ofFragments, found, pure_bind] at projected
      exact ⟨inner, nested id inner found, (pure_injective projected).symm⟩
    | none =>
      rw [ofFragments, found] at projected
      exact absurd projected.symm pure_ne_raise
  · rintro ⟨inner, expands, rfl⟩
    refine ⟨fun other => if other = id then some inner else none,
      fun other keywords found => ?_, ?_⟩
    · dsimp only at found
      split at found
      · next same =>
        cases found
        rwa [same]
      · cases found
    · rw [read, ofFragments, if_pos rfl, pure_bind]

/-- A lazy schema expands to nothing inside itself and to the document schema of what it was built
to outside. -/
theorem expands_iff :
    Expands draft world expanding id keywords ↔
      if id ∈ expanding then keywords = []
      else ∃ v, world.HasBuilt id v ∧
        (validator v).Projects draft world (id :: expanding) keywords := by
  split
  · next inside =>
    constructor
    · exact fun expands => expands.unique (.cut inside)
    · rintro rfl
      exact .cut inside
  · next outside =>
    constructor
    · intro expands
      cases expands with
      | cut inside => exact absurd inside outside
      | expanded _ built nested projected => exact ⟨_, built, _, nested, projected⟩
    · rintro ⟨v, built, fragments, nested, projected⟩
      exact .expanded outside built nested projected

end Schema

end Conform
