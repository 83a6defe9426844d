import Conform.Proofs.Evaluation.Endings

/-!
The worlds that evaluation passes through. Of a world it changes the trace, and it builds lazy
schemas; `World.Later` is the closure of these two steps. A property of rules that every lazy schema
built in a later world has is `World.Builds`, and `Sound.builds_of_reads` reads it off the recipes
at hand.
-/
namespace Conform

namespace World

/-- The worlds that evaluation can reach from one. -/
inductive Later (start : World) : World → Prop where
  | refl : Later start start
  | traced {world : World} (trace : Trace) : Later start world → Later start (world.traced trace)
  | resolved {world : World} (id : Nat) :
      Later start world → Later start ((Eval.resolve id).ending world).2

/-- Whatever lazy schema is built from here on has a rule with the property. -/
def Builds (start : World) (property : Rule → Prop) : Prop :=
  ∀ world id v after, Later start world → (Eval.resolve id).Returns world v after → property v.rule

variable {start world after : World} {property : Rule → Prop}

theorem Later.trans (early : Later start world) (late : Later world after) : Later start after := by
  induction late with
  | refl => exact early
  | traced trace _ ih => exact .traced trace ih
  | resolved id _ ih => exact .resolved id ih

theorem Builds.later (builds : start.Builds property) (later : Later start world) :
    world.Builds property :=
  fun _ id v after further resolved => builds _ id v after (later.trans further) resolved

theorem Later.of_returns (later : Later start world) {id : Nat} {v : Validator}
    (resolved : (Eval.resolve id).Returns world v after) : Later start after := by
  have next := Later.resolved id later
  rwa [resolved] at next

theorem Later.of_faults (later : Later start world) {id : Nat} {fault : Fault}
    (faulted : (Eval.resolve id).Faults world fault after) : Later start after := by
  have next := Later.resolved id later
  rwa [faulted] at next

/-- An invariant of both steps holds of every later world. -/
theorem Later.induct {invariant : World → Prop} (later : Later start world)
    (holds : invariant start)
    (traced : ∀ world trace, invariant world → invariant (world.traced trace))
    (resolved : ∀ world id, invariant world → invariant ((Eval.resolve id).ending world).2) :
    invariant world := by
  induction later with
  | refl => exact holds
  | traced trace _ ih => exact traced _ trace ih
  | resolved id _ ih => exact resolved _ id ih

end World

namespace Recipe

variable (good : Schema → Prop)

mutual

/-- The recipe makes good schemas out of good schemas. -/
def Keeps : Recipe → Prop
  | .calling run => ∀ made trace finish, run trace = (.ok made, finish) → good made
  | .reference _ => True
  | .lazy _ body => Keeps body
  | .combine construction parts =>
    (∀ schemas made, (∀ schema ∈ schemas, good schema) →
      construction schemas = .ok made → good made)
      ∧ KeepsAll parts

/-- Every one of several recipes makes good schemas out of good schemas. -/
def KeepsAll : List Recipe → Prop
  | [] => True
  | part :: rest => Keeps part ∧ KeepsAll rest

end

variable {good : Schema → Prop}

theorem keeps_given {made : Except Misuse Schema}
    (holds : ∀ schema, made = .ok schema → good schema) :
    (given made).Keeps good := by
  intro schema trace finish ran
  cases made with
  | ok schema =>
    cases ran
    exact holds schema rfl
  | error cause => cases ran

theorem keeps_ofValidator {v : Validator} (holds : good (.validator v)) :
    (ofValidator v).Keeps good :=
  keeps_given fun _ same => by
    cases same
    exact holds

theorem build_given (made : Except Misuse Schema) :
    (given made).build = Eval.ofConstruction made := by
  cases made <;> rfl

end Recipe

/-- A factory runs as the building of its recipe does, whether a label is logged before that or
not. -/
theorem LazyCell.exists_start (cell : LazyCell) (world : World) :
    ∃ trace, cell.run.ending world = (do
      let schema ← cell.body.build
      Eval.ofConstruction schema.toValidator : Eval Validator).ending (world.traced trace) := by
  obtain ⟨label, body, built⟩ := cell
  cases label with
  | none => exact ⟨world.trace, rfl⟩
  | some text => exact ⟨_, rfl⟩

namespace World

/-- All names stand for good schemas, all recipes keep schemas good, and what was built has a rule
with the property. -/
structure Sound (good : Schema → Prop) (property : Rule → Prop) (world : World) : Prop where
  names : ∀ entry ∈ world.names, good entry.2
  recipes : ∀ cell ∈ world.lazies, cell.body.Keeps good
  built : ∀ cell ∈ world.lazies, ∀ v, cell.built = some v → property v.rule

variable {good : Schema → Prop} {property : Rule → Prop}

theorem Sound.traced {world : World} (sound : world.Sound good property) (trace : Trace) :
    (world.traced trace).Sound good property :=
  ⟨sound.names, sound.recipes, sound.built⟩

/-- A new cell with a recipe that makes good schemas keeps a world sound. -/
theorem Sound.newLazy {world : World} (sound : world.Sound good property) (label : Option String)
    {body : Recipe} (keeps : body.Keeps good) :
    Sound good property { world with lazies := world.lazies ++ [⟨label, body, none⟩] } := by
  refine ⟨sound.names, ?_, ?_⟩
  · intro cell member
    rcases List.mem_append.mp member with old | new
    · exact sound.recipes cell old
    · cases List.mem_singleton.mp new
      exact keeps
  · intro cell member v built
    rcases List.mem_append.mp member with old | new
    · exact sound.built cell old v built
    · cases List.mem_singleton.mp new
      cases built

/-- The evaluation keeps worlds sound, and its value, if any, is as it should be. -/
def Preserves (good : Schema → Prop) (property : Rule → Prop) {α : Type} (result : α → Prop)
    (evaluation : Eval α) : Prop :=
  ∀ world : World, world.Sound good property →
    (∀ value after, evaluation.Returns world value after → after.Sound good property ∧
      result value) ∧
      ∀ fault after, evaluation.Faults world fault after → after.Sound good property

variable {α β : Type} {result : α → Prop} {further : β → Prop}

theorem preserves_pure {value : α} (holds : result value) :
    Preserves good property result (pure value) := by
  intro world sound
  refine ⟨?_, fun fault after faulted => absurd faulted Eval.faults_pure⟩
  intro given after returned
  obtain ⟨rfl, rfl⟩ := Eval.returns_pure.mp returned
  exact ⟨sound, holds⟩

theorem preserves_ofConstruction {made : Except Misuse α}
    (holds : ∀ value, made = .ok value → result value) :
    Preserves good property result (Eval.ofConstruction made) := by
  cases made with
  | ok value => exact preserves_pure (holds value rfl)
  | error cause =>
    intro world sound
    refine ⟨fun value after returned => absurd returned Eval.returns_misuse, ?_⟩
    intro fault after faulted
    obtain ⟨-, rfl⟩ := Eval.faults_misuse.mp faulted
    exact sound

/-- What two evaluations preserve in turn their sequence preserves. -/
theorem Preserves.bind {evaluation : Eval α} {next : α → Eval β}
    (first : Preserves good property result evaluation)
    (rest : ∀ value, result value → Preserves good property further (next value)) :
    Preserves good property further (evaluation >>= next) := by
  intro world sound
  refine ⟨?_, ?_⟩
  · intro value after returned
    obtain ⟨given, between, before, later⟩ := Eval.returns_bind.mp returned
    obtain ⟨kept, holds⟩ := (first world sound).1 given between before
    exact (rest given holds between kept).1 value after later
  · intro fault after faulted
    rcases Eval.faults_bind.mp faulted with early | ⟨given, between, before, later⟩
    · exact (first world sound).2 fault after early
    · obtain ⟨kept, holds⟩ := (first world sound).1 given between before
      exact (rest given holds between kept).2 fault after later

/-- Creating a lazy schema preserves good worlds, as its recipe makes good schemas. -/
theorem preserves_newLazy (label : Option String) {body : Recipe} (keeps : body.Keeps good) :
    Preserves good property (fun _ => True) (Eval.newLazy label body) := by
  intro world sound
  refine ⟨?_, ?_⟩
  · intro id after returned
    cases returned
    exact ⟨sound.newLazy label keeps, trivial⟩
  · intro fault after faulted
    cases faulted

theorem preserves_lookup (name : String) :
    Preserves good property good (Eval.lookup name) := by
  intro world sound
  have current : (get : Eval World).ending world = (.ok world, world) := rfl
  cases found : world.names.get? name with
  | none =>
    have looked : (Eval.lookup name).ending world =
        (.error (.misuse (.absentKey (.str name))), world) := by
      simp only [Eval.lookup, Eval.ending_bind, current, found]
      rfl
    refine ⟨?_, ?_⟩
    · intro schema after returned
      rw [Eval.Returns, looked] at returned
      cases returned
    · intro fault after faulted
      rw [Eval.Faults, looked] at faulted
      cases faulted
      exact sound
  | some schema =>
    have looked : (Eval.lookup name).ending world = (.ok schema, world) := by
      simp only [Eval.lookup, Eval.ending_bind, current, found]
      rfl
    obtain ⟨entry, member, rfl⟩ := Option.map_eq_some_iff.mp found
    refine ⟨?_, ?_⟩
    · intro given after returned
      rw [Eval.Returns, looked] at returned
      cases returned
      exact ⟨sound, sound.names entry (List.mem_of_find?_eq_some member)⟩
    · intro fault after faulted
      rw [Eval.Faults, looked] at faulted
      cases faulted

/-- Keeping what a lazy schema was built to is sound when its rule has the property. -/
theorem preserves_remember (id : Nat) (v : Validator) (holds : property v.rule) :
    Preserves good property (fun _ => True) (Eval.remember id v) := by
  intro world sound
  refine ⟨?_, ?_⟩
  · intro value after returned
    cases returned
    refine ⟨⟨sound.names, ?_, ?_⟩, trivial⟩
    · intro cell member
      obtain ⟨i, inside, rfl⟩ := List.mem_iff_getElem.mp member
      simp only [List.length_modify] at inside
      have old := sound.recipes _ (List.getElem_mem inside)
      simp only [List.getElem_modify]
      split <;> exact old
    · intro cell member v' built
      obtain ⟨i, inside, rfl⟩ := List.mem_iff_getElem.mp member
      simp only [List.length_modify] at inside
      simp only [List.getElem_modify] at built
      split at built
      · cases built
        exact holds
      · exact sound.built _ (List.getElem_mem inside) v' built
  · intro fault after faulted
    cases faulted

theorem preserves_perform {run : Traced α}
    (holds : ∀ value trace finish, run trace = (.ok value, finish) → result value) :
    Preserves good property result (Eval.perform run) := by
  intro world sound
  refine ⟨?_, ?_⟩
  · intro value after returned
    obtain ⟨finish, ran, rfl⟩ := Eval.returns_perform.mp returned
    exact ⟨sound.traced finish, holds value _ _ ran⟩
  · intro fault after faulted
    obtain ⟨finish, -, rfl⟩ := Eval.faults_perform.mp faulted
    exact sound.traced finish

theorem preserves_log (event : Event) :
    Preserves good property (fun _ => True) (Eval.log event) :=
  preserves_perform fun _ _ _ _ => trivial

/-- What remains of a resolution once the cell is found and nothing is kept in it. -/
def buildCell (id : Nat) (cell : LazyCell) : Eval Validator := do
  let v ← cell.run
  Eval.remember id v
  return v

/-- A request answers what the cell is built to, builds it where it is not, and faults where there
is none. -/
theorem ending_resolve (world : World) (id : Nat) :
    (Eval.resolve id).ending world = match world.lazies[id]? with
      | some cell => match cell.built with
        | some v => (.ok v, world)
        | none => (buildCell id cell).ending world
      | none => (.error (.misuse (.absentKey (.int id))), world) := by
  simp only [Eval.resolve, Eval.ending_bind]
  change (match world.lazies[id]? with
    | some cell => match cell.built with
      | some v => (pure v : Eval Validator)
      | none => buildCell id cell
    | none => Eval.misuse (.absentKey (.int id))).ending world = _
  rcases world.lazies[id]? with _ | ⟨label, body, _ | v⟩ <;> rfl

mutual

/-- Building a recipe that keeps schemas good gives a good schema and leaves a sound world. -/
theorem preserves_build (lazies : ∀ id, good (.validator (.lazy id))) :
    ∀ recipe : Recipe, recipe.Keeps good → Preserves good property good recipe.build
  | .calling run, keeps => by
    rw [Recipe.build]
    exact preserves_perform keeps
  | .reference name, _ => by
    rw [Recipe.build]
    exact preserves_lookup name
  | .lazy label body, keeps => by
    rw [Recipe.build]
    rw [Recipe.Keeps] at keeps
    exact (preserves_newLazy label keeps).bind fun id _ => preserves_pure (lazies id)
  | .combine construction parts, keeps => by
    rw [Recipe.build]
    rw [Recipe.Keeps] at keeps
    exact (preserves_buildAll lazies parts keeps.2).bind fun schemas all =>
      preserves_ofConstruction fun made equal => keeps.1 schemas made all equal

/-- Building several schemas in turn gives good schemas out of good recipes. -/
theorem preserves_buildAll (lazies : ∀ id, good (.validator (.lazy id))) :
    ∀ parts : List Recipe, Recipe.KeepsAll good parts →
    Preserves good property (fun schemas => ∀ schema ∈ schemas, good schema) (Recipe.buildAll parts)
  | [], _ => by
    rw [Recipe.buildAll]
    exact preserves_pure (by simp)
  | part :: rest, keeps => by
    rw [Recipe.buildAll]
    rw [Recipe.KeepsAll] at keeps
    refine (preserves_build lazies part keeps.1).bind fun schema first => ?_
    refine (preserves_buildAll lazies rest keeps.2).bind fun schemas others => ?_
    exact preserves_pure (List.forall_mem_cons.mpr ⟨first, others⟩)

end

/-- The factory of a lazy schema gives a validator that has a rule with the property. -/
theorem preserves_run (lazies : ∀ id, good (.validator (.lazy id)))
    (reads : ∀ schema v, good schema → schema.toValidator = .ok v → property v.rule)
    (cell : LazyCell)
    (keeps : cell.body.Keeps good) :
    Preserves good property (fun v => property v.rule) cell.run := by
  unfold LazyCell.run
  have rest : Preserves good property (fun v => property v.rule) (do
      let schema ← cell.body.build
      Eval.ofConstruction schema.toValidator : Eval Validator) := by
    refine (preserves_build lazies cell.body keeps).bind fun schema made => ?_
    exact preserves_ofConstruction fun v read => reads schema v made read
  cases cell.label with
  | some label => exact (preserves_log _).bind fun _ _ => rest
  | none => exact rest

private theorem preserves_buildCell (lazies : ∀ id, good (.validator (.lazy id)))
    (reads : ∀ schema v, good schema → schema.toValidator = .ok v → property v.rule) (id : Nat)
    (cell : LazyCell) (keeps : cell.body.Keeps good) :
    Preserves good property (fun v => property v.rule) (buildCell id cell) := by
  exact (preserves_run lazies reads cell keeps).bind fun v holds =>
    (preserves_remember id v holds).bind fun _ _ => preserves_pure holds

/-- Resolving a lazy schema in a sound world gives a rule with the property. -/
theorem preserves_resolve (lazies : ∀ id, good (.validator (.lazy id)))
    (reads : ∀ schema v, good schema → schema.toValidator = .ok v → property v.rule) (id : Nat) :
    Preserves good property (fun v => property v.rule) (Eval.resolve id) := by
  intro world sound
  have ending := ending_resolve world id
  cases found : world.lazies[id]? with
  | none =>
    rw [found] at ending
    refine ⟨?_, ?_⟩
    · intro v after returned
      rw [Eval.Returns, ending] at returned
      cases returned
    · intro fault after faulted
      rw [Eval.Faults, ending] at faulted
      cases faulted
      exact sound
  | some cell =>
    have member := List.mem_of_getElem? found
    rw [found] at ending
    cases built : cell.built with
    | some v =>
      simp only [built] at ending
      refine ⟨?_, ?_⟩
      · intro given after returned
        rw [Eval.Returns, ending] at returned
        cases returned
        exact ⟨sound, sound.built cell member v built⟩
      · intro fault after faulted
        rw [Eval.Faults, ending] at faulted
        cases faulted
    | none =>
      simp only [built] at ending
      have kept := preserves_buildCell lazies reads id cell (sound.recipes cell member) world sound
      unfold Eval.Returns Eval.Faults at kept ⊢
      rwa [ending]

/-- In a sound world every lazy schema is built to a rule with the property. -/
theorem Sound.builds (lazies : ∀ id, good (.validator (.lazy id)))
    (reads : ∀ schema v, good schema → schema.toValidator = .ok v → property v.rule)
    {world : World} (sound : world.Sound good property) : world.Builds property := by
  intro later id v after reached returned
  have kept : later.Sound good property := by
    refine reached.induct sound (fun _ trace sound => sound.traced trace) ?_
    intro between other sound
    have preserved := preserves_resolve lazies reads other between sound
    rcases Eval.ends (Eval.resolve other) between with ⟨v, next, resolved⟩ | ⟨fault, next, faulted⟩
    · have kept := (preserved.1 v next resolved).1
      rwa [← show ((Eval.resolve other).ending between).2 = next by rw [resolved]] at kept
    · have kept := preserved.2 fault next faulted
      rwa [← show ((Eval.resolve other).ending between).2 = next by rw [faulted]] at kept
  exact ((preserves_resolve lazies reads id later kept).1 v after returned).2

/-- The validator that a schema is read as, if any, has a rule with the property. -/
def Reads (property : Rule → Prop) (schema : Schema) : Prop :=
  ∀ v, schema.toValidator = .ok v → property v.rule

/-- Lazy schemas are built to rules with a property when everything they can be made of is read as
such rules. -/
theorem Sound.builds_of_reads (lazies : ∀ id, property (.lazy id)) {world : World}
    (sound : world.Sound (Reads property) property) : world.Builds property := by
  refine sound.builds ?_ fun schema v reads read => reads v read
  rintro id v ⟨⟩
  exact lazies id

theorem initial_builds (lazies : ∀ id, property (.lazy id)) (vendor : String) :
    (World.initial vendor).Builds property := by
  have sound : (World.initial vendor).Sound (Reads property) property :=
    ⟨fun _ member => (nomatch member), fun _ member => (nomatch member),
      fun _ member => (nomatch member)⟩
  exact sound.builds_of_reads lazies

end World

end Conform
