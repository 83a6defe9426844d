import Conform.Proofs.Evaluation.Composed

/-!
Steady computations: they end in one way in every world and leave it as it is. Rules without lazy
parts over pure callbacks are steady (`Rule.Eager.steady`), and what they give to a value is then a
relation between values that has no world in it.
-/
namespace Conform

variable {α β : Type}

/-- A run that ends in one way whatever was left behind before, and leaves nothing behind. -/
def Traced.Steady (run : Traced α) : Prop := ∃ answer, ∀ trace, run.ending trace = (answer, trace)

/-- A callback whose answer depends on its argument only. -/
def Callable.Pure (function : Callable) : Prop := ∀ x, (function.run x).Steady

/-- A supplied piece whose answers depend on its argument only. -/
def Piece.Pure : Piece → Prop
  | .callback function | .renderer function => function.Pure
  | .reporter function | .pair _ function => ∀ x, (function.run x).Steady
  | .message _ => True

/-- Two callbacks that are steady in turn are steady together. -/
theorem Traced.Steady.bind {run : Traced α} {next : α → Traced β} (first : run.Steady)
    (rest : ∀ value, (next value).Steady) : (run >>= next).Steady := by
  obtain ⟨answer, ends⟩ := first
  cases answer with
  | error fault =>
    refine ⟨.error fault, fun trace => ?_⟩
    rw [ending_bind, ends trace]
  | ok value =>
    obtain ⟨further, later⟩ := rest value
    refine ⟨further, fun trace => ?_⟩
    rw [ending_bind, ends trace]
    exact later trace

/-- Runs that call pure callbacks only are steady. -/
theorem Traced.Calls.steady {run : Traced α} (calls : run.Calls Piece.Pure) : run.Steady := by
  induction calls with
  | pure value => exact ⟨.ok value, fun _ => rfl⟩
  | misuse cause => exact ⟨.error (.misuse cause), fun _ => rfl⟩
  | bind _ _ first rest => exact first.bind rest
  | callback supplied x | renderer supplied x => exact supplied x

namespace Checked

/-- The computation ends in one way in every world and leaves the world as it is. -/
def Steady (computation : Checked α) : Prop :=
  ∃ answer, ∀ world, computation.ending world = (answer, world)

/-- In every world the computation returns the value and leaves the world as it is. -/
def Gives (computation : Checked α) (value : α) : Prop :=
  ∀ world, computation.Returns world value world

/-- In every world the computation reports one failure and leaves the world as it is. -/
def Fails (computation : Checked α) : Prop :=
  ∃ failure, ∀ world, computation.Reports world failure world

/-- In every world the computation reports one failure, which can be written, and leaves the world
as it is. -/
def Refuses (computation : Checked α) : Prop :=
  ∃ failure : Failure, failure.Legible ∧ ∀ world, computation.Reports world failure world

variable {computation : Checked α} {next : α → Checked β} {value : α} {world after : World}

/-- Two computations that are steady in turn are steady together. -/
theorem Steady.bind (first : computation.Steady) (rest : ∀ value, (next value).Steady) :
    (computation >>= next).Steady := by
  obtain ⟨answer, ends⟩ := first
  rcases answer with fault | failure | value
  · refine ⟨.error fault, fun world => ?_⟩
    rw [ending_bind, ends world]
  · refine ⟨.ok (.error failure), fun world => ?_⟩
    rw [ending_bind, ends world]
  · obtain ⟨further, later⟩ := rest value
    refine ⟨further, fun world => ?_⟩
    rw [ending_bind, ends world]
    exact later world

theorem Steady.attempt (steady : computation.Steady) : (attempt computation).Steady := by
  obtain ⟨answer, ends⟩ := steady
  rcases answer with fault | result
  · refine ⟨.error fault, fun world => ?_⟩
    rw [ending_attempt, ends world]
  · refine ⟨.ok (.ok result), fun world => ?_⟩
    rw [ending_attempt, ends world]

theorem steady_report (worded : Option Failure) : (report worded : Checked α).Steady := by
  cases worded with
  | some failure => exact ⟨.ok (.error failure), fun _ => rfl⟩
  | none => exact ⟨.error (.misuse .unwritableInteger), fun _ => rfl⟩

theorem Steady.reword (steady : computation.Steady) (wording : Failure → Option Failure) :
    (reword wording computation).Steady := by
  refine steady.attempt.bind fun result => ?_
  cases result with
  | ok value => exact ⟨.ok (.ok value), fun _ => rfl⟩
  | error failure => exact steady_report _

theorem Steady.within (steady : computation.Steady) (place : Place) :
    (within place computation).Steady := steady.reword _

theorem steady_guarded {run : Traced α} (steady : run.Steady) (default : Value) :
    (guarded default run).Steady := by
  obtain ⟨answer, ends⟩ := steady
  cases answer with
  | ok value =>
    refine ⟨.ok (.ok value), fun world => ?_⟩
    rw [ending_guarded, ends world.trace]
    rfl
  | error fault =>
    cases caught : fault.caught? default with
    | some failure =>
      refine ⟨.ok (.error failure), fun world => ?_⟩
      simp only [ending_guarded, ends world.trace, caught]
      rfl
    | none =>
      refine ⟨.error fault.passed, fun world => ?_⟩
      simp only [ending_guarded, ends world.trace, caught]
      rfl

theorem steady_perform {run : Traced α} (steady : run.Steady) : (perform run).Steady := by
  obtain ⟨answer, ends⟩ := steady
  cases answer with
  | ok value =>
    refine ⟨.ok (.ok value), fun world => ?_⟩
    have performed := returns_perform.mpr ⟨world.trace, ends world.trace, rfl⟩
    exact performed
  | error fault =>
    refine ⟨.error fault, fun world => ?_⟩
    have performed := faults_perform.mpr ⟨world.trace, ends world.trace, rfl⟩
    exact performed

/-- Computations composed of pure pieces and steady parts are steady. -/
theorem Composed.steady {part : Checked Value → Prop} (parts : ∀ given, part given → given.Steady)
    (composed : computation.Composed Piece.Pure part) : computation.Steady := by
  induction composed with
  | pure value => exact ⟨.ok (.ok value), fun _ => rfl⟩
  | reject failure => exact ⟨.ok (.error failure), fun _ => rfl⟩
  | misuse cause => exact ⟨.error (.misuse cause), fun _ => rfl⟩
  | bind _ _ first rest => exact first.bind rest
  | attempt _ inner => exact inner.attempt
  | guarded default calls => exact steady_guarded calls.steady default
  | reporter supplied x | result supplied x => exact steady_perform (supplied x)
  | part given => exact parts _ given

/-- What a steady computation returns in one world it gives in all of them. -/
theorem Steady.returns_iff (steady : computation.Steady) :
    computation.Returns world value after ↔ computation.Gives value ∧ world = after := by
  obtain ⟨answer, ends⟩ := steady
  constructor
  · intro returned
    cases (ends world).symm.trans returned
    exact ⟨ends, rfl⟩
  · rintro ⟨gives, rfl⟩
    exact gives world

/-- What a steady computation reports in one world it reports in all of them. -/
theorem Steady.fails_of_reports {failure : Failure} (steady : computation.Steady)
    (reported : computation.Reports world failure after) : computation.Fails := by
  obtain ⟨answer, ends⟩ := steady
  cases (ends world).symm.trans reported
  exact ⟨failure, ends⟩

variable {given : α} {further : β} {x y : Value}

theorem Gives.unique {other : α} (one : computation.Gives value) (two : computation.Gives other) :
    value = other := by
  -- no world is named in the statement, so one is taken at hand
  cases (one (World.initial "")).symm.trans (two (World.initial ""))
  rfl

theorem gives_pure : (pure given : Checked α).Gives value ↔ given = value := by
  constructor
  · intro gives
    exact (returns_pure.mp (gives (World.initial ""))).1
  · rintro rfl world
    exact returns_pure.mpr ⟨rfl, rfl⟩

theorem not_gives_reject {failure : Failure} :
    ¬(reject failure : Checked α).Gives value := fun gives =>
  returns_reject (gives (World.initial ""))

theorem not_gives_misuse {cause : Misuse} : ¬(misuse cause : Checked α).Gives value := fun gives =>
  returns_misuse (gives (World.initial ""))

/-- A steady computation gives in sequence what the next one gives for its value. -/
theorem Steady.gives_bind (steady : computation.Steady) :
    (computation >>= next).Gives further ↔
      ∃ value, computation.Gives value ∧ (next value).Gives further := by
  constructor
  · intro gives
    obtain ⟨value, between, first, -⟩ := returns_bind.mp (gives (World.initial ""))
    obtain ⟨given, -⟩ := steady.returns_iff.mp first
    refine ⟨value, given, fun world => ?_⟩
    obtain ⟨other, reached, early, late⟩ := returns_bind.mp (gives world)
    obtain ⟨same, rfl⟩ := steady.returns_iff.mp early
    cases same.unique given
    exact late
  · rintro ⟨value, first, rest⟩ world
    exact returns_bind.mpr ⟨value, world, first world, rest world⟩

theorem gives_reword {wording : Failure → Option Failure} :
    (reword wording computation).Gives value ↔ computation.Gives value :=
  forall_congr' fun _ => returns_reword

theorem gives_within {place : Place} :
    (within place computation).Gives value ↔ computation.Gives value := gives_reword

theorem gives_provided {condition : Bool} {failure : Failure} :
    (SafeForm.provided condition failure x).Gives y ↔ condition ∧ x = y := by
  constructor
  · intro gives
    obtain ⟨holds, same, -⟩ := SafeForm.returns_provided.mp (gives (World.initial ""))
    exact ⟨holds, same⟩
  · rintro ⟨holds, rfl⟩ world
    exact SafeForm.returns_provided.mpr ⟨holds, rfl, rfl⟩

theorem gives_entriesOf_bind {failure : Failure} {next : List (Value × Value) → Checked β} :
    (SafeForm.entriesOf failure x >>= next).Gives further ↔
      ∃ entries, x.entries? = some entries ∧ (next entries).Gives further := by
  unfold SafeForm.entriesOf
  cases x.entries? with
  | some entries => simp only [pure_bind, Option.some.injEq, exists_eq_left']
  | none =>
    constructor
    · intro gives
      exact absurd gives not_gives_reject
    · rintro ⟨entries, absent, -⟩
      cases absent

theorem gives_itemsOf_bind {next : List Value → Checked β} :
    (SafeForm.itemsOf x >>= next).Gives further ↔
      ∃ items, x.items? = some items ∧ (next items).Gives further := by
  unfold SafeForm.itemsOf
  cases x.items? with
  | some items => simp only [pure_bind, Option.some.injEq, exists_eq_left']
  | none =>
    constructor
    · intro gives
      exact absurd gives not_gives_reject
    · rintro ⟨items, absent, -⟩
      cases absent

theorem gives_requireHashable_bind {next : Unit → Checked β} :
    (SafeForm.requireHashable x >>= next).Gives further ↔
      x.unhashable? = none ∧ (next ()).Gives further := by
  unfold SafeForm.requireHashable
  cases x.unhashable? with
  | none => simp only [pure_bind, true_and]
  | some found =>
    constructor
    · intro gives
      obtain ⟨value, between, first, -⟩ := returns_bind.mp (gives (World.initial ""))
      exact absurd first returns_misuse
    · rintro ⟨absent, -⟩
      cases absent

end Checked

namespace Rule

/-- A rule that no lazy rule is part of. -/
inductive Eager : Rule → Prop
  | intro {rule : Rule} (present : ∀ id, rule ≠ .lazy id)
      (parts : ∀ part ∈ rule.parts, Eager part) :
      Eager rule

variable {rule : Rule} {first second : Nat → SafeForm}

theorem safeAll_congr {parts : List Rule}
    (agree : ∀ part ∈ parts, part.safe first = part.safe second) :
    safeAll first parts = safeAll second parts := by
  rw [safeAll_eq_map, safeAll_eq_map]
  exact List.map_congr_left agree

theorem safeFields_congr {fields : List (Value × Rule)}
    (agree : ∀ part ∈ fields.map (·.2), part.safe first = part.safe second) :
    safeFields first fields = safeFields second fields := by
  rw [safeFields_eq_map, safeFields_eq_map]
  refine List.map_congr_left fun field inside => ?_
  rw [agree field.2 (List.mem_map_of_mem inside)]

/-- The safe form of a rule that is not lazy itself depends on those of its parts only. -/
theorem safe_congr (present : ∀ id, rule ≠ .lazy id)
    (agree : ∀ part ∈ rule.parts, part.safe first = part.safe second) :
    rule.safe first = rule.safe second := by
  cases rule with
  | lazy id => exact absurd rfl (present id)
  | accepting | withDefault | recovering | rejecting | refine | transform | preprocess | retitle
  | forward | array | passthrough | lenient | required | set =>
    simp only [safe, agree _ (List.mem_singleton.mpr rfl)]
  | pipe parts | union parts | discriminatedUnion parts | variant _ parts | intersect parts
  | tuple parts | looseTuple parts =>
    have same : safeAll first parts = safeAll second parts := safeAll_congr agree
    simp only [safe, same]
  | tupleWithRest parts rest =>
    obtain ⟨positions, further⟩ := List.forall_mem_append.mp agree
    simp only [safe, safeAll_congr positions, further rest (List.mem_singleton.mpr rfl)]
  | object fields | looseObject fields =>
    have same : safeFields first fields = safeFields second fields := safeFields_congr agree
    simp only [safe, same]
  | objectWithRest fields rest =>
    obtain ⟨declared, further⟩ := List.forall_mem_append.mp agree
    simp only [safe, safeFields_congr declared, further rest (List.mem_singleton.mpr rfl)]
  | record key value | map key value =>
    obtain ⟨keys, values⟩ := List.forall_mem_cons.mp agree
    simp only [safe, keys, values value (List.mem_singleton.mpr rfl)]
  | _ => rfl

/-- Eager rules never look at lazy ones. -/
theorem Eager.safe_eq (eager : rule.Eager) (first second : Nat → SafeForm) :
    rule.safe first = rule.safe second := by
  induction eager with
  | intro present _ agree => exact safe_congr present agree

/-- Eager rules over pure pieces are steady. -/
theorem Eager.steady (eager : rule.Eager) (supplied : rule.SuppliedBy Piece.Pure)
    (onLazy : Nat → SafeForm) (x : Value) : (rule.safe onLazy x).Steady := by
  have lazies : ∀ id, SafeForm.Composed Piece.Pure (fun _ => False) (lazySafe 0 id) :=
    fun id x => .misuse .tooDeep
  have composed := composed_safe lazies rule supplied x
  rw [eager.safe_eq onLazy (lazySafe 0)]
  exact composed.steady nofun

end Rule

end Conform
