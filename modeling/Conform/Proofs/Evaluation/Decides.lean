import Conform.Proofs.Evaluation.Visits

/-!
Computations that decide. Without callbacks a safe form returns or reports in every world, which of
the two does not depend on the world, and the world stays as it is. How constructions decide follows
from how their parts do.
-/
namespace Conform

namespace Checked

variable {α β : Type}

/-- The computation returns or reports, whatever the world, as the answer says; what it reports can
be written. -/
def Decides (computation : Checked α) (accepts : Bool) : Prop :=
  ∀ world, match accepts with
    | true => ∃ y, computation.Returns world y world
    | false => ∃ failure : Failure, computation.Reports world failure world ∧ failure.Legible

variable {computation : Checked α} {next : α → Checked β} {accepts further : Bool}

theorem decides_pure (y : α) : Decides (pure y) true := fun _ => ⟨y, returns_pure.mpr ⟨rfl, rfl⟩⟩

theorem decides_reject {failure : Failure} (legible : failure.Legible) :
    Decides (reject failure : Checked α) false :=
  fun _ => ⟨failure, reports_reject.mpr ⟨rfl, rfl⟩, legible⟩

theorem decides_provided (condition : Bool) {failure : Failure} (legible : failure.Legible)
    (x : Value) : Decides (SafeForm.provided condition failure x) condition := by
  cases condition with
  | true => exact decides_pure x
  | false => exact decides_reject legible

/-- A computation that decides returns exactly when the answer is yes. -/
theorem Decides.returns_iff (decides : computation.Decides accepts) (world : World) :
    (∃ y, computation.Returns world y world) ↔ accepts = true := by
  have decided := decides world
  cases accepts with
  | true => exact ⟨fun _ => rfl, fun _ => decided⟩
  | false =>
    obtain ⟨failure, reported, -⟩ := decided
    refine ⟨fun ⟨y, returned⟩ => ?_, nofun⟩
    cases reported.symm.trans returned

/-- A computation that decides reports exactly when the answer is no. -/
theorem Decides.reports_iff (decides : computation.Decides accepts) (world : World) :
    (∃ failure, computation.Reports world failure world) ↔ accepts = false := by
  have decided := decides world
  cases accepts with
  | false =>
    obtain ⟨failure, reported, -⟩ := decided
    exact ⟨fun _ => rfl, fun _ => ⟨failure, reported⟩⟩
  | true =>
    obtain ⟨y, returned⟩ := decided
    refine ⟨fun ⟨failure, reported⟩ => ?_, nofun⟩
    cases reported.symm.trans returned

/-- What follows a computation that accepts decides. -/
theorem Decides.bind (first : computation.Decides accepts)
    (rest : accepts = true → ∀ world y, computation.Returns world y world →
      (next y).Decides further) :
    (computation >>= next).Decides (accepts && further) := by
  intro world
  have decided := first world
  cases accepts with
  | false =>
    obtain ⟨failure, reported, legible⟩ := decided
    exact ⟨failure, reports_bind.mpr (.inl reported), legible⟩
  | true =>
    obtain ⟨y, returned⟩ := decided
    have later := rest rfl world y returned world
    cases further with
    | true =>
      obtain ⟨z, after⟩ := later
      exact ⟨z, returns_bind.mpr ⟨y, world, returned, after⟩⟩
    | false =>
      obtain ⟨failure, reported, legible⟩ := later
      exact ⟨failure, reports_bind.mpr (.inr ⟨y, world, returned, reported⟩), legible⟩

/-- Putting the output together does not change the decision. -/
theorem Decides.bind_pure (first : computation.Decides accepts) (output : α → β) :
    (computation >>= fun y => pure (output y)).Decides accepts := by
  have composed := first.bind fun _ _ y _ => decides_pure (output y)
  rwa [Bool.and_true] at composed

/-- Other words change nothing about the decision when they can be found for what can be written. -/
theorem Decides.reword (decides : computation.Decides accepts) {wording : Failure → Option Failure}
    (words : ∀ failure : Failure, failure.Legible →
      ∃ worded, wording failure = some worded ∧ worded.Legible) :
    (reword wording computation).Decides accepts := by
  intro world
  have decided := decides world
  cases accepts with
  | true =>
    obtain ⟨y, returned⟩ := decided
    exact ⟨y, returns_reword.mpr returned⟩
  | false =>
    obtain ⟨failure, reported, legible⟩ := decided
    obtain ⟨worded, found, still⟩ := words failure legible
    exact ⟨worded, reports_reword.mpr ⟨failure, reported, found⟩, still⟩

theorem Decides.within (decides : computation.Decides accepts) {place : Place}
    (shown : Value.areWritable place.shown) : (within place computation).Decides accepts :=
  decides.reword fun _ legible => legible.placed shown

/-- Nothing follows a value that is no dictionary. -/
theorem decides_entriesOf {x : Value} {failure : Failure} {next : List (Value × Value) → Checked β}
    (none : x.entries? = none) (legible : failure.Legible) :
    (SafeForm.entriesOf failure x >>= next).Decides false := by
  intro world
  exact ⟨failure,
    reports_bind.mpr (.inl (SafeForm.reports_entriesOf.mpr ⟨none, rfl, rfl⟩)), legible⟩

end Checked

/-- What the label of a visit shows can be written. -/
def Visit.IsLegible (visit : Visit) : Prop :=
  ∀ place, visit.place = some place → Value.areWritable place.shown

namespace Visit.IsLegible

theorem position (i : Nat) (rule : Rule) (x : Value) :
    IsLegible ⟨some (.position i), rule, x⟩ := by
  rintro place ⟨⟩
  rfl

theorem key {key : Value} (writable : key.isWritable) (rule : Rule) (x : Value) :
    IsLegible ⟨some (.key key), rule, x⟩ := by
  rintro place ⟨⟩
  exact Value.areWritable_iff.mpr (List.forall_mem_singleton.mpr writable)

theorem whole (rule : Rule) (x : Value) : IsLegible ⟨none, rule, x⟩ := fun _ absent =>
    nomatch absent

end Visit.IsLegible

namespace Rule

open Checked SafeForm

theorem legible_refusal {rule : Rule} {x : Value} : (rule.refusal x).Legible := by
  cases rule with
  | tuple | looseTuple | tupleWithRest =>
    simp only [refusal]
    cases x.items? with
    | none => exact Failure.legible_expecting _ _
    | some items => exact Failure.legible_plain _
  | _ => exact Failure.legible_expecting _ _

variable {onLazy : Nat → SafeForm} {ι : Type} {x : Value}

/-- Alternatives accept when one of them does. -/
theorem decides_firstMatch {otherwise : Checked Value} (refuses : otherwise.Decides false)
    (items : List ι) (rule : ι → Rule) (accepts : ι → Bool)
    (decides : ∀ item ∈ items, ((rule item).safe onLazy x).Decides (accepts item)) :
    (firstMatch otherwise (safeAll onLazy (items.map rule)) x).Decides (items.any accepts) := by
  induction items with
  | nil => exact refuses
  | cons item rest ih =>
    intro world
    have decided := decides item List.mem_cons_self world
    have later := ih (fun other member => decides other (List.mem_cons_of_mem _ member)) world
    simp only [List.map_cons, safeAll, firstMatch, List.any_cons]
    cases accepted : accepts item with
    | true =>
      rw [accepted] at decided
      obtain ⟨y, returned⟩ := decided
      exact ⟨y, returns_attempt_bind.mpr (.inl ⟨y, world, returned, returns_pure.mpr ⟨rfl, rfl⟩⟩)⟩
    | false =>
      rw [accepted] at decided
      obtain ⟨failure, reported, -⟩ := decided
      rw [Bool.false_or]
      cases others : rest.any accepts with
      | true =>
        rw [others] at later
        obtain ⟨y, returned⟩ := later
        exact ⟨y, returns_attempt_bind.mpr (.inr ⟨failure, world, reported, returned⟩)⟩
      | false =>
        rw [others] at later
        obtain ⟨refused, later, legible⟩ := later
        exact ⟨refused, reports_attempt_bind.mpr (.inr ⟨failure, world, reported, later⟩), legible⟩

/-- A visit decides as its rule does when what its label shows can be written. -/
theorem decides_visit {visit : Visit} {accepts : Bool} (shown : visit.IsLegible)
    (decides : (visit.rule.safe onLazy visit.value).Decides accepts) :
    (visit.run onLazy).Decides accepts := by
  obtain ⟨place, rule, value⟩ := visit
  cases place with
  | none => exact decides.reword fun failure legible => ⟨failure, rfl, legible⟩
  | some place => exact decides.within (shown place rfl)

/-- Visits accept when each of them does. -/
theorem decides_runVisits (items : List ι) (visit : ι → Visit) (accepts : ι → Bool)
    (shown : ∀ item ∈ items, (visit item).IsLegible)
    (decides : ∀ item ∈ items,
      ((visit item).rule.safe onLazy (visit item).value).Decides (accepts item)) :
    (runVisits onLazy (items.map visit)).Decides (items.all accepts) := by
  induction items with
  | nil => exact decides_pure []
  | cons item rest ih =>
    have first := decides_visit (shown item List.mem_cons_self) (decides item List.mem_cons_self)
    have later := ih (fun other member => shown other (List.mem_cons_of_mem _ member))
      fun other member => decides other (List.mem_cons_of_mem _ member)
    exact first.bind fun _ _ y _ => later.bind_pure (y :: ·)

/-- Visiting items decides whether all of them are accepted. -/
theorem decides_itemVisits {item : Rule} {accepts : Value → Bool} (i : Nat) (xs : List Value)
    (decides : ∀ x ∈ xs, (item.safe onLazy x).Decides (accepts x)) :
    (runVisits onLazy (itemVisits item i xs)).Decides (xs.all accepts) := by
  induction xs generalizing i with
  | nil => exact decides_pure []
  | cons x rest ih =>
    have shown := Visit.IsLegible.position i item x
    have first := decides_visit shown (decides x List.mem_cons_self)
    have later := ih (i + 1) fun other member => decides other (List.mem_cons_of_mem _ member)
    exact first.bind fun _ _ y _ => later.bind_pure (y :: ·)

/-- Visiting positions decides whether each item is accepted at its own. -/
theorem decides_positionVisits {rule : ι → Rule} {accepts : ι → Value → Bool} (i : Nat)
    (items : List ι) (xs : List Value)
    (decides : ∀ item ∈ items, ∀ x ∈ xs, ((rule item).safe onLazy x).Decides (accepts item x)) :
    (runVisits onLazy (positionVisits i (items.map rule) xs)).Decides
      ((items.zip xs).all fun pair => accepts pair.1 pair.2) := by
  induction items generalizing i xs with
  | nil => cases xs <;> exact decides_pure []
  | cons item rest ih =>
    cases xs with
    | nil => exact decides_pure []
    | cons x xs =>
      have shown := Visit.IsLegible.position i (rule item) x
      have first := decides_visit shown (decides item List.mem_cons_self x List.mem_cons_self)
      have later := ih (i + 1) xs fun other member y inside =>
        decides other (List.mem_cons_of_mem _ member) y (List.mem_cons_of_mem _ inside)
      exact first.bind fun _ _ y _ => later.bind_pure (y :: ·)

/-- Visiting undeclared entries decides whether their values are accepted, as their keys can be
written. -/
theorem decides_restVisits {declared : List Value} {rest : Rule} {accepts : Value → Bool}
    (entries : List (Value × Value)) (shown : ∀ entry ∈ entries, entry.1.isWritable)
    (decides : ∀ entry ∈ entries, (rest.safe onLazy entry.2).Decides (accepts entry.2)) :
    (runVisits onLazy (restVisits declared rest entries)).Decides
      (entries.all fun entry => declared.any (· == entry.1) || accepts entry.2) := by
  have undeclared : (runVisits onLazy (restVisits declared rest entries)).Decides
      ((entries.filter fun entry => !declared.any (· == entry.1)).all fun entry =>
        accepts entry.2) :=
    decides_runVisits _ _ _
      (fun entry member => .key (shown entry (List.mem_filter.mp member).1) _ _)
      fun entry member => decides entry (List.mem_filter.mp member).1
  have same : ((entries.filter fun entry => !declared.any (· == entry.1)).all
      fun entry => accepts entry.2) =
      entries.all fun entry => declared.any (· == entry.1) || accepts entry.2 := by
    rw [List.all_filter]
    refine congrArg (List.all entries) (funext fun entry => ?_)
    cases declared.any (· == entry.1) <;> rfl
  rw [← same]
  exact undeclared

/-- Visits one after the other accept when both do. -/
theorem decides_append {before others : List Visit} {first second : Bool}
    (early : (runVisits onLazy before).Decides first)
    (late : (runVisits onLazy others).Decides second) :
    (runVisits onLazy (before ++ others)).Decides (first && second) := by
  rw [runVisits_append]
  exact early.bind fun _ _ ys _ => late.bind_pure (ys ++ ·)

/-- A structural rule decides as its visits do. -/
theorem decides_of_visits {rule : Rule} {visits : List Visit} {accepts : Bool}
    (given : rule.visits? x = some visits) (decides : (runVisits onLazy visits).Decides accepts) :
    (rule.safe onLazy x).Decides accepts := by
  obtain ⟨output, equal⟩ := safe_eq_runVisits given
  rw [equal]
  exact decides.bind_pure output

/-- A structural rule without visits refuses. -/
theorem decides_of_unvisited {rule : Rule} (structural : rule.isStructural)
    (unvisited : rule.visits? x = none) : (rule.safe onLazy x).Decides false := by
  rw [safe_eq_reject onLazy structural unvisited]
  exact decides_reject legible_refusal

/-- Entries accept when each key and each value does and all key outputs can be keys. -/
theorem decides_eachEntry {onKey : Value → Failure → Option Failure} {onValue : Value → Place}
    {keys values : Rule} {keyAccepts valueAccepts : Value → Bool}
    (entries out : List (Value × Value))
    (words : ∀ key failure, failure.Legible → ∃ worded, onKey key failure = some worded ∧
      worded.Legible)
    (shown : ∀ entry ∈ entries, Value.areWritable (onValue entry.1).shown)
    (decideKey : ∀ entry ∈ entries, (keys.safe onLazy entry.1).Decides (keyAccepts entry.1))
    (hashable : ∀ entry ∈ entries, ∀ world k, (keys.safe onLazy entry.1).Returns world k world →
      k.unhashable? = none)
    (decideValue : ∀ entry ∈ entries, (values.safe onLazy entry.2).Decides (valueAccepts entry.2)) :
    (eachEntry onKey onValue (keys.safe onLazy) (values.safe onLazy) entries out).Decides
      (entries.all fun entry => keyAccepts entry.1 && valueAccepts entry.2) := by
  induction entries generalizing out with
  | nil => exact decides_pure out
  | cons entry rest ih =>
    have later := fun out =>
      ih out (fun other member => shown other (List.mem_cons_of_mem _ member))
      (fun other member => decideKey other (List.mem_cons_of_mem _ member))
      (fun other member => hashable other (List.mem_cons_of_mem _ member))
      (fun other member => decideValue other (List.mem_cons_of_mem _ member))
    simp only [List.all_cons, Bool.and_assoc]
    refine ((decideKey entry List.mem_cons_self).reword (words entry.1)).bind
      fun _ world k returned => ?_
    refine ((decideValue entry List.mem_cons_self).within (shown entry List.mem_cons_self)).bind
      fun _ _ y _ => ?_
    have output := hashable entry List.mem_cons_self world k (returns_reword.mp returned)
    simp only [requireHashable, output, pure_bind]
    exact later _

/-- A test that no callback takes part in decides by its answer. -/
theorem decides_check {test : Check} {message : String} {accepts : Bool}
    (answered : SafeForm.answer test x = pure accepts) :
    ((Rule.check test message).safe onLazy x).Decides accepts := by
  have guarded : (guarded (.str message) (SafeForm.answer test x)).Decides true := by
    intro world
    rw [answered]
    exact ⟨accepts, returns_guarded.mpr ⟨world.trace, rfl, rfl⟩⟩
  have decided : ((Rule.check test message).safe onLazy x).Decides (true && accepts) := by
    refine guarded.bind fun _ world passed returned => ?_
    rw [answered] at returned
    obtain ⟨trace, ran, -⟩ := returns_guarded.mp returned
    obtain ⟨rfl, -⟩ := Traced.returns_pure.mp ran
    exact decides_provided accepts (Failure.legible_plain message) x
  rwa [Bool.true_and] at decided

end Rule

end Conform
