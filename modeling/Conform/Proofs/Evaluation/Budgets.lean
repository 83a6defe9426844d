import Conform.Proofs.Evaluation.Reaches

/-!
What a larger budget for lazy rules changes. An evaluation that stays clear of the recursion limit
ends the same way with any larger budget, whatever it does on the way (`Rule.safe_deepens`): the
budget is a limit on recursion and nothing else.
-/
namespace Conform

namespace Checked

variable {α β : Type} {first second : Checked α}

/-- In every world the second computation ends as the first does, unless the first goes too deep. -/
def Deepens (first second : Checked α) : Prop :=
  ∀ world, (∃ after, first.Faults world (.misuse .tooDeep) after) ∨
    second.ending world = first.ending world

theorem Deepens.refl (computation : Checked α) : computation.Deepens computation :=
  fun _ => .inr rfl

/-- Sequencing deepens when both of its halves do. -/
theorem Deepens.bind {next later : α → Checked β} (deepens : first.Deepens second)
    (rest : ∀ value, (next value).Deepens (later value)) :
      (first >>= next).Deepens (second >>= later) := by
  intro world
  rcases deepens world with ⟨after, deep⟩ | same
  · exact .inl ⟨after, faults_bind.mpr (.inl deep)⟩
  · rcases ended : first.ending world with ⟨fault | failure | value, between⟩
    · exact .inr (by rw [ending_bind, ending_bind, same, ended])
    · exact .inr (by rw [ending_bind, ending_bind, same, ended])
    · rcases rest value between with ⟨after, deep⟩ | also
      · exact .inl ⟨after, faults_bind.mpr (.inr ⟨value, between, ended, deep⟩)⟩
      · exact .inr (by rw [ending_bind, ending_bind, same, ended]; exact also)

theorem Deepens.attempt (deepens : first.Deepens second) :
    (attempt first).Deepens (attempt second) := by
  intro world
  rcases deepens world with ⟨after, deep⟩ | same
  · refine .inl ⟨after, ?_⟩
    have ended : first.ending world = (.error (.misuse .tooDeep), after) := deep
    rw [Faults, ending_attempt, ended]
  · exact .inr (by rw [ending_attempt, ending_attempt, same])

theorem Deepens.reword (deepens : first.Deepens second) (wording : Failure → Option Failure) :
    (reword wording first).Deepens (reword wording second) :=
  deepens.attempt.bind fun _ => .refl _

end Checked

namespace Rule

open Checked SafeForm

/-- The second interpretation of lazy rules deepens what becomes of the rule with the first one. -/
def Deepens (first second : Nat → SafeForm) (rule : Rule) : Prop :=
  ∀ x, (rule.safe first x).Deepens (rule.safe second x)

variable {first second : Nat → SafeForm} {inner : Rule}

section Single

variable (deepens : Deepens first second inner)
include deepens

theorem deepens_accepting (absence : Absence) :
    Deepens first second (.accepting absence inner) := by
  intro x
  simp only [safe, SafeForm.accepting]
  split
  · exact .refl _
  · exact deepens x

theorem deepens_withDefault (value : Value) : Deepens first second (.withDefault inner value) := by
  intro x
  simp only [safe, SafeForm.withDefault]
  split
  · exact .refl _
  · exact deepens x

theorem deepens_recovering (value : Value) :
    Deepens first second (.recovering inner value) := fun x =>
  (deepens x).attempt.bind fun _ => .refl _

theorem deepens_eachEntry (onKey : Value → Failure → Option Failure)
    (onValue : Value → Place) {value : Rule}
    (values : Deepens first second value) (entries out : List (Value × Value)) :
    (eachEntry onKey onValue (inner.safe first) (value.safe first) entries out).Deepens
      (eachEntry onKey onValue (inner.safe second) (value.safe second) entries out) := by
  induction entries generalizing out with
  | nil => exact .refl _
  | cons entry rest ih =>
    exact ((deepens entry.1).reword _).bind fun k => ((values entry.2).reword _).bind fun y =>
      (Deepens.refl _).bind fun _ => ih _

theorem deepens_eachElement (i : Nat) (xs : List Value) :
    (eachElement (inner.safe first) i xs).Deepens (eachElement (inner.safe second) i xs) := by
  induction xs generalizing i with
  | nil => exact .refl _
  | cons x rest ih =>
    exact ((deepens x).reword _).bind fun y => (Deepens.refl _).bind fun _ =>
      (ih (i + 1)).bind fun _ => .refl _

theorem deepens_set : Deepens first second (.set inner) := by
  intro x
  simp only [safe, SafeForm.set]
  cases x.elements? with
  | none => exact .refl _
  | some elements => exact (deepens_eachElement deepens 0 elements).bind fun _ => .refl _

end Single

section Several

variable {parts : List Rule} (deepens : ∀ part ∈ parts, Deepens first second part)
include deepens

theorem deepens_pipe : Deepens first second (.pipe parts) := by
  induction parts with
  | nil => exact fun _ => .refl _
  | cons step rest ih =>
    obtain ⟨here, others⟩ := List.forall_mem_cons.mp deepens
    exact fun x => (here x).bind fun y => ih others y

/-- The first match among alternatives deepens when each alternative does. -/
theorem deepens_firstMatch (otherwise : Checked Value) (x : Value) :
    (firstMatch otherwise (safeAll first parts) x).Deepens
      (firstMatch otherwise (safeAll second parts) x) := by
  induction parts with
  | nil => exact .refl _
  | cons option rest ih =>
    obtain ⟨here, others⟩ := List.forall_mem_cons.mp deepens
    refine (here x).attempt.bind fun result => ?_
    cases result with
    | ok y => exact .refl _
    | error failure => exact ih others

end Several

theorem deepens_runVisits {visits : List Visit}
    (deepens : ∀ visit ∈ visits, Deepens first second visit.rule) :
    (runVisits first visits).Deepens (runVisits second visits) := by
  induction visits with
  | nil => exact .refl _
  | cons visit rest ih =>
    obtain ⟨here, others⟩ := List.forall_mem_cons.mp deepens
    exact ((here visit.value).reword _).bind fun y => (ih others).bind fun ys => .refl _

/-- A structural rule deepens as its parts do. -/
theorem deepens_structural {rule : Rule} (structural : rule.isStructural)
    (deepens : ∀ part ∈ rule.parts, Deepens first second part) : Deepens first second rule := by
  intro x
  cases given : rule.visits? x with
  | none =>
    rw [safe_eq_reject first structural given, safe_eq_reject second structural given]
    exact .refl _
  | some visits =>
    obtain ⟨output, equal⟩ := safe_eq_runVisits given
    rw [equal, equal]
    exact (deepens_runVisits fun visit member => deepens _ (mem_parts_of_visit given member)).bind
      fun _ => .refl _

/-- What lazy rules end as decides what every rule ends as, as long as they stay clear of the
limit. -/
theorem deepens_of_lazy (deepens : ∀ id x, (first id x).Deepens (second id x)) (rule : Rule) :
    Deepens first second rule := by
  refine byParts (fun rule parts => ?_) rule
  by_cases structural : rule.isStructural
  · exact deepens_structural structural parts
  · cases rule with
    | lazy id => exact deepens id
    | pipe steps => exact deepens_pipe parts
    | union options => exact deepens_firstMatch parts _
    | discriminatedUnion options | variant key options =>
      exact fun x => (Checked.Deepens.refl _).bind fun _ => deepens_firstMatch parts _ x
    | accepting absence inner =>
      exact deepens_accepting (List.forall_mem_singleton.mp parts) absence
    | withDefault inner value =>
      exact deepens_withDefault (List.forall_mem_singleton.mp parts) value
    | recovering inner value => exact deepens_recovering (List.forall_mem_singleton.mp parts) value
    | rejecting absence inner | refine inner test message | transform inner function failure =>
      exact fun x => (List.forall_mem_singleton.mp parts x).bind fun _ => .refl _
    | preprocess function inner =>
      exact fun x => (Checked.Deepens.refl _).bind fun y => List.forall_mem_singleton.mp parts y
    | retitle inner source =>
      exact fun x => (List.forall_mem_singleton.mp parts x).attempt.bind fun _ => .refl _
    | forward inner path => exact fun x => (List.forall_mem_singleton.mp parts x).reword _
    | passthrough inner | required declared inner =>
      exact fun x => (Checked.Deepens.refl _).bind fun _ =>
        (List.forall_mem_singleton.mp parts x).bind fun _ => .refl _
    | lenient inner =>
      exact fun x => (Checked.Deepens.refl _).bind fun _ =>
        deepens_recovering (List.forall_mem_singleton.mp parts) x x
    | set item => exact deepens_set (List.forall_mem_singleton.mp parts)
    | record key value | map key value =>
      obtain ⟨keys, others⟩ := List.forall_mem_cons.mp parts
      have values := List.forall_mem_singleton.mp others
      exact fun x => (Checked.Deepens.refl _).bind fun entries =>
        (deepens_eachEntry keys _ _ values entries []).bind fun _ => .refl _
    | array | tuple | looseTuple | tupleWithRest | object | looseObject | objectWithRest
    | intersect =>
      exact absurd rfl structural
    | leaf | instanceOf | literal | oneOf | keyName | check | plain | resulting | paired | convert
    | tryConvert | rawCheck | rawConvert | crossCheck | items => exact fun _ => .refl _

theorem lazySafe_deepens {budget more : Nat} (larger : budget ≤ more) (id : Nat) (x : Value) :
    (lazySafe budget id x).Deepens (lazySafe more id x) := by
  induction budget generalizing more id x with
  | zero => exact fun world => .inl ⟨world, faults_misuse.mpr ⟨rfl, rfl⟩⟩
  | succ budget ih =>
    obtain ⟨rest, rfl⟩ := Nat.exists_eq_add_of_le' larger
    refine (Checked.Deepens.refl _).bind fun v => deepens_of_lazy (fun id x => ?_) v.rule x
    exact ih (Nat.le_add_left budget rest) id x

/-- An evaluation that stays clear of the recursion limit ends the same way with any larger
budget. -/
theorem safe_deepens {budget more : Nat} (larger : budget ≤ more) (rule : Rule) (x : Value) :
    (rule.safe (lazySafe budget) x).Deepens (rule.safe (lazySafe more) x) :=
  deepens_of_lazy (lazySafe_deepens larger) rule x

end Rule

/-- Validators whose rules answer alike, one of them on an input with a larger budget, do so unless
the other one goes too deep. -/
theorem Validator.safe_deepens {v w : Validator} {x y : Value}
    (same : ∀ onLazy, w.rule.safe onLazy y = v.rule.safe onLazy x)
    (larger : ∀ world : World, world.budget x ≤ world.budget y) :
      (v.safe x).Deepens (w.safe y) := by
  intro world
  rcases Rule.safe_deepens (larger world) v.rule x world with ⟨after, deep⟩ | ended
  · exact .inl ⟨after, faults_safe.mpr deep⟩
  · exact .inr (by rw [ending_safe, ending_safe, same, ended])

end Conform
