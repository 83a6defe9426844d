import Conform.Proofs.Evaluation.Endings
import Conform.Proofs.Evaluation.Pieces

/-!
Constructions that look at the parts of their input one after the other. Objects, lists, tuples and
conjunctions each have a list of visits, in the order in which they are made, and their safe form
makes them all and puts the outputs together (`Rule.safe_eq_runVisits`); without one they refuse the
input outright (`Rule.safe_eq_reject`).
-/
namespace Conform

/-- A rule applied to a part of the input; a visit of the whole input has no place. -/
structure Visit where
  place : Option Place
  rule : Rule
  value : Value

namespace Rule

def itemVisits (item : Rule) : Nat → List Value → List Visit
  | _, [] => []
  | i, x :: rest => ⟨some (.position i), item, x⟩ :: itemVisits item (i + 1) rest

def positionVisits : Nat → List Rule → List Value → List Visit
  | i, part :: parts, x :: rest =>
    ⟨some (.position i), part, x⟩ :: positionVisits (i + 1) parts rest
  | _, _, _ => []

def fieldVisits (entries : List (Value × Value)) (fields : List (Value × Rule)) : List Visit :=
  fields.map fun field =>
    ⟨some (.key field.1), field.2, (Entries.get? entries field.1).getD .missing⟩

def restVisits (declared : List Value) (rest : Rule)
    (entries : List (Value × Value)) : List Visit :=
  (entries.filter fun entry => !declared.any (· == entry.1)).map fun entry =>
    ⟨some (.key entry.1), rest, entry.2⟩

/-- A visit of an item is that of the item at its position. -/
theorem mem_itemVisits {item : Rule} {i : Nat} {xs : List Value} {visit : Visit}
    (member : visit ∈ itemVisits item i xs) :
    ∃ j y, xs[j]? = some y ∧ visit = ⟨some (.position (i + j)), item, y⟩ := by
  induction xs generalizing i with
  | nil => cases member
  | cons x rest ih =>
    rcases List.mem_cons.mp member with rfl | member
    · exact ⟨0, x, rfl, rfl⟩
    · obtain ⟨j, y, found, rfl⟩ := ih member
      refine ⟨j + 1, y, found, ?_⟩
      rw [Nat.add_right_comm i 1 j, Nat.add_assoc]

/-- A visit of a position is that of the item there by the rule there. -/
theorem mem_positionVisits {i : Nat} {parts : List Rule} {xs : List Value} {visit : Visit}
    (member : visit ∈ positionVisits i parts xs) :
    ∃ j part y, parts[j]? = some part ∧ xs[j]? = some y ∧
      visit = ⟨some (.position (i + j)), part, y⟩ := by
  induction parts generalizing i xs with
  | nil => cases xs <;> cases member
  | cons part parts ih =>
    cases xs with
    | nil => cases member
    | cons x rest =>
      rcases List.mem_cons.mp member with rfl | member
      · exact ⟨0, part, x, rfl, rfl, rfl⟩
      · obtain ⟨j, other, y, listed, found, rfl⟩ := ih member
        refine ⟨j + 1, other, y, listed, found, ?_⟩
        rw [Nat.add_right_comm i 1 j, Nat.add_assoc]

theorem mem_fieldVisits {entries : List (Value × Value)} {fields : List (Value × Rule)}
    {visit : Visit} (member : visit ∈ fieldVisits entries fields) :
    ∃ field ∈ fields,
      visit = ⟨some (.key field.1), field.2, (Entries.get? entries field.1).getD .missing⟩ := by
  obtain ⟨field, inside, rfl⟩ := List.mem_map.mp member
  exact ⟨field, inside, rfl⟩

theorem mem_restVisits {declared : List Value} {rest : Rule} {entries : List (Value × Value)}
    {visit : Visit} (member : visit ∈ restVisits declared rest entries) :
    ∃ entry ∈ entries, visit = ⟨some (.key entry.1), rest, entry.2⟩ := by
  obtain ⟨entry, inside, rfl⟩ := List.mem_map.mp member
  exact ⟨entry, (List.mem_filter.mp inside).1, rfl⟩

/-- Whether a rule looks at the parts of its input one after the other. -/
def isStructural : Rule → Bool
  | .array _ | .tuple _ | .looseTuple _ | .tupleWithRest _ _ | .object _ | .looseObject _
  | .objectWithRest _ _ | .intersect _ => true
  | _ => false

/-- The visits that a rule makes of an input that has the right form for it. -/
def visits? : Rule → Value → Option (List Visit)
  | .array item, x => x.items?.map (itemVisits item 0)
  | .tuple parts, x => x.items?.bind fun items =>
    if items.length = parts.length then some (positionVisits 0 parts items) else none
  | .looseTuple parts, x => x.items?.bind fun items =>
    if items.length < parts.length then none else some (positionVisits 0 parts items)
  | .tupleWithRest parts rest, x => x.items?.bind fun items =>
    if items.length < parts.length then none else
      some (positionVisits 0 parts items ++ itemVisits rest parts.length (items.drop parts.length))
  | .object fields, x | .looseObject fields, x => x.entries?.map (fieldVisits · fields)
  | .objectWithRest fields rest, x => x.entries?.map fun entries =>
    fieldVisits entries fields ++ restVisits (fields.map (·.1)) rest entries
  | .intersect members, x => some (members.map fun member => ⟨none, member, x⟩)
  | _, _ => none

/-- The failure of a structural rule that makes no visits. -/
def refusal : Rule → Value → Failure
  | .array _, _ => SafeForm.notArray
  | .tuple parts, x => x.items?.elim SafeForm.notArray fun items =>
    SafeForm.wrongLength "" parts.length items.length
  | .looseTuple parts, x | .tupleWithRest parts _, x => x.items?.elim SafeForm.notArray fun items =>
    SafeForm.wrongLength "at least " parts.length items.length
  | _, _ => SafeForm.notObject

end Rule

def Failure.visited? (place : Option Place) (failure : Failure) : Option Failure :=
  match place with
  | some place => failure.placed? place
  | none => some failure

section Running

open Checked

variable (onLazy : Nat → SafeForm)

def Visit.run (visit : Visit) : Checked Value :=
  reword (Failure.visited? visit.place) (visit.rule.safe onLazy visit.value)

/-- Makes visits one after the other, as long as they succeed. -/
def runVisits : List Visit → Checked (List Value)
  | [] => pure []
  | visit :: rest => do
    let y ← visit.run onLazy
    let ys ← runVisits rest
    pure (y :: ys)

theorem runVisits_append (before after : List Visit) :
    runVisits onLazy (before ++ after) = (do
      let ys ← runVisits onLazy before
      let zs ← runVisits onLazy after
      pure (ys ++ zs)) := by
  induction before with
  | nil => simp [runVisits]
  | cons visit rest ih => simp [runVisits, ih]

/-- As many outputs as visits are put together. -/
theorem runVisits_bind_congr {visits : List Visit} {next further : List Value → Checked Value}
    (agree : ∀ ys, ys.length = visits.length → next ys = further ys) :
    runVisits onLazy visits >>= next = runVisits onLazy visits >>= further := by
  induction visits generalizing next further with
  | nil => simp only [runVisits, pure_bind, agree [] rfl]
  | cons visit rest ih =>
    simp only [runVisits, bind_assoc, pure_bind]
    refine congrArg _ (funext fun y => ih fun ys length => agree (y :: ys) ?_)
    simp only [List.length_cons, length]

variable {onLazy} {world after : World}

/-- Visits that fail do so at one of them, those before it having succeeded. -/
theorem reports_runVisits {visits : List Visit} {failure : Failure} :
    (runVisits onLazy visits).Reports world failure after ↔
      ∃ before visit others ys reached inner, visits = before ++ visit :: others ∧
        (runVisits onLazy before).Returns world ys reached ∧
        (visit.rule.safe onLazy visit.value).Reports reached inner after ∧
        inner.visited? visit.place = some failure := by
  induction visits generalizing world with
  | nil => simp [runVisits]
  | cons visit rest ih =>
    simp only [runVisits, Visit.run, reports_bind, reports_reword, returns_reword, ih,
      reports_pure, and_false, exists_false, or_false]
    constructor
    · rintro (⟨inner, reported, worded⟩ | ⟨y, between, returned, before, other, others, ys,
        reached, inner, rfl, ran, reported, worded⟩)
      · exact ⟨[], visit, rest, [], world, inner, rfl, by simp [runVisits], reported, worded⟩
      · refine ⟨visit :: before, other, others, y :: ys, reached, inner, rfl, ?_, reported, worded⟩
        simp only [runVisits, Visit.run, returns_bind, returns_reword, returns_pure]
        exact ⟨y, between, returned, ys, reached, ran, rfl, rfl⟩
    · rintro ⟨before, other, others, ys, reached, inner, split, ran, reported, worded⟩
      cases before with
      | nil =>
        obtain ⟨rfl, rfl⟩ := List.cons.inj split
        obtain ⟨-, rfl⟩ := returns_pure.mp ran
        exact .inl ⟨inner, reported, worded⟩
      | cons first before =>
        obtain ⟨rfl, rfl⟩ := List.cons.inj split
        simp only [runVisits, Visit.run, returns_bind, returns_reword, returns_pure] at ran
        obtain ⟨y, between, returned, ys, reached, ran, rfl, rfl⟩ := ran
        exact .inr ⟨y, between, returned, before, other, others, ys, reached, inner, rfl, ran,
          reported, worded⟩

/-- Visits that end in a fault do so at one of them, those before it having succeeded. -/
theorem faults_runVisits {visits : List Visit} {fault : Fault} :
    (runVisits onLazy visits).Faults world fault after ↔
      ∃ before visit others ys reached, visits = before ++ visit :: others ∧
        (runVisits onLazy before).Returns world ys reached ∧
        (visit.run onLazy).Faults reached fault after := by
  induction visits generalizing world with
  | nil => simp [runVisits]
  | cons visit rest ih =>
    simp only [runVisits, faults_bind, ih, faults_pure, and_false, exists_false, or_false]
    constructor
    · rintro (faulted | ⟨y, between, returned, before, other, others, ys, reached, rfl,
        ran, faulted⟩)
      · exact ⟨[], visit, rest, [], world, rfl, by simp [runVisits], faulted⟩
      · refine ⟨visit :: before, other, others, y :: ys, reached, rfl, ?_, faulted⟩
        simp only [runVisits, returns_bind, returns_pure]
        exact ⟨y, between, returned, ys, reached, ran, rfl, rfl⟩
    · rintro ⟨before, other, others, ys, reached, split, ran, faulted⟩
      cases before with
      | nil =>
        obtain ⟨rfl, rfl⟩ := List.cons.inj split
        obtain ⟨-, rfl⟩ := returns_pure.mp ran
        exact .inl faulted
      | cons first before =>
        obtain ⟨rfl, rfl⟩ := List.cons.inj split
        simp only [runVisits, returns_bind, returns_pure] at ran
        obtain ⟨y, between, returned, ys, reached, ran, rfl, rfl⟩ := ran
        exact .inr ⟨y, between, returned, before, other, others, ys, reached, rfl, ran, faulted⟩

end Running

namespace Rule

open Checked SafeForm

variable (onLazy : Nat → SafeForm)

theorem eachItem_eq_runVisits (item : Rule) (i : Nat) (xs : List Value) :
    eachItem (item.safe onLazy) i xs = runVisits onLazy (itemVisits item i xs) := by
  induction xs generalizing i with
  | nil => rfl
  | cons x rest ih =>
    simp only [eachItem, itemVisits, runVisits, ih]
    rfl

/-- Going through positions is visiting them. -/
theorem eachPosition_eq_runVisits (i : Nat) (parts : List Rule) (xs : List Value) :
    eachPosition i (safeAll onLazy parts) xs = runVisits onLazy (positionVisits i parts xs) := by
  induction parts generalizing i xs with
  | nil => cases xs <;> rfl
  | cons part parts ih =>
    cases xs with
    | nil => rfl
    | cons x rest =>
      simp only [safeAll, eachPosition, positionVisits, runVisits, ih]
      rfl

/-- Going through declared fields is visiting them, the outputs stored key by key. -/
theorem eachField_eq_runVisits (store : List (Value × Value) → Value → Value → List (Value × Value))
    (entries : List (Value × Value)) (fields : List (Value × Rule)) (out : List (Value × Value)) :
    eachField store entries (safeFields onLazy fields) out =
      runVisits onLazy (fieldVisits entries fields) >>= fun ys =>
        pure ((fields.zip ys).foldl (fun out stored => store out stored.1.1 stored.2) out) := by
  induction fields generalizing out with
  | nil => simp [safeFields, eachField, fieldVisits, runVisits]
  | cons field rest ih =>
    simp only [safeFields, eachField, fieldVisits, List.map_cons, runVisits, bind_assoc, pure_bind]
    simp only [fieldVisits] at ih
    simp only [ih]
    rfl

/-- Going through undeclared entries is visiting those whose keys no field declares. -/
theorem eachRest_eq_runVisits (declared : List Value) (rest : Rule)
    (entries out : List (Value × Value)) :
    eachRest declared (rest.safe onLazy) entries out =
      runVisits onLazy (restVisits declared rest entries) >>= fun ys =>
        pure (((entries.filter fun entry => !declared.any (· == entry.1)).zip ys).foldl
          (fun out stored => Entries.insert out stored.1.1 stored.2) out) := by
  induction entries generalizing out with
  | nil => simp [eachRest, restVisits, runVisits]
  | cons entry further ih =>
    unfold eachRest
    split
    · rename_i isDeclared
      simp only [restVisits, List.filter_cons, isDeclared] at ih ⊢
      exact ih out
    · rename_i undeclared
      simp only [Bool.not_eq_true] at undeclared
      simp only [restVisits, List.filter_cons, undeclared, Bool.not_false, if_true, List.map_cons,
        runVisits, bind_assoc, pure_bind] at ih ⊢
      simp only [ih]
      rfl

/-- A failure left as it is changes nothing. -/
private theorem reword_some (computation : Checked Value) :
    reword some computation = computation := by
  refine ext_ending fun world => ?_
  rw [ending_reword]
  rcases computation.ending world with ⟨_ | _ | _, after⟩ <;> rfl

/-- Joining members is visiting each of them with the same value. -/
theorem intersectFrom_eq_runVisits (x : Value) (members : List Rule) (merged : Value) :
    intersectFrom x (safeAll onLazy members) merged =
      runVisits onLazy (members.map fun member => ⟨none, member, x⟩) >>= fun ys =>
        pure (ys.foldl joinOutput merged) := by
  induction members generalizing merged with
  | nil => simp [safeAll, intersectFrom, runVisits]
  | cons member rest ih =>
    have run : Visit.run onLazy ⟨none, member, x⟩ = member.safe onLazy x := reword_some _
    simp only [safeAll, intersectFrom, List.map_cons, runVisits, run, ih, bind_assoc, pure_bind]
    rfl

/-- A structural rule makes its visits and puts their outputs together. -/
theorem safe_eq_runVisits {rule : Rule} {x : Value} {visits : List Visit}
    (given : rule.visits? x = some visits) :
    ∃ output : List Value → Value, ∀ onLazy,
      rule.safe onLazy x = runVisits onLazy visits >>= fun ys => pure (output ys) := by
  cases rule with
  | array item =>
    obtain ⟨items, found, rfl⟩ := Option.map_eq_some_iff.mp given
    refine ⟨.list, fun onLazy => ?_⟩
    simp only [safe, SafeForm.array, itemsOf, found, pure_bind, eachItem_eq_runVisits]
  | tuple parts =>
    obtain ⟨items, found, given⟩ := Option.bind_eq_some_iff.mp given
    split at given <;> cases given
    rename_i fits
    refine ⟨.list, fun onLazy => ?_⟩
    simp only [safe, SafeForm.tuple, itemsOf, found, pure_bind, length_safeAll, fits, if_true,
      eachPosition_eq_runVisits]
  | looseTuple parts =>
    obtain ⟨items, found, given⟩ := Option.bind_eq_some_iff.mp given
    split at given <;> cases given
    rename_i fits
    refine ⟨.list, fun onLazy => ?_⟩
    simp only [safe, SafeForm.looseTuple, itemsOf, found, pure_bind, length_safeAll, fits, if_false,
      eachPosition_eq_runVisits]
  | tupleWithRest parts rest =>
    obtain ⟨items, found, given⟩ := Option.bind_eq_some_iff.mp given
    split at given <;> cases given
    rename_i fits
    refine ⟨.list, fun onLazy => ?_⟩
    simp only [safe, SafeForm.tupleWithRest, itemsOf, found, pure_bind, length_safeAll,
      fits, if_false,
      eachPosition_eq_runVisits, eachItem_eq_runVisits, runVisits_append, bind_assoc]
  | object fields =>
    obtain ⟨entries, found, rfl⟩ := Option.map_eq_some_iff.mp given
    refine ⟨fun ys => .dict ((fields.zip ys).foldl
      (fun out stored => storePresent out stored.1.1 stored.2) []), fun onLazy => ?_⟩
    simp only [safe, SafeForm.object, entriesOf, found, pure_bind,
      eachField_eq_runVisits, bind_assoc]
  | looseObject fields =>
    obtain ⟨entries, found, rfl⟩ := Option.map_eq_some_iff.mp given
    refine ⟨fun ys => .dict ((fields.zip ys).foldl
      (fun out stored => storeOrErase out stored.1.1 stored.2) entries), fun onLazy => ?_⟩
    simp only [safe, SafeForm.looseObject, entriesOf, found, pure_bind, eachField_eq_runVisits,
      bind_assoc]
  | objectWithRest fields rest =>
    obtain ⟨entries, found, rfl⟩ := Option.map_eq_some_iff.mp given
    refine ⟨fun ys => .dict (((entries.filter fun entry =>
      !(fields.map (·.1)).any (· == entry.1)).zip (ys.drop fields.length)).foldl
        (fun out stored => Entries.insert out stored.1.1 stored.2)
        ((fields.zip ys).foldl (fun out stored => storePresent out stored.1.1 stored.2) [])),
      fun onLazy => ?_⟩
    have declared : (safeFields onLazy fields).map (·.1) = fields.map (·.1) := by
      rw [safeFields_eq_map, List.map_map]
      rfl
    simp only [safe, SafeForm.objectWithRest, entriesOf, found, pure_bind, declared,
      eachField_eq_runVisits, eachRest_eq_runVisits, runVisits_append, bind_assoc]
    refine runVisits_bind_congr onLazy fun ys length => ?_
    have sameLength : ys.length = fields.length := by
      rw [length, fieldVisits, List.length_map]
    refine congrArg _ (funext fun zs => ?_)
    have zipped : fields.zip (ys ++ zs) = fields.zip ys := by
      rw [← List.append_nil fields, List.zip_append sameLength.symm, List.zip_nil_left,
        List.append_nil, List.append_nil]
    rw [zipped, ← sameLength, List.drop_left]
  | intersect members =>
    cases given
    refine ⟨fun ys => ys.foldl joinOutput (.dict []), fun onLazy => ?_⟩
    simp only [safe, SafeForm.intersect, intersectFrom_eq_runVisits]
  | _ => cases given

/-- A structural rule that makes no visits refuses its input outright. -/
theorem safe_eq_reject {rule : Rule} {x : Value} (structural : rule.isStructural)
    (unvisited : rule.visits? x = none) : rule.safe onLazy x = reject (rule.refusal x) := by
  cases rule with
  | array item =>
    have found := Option.map_eq_none_iff.mp unvisited
    simp only [safe, SafeForm.array, itemsOf, found]
    rfl
  | tuple parts =>
    cases found : x.items? with
    | none =>
      simp only [safe, SafeForm.tuple, itemsOf, refusal, found]
      rfl
    | some items =>
      simp only [visits?, found, Option.bind_some] at unvisited
      split at unvisited <;> cases unvisited
      rename_i unfit
      simp only [safe, SafeForm.tuple, itemsOf, refusal, found, pure_bind, length_safeAll,
        unfit, if_false]
      rfl
  | looseTuple parts =>
    cases found : x.items? with
    | none =>
      simp only [safe, SafeForm.looseTuple, itemsOf, refusal, found]
      rfl
    | some items =>
      simp only [visits?, found, Option.bind_some] at unvisited
      split at unvisited <;> cases unvisited
      rename_i unfit
      simp only [safe, SafeForm.looseTuple, itemsOf, refusal, found, pure_bind,
        length_safeAll, unfit, if_true]
      rfl
  | tupleWithRest parts rest =>
    cases found : x.items? with
    | none =>
      simp only [safe, SafeForm.tupleWithRest, itemsOf, refusal, found]
      rfl
    | some items =>
      simp only [visits?, found, Option.bind_some] at unvisited
      split at unvisited <;> cases unvisited
      rename_i unfit
      simp only [safe, SafeForm.tupleWithRest, itemsOf, refusal, found, pure_bind,
        length_safeAll, unfit, if_true]
      rfl
  | object fields =>
    have found := Option.map_eq_none_iff.mp unvisited
    simp only [safe, SafeForm.object, entriesOf, found]
    rfl
  | looseObject fields =>
    have found := Option.map_eq_none_iff.mp unvisited
    simp only [safe, SafeForm.looseObject, entriesOf, found]
    rfl
  | objectWithRest fields rest =>
    have found := Option.map_eq_none_iff.mp unvisited
    simp only [safe, SafeForm.objectWithRest, entriesOf, found]
    rfl
  | intersect members => cases unvisited
  | _ => cases structural

variable {onLazy} {world after : World}

theorem reports_of_visits {rule : Rule} {x : Value} {visits : List Visit} {failure : Failure}
    (given : rule.visits? x = some visits) :
    (rule.safe onLazy x).Reports world failure after ↔
      (runVisits onLazy visits).Reports world failure after := by
  obtain ⟨output, equal⟩ := safe_eq_runVisits given
  simp only [equal, reports_bind, reports_pure, and_false, exists_false, or_false]

theorem faults_of_visits {rule : Rule} {x : Value} {visits : List Visit} {fault : Fault}
    (given : rule.visits? x = some visits) :
    (rule.safe onLazy x).Faults world fault after ↔
      (runVisits onLazy visits).Faults world fault after := by
  obtain ⟨output, equal⟩ := safe_eq_runVisits given
  simp only [equal, faults_bind, faults_pure, and_false, exists_false, or_false]

end Rule

end Conform
