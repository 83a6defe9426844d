import Conform.Proofs.Evaluation.Laws

/-!
The safe form of every rule keeps the laws that evaluation respects and the rule's pieces comply
with: one lemma per construction, each from the forms of its parts. `Rule.lawful_of_parts` puts them
together; it leaves open why the failures of keys are lawful, for laws that do not admit marking
every one of them.
-/
namespace Conform

namespace SafeForm

open Checked

variable {law : Law}

/-- The form keeps the law on every input. -/
def Lawful (law : Law) (form : SafeForm) : Prop := ∀ x, (form x).Keeps law anything

section Parts

variable {α : Type} {property : α → Prop}

theorem keeps_provided {condition : Bool} {failure : Failure} {x : Value}
    (lawful : law.failure failure) : (provided condition failure x).Keeps law anything := by
  unfold provided
  cases condition with
  | true => exact keeps_pure trivial
  | false => exact keeps_reject lawful

theorem keeps_entriesOf {failure : Failure} {x : Value} (lawful : law.failure failure) :
    (entriesOf failure x).Keeps law anything := by
  unfold entriesOf
  cases x.entries? with
  | some entries => exact keeps_pure trivial
  | none => exact keeps_reject lawful

theorem keeps_ofOutcome {outcome : Outcome}
    (lawful : ∀ failure, outcome = .err failure → law.failure failure) :
    (ofOutcome outcome).Keeps law anything := by
  cases outcome with
  | ok value => exact keeps_pure trivial
  | err failure => exact keeps_reject (lawful failure rfl)

variable (fair : law.Eager)
include fair

theorem keeps_itemsOf {x : Value} : (itemsOf x).Keeps law anything := by
  unfold itemsOf
  cases x.items? with
  | some items => exact keeps_pure trivial
  | none => exact keeps_reject (fair.expecting _ _)

theorem keeps_requireHashable {y : Value} : (requireHashable y).Keeps law anything := by
  unfold requireHashable
  cases y.unhashable? with
  | some found => exact keeps_misuse (fair.misuse _)
  | none => exact keeps_pure trivial

/-- A callback whose values do not matter, guarded with a text as default. -/
theorem keeps_guarded_text {message : String} {run : Traced α}
    (handled : ∀ trace fault after, run.Faults trace fault after → law.Handles fault) :
    Keeps law anything (guarded (.str message) run) :=
  keeps_guarded fair (fair.text message) handled fun _ _ _ _ => trivial

theorem keeps_placed {computation : Checked α} {place : Place}
    (kept : computation.Keeps law property) :
    (reword (Failure.placed? place) computation).Keeps law property := by
  refine kept.reword fair fun failure worded lawful placed => ?_
  obtain ⟨-, rfl⟩ := Failure.placed?_eq_some.mp placed
  exact fair.within _ _ lawful

theorem keeps_within {computation : Checked α} {place : Place}
    (kept : computation.Keeps law property) :
    (Checked.within place computation).Keeps law property := keeps_placed fair kept

end Parts

section Programs

variable {α : Type}

/-- The faults that the run of a callback can end in are lawful. -/
private def Handled (law : Law) (run : Traced α) : Prop :=
  ∀ trace fault after, run.Faults trace fault after → law.Handles fault

private theorem handled_pure {value : α} : Handled law (pure value : Traced α) :=
  fun _ _ _ faulted => absurd faulted Traced.faults_pure

private theorem handled_bind {β : Type} {run : Traced α} {next : α → Traced β}
    (first : Handled law run) (rest : ∀ value, Handled law (next value)) :
    Handled law (run >>= next) := by
  intro trace fault after faulted
  rcases Traced.faults_bind.mp faulted with early | ⟨value, between, _, late⟩
  · exact first trace fault after early
  · exact rest value between fault after late

variable (fair : law.Eager)
include fair

private theorem handles_misuse (cause : Misuse) : law.Handles (.misuse cause) := by
  intro default lawful
  cases written : (Fault.misuse cause).hasText with
  | false =>
    simp only [Fault.caught?, Fault.passed, written, Bool.false_eq_true, if_false]
    exact fair.misuse _
  | true =>
    simp only [Fault.caught?, Fault.messageOr, written, if_true]
    split
    · exact fair.said lawful
    · exact fair.said (fair.text _)

private theorem handled_misuse {cause : Misuse} : Handled law (Traced.misuse cause : Traced α) := by
  intro trace fault after faulted
  obtain ⟨rfl, -⟩ := Traced.faults_misuse.mp faulted
  exact handles_misuse fair cause

omit fair in
private theorem handled_condition {condition : Option Callable}
    (allowed : ∀ piece ∈ condition.toList.map Piece.callback, law.Allows piece) (x : Value) :
    Handled law (conditionHolds condition x) := by
  cases condition with
  | none => exact handled_pure
  | some test =>
    have handled : law.Allows (.callback test) := allowed _ (by simp)
    exact handled_bind (handled x) fun _ => handled_pure

omit fair in
/-- A program of failures faults as the law allows, as its pieces do. -/
private theorem handled_failSteps (program : List FailStep)
    (allowed : ∀ piece ∈ program.flatMap (·.pieces), law.Allows piece) (x : Value) :
    ∀ message result, Handled law (FailStep.runFrom x message result program) := by
  induction program with
  | nil => exact fun message result => handled_pure
  | cons step rest ih =>
    simp only [List.flatMap_cons, List.forall_mem_append] at allowed
    intro message result
    cases step with
    | fail condition text =>
      have conditions := (List.forall_mem_cons.mp allowed.1).2
      refine handled_bind (handled_condition conditions x) fun holds => ?_
      cases holds with
      | true => exact ih allowed.2 (some text) result
      | false => exact ih allowed.2 message result
    | answer function =>
      have handled := (List.forall_mem_cons.mp allowed.1).1
      exact handled_bind (handled x) fun y => ih allowed.2 message y

/-- A program of issues faults as the law allows, as its pieces do. -/
private theorem handled_issueSteps (program : List IssueStep)
    (allowed : ∀ piece ∈ program.flatMap (·.pieces), law.Allows piece) (x : Value) :
    ∀ issues result, Handled law (IssueStep.runFrom x issues result program) := by
  induction program with
  | nil => exact fun issues result => handled_pure
  | cons step rest ih =>
    simp only [List.flatMap_cons, List.forall_mem_append] at allowed
    intro issues result
    cases step with
    | report condition message path =>
      have conditions := (List.forall_mem_cons.mp allowed.1).2
      refine handled_bind (handled_condition conditions x) fun holds => ?_
      cases holds with
      | true =>
        simp only [↓reduceIte]
        split
        · exact ih allowed.2 _ result
        · exact handled_misuse fair
      | false => exact ih allowed.2 issues result
    | answer function =>
      have handled := (List.forall_mem_cons.mp allowed.1).1
      exact handled_bind (handled x) fun y => ih allowed.2 issues y

omit fair in
/-- A program of failures ends with a lawful message, as its pieces and the message before it are
lawful. -/
private theorem lawful_failSteps (program : List FailStep)
    (allowed : ∀ piece ∈ program.flatMap (·.pieces), law.Allows piece) (x : Value) :
    ∀ message result, (∀ said, message = some said → law.message said) →
      ∀ trace value after, (FailStep.runFrom x message result program).Returns trace value after →
        ∀ said, value.1 = some said → law.message said := by
  induction program with
  | nil =>
    intro message result lawful trace value after returned
    obtain ⟨rfl, -⟩ := Traced.returns_pure.mp returned
    exact lawful
  | cons step rest ih =>
    simp only [List.flatMap_cons, List.forall_mem_append] at allowed
    intro message result lawful trace value after returned
    cases step with
    | fail condition text =>
      obtain ⟨holds, between, _, later⟩ := Traced.returns_bind.mp returned
      cases holds with
      | true =>
        have given := (List.forall_mem_cons.mp allowed.1).1
        refine ih allowed.2 (some text) result ?_ between value after later
        rintro said ⟨⟩
        exact given
      | false => exact ih allowed.2 message result lawful between value after later
    | answer function =>
      obtain ⟨y, between, _, later⟩ := Traced.returns_bind.mp returned
      exact ih allowed.2 message y lawful between value after later

omit fair in
/-- A program of issues ends with lawful messages, as its pieces and the messages before it are
lawful. -/
private theorem lawful_issueSteps (program : List IssueStep)
    (allowed : ∀ piece ∈ program.flatMap (·.pieces), law.Allows piece) (x : Value) :
    ∀ issues result, (∀ issue ∈ issues, law.message issue.message) →
      ∀ trace value after, (IssueStep.runFrom x issues result program).Returns trace value after →
        ∀ issue ∈ value.1, law.message issue.message := by
  induction program with
  | nil =>
    intro issues result lawful trace value after returned
    obtain ⟨rfl, -⟩ := Traced.returns_pure.mp returned
    exact lawful
  | cons step rest ih =>
    simp only [List.flatMap_cons, List.forall_mem_append] at allowed
    intro issues result lawful trace value after returned
    cases step with
    | report condition message path =>
      obtain ⟨holds, between, _, later⟩ := Traced.returns_bind.mp returned
      cases holds with
      | true =>
        simp only [↓reduceIte] at later
        split at later
        · have given := (List.forall_mem_cons.mp allowed.1).1
          refine ih allowed.2 _ result ?_ between value after later
          exact List.forall_mem_append.mpr ⟨lawful, List.forall_mem_singleton.mpr given⟩
        · exact absurd later Traced.returns_misuse
      | false => exact ih allowed.2 issues result lawful between value after later
    | answer function =>
      obtain ⟨y, between, _, later⟩ := Traced.returns_bind.mp returned
      exact ih allowed.2 issues y lawful between value after later

end Programs

section Single

variable (fair : law.Eager)
include fair

theorem lawful_check {test : Check} (allowed : ∀ piece ∈ test.pieces, law.Allows piece)
    (message : String) : Lawful law (check test message) := by
  intro x
  refine (keeps_guarded_text fair ?_).bind fun passed _ => keeps_provided (fair.plain _)
  cases test with
  | predicate function =>
    have handled : law.Allows (.callback function) := allowed _ (List.mem_singleton.mpr rfl)
    exact handled_bind (handled x) fun _ => handled_pure
  | lengthAtLeast | lengthAtMost | compare | occurs => exact handled_pure

theorem lawful_plain {function : Callable} (allowed : law.Allows (.callback function)) :
    Lawful law (plain function) := fun x => keeps_guarded_text fair (allowed x)

theorem lawful_convert {function : Callable} (allowed : law.Allows (.callback function))
    (failure : String) : Lawful law (convert function failure) :=
  fun x => keeps_guarded_text fair (allowed x)

theorem lawful_resulting {function : ResultCallable} (allowed : law.Allows (.reporter function)) :
    Lawful law (resulting function) := by
  intro x
  obtain ⟨faulting, reporting⟩ := allowed
  have performed : (perform (function.run x)).Keeps law fun outcome =>
      ∀ failure, outcome = .err failure → law.failure failure := by
    intro world lawful
    refine ⟨?_, by simp, ?_⟩
    · intro outcome after returned
      obtain ⟨trace, ran, rfl⟩ := returns_perform.mp returned
      refine ⟨fair.traced trace lawful, ?_⟩
      rintro failure rfl
      exact reporting x _ failure trace ran
    · intro fault after faulted
      obtain ⟨trace, ran, rfl⟩ := faults_perform.mp faulted
      exact ⟨fair.traced trace lawful, faulting x _ fault trace ran⟩
  exact performed.bind fun outcome lawful => keeps_ofOutcome lawful

theorem lawful_tryConvert {program : List FailStep}
    (allowed : ∀ piece ∈ program.flatMap (·.pieces), law.Allows piece) :
    Lawful law (tryConvert program) := by
  intro x
  have steps := lawful_failSteps program allowed x none x (fun said absent => nomatch absent)
  refine (keeps_guarded fair (fair.text _)
    (handled_failSteps program allowed x none x) steps).bind ?_
  rintro ⟨message, y⟩ lawful
  cases message with
  | none => exact keeps_pure trivial
  | some message =>
    simp only
    split
    · exact keeps_reject (fair.said (lawful message rfl))
    · exact keeps_pure trivial

private theorem keeps_unlessIssues {issues : List Issue} {y : Value}
    (lawful : ∀ issue ∈ issues, law.message issue.message) :
    (unlessIssues issues y).Keeps law anything := by
  cases issues with
  | nil => exact keeps_pure trivial
  | cons first others => exact keeps_reject (fair.reported first others lawful)

private theorem keeps_issueSteps {program : List IssueStep} {message : String}
    (allowed : ∀ piece ∈ program.flatMap (·.pieces), law.Allows piece) (x : Value) :
    (guarded (.str message) (IssueStep.run program x)).Keeps law fun reported =>
      ∀ issue ∈ reported.1, law.message issue.message :=
  keeps_guarded fair (fair.text _) (handled_issueSteps fair program allowed x [] x)
    (lawful_issueSteps program allowed x [] x fun _ member => nomatch member)

theorem lawful_rawCheck {program : List IssueStep}
    (allowed : ∀ piece ∈ program.flatMap (·.pieces), law.Allows piece) :
    Lawful law (rawCheck program) :=
  fun x => (keeps_issueSteps fair allowed x).bind fun _ lawful =>
    keeps_unlessIssues fair lawful

theorem lawful_rawConvert {program : List IssueStep}
    (allowed : ∀ piece ∈ program.flatMap (·.pieces), law.Allows piece) :
    Lawful law (rawConvert program) :=
  fun x => (keeps_issueSteps fair allowed x).bind fun _ lawful =>
    keeps_unlessIssues fair lawful

theorem lawful_crossCheck {test : Callable} (allowed : law.Allows (.callback test))
    (paths : List (List Value)) (message : String) : Lawful law (crossCheck paths test message) :=
  fun x => (keeps_guarded_text fair (allowed x)).bind fun _ _ =>
    keeps_provided (fair.crossed message paths)

omit fair in
private theorem handled_quantify {test : Callable} (allowed : law.Allows (.callback test))
    (quantifier : Quantifier) (items : List Value) :
    Handled law (quantify quantifier test items) := by
  induction items with
  | nil => exact handled_pure
  | cons item rest ih =>
    refine handled_bind (allowed item) fun result => ?_
    split
    · exact handled_pure
    · exact handled_pure
    · exact ih

theorem lawful_items {test : Callable} (allowed : law.Allows (.callback test))
    (quantifier : Quantifier) (message : String) : Lawful law (items quantifier test message) := by
  intro x
  refine (keeps_itemsOf fair).bind fun items _ => ?_
  refine (keeps_guarded_text fair (handled_quantify allowed quantifier items)).bind ?_
  exact fun passed _ => keeps_provided (fair.plain _)

end Single

section Entries

variable {keyForm valueForm : SafeForm} (fair : law.Eager)
include fair

/-- Entry by entry the law is kept when it is by values and by the failures of keys as they are
reported. -/
theorem keeps_eachEntry {onKey : Value → Failure → Option Failure} {onValue : Value → Place}
    (keyed : ∀ key, (reword (onKey key) (keyForm key)).Keeps law anything)
    (lawfulValue : Lawful law valueForm) (entries out : List (Value × Value)) :
    (eachEntry onKey onValue keyForm valueForm entries out).Keeps law anything := by
  induction entries generalizing out with
  | nil => exact keeps_pure trivial
  | cons entry rest ih =>
    refine (keyed entry.1).bind fun k _ => ?_
    refine (keeps_within fair (lawfulValue entry.2)).bind fun y _ => ?_
    exact (keeps_requireHashable fair).bind fun _ _ => ih _

theorem lawful_record
    (keyed : ∀ key, (reword (invalidKey? key) (keyForm key)).Keeps law anything)
    (lawfulValue : Lawful law valueForm) : Lawful law (record keyForm valueForm) :=
  fun _ => (keeps_entriesOf (fair.expecting _ _)).bind fun entries _ =>
    (keeps_eachEntry fair keyed lawfulValue entries []).bind fun _ _ => keeps_pure trivial

end Entries

section Wrapped

variable {inner : SafeForm} (fair : law.Eager) (lawful : Lawful law inner)
include lawful

theorem lawful_accepting (absence : Absence) : Lawful law (accepting absence inner) := by
  intro x
  unfold accepting
  split
  · exact keeps_pure trivial
  · exact lawful x

theorem lawful_withDefault (value : Value) : Lawful law (withDefault inner value) := by
  intro x
  unfold withDefault
  split
  · exact keeps_pure trivial
  · exact lawful x

theorem lawful_recovering (value : Value) : Lawful law (recovering inner value) :=
  fun x => (lawful x).attempt_bind (fun _ _ => keeps_pure trivial) fun _ _ => keeps_pure trivial

include fair

theorem lawful_rejecting (absence : Absence) : Lawful law (rejecting absence inner) :=
  fun x => (lawful x).bind fun _ _ => keeps_provided (fair.plain _)

theorem lawful_refine {test : Callable} (allowed : law.Allows (.callback test)) (message : String) :
    Lawful law (refine inner test message) :=
  fun x => (lawful x).bind fun y _ => (keeps_guarded_text fair (allowed y)).bind fun _ _ =>
    keeps_provided (fair.plain _)

theorem lawful_transform {function : Callable} (allowed : law.Allows (.callback function))
    (failure : String) : Lawful law (transform inner function failure) :=
  fun x => (lawful x).bind fun y _ => keeps_guarded_text fair (allowed y)

theorem lawful_preprocess {function : Callable} (allowed : law.Allows (.callback function)) :
    Lawful law (preprocess function inner) :=
  fun x => (keeps_guarded_text fair (allowed x)).bind fun y _ => lawful y

theorem lawful_retitle {source : MessageSource}
    (allowed : ∀ piece ∈ source.pieces, law.Allows piece) : Lawful law (retitle inner source) := by
  intro x
  refine (lawful x).attempt_bind (fun _ _ => keeps_pure trivial) fun failure holds => ?_
  cases source with
  | given message =>
    have given : law.Allows (.message message) := allowed _ (List.mem_singleton.mpr rfl)
    exact keeps_reject (fair.said given)
  | computed render =>
    obtain ⟨faulting, rendering⟩ : law.Allows (.renderer render) :=
      allowed _ (List.mem_singleton.mpr rfl)
    refine (keeps_guarded fair (fair.line holds) (faulting x) (rendering x)).bind ?_
    exact fun message lawful => keeps_reject (fair.said lawful)

theorem lawful_forward (path : List Value) : Lawful law (forward inner path) := by
  refine fun x => (lawful x).reword fair fun failure _ holds worded => ?_
  cases worded
  exact fair.below path holds

theorem lawful_passthrough : Lawful law (passthrough inner) := by
  intro x
  refine (keeps_entriesOf (fair.expecting _ _)).bind fun entries _ => ?_
  refine (lawful x).bind fun out _ => ?_
  cases out.entries? with
  | some further => exact keeps_pure trivial
  | none => exact keeps_misuse (fair.misuse _)

theorem lawful_lenient : Lawful law (lenient inner) :=
  fun x => (keeps_entriesOf (fair.expecting _ _)).bind fun _ _ => lawful_recovering lawful x x

theorem lawful_required (declared : List Value) : Lawful law (required declared inner) := by
  intro x
  refine (keeps_entriesOf (fair.expecting _ _)).bind fun entries _ => ?_
  refine (lawful x).bind fun y _ => ?_
  refine (keeps_entriesOf (fair.expecting _ _)).bind fun out _ => ?_
  cases firstAbsent? declared out with
  | some key =>
    refine keeps_report fair fun failure placed => ?_
    obtain ⟨-, rfl⟩ := Failure.placed?_eq_some.mp placed
    exact fair.within _ _ (fair.plain _)
  | none => exact keeps_pure trivial

theorem keeps_eachItem (i : Nat) (xs : List Value) : (eachItem inner i xs).Keeps law anything := by
  induction xs generalizing i with
  | nil => exact keeps_pure trivial
  | cons x rest ih =>
    refine (keeps_within fair (lawful x)).bind fun y _ => ?_
    exact (ih (i + 1)).bind fun ys _ => keeps_pure trivial

theorem lawful_array : Lawful law (array inner) :=
  fun _ => (keeps_itemsOf fair).bind fun items _ =>
    (keeps_eachItem fair lawful 0 items).bind fun _ _ => keeps_pure trivial

theorem keeps_eachElement (i : Nat) (xs : List Value) :
    (eachElement inner i xs).Keeps law anything := by
  induction xs generalizing i with
  | nil => exact keeps_pure trivial
  | cons x rest ih =>
    refine (keeps_within fair (lawful x)).bind fun y _ => ?_
    refine (keeps_requireHashable fair).bind fun _ _ => ?_
    exact (ih (i + 1)).bind fun ys _ => keeps_pure trivial

theorem lawful_set : Lawful law (set inner) := by
  intro x
  unfold set
  cases x.elements? with
  | some elements =>
    exact (keeps_eachElement fair lawful 0 elements).bind fun _ _ => keeps_pure trivial
  | none => exact keeps_reject (fair.expecting _ _)

theorem keeps_eachRest (declared : List Value) (entries out : List (Value × Value)) :
    (eachRest declared inner entries out).Keeps law anything := by
  induction entries generalizing out with
  | nil => exact keeps_pure trivial
  | cons entry further ih =>
    unfold eachRest
    split
    · exact ih out
    · exact (keeps_within fair (lawful entry.2)).bind fun y _ => ih _

theorem lawful_map {valueForm : SafeForm} (lawfulValue : Lawful law valueForm) :
    Lawful law (map inner valueForm) :=
  fun _ => (keeps_entriesOf (fair.expecting _ _)).bind fun entries _ =>
    (keeps_eachEntry fair (fun key => keeps_placed fair (lawful key)) lawfulValue entries []).bind
      fun _ _ => keeps_pure trivial

end Wrapped

section Several

variable {forms : List SafeForm} (lawful : ∀ form ∈ forms, Lawful law form)
include lawful

theorem lawful_pipe : Lawful law (pipe forms) := by
  induction forms with
  | nil => exact fun x => keeps_pure trivial
  | cons form rest ih =>
    obtain ⟨first, others⟩ := List.forall_mem_cons.mp lawful
    exact fun x => (first x).bind fun y _ => ih others y

theorem lawful_firstMatch {otherwise : Checked Value} (last : otherwise.Keeps law anything) :
    Lawful law (firstMatch otherwise forms) := by
  induction forms with
  | nil => exact fun x => last
  | cons form rest ih =>
    obtain ⟨first, others⟩ := List.forall_mem_cons.mp lawful
    exact fun x => (first x).attempt_bind (fun _ _ => keeps_pure trivial) fun _ _ => ih others x

theorem keeps_intersectFrom (x merged : Value) :
    (intersectFrom x forms merged).Keeps law anything := by
  induction forms generalizing merged with
  | nil => exact keeps_pure trivial
  | cons form rest ih =>
    obtain ⟨first, others⟩ := List.forall_mem_cons.mp lawful
    exact (first x).bind fun out _ => ih others _

theorem lawful_intersect : Lawful law (intersect forms) :=
  fun x => keeps_intersectFrom lawful x (.dict [])

variable (fair : law.Eager)
include fair

theorem lawful_union : Lawful law (union forms) :=
  lawful_firstMatch lawful (keeps_reject (fair.plain _))

theorem lawful_discriminatedUnion : Lawful law (discriminatedUnion forms) :=
  fun x => (keeps_entriesOf (fair.expecting _ _)).bind fun _ _ =>
    lawful_firstMatch lawful (keeps_reject (fair.plain _)) x

omit lawful in
theorem keeps_noVariant (key : Value) (entries : List (Value × Value)) :
    (noVariant key entries).Keeps law anything := by
  refine (keeps_requireHashable fair).bind fun _ _ => ?_
  dsimp only
  split
  · exact keeps_reject (fair.plain _)
  · exact keeps_misuse (fair.misuse _)

theorem lawful_variant (key : Value) : Lawful law (variant key forms) :=
  fun x => (keeps_entriesOf (fair.expecting _ _)).bind fun entries _ =>
    lawful_firstMatch lawful (keeps_noVariant fair key entries) x

theorem keeps_eachPosition (i : Nat) (xs : List Value) :
    (eachPosition i forms xs).Keeps law anything := by
  induction forms generalizing i xs with
  | nil => cases xs <;> exact keeps_pure trivial
  | cons form rest ih =>
    obtain ⟨first, others⟩ := List.forall_mem_cons.mp lawful
    cases xs with
    | nil => exact keeps_pure trivial
    | cons x xs =>
      refine (keeps_within fair (first x)).bind fun y _ => ?_
      exact (ih others (i + 1) xs).bind fun ys _ => keeps_pure trivial

theorem lawful_tuple : Lawful law (tuple forms) := by
  refine fun _ => (keeps_itemsOf fair).bind fun items _ => ?_
  split
  · exact (keeps_eachPosition lawful fair 0 items).bind fun _ _ => keeps_pure trivial
  · exact keeps_reject (fair.plain _)

theorem lawful_looseTuple : Lawful law (looseTuple forms) := by
  refine fun _ => (keeps_itemsOf fair).bind fun items _ => ?_
  split
  · exact keeps_reject (fair.plain _)
  · exact (keeps_eachPosition lawful fair 0 items).bind fun _ _ => keeps_pure trivial

theorem lawful_tupleWithRest {rest : SafeForm} (lawfulRest : Lawful law rest) :
    Lawful law (tupleWithRest forms rest) := by
  refine fun _ => (keeps_itemsOf fair).bind fun items _ => ?_
  split
  · exact keeps_reject (fair.plain _)
  · refine (keeps_eachPosition lawful fair 0 items).bind fun out _ => ?_
    exact (keeps_eachItem fair lawfulRest _ _).bind fun _ _ => keeps_pure trivial

end Several

section Fields

variable {fields : List (Value × SafeForm)} (lawful : ∀ field ∈ fields, Lawful law field.2)
  (fair : law.Eager)
include lawful fair

theorem keeps_eachField (store : List (Value × Value) → Value → Value → List (Value × Value))
    (entries out : List (Value × Value)) :
    (eachField store entries fields out).Keeps law anything := by
  induction fields generalizing out with
  | nil => exact keeps_pure trivial
  | cons field rest ih =>
    obtain ⟨first, others⟩ := List.forall_mem_cons.mp lawful
    exact (keeps_within fair (first _)).bind fun y _ => ih others _

theorem lawful_object : Lawful law (object fields) :=
  fun _ => (keeps_entriesOf (fair.expecting _ _)).bind fun entries _ =>
    (keeps_eachField lawful fair _ entries []).bind fun _ _ => keeps_pure trivial

theorem lawful_looseObject : Lawful law (looseObject fields) :=
  fun _ => (keeps_entriesOf (fair.expecting _ _)).bind fun entries _ =>
    (keeps_eachField lawful fair _ entries entries).bind fun _ _ => keeps_pure trivial

theorem lawful_objectWithRest {rest : SafeForm} (lawfulRest : Lawful law rest) :
    Lawful law (objectWithRest fields rest) :=
  fun _ => (keeps_entriesOf (fair.expecting _ _)).bind fun entries _ =>
    (keeps_eachField lawful fair _ entries []).bind fun out _ =>
      (keeps_eachRest fair lawfulRest _ entries out).bind fun _ _ => keeps_pure trivial

end Fields

end SafeForm

namespace Rule

open SafeForm

variable {law : Law} {onLazy : Nat → SafeForm}

/-- A rule keeps a law that is fair when its parts do and the pieces supplied to it comply; of the
key of a record it is asked that its failures, reported as those of a key, are lawful. -/
theorem lawful_of_parts (fair : law.Eager) {rule : Rule} (supplied : rule.SuppliedBy law.Allows)
    (lazies : ∀ id, rule = .lazy id → Lawful law (onLazy id))
    (keyed : ∀ key value, rule = .record key value → ∀ x,
      (Checked.reword (invalidKey? x) (key.safe onLazy x)).Keeps law Checked.anything)
    (parts : ∀ part ∈ rule.parts, Lawful law (part.safe onLazy)) :
      Lawful law (rule.safe onLazy) := by
  have several : ∀ {rules : List Rule}, (∀ part ∈ rules, Lawful law (part.safe onLazy)) →
      ∀ form ∈ safeAll onLazy rules, Lawful law form := by
    intro rules each form inside
    rw [safeAll_eq_map] at inside
    obtain ⟨part, member, rfl⟩ := List.mem_map.mp inside
    exact each part member
  have named : ∀ {fields : List (Value × Rule)},
      (∀ part ∈ fields.map (·.2), Lawful law (part.safe onLazy)) →
      ∀ field ∈ safeFields onLazy fields, Lawful law field.2 := by
    intro fields each form inside
    rw [safeFields_eq_map] at inside
    obtain ⟨field, member, rfl⟩ := List.mem_map.mp inside
    exact each field.2 (List.mem_map_of_mem member)
  have alone : ∀ {part : Rule}, (∀ other ∈ [part], Lawful law (other.safe onLazy)) →
      Lawful law (part.safe onLazy) := fun each => each _ (List.mem_singleton.mpr rfl)
  cases rule with
  | leaf | instanceOf => exact fun _ => keeps_provided (fair.expecting _ _)
  | literal | oneOf | keyName => exact fun _ => keeps_provided (fair.plain _)
  | check _ message => exact lawful_check fair supplied message
  | plain => exact lawful_plain fair (supplied _ (List.mem_singleton.mpr rfl))
  | resulting => exact lawful_resulting fair (supplied _ (List.mem_singleton.mpr rfl))
  | paired function result =>
    have allowed : law.Allows (.pair function result) := supplied _ (List.mem_singleton.mpr rfl)
    exact lawful_resulting fair allowed
  | pipe => exact lawful_pipe (several parts)
  | accepting absence => exact lawful_accepting (alone parts) absence
  | withDefault _ value => exact lawful_withDefault (alone parts) value
  | recovering _ value => exact lawful_recovering (alone parts) value
  | rejecting absence => exact lawful_rejecting fair (alone parts) absence
  | union => exact lawful_union (several parts) fair
  | discriminatedUnion => exact lawful_discriminatedUnion (several parts) fair
  | variant key => exact lawful_variant (several parts) fair key
  | intersect => exact lawful_intersect (several parts)
  | refine _ _ message =>
    exact lawful_refine fair (alone parts) (List.forall_mem_cons.mp supplied).1 message
  | transform _ _ failure =>
    exact lawful_transform fair (alone parts) (List.forall_mem_cons.mp supplied).1 failure
  | preprocess => exact lawful_preprocess fair (alone parts) (List.forall_mem_cons.mp supplied).1
  | convert _ failure =>
    exact lawful_convert fair (supplied _ (List.mem_singleton.mpr rfl)) failure
  | tryConvert => exact lawful_tryConvert fair supplied
  | rawCheck => exact lawful_rawCheck fair supplied
  | rawConvert => exact lawful_rawConvert fair supplied
  | crossCheck paths _ message =>
    exact lawful_crossCheck fair (supplied _ (List.mem_singleton.mpr rfl)) paths message
  | items quantifier _ message =>
    exact lawful_items fair (supplied _ (List.mem_singleton.mpr rfl)) quantifier message
  | retitle => exact lawful_retitle fair (alone parts) (List.forall_mem_append.mp supplied).1
  | forward _ path => exact lawful_forward fair (alone parts) path
  | array => exact lawful_array fair (alone parts)
  | tuple => exact lawful_tuple (several parts) fair
  | looseTuple => exact lawful_looseTuple (several parts) fair
  | tupleWithRest =>
    obtain ⟨positions, rest⟩ := List.forall_mem_append.mp parts
    exact lawful_tupleWithRest (several positions) fair (alone rest)
  | object => exact lawful_object (named parts) fair
  | looseObject => exact lawful_looseObject (named parts) fair
  | objectWithRest =>
    obtain ⟨declared, rest⟩ := List.forall_mem_append.mp parts
    exact lawful_objectWithRest (named declared) fair (alone rest)
  | passthrough => exact lawful_passthrough fair (alone parts)
  | lenient => exact lawful_lenient fair (alone parts)
  | required declared => exact lawful_required fair (alone parts) declared
  | record key value =>
    exact lawful_record fair (keyed key value rfl) (alone (List.forall_mem_cons.mp parts).2)
  | map =>
    obtain ⟨keys, values⟩ := List.forall_mem_cons.mp parts
    exact lawful_map fair keys (alone values)
  | set => exact lawful_set fair (alone parts)
  | lazy id => exact lazies id rfl

/-- A law that evaluation respects is kept by every rule whose pieces comply with it. -/
theorem keeps_safe (respected : law.Respected) (lazies : ∀ id, Lawful law (onLazy id))
    (rule : Rule) :
    rule.SuppliedBy law.Allows → Lawful law (rule.safe onLazy) := by
  induction rule using byParts with
  | step rule ih =>
    intro supplied
    have parts : ∀ part ∈ rule.parts, Lawful law (part.safe onLazy) :=
      fun part member => ih part member (supplied.part member)
    refine lawful_of_parts respected.toEager supplied (fun id _ => lazies id) ?_ parts
    rintro key value rfl x
    refine (parts key List.mem_cons_self x).reword respected.toEager fun failure _
      holds worded => ?_
    obtain ⟨-, rfl⟩ := invalidKey?_eq_some.mp worded
    exact respected.invalidKey x holds

/-- A law is kept by resolving a lazy schema, to a validator with a property that it has in lawful
worlds. -/
theorem keeps_resolve (fair : law.Fair) (id : Nat) {property : Validator → Prop}
    (holds : ∀ world v after, law.world world →
      (Eval.resolve id).Returns world v after → property v) :
    Checked.Keeps law property (ExceptT.lift (Eval.resolve id)) := by
  intro world lawful
  refine ⟨?_, by simp, ?_⟩
  · intro v after returned
    have resolved := Checked.returns_lift.mp returned
    exact ⟨(fair.resolved lawful resolved).1, holds world v after lawful resolved⟩
  · intro fault after faulted
    exact fair.unresolved lawful (Checked.faults_lift.mp faulted)

/-- Lazy rules keep the law as well, whatever their budget. -/
theorem keeps_lazySafe (respected : law.Respected) (budget : Nat) :
    ∀ id, Lawful law (lazySafe budget id) := by
  induction budget with
  | zero => exact fun id x => Checked.keeps_misuse (respected.misuse _)
  | succ budget ih =>
    intro id x
    refine (keeps_resolve respected.toFair id fun world v after lawful resolved =>
      (respected.resolved lawful resolved).2).bind fun v supplied => ?_
    exact keeps_safe respected ih v.rule supplied x

end Rule

end Conform
