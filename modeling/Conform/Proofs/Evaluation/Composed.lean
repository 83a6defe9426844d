import Conform.Proofs.Evaluation.Endings
import Conform.Proofs.Evaluation.Pieces

/-!
How evaluations are put together. The forms of a rule combine the runs of the pieces supplied to it
and the forms of lazy rules with a handful of combinators (`Rule.composed_safe`,
`Rule.composed_call`). A property that these combinators preserve holds of every evaluation, by one
induction over `Checked.Composed`.
-/
namespace Conform

variable {allowed : Piece → Prop} {α β : Type}

/-- A run that calls supplied callbacks only. -/
inductive Traced.Calls (allowed : Piece → Prop) : ∀ {α : Type}, Traced α → Prop
  | pure {α : Type} (value : α) : Calls allowed (pure value)
  | misuse {α : Type} (cause : Misuse) : Calls allowed (Traced.misuse cause : Traced α)
  | bind {α β : Type} {run : Traced α} {next : α → Traced β} (first : Calls allowed run)
      (rest : ∀ value, Calls allowed (next value)) : Calls allowed (run >>= next)
  | callback {function : Callable} (supplied : allowed (.callback function)) (x : Value) :
      Calls allowed (function.run x)
  | renderer {render : Callable} (supplied : allowed (.renderer render)) (x : Value) :
      Calls allowed (render.run x)

/-- A computation put together from runs of supplied pieces and from given parts. -/
inductive Checked.Composed (allowed : Piece → Prop) (part : Checked Value → Prop) :
    ∀ {α : Type}, Checked α → Prop
  | pure {α : Type} (value : α) : Composed allowed part (pure value)
  | reject {α : Type} (failure : Failure) :
      Composed allowed part (Checked.reject failure : Checked α)
  | misuse {α : Type} (cause : Misuse) : Composed allowed part (Checked.misuse cause : Checked α)
  | bind {α β : Type} {computation : Checked α} {next : α → Checked β}
      (first : Composed allowed part computation) (rest : ∀ value,
        Composed allowed part (next value)) :
      Composed allowed part (computation >>= next)
  | attempt {α : Type} {computation : Checked α} (inner : Composed allowed part computation) :
      Composed allowed part (Checked.attempt computation)
  | guarded {α : Type} {run : Traced α} (default : Value) (calls : run.Calls allowed) :
      Composed allowed part (Checked.guarded default run)
  | reporter {function : ResultCallable} (supplied : allowed (.reporter function)) (x : Value) :
      Composed allowed part (Checked.perform (function.run x))
  | result {function : Callable} {result : ResultCallable}
      (supplied : allowed (.pair function result))
      (x : Value) : Composed allowed part (Checked.perform (result.run x))
  | part {computation : Checked Value} (given : part computation) :
      Composed allowed part computation

/-- An evaluation put together from runs of supplied pieces, raised failures and given parts. -/
inductive Eval.Composed (allowed : Piece → Prop) (checked : Checked Value → Prop)
    (part : Eval Value → Prop) : Eval Value → Prop
  | pure (value : Value) : Composed allowed checked part (pure value)
  | bind {evaluation : Eval Value} {next : Value → Eval Value}
      (first : Composed allowed checked part evaluation)
      (rest : ∀ value, Composed allowed checked part (next value)) :
      Composed allowed checked part (evaluation >>= next)
  | callback {function : Callable} (supplied : allowed (.callback function)) (x : Value) :
      Composed allowed checked part (Eval.perform (function.run x))
  | function {function : Callable} {result : ResultCallable}
      (supplied : allowed (.pair function result))
      (x : Value) : Composed allowed checked part (Eval.perform (function.run x))
  | raising {computation : Checked Value} (inner : computation.Composed allowed checked) :
      Composed allowed checked part (Checked.raising computation)
  | part {evaluation : Eval Value} (given : part evaluation) :
      Composed allowed checked part evaluation

namespace Checked.Composed

variable {part : Checked Value → Prop}

theorem report (worded : Option Failure) :
    Composed allowed part (Checked.report worded : Checked α) := by
  cases worded with
  | some failure => exact .reject failure
  | none => exact .misuse _

theorem reword {computation : Checked α} (inner : Composed allowed part computation)
    (wording : Failure → Option Failure) :
    Composed allowed part (Checked.reword wording computation) := by
  refine .bind (.attempt inner) fun result => ?_
  cases result with
  | ok value => exact .pure value
  | error failure => exact report _

theorem within {computation : Checked α} (inner : Composed allowed part computation)
    (place : Place) : Composed allowed part (Checked.within place computation) := inner.reword _

end Checked.Composed

namespace Traced

theorem calls_condition {condition : Option Callable}
    (supplied : ∀ piece ∈ condition.toList.map Piece.callback, allowed piece) (x : Value) :
    (conditionHolds condition x).Calls allowed := by
  cases condition with
  | none => exact .pure true
  | some test => exact .bind (.callback (supplied _ (by simp)) x) fun answer => .pure answer.truthy

/-- A program of failures makes no calls but those of the pieces it is supplied with. -/
theorem calls_failSteps (program : List FailStep)
    (supplied : ∀ piece ∈ program.flatMap (·.pieces), allowed piece) (x : Value) :
    ∀ message result, (FailStep.runFrom x message result program).Calls allowed := by
  induction program with
  | nil => exact fun message result => .pure (message, result)
  | cons step rest ih =>
    simp only [List.flatMap_cons, List.forall_mem_append] at supplied
    intro message result
    cases step with
    | fail condition text =>
      have conditions := (List.forall_mem_cons.mp supplied.1).2
      refine .bind (calls_condition conditions x) fun holds => ?_
      cases holds with
      | true => exact ih supplied.2 (some text) result
      | false => exact ih supplied.2 message result
    | answer function =>
      have given := (List.forall_mem_cons.mp supplied.1).1
      exact .bind (.callback given x) fun y => ih supplied.2 message y

/-- A program of issues makes no calls but those of the pieces it is supplied with. -/
theorem calls_issueSteps (program : List IssueStep)
    (supplied : ∀ piece ∈ program.flatMap (·.pieces), allowed piece) (x : Value) :
    ∀ issues result, (IssueStep.runFrom x issues result program).Calls allowed := by
  induction program with
  | nil => exact fun issues result => .pure (issues, result)
  | cons step rest ih =>
    simp only [List.flatMap_cons, List.forall_mem_append] at supplied
    intro issues result
    cases step with
    | report condition message path =>
      have conditions := (List.forall_mem_cons.mp supplied.1).2
      refine .bind (calls_condition conditions x) fun holds => ?_
      cases holds with
      | true =>
        simp only [↓reduceIte]
        split
        · exact ih supplied.2 _ result
        · exact .misuse _
      | false => exact ih supplied.2 issues result
    | answer function =>
      have given := (List.forall_mem_cons.mp supplied.1).1
      exact .bind (.callback given x) fun y => ih supplied.2 issues y

theorem calls_answer {test : Check} (supplied : ∀ piece ∈ test.pieces, allowed piece) (x : Value) :
    (SafeForm.answer test x).Calls allowed := by
  cases test with
  | predicate function =>
    have given := supplied _ (List.mem_singleton.mpr rfl)
    exact .bind (.callback given x) fun result => .pure result.truthy
  | lengthAtLeast | lengthAtMost | compare | occurs => exact .pure _

theorem calls_quantify {test : Callable} (supplied : allowed (.callback test))
    (quantifier : Quantifier)
    (items : List Value) : (SafeForm.quantify quantifier test items).Calls allowed := by
  induction items with
  | nil => exact .pure _
  | cons item rest ih =>
    refine .bind (.callback supplied item) fun result => ?_
    split
    · exact .pure false
    · exact .pure true
    · exact ih

end Traced

namespace SafeForm

open Checked

variable {part : Checked Value → Prop} {form inner : SafeForm}

/-- A form all of whose computations are composed. -/
def Composed (allowed : Piece → Prop) (part : Checked Value → Prop) (form : SafeForm) : Prop :=
  ∀ x, (form x).Composed allowed part

section Single

theorem composed_provided (condition : Bool) (failure : Failure) (x : Value) :
    (provided condition failure x).Composed allowed part := by
  cases condition with
  | true => exact .pure x
  | false => exact .reject failure

theorem composed_entriesOf (failure : Failure) (x : Value) :
    (entriesOf failure x).Composed allowed part := by
  unfold entriesOf
  cases x.entries? with
  | some entries => exact .pure entries
  | none => exact .reject failure

theorem composed_itemsOf (x : Value) : (itemsOf x).Composed allowed part := by
  unfold itemsOf
  cases x.items? with
  | some items => exact .pure items
  | none => exact .reject notArray

theorem composed_requireHashable (y : Value) : (requireHashable y).Composed allowed part := by
  unfold requireHashable
  cases y.unhashable? with
  | some found => exact .misuse (.unhashable found)
  | none => exact .pure ()

theorem composed_unlessIssues (issues : List Issue) (y : Value) :
    (unlessIssues issues y).Composed allowed part := by
  cases issues with
  | nil => exact .pure y
  | cons first others => exact .reject _

theorem composed_ofOutcome (outcome : Outcome) : (ofOutcome outcome).Composed allowed part := by
  cases outcome with
  | ok value => exact .pure value
  | err failure => exact .reject failure

theorem composed_check {test : Check} (supplied : ∀ piece ∈ test.pieces, allowed piece)
    (message : String) : Composed allowed part (check test message) := fun x =>
  .bind (.guarded _ (Traced.calls_answer supplied x)) fun _ => composed_provided ..

theorem composed_tryConvert {program : List FailStep}
    (supplied : ∀ piece ∈ program.flatMap (·.pieces), allowed piece) :
    Composed allowed part (tryConvert program) := by
  intro x
  refine .bind (.guarded _ (Traced.calls_failSteps program supplied x none x)) ?_
  rintro ⟨message, y⟩
  cases message with
  | none => exact .pure y
  | some message =>
    simp only
    split
    · exact .reject _
    · exact .pure y

theorem composed_rawCheck {program : List IssueStep}
    (supplied : ∀ piece ∈ program.flatMap (·.pieces), allowed piece) :
    Composed allowed part (rawCheck program) := fun x =>
  .bind (.guarded _ (Traced.calls_issueSteps program supplied x [] x)) fun _ =>
    composed_unlessIssues ..

theorem composed_rawConvert {program : List IssueStep}
    (supplied : ∀ piece ∈ program.flatMap (·.pieces), allowed piece) :
    Composed allowed part (rawConvert program) := fun x =>
  .bind (.guarded _ (Traced.calls_issueSteps program supplied x [] x)) fun _ =>
    composed_unlessIssues ..

theorem composed_crossCheck {test : Callable} (supplied : allowed (.callback test))
    (paths : List (List Value)) (message : String) :
    Composed allowed part (crossCheck paths test message) := fun x =>
  .bind (.guarded _ (.callback supplied x)) fun _ => composed_provided ..

theorem composed_items {test : Callable} (supplied : allowed (.callback test))
    (quantifier : Quantifier) (message : String) :
    Composed allowed part (items quantifier test message) := fun x =>
  .bind (composed_itemsOf x) fun items =>
    .bind (.guarded _ (Traced.calls_quantify supplied quantifier items)) fun _ =>
      composed_provided ..

end Single

section Wrapped

variable (composed : Composed allowed part inner)
include composed

theorem composed_accepting (absence : Absence) :
    Composed allowed part (accepting absence inner) := by
  intro x
  unfold accepting
  split
  · exact .pure x
  · exact composed x

theorem composed_withDefault (value : Value) : Composed allowed part (withDefault inner value) := by
  intro x
  unfold withDefault
  split
  · exact .pure value
  · exact composed x

theorem composed_recovering (value : Value) : Composed allowed part (recovering inner value) := by
  intro x
  refine .bind (.attempt (composed x)) fun result => ?_
  cases result with
  | ok y => exact .pure y
  | error failure => exact .pure value

theorem composed_rejecting (absence : Absence) : Composed allowed part (rejecting absence inner) :=
  fun x => .bind (composed x) fun _ => composed_provided ..

theorem composed_refine {test : Callable} (supplied : allowed (.callback test)) (message : String) :
    Composed allowed part (refine inner test message) := fun x =>
  .bind (composed x) fun y => .bind (.guarded _ (.callback supplied y)) fun _ =>
    composed_provided ..

theorem composed_transform {function : Callable} (supplied : allowed (.callback function))
    (failure : String) : Composed allowed part (transform inner function failure) := fun x =>
  .bind (composed x) fun y => .guarded _ (.callback supplied y)

theorem composed_preprocess {function : Callable} (supplied : allowed (.callback function)) :
    Composed allowed part (preprocess function inner) := fun x =>
  .bind (.guarded _ (.callback supplied x)) fun y => composed y

theorem composed_retitle {source : MessageSource}
    (supplied : ∀ piece ∈ source.pieces, allowed piece) :
    Composed allowed part (retitle inner source) := by
  intro x
  refine .bind (.attempt (composed x)) fun result => ?_
  cases result with
  | ok y => exact .pure y
  | error failure =>
    cases source with
    | given message => exact .reject _
    | computed render =>
      have given := supplied _ (List.mem_singleton.mpr rfl)
      exact .bind (.guarded _ (.renderer given x)) fun message => .reject _

theorem composed_passthrough : Composed allowed part (passthrough inner) := by
  intro x
  refine .bind (composed_entriesOf ..) fun entries => .bind (composed x) fun out => ?_
  cases out.entries? with
  | some further => exact .pure _
  | none => exact .misuse _

theorem composed_lenient : Composed allowed part (lenient inner) := fun x =>
  .bind (composed_entriesOf ..) fun _ => composed_recovering composed x x

theorem composed_required (declared : List Value) :
    Composed allowed part (required declared inner) := by
  intro x
  refine .bind (composed_entriesOf ..) fun _ => .bind (composed x) fun y =>
    .bind (composed_entriesOf ..) fun out => ?_
  cases firstAbsent? declared out with
  | some key => exact .report _
  | none => exact .pure y

theorem composed_eachItem (i : Nat) (xs : List Value) :
    (eachItem inner i xs).Composed allowed part := by
  induction xs generalizing i with
  | nil => exact .pure []
  | cons x rest ih =>
    exact .bind ((composed x).within _) fun y => .bind (ih (i + 1)) fun ys => .pure (y :: ys)

theorem composed_array : Composed allowed part (array inner) := fun x =>
  .bind (composed_itemsOf x) fun items =>
    .bind (composed_eachItem composed 0 items) fun _ => .pure _

theorem composed_eachElement (i : Nat) (xs : List Value) :
    (eachElement inner i xs).Composed allowed part := by
  induction xs generalizing i with
  | nil => exact .pure []
  | cons x rest ih =>
    exact .bind ((composed x).within _) fun y => .bind (composed_requireHashable y) fun _ =>
      .bind (ih (i + 1)) fun ys => .pure (y :: ys)

theorem composed_set : Composed allowed part (set inner) := by
  intro x
  unfold set
  cases x.elements? with
  | some elements => exact .bind (composed_eachElement composed 0 elements) fun _ => .pure _
  | none => exact .reject _

theorem composed_eachRest (declared : List Value) (entries out : List (Value × Value)) :
    (eachRest declared inner entries out).Composed allowed part := by
  induction entries generalizing out with
  | nil => exact .pure out
  | cons entry further ih =>
    unfold eachRest
    split
    · exact ih out
    · exact .bind ((composed entry.2).within _) fun y => ih _

theorem composed_eachEntry (onKey : Value → Failure → Option Failure)
    (onValue : Value → Place) {valueForm : SafeForm} (values : Composed allowed part valueForm)
    (entries out : List (Value × Value)) :
    (eachEntry onKey onValue inner valueForm entries out).Composed allowed part := by
  induction entries generalizing out with
  | nil => exact .pure out
  | cons entry rest ih =>
    exact .bind ((composed entry.1).reword _) fun k =>
      .bind ((values entry.2).within _) fun y =>
        .bind (composed_requireHashable k) fun _ => ih _

theorem composed_record {valueForm : SafeForm} (values : Composed allowed part valueForm) :
    Composed allowed part (record inner valueForm) := fun _ =>
  .bind (composed_entriesOf ..) fun entries =>
    .bind (composed_eachEntry composed _ _ values entries []) fun _ => .pure _

theorem composed_map {valueForm : SafeForm} (values : Composed allowed part valueForm) :
    Composed allowed part (map inner valueForm) := fun _ =>
  .bind (composed_entriesOf ..) fun entries =>
    .bind (composed_eachEntry composed _ _ values entries []) fun _ => .pure _

end Wrapped

section Several

variable {forms : List SafeForm} (composed : ∀ form ∈ forms, Composed allowed part form)
include composed

theorem composed_pipe : Composed allowed part (pipe forms) := by
  induction forms with
  | nil => exact fun x => .pure x
  | cons step rest ih =>
    obtain ⟨first, others⟩ := List.forall_mem_cons.mp composed
    exact fun x => .bind (first x) fun y => ih others y

/-- The first match is composed of its alternatives and of what happens when none matches. -/
theorem composed_firstMatch {otherwise : Checked Value} (last : otherwise.Composed allowed part) :
    Composed allowed part (firstMatch otherwise forms) := by
  induction forms with
  | nil => exact fun _ => last
  | cons option rest ih =>
    obtain ⟨first, others⟩ := List.forall_mem_cons.mp composed
    intro x
    refine .bind (.attempt (first x)) fun result => ?_
    cases result with
    | ok y => exact .pure y
    | error failure => exact ih others x

theorem composed_union : Composed allowed part (union forms) :=
  composed_firstMatch composed (.reject _)

theorem composed_discriminatedUnion : Composed allowed part (discriminatedUnion forms) := fun x =>
  .bind (composed_entriesOf ..) fun _ => composed_firstMatch composed (.reject _) x

omit composed in
theorem composed_noVariant (key : Value) (entries : List (Value × Value)) :
    (noVariant key entries).Composed allowed part := by
  refine .bind (composed_requireHashable key) fun _ => ?_
  dsimp only
  split
  · exact .reject _
  · exact .misuse _

theorem composed_variant (key : Value) : Composed allowed part (variant key forms) := fun x =>
  .bind (composed_entriesOf ..) fun _ =>
    composed_firstMatch composed (composed_noVariant key _) x

/-- Joining the outputs of all members is composed of the members. -/
theorem composed_intersect : Composed allowed part (intersect forms) := by
  intro x
  have onward : ∀ merged, (intersectFrom x forms merged).Composed allowed part := by
    induction forms with
    | nil => exact fun merged => .pure merged
    | cons member rest ih =>
      obtain ⟨first, others⟩ := List.forall_mem_cons.mp composed
      exact fun merged => .bind (first x) fun out => ih others _
  exact onward _

theorem composed_eachPosition (i : Nat) (xs : List Value) :
    (eachPosition i forms xs).Composed allowed part := by
  induction forms generalizing i xs with
  | nil => cases xs <;> exact .pure []
  | cons form rest ih =>
    obtain ⟨first, others⟩ := List.forall_mem_cons.mp composed
    cases xs with
    | nil => exact .pure []
    | cons x xs =>
      exact .bind ((first x).within _) fun y =>
        .bind (ih others (i + 1) xs) fun ys => .pure (y :: ys)

theorem composed_tuple : Composed allowed part (tuple forms) := by
  intro x
  refine .bind (composed_itemsOf x) fun items => ?_
  split
  · exact .bind (composed_eachPosition composed 0 items) fun _ => .pure _
  · exact .reject _

theorem composed_looseTuple : Composed allowed part (looseTuple forms) := by
  intro x
  refine .bind (composed_itemsOf x) fun items => ?_
  split
  · exact .reject _
  · exact .bind (composed_eachPosition composed 0 items) fun _ => .pure _

theorem composed_tupleWithRest {rest : SafeForm} (further : Composed allowed part rest) :
    Composed allowed part (tupleWithRest forms rest) := by
  intro x
  refine .bind (composed_itemsOf x) fun items => ?_
  split
  · exact .reject _
  · exact .bind (composed_eachPosition composed 0 items) fun _ =>
      .bind (composed_eachItem further _ _) fun _ => .pure _

end Several

section Fields

variable {fields : List (Value × SafeForm)} (composed : ∀ field ∈ fields,
  Composed allowed part field.2)
include composed

theorem composed_eachField (store : List (Value × Value) → Value → Value → List (Value × Value))
    (entries out : List (Value × Value)) :
    (eachField store entries fields out).Composed allowed part := by
  induction fields generalizing out with
  | nil => exact .pure out
  | cons field rest ih =>
    obtain ⟨first, others⟩ := List.forall_mem_cons.mp composed
    exact .bind ((first _).within _) fun y => ih others _

theorem composed_object : Composed allowed part (object fields) := fun _ =>
  .bind (composed_entriesOf ..) fun entries =>
    .bind (composed_eachField composed storePresent entries []) fun _ => .pure _

theorem composed_looseObject : Composed allowed part (looseObject fields) := fun _ =>
  .bind (composed_entriesOf ..) fun entries =>
    .bind (composed_eachField composed storeOrErase entries entries) fun _ => .pure _

theorem composed_objectWithRest {rest : SafeForm} (further : Composed allowed part rest) :
    Composed allowed part (objectWithRest fields rest) := fun _ =>
  .bind (composed_entriesOf ..) fun entries =>
    .bind (composed_eachField composed storePresent entries []) fun out =>
      .bind (composed_eachRest further _ entries out) fun _ => .pure _

end Fields

end SafeForm

namespace Rule

open SafeForm

variable {onLazy : Nat → SafeForm} {onLazyCall : Nat → CallForm} {part : Checked Value → Prop}

mutual

/-- The safe form of a rule is composed of runs of the rule's pieces and safe forms of lazy
rules. -/
theorem composed_safe (lazies : ∀ id, Composed allowed part (onLazy id)) :
    ∀ rule : Rule, rule.SuppliedBy allowed → Composed allowed part (rule.safe onLazy)
  | .leaf _, _ | .instanceOf _, _ | .literal _, _ | .oneOf _, _ | .keyName _, _ =>
    fun _ => composed_provided ..
  | .check _ message, supplied => composed_check supplied message
  | .plain _, supplied => fun x =>
    .guarded _ (.callback (supplied _ (List.mem_singleton.mpr rfl)) x)
  | .resulting _, supplied => fun x =>
    .bind (.reporter (supplied _ (List.mem_singleton.mpr rfl)) x) composed_ofOutcome
  | .paired function result, supplied => fun x => by
    have given : allowed (.pair function result) := supplied _ (List.mem_singleton.mpr rfl)
    exact .bind (.result given x) composed_ofOutcome
  | .pipe steps, supplied => composed_pipe (composed_safeAll lazies steps supplied)
  | .accepting absence inner, supplied =>
    composed_accepting (composed_safe lazies inner supplied) absence
  | .withDefault inner value, supplied =>
    composed_withDefault (composed_safe lazies inner supplied) value
  | .recovering inner value, supplied =>
    composed_recovering (composed_safe lazies inner supplied) value
  | .rejecting absence inner, supplied =>
    composed_rejecting (composed_safe lazies inner supplied) absence
  | .union options, supplied => composed_union (composed_safeAll lazies options supplied)
  | .discriminatedUnion options, supplied =>
    composed_discriminatedUnion (composed_safeAll lazies options supplied)
  | .variant key options, supplied =>
    composed_variant (composed_safeAll lazies options supplied) key
  | .intersect members, supplied => composed_intersect (composed_safeAll lazies members supplied)
  | .refine inner _ message, supplied => by
    obtain ⟨given, further⟩ := List.forall_mem_cons.mp supplied
    exact composed_refine (composed_safe lazies inner further) given message
  | .transform inner _ failure, supplied => by
    obtain ⟨given, further⟩ := List.forall_mem_cons.mp supplied
    exact composed_transform (composed_safe lazies inner further) given failure
  | .preprocess _ inner, supplied => by
    obtain ⟨given, further⟩ := List.forall_mem_cons.mp supplied
    exact composed_preprocess (composed_safe lazies inner further) given
  | .convert _ _, supplied => fun x =>
    .guarded _ (.callback (supplied _ (List.mem_singleton.mpr rfl)) x)
  | .tryConvert _, supplied => composed_tryConvert supplied
  | .rawCheck _, supplied => composed_rawCheck supplied
  | .rawConvert _, supplied => composed_rawConvert supplied
  | .crossCheck paths _ message, supplied =>
    composed_crossCheck (supplied _ (List.mem_singleton.mpr rfl)) paths message
  | .items quantifier _ message, supplied =>
    composed_items (supplied _ (List.mem_singleton.mpr rfl)) quantifier message
  | .retitle inner _, supplied => by
    obtain ⟨given, further⟩ := List.forall_mem_append.mp supplied
    exact composed_retitle (composed_safe lazies inner further) given
  | .forward inner _, supplied => fun x => (composed_safe lazies inner supplied x).reword _
  | .array item, supplied => composed_array (composed_safe lazies item supplied)
  | .tuple parts, supplied => composed_tuple (composed_safeAll lazies parts supplied)
  | .looseTuple parts, supplied => composed_looseTuple (composed_safeAll lazies parts supplied)
  | .tupleWithRest parts rest, supplied => by
    obtain ⟨positions, further⟩ := List.forall_mem_append.mp supplied
    exact composed_tupleWithRest (composed_safeAll lazies parts positions)
      (composed_safe lazies rest further)
  | .object fields, supplied => composed_object (composed_safeFields lazies fields supplied)
  | .looseObject fields, supplied =>
    composed_looseObject (composed_safeFields lazies fields supplied)
  | .objectWithRest fields rest, supplied => by
    obtain ⟨declared, further⟩ := List.forall_mem_append.mp supplied
    exact composed_objectWithRest (composed_safeFields lazies fields declared)
      (composed_safe lazies rest further)
  | .passthrough inner, supplied => composed_passthrough (composed_safe lazies inner supplied)
  | .lenient inner, supplied => composed_lenient (composed_safe lazies inner supplied)
  | .required declared inner, supplied =>
    composed_required (composed_safe lazies inner supplied) declared
  | .record key value, supplied => by
    obtain ⟨keys, values⟩ := List.forall_mem_append.mp supplied
    exact composed_record (composed_safe lazies key keys) (composed_safe lazies value values)
  | .map key value, supplied => by
    obtain ⟨keys, values⟩ := List.forall_mem_append.mp supplied
    exact composed_map (composed_safe lazies key keys) (composed_safe lazies value values)
  | .set item, supplied => composed_set (composed_safe lazies item supplied)
  | .lazy id, _ => lazies id

theorem composed_safeAll (lazies : ∀ id, Composed allowed part (onLazy id)) :
    ∀ rules : List Rule, (∀ piece ∈ piecesAll rules, allowed piece) →
      ∀ form ∈ safeAll onLazy rules, Composed allowed part form
  | [], _ => by simp [safeAll]
  | rule :: rest, supplied => by
    obtain ⟨first, others⟩ := List.forall_mem_append.mp supplied
    exact List.forall_mem_cons.mpr
      ⟨composed_safe lazies rule first, composed_safeAll lazies rest others⟩

theorem composed_safeFields (lazies : ∀ id, Composed allowed part (onLazy id)) :
    ∀ fields : List (Value × Rule), (∀ piece ∈ piecesOfFields fields, allowed piece) →
      ∀ field ∈ safeFields onLazy fields, Composed allowed part field.2
  | [], _ => by simp [safeFields]
  | (_, rule) :: rest, supplied => by
    obtain ⟨first, others⟩ := List.forall_mem_append.mp supplied
    exact List.forall_mem_cons.mpr
      ⟨composed_safe lazies rule first, composed_safeFields lazies rest others⟩

end

mutual

/-- The calling form of a rule is composed of runs of the rule's pieces, of safe forms whose
failures are raised, and of calling forms of lazy rules. -/
theorem composed_call {called : Eval Value → Prop}
    (lazies : ∀ id, Composed allowed part (onLazy id))
    (lazyCalls : ∀ id x, (onLazyCall id x).Composed allowed part called) :
    ∀ rule : Rule, rule.SuppliedBy allowed →
      ∀ x, (rule.call onLazy onLazyCall x).Composed allowed part called
  | .plain _, supplied, x => .callback (supplied _ (List.mem_singleton.mpr rfl)) x
  | .paired function result, supplied, x => by
    have given : allowed (.pair function result) := supplied _ (List.mem_singleton.mpr rfl)
    exact .function given x
  | .pipe steps, supplied, x => composed_callAll lazies lazyCalls steps supplied x
  | .accepting absence inner, supplied, x => by
    unfold call
    split
    · exact .pure x
    · exact composed_call lazies lazyCalls inner supplied x
  | .withDefault inner value, supplied, x => by
    unfold call
    split
    · exact .pure value
    · exact composed_call lazies lazyCalls inner supplied x
  | .lazy id, _, x => lazyCalls id x
  | .leaf _, supplied, x | .instanceOf _, supplied, x | .literal _, supplied,
      x | .oneOf _, supplied, x
  | .keyName _, supplied, x | .check _ _, supplied, x | .resulting _, supplied, x
  | .recovering _ _, supplied, x | .rejecting _ _, supplied, x | .union _, supplied, x
  | .discriminatedUnion _, supplied, x | .variant _ _, supplied, x | .intersect _, supplied, x
  | .refine _ _ _, supplied, x | .transform _ _ _, supplied, x | .preprocess _ _, supplied, x
  | .convert _ _, supplied, x | .tryConvert _, supplied, x | .rawCheck _, supplied, x
  | .rawConvert _, supplied, x | .crossCheck _ _ _, supplied, x | .items _ _ _, supplied, x
  | .retitle _ _, supplied, x | .forward _ _, supplied, x | .array _, supplied, x
  | .tuple _, supplied, x | .looseTuple _, supplied, x | .tupleWithRest _ _, supplied, x
  | .object _, supplied, x | .looseObject _, supplied, x | .objectWithRest _ _, supplied, x
  | .passthrough _, supplied, x | .lenient _, supplied, x | .required _ _, supplied, x
  | .record _ _, supplied, x | .map _ _, supplied, x | .set _, supplied, x =>
    .raising (composed_safe lazies _ supplied x)

/-- The calling forms of rules in a row are composed of what the rules are supplied with. -/
theorem composed_callAll {called : Eval Value → Prop}
    (lazies : ∀ id, Composed allowed part (onLazy id))
    (lazyCalls : ∀ id x, (onLazyCall id x).Composed allowed part called) :
    ∀ rules : List Rule, (∀ piece ∈ piecesAll rules, allowed piece) →
      ∀ x, (callAll onLazy onLazyCall rules x).Composed allowed part called
  | [], _, x => .pure x
  | rule :: rest, supplied, x => by
    obtain ⟨first, others⟩ := List.forall_mem_append.mp supplied
    exact .bind (composed_call lazies lazyCalls rule first x) fun y =>
      composed_callAll lazies lazyCalls rest others y

end

end Rule

end Conform
