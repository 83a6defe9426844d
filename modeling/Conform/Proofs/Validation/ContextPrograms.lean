import Conform.Proofs.Evaluation.Endings

/-!
What context programs come to. A step does something or nothing (`IssueStep.Acts`, `FailStep.Acts`),
and a program does what its steps do, in order (`Performs`). What was reported on the way decides
how the check or the conversion made of the program ends, and in every order of steps
(`Validator.reports_decide`): issues fail with all of them, and failures with the last one unless
its message is empty.
-/
namespace Conform

/-- What a step of a context program did: it reported something, or it gave a result. -/
inductive Deed (ρ : Type) where
  | reported (report : ρ)
  | answered (value : Value)

namespace Deed

variable {ρ : Type}

def report? : Deed ρ → Option ρ
  | .reported report => some report
  | .answered _ => none

def answer? : Deed ρ → Option Value
  | .reported _ => none
  | .answered value => some value

def reports (deeds : List (Deed ρ)) : List ρ := deeds.filterMap report?

def result (before : Value) (deeds : List (Deed ρ)) : Value :=
  (deeds.filterMap answer?).getLast?.getD before

theorem reports_append (first second : List (Deed ρ)) :
    reports (first ++ second) = reports first ++ reports second := List.filterMap_append

theorem result_append (before : Value) (first second : List (Deed ρ)) :
    result before (first ++ second) = result (result before first) second := by
  unfold result
  rw [List.filterMap_append, List.getLast?_append]
  cases (second.filterMap answer?).getLast? <;> rfl

end Deed

/-- Steps carried out one after the other, each doing something or nothing. -/
inductive Performs {σ ρ : Type} (acts : σ → Trace → Option (Deed ρ) → Trace → Prop) :
    List σ → Trace → List (Deed ρ) → Trace → Prop where
  | nil {trace : Trace} : Performs acts [] trace [] trace
  | cons {step : σ} {rest : List σ} {deed : Option (Deed ρ)} {deeds : List (Deed ρ)}
      {trace between after : Trace} (first : acts step trace deed between)
      (others : Performs acts rest between deeds after) :
      Performs acts (step :: rest) trace (deed.toList ++ deeds) after

/-- Steps that each can be carried out in every trace can be carried out one after the other. -/
theorem exists_performs {σ ρ : Type} {acts : σ → Trace → Option (Deed ρ) → Trace → Prop}
    {steps : List σ}
    (each : ∀ step ∈ steps, ∀ trace, ∃ deed after, acts step trace deed after) (trace : Trace) :
    ∃ deeds after, Performs acts steps trace deeds after := by
  induction steps generalizing trace with
  | nil => exact ⟨[], trace, .nil⟩
  | cons step rest ih =>
    obtain ⟨here, later⟩ := List.forall_mem_cons.mp each
    obtain ⟨deed, between, first⟩ := here trace
    obtain ⟨deeds, after, others⟩ := ih later between
    exact ⟨deed.toList ++ deeds, after, .cons first others⟩

/-- A text is true unless it is empty. -/
theorem Value.truthy_str (text : String) : (Value.str text).truthy = !text.isEmpty := by
  change decide (0 < text.length) = !text.isEmpty
  cases empty : text.isEmpty with
  | true => rw [String.isEmpty_iff.mp empty]; rfl
  | false =>
    have some : text ≠ "" := fun none => by rw [none] at empty; cases empty
    have long : text.length ≠ 0 := fun none => some (String.length_eq_zero_iff.mp none)
    exact decide_eq_true (Nat.pos_of_ne_zero long)

/-- The callback gives a value for the input, whatever was left behind before. -/
def Callable.AnswersOn (x : Value) (function : Callable) : Prop :=
  ∀ trace, ∃ y after, (function.run x).Returns trace y after

/-- A condition that answers on the value holds or does not, from every trace. -/
theorem exists_conditionHolds {x : Value} {condition : Option Callable}
    (answers : ∀ test, condition = some test → test.AnswersOn x) (trace : Trace) :
    ∃ holds after, (conditionHolds condition x).Returns trace holds after := by
  cases condition with
  | none => exact ⟨true, trace, Traced.returns_pure.mpr ⟨rfl, rfl⟩⟩
  | some test =>
    obtain ⟨y, after, returned⟩ := answers test rfl trace
    exact ⟨y.truthy, after,
      Traced.returns_bind.mpr ⟨y, after, returned, Traced.returns_pure.mpr ⟨rfl, rfl⟩⟩⟩

/-- The path argument of a report leads to these segments; one without truth leads to the input
itself. -/
def Path.LeadsTo (path : Value) (segments : List Value) : Prop :=
  if path.truthy then Path.ofValue path = .ok segments else segments = []

namespace IssueStep

/-- What a step does on an input: a report adds an issue if its condition holds, and nothing
otherwise; a callback gives a result. -/
inductive Acts (x : Value) : IssueStep → Trace → Option (Deed Issue) → Trace → Prop where
  | added {condition : Option Callable} {message path : Value} {segments : List Value}
      {trace after : Trace}
      (holds : (conditionHolds condition x).Returns trace true after)
        (leads : Path.LeadsTo path segments) :
      Acts x (.report condition message path) trace
        (some (.reported (.located message segments))) after
  | passed {condition : Option Callable} {message path : Value} {trace after : Trace}
      (fails : (conditionHolds condition x).Returns trace false after) :
      Acts x (.report condition message path) trace none after
  | answered {function : Callable} {y : Value} {trace after : Trace}
      (returned : (function.run x).Returns trace y after) :
      Acts x (.answer function) trace (some (.answered y)) after

/-- The step cannot raise on the input: its callbacks answer, its message is text and its path well
formed. -/
def Sound (x : Value) : IssueStep → Prop
  | .report condition message path => (∀ test, condition = some test → test.AnswersOn x) ∧
    message.isStr ∧ ∃ segments, Path.LeadsTo path segments
  | .answer function => function.AnswersOn x

/-- A sound step of a check has a deed from every trace. -/
theorem Sound.exists_acts {x : Value} {step : IssueStep} (sound : step.Sound x) (trace : Trace) :
    ∃ deed after, Acts x step trace deed after := by
  cases step with
  | report condition message path =>
    obtain ⟨answers, -, segments, leads⟩ := sound
    obtain ⟨_ | _, after, held⟩ := exists_conditionHolds answers trace
    · exact ⟨none, after, .passed held⟩
    · exact ⟨_, after, .added held leads⟩
  | answer function =>
    obtain ⟨y, after, returned⟩ := sound trace
    exact ⟨_, after, .answered returned⟩

/-- A step adds the issue it reports behind those collected, and gives the result it answers. -/
theorem returns_runFrom_cons {x : Value} {step : IssueStep} {deed : Option (Deed Issue)}
    {trace between : Trace}
    (acts : Acts x step trace deed between) {issues : List Issue} {before : Value}
    {rest : List IssueStep}
    {out : List Issue × Value} {after : Trace}
    (further : (runFrom x (issues ++ Deed.reports deed.toList)
      (Deed.result before deed.toList) rest).Returns
      between out after) : (runFrom x issues before (step :: rest)).Returns trace out after := by
  cases acts with
  | @added condition message path segments _ _ holds leads =>
    have reached : (if path.truthy then Path.ofValue path else .ok []) = .ok segments := by
      unfold Path.LeadsTo at leads
      split at leads
      · rw [if_pos ‹_›, leads]
      · rw [if_neg ‹_›, leads]
    refine Traced.returns_bind.mpr ⟨true, between, holds, ?_⟩
    simp only [if_true, reached]
    exact further
  | passed fails =>
    rw [show issues ++ Deed.reports (none : Option (Deed Issue)).toList =
      issues from List.append_nil issues]
      at further
    exact Traced.returns_bind.mpr ⟨false, between, fails, further⟩
  | answered returned =>
    rw [show issues ++ Deed.reports (Option.some (Deed.answered _)).toList =
      issues from List.append_nil issues]
      at further
    exact Traced.returns_bind.mpr ⟨_, between, returned, further⟩

/-- Running the steps collects what they report behind what was collected before, and gives the last
result. -/
theorem returns_runFrom {x : Value} {steps : List IssueStep} {trace after : Trace}
    {deeds : List (Deed Issue)}
    (performs : Performs (Acts x) steps trace deeds after) (issues : List Issue) (before : Value) :
    (runFrom x issues before steps).Returns trace (issues ++ Deed.reports deeds,
      Deed.result before deeds) after := by
  induction performs generalizing issues before with
  | nil =>
    exact Traced.returns_pure.mpr
      ⟨by rw [show Deed.reports [] = [] from rfl, List.append_nil]; rfl, rfl⟩
  | cons first _ ih =>
    rw [Deed.reports_append, Deed.result_append, ← List.append_assoc]
    exact returns_runFrom_cons first (ih _ _)

end IssueStep

namespace FailStep

/-- What a step does on an input: a failure is reported if its condition holds; a callback gives a
result. -/
inductive Acts (x : Value) : FailStep → Trace → Option (Deed String) → Trace → Prop where
  | failed {condition : Option Callable} {message : String} {trace after : Trace}
      (holds : (conditionHolds condition x).Returns trace true after) :
      Acts x (.fail condition (.str message)) trace (some (.reported message)) after
  | passed {condition : Option Callable} {message : Value} {trace after : Trace}
      (fails : (conditionHolds condition x).Returns trace false after) :
      Acts x (.fail condition message) trace none after
  | answered {function : Callable} {y : Value} {trace after : Trace}
      (returned : (function.run x).Returns trace y after) :
      Acts x (.answer function) trace (some (.answered y)) after

/-- The step cannot raise on the input: its callbacks answer, and its message is text. -/
def Sound (x : Value) : FailStep → Prop
  | .fail condition message => (∀ test, condition = some test → test.AnswersOn x) ∧ message.isStr
  | .answer function => function.AnswersOn x

theorem Sound.exists_acts {x : Value} {step : FailStep} (sound : step.Sound x) (trace : Trace) :
    ∃ deed after, Acts x step trace deed after := by
  cases step with
  | fail condition message =>
    obtain ⟨answers, worded⟩ := sound
    obtain ⟨_ | _, after, held⟩ := exists_conditionHolds answers trace
    · exact ⟨none, after, .passed held⟩
    · cases message <;> first | exact ⟨_, after, .failed held⟩ | cases worded
  | answer function =>
    obtain ⟨y, after, returned⟩ := sound trace
    exact ⟨_, after, .answered returned⟩

/-- The message in force: the one reported last, or the one there was before. -/
def message? (before : Option Value) (deeds : List (Deed String)) : Option Value :=
  ((Deed.reports deeds).getLast?.map .str).or before

theorem message?_append (before : Option Value) (first second : List (Deed String)) :
    message? before (first ++ second) = message? (message? before first) second := by
  unfold message?
  rw [Deed.reports_append, List.getLast?_append]
  cases (Deed.reports second).getLast? <;> rfl

/-- A step puts the message it reports in the place of the one before, and gives the result it
answers. -/
theorem returns_runFrom_cons {x : Value} {step : FailStep} {deed : Option (Deed String)}
    {trace between : Trace}
    (acts : Acts x step trace deed between) {message : Option Value} {before : Value}
    {rest : List FailStep}
    {out : Option Value × Value} {after : Trace}
    (further : (runFrom x (message? message deed.toList)
      (Deed.result before deed.toList) rest).Returns
      between out after) : (runFrom x message before (step :: rest)).Returns trace out after := by
  cases acts with
  | failed holds => exact Traced.returns_bind.mpr ⟨true, between, holds, further⟩
  | passed fails => exact Traced.returns_bind.mpr ⟨false, between, fails, further⟩
  | answered returned => exact Traced.returns_bind.mpr ⟨_, between, returned, further⟩

/-- Running the steps keeps the message reported last, and gives the last result. -/
theorem returns_runFrom {x : Value} {steps : List FailStep} {trace after : Trace}
    {deeds : List (Deed String)}
    (performs : Performs (Acts x) steps trace deeds after) (message : Option Value)
    (before : Value) :
    (runFrom x message before steps).Returns trace (message? message deeds,
      Deed.result before deeds) after := by
  induction performs generalizing message before with
  | nil => exact Traced.returns_pure.mpr ⟨rfl, rfl⟩
  | cons first _ ih =>
    rw [message?_append, Deed.result_append]
    exact returns_runFrom_cons first (ih _ _)

end FailStep

namespace Checked

/-- The computation fails with these issues, under the message of the first one, if there are any,
and otherwise gives the value; in both cases it leaves the world `after`. -/
structure FailsWith (computation : Checked Value) (world : World) (issues : List Issue) (y : Value)
    (after : World) : Prop where
  reports : ∀ failure ended, computation.Reports world failure ended ↔
    failure.issues = issues ∧ failure.line = failure.first.message ∧ after = ended
  returns : ∀ z ended, computation.Returns world z ended ↔ issues = [] ∧ y = z ∧ after = ended

/-- A check fails exactly with the issues that it gathered. -/
theorem failsWith_unlessIssues (issues : List Issue) (y : Value) (world : World) :
    FailsWith (SafeForm.unlessIssues issues y) world issues y world := by
  cases issues with
  | nil =>
    refine ⟨fun failure ended => ⟨fun reported => absurd reported reports_pure, ?_⟩,
      fun z ended => ?_⟩
    · rintro ⟨none, -, -⟩
      cases none
    · exact returns_pure.trans ⟨fun same => ⟨rfl, same⟩, fun same => same.2⟩
  | cons first others =>
    refine ⟨fun failure ended => reports_reject.trans ⟨?_, ?_⟩, fun z ended => ?_⟩
    · rintro ⟨rfl, rfl⟩
      exact ⟨rfl, rfl, rfl⟩
    · rintro ⟨collected, line, rfl⟩
      obtain ⟨said, initial, further⟩ := failure
      cases collected
      exact ⟨congrArg (Failure.mk · initial further) line.symm, rfl⟩
    · exact ⟨fun returned => absurd returned returns_reject, fun none =>
        absurd none.1 (List.cons_ne_nil _ _)⟩

/-- A computation fails with the same issues whichever way this is said. -/
theorem FailsWith.issues_eq {computation : Checked Value} {world : World}
    {first second : List Issue}
    {y z : Value} {after ended : World} (one : FailsWith computation world first y after)
    (other : FailsWith computation world second z ended) : first = second := by
  cases first with
  | nil => exact ((other.returns y after).mp ((one.returns y after).mpr ⟨rfl, rfl, rfl⟩)).1.symm
  | cons issue issues =>
    have reported : computation.Reports world ⟨issue.message, issue, issues⟩ after :=
      (one.reports _ after).mpr ⟨rfl, rfl, rfl⟩
    exact ((other.reports _ after).mp reported).1

/-- What follows a callback that returns decides how both together end. -/
theorem FailsWith.of_guarded {α : Type} {default : Value} {run : Traced α}
    {next : α → Checked Value} {given : α}
    {world : World} {trace : Trace} {issues : List Issue} {y : Value} {after : World}
    (returned : run.Returns world.trace given trace)
    (fails : FailsWith (next given) (world.traced trace) issues y after) :
    FailsWith (guarded default run >>= next) world issues y after := by
  have same : (guarded default run >>= next).ending world =
      (next given).ending (world.traced trace) := by
    have first : (guarded default run).ending world = (.ok (.ok given), world.traced trace) :=
      returns_guarded.mpr ⟨trace, returned, rfl⟩
    rw [ending_bind, first]
  constructor
  · intro failure ended
    rw [Reports, same]
    exact fails.reports failure ended
  · intro z ended
    rw [Returns, same]
    exact fails.returns z ended

end Checked

namespace Validator

open Checked

variable {x : Value} {world : World} {trace : Trace}

theorem failsWith_rawCheck {checks : List IssueStep} {deeds : List (Deed Issue)}
    (performs : Performs (IssueStep.Acts x) checks world.trace deeds trace) :
    FailsWith ((rawCheck checks).safe x) world (Deed.reports deeds) x (world.traced trace) := by
  rw [safe_of_rule fun _ => rfl]
  exact .of_guarded (IssueStep.returns_runFrom performs [] x) (failsWith_unlessIssues _ x _)

theorem failsWith_rawConvert {checks : List IssueStep} {deeds : List (Deed Issue)}
    (performs : Performs (IssueStep.Acts x) checks world.trace deeds trace) :
    FailsWith ((rawConvert checks).safe x) world (Deed.reports deeds) (Deed.result x deeds)
      (world.traced trace) := by
  rw [safe_of_rule fun _ => rfl]
  exact .of_guarded (IssueStep.returns_runFrom performs [] x) (failsWith_unlessIssues _ _ _)

/-- The issue that the failure reported last stands for. -/
def lastFailure (deeds : List (Deed String)) : List Issue :=
  (Deed.reports deeds).getLast?.toList.map fun message => .bare (.str message)

/-- The issue of the failure reported last, unless its message is empty. -/
def heededFailure (deeds : List (Deed String)) : List Issue :=
  ((Deed.reports deeds).getLast?.filter fun message => !message.isEmpty).toList.map fun message =>
    .bare (.str message)

/-- The failure that is heeded is the last one, unless that one says nothing. -/
theorem heededFailure_eq_lastFailure_iff (deeds : List (Deed String)) :
    heededFailure deeds = lastFailure deeds ↔ (Deed.reports deeds).getLast? ≠ some "" := by
  unfold heededFailure lastFailure
  cases (Deed.reports deeds).getLast? with
  | none => simp
  | some message =>
    cases empty : message.isEmpty with
    | true => simp [Option.filter, String.isEmpty_iff.mp empty]
    | false =>
      have worded : message ≠ "" := fun none => by rw [none] at empty; cases empty
      simp [Option.filter, empty, worded]

/-- A conversion by attempts fails with the failure that is heeded. -/
theorem failsWith_tryConvert {attempts : List FailStep} {deeds : List (Deed String)}
    (performs : Performs (FailStep.Acts x) attempts world.trace deeds trace) :
    FailsWith ((tryConvert attempts).safe x) world (heededFailure deeds) (Deed.result x deeds)
      (world.traced trace) := by
  rw [safe_of_rule fun _ => rfl]
  refine .of_guarded (FailStep.returns_runFrom performs none x) ?_
  have decided :=
    failsWith_unlessIssues (heededFailure deeds) (Deed.result x deeds) (world.traced trace)
  unfold FailStep.message?
  cases last : (Deed.reports deeds).getLast? with
  | none =>
    have nothing : heededFailure deeds = [] := by rw [heededFailure, last]; rfl
    rw [nothing] at decided ⊢
    exact decided
  | some message =>
    have truthy := Value.truthy_str message
    cases empty : message.isEmpty with
    | true =>
      have nothing : heededFailure deeds = [] := by simp [heededFailure, last, Option.filter, empty]
      rw [nothing] at decided ⊢
      simp only [Option.map_some, Option.some_or, truthy, empty]
      exact decided
    | false =>
      have failed : heededFailure deeds = [.bare (.str message)] := by
        simp [heededFailure, last, Option.filter, empty]
      rw [failed] at decided ⊢
      simp only [Option.map_some, Option.some_or, truthy, empty]
      exact decided

/-- However the steps of a context program are ordered, and whatever they report and give on the
way: a check or a conversion that collects issues fails with all of them, in order, under the
message of the first one, and gives its input or the last result where there are none. A conversion
that keeps a failure fails with the last one, and this is so exactly when no failure or one with a
message was reported last; an empty one is taken for none. -/
theorem reports_decide (checks : List IssueStep) (attempts : List FailStep) (x : Value)
    (world : World)
    (checking : ∀ step ∈ checks, step.Sound x) (attempting : ∀ step ∈ attempts, step.Sound x) :
    (∃ deeds trace, Performs (IssueStep.Acts x) checks world.trace deeds trace ∧
      FailsWith ((rawCheck checks).safe x) world (Deed.reports deeds) x (world.traced trace) ∧
      FailsWith ((rawConvert checks).safe x) world (Deed.reports deeds) (Deed.result x deeds)
        (world.traced trace)) ∧
    ∃ deeds trace, Performs (FailStep.Acts x) attempts world.trace deeds trace ∧
      FailsWith ((tryConvert attempts).safe x) world (heededFailure deeds) (Deed.result x deeds)
        (world.traced trace) ∧
      (FailsWith ((tryConvert attempts).safe x) world (lastFailure deeds) (Deed.result x deeds)
        (world.traced trace) ↔ (Deed.reports deeds).getLast? ≠ some "") := by
  obtain ⟨issued, noted, performs⟩ :=
    exists_performs (fun step inside => (checking step inside).exists_acts) world.trace
  obtain ⟨failed, kept, tries⟩ :=
    exists_performs (fun step inside => (attempting step inside).exists_acts) world.trace
  have ends : FailsWith ((tryConvert attempts).safe x) world (heededFailure failed)
    (Deed.result x failed)
      (world.traced kept) := failsWith_tryConvert tries
  refine ⟨⟨issued, noted, performs, failsWith_rawCheck performs, failsWith_rawConvert performs⟩,
    failed, kept, tries, ends, ?_⟩
  rw [← heededFailure_eq_lastFailure_iff]
  exact ⟨fun claimed => ends.issues_eq claimed, fun same => same ▸ ends⟩

def contented : Callable := ⟨"contented", fun _ => pure (.bool true)⟩

def twoIssues : List IssueStep :=
  [.report (some contented) (.str "first") (.list [.str "a", .int 0]), .answer contented,
    .report none (.str "") .null]

def twoFailures : List FailStep :=
  [.fail none (.str ""), .answer contented, .fail (some contented) (.str "second")]

private theorem contented_answersOn (x : Value) : contented.AnswersOn x := fun trace =>
    ⟨_, trace, rfl⟩

private theorem twoIssues_sound : ∀ step ∈ twoIssues, step.Sound .null := by
  intro step inside
  simp only [twoIssues, List.mem_cons, List.not_mem_nil, or_false] at inside
  rcases inside with rfl | rfl | rfl
  · exact ⟨fun _ same => Option.some.inj same ▸ contented_answersOn _, rfl, [.str "a", .int 0], rfl⟩
  · exact contented_answersOn _
  · exact ⟨fun _ none => (Option.some_ne_none _ none.symm).elim, rfl, [], rfl⟩

private theorem twoFailures_sound : ∀ step ∈ twoFailures, step.Sound .null := by
  intro step inside
  simp only [twoFailures, List.mem_cons, List.not_mem_nil, or_false] at inside
  rcases inside with rfl | rfl | rfl
  · exact ⟨fun _ none => (Option.some_ne_none _ none.symm).elim, rfl⟩
  · exact contented_answersOn _
  · exact ⟨fun _ same => Option.some.inj same ▸ contented_answersOn _, rfl⟩

/-- Both issues are reported, the one with an empty message too, and of the failures the last
one. -/
theorem two_reports_decide :
    (∀ step ∈ twoIssues, step.Sound .null) ∧ (∀ step ∈ twoFailures, step.Sound .null) ∧
    (∃ deeds trace, Performs (IssueStep.Acts .null) twoIssues (World.initial "").trace deeds trace ∧
      FailsWith ((rawCheck twoIssues).safe .null) (World.initial "") (Deed.reports deeds) .null
        ((World.initial "").traced trace) ∧
      Deed.reports deeds = [.located (.str "first") [.str "a", .int 0], .located (.str "") []]) ∧
    ∃ deeds trace, Performs (FailStep.Acts .null) twoFailures (World.initial "").trace deeds trace ∧
      FailsWith ((tryConvert twoFailures).safe .null) (World.initial "") (lastFailure deeds)
        (Deed.result .null deeds) ((World.initial "").traced trace) ∧
      lastFailure deeds = [.bare (.str "second")] := by
  obtain ⟨⟨issued, noted, performs, checks, -⟩, failed, kept, tries, attempts, decided⟩ :=
    reports_decide twoIssues twoFailures .null (World.initial "") twoIssues_sound twoFailures_sound
  refine ⟨twoIssues_sound, twoFailures_sound, ⟨issued, noted, performs, checks, ?_⟩, failed,
    kept, tries, ?_⟩
  · have reported : ((rawCheck twoIssues).safe .null).Reports (World.initial "")
        ⟨.str "first", .located (.str "first") [.str "a", .int 0], [.located (.str "") []]⟩
          (World.initial "") :=
      rfl
    exact ((checks.reports _ _).mp reported).1.symm
  · have reported : ((tryConvert twoFailures).safe .null).Reports (World.initial "")
        ⟨.str "second", .bare (.str "second"), []⟩ (World.initial "") := rfl
    have second : heededFailure failed = [.bare (.str "second")] :=
      ((attempts.reports _ _).mp reported).1.symm
    have worded : (Deed.reports failed).getLast? ≠ some "" := by
      intro empty
      rw [heededFailure, empty] at second
      cases second
    exact ⟨decided.mpr worded,
      ((heededFailure_eq_lastFailure_iff failed).mpr worded).symm.trans second⟩

/-- A failure with an empty message, the only one reported, is not heeded: the input is
converted. -/
theorem empty_failure_unheeded :
    (∀ step ∈ [FailStep.fail none (.str "")], step.Sound (.int 1)) ∧
    Performs (FailStep.Acts (.int 1)) [.fail none (.str "")] (World.initial "").trace [.reported ""]
      (World.initial "").trace ∧
    ((tryConvert [.fail none (.str "")]).safe (.int 1)).Returns (World.initial "") (.int 1)
      (World.initial "") ∧
    ¬ FailsWith ((tryConvert [.fail none (.str "")]).safe (.int 1)) (World.initial "")
      (lastFailure [.reported ""])
      (.int 1) (World.initial "") := by
  have returned : ((tryConvert [.fail none (.str "")]).safe (.int 1)).Returns
    (World.initial "") (.int 1)
      (World.initial "") := rfl
  have called : FailStep.Acts (.int 1) (.fail none (.str "")) (World.initial "").trace
    (some (.reported ""))
      (World.initial "").trace := .failed rfl
  refine ⟨?_, .cons called .nil, returned, fun claimed => ?_⟩
  · intro step inside
    rw [List.mem_singleton.mp inside]
    exact ⟨fun _ none => (Option.some_ne_none _ none.symm).elim, rfl⟩
  · exact List.cons_ne_nil _ _ ((claimed.returns _ _).mp returned).1

end Validator

end Conform
