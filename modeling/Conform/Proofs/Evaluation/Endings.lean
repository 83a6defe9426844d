import Conform.Validation.Interpreter

/-!
How computations end. An evaluation returns a value or ends in a fault; a computation that may
report a failure has three endings: it returns, it reports, or it faults. Each ending is a relation
between the world before and the world after, and every combinator has one equation for each of its
endings, so that a computation is taken apart by rewriting.
-/
namespace Conform

variable {α β : Type}

/-- The world with another trace. -/
def World.traced (world : World) (trace : Trace) : World := { world with trace := trace }

namespace Value

variable {shown : List Value} {made : α}

@[simp] theorem showing_eq_ok {out : α} :
    showing shown made = .ok out ↔ areWritable shown ∧ made = out := by
  unfold showing
  split <;> simp_all

end Value

namespace Failure

variable {failure worded : Failure} {place : Place}

@[simp] theorem placed?_eq_some :
    failure.placed? place = some worded ↔
      Value.areWritable (failure.line :: place.shown) ∧
        failure.within place.segment place.label = worded := by
  unfold placed?
  split <;> simp_all

@[simp] theorem placed?_eq_none :
    failure.placed? place = none ↔ Value.areWritable (failure.line :: place.shown) = false := by
  unfold placed?
  split <;> simp_all

/-- Everything that the failure says can be written. -/
def Legible (failure : Failure) : Prop :=
  Value.areWritable (failure.line :: failure.issues.map (·.message))

/-- The line and the messages of the issues are text. -/
structure Worded (failure : Failure) : Prop where
  line : failure.line.isStr
  messages : ∀ issue ∈ failure.issues, issue.message.isStr

/-- What is said in texts can be written. -/
theorem Worded.legible (worded : failure.Worded) : failure.Legible := by
  refine Value.areWritable_iff.mpr (List.forall_mem_cons.mpr
    ⟨Value.isWritable_of_isStr worded.line, List.forall_mem_map.mpr ?_⟩)
  exact fun issue inside => Value.isWritable_of_isStr (worded.messages issue inside)

theorem legible_plain (message : String) : (plain message).Legible := rfl

theorem legible_expecting (message expected : String) : (expecting message expected).Legible := rfl

theorem Legible.below (legible : failure.Legible) (path : List Value) :
    (failure.mapIssues (·.below path)).Legible := by
  simpa [Legible, mapIssues, issues, Issue.below, Function.comp_def] using legible

/-- A failure that can be written can be reported from a place that can be written, and stays so. -/
theorem Legible.placed (legible : failure.Legible) (shown : Value.areWritable place.shown) :
    ∃ worded, failure.placed? place = some worded ∧ worded.Legible := by
  have said := Value.areWritable_iff.mp legible
  have messages := (List.forall_mem_cons.mp said).2
  refine ⟨_, placed?_eq_some.mpr ⟨?_, rfl⟩, ?_⟩
  · exact Value.areWritable_iff.mpr (List.forall_mem_cons.mpr
      ⟨said _ List.mem_cons_self, Value.areWritable_iff.mp shown⟩)
  · refine Value.areWritable_iff.mpr (List.forall_mem_cons.mpr ⟨rfl, ?_⟩)
    simpa [Failure.within, mapIssues, issues, Issue.below] using messages

end Failure

namespace SafeForm

theorem legible_notObject : notObject.Legible := Failure.legible_expecting _ _

variable {key : Value} {failure worded : Failure}

@[simp] theorem invalidKey?_eq_some :
    invalidKey? key failure = some worded ↔ failure.Legible ∧ invalidKey key failure = worded := by
  unfold invalidKey? Failure.Legible
  split <;> simp_all

@[simp] theorem invalidKey?_eq_none : invalidKey? key failure = none ↔ ¬failure.Legible := by
  unfold invalidKey? Failure.Legible
  split <;> simp_all

theorem legible_invalidKey (key : Value) (failure : Failure) :
    (invalidKey key failure).Legible := by
  refine Value.areWritable_iff.mpr (List.forall_mem_cons.mpr ⟨rfl, ?_⟩)
  simp [invalidKey, Failure.mapIssues, Failure.issues, Value.isWritable]

theorem exists_invalidKey? (key : Value) (failure : Failure) (legible : failure.Legible) :
    ∃ worded, invalidKey? key failure = some worded ∧ worded.Legible :=
  ⟨_, invalidKey?_eq_some.mpr ⟨legible, rfl⟩, legible_invalidKey key failure⟩

end SafeForm

namespace Traced

/-- The value or the fault that the run of a callback ends in, and the trace that it leaves. -/
def ending (run : Traced α) (trace : Trace) : Except Fault α × Trace := run trace

/-- The callback returns a value and leaves a trace. -/
def Returns (run : Traced α) (trace : Trace) (value : α) (after : Trace) : Prop :=
  run.ending trace = (.ok value, after)

/-- The callback ends in a fault and leaves a trace. -/
def Faults (run : Traced α) (trace : Trace) (fault : Fault) (after : Trace) : Prop :=
  run.ending trace = (.error fault, after)

theorem ending_bind (run : Traced α) (next : α → Traced β) (trace : Trace) :
    (run >>= next).ending trace = match run.ending trace with
      | (.ok value, after) => (next value).ending after
      | (.error fault, after) => (.error fault, after) := by
  simp only [ending, bind, ExceptT.bind, ExceptT.mk, StateT.bind, ExceptT.bindCont]
  rcases run trace with ⟨_ | _, after⟩ <;> rfl

variable {run : Traced α} {next : α → Traced β} {trace after : Trace} {fault : Fault}

@[simp] theorem returns_pure {value given : α} :
    (pure given : Traced α).Returns trace value after ↔ given = value ∧ trace = after := by
  change ((.ok given, trace) : Except Fault α × Trace) = (.ok value, after) ↔ _
  simp

@[simp] theorem faults_pure {given : α} : ¬(pure given : Traced α).Faults trace fault after := by
  intro faulted
  cases faulted

@[simp] theorem returns_bind {value : β} :
    (run >>= next).Returns trace value after ↔
      ∃ first between, run.Returns trace first between ∧
        (next first).Returns between value after := by
  simp only [Returns, ending_bind]
  rcases run.ending trace with ⟨_ | _, between⟩ <;> simp [and_assoc]

@[simp] theorem faults_bind :
    (run >>= next).Faults trace fault after ↔
      run.Faults trace fault after ∨
        ∃ first between, run.Returns trace first between ∧
          (next first).Faults between fault after := by
  simp only [Faults, Returns, ending_bind]
  rcases run.ending trace with ⟨_ | _, between⟩ <;> simp [and_assoc]

@[simp] theorem returns_misuse {cause : Misuse} {value : α} :
    ¬(misuse cause : Traced α).Returns trace value after := by
  intro returned
  cases returned

@[simp] theorem faults_misuse {cause : Misuse} :
    (misuse cause : Traced α).Faults trace fault after ↔ .misuse cause = fault ∧ trace = after := by
  change ((.error (.misuse cause), trace) : Except Fault α × Trace) = (.error fault, after) ↔ _
  simp

end Traced

namespace Eval

/-- The value or the fault that an evaluation ends in, and the world that it leaves. -/
def ending (evaluation : Eval α) (world : World) : Except Fault α × World := evaluation world

/-- The evaluation returns a value and leaves a world. -/
def Returns (evaluation : Eval α) (world : World) (value : α) (after : World) : Prop :=
  evaluation.ending world = (.ok value, after)

/-- The evaluation ends in a fault and leaves a world. -/
def Faults (evaluation : Eval α) (world : World) (fault : Fault) (after : World) : Prop :=
  evaluation.ending world = (.error fault, after)

theorem ending_bind (evaluation : Eval α) (next : α → Eval β) (world : World) :
    (evaluation >>= next).ending world = match evaluation.ending world with
      | (.ok value, after) => (next value).ending after
      | (.error fault, after) => (.error fault, after) := by
  simp only [ending, bind, ExceptT.bind, ExceptT.mk, StateT.bind, ExceptT.bindCont]
  rcases evaluation world with ⟨_ | _, after⟩ <;> rfl

/-- What follows a look at the world starts in it. -/
theorem ending_get_bind (next : World → Eval β) (world : World) :
    (get >>= next).ending world = (next world).ending world := rfl

/-- A callback changes nothing of the world but the trace. -/
theorem ending_perform (run : Traced α) (world : World) :
    (perform run).ending world =
      ((run.ending world.trace).1, world.traced (run.ending world.trace).2) := rfl

variable {evaluation : Eval α} {next : α → Eval β} {world after : World} {fault : Fault}

@[simp] theorem returns_pure {value given : α} :
    (pure given : Eval α).Returns world value after ↔ given = value ∧ world = after := by
  change ((.ok given, world) : Except Fault α × World) = (.ok value, after) ↔ _
  simp

@[simp] theorem faults_pure {given : α} : ¬(pure given : Eval α).Faults world fault after := by
  intro faulted
  cases faulted

@[simp] theorem returns_bind {value : β} :
    (evaluation >>= next).Returns world value after ↔
      ∃ first between, evaluation.Returns world first between ∧
        (next first).Returns between value after := by
  simp only [Returns, ending_bind]
  rcases evaluation.ending world with ⟨_ | _, between⟩ <;> simp [and_assoc]

@[simp] theorem faults_bind :
    (evaluation >>= next).Faults world fault after ↔
      evaluation.Faults world fault after ∨
        ∃ first between, evaluation.Returns world first between ∧
          (next first).Faults between fault after := by
  simp only [Faults, Returns, ending_bind]
  rcases evaluation.ending world with ⟨_ | _, between⟩ <;> simp [and_assoc]

@[simp] theorem returns_raise {raised : Fault} {value : α} :
    ¬(raise raised : Eval α).Returns world value after := by
  intro returned
  cases returned

@[simp] theorem faults_raise {raised : Fault} :
    (raise raised : Eval α).Faults world fault after ↔ raised = fault ∧ world = after := by
  change ((.error raised, world) : Except Fault α × World) = (.error fault, after) ↔ _
  simp

@[simp] theorem returns_misuse {cause : Misuse} {value : α} :
    ¬(misuse cause : Eval α).Returns world value after := returns_raise

@[simp] theorem faults_misuse {cause : Misuse} :
    (misuse cause : Eval α).Faults world fault after ↔ .misuse cause = fault ∧ world = after :=
  faults_raise

@[simp] theorem returns_get {value : World} :
    (get : Eval World).Returns world value after ↔ world = value ∧ world = after := by
  change ((.ok world, world) : Except Fault World × World) = (.ok value, after) ↔ _
  simp

@[simp] theorem faults_get : ¬(get : Eval World).Faults world fault after := by
  intro faulted
  cases faulted

@[simp] theorem returns_perform {run : Traced α} {value : α} :
    (perform run).Returns world value after ↔
      ∃ trace, run.Returns world.trace value trace ∧ world.traced trace = after := by
  simp only [Returns, Traced.Returns, ending_perform]
  rcases run.ending world.trace with ⟨result, trace⟩
  constructor
  · rintro ⟨⟩
    exact ⟨trace, rfl, rfl⟩
  · rintro ⟨_, ⟨⟩, rfl⟩
    rfl

@[simp] theorem faults_perform {run : Traced α} :
    (perform run).Faults world fault after ↔
      ∃ trace, run.Faults world.trace fault trace ∧ world.traced trace = after := by
  simp only [Faults, Traced.Faults, ending_perform]
  rcases run.ending world.trace with ⟨result, trace⟩
  constructor
  · rintro ⟨⟩
    exact ⟨trace, rfl, rfl⟩
  · rintro ⟨_, ⟨⟩, rfl⟩
    rfl

@[simp] theorem returns_ofConstruction {made : Except Misuse α} {value : α} :
    (ofConstruction made).Returns world value after ↔ made = .ok value ∧ world = after := by
  cases made <;> simp [ofConstruction]

/-- Every evaluation ends in one way. -/
theorem ends (evaluation : Eval α) (world : World) :
    (∃ value after, evaluation.Returns world value after) ∨
      ∃ fault after, evaluation.Faults world fault after := by
  unfold Returns Faults
  rcases evaluation.ending world with ⟨fault | value, after⟩
  · exact .inr ⟨fault, after, rfl⟩
  · exact .inl ⟨value, after, rfl⟩

end Eval

namespace Checked

/-- The value, the failure or the fault that a computation ends in, and the world that it leaves. -/
def ending (computation : Checked α) (world : World) : Except Fault (Except Failure α) × World :=
  computation world

/-- The computation returns a value and leaves a world. -/
def Returns (computation : Checked α) (world : World) (value : α) (after : World) : Prop :=
  computation.ending world = (.ok (.ok value), after)

/-- The computation reports a failure and leaves a world. -/
def Reports (computation : Checked α) (world : World) (failure : Failure) (after : World) : Prop :=
  computation.ending world = (.ok (.error failure), after)

/-- The computation ends in a fault and leaves a world. -/
def Faults (computation : Checked α) (world : World) (fault : Fault) (after : World) : Prop :=
  computation.ending world = (.error fault, after)

theorem ending_bind (computation : Checked α) (next : α → Checked β) (world : World) :
    (computation >>= next).ending world = match computation.ending world with
      | (.ok (.ok value), after) => (next value).ending after
      | (.ok (.error failure), after) => (.ok (.error failure), after)
      | (.error fault, after) => (.error fault, after) := by
  simp only [ending, bind, ExceptT.bind, ExceptT.mk, StateT.bind, ExceptT.bindCont]
  rcases computation world with ⟨_ | _ | _, after⟩ <;> rfl

theorem ending_attempt (computation : Checked α) (world : World) :
    (attempt computation).ending world = match computation.ending world with
      | (.ok result, after) => (.ok (.ok result), after)
      | (.error fault, after) => (.error fault, after) := by
  simp only [ending, attempt, ExceptT.lift, ExceptT.mk, ExceptT.run, Functor.map, ExceptT.map]
  simp only [bind, StateT.bind]
  rcases computation world with ⟨_ | _ | _, after⟩ <;> rfl

theorem ending_report (worded : Option Failure) (world : World) :
    (report worded : Checked α).ending world = match worded with
      | some failure => (.ok (.error failure), world)
      | none => (.error (.misuse .unwritableInteger), world) := by
  cases worded <;> rfl

theorem ending_reword (wording : Failure → Option Failure) (computation : Checked α)
    (world : World) :
    (reword wording computation).ending world = match computation.ending world with
      | (.ok (.ok value), after) => (.ok (.ok value), after)
      | (.ok (.error failure), after) => ending (report (wording failure)) after
      | (.error fault, after) => (.error fault, after) := by
  simp only [reword, ending_bind, ending_attempt]
  rcases computation.ending world with ⟨_ | _ | _, after⟩ <;> rfl

theorem ending_lift (evaluation : Eval α) (world : World) :
    ending (ExceptT.lift evaluation) world = match evaluation.ending world with
      | (.ok value, after) => (.ok (.ok value), after)
      | (.error fault, after) => (.error fault, after) := by
  simp only [ending, Eval.ending, ExceptT.lift, ExceptT.mk, Functor.map, ExceptT.map]
  simp only [bind, StateT.bind]
  rcases evaluation world with ⟨_ | _, after⟩ <;> rfl

/-- A guarded callback ends as its run does, with a caught fault as a failure. -/
theorem ending_guarded (default : Value) (run : Traced α) (world : World) :
    (guarded default run).ending world = match run.ending world.trace with
      | (.ok value, trace) => (.ok (.ok value), world.traced trace)
      | (.error fault, trace) => match fault.caught? default with
        | some failure => (.ok (.error failure), world.traced trace)
        | none => (.error fault.passed, world.traced trace) := by
  have performed : (perform (Traced.attempt run)).ending world =
      (.ok (.ok (run.ending world.trace).1), world.traced (run.ending world.trace).2) := rfl
  simp only [guarded, ending_bind, performed]
  rcases run.ending world.trace with ⟨fault | value, trace⟩
  · cases caught : fault.caught? default <;> simp only [caught] <;> rfl
  · rfl

variable {computation : Checked α} {next : α → Checked β} {world after : World} {fault : Fault}
  {failure : Failure}

@[simp] theorem returns_pure {value given : α} :
    (pure given : Checked α).Returns world value after ↔ given = value ∧ world = after := by
  change ((.ok (.ok given), world) : Except Fault (Except Failure α) × World) =
    (.ok (.ok value), after) ↔ _
  simp

@[simp] theorem reports_pure {given : α} :
    ¬(pure given : Checked α).Reports world failure after := by
  intro reported
  cases reported

@[simp] theorem faults_pure {given : α} :
    ¬(pure given : Checked α).Faults world fault after := by
  intro faulted
  cases faulted

@[simp] theorem returns_reject {given : Failure} {value : α} :
    ¬(reject given : Checked α).Returns world value after := by
  intro returned
  cases returned

@[simp] theorem reports_reject {given : Failure} :
    (reject given : Checked α).Reports world failure after ↔ given = failure ∧ world = after := by
  change ((.ok (.error given), world) : Except Fault (Except Failure α) × World) =
    (.ok (.error failure), after) ↔ _
  simp

@[simp] theorem faults_reject {given : Failure} :
    ¬(reject given : Checked α).Faults world fault after := by
  intro faulted
  cases faulted

@[simp] theorem returns_bind {value : β} :
    (computation >>= next).Returns world value after ↔
      ∃ first between, computation.Returns world first between ∧
        (next first).Returns between value after := by
  simp only [Returns, ending_bind]
  rcases computation.ending world with ⟨_ | _ | _, between⟩ <;> simp [and_assoc]

@[simp] theorem reports_bind :
    (computation >>= next).Reports world failure after ↔
      computation.Reports world failure after ∨
        ∃ first between, computation.Returns world first between ∧
          (next first).Reports between failure after := by
  simp only [Returns, Reports, ending_bind]
  rcases computation.ending world with ⟨_ | _ | _, between⟩ <;> simp [and_assoc]

@[simp] theorem faults_bind :
    (computation >>= next).Faults world fault after ↔
      computation.Faults world fault after ∨
        ∃ first between, computation.Returns world first between ∧
          (next first).Faults between fault after := by
  simp only [Returns, Faults, ending_bind]
  rcases computation.ending world with ⟨_ | _ | _, between⟩ <;> simp [and_assoc]

/-- What follows an attempt goes on from what the computation returned or reported. -/
@[simp] theorem returns_attempt_bind {next : Except Failure α → Checked β} {value : β} :
    (attempt computation >>= next).Returns world value after ↔
      (∃ first between, computation.Returns world first between ∧
        (next (.ok first)).Returns between value after) ∨
      ∃ refused between, computation.Reports world refused between ∧
        (next (.error refused)).Returns between value after := by
  simp only [Returns, Reports, ending_bind, ending_attempt]
  rcases computation.ending world with ⟨_ | _ | _, between⟩ <;> simp [and_assoc]

@[simp] theorem reports_attempt_bind {next : Except Failure α → Checked β} :
    (attempt computation >>= next).Reports world failure after ↔
      (∃ first between, computation.Returns world first between ∧
        (next (.ok first)).Reports between failure after) ∨
      ∃ refused between, computation.Reports world refused between ∧
        (next (.error refused)).Reports between failure after := by
  simp only [Returns, Reports, ending_bind, ending_attempt]
  rcases computation.ending world with ⟨_ | _ | _, between⟩ <;> simp [and_assoc]

@[simp] theorem faults_attempt_bind {next : Except Failure α → Checked β} :
    (attempt computation >>= next).Faults world fault after ↔
      computation.Faults world fault after ∨
      (∃ first between, computation.Returns world first between ∧
        (next (.ok first)).Faults between fault after) ∨
      ∃ refused between, computation.Reports world refused between ∧
        (next (.error refused)).Faults between fault after := by
  simp only [Returns, Reports, Faults, ending_bind, ending_attempt]
  rcases computation.ending world with ⟨_ | _ | _, between⟩ <;> simp [and_assoc]

@[simp] theorem returns_lift {evaluation : Eval α} {value : α} :
    Returns (ExceptT.lift evaluation) world value after ↔
      evaluation.Returns world value after := by
  simp only [Returns, Eval.Returns, ending_lift]
  rcases evaluation.ending world with ⟨_ | _, between⟩ <;> simp

@[simp] theorem reports_lift {evaluation : Eval α} :
    ¬Reports (α := α) (ExceptT.lift evaluation) world failure after := by
  simp only [Reports, ending_lift]
  rcases evaluation.ending world with ⟨_ | _, between⟩ <;> simp

@[simp] theorem faults_lift {evaluation : Eval α} :
    Faults (ExceptT.lift evaluation) world fault after ↔
      evaluation.Faults world fault after := by
  simp only [Faults, Eval.Faults, ending_lift]
  rcases evaluation.ending world with ⟨_ | _, between⟩ <;> simp

@[simp] theorem returns_perform {run : Traced α} {value : α} :
    (perform run).Returns world value after ↔
      ∃ trace, run.Returns world.trace value trace ∧ world.traced trace = after :=
  returns_lift.trans Eval.returns_perform

@[simp] theorem reports_perform {run : Traced α} : ¬(perform run).Reports world failure after :=
  reports_lift

@[simp] theorem faults_perform {run : Traced α} :
    (perform run).Faults world fault after ↔
      ∃ trace, run.Faults world.trace fault trace ∧ world.traced trace = after :=
  faults_lift.trans Eval.faults_perform

@[simp] theorem returns_misuse {cause : Misuse} {value : α} :
    ¬(misuse cause : Checked α).Returns world value after :=
  fun returned => Eval.returns_misuse (returns_lift.mp returned)

@[simp] theorem reports_misuse {cause : Misuse} :
    ¬(misuse cause : Checked α).Reports world failure after := reports_lift

@[simp] theorem faults_misuse {cause : Misuse} :
    (misuse cause : Checked α).Faults world fault after ↔ .misuse cause = fault ∧ world = after :=
  faults_lift.trans Eval.faults_misuse

@[simp] theorem returns_report {worded : Option Failure} {value : α} :
    ¬(report worded : Checked α).Returns world value after := by
  simp only [Returns, ending_report]
  cases worded <;> simp

@[simp] theorem reports_report {worded : Option Failure} :
    (report worded : Checked α).Reports world failure after ↔
      worded = some failure ∧ world = after := by
  simp only [Reports, ending_report]
  cases worded <;> simp

@[simp] theorem faults_report {worded : Option Failure} :
    (report worded : Checked α).Faults world fault after ↔
      worded = none ∧ .misuse .unwritableInteger = fault ∧ world = after := by
  simp only [Faults, ending_report]
  cases worded <;> simp

@[simp] theorem returns_reword {wording : Failure → Option Failure} {value : α} :
    (reword wording computation).Returns world value after ↔
      computation.Returns world value after := by
  unfold reword
  rw [returns_attempt_bind]
  simp

@[simp] theorem reports_reword {wording : Failure → Option Failure} :
    (reword wording computation).Reports world failure after ↔
      ∃ inner, computation.Reports world inner after ∧ wording inner = some failure := by
  unfold reword
  rw [reports_attempt_bind]
  simp

/-- A failure that cannot be put into the words asked for is a misuse. -/
@[simp] theorem faults_reword {wording : Failure → Option Failure} :
    (reword wording computation).Faults world fault after ↔
      computation.Faults world fault after ∨
        ∃ inner, computation.Reports world inner after ∧ wording inner = none ∧
          .misuse .unwritableInteger = fault := by
  unfold reword
  rw [faults_attempt_bind]
  constructor
  · rintro (early | ⟨first, between, returned, faulted⟩ | ⟨inner, between, reported, late⟩)
    · exact .inl early
    · exact absurd faulted faults_pure
    · obtain ⟨refused, same, rfl⟩ := faults_report.mp late
      exact .inr ⟨inner, reported, refused, same⟩
  · rintro (early | ⟨inner, reported, refused, same⟩)
    · exact .inl early
    · exact .inr (.inr ⟨inner, after, reported, faults_report.mpr ⟨refused, same, rfl⟩⟩)

variable {place : Place}

@[simp] theorem returns_within {value : α} :
    (within place computation).Returns world value after ↔
      computation.Returns world value after := returns_reword

@[simp] theorem faults_within :
    (within place computation).Faults world fault after ↔
      computation.Faults world fault after ∨
        ∃ inner, computation.Reports world inner after ∧ inner.placed? place = none ∧
          .misuse .unwritableInteger = fault := faults_reword

@[simp] theorem returns_guarded {default : Value} {run : Traced α} {value : α} :
    (guarded default run).Returns world value after ↔
      ∃ trace, run.Returns world.trace value trace ∧ world.traced trace = after := by
  simp only [Returns, Traced.Returns, ending_guarded]
  rcases run.ending world.trace with ⟨raised | given, trace⟩
  · cases caught : raised.caught? default <;> simp only [caught] <;> simp
  · constructor
    · rintro ⟨⟩
      exact ⟨trace, rfl, rfl⟩
    · rintro ⟨_, ⟨⟩, rfl⟩
      rfl

/-- A guarded callback reports the faults that can be caught. -/
@[simp] theorem reports_guarded {default : Value} {run : Traced α} :
    (guarded default run).Reports world failure after ↔
      ∃ raised trace, run.Faults world.trace raised trace ∧
        raised.caught? default = some failure ∧ world.traced trace = after := by
  simp only [Reports, Traced.Faults, ending_guarded]
  rcases run.ending world.trace with ⟨raised | given, trace⟩
  · constructor
    · intro reported
      cases caught : raised.caught? default <;> simp only [caught] at reported
      · cases reported
      · cases reported
        exact ⟨raised, trace, rfl, caught, rfl⟩
    · rintro ⟨_, _, ⟨⟩, caught, rfl⟩
      simp only [caught]
  · simp

/-- A guarded callback passes the other faults on. -/
@[simp] theorem faults_guarded {default : Value} {run : Traced α} :
    (guarded default run).Faults world fault after ↔
      ∃ raised trace, run.Faults world.trace raised trace ∧
        raised.caught? default = none ∧ raised.passed = fault ∧ world.traced trace = after := by
  simp only [Faults, Traced.Faults, ending_guarded]
  rcases run.ending world.trace with ⟨raised | given, trace⟩
  · constructor
    · intro faulted
      cases caught : raised.caught? default <;> simp only [caught] at faulted
      · cases faulted
        exact ⟨raised, trace, rfl, caught, rfl, rfl⟩
      · cases faulted
    · rintro ⟨_, _, ⟨⟩, caught, rfl, rfl⟩
      simp only [caught]
  · simp

/-- Every computation ends in one way. -/
theorem ends (computation : Checked α) (world : World) :
    (∃ value after, computation.Returns world value after) ∨
      (∃ failure after, computation.Reports world failure after) ∨
      ∃ fault after, computation.Faults world fault after := by
  unfold Returns Reports Faults
  rcases computation.ending world with ⟨fault | failure | value, after⟩
  · exact .inr (.inr ⟨fault, after, rfl⟩)
  · exact .inr (.inl ⟨failure, after, rfl⟩)
  · exact .inl ⟨value, after, rfl⟩

/-- Computations that end alike in every world are the same. -/
theorem ext_ending {first second : Checked α}
    (same : ∀ world, first.ending world = second.ending world) :
    first = second := funext same

/-- A failure raised is the fault of an exception with the same line and issues. -/
theorem ending_raising (computation : Checked Value) (world : World) :
    (raising computation).ending world = match computation.ending world with
      | (.ok (.ok value), after) => (.ok value, after)
      | (.ok (.error failure), after) => (.error (.invalid failure.raised), after)
      | (.error fault, after) => (.error fault, after) := by
  simp only [raising, Eval.ending_bind]
  unfold ending Eval.ending ExceptT.run
  rcases computation world with ⟨_ | _ | _, after⟩ <;> rfl

theorem ending_outcome (computation : Checked Value) (world : World) :
    (outcome computation).ending world = match computation.ending world with
      | (.ok (.ok value), after) => (.ok (.ok value), after)
      | (.ok (.error failure), after) => (.ok (.err failure), after)
      | (.error fault, after) => (.error fault, after) := by
  simp only [outcome, Eval.ending_bind]
  unfold ending Eval.ending ExceptT.run
  rcases computation world with ⟨_ | _ | _, after⟩ <;> rfl

variable {safely : Checked Value}

@[simp] theorem returns_outcome_ok {value : Value} :
    (outcome safely).Returns world (.ok value) after ↔ safely.Returns world value after := by
  simp only [Eval.Returns, Returns, ending_outcome]
  rcases safely.ending world with ⟨_ | _ | _, between⟩ <;> simp

@[simp] theorem returns_outcome_err :
    (outcome safely).Returns world (.err failure) after ↔ safely.Reports world failure after := by
  simp only [Eval.Returns, Reports, ending_outcome]
  rcases safely.ending world with ⟨_ | _ | _, between⟩ <;> simp

@[simp] theorem faults_outcome :
    (outcome safely).Faults world fault after ↔ safely.Faults world fault after := by
  simp only [Eval.Faults, Faults, ending_outcome]
  rcases safely.ending world with ⟨_ | _ | _, between⟩ <;> simp

end Checked

namespace SafeForm

open Checked

variable {condition : Bool} {failure refused : Failure} {x y : Value} {world after : World}
  {fault : Fault}

@[simp] theorem returns_provided :
    (provided condition failure x).Returns world y after ↔ condition ∧ x = y ∧ world = after := by
  unfold provided
  cases condition <;> simp

@[simp] theorem reports_provided :
    (provided condition failure x).Reports world refused after ↔
      condition = false ∧ failure = refused ∧ world = after := by
  unfold provided
  cases condition <;> simp

@[simp] theorem faults_provided : ¬(provided condition failure x).Faults world fault after := by
  unfold provided
  cases condition <;> simp

@[simp] theorem returns_entriesOf {entries : List (Value × Value)} :
    (entriesOf failure x).Returns world entries after ↔ x.entries? = some entries ∧
      world = after := by
  unfold entriesOf
  cases x.entries? <;> simp

@[simp] theorem reports_entriesOf :
    (entriesOf failure x).Reports world refused after ↔
      x.entries? = none ∧ failure = refused ∧ world = after := by
  unfold entriesOf
  cases x.entries? <;> simp

@[simp] theorem faults_entriesOf : ¬(entriesOf failure x).Faults world fault after := by
  unfold entriesOf
  cases x.entries? <;> simp

theorem faults_entriesOf_bind {next : List (Value × Value) → Checked β} :
    (entriesOf failure x >>= next).Faults world fault after ↔
      ∃ entries, x.entries? = some entries ∧ (next entries).Faults world fault after := by
  rw [faults_bind]
  constructor
  · rintro (early | ⟨entries, between, had, late⟩)
    · exact absurd early faults_entriesOf
    · obtain ⟨found, rfl⟩ := returns_entriesOf.mp had
      exact ⟨entries, found, late⟩
  · rintro ⟨entries, found, late⟩
    exact .inr ⟨entries, world, returns_entriesOf.mpr ⟨found, rfl⟩, late⟩

@[simp] theorem returns_itemsOf {items : List Value} :
    (itemsOf x).Returns world items after ↔ x.items? = some items ∧ world = after := by
  unfold itemsOf
  cases x.items? <;> simp

@[simp] theorem faults_itemsOf : ¬(itemsOf x).Faults world fault after := by
  unfold itemsOf
  cases x.items? <;> simp

@[simp] theorem returns_requireHashable {done : Unit} :
    (requireHashable y).Returns world done after ↔ y.unhashable? = none ∧ world = after := by
  unfold requireHashable
  cases y.unhashable? <;> simp

@[simp] theorem faults_requireHashable :
    (requireHashable y).Faults world fault after ↔
      ∃ found, y.unhashable? = some found ∧ .misuse (.unhashable found) = fault ∧
        world = after := by
  unfold requireHashable
  cases y.unhashable? <;> simp

end SafeForm

namespace Validator

/-- The safe form of a validator is that of its rule, with the budget that the input is given. -/
theorem ending_safe (v : Validator) (x : Value) (world : World) :
    (v.safe x).ending world = (v.rule.safe (Rule.lazySafe (world.budget x)) x).ending world := by
  have current : (getThe World : Checked World).ending world = (.ok (.ok world), world) := rfl
  simp only [safe, Checked.ending_bind, current]

/-- A validator answers as its rule does where the budget does not matter. -/
theorem safe_of_rule {v : Validator} {x : Value} {answer : Checked Value}
    (same : ∀ onLazy, v.rule.safe onLazy x = answer) : v.safe x = answer :=
  Checked.ext_ending fun world => by rw [ending_safe, same]

/-- Validators whose rules answer an input alike answer it alike. -/
theorem safe_congr {v w : Validator} {x : Value}
    (same : ∀ onLazy, v.rule.safe onLazy x = w.rule.safe onLazy x) : v.safe x = w.safe x :=
  Checked.ext_ending fun world => by rw [ending_safe, ending_safe, same]

theorem returns_safe {v : Validator} {x y : Value} {world after : World} :
    (v.safe x).Returns world y after ↔
      (v.rule.safe (Rule.lazySafe (world.budget x)) x).Returns world y after := by
  rw [Checked.Returns, ending_safe, Checked.Returns]

theorem reports_safe {v : Validator} {x : Value} {world after : World} {failure : Failure} :
    (v.safe x).Reports world failure after ↔
      (v.rule.safe (Rule.lazySafe (world.budget x)) x).Reports world failure after := by
  rw [Checked.Reports, ending_safe, Checked.Reports]

theorem faults_safe {v : Validator} {x : Value} {world after : World} {fault : Fault} :
    (v.safe x).Faults world fault after ↔
      (v.rule.safe (Rule.lazySafe (world.budget x)) x).Faults world fault after := by
  rw [Checked.Faults, ending_safe, Checked.Faults]

theorem ending_call (v : Validator) (x : Value) (world : World) :
    (v.call x).ending world = (v.rule.call (Rule.lazySafe (world.budget x))
      (Rule.lazyCall (world.budget x)) x).ending world := by
  rw [call, Eval.ending_get_bind]

end Validator

end Conform
