import Conform.Proofs.Evaluation.Endings
import Conform.Proofs.Evaluation.Pieces

/-!
Laws of evaluation. A law says what holds of every world passed, every failure reported and every
fault raised. A law that the constructions of failures respect and that the supplied pieces comply
with is kept by the safe form of every rule (`Rule.keeps_safe`, `Rule.keeps_lazySafe`).
-/
namespace Conform

/-- What holds of the worlds, messages, failures and faults of an evaluation. -/
structure Law where
  world : World → Prop
  message : Value → Prop
  failure : Failure → Prop
  fault : Fault → Prop

namespace Law

variable (law : Law)

/-- A fault of a guarded callback is lawful when the failure it is reported as, or else the fault
that is passed on, is. -/
def Handles (fault : Fault) : Prop :=
  ∀ default, law.message default → match fault.caught? default with
    | some failure => law.failure failure
    | none => law.fault fault.passed

/-- The piece does nothing unlawful. -/
def Allows : Piece → Prop
  | .callback function => ∀ x trace fault after,
    (function.run x).Faults trace fault after → law.Handles fault
  | .renderer render => (∀ x trace fault after,
      (render.run x).Faults trace fault after → law.Handles fault) ∧
    ∀ x trace message after, (render.run x).Returns trace message after → law.message message
  | .reporter function | .pair _ function => (∀ x trace fault after,
      (function.run x).Faults trace fault after → law.fault fault) ∧
    ∀ x trace failure after, (function.run x).Returns trace (.err failure) after →
      law.failure failure
  | .message message => law.message message

/-- The law is respected by everything that evaluation does of its own accord, but for what it makes
of lazy schemas and of the failures of keys. -/
structure Eager : Prop where
  traced : ∀ {world : World} (trace : Trace), law.world world → law.world (world.traced trace)
  text : ∀ text : String, law.message (.str text)
  line : ∀ {failure : Failure}, law.failure failure → law.message failure.line
  misuse : ∀ cause : Misuse, law.fault (.misuse cause)
  plain : ∀ message : String, law.failure (.plain message)
  expecting : ∀ message expected : String, law.failure (.expecting message expected)
  said : ∀ {message : Value}, law.message message → law.failure (.of message [])
  crossed : ∀ (message : String) (paths : List (List Value)),
    law.failure (.of (.str message) (paths.map (Issue.located (.str message))))
  reported : ∀ first others, (∀ issue ∈ first :: others, law.message issue.message) →
    law.failure ⟨first.message, first, others⟩
  within : ∀ {failure : Failure} (segment : Value) (label : String), law.failure failure →
    law.failure (failure.within segment label)
  below : ∀ {failure : Failure} (path : List Value), law.failure failure →
    law.failure (failure.mapIssues (·.below path))

/-- The law is respected by everything that evaluation does of its own accord, but for what it makes
of the failures of keys. -/
structure Fair : Prop extends law.Eager where
  resolved : ∀ {world : World} {id : Nat} {v : Validator} {after : World}, law.world world →
    (Eval.resolve id).Returns world v after → law.world after ∧ v.rule.SuppliedBy law.Allows
  unresolved : ∀ {world : World} {id : Nat} {fault : Fault} {after : World}, law.world world →
    (Eval.resolve id).Faults world fault after → law.world after ∧ law.fault fault

/-- The law is respected by everything that evaluation does of its own accord. -/
structure Respected : Prop extends law.Fair where
  invalidKey : ∀ {failure : Failure} (key : Value), law.failure failure →
    law.failure (SafeForm.invalidKey key failure)

/-- The law of an invariant of worlds: nothing is asked of messages, failures and faults. -/
def ofWorlds (invariant : World → Prop) : Law :=
  ⟨invariant, fun _ => True, fun _ => True, fun _ => True⟩

variable {invariant : World → Prop}

/-- A law about worlds allows every piece, whatever the piece answers. -/
theorem ofWorlds_allows (piece : Piece) : (ofWorlds invariant).Allows piece := by
  have handles : ∀ fault, (ofWorlds invariant).Handles fault := by
    intro fault default _
    cases fault.caught? default <;> trivial
  cases piece with
  | callback => exact fun _ _ fault _ _ => handles fault
  | renderer => exact ⟨fun _ _ fault _ _ => handles fault, fun _ _ _ _ _ => trivial⟩
  | reporter | pair => exact ⟨fun _ _ _ _ _ => trivial, fun _ _ _ _ _ => trivial⟩
  | message => trivial

/-- An invariant of both steps of evaluation is respected. -/
theorem ofWorlds_respected
    (traced : ∀ world trace, invariant world → invariant (world.traced trace))
    (resolved : ∀ world id, invariant world → invariant ((Eval.resolve id).ending world).2) :
    (ofWorlds invariant).Respected where
  traced trace holds := traced _ trace holds
  resolved {world id v after} holds returned := by
    have kept := resolved world id holds
    rw [returned] at kept
    exact ⟨kept, fun piece _ => ofWorlds_allows piece⟩
  unresolved {world id fault after} holds faulted := by
    have kept := resolved world id holds
    rw [faulted] at kept
    exact ⟨kept, trivial⟩
  text _ := trivial
  line _ := trivial
  misuse _ := trivial
  plain _ := trivial
  expecting _ _ := trivial
  said _ := trivial
  crossed _ _ := trivial
  reported _ _ _ := trivial
  within _ _ _ := trivial
  invalidKey _ _ := trivial
  below _ _ := trivial

end Law

namespace Checked

variable {α β : Type} {law : Law}

/-- The computation keeps a law, and its value has the property. -/
def Keeps (law : Law) (property : α → Prop) (computation : Checked α) : Prop :=
  ∀ world : World, law.world world →
    (∀ value after, computation.Returns world value after → law.world after ∧ property value) ∧
    (∀ failure after, computation.Reports world failure after →
      law.world after ∧ law.failure failure) ∧
    ∀ fault after, computation.Faults world fault after → law.world after ∧ law.fault fault

/-- Nothing is asked of a value. -/
abbrev anything (_ : α) : Prop := True

variable {property : α → Prop} {further : β → Prop}

theorem keeps_pure {value : α} (holds : property value) : Keeps law property (pure value) := by
  intro world lawful
  refine ⟨?_, by simp, by simp⟩
  intro given after returned
  obtain ⟨rfl, rfl⟩ := returns_pure.mp returned
  exact ⟨lawful, holds⟩

theorem keeps_reject {failure : Failure} (lawful : law.failure failure) :
    Keeps law property (reject failure) := by
  intro world holds
  refine ⟨by simp, ?_, by simp⟩
  intro given after reported
  obtain ⟨rfl, rfl⟩ := reports_reject.mp reported
  exact ⟨holds, lawful⟩

theorem keeps_misuse {cause : Misuse} (lawful : law.fault (.misuse cause)) :
    Keeps law property (misuse cause) := by
  intro world holds
  refine ⟨by simp, by simp, ?_⟩
  intro given after faulted
  obtain ⟨rfl, rfl⟩ := faults_misuse.mp faulted
  exact ⟨holds, lawful⟩

/-- A law that two computations keep in turn is kept by their sequence. -/
theorem Keeps.bind {computation : Checked α} {next : α → Checked β}
    (first : computation.Keeps law property)
    (rest : ∀ value, property value → (next value).Keeps law further) :
    (computation >>= next).Keeps law further := by
  intro world lawful
  obtain ⟨returning, reporting, faulting⟩ := first world lawful
  refine ⟨?_, ?_, ?_⟩
  · intro value after returned
    obtain ⟨given, between, before, later⟩ := returns_bind.mp returned
    obtain ⟨kept, holds⟩ := returning given between before
    exact (rest given holds between kept).1 value after later
  · intro failure after reported
    rcases reports_bind.mp reported with early | ⟨given, between, before, later⟩
    · exact reporting failure after early
    · obtain ⟨kept, holds⟩ := returning given between before
      exact (rest given holds between kept).2.1 failure after later
  · intro fault after faulted
    rcases faults_bind.mp faulted with early | ⟨given, between, before, later⟩
    · exact faulting fault after early
    · obtain ⟨kept, holds⟩ := returning given between before
      exact (rest given holds between kept).2.2 fault after later

/-- A law is kept by what goes on after a success and after a failure that obeys it. -/
theorem Keeps.attempt_bind {computation : Checked α} {next : Except Failure α → Checked β}
    (first : computation.Keeps law property)
    (success : ∀ value, property value → (next (.ok value)).Keeps law further)
    (refusal : ∀ failure, law.failure failure → (next (.error failure)).Keeps law further) :
    (attempt computation >>= next).Keeps law further := by
  intro world lawful
  obtain ⟨returning, reporting, faulting⟩ := first world lawful
  refine ⟨?_, ?_, ?_⟩
  · intro value after returned
    rcases returns_attempt_bind.mp returned with
      ⟨given, between, before, later⟩ | ⟨refused, between, before, later⟩
    · obtain ⟨kept, holds⟩ := returning given between before
      exact (success given holds between kept).1 value after later
    · obtain ⟨kept, holds⟩ := reporting refused between before
      exact (refusal refused holds between kept).1 value after later
  · intro failure after reported
    rcases reports_attempt_bind.mp reported with
      ⟨given, between, before, later⟩ | ⟨refused, between, before, later⟩
    · obtain ⟨kept, holds⟩ := returning given between before
      exact (success given holds between kept).2.1 failure after later
    · obtain ⟨kept, holds⟩ := reporting refused between before
      exact (refusal refused holds between kept).2.1 failure after later
  · intro fault after faulted
    rcases faults_attempt_bind.mp faulted with
      early | ⟨given, between, before, later⟩ | ⟨refused, between, before, later⟩
    · exact faulting fault after early
    · obtain ⟨kept, holds⟩ := returning given between before
      exact (success given holds between kept).2.2 fault after later
    · obtain ⟨kept, holds⟩ := reporting refused between before
      exact (refusal refused holds between kept).2.2 fault after later

theorem keeps_report {worded : Option Failure} (fair : law.Eager)
    (lawful : ∀ failure, worded = some failure → law.failure failure) :
    Keeps law property (report worded) := by
  cases worded with
  | some failure => exact keeps_reject (lawful failure rfl)
  | none => exact keeps_misuse (fair.misuse _)

theorem Keeps.reword {computation : Checked α} {wording : Failure → Option Failure}
    (kept : computation.Keeps law property) (fair : law.Eager)
    (words : ∀ failure worded, law.failure failure → wording failure = some worded →
      law.failure worded) :
    (reword wording computation).Keeps law property :=
  kept.attempt_bind (fun _ holds => keeps_pure holds) fun failure lawful =>
    keeps_report fair fun worded => words failure worded lawful

variable (fair : law.Eager)
include fair

/-- A guarded callback keeps a law that handles its faults. -/
theorem keeps_guarded {default : Value} {run : Traced α} (lawful : law.message default)
    (handled : ∀ trace fault after, run.Faults trace fault after → law.Handles fault)
    (holds : ∀ trace value after, run.Returns trace value after → property value) :
    Keeps law property (guarded default run) := by
  intro world passed
  refine ⟨?_, ?_, ?_⟩
  · intro value after returned
    obtain ⟨trace, ran, rfl⟩ := returns_guarded.mp returned
    exact ⟨fair.traced trace passed, holds _ value trace ran⟩
  · intro failure after reported
    obtain ⟨raised, trace, ran, caught, rfl⟩ := reports_guarded.mp reported
    have handles := handled _ raised trace ran default lawful
    rw [caught] at handles
    exact ⟨fair.traced trace passed, handles⟩
  · intro fault after faulted
    obtain ⟨raised, trace, ran, caught, rfl, rfl⟩ := faults_guarded.mp faulted
    have handles := handled _ raised trace ran default lawful
    rw [caught] at handles
    exact ⟨fair.traced trace passed, handles⟩

end Checked

end Conform
