import Conform.World

/-!
The two forms of a validator: the safe form, which reports failures, and the calling form, which
raises them. Faults of callbacks become failures where a construction catches them.
-/
namespace Conform

/-- A computation that may report a failure, and apart from that may end in a fault. -/
abbrev Checked := ExceptT Failure Eval

/-- A validator's form that reports failures. -/
abbrev SafeForm := Value → Checked Value

/-- A validator's form that raises failures. -/
abbrev CallForm := Value → Eval Value

namespace Checked

def reject {α : Type} (failure : Failure) : Checked α := ExceptT.mk (pure (.error failure))

def ofOutcome (outcome : Outcome) : Checked Value :=
  match outcome with
  | .ok value => pure value
  | .err failure => reject failure

/-- Runs a callback; its faults are not caught. -/
def perform {α : Type} (run : Traced α) : Checked α := ExceptT.lift (Eval.perform run)

def misuse {α : Type} (cause : Misuse) : Checked α := ExceptT.lift (Eval.misuse cause)

/-- Runs a callback; an ordinary fault is reported as a failure, with the default as message when
its text is empty. -/
def guarded {α : Type} (default : Value) (run : Traced α) : Checked α := do
  match ← perform (Traced.attempt run) with
  | .ok a => pure a
  | .error fault => match fault.caught? default with
    | some failure => reject failure
    | none => ExceptT.lift (Eval.raise fault.passed)

/-- The success or the failure of a computation, as a value. -/
def attempt {α : Type} (computation : Checked α) : Checked (Except Failure α) :=
  ExceptT.lift computation.run

/-- Reports a failure unless it cannot be put into words. -/
def report {α : Type} (worded : Option Failure) : Checked α :=
  match worded with
  | some failure => reject failure
  | none => misuse .unwritableInteger

def reword {α : Type} (wording : Failure → Option Failure) (computation : Checked α) :
    Checked α := do
  match ← attempt computation with
  | .ok a => pure a
  | .error failure => report (wording failure)

/-- Reports failures from one level further out. -/
def within {α : Type} (place : Place) (computation : Checked α) : Checked α :=
  reword (Failure.placed? place) computation

def outcome (computation : Checked Value) : Eval Outcome := do
  match ← computation.run with
  | .ok value => return .ok value
  | .error failure => return .err failure

def raising (computation : Checked Value) : Eval Value := do
  match ← computation.run with
  | .ok value => return value
  | .error failure => Eval.raise (.invalid failure.raised)

end Checked

end Conform
