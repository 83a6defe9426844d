import Conform.Fault

/-!
Callbacks. A callback maps a value to a value or a fault. On the way it may log events and take
identities for new objects; nothing else is assumed of it.
-/
namespace Conform

/-- Something a callback logged. -/
structure Event where
  label : String
  value : Value

/-- What callbacks leave behind: the events logged so far, the latest first, and the first identity
not yet taken. -/
structure Trace where
  logged : List Event
  identities : Nat

def Trace.events (trace : Trace) : List Event := trace.logged.reverse

/-- The run of a callback: it may end in a fault, and what it left behind by then stays. -/
abbrev Traced := ExceptT Fault (StateM Trace)

namespace Traced

def raise {α : Type} (fault : Fault) : Traced α := throw fault

def misuse {α : Type} (cause : Misuse) : Traced α := raise (.misuse cause)

def ofConstruction {α : Type} : Except Misuse α → Traced α
  | .ok a => pure a
  | .error cause => misuse cause

def log (event : Event) : Traced Unit :=
  modify fun trace => { trace with logged := event :: trace.logged }

/-- A run that takes an identity no object has. -/
def identity : Traced Nat :=
  modifyGet fun trace => (trace.identities, { trace with identities := trace.identities + 1 })

/-- The result or the fault of a run, as a value. -/
def attempt {α : Type} (run : Traced α) : Traced (Except Fault α) := ExceptT.lift run.run

end Traced

/-- A callback with the name it was defined under. -/
structure Callable where
  name : String
  run : Value → Traced Value

/-- A callback that reports failures as results. -/
structure ResultCallable where
  run : Value → Traced Outcome

end Conform
