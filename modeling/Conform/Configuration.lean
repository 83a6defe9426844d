import Conform.World

/-!
Changes of configuration and of registered definitions. A context that cannot open changes nothing.
-/
namespace Conform

namespace Eval

def enterContext (given : ContextSettings) : Eval Unit := do
  let world ← get
  let settings ← ofConstruction (world.settings.enter given)
  let opened : OpenContext := ⟨given, world.settings.vendor, world.settings.draft⟩
  set { world with settings := settings, contexts := opened :: world.contexts }

def leaveContext : Eval Unit := do
  let world ← get
  match world.contexts with
  | [] => misuse .noOpenContext
  | innermost :: outer =>
    set { world with settings := world.settings.leave innermost, contexts := outer }

def configuredMessage (scope : MessageScope) : Eval ConfiguredMessage := do
  return (← get).settings.get? scope

def setMessage (scope : MessageScope) (message : ConfiguredMessage) : Eval Unit :=
  modify fun world => { world with settings := world.settings.setMessage scope message }

def deleteMessage (scope : MessageScope) : Eval Unit :=
  modify fun world => { world with settings := world.settings.deleteMessage scope }

/-- Registers definitions; a repeated name takes the new one. -/
def register (definitions : List (String × Schema)) : Eval Unit :=
  modify fun world => { world with definitions := Entries.merge world.definitions definitions }

def clearDefinitions : Eval Unit := modify fun world => { world with definitions := [] }

end Eval

end Conform
