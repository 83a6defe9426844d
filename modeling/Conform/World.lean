import Conform.Recipe
import Conform.Settings

/-!
Evaluations: computations that may end in a fault and that share named schemas, lazy schemas with
what they were built to, configuration, registered definitions and what callbacks left behind. State
outlives a fault.
-/
namespace Conform

/-- A lazy schema: how to build it, the label logged when that happens, and what it was built to. -/
structure LazyCell where
  label : Option String
  body : Recipe
  built : Option Validator

/-- What evaluations share. The lazy schemas that are being expanded are those of the converter at
work. -/
structure World where
  names : Entries String Schema
  lazies : List LazyCell
  trace : Trace
  settings : Settings
  contexts : List OpenContext
  definitions : Entries String Schema
  expanding : List Nat

namespace World

/-- The world at the start, under a vendor name. -/
def initial (vendor : String) : World := ⟨[], [], ⟨[], 0⟩, .initial vendor, [], [], []⟩

/-- An upper bound on the number of lazy schemas that can ever exist, without new recipes. -/
def lazyBound (world : World) : Nat :=
  world.lazies.foldl (fun total cell => total + cell.body.lazyCount + 1) 0

end World

/-- A computation that may end in a fault and shares the world. -/
abbrev Eval := ExceptT Fault (StateM World)

namespace Eval

def raise {α : Type} (fault : Fault) : Eval α := throw fault

def misuse {α : Type} (cause : Misuse) : Eval α := raise (.misuse cause)

def ofConstruction {α : Type} : Except Misuse α → Eval α
  | .ok a => pure a
  | .error cause => misuse cause

/-- Runs a callback on what earlier ones left behind. -/
def perform {α : Type} (run : Traced α) : Eval α := fun world =>
  let (result, trace) := run world.trace
  (result, { world with trace := trace })

def log (event : Event) : Eval Unit := perform (Traced.log event)

def newLazy (label : Option String) (body : Recipe) : Eval Nat := do
  let world ← get
  let cell : LazyCell := ⟨label, body, none⟩
  set { world with lazies := world.lazies ++ [cell] }
  return world.lazies.length

def lookup (name : String) : Eval Schema := do
  match (← get).names.get? name with
  | some schema => return schema
  | none => misuse (.absentKey (.str name))

def define (name : String) (schema : Schema) : Eval Unit :=
  modify fun world => { world with names := world.names.insert name schema }

end Eval

namespace Recipe

mutual

/-- Builds a schema, its parts from left to right. Nothing lazy is built. -/
def build : Recipe → Eval Schema
  | .calling run => Eval.perform run
  | .reference name => Eval.lookup name
  | .lazy label body => do
    let id ← Eval.newLazy label body
    return .validator (.lazy id)
  | .combine construction parts => do
    let schemas ← buildAll parts
    Eval.ofConstruction (construction schemas)

def buildAll : List Recipe → Eval (List Schema)
  | [] => return []
  | part :: rest => do
    let schema ← build part
    let schemas ← buildAll rest
    return schema :: schemas

end

end Recipe

/-- Runs the factory of a lazy schema and reads what it gives as a validator. -/
def LazyCell.run (cell : LazyCell) : Eval Validator := do
  match cell.label with
  | some label => Eval.log ⟨"lazy", .str label⟩
  | none => pure ()
  let schema ← cell.body.build
  Eval.ofConstruction schema.toValidator

namespace Eval

def remember (id : Nat) (v : Validator) : Eval Unit :=
  modify fun world =>
    { world with lazies := world.lazies.modify id fun cell => { cell with built := some v } }

/-- The validator that a lazy schema stands for: its factory runs on first use, and what that gives
is kept. A factory that fails runs again. -/
def resolve (id : Nat) : Eval Validator := do
  match (← get).lazies[id]? with
  | some cell => match cell.built with
    | some v => return v
    | none =>
      let v ← cell.run
      remember id v
      return v
  | none => misuse (.absentKey (.int id))

end Eval

end Conform
