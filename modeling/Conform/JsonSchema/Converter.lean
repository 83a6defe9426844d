import Conform.JsonSchema.Projection

/-!
The document converter. One converter serves a schema and all definitions beside it. It keeps the
lazy schemas that it is expanding in the world, cuts what it meets of them inside, and forgets each
of them however its expansion ends.
-/
namespace Conform

/-- Runs an evaluation and changes the world after it, however it ends. -/
def Eval.ensuring {α : Type} (evaluation : Eval α) (change : World → World) : Eval α := fun world =>
  let (answer, after) := evaluation world
  (answer, change after)

namespace Converter

/-- The lazy schema is being expanded. -/
def marked (id : Nat) (world : World) : World := { world with expanding := id :: world.expanding }

/-- The lazy schema is not being expanded any more. -/
def unmarked (id : Nat) (world : World) : World :=
  { world with expanding := world.expanding.erase id }

/-- The document schema of a lazy schema, which is cut where it is being expanded. Each level
expands one more, so a budget of all lazy schemas there can be is enough. -/
def ofLazy (draft : String) : Nat → Nat → Eval Keywords
  | 0, _ => Eval.misuse .tooDeep
  | budget + 1, id => do
    if (← get).expanding.contains id then return []
    else
      modify (marked id)
      Eval.ensuring (do
        let v ← Eval.resolve id
        Projection.ofSchema draft (ofLazy draft budget) (.validator v)) (unmarked id)

/-- The document schema of a schema. -/
def convert (draft : String) (schema : Schema) : Eval Keywords := do
  let budget := (← get).lazyBound + 1
  Projection.ofSchema draft (ofLazy draft budget) schema

/-- The document schemas of named schemas under their names, one after the other. -/
def convertAll (draft : String) : List (String × Schema) → Eval Keywords
  | [] => return []
  | (name, schema) :: rest => do
    let keywords ← convert draft schema
    let further ← convertAll draft rest
    return (.str name, .object keywords) :: further

/-- Runs an evaluation with a new converter. The one around it finds what it is expanding as it
was. -/
def fresh {α : Type} (evaluation : Eval α) : Eval α := do
  let outer := (← get).expanding
  modify fun world => { world with expanding := [] }
  Eval.ensuring evaluation fun world => { world with expanding := outer }

end Converter

namespace Schema

/-- What a document schema is asked to hold. -/
structure DocumentOptions where
  includeAddress : Bool
  draft : Option String
  useRegistered : Bool
  definitions : List (String × Schema)

/-- The dialect asked for, or the default one. -/
def chosenDraft (draft : Option String) : Eval String := do
  let default := (← get).settings.draft
  return match draft with
    | some draft => if draft.isEmpty then default else draft
    | none => default

/-- The whole document schema of a schema, with the definitions that are given or registered. -/
def toDocument (options : DocumentOptions) (schema : Schema) : Eval Keywords := do
  let draft ← chosenDraft options.draft
  match Settings.draftAddress? draft with
  | none => Eval.misuse (.unknownDraft draft)
  | some address => Converter.fresh do
    let body ← Converter.convert draft schema
    let addressed := if options.includeAddress then body.putValue "$schema" (.str address) else body
    let world ← get
    let registered := if options.useRegistered then world.definitions else []
    let definitions := Entries.merge registered options.definitions
    if definitions.isEmpty then return addressed
    else
      let converted ← Converter.convertAll draft definitions
      return addressed.put "$defs" (.object converted)

/-- The document schemas of named schemas, in the dialect asked for. -/
def toDefinitions (draft : Option String) (definitions : List (String × Schema)) :
    Eval Keywords := do
  let draft ← chosenDraft draft
  Converter.fresh (Converter.convertAll draft definitions)

end Schema

end Conform
