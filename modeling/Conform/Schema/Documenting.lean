import Conform.Schema.Shape

/-!
Descriptions made by hand: written kinds, examples of any form that can be run through, changes of
single fields, and the methods that only validators have.
-/
namespace Conform

/-- The kind that a value names; the refusal of any other shows the value. -/
def Kind.ofValue (name : Value) : Except Misuse Kind :=
  let unknown : Misuse := if name.isWritable then .unknownKind name else .unwritableInteger
  match name with
  | .str s => (ofName? s).elim (.error unknown) .ok
  | _ => .error unknown

/-- Examples from anything that can be run through; null stands for none. -/
def Documentation.examplesOf (examples : Value) : Except Misuse (Option (List Value)) :=
  match examples with
  | .null => .ok none
  | examples => match examples.iterate? with
    | some items => .ok (some items)
    | none => .error (.notIterable examples.typeName)

/-- A change of one field of a description. -/
inductive MetadataChange where
  | kind (name : Value)
  | parameters (parameters : List (String × Parameter))
  | children (children : Children)
  | description (text : Value)
  | title (text : Value)
  | examples (examples : Value)
  | default (value : Value)
  | deprecated (mark : Value)
  | readonly (mark : Value)
  | brand (name : Value)
  | unknown (field : String)

namespace Metadata

/-- The description with its documentation changed. -/
def redocument (metadata : Metadata) (change : Documentation → Documentation) : Metadata :=
  { metadata with docs := change metadata.docs }

def change (metadata : Metadata) : MetadataChange → Except Misuse Metadata
  | .kind name => (Kind.ofValue name).map fun kind => { metadata with kind := kind }
  | .parameters parameters => .ok { metadata with parameters := parameters }
  | .children children => .ok { metadata with children := children }
  | .description text =>
    .ok <| metadata.redocument fun docs => { docs with description := Documentation.said text }
  | .title text => .ok <| metadata.redocument fun docs =>
    { docs with title := Documentation.said text }
  | .examples examples => (Documentation.examplesOf examples).map fun items =>
    metadata.redocument fun docs => { docs with examples := items }
  | .default value => .ok { metadata with default := value }
  | .deprecated mark =>
    .ok <| metadata.redocument fun docs => { docs with deprecated := Documentation.said mark }
  | .readonly mark =>
    .ok <| metadata.redocument fun docs => { docs with readonly := Documentation.said mark }
  | .brand name => .ok <| metadata.redocument fun docs =>
    { docs with brand := Documentation.said name }
  | .unknown field => .error (.unexpectedArgument "Metadata.__init__" field)

/-- The description with several fields changed. -/
def update (metadata : Metadata) (changes : List MetadataChange) : Except Misuse Metadata :=
  changes.foldlM change metadata

/-- A description from a written kind, its children and changes of the other fields. -/
def make (kind : Value) (children : Children) (changes : List MetadataChange) :
    Except Misuse Metadata :=
  (withChildren .unknown children).update (.kind kind :: changes)

end Metadata

namespace Schema

/-- The validator that a method is called on; other schemas do not have the method. -/
def receiver (method : String) : Schema → Except Misuse Validator
  | .validator v => .ok v
  | .cls c => .error (.noClassAttribute c.name method)
  | other => .error (.noAttribute other.typeName method)

/-- A callable object with a description, of which only its call, its result form and its text are
known. -/
def foreignOf (call : Callable) (result : Option ResultCallable) (misplaced : Option Value)
    (metadata : Option Metadata) : Schema := .foreign ⟨call, result, misplaced, metadata⟩

/-- A validator from a throwing form, a result form, or both. -/
def created (call : Option Callable) (result : Option ResultCallable) (metadata : Option Metadata) :
    Except Misuse Validator :=
  match call, result with
  | none, none => .error (.nothingGiven "create_validator" "check or safe")
  | some f, none => .ok (.of (.plain f) metadata)
  | none, some g => .ok (.of (.resulting g) metadata)
  | some f, some g => .ok (.of (.paired f g) metadata)

end Schema

end Conform
