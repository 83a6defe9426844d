import Conform.Schema.Shape

/-!
Questions about the description of a schema: defaults and fallbacks, its own and those of its
fields.
-/
namespace Conform

namespace Schema

def parameterOfKind? (kind : Kind) (name : String) (schema : Schema) : Option Parameter :=
  schema.metadata?.bind fun metadata =>
    if metadata.kind = kind then Entries.get? metadata.parameters name else none

/-- The value that stands in for an absent one. -/
def default? : Schema → Option Parameter := parameterOfKind? .default "default"

def fallback? : Schema → Option Parameter := parameterOfKind? .fallback "fallback"

/-- The parameters of those fields of an object schema that are of one kind, if there are any. -/
def fieldParameters (kind : Kind) (name : String) (schema : Schema) :
    Except Misuse (Option (List (Value × Parameter))) :=
  match schema.metadata? with
  | none => .ok none
  | some metadata =>
    if !metadata.kind.isPlainObject then .ok none
    else match metadata.children, metadata.children.fields? with
      | _, some fields =>
        let found := fields.filterMap fun field => field.2.metadata?.bind fun inner =>
          if inner.kind = kind then
            some (field.1, (Entries.get? inner.parameters name).getD (.value .null))
          else none
        .ok (if found.isEmpty then none else some found)
      | .one (.value inner), none =>
        if inner.truthy then .error (.noAttribute inner.typeName "items") else .ok none
      | .one inner, none => .error (.noAttribute inner.typeName "items")
      | .many (_ :: _), none => .error (.noAttribute "tuple" "items")
      | _, none => .ok none

def defaults : Schema → Except Misuse (Option (List (Value × Parameter))) :=
  fieldParameters .default "default"

def fallbacks : Schema → Except Misuse (Option (List (Value × Parameter))) :=
  fieldParameters .fallback "fallback"

end Schema

end Conform
