import Conform.Schema

/-!
Descriptions of composed validators: how constructors pass parameters and documentation on, and how
documentation is attached.
-/
namespace Conform

namespace Metadata

/-- A description of a kind that has nothing else to say. -/
def ofKind (kind : Kind) : Metadata := ⟨kind, [], .absent, .empty, .missing⟩

def withParameters (kind : Kind) (parameters : List (String × Value)) : Metadata :=
  { ofKind kind with parameters := parameters.map fun entry => (entry.1, .value entry.2) }

def withChildren (kind : Kind) (children : Children) : Metadata :=
  { ofKind kind with children := children }

/-- The documentation of an optional description. -/
def docsOf (metadata : Option Metadata) : Documentation := (metadata.map (·.docs)).getD .empty

def parametersOf (metadata : Option Metadata) : List (String × Parameter) :=
  (metadata.map (·.parameters)).getD []

/-- Documentation along a sequence of steps: what a later step says wins. -/
def mergeDocs (steps : List (Option Metadata)) : Documentation :=
  steps.foldl (fun docs step => docs.overlay (docsOf step)) .empty

/-- Parameters along a sequence of steps: a later step gives a repeated one its value. -/
def mergeParameters (steps : List (Option Metadata)) : List (String × Parameter) :=
  steps.foldl (fun parameters step => Entries.merge parameters (parametersOf step)) []

end Metadata

namespace Children

def ofValidator (v : Validator) : Children := .one (.validator v)

def ofValidators (vs : List Validator) : Children := .many (vs.map .validator)

def ofFields (fields : List (Value × Validator)) : Children :=
  .fields (fields.map fun field => (field.1, .validator field.2))

end Children

namespace Validator

def of (rule : Rule) (metadata : Option Metadata) : Validator := ⟨rule, metadata, none⟩

def described (rule : Rule) (metadata : Metadata) : Validator := of rule (some metadata)

/-- The description of a wrapper: the documentation of what it wraps, without the deprecation and
read-only marks, and the wrapped validator as child. -/
def wrapping (kind : Kind) (inner : Validator) (parameters : List (String × Value)) : Metadata where
  kind := kind
  parameters := parameters.map fun entry => (entry.1, .value entry.2)
  children := .ofValidator inner
  docs := (Metadata.docsOf inner.metadata).kept
  default := .missing

def withMetadata (v : Validator) (metadata : Option Metadata) : Validator :=
  { v with metadata := metadata }

/-- The validator with its documentation changed; one without description becomes of unknown
kind. -/
def redocument (v : Validator) (change : Documentation → Documentation) : Validator :=
  let metadata := v.metadata.getD (.ofKind .unknown)
  v.withMetadata (some { metadata with docs := change metadata.docs })

def document (v : Validator) (docs : Documentation) : Validator := v.redocument (·.overlay docs)

/-- The validator tagged with a brand; null takes the brand away. -/
def brand (v : Validator) (name : Value) : Validator :=
  v.redocument fun docs => { docs with brand := Documentation.said name }

/-- The validator with its output marked as read-only. -/
def readonly (v : Validator) : Validator :=
  v.document { Documentation.empty with readonly := some (.bool true) }

end Validator

end Conform
