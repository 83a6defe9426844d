import Conform.Callable
import Conform.Entries
import Conform.Report

/-!
Configuration: the vendor name, the default dialect of document schemas, and configured messages for
single texts, for kinds of schemas, and for everything else. Contexts override vendor and dialect
and restore them when they close.
-/
namespace Conform

/-- A configured message: a text, nothing, or a text computed from the issue. -/
inductive ConfiguredMessage where
  | text (message : String)
  | nothing
  | computed (render : Issue → Traced Value)

/-- The part of an issue that a computed message shows. -/
inductive IssuePart where
  | message | path | expected | dot
  deriving DecidableEq

def IssuePart.of (part : IssuePart) (issue : Issue) : Except Misuse Value :=
  match part with
  | .message => .ok issue.message
  | .path => (Path.write issue.path).map .str
  | .expected => .ok (.str (issue.expected.getD "None"))
  | .dot => issue.dotPath?.map fun path => .str (path.getD "None")

def ConfiguredMessage.showing (before : String) (part : IssuePart) (after : String) :
    ConfiguredMessage :=
  .computed fun issue => do
    match ← Traced.ofConstruction (part.of issue) with
    | .str shown => pure (.str (before ++ shown ++ after))
    | other => .misuse (.concatenation "str" other.typeName)

/-- Where a configured message applies. -/
inductive MessageScope where
  | everything
  | kind (name : String)
  | message (builtIn : String)
  deriving DecidableEq

/-- The configuration. -/
structure Settings where
  vendor : String
  draft : String
  everyMessage : ConfiguredMessage
  kindMessages : Entries String ConfiguredMessage
  textMessages : Entries String ConfiguredMessage

namespace Settings

/-- The dialects of document schemas with their addresses. -/
def drafts : List (String × String) := [
  ("draft-07", "http://json-schema.org/draft-07/schema#"),
  ("draft-2019-09", "https://json-schema.org/draft/2019-09/schema"),
  ("draft-2020-12", "https://json-schema.org/draft/2020-12/schema")]

def draftAddress? (draft : String) : Option String := drafts.lookup draft

/-- The configuration at the start, under a vendor name. -/
def initial (vendor : String) : Settings := ⟨vendor, "draft-07", .nothing, [], []⟩

def get? (settings : Settings) : MessageScope → ConfiguredMessage
  | .everything => settings.everyMessage
  | .kind name => (settings.kindMessages.get? name).getD .nothing
  | .message builtIn => (settings.textMessages.get? builtIn).getD .nothing

def setMessage (settings : Settings) (scope : MessageScope) (message : ConfiguredMessage) :
    Settings :=
  match scope with
  | .everything => { settings with everyMessage := message }
  | .kind name => { settings with kindMessages := settings.kindMessages.insert name message }
  | .message builtIn =>
    { settings with textMessages := settings.textMessages.insert builtIn message }

def deleteMessage (settings : Settings) (scope : MessageScope) : Settings :=
  match scope with
  | .everything => { settings with everyMessage := .nothing }
  | .kind name => { settings with kindMessages := settings.kindMessages.erase name }
  | .message builtIn => { settings with textMessages := settings.textMessages.erase builtIn }

def firstMessage : List ConfiguredMessage → ConfiguredMessage
  | [] => .nothing
  | .nothing :: rest => firstMessage rest
  | message :: _ => message

/-- The message for the built-in text of an issue: configured for the text, for the kind of the
schema, or for everything. -/
def resolve (settings : Settings) (message : Value) (kind : Option String) : ConfiguredMessage :=
  firstMessage [
    match message with
    | .str builtIn => settings.get? (.message builtIn)
    | _ => .nothing,
    kind.elim .nothing fun name => settings.get? (.kind name),
    settings.everyMessage]

end Settings

/-- The settings that a context gives. -/
structure ContextSettings where
  vendor : Option String
  draft : Option String

/-- The settings under which a context opens, unless the dialect is unknown. -/
def Settings.enter (settings : Settings) (context : ContextSettings) : Except Misuse Settings :=
  match context.draft with
  | some draft =>
    if (Settings.draftAddress? draft).isSome then
      .ok { settings with vendor := context.vendor.getD settings.vendor, draft := draft }
    else .error (.unknownDraft draft)
  | none => .ok { settings with vendor := context.vendor.getD settings.vendor }

/-- A context that is open, with the vendor and the dialect in force when it opened. -/
structure OpenContext where
  given : ContextSettings
  vendor : String
  draft : String

/-- The settings after a context closes: what it gave is again as it was when the context opened. -/
def Settings.leave (settings : Settings) (context : OpenContext) : Settings :=
  { settings with
    vendor := if context.given.vendor.isSome then context.vendor else settings.vendor
    draft := if context.given.draft.isSome then context.draft else settings.draft }

end Conform
