import Conform.Configuration
import Conform.Proofs.Parsing.EntryPoints
import Conform.Proofs.Value.Entries
import Mathlib.Data.List.Induction

/-!
Configured messages. Any number of messages are set and deleted, for texts, for kinds of schemas and
for everything; what is left of them is, scope by scope, what the last change left there
(`MessageChange.get?_performed`). The parse helpers then give the verdict of the validation, with
the message of each issue replaced by the one configured for it (`Schema.helpers_under_messages`).
-/
namespace Conform

def Issue.text? (issue : Issue) : Option String :=
  match issue.message with
  | .str text => some text
  | _ => none

/-- A change of the configured messages. -/
inductive MessageChange where
  | set (scope : MessageScope) (message : ConfiguredMessage)
  | delete (scope : MessageScope)

namespace MessageChange

def scope : MessageChange → MessageScope
  | .set scope _ | .delete scope => scope

def message? : MessageChange → Option ConfiguredMessage
  | .set _ message => some message
  | .delete _ => none

def applied (settings : Settings) : MessageChange → Settings
  | .set scope message => settings.setMessage scope message
  | .delete scope => settings.deleteMessage scope

def perform : MessageChange → Eval Unit
  | .set scope message => Eval.setMessage scope message
  | .delete scope => Eval.deleteMessage scope

def performAll : List MessageChange → Eval Unit
  | [] => pure ()
  | change :: rest => do
    change.perform
    performAll rest

/-- The message that stands for a scope after a history of changes: the one last set and not deleted
since. -/
def standing? (history : List MessageChange) (scope : MessageScope) : Option ConfiguredMessage :=
  (history.reverse.find? fun change => change.scope = scope).bind message?

/-- The message in charge of an issue after a history of changes: the one for its built-in text,
else the one for the kind of the schema, else the one for everything. -/
def inCharge? (history : List MessageChange) (kind : Option String) (issue : Issue) :
    Option ConfiguredMessage :=
  (issue.text?.bind fun builtIn => standing? history (.message builtIn)).or <|
    (kind.bind fun name => standing? history (.kind name)).or (standing? history .everything)

end MessageChange

namespace ConfiguredMessage

/-- The message is a text, or computes one from every issue without a fault. -/
def Speaks : ConfiguredMessage → Prop
  | .text _ => True
  | .nothing => False
  | .computed render => ∀ issue trace, ∃ text after, (render issue).Returns trace (.str text) after

/-- What an issue is shown as under the message in charge of it: its own message when there is
none. -/
inductive Renders (issue : Issue) : Option ConfiguredMessage → Trace → Value → Trace → Prop where
  | kept {trace : Trace} : Renders issue none trace issue.message trace
  | text {message : String} {trace : Trace} :
    Renders issue (some (.text message)) trace (.str message) trace
  | computed {render : Issue → Traced Value} {message : Value} {trace after : Trace} :
    (render issue).Returns trace message after →
    Renders issue (some (.computed render)) trace message after

/-- Issues in order, each with nothing but its message replaced by what it is shown as. -/
inductive RendersAll (inCharge? : Issue → Option ConfiguredMessage) :
    List Issue → Trace → List Issue → Trace → Prop where
  | nil {trace : Trace} : RendersAll inCharge? [] trace [] trace
  | cons {issue : Issue} {rest others : List Issue} {message : Value}
      {trace between after : Trace} :
    Renders issue (inCharge? issue) trace message between →
    RendersAll inCharge? rest between others after →
    RendersAll inCharge? (issue :: rest) trace ({ issue with message := message } :: others) after

/-- Messages that are rendered to what they were leave the issues as they are. -/
theorem RendersAll.eq_of_messages {inCharge? : Issue → Option ConfiguredMessage}
    {issues localized : List Issue} {before after : Trace}
    (rendered : RendersAll inCharge? issues before localized after)
    (same : localized.map (·.message) = issues.map (·.message)) : localized = issues := by
  induction rendered with
  | nil => rfl
  | cons _ _ ih =>
    obtain ⟨first, others⟩ := List.cons.inj same
    cases first
    rw [ih others]

/-- Messages are compared as they are when the built-in ones are text. -/
theorem RendersAll.eq_of_same {inCharge? : Issue → Option ConfiguredMessage}
    {issues localized : List Issue} {before after : Trace}
    (rendered : RendersAll inCharge? issues before localized after)
    (worded : ∀ issue ∈ issues, issue.message.isStr)
    (same : (localized.zip issues).all fun pair => pair.1.message == pair.2.message) :
    localized = issues := by
  refine rendered.eq_of_messages ?_
  induction rendered with
  | nil => rfl
  | cons _ _ ih =>
    simp only [List.zip_cons_cons, List.all_cons, Bool.and_eq_true] at same
    obtain ⟨first, others⟩ := same
    obtain ⟨text, further⟩ := List.forall_mem_cons.mp worded
    obtain ⟨builtIn, said⟩ := Value.isStr_iff.mp text
    rw [said] at first
    rw [List.map_cons, List.map_cons, ih further others, said, Value.eq_str_of_beq first]

/-- A message that speaks renders every issue, as a text. -/
theorem exists_renders {source : Option ConfiguredMessage} {issue : Issue}
    (speaks : ∀ message, source = some message → message.Speaks) (worded : issue.message.isStr)
    (trace : Trace) : ∃ text after, Renders issue source trace (.str text) after := by
  cases source with
  | none =>
    obtain ⟨text, said⟩ := Value.isStr_iff.mp worded
    exact ⟨text, trace, said ▸ .kept⟩
  | some message =>
    cases message with
    | text message => exact ⟨message, trace, .text⟩
    | nothing => exact (speaks _ rfl).elim
    | computed render =>
      obtain ⟨text, after, rendered⟩ := speaks _ rfl issue trace
      exact ⟨text, after, .computed rendered⟩

end ConfiguredMessage

namespace MessageChange

def configured (world : World) (history : List MessageChange) : World :=
  { world with settings := history.foldl applied world.settings }

theorem returns_perform (change : MessageChange) (world : World) :
    change.perform.Returns world () (configured world [change]) := by
  cases change <;> rfl

/-- Changes are made without a fault, and change nothing but the settings. -/
theorem returns_performAll (history : List MessageChange) (world : World) :
    (performAll history).Returns world () (configured world history) := by
  induction history generalizing world with
  | nil => exact Eval.returns_pure.mpr ⟨rfl, rfl⟩
  | cons change rest ih =>
    exact Eval.returns_bind.mpr ⟨(), configured world [change], returns_perform change world, ih _⟩

/-- A change decides the message of its scope and no other. -/
theorem get?_applied (settings : Settings) (change : MessageChange) (scope : MessageScope) :
    (applied settings change).get? scope =
      if change.scope = scope then change.message?.getD .nothing else settings.get? scope := by
  cases change with
  | set target message =>
    cases target <;> cases scope <;>
      simp only [applied, Settings.setMessage, Settings.get?, MessageChange.scope, message?,
        Entries.get?_insert, beq_iff_eq, MessageScope.kind.injEq, MessageScope.message.injEq,
        reduceCtorEq, ↓reduceIte, Option.getD_some]
    all_goals split <;> rfl
  | delete target =>
    cases target <;> cases scope <;>
      simp only [applied, Settings.deleteMessage, Settings.get?, MessageChange.scope, message?,
        Entries.get?_erase, beq_iff_eq, MessageScope.kind.injEq, MessageScope.message.injEq,
        reduceCtorEq, ↓reduceIte, Option.getD_none]
    all_goals split <;> rfl

/-- The message that stands after a further change is the changed one, in the scope of the change.
-/
theorem standing?_concat (history : List MessageChange) (change : MessageChange)
    (scope : MessageScope) :
    standing? (history ++ [change]) scope =
      if change.scope = scope then change.message? else standing? history scope := by
  unfold standing?
  rw [List.reverse_append, List.reverse_singleton, List.singleton_append, List.find?_cons]
  by_cases here : change.scope = scope
  · simp only [here, decide_true, ↓reduceIte, Option.bind_some]
  · simp only [here, decide_false, ↓reduceIte]

/-- What is configured for a scope in the end is what the last change of the scope left there. -/
theorem get?_configured {settings : Settings} (unconfigured : settings.Unconfigured)
    (history : List MessageChange) (scope : MessageScope) :
    (history.foldl applied settings).get? scope = (standing? history scope).getD .nothing := by
  induction history using List.reverseRecOn with
  | nil => exact unconfigured scope
  | append_singleton earlier change ih =>
    rw [List.foldl_append, List.foldl_cons, List.foldl_nil, get?_applied, standing?_concat, ih]
    split <;> rfl

/-- All messages that are set speak. -/
def AllSpeak (history : List MessageChange) : Prop :=
  ∀ change ∈ history, ∀ message, change.message? = some message → message.Speaks

section Speaking

variable {history : List MessageChange} (speak : AllSpeak history)
include speak

theorem AllSpeak.standing {scope : MessageScope} {message : ConfiguredMessage}
    (stands : standing? history scope = some message) : message.Speaks := by
  obtain ⟨change, found, left⟩ := Option.bind_eq_some_iff.mp stands
  exact speak change (List.mem_reverse.mp (List.mem_of_find?_eq_some found)) message left

/-- The message in charge is one of those set, so it speaks if all of them do. -/
theorem AllSpeak.inCharge {kind : Option String} {issue : Issue} {message : ConfiguredMessage}
    (charged : inCharge? history kind issue = some message) : message.Speaks := by
  rcases Option.or_eq_some_iff.mp charged with specific | ⟨-, charged⟩
  · obtain ⟨builtIn, -, stands⟩ := Option.bind_eq_some_iff.mp specific
    exact speak.standing stands
  · rcases Option.or_eq_some_iff.mp charged with ofKind | ⟨-, every⟩
    · obtain ⟨name, -, stands⟩ := Option.bind_eq_some_iff.mp ofKind
      exact speak.standing stands
    · exact speak.standing every

/-- The settings resolve the message of an issue to the one in charge. -/
theorem AllSpeak.resolve {settings : Settings} (unconfigured : settings.Unconfigured)
    (kind : Option String) (issue : Issue) :
    (history.foldl applied settings).resolve issue.message kind =
      (inCharge? history kind issue).getD .nothing := by
  have lookup := get?_configured unconfigured history
  have every : (history.foldl applied settings).everyMessage =
      (standing? history .everything).getD .nothing := lookup .everything
  -- a message that stands is never the absent one, so the first that is found is the first that
  -- stands
  have first : ∀ (scope : MessageScope) (rest : List ConfiguredMessage),
      Settings.firstMessage ((standing? history scope).getD .nothing :: rest) =
        (standing? history scope).getD (Settings.firstMessage rest) := by
    intro scope rest
    cases stands : standing? history scope with
    | none => rfl
    | some message =>
      cases message with
      | nothing => exact (speak.standing stands).elim
      | text | computed => rfl
  have skipped : ∀ rest, Settings.firstMessage (.nothing :: rest) = Settings.firstMessage rest :=
    fun _ => rfl
  have last : Settings.firstMessage [] = .nothing := rfl
  have chosen : ∀ earlier later : Option ConfiguredMessage,
      (earlier.or later).getD .nothing = earlier.getD (later.getD .nothing) := by
    intro earlier later
    cases earlier <;> rfl
  unfold Settings.resolve inCharge? Issue.text?
  rw [chosen, chosen]
  cases issue.message <;> cases kind <;>
    simp only [lookup, every, first, skipped, last, Option.elim, Option.bind_some, Option.bind_none,
      Option.getD_none]

end Speaking

end MessageChange

/-- An issue whose message is text shows whatever text it is given. -/
theorem Issue.retitled_str {issue : Issue} (worded : issue.message.isStr) (text : String) :
    issue.retitled (.str text) = { issue with message := .str text } := by
  obtain ⟨builtIn, said⟩ := Value.isStr_iff.mp worded
  unfold retitled
  split
  · rename_i same
    rw [said] at same
    have equal : text = builtIn := eq_of_beq same
    rw [equal, ← said]
  · rfl

namespace Failure

open ConfiguredMessage

/-- The failure as it is shown under the messages in charge of its issues. When no message changes
the line is the same, a line that ends in the message of the first issue then ends in the new one,
and an exception has the line and the issues as they are. -/
structure Localized (inCharge? : Issue → Option ConfiguredMessage) (failure localized : Failure)
    (before after : Trace) : Prop where
  issues : RendersAll inCharge? failure.issues before localized.issues after
  line : localized.issues.map (·.message) = failure.issues.map (·.message) →
    localized.line = failure.line
  exchanged : ∀ heading message : String, failure.line = .str (heading ++ message) →
    failure.first.message = .str message →
    ∃ shown, localized.first.message = .str shown ∧ localized.line = .str (heading ++ shown)
  raised : localized.raised = localized

/-- A line that is text, before and after texts are exchanged at its end. -/
theorem relined_str (line before after : String) : relined (.str line) (.str before) (.str after) =
    .ok (.str (if before.toList.isSuffixOf line.toList then
      String.ofList (withoutLast before.length line.toList) ++ after else line)) := by
  cases ends : before.toList.isSuffixOf line.toList <;>
    simp only [relined, textEndsIn, ends, bind, Except.bind, pure, Except.pure, ↓reduceIte,
      Bool.false_eq_true, Value.length?, Option.getD_some]

theorem withoutLast_append {α : Type} (front back : List α) :
    withoutLast back.length (front ++ back) = front := by
  have fits : back.length ≤ (front ++ back).length := by
    rw [List.length_append]
    omega
  unfold withoutLast
  rw [if_pos fits, List.length_append, Nat.add_sub_cancel, List.take_left]

/-- A text at the end of a line is exchanged for another one. -/
theorem relined_append (heading before after : String) :
    relined (.str (heading ++ before)) (.str before) (.str after) =
      .ok (.str (heading ++ after)) := by
  have ends : before.toList.isSuffixOf (heading ++ before).toList = true := by
    rw [String.toList_append, List.isSuffixOf_iff_suffix]
    exact List.suffix_append _ _
  rw [relined_str, if_pos ends, String.toList_append, ← String.length_toList, withoutLast_append,
    String.ofList_toList]

variable {inCharge? : Issue → Option ConfiguredMessage} {kind : Option String} {world : World}

/-- An issue is localised to what the message in charge renders, and otherwise stays as it is. -/
theorem returns_localizeIssue {issue : Issue} (worded : issue.message.isStr)
    (resolves : world.settings.resolve issue.message kind = (inCharge? issue).getD .nothing)
    {text : String} {trace : Trace}
    (renders : Renders issue (inCharge? issue) world.trace (.str text) trace) :
    (localizeIssue kind issue).Returns world { issue with message := .str text }
      (world.traced trace) := by
  obtain ⟨builtIn, said⟩ := Value.isStr_iff.mp worded
  have hashable : issue.message.unhashable? = none := by rw [said]; rfl
  have retitled := Issue.retitled_str worded text
  unfold localizeIssue
  simp only [hashable]
  refine Eval.returns_bind.mpr ⟨world, world, Eval.returns_get.mpr ⟨rfl, rfl⟩, ?_⟩
  rw [resolves]
  generalize inCharge? issue = source at renders
  generalize shown : Value.str text = message at renders
  cases renders with
  | kept => exact Eval.returns_pure.mpr ⟨rfl, rfl⟩
  | text =>
    cases shown
    exact Eval.returns_pure.mpr ⟨retitled, rfl⟩
  | computed rendered =>
    cases shown
    exact Eval.returns_bind.mpr ⟨.str text, world.traced trace,
      Eval.returns_perform.mpr ⟨trace, rendered, rfl⟩, Eval.returns_pure.mpr ⟨retitled, rfl⟩⟩

/-- Issues with text as messages that are rendered in turn are localized to what they are rendered
as, when this is text too. -/
theorem returns_localizeIssues {issues localized : List Issue} {trace : Trace}
    (rendered : RendersAll inCharge? issues world.trace localized trace)
    (resolves : ∀ issue, world.settings.resolve issue.message kind =
      (inCharge? issue).getD .nothing)
    (worded : ∀ issue ∈ issues, issue.message.isStr)
    (texts : ∀ issue ∈ localized, issue.message.isStr) :
    (localizeIssues kind issues).Returns world localized (world.traced trace) := by
  generalize began : world.trace = before at rendered
  induction rendered generalizing world with
  | nil =>
    cases began
    exact Eval.returns_pure.mpr ⟨rfl, rfl⟩
  | @cons issue rest others message _ between after renders _ ih =>
    cases began
    obtain ⟨first, further⟩ := List.forall_mem_cons.mp worded
    obtain ⟨shown, shownRest⟩ := List.forall_mem_cons.mp texts
    obtain ⟨text, said⟩ := Value.isStr_iff.mp shown
    change message = .str text at said
    subst said
    refine Eval.returns_bind.mpr
      ⟨_, world.traced between, returns_localizeIssue first (resolves issue) renders, ?_⟩
    have returned : (localizeIssues kind rest).Returns (world.traced between) others
        ((world.traced between).traced after) := ih resolves further shownRest rfl
    exact Eval.returns_bind.mpr ⟨others, _, returned, Eval.returns_pure.mpr ⟨rfl, rfl⟩⟩

/-- A failure in words whose issues are rendered as text is localized. -/
theorem exists_localize_of_rendersAll {failure : Failure} {issues : List Issue} {trace : Trace}
    (rendered : RendersAll inCharge? failure.issues world.trace issues trace)
    (resolves : ∀ issue, world.settings.resolve issue.message kind =
      (inCharge? issue).getD .nothing)
    (worded : failure.Worded) (texts : ∀ issue ∈ issues, issue.message.isStr) :
    ∃ localized, failure.Localized inCharge? localized world.trace trace ∧
      (failure.localize kind).Returns world localized (world.traced trace) := by
  have returned := returns_localizeIssues rendered resolves worded.messages texts
  obtain ⟨first, between, one, rest⟩ := Eval.returns_bind.mp returned
  obtain ⟨others, after, further, done⟩ := Eval.returns_bind.mp rest
  obtain ⟨rfl, rfl⟩ := Eval.returns_pure.mp done
  obtain ⟨line, said⟩ := Value.isStr_iff.mp worded.line
  obtain ⟨before, saidFirst⟩ := Value.isStr_iff.mp (worded.messages _ List.mem_cons_self)
  obtain ⟨shown, shownFirst⟩ := Value.isStr_iff.mp (texts _ List.mem_cons_self)
  have localizes : ∀ result, (if ((first :: others).zip failure.issues).all
      (fun pair => pair.1.message == pair.2.message) then pure failure else do
        let line ← Eval.ofConstruction (relined failure.line failure.first.message first.message)
        return ⟨line, first, others⟩ : Eval Failure).Returns (world.traced trace) result
          (world.traced trace) →
      (failure.localize kind).Returns world result (world.traced trace) := fun result last =>
    Eval.returns_bind.mpr ⟨first, between, one, Eval.returns_bind.mpr ⟨others, _, further, last⟩⟩
  cases same : ((first :: others).zip failure.issues).all
    (fun pair => pair.1.message == pair.2.message) with
  | true =>
    have kept : first :: others = failure.issues := rendered.eq_of_same worded.messages same
    refine ⟨failure, ⟨?_, fun _ => rfl, ?_, raised_of_line ?_⟩, localizes failure ?_⟩
    · exact kept ▸ rendered
    · exact fun heading message headed builtIn => ⟨message, builtIn, headed⟩
    · rw [said]
      exact nofun
    · rw [same]
      exact Eval.returns_pure.mpr ⟨rfl, rfl⟩
  | false =>
    obtain ⟨exchanged, relines⟩ : ∃ text,
        relined failure.line failure.first.message first.message = .ok (.str text) := by
      rw [said, saidFirst, shownFirst, relined_str]
      exact ⟨_, rfl⟩
    refine ⟨⟨.str exchanged, first, others⟩, ⟨rendered, ?_, ?_, rfl⟩, localizes _ ?_⟩
    · intro unchanged
      have kept : first :: others = failure.issues := rendered.eq_of_messages unchanged
      rw [kept, same_messages_self] at same
      cases same
    · intro heading message headed builtIn
      rw [headed, builtIn, shownFirst, relined_append] at relines
      cases relines
      exact ⟨shown, shownFirst, rfl⟩
    · rw [same]
      exact Eval.returns_bind.mpr ⟨_, _, Eval.returns_ofConstruction.mpr ⟨relines, rfl⟩,
        Eval.returns_pure.mpr ⟨rfl, rfl⟩⟩

section Speaking

variable (speaks : ∀ issue message, inCharge? issue = some message → message.Speaks)
include speaks

/-- Issues with text as messages are rendered in turn, each as one with text as message. -/
theorem exists_rendersAll {issues : List Issue} (worded : ∀ issue ∈ issues, issue.message.isStr)
    (trace : Trace) : ∃ localized after, RendersAll inCharge? issues trace localized after ∧
      ∀ issue ∈ localized, issue.message.isStr := by
  induction issues generalizing trace with
  | nil => exact ⟨[], trace, .nil, nofun⟩
  | cons issue rest ih =>
    obtain ⟨first, further⟩ := List.forall_mem_cons.mp worded
    obtain ⟨text, between, renders⟩ := exists_renders (speaks issue) first trace
    obtain ⟨others, after, rendered, texts⟩ := ih further between
    exact ⟨{ issue with message := .str text } :: others, after, .cons renders rendered,
      List.forall_mem_cons.mpr ⟨rfl, texts⟩⟩

/-- A failure in words is localized. -/
theorem exists_localize (world : World) {failure : Failure}
    (resolves : ∀ issue, world.settings.resolve issue.message kind =
      (inCharge? issue).getD .nothing)
    (worded : failure.Worded) :
    ∃ localized trace, failure.Localized inCharge? localized world.trace trace ∧
      (failure.localize kind).Returns world localized (world.traced trace) := by
  obtain ⟨issues, trace, rendered, texts⟩ := exists_rendersAll speaks worded.messages world.trace
  obtain ⟨localized, shows, returned⟩ :=
    exists_localize_of_rendersAll rendered resolves worded texts
  exact ⟨localized, trace, shows, returned⟩

end Speaking

end Failure

namespace Schema

open MessageChange

variable {schema : Schema} {v : Validator} {start : World} {history : List MessageChange}

/-- A failure in words that the validation reports is given by every parse helper under the messages
that the settings resolve its own to. -/
theorem exists_helpersReject (read : schema.toValidator = .ok v) {x : Value} {world after : World}
    {failure : Failure} (reported : (v.safe x).Reports world failure after)
    (worded : failure.Worded)
    {inCharge? : Issue → Option ConfiguredMessage}
    (speaks : ∀ issue message, inCharge? issue = some message → message.Speaks)
    (resolves : ∀ issue, world.settings.resolve issue.message (v.metadata.map (·.kind.name)) =
      (inCharge? issue).getD .nothing) :
    ∃ localized trace, failure.Localized inCharge? localized after.trace trace ∧
      schema.HelpersReject x localized world (after.traced trace) := by
  have framed := Validator.framed_of_reports reported
  obtain ⟨localized, trace, shows, localizes⟩ :=
    Failure.exists_localize speaks after (framed.settings ▸ resolves) worded
  exact ⟨localized, trace, shows,
    helpersReject read (Validator.parseOutcome_of_reports reported localizes)⟩

/-- After any history of changes the parse helpers give the verdict of the validation: they accept
with its value, or reject with its failure, in which every issue has kept all but its message, and
that is the one in charge of the issue. -/
theorem helpers_under_messages (read : schema.toValidator = .ok v)
    (unconfigured : start.settings.Unconfigured) (speak : AllSpeak history) (x : Value) :
    ∃ world, (performAll history).Returns start () world ∧
      (∀ y after, (schema.validate x).Returns world (.ok y) after →
        schema.HelpersAccept x y world after) ∧
      ∀ failure after, (schema.validate x).Returns world (.err failure) after → failure.Worded →
        ∃ localized trace,
          failure.Localized (inCharge? history (v.metadata.map (·.kind.name))) localized
            after.trace trace ∧
          schema.HelpersReject x localized world (after.traced trace) := by
  refine ⟨configured start history, returns_performAll history start, ?_, ?_⟩
  · intro y after validated
    have returned := Checked.returns_outcome_ok.mp ((returns_validate_iff read).mp validated)
    exact helpersAccept read (Validator.parseOutcome_of_returns returned)
  · intro failure after validated worded
    have reported := Checked.returns_outcome_err.mp ((returns_validate_iff read).mp validated)
    exact exists_helpersReject read reported worded (fun _ _ charged => speak.inCharge charged)
      fun issue => speak.resolve unconfigured _ issue

/-- A person with an age. -/
private def person : Validator := .object [(.str "age", .leaf .integer)]

/-- Messages for everything, for objects and for one text, of which the one for objects is taken
away again. -/
private def announcements : List MessageChange :=
  [.set .everything (.text "Invalid"), .set (.kind "object") (.text "No person"),
    .set (.message "Expected integer") (.showing "Needed: " .expected ""), .delete (.kind "object")]

private theorem announcements_speak : AllSpeak announcements := by
  have shown : (ConfiguredMessage.showing "Needed: " .expected "").Speaks :=
    fun issue trace => ⟨_, trace, rfl⟩
  refine List.forall_mem_cons.mpr ⟨?_, List.forall_mem_cons.mpr ⟨?_, List.forall_mem_cons.mpr ⟨?_,
    List.forall_mem_singleton.mpr ?_⟩⟩⟩ <;> rintro message ⟨⟩
  · trivial
  · trivial
  · exact shown

/-- An age in words is refused by every helper with the message for the text, shown for the
issue. -/
theorem person_helpers_under_messages :
    (Schema.validator person).toValidator = .ok person ∧
    (World.initial "people").settings.Unconfigured ∧ AllSpeak announcements ∧
    ∃ world localized after, (performAll announcements).Returns (World.initial "people") () world ∧
      localized.issues.map (·.message) = [.str "Needed: integer"] ∧
      (Schema.validator person).HelpersReject (.dict [(.str "age", .str "ten")]) localized world
        after := by
  have unconfigured : (World.initial "people").settings.Unconfigured :=
    Settings.unconfigured_initial "people"
  refine ⟨rfl, unconfigured, announcements_speak, ?_⟩
  have read : (Schema.validator person).toValidator = .ok person := rfl
  obtain ⟨world, performed, -, rejects⟩ := helpers_under_messages read unconfigured
    announcements_speak (.dict [(.str "age", .str "ten")])
  cases performed.symm.trans (returns_performAll announcements (.initial "people"))
  obtain ⟨localized, trace, shows, rejected⟩ := rejects
    (Failure.within (.str "age") "age" (.expecting "Expected integer" "integer")) _ rfl
    ⟨rfl, fun issue member => by cases List.mem_singleton.mp member; rfl⟩
  refine ⟨_, localized, _, performed, ?_, rejected⟩
  obtain ⟨line, first, others⟩ := localized
  cases shows.issues with
  | cons renders rest =>
    cases rest
    cases renders with
    | computed rendered =>
      cases rendered
      rfl

end Schema

end Conform
