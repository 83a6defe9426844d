import Conform.Proofs.Parsing.ConfiguredMessages

/-!
Configured messages that raise. The parse helpers render the issues of a failure one after the
other, and nothing is caught on the way: the first message that raises ends them in its own fault
(`ConfiguredMessage.BreaksOff`), and only a failure none of whose messages raises is given as a
failure (`Schema.rejects_or_breaks_off`). Which messages raise at issues that they are not in charge
of makes no difference.
-/
namespace Conform

namespace Settings

/-- The message in charge of an issue, if there is one: that for its built-in text, else that for
the kind of the schema, else that for everything. -/
def inCharge? (settings : Settings) (kind : Option String) (issue : Issue) :
    Option ConfiguredMessage :=
  match settings.resolve issue.message kind with
  | .nothing => none
  | .text message => some (.text message)
  | .computed render => some (.computed render)

theorem resolve_eq_inCharge? (settings : Settings) (kind : Option String) (issue : Issue) :
    settings.resolve issue.message kind = (settings.inCharge? kind issue).getD .nothing := by
  unfold inCharge?
  cases settings.resolve issue.message kind <;> rfl

/-- The first message among several is one of them, unless all are empty. -/
theorem mem_of_firstMessage {messages : List ConfiguredMessage} {message : ConfiguredMessage}
    (first : firstMessage messages = message) (present : message ≠ .nothing) :
      message ∈ messages := by
  induction messages with
  | nil => exact absurd first.symm present
  | cons head rest ih =>
    cases head with
    | nothing => exact .tail _ (ih first)
    | text | computed =>
      cases first
      exact .head _

/-- A message in charge of an issue is configured for some scope. -/
theorem exists_scope_of_inCharge? {settings : Settings} {kind : Option String} {issue : Issue}
    {message : ConfiguredMessage} (charged : settings.inCharge? kind issue = some message) :
    ∃ scope, settings.get? scope = message := by
  have resolved : settings.resolve issue.message kind = message := by
    rw [resolve_eq_inCharge?, charged, Option.getD_some]
  have present : message ≠ .nothing := by
    unfold inCharge? at charged
    cases found : settings.resolve issue.message kind <;> rw [found] at charged <;>
      cases charged <;>
      exact fun none => by cases none
  have among := mem_of_firstMessage resolved present
  simp only [List.mem_cons, List.not_mem_nil, or_false] at among
  rcases among with specific | ofKind | every
  · cases said : issue.message with
    | str builtIn =>
      rw [said] at specific
      exact ⟨.message builtIn, specific.symm⟩
    | _ =>
      rw [said] at specific
      exact absurd specific present
  · cases kind with
    | none => exact absurd ofKind present
    | some name => exact ⟨.kind name, ofKind.symm⟩
  · exact ⟨.everything, every.symm⟩

end Settings

/-- The message is text where it is computed at all; it may raise instead. -/
def ConfiguredMessage.Textual : ConfiguredMessage → Prop
  | .text _ | .nothing => True
  | .computed render => ∀ issue trace message after,
      (render issue).Returns trace message after → message.isStr

/-- Every configured message is text, or raises. -/
def Settings.Textual (settings : Settings) : Prop := ∀ scope, (settings.get? scope).Textual

/-- After any changes that set no other message, every configured message is text, or raises. -/
theorem MessageChange.textual_configured {start : World}
    (unconfigured : start.settings.Unconfigured) {history : List MessageChange}
    (each : ∀ change ∈ history, ∀ message, change.message? = some message → message.Textual) :
    (configured start history).settings.Textual := by
  intro scope
  change ((history.foldl applied start.settings).get? scope).Textual
  rw [get?_configured unconfigured]
  cases stands : standing? history scope with
  | none => trivial
  | some message =>
    obtain ⟨change, found, left⟩ := Option.bind_eq_some_iff.mp stands
    exact each change (List.mem_reverse.mp (List.mem_of_find?_eq_some found)) message left

namespace ConfiguredMessage

/-- Issues in order up to the first one whose message raises. -/
inductive BreaksOff (inCharge? : Issue → Option ConfiguredMessage) :
    List Issue → Trace → Fault → Trace → Prop where
  | here {issue : Issue} {rest : List Issue} {render : Issue → Traced Value} {trace after : Trace}
      {fault : Fault}
    (charged : inCharge? issue = some (.computed render))
      (raised : (render issue).Faults trace fault after) :
    BreaksOff inCharge? (issue :: rest) trace fault after
  | later {issue : Issue} {rest : List Issue} {message : Value} {trace between after : Trace}
      {fault : Fault}
    (renders : Renders issue (inCharge? issue) trace message between)
    (further : BreaksOff inCharge? rest between fault after) :
    BreaksOff inCharge? (issue :: rest) trace fault after

variable {settings : Settings} {kind : Option String}

/-- What issues with text as messages are rendered as is text. -/
theorem Renders.isStr (texts : settings.Textual) {issue : Issue} (worded : issue.message.isStr)
    {message : Value} {trace after : Trace}
    (renders : Renders issue (settings.inCharge? kind issue) trace message after) :
      message.isStr := by
  generalize charged : settings.inCharge? kind issue = source at renders
  cases renders with
  | kept => exact worded
  | text => rfl
  | computed returned =>
    obtain ⟨scope, configured⟩ := Settings.exists_scope_of_inCharge? charged
    have textual := texts scope
    rw [configured] at textual
    exact textual issue _ _ _ returned

/-- Rendered by texts, messages that were texts stay texts. -/
theorem RendersAll.isStr (texts : settings.Textual) {issues localized : List Issue}
    {trace after : Trace}
    (rendered : RendersAll (settings.inCharge? kind) issues trace localized after)
    (worded : ∀ issue ∈ issues, issue.message.isStr) : ∀ issue ∈ localized,
      issue.message.isStr := by
  induction rendered with
  | nil => exact worded
  | cons renders _ ih =>
    obtain ⟨first, further⟩ := List.forall_mem_cons.mp worded
    exact List.forall_mem_cons.mpr ⟨renders.isStr texts first, ih further⟩

/-- A message renders an issue or raises. -/
theorem renders_or_raises (issue : Issue) (source : Option ConfiguredMessage) (trace : Trace)
    (present : source ≠ some .nothing) :
    (∃ message after, Renders issue source trace message after) ∨
      ∃ render fault after, source = some (.computed render) ∧
        (render issue).Faults trace fault after := by
  cases source with
  | none => exact .inl ⟨_, trace, .kept⟩
  | some message =>
    cases message with
    | text message => exact .inl ⟨_, trace, .text⟩
    | nothing => exact absurd rfl present
    | computed render =>
      cases ended : (render issue).ending trace with
      | mk answer after =>
        cases answer with
        | ok message => exact .inl ⟨message, after, .computed ended⟩
        | error fault => exact .inr ⟨render, fault, after, rfl, ended⟩

/-- Issues are all rendered, or a message raises before. -/
theorem rendersAll_or_breaksOff (settings : Settings) (kind : Option String) (issues : List Issue)
    (trace : Trace) :
    (∃ localized after, RendersAll (settings.inCharge? kind) issues trace localized after) ∨
      ∃ fault after, BreaksOff (settings.inCharge? kind) issues trace fault after := by
  induction issues generalizing trace with
  | nil => exact .inl ⟨[], trace, .nil⟩
  | cons issue rest ih =>
    have present : settings.inCharge? kind issue ≠ some .nothing := by
      unfold Settings.inCharge?
      cases settings.resolve issue.message kind <;> exact fun same => by cases same
    rcases renders_or_raises issue _ trace present with ⟨message, between, renders⟩ | ⟨render,
      fault, after, raises⟩
    · rcases ih between with ⟨others, after, rendered⟩ | ⟨fault, after, further⟩
      · exact .inl ⟨_, after, .cons renders rendered⟩
      · exact .inr ⟨fault, after, .later renders further⟩
    · exact .inr ⟨fault, after, .here raises.1 raises.2⟩

end ConfiguredMessage

namespace Failure

open ConfiguredMessage

variable {kind : Option String} {world : World} {fault : Fault} {trace : Trace}

/-- An issue breaks off with the fault of the renderer in charge of it. -/
theorem faults_localizeIssue {issue : Issue} (worded : issue.message.isStr)
    {render : Issue → Traced Value}
    (charged : world.settings.inCharge? kind issue = some (.computed render))
    (raised : (render issue).Faults world.trace fault trace) :
    (localizeIssue kind issue).Faults world fault (world.traced trace) := by
  obtain ⟨builtIn, said⟩ := Value.isStr_iff.mp worded
  have hashable : issue.message.unhashable? = none := by rw [said]; rfl
  have resolved : world.settings.resolve issue.message kind = .computed render := by
    rw [Settings.resolve_eq_inCharge?, charged, Option.getD_some]
  unfold localizeIssue
  simp only [hashable]
  refine Eval.faults_bind.mpr (.inr ⟨world, world, Eval.returns_get.mpr ⟨rfl, rfl⟩, ?_⟩)
  simp only [resolved]
  exact Eval.faults_bind.mpr (.inl (Eval.faults_perform.mpr ⟨trace, raised, rfl⟩))

/-- The fault of the first message that raises ends the localization of the issues. -/
theorem faults_localizeIssues (texts : world.settings.Textual) {issues : List Issue}
    (worded : ∀ issue ∈ issues, issue.message.isStr)
    (breaks : BreaksOff (world.settings.inCharge? kind) issues world.trace fault trace) :
    (localizeIssues kind issues).Faults world fault (world.traced trace) := by
  generalize began : world.trace = before at breaks
  induction issues generalizing world before with
  | nil => cases breaks
  | cons issue rest ih =>
    cases began
    obtain ⟨first, further⟩ := List.forall_mem_cons.mp worded
    cases breaks with
    | here charged raised =>
      exact Eval.faults_bind.mpr (.inl (faults_localizeIssue first charged raised))
    | @later _ _ message _ between _ _ renders breaks =>
      obtain ⟨text, said⟩ := Value.isStr_iff.mp (renders.isStr texts first)
      subst said
      have localized :=
        returns_localizeIssue first (Settings.resolve_eq_inCharge? _ kind issue) renders
      have faulted : (localizeIssues kind rest).Faults (world.traced between) fault
          ((world.traced between).traced trace) := ih texts further between rfl breaks
      exact Eval.faults_bind.mpr (.inr ⟨_, _, localized, Eval.faults_bind.mpr (.inl faulted)⟩)

/-- A failure breaks off with the fault of the first issue whose renderer raises. -/
theorem faults_localize (texts : world.settings.Textual) {failure : Failure}
    (worded : failure.Worded)
    (breaks : BreaksOff (world.settings.inCharge? kind) failure.issues world.trace fault trace) :
    (failure.localize kind).Faults world fault (world.traced trace) := by
  rcases Eval.faults_bind.mp (faults_localizeIssues texts worded.messages breaks) with
    first | ⟨first, between, one, rest⟩
  · exact Eval.faults_bind.mpr (.inl first)
  · rcases Eval.faults_bind.mp rest with others | ⟨others, after, further, ended⟩
    · exact Eval.faults_bind.mpr (.inr ⟨first, between, one, Eval.faults_bind.mpr (.inl others)⟩)
    · exact absurd ended Eval.faults_pure

end Failure

/-- The message in charge of an issue where a validator parses. -/
def Validator.inCharge? (v : Validator) (settings : Settings) : Issue → Option ConfiguredMessage :=
  settings.inCharge? (v.metadata.map (·.kind.name))

namespace Schema

open ConfiguredMessage

variable {schema : Schema} {v : Validator}

/-- When the validation reports a failure in words, the parse helpers give it with every issue
rendered, unless a message in charge of one of its issues raises; then all of them end in the fault
of the first one that does. -/
theorem rejects_or_breaks_off (read : schema.toValidator = .ok v) {x : Value} {world after : World}
    {failure : Failure} (texts : world.settings.Textual)
    (reported : (v.safe x).Reports world failure after)
    (worded : failure.Worded) :
    (∀ fault trace, BreaksOff (v.inCharge? world.settings) failure.issues after.trace fault trace →
      schema.HelpersFault x fault world (after.traced trace)) ∧
    ((¬∃ fault trace,
      BreaksOff (v.inCharge? world.settings) failure.issues after.trace fault trace) →
      ∃ localized trace,
        failure.Localized (v.inCharge? world.settings) localized after.trace trace ∧
        schema.HelpersReject x localized world (after.traced trace)) := by
  have settled : after.settings = world.settings := (Validator.framed_of_reports reported).settings
  constructor
  · intro fault trace breaks
    rw [← settled] at breaks texts
    have faulted := Failure.faults_localize texts worded breaks
    exact helpersFault read (Eval.faults_bind.mpr (.inr ⟨.err failure, after,
      Checked.returns_outcome_err.mpr reported, Eval.faults_bind.mpr (.inl faulted)⟩))
  · intro none
    rcases rendersAll_or_breaksOff world.settings (v.metadata.map (·.kind.name)) failure.issues
      after.trace with
      ⟨issues, trace, rendered⟩ | breaks
    · have resolves : ∀ issue, after.settings.resolve issue.message (v.metadata.map (·.kind.name)) =
          (v.inCharge? world.settings issue).getD .nothing := by
        rw [settled]
        exact Settings.resolve_eq_inCharge? _ _
      obtain ⟨localized, shows, returned⟩ :=
        Failure.exists_localize_of_rendersAll rendered resolves worded
        (rendered.isStr texts worded.messages)
      exact ⟨localized, trace, shows, helpersReject read
        (Validator.parseOutcome_of_reports reported returned)⟩
    · exact absurd breaks none

/-- A check that always reports two issues. -/
private def twice : Validator :=
  .rawCheck [.report none (.str "first") .null, .report none (.str "second") .null]

/-- A message that raises. -/
private def booming : ConfiguredMessage := .computed fun _ => Traced.raise (.ordinary .value "boom")

/-- The world with a message for everything, and one that raises for a single text. -/
private def boomingAt (text : String) : World :=
  MessageChange.configured (World.initial "") [.set .everything (.text "Invalid"),
    .set (.message text) booming]

private theorem boomingAt_textual (text : String) : (boomingAt text).settings.Textual := by
  refine MessageChange.textual_configured (Settings.unconfigured_initial "")
    (List.forall_mem_cons.mpr
    ⟨?_, List.forall_mem_singleton.mpr ?_⟩) <;> rintro message ⟨⟩
  · trivial
  · rintro issue trace message after ⟨⟩

private theorem twice_reports (world : World) : (twice.safe .null).Reports world
    ⟨.str "first", .located (.str "first") [], [.located (.str "second") []]⟩ world := by
  rw [twice, Checked.Reports, Validator.ending_safe]
  rfl

/-- Where the message of the second issue raises, every helper ends in its fault; a message that is
in charge of no issue does no harm. -/
theorem second_message_breaks_off :
    (Schema.validator twice).toValidator = .ok twice ∧ (∀ text, (boomingAt text).settings.Textual) ∧
    (∀ world, ∃ failure, (twice.safe .null).Reports world failure world ∧ failure.Worded) ∧
    (Schema.validator twice).HelpersFault .null (.ordinary .value "boom") (boomingAt "second")
      (boomingAt "second") ∧
    ∃ localized after, localized.issues.map (·.message) = [.str "Invalid", .str "Invalid"] ∧
      (Schema.validator twice).HelpersReject .null localized (boomingAt "third") after := by
  have read : (Schema.validator twice).toValidator = .ok twice := rfl
  have worded :
    (Failure.mk (.str "first") (.located (.str "first") []) [.located (.str "second") []]).Worded :=
    ⟨rfl, List.forall_mem_cons.mpr ⟨rfl, List.forall_mem_singleton.mpr rfl⟩⟩
  refine ⟨read, boomingAt_textual, fun world => ⟨_, twice_reports world, worded⟩, ?_, ?_⟩
  · have breaks :=
      (rejects_or_breaks_off read (boomingAt_textual "second") (twice_reports _) worded).1
    exact breaks _ _ (.later .text (.here rfl rfl))
  · have rejects :=
      (rejects_or_breaks_off read (boomingAt_textual "third") (twice_reports _) worded).2
    obtain ⟨localized, trace, shows, rejected⟩ := rejects <| by
      rintro ⟨fault, trace, breaks⟩
      cases breaks with
      | here charged => cases charged
      | later _ breaks =>
        cases breaks with
        | here charged => cases charged
        | later _ breaks => cases breaks
    refine ⟨localized, _, ?_, rejected⟩
    obtain ⟨line, first, others⟩ := localized
    cases shows.issues with
    | cons renders rest =>
      cases rest with
      | cons further rest =>
        cases rest
        cases renders
        cases further
        rfl

/-- A text is asked for under a message that raises: parsing ends in the fault of the message and
not in a failure, and so does the helper that gives lines instead of raising. -/
theorem raised_message_escapes :
    ∃ world failure,
      (MessageChange.performAll [.set .everything booming]).Returns (World.initial "") () world ∧
      world.settings.Textual ∧
        ((Validator.leaf .string).safe (.int 5)).Reports world failure world ∧
      failure.Worded ∧
      ((Schema.validator (.leaf .string)).parse (.int 5)).Faults world
        (.ordinary .value "boom") world ∧
      ((Schema.validator (.leaf .string)).safeParse (.int 5)).Faults world
        (.ordinary .value "boom") world := by
  refine ⟨_, .expecting "Expected string" "string", MessageChange.returns_performAll _ _, ?_, rfl,
    ⟨rfl, List.forall_mem_singleton.mpr rfl⟩, rfl, rfl⟩
  refine MessageChange.textual_configured (Settings.unconfigured_initial "")
    (List.forall_mem_singleton.mpr ?_)
  rintro message ⟨⟩ issue trace message after ⟨⟩

end Schema

end Conform
