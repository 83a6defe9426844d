import Conform.Proofs.Evaluation.LawfulRules
import Conform.Proofs.Evaluation.Worlds
import Conform.Proofs.Parsing.ConfiguredMessages

/-!
The line of a failure. Every construction puts labels before the line and leaves the messages of the
issues alone, or says both anew, so that the line ends in the message of the first issue. The
exception is the key of a record: its failure is marked in front of the line and in front of every
message, and labels that the line already has then lie between the mark and the message.
`Validator.line_in_step` is about keys that fail without labels.
-/
namespace Conform

namespace Failure

/-- What labels put before a line, outermost first. -/
def leading (labels : List String) : String :=
  labels.foldr (fun label rest => label ++ ": " ++ rest) ""

/-- The issues say texts, and the line says labels and then the text of the first issue. -/
structure InStep (failure : Failure) : Prop where
  messages : ∀ issue ∈ failure.issues, issue.message.isStr
  line : ∃ labels message, failure.first.message = .str message ∧
    failure.line = .str (leading labels ++ message)

variable {failure : Failure}

theorem InStep.worded (steady : failure.InStep) : failure.Worded := by
  obtain ⟨labels, message, -, line⟩ := steady.line
  exact ⟨by rw [line]; rfl, steady.messages⟩

/-- A failure that says what its first issue says is in step. -/
theorem inStep_of_root (messages : ∀ issue ∈ failure.issues, issue.message.isStr)
    (root : failure.line = failure.first.message) : failure.InStep := by
  obtain ⟨message, said⟩ := Value.isStr_iff.mp (messages _ List.mem_cons_self)
  refine ⟨messages, [], message, said, ?_⟩
  rw [root, said, leading, List.foldr_nil, String.empty_append]

theorem inStep_of {message : Value} (text : message.isStr) : (of message []).InStep :=
  inStep_of_root (List.forall_mem_singleton.mpr text) rfl

/-- Issues that repeat the line of their failure are in step with it. -/
theorem inStep_crossed (message : String) (paths : List (List Value)) :
    (of (.str message) (paths.map (Issue.located (.str message)))).InStep := by
  cases paths with
  | nil => exact inStep_of rfl
  | cons path rest =>
    refine inStep_of_root (List.forall_mem_cons.mpr ⟨rfl, ?_⟩) rfl
    intro issue member
    obtain ⟨other, -, rfl⟩ := List.mem_map.mp member
    rfl

/-- A change of paths leaves a failure in step. -/
theorem InStep.below (steady : failure.InStep) (path : List Value) :
    (failure.mapIssues (·.below path)).InStep := by
  refine ⟨?_, steady.line⟩
  intro issue member
  have moved : issue ∈ failure.issues.map (·.below path) := member
  obtain ⟨inner, inside, rfl⟩ := List.mem_map.mp moved
  exact steady.messages inner inside

theorem InStep.within (steady : failure.InStep) (segment : Value) (label : String) :
    (failure.within segment label).InStep := by
  refine ⟨(steady.below [segment]).messages, ?_⟩
  obtain ⟨labels, message, said, line⟩ := steady.line
  refine ⟨label :: labels, message, said, ?_⟩
  simp only [Failure.within, line, Value.text, leading, List.foldr_cons, String.append_assoc]

/-- Marked as that of a key, a failure is in step if its line said nothing but the first message. -/
theorem inStep_invalidKey (key : Value) (root : failure.line = failure.first.message) :
    (SafeForm.invalidKey key failure).InStep := by
  refine inStep_of_root ?_ ?_
  · intro issue member
    rcases List.mem_cons.mp member with rfl | member
    · rfl
    · obtain ⟨inner, -, rfl⟩ := List.mem_map.mp member
      rfl
  · simp only [SafeForm.invalidKey, mapIssues, root]

end Failure

/-- Nothing that is supplied raises failures, messages are texts, and what reports failures reports
them in step. -/
def Piece.InStep : Piece → Prop
  | .callback function => ∀ x trace failure after,
      ¬(function.run x).Faults trace (.invalid failure) after
  | .renderer render => (∀ x trace failure after,
      ¬(render.run x).Faults trace (.invalid failure) after) ∧
    ∀ x trace message after, (render.run x).Returns trace message after → message.isStr
  | .reporter function | .pair _ function => ∀ x trace failure after,
      (function.run x).Returns trace (.err failure) after → failure.InStep
  | .message given => given.isStr

namespace Rule

/-- Whenever the rule is evaluated from here on, the line of a failure says what the first issue
says. -/
def Rooted (start : World) (rule : Rule) : Prop :=
  ∀ budget x world failure after, start.Later world →
    (rule.safe (lazySafe budget) x).Reports world failure after →
      failure.line = failure.first.message

/-- The keys of all records in a rule fail at their roots. -/
inductive KeysRooted (start : World) : Rule → Prop where
  | of_parts {rule : Rule} : (∀ keys values, rule = .record keys values → keys.Rooted start) →
      (∀ part ∈ rule.parts, KeysRooted start part) → KeysRooted start rule

theorem rooted_leaf (start : World) (l : Leaf) : (Rule.leaf l).Rooted start := by
  intro budget x world failure after _ reported
  obtain ⟨-, rfl, -⟩ := SafeForm.reports_provided.mp reported
  rfl

end Rule

namespace Law

/-- In every world from here on failures are in step. -/
def inStep (start : World) : Law where
  world := start.Later
  message := fun message => message.isStr
  failure := Failure.InStep
  fault := fun _ => True

variable {start : World}

/-- The law of being in step allows pieces that are in step. -/
theorem inStep_allows {piece : Piece} (steady : piece.InStep) : (inStep start).Allows piece := by
  have handles : ∀ fault, (∀ failure, fault ≠ .invalid failure) → (inStep start).Handles fault := by
    intro fault other default text
    have said : ((fault.messageOr default).isStr : Prop) := by
      cases fault with
      | invalid failure => exact absurd rfl (other failure)
      | misuse | ordinary | leaving =>
        simp only [Fault.messageOr]
        split
        · exact text
        · rfl
    cases fault with
    | invalid failure => exact absurd rfl (other failure)
    | leaving => trivial
    | ordinary => exact Failure.inStep_of said
    | misuse cause =>
      cases written : (Fault.misuse cause).hasText with
      | true =>
        simp only [Fault.caught?, written, if_true]
        exact Failure.inStep_of said
      | false =>
        simp only [Fault.caught?, written, Bool.false_eq_true, if_false]
        trivial
  cases piece with
  | callback function =>
    intro x trace fault after faulted
    refine handles fault ?_
    rintro failure rfl
    exact steady x trace failure after faulted
  | renderer render =>
    refine ⟨?_, steady.2⟩
    intro x trace fault after faulted
    refine handles fault ?_
    rintro failure rfl
    exact steady.1 x trace failure after faulted
  | reporter | pair => exact ⟨fun _ _ _ _ _ => trivial, steady⟩
  | message => exact steady

/-- The law is fair; it is not respected by marking the failures of keys. -/
theorem inStep_fair
    (builds : start.Builds fun rule => rule.SuppliedBy Piece.InStep ∧ rule.KeysRooted start) :
    (inStep start).Fair where
  traced trace later := .traced trace later
  resolved later resolved := ⟨later.of_returns resolved, fun piece member =>
    inStep_allows ((builds _ _ _ _ later resolved).1 piece member)⟩
  unresolved later faulted := ⟨later.of_faults faulted, trivial⟩
  text _ := rfl
  line steady := steady.worded.line
  misuse _ := trivial
  plain _ := Failure.inStep_of_root (List.forall_mem_singleton.mpr rfl) rfl
  expecting _ _ := Failure.inStep_of_root (List.forall_mem_singleton.mpr rfl) rfl
  said text := Failure.inStep_of text
  crossed := Failure.inStep_crossed
  reported _ _ messages := Failure.inStep_of_root messages rfl
  within segment label steady := steady.within segment label
  below path steady := steady.below path

end Law

namespace Rule

open SafeForm

variable {start : World} {rule : Rule}

/-- The failure of a rooted key, marked as such, is in step. -/
private theorem keeps_invalidKey {keys : Rule} {budget : Nat} (rooted : keys.Rooted start)
    (lawful : Lawful (Law.inStep start) (keys.safe (lazySafe budget))) (x : Value) :
    (Checked.reword (invalidKey? x) (keys.safe (lazySafe budget) x)).Keeps (Law.inStep start)
      Checked.anything := by
  intro world later
  obtain ⟨returning, reporting, faulting⟩ := lawful x world later
  refine ⟨?_, ?_, ?_⟩
  · exact fun key after returned => returning key after (Checked.returns_reword.mp returned)
  · intro failure after reported
    obtain ⟨inner, before, worded⟩ := Checked.reports_reword.mp reported
    obtain ⟨-, rfl⟩ := invalidKey?_eq_some.mp worded
    exact ⟨(reporting inner after before).1,
      Failure.inStep_invalidKey x (rooted budget x world inner after later before)⟩
  · intro fault after faulted
    rcases Checked.faults_reword.mp faulted with faulted | ⟨inner, before, -, rfl⟩
    · exact faulting fault after faulted
    · exact ⟨(reporting inner after before).1, trivial⟩

/-- Where keys of records fail at their roots, every failure reported is in step. -/
private theorem KeysRooted.lawful (fair : (Law.inStep start).Fair) {budget : Nat}
    (lazies : ∀ id, Lawful (Law.inStep start) (lazySafe budget id)) (keyed : rule.KeysRooted start)
    (supplied : rule.SuppliedBy Piece.InStep) :
    Lawful (Law.inStep start) (rule.safe (lazySafe budget)) := by
  induction keyed with
  | @of_parts rule rooted _ ih =>
    have parts : ∀ part ∈ rule.parts, Lawful (Law.inStep start) (part.safe (lazySafe budget)) :=
      fun part member => ih part member (supplied.part member)
    have allowed : rule.SuppliedBy (Law.inStep start).Allows :=
      fun piece member => Law.inStep_allows (supplied piece member)
    refine lawful_of_parts fair.toEager allowed (fun id _ => lazies id) ?_ parts
    rintro keys values rfl x
    exact keeps_invalidKey (rooted keys values rfl) (parts keys List.mem_cons_self) x

/-- Lazy rules are in step as well, whatever their budget. -/
private theorem lazySafe_inStep
    (builds : start.Builds fun rule => rule.SuppliedBy Piece.InStep ∧ rule.KeysRooted start)
    (budget : Nat) : ∀ id, Lawful (Law.inStep start) (lazySafe budget id) := by
  have fair := Law.inStep_fair builds
  induction budget with
  | zero => exact fun id x => Checked.keeps_misuse (fair.misuse _)
  | succ budget ih =>
    intro id x
    have resolves := keeps_resolve fair id fun world v after later resolved =>
      builds world id v after later resolved
    exact resolves.bind fun v good => good.2.lawful fair ih good.1 x

end Rule

/-- One text is configured for everything, and nothing else. -/
def Settings.SaysOnly (settings : Settings) (text : String) : Prop :=
  ∀ scope, settings.get? scope = if scope = .everything then .text text else .nothing

namespace Settings.SaysOnly

variable {settings : Settings} {text : String}

theorem of_unconfigured (unconfigured : settings.Unconfigured) (text : String) :
    (settings.setMessage .everything (.text text)).SaysOnly text := by
  intro scope
  have decided := MessageChange.get?_applied settings (.set .everything (.text text)) scope
  rw [unconfigured scope] at decided
  cases scope <;> exact decided

/-- Every message is resolved to the text. -/
theorem resolve (only : settings.SaysOnly text) (message : Value) (kind : Option String) :
    settings.resolve message kind = .text text := by
  have every : settings.everyMessage = .text text := only .everything
  have ofKind : ∀ name, settings.get? (.kind name) = .nothing := fun name => only (.kind name)
  have specific : ∀ builtIn, settings.get? (.message builtIn) = .nothing :=
    fun builtIn => only (.message builtIn)
  unfold Settings.resolve
  cases message <;> cases kind <;>
    simp only [every, ofKind, specific, Option.elim, Settings.firstMessage]

end Settings.SaysOnly

namespace Validator

open MessageChange

variable {schema : Schema} {v : Validator} {x : Value} {world after : World} {failure : Failure}

/-- Under the same text for everything the line of a failure ends in that text, after the labels
that it had. -/
private theorem safeParse_saysOnly (read : schema.toValidator = .ok v)
    (reported : (v.safe x).Reports world failure after) (worded : failure.Worded)
    {heading message text : String} (said : failure.first.message = .str message)
    (line : failure.line = .str (heading ++ message)) (only : world.settings.SaysOnly text) :
    ∃ later, (schema.safeParse x).Returns world (.error (.str (heading ++ text))) later := by
  have speaks : ∀ (issue : Issue) (message : ConfiguredMessage),
      some (ConfiguredMessage.text text) = some message → message.Speaks := by
    rintro issue message ⟨⟩
    trivial
  obtain ⟨localized, trace, shows, rejected⟩ :=
    Schema.exists_helpersReject read reported worded speaks
    fun issue => only.resolve issue.message _
  obtain ⟨shown, first, lined⟩ := shows.exchanged heading message line said
  have announced : shown = text := by
    obtain ⟨line, issue, others⟩ := localized
    cases shows.issues with
    | cons renders _ =>
      cases renders
      exact (Value.str.inj first).symm
  rw [← announced, ← lined]
  exact ⟨_, rejected.safeParse⟩

/-- Every reported failure has an issue, and where keys of records fail at their roots its line is a
chain of labels followed by the message of the first one; so when one text is configured for
everything and nothing else is, the line that is given for the failure is the same chain followed by
that text. -/
theorem line_in_step (read : schema.toValidator = .ok v) (supplied : v.rule.SuppliedBy Piece.InStep)
    (keyed : v.rule.KeysRooted world)
    (builds : world.Builds fun rule => rule.SuppliedBy Piece.InStep ∧ rule.KeysRooted world)
    (reported : (v.safe x).Reports world failure after) :
    ∃ labels message, failure.issues.head?.map (·.message) = some (.str message) ∧
      failure.line = .str (Failure.leading labels ++ message) ∧
      ∀ text, world.settings.SaysOnly text → ∃ later,
        (schema.safeParse x).Returns world
          (.error (.str (Failure.leading labels ++ text))) later := by
  have lawful := keyed.lawful (Law.inStep_fair builds)
    (Rule.lazySafe_inStep builds (world.budget x)) supplied x world .refl
  obtain ⟨-, steady⟩ := lawful.2.1 failure after (reports_safe.mp reported)
  obtain ⟨labels, message, said, line⟩ := steady.line
  refine ⟨labels, message, ?_, line, ?_⟩
  · rw [← said]
    rfl
  · exact fun text only => safeParse_saysOnly read reported steady.worded said line only

/-- Scores by name. -/
private def scores : Validator :=
  .object [(.str "scores", .record (.leaf .string) (.leaf .integer))]

private def misnamed : Value := .dict [(.str "scores", .dict [(.int 1, .int 0)])]

/-- A world in which one text stands for every message. -/
private def curt : World :=
  { World.initial "scores" with
    settings := (Settings.initial "scores").setMessage .everything (.text "Invalid") }

private theorem scores_keysRooted (start : World) : scores.rule.KeysRooted start := by
  have leaves : ∀ l : Leaf, (Rule.leaf l).KeysRooted start := fun l => .of_parts nofun nofun
  have kept : (Rule.record (.leaf .string) (.leaf .integer)).KeysRooted start := by
    refine .of_parts ?_
      (List.forall_mem_cons.mpr ⟨leaves _, List.forall_mem_singleton.mpr (leaves _)⟩)
    rintro keys values ⟨⟩
    exact Rule.rooted_leaf start .string
  exact .of_parts nofun (List.forall_mem_singleton.mpr kept)

private theorem curt_builds :
    curt.Builds fun rule => rule.SuppliedBy Piece.InStep ∧ rule.KeysRooted curt := by
  refine World.Sound.builds_of_reads (fun id => ⟨nofun, .of_parts nofun nofun⟩) ?_
  exact ⟨nofun, nofun, nofun⟩

/-- A score under a number is refused with a line that ends in the message of its issue, and so with
one that ends in the text that stands for every message. -/
theorem scores_line_in_step :
    (Schema.validator scores).toValidator = .ok scores ∧ scores.rule.SuppliedBy Piece.InStep ∧
    scores.rule.KeysRooted curt ∧
    (curt.Builds fun rule => rule.SuppliedBy Piece.InStep ∧ rule.KeysRooted curt) ∧
    curt.settings.SaysOnly "Invalid" ∧
    (∃ failure, (scores.safe misnamed).Reports curt failure curt ∧
      failure.line = .str "scores: Invalid key: Expected string") ∧
    ∃ later, ((Schema.validator scores).safeParse misnamed).Returns curt
      (.error (.str "scores: Invalid")) later := by
  have read : (Schema.validator scores).toValidator = .ok scores := rfl
  have supplied : scores.rule.SuppliedBy Piece.InStep := fun piece member => nomatch member
  have only : curt.settings.SaysOnly "Invalid" :=
    .of_unconfigured (Settings.unconfigured_initial "scores") "Invalid"
  have reported : (scores.safe misnamed).Reports curt
      ⟨.str "scores: Invalid key: Expected string",
        ⟨.str "Invalid key: Expected string", [.str "scores", .int 1], .missing,
          some "string", none⟩,
        []⟩
      curt := rfl
  obtain ⟨labels, message, said, line, announces⟩ :=
    line_in_step read supplied (scores_keysRooted curt) curt_builds reported
  refine ⟨read, supplied, scores_keysRooted curt, curt_builds, only, ⟨_, reported, rfl⟩, ?_⟩
  have split : "scores: " ++ "Invalid key: Expected string" =
      Failure.leading labels ++ "Invalid key: Expected string" := by
    cases Option.some.inj said
    exact Value.str.inj line
  obtain ⟨later, given⟩ := announces "Invalid" only
  rw [← (String.append_left_inj _).mp split] at given
  exact ⟨later, given⟩

/-- Numbers by pairs of a text and a number. -/
private def pairs : Validator :=
  record (described (.tuple [.leaf .string, .leaf .integer])
    (.withChildren .tuple (.ofValidators [leaf .string, leaf .integer]))) (leaf .integer)

/-- Not every line ends in the message of the first issue: where a key fails below its root, its
label comes after the mark in the line, and the message has the mark without the label. -/
theorem not_all_lines_in_step :
    ¬∀ (v : Validator) (x : Value) (world after : World) (failure : Failure),
      v.rule.SuppliedBy Piece.InStep → world.Builds (Rule.SuppliedBy Piece.InStep) →
      (v.safe x).Reports world failure after →
      ∃ labels message, failure.issues.head?.map (·.message) = some (.str message) ∧
        failure.line = .str (Failure.leading labels ++ message) := by
  intro always
  have supplied : pairs.rule.SuppliedBy Piece.InStep := fun piece member => nomatch member
  have builds : (World.initial "pairs").Builds (Rule.SuppliedBy Piece.InStep) :=
    World.initial_builds (fun id piece member => nomatch member) "pairs"
  have reported : (pairs.safe (.dict [(.tuple [.int 1, .int 2], .int 0)])).Reports
    (World.initial "pairs")
      ⟨.str "Invalid key: [0]: Expected string", ⟨.str "Invalid key: Expected string",
        [.tuple [.int 1, .int 2], .int 0], .missing, some "string", none⟩, []⟩
      (World.initial "pairs") := rfl
  obtain ⟨labels, message, said, line⟩ := always _ _ _ _ _ supplied builds reported
  cases Option.some.inj said
  have ends : "Invalid key: Expected string".toList <:+
      "Invalid key: [0]: Expected string".toList := by
    rw [Value.str.inj line, String.toList_append]
    exact List.suffix_append _ _
  exact absurd ends (by decide)

end Validator

end Conform
