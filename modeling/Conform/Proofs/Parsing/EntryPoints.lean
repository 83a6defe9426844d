import Conform.Parsing
import Conform.Proofs.Evaluation.Frames
import Conform.Proofs.Value.Equivalence

/-!
Entry points. Validating, the parse helpers and the vendor-neutral form all run the safe form of the
validator that a schema is read as; `Schema.entry_points_agree` says that without configured
messages they give one verdict. The vendor-neutral form uses a schema as it stands, so it takes part
only where that is the same as reading it.
-/
namespace Conform

namespace Failure

/-- A failure with a line is raised as it is. -/
theorem raised_of_line {failure : Failure} (present : failure.line ≠ .null) :
    failure.raised = failure := by
  obtain ⟨line, first, others⟩ := failure
  cases line with
  | null => exact absurd rfl present
  | _ => rfl

end Failure

/-- No message is configured for anything. -/
def Settings.Unconfigured (settings : Settings) : Prop := ∀ scope, settings.get? scope = .nothing

theorem Settings.unconfigured_initial (vendor : String) :
    (Settings.initial vendor).Unconfigured := by
  intro scope
  cases scope <;> rfl

namespace Failure

variable {kind : Option String} {world : World}

/-- Without configured messages an issue is reported as it is. -/
theorem returns_localizeIssue_of_unconfigured {issue : Issue}
    (unconfigured : world.settings.Unconfigured) (hashable : issue.message.unhashable? = none) :
    (localizeIssue kind issue).Returns world issue world := by
  have nothing : world.settings.resolve issue.message kind = .nothing := by
    have absent : ∀ scope, world.settings.get? scope = .nothing := unconfigured
    have every : world.settings.everyMessage = .nothing := unconfigured .everything
    unfold Settings.resolve
    cases issue.message <;> cases kind <;>
      simp only [absent, every, Option.elim, Settings.firstMessage]
  unfold localizeIssue
  simp only [hashable]
  refine Eval.returns_bind.mpr ⟨world, world, Eval.returns_get.mpr ⟨rfl, rfl⟩, ?_⟩
  simp only [nothing]
  exact Eval.returns_pure.mpr ⟨rfl, rfl⟩

theorem returns_localizeIssues_of_unconfigured {issues : List Issue}
    (unconfigured : world.settings.Unconfigured)
    (hashable : ∀ issue ∈ issues, issue.message.unhashable? = none) :
    (localizeIssues kind issues).Returns world issues world := by
  induction issues with
  | nil => exact Eval.returns_pure.mpr ⟨rfl, rfl⟩
  | cons issue rest ih =>
    obtain ⟨first, others⟩ := List.forall_mem_cons.mp hashable
    refine Eval.returns_bind.mpr
      ⟨issue, world, returns_localizeIssue_of_unconfigured unconfigured first, ?_⟩
    exact Eval.returns_bind.mpr ⟨rest, world, ih others, Eval.returns_pure.mpr ⟨rfl, rfl⟩⟩

/-- Issues compared with themselves have the same messages. -/
theorem same_messages_self (issues : List Issue) :
    ((issues.zip issues).all fun pair => pair.1.message == pair.2.message) = true := by
  induction issues with
  | nil => rfl
  | cons issue rest ih => simp only [List.zip_cons_cons, List.all_cons, BEq.rfl, ih, Bool.and_self]

/-- Without configured messages a failure stays as it is. -/
theorem returns_localize_of_unconfigured {failure : Failure}
    (unconfigured : world.settings.Unconfigured)
    (hashable : ∀ issue ∈ failure.issues, issue.message.unhashable? = none) :
    (failure.localize kind).Returns world failure world := by
  obtain ⟨first, others⟩ := List.forall_mem_cons.mp hashable
  refine Eval.returns_bind.mpr
    ⟨failure.first, world, returns_localizeIssue_of_unconfigured unconfigured first, ?_⟩
  refine Eval.returns_bind.mpr
    ⟨failure.others, world, returns_localizeIssues_of_unconfigured unconfigured others, ?_⟩
  have same : ((failure.first :: failure.others).zip failure.issues).all
      (fun pair => pair.1.message == pair.2.message) := same_messages_self failure.issues
  simp only [same, ↓reduceIte]
  exact Eval.returns_pure.mpr ⟨rfl, rfl⟩

end Failure

namespace Validator

variable {v : Validator} {x y : Value} {world between after : World} {failure localized : Failure}
  {fault : Fault}

theorem ending_run (v : Validator) (x : Value) (world : World) :
    (v.run x).ending world =
      (v.rule.safe (Rule.lazySafe (world.budget x)) x).outcome.ending world := by
  rw [run, Checked.ending_outcome, Checked.ending_outcome, ending_safe]

theorem parseOutcome_of_returns (returned : (v.safe x).Returns world y after) :
    (v.parseOutcome x).Returns world (.ok y) after :=
  Eval.returns_bind.mpr
    ⟨.ok y, after, Checked.returns_outcome_ok.mpr returned, Eval.returns_pure.mpr ⟨rfl, rfl⟩⟩

theorem parseOutcome_of_reports (reported : (v.safe x).Reports world failure between)
    (localizes : (failure.localize (v.metadata.map (·.kind.name))).Returns between
      localized after) :
    (v.parseOutcome x).Returns world (.err localized) after :=
  Eval.returns_bind.mpr ⟨.err failure, between, Checked.returns_outcome_err.mpr reported,
    Eval.returns_bind.mpr ⟨localized, after, localizes, Eval.returns_pure.mpr ⟨rfl, rfl⟩⟩⟩

theorem parseOutcome_of_faults (faulted : (v.safe x).Faults world fault after) :
    (v.parseOutcome x).Faults world fault after :=
  Eval.faults_bind.mpr (.inl (Checked.faults_outcome.mpr faulted))

end Validator

namespace Schema

/-- Every parse helper accepts a value, with one output and leaving one world. A parser may have
been bound to the schema at any earlier time. -/
structure HelpersAccept (schema : Schema) (x y : Value) (world after : World) : Prop where
  parse : (schema.parse x).Returns world y after
  ensure : (schema.ensure x).Returns world () after
  safeParse : (schema.safeParse x).Returns world (.ok y) after
  parser : ∃ run, (∀ earlier : World, schema.parser.Returns earlier run earlier) ∧
    (run x).Returns world y after
  safeParser : ∃ run, (∀ earlier : World, schema.safeParser.Returns earlier run earlier) ∧
    (run x).Returns world (.ok y) after

/-- Every parse helper rejects a value with one failure: it is raised, or its line is given. -/
structure HelpersReject (schema : Schema) (x : Value) (failure : Failure) (world after : World) :
    Prop where
  parse : (schema.parse x).Faults world (.invalid failure.raised) after
  ensure : (schema.ensure x).Faults world (.invalid failure.raised) after
  safeParse : (schema.safeParse x).Returns world (.error failure.line) after
  parser : ∃ run, (∀ earlier : World, schema.parser.Returns earlier run earlier) ∧
    (run x).Faults world (.invalid failure.raised) after
  safeParser : ∃ run, (∀ earlier : World, schema.safeParser.Returns earlier run earlier) ∧
    (run x).Returns world (.error failure.line) after

/-- Every parse helper ends in one fault. -/
structure HelpersFault (schema : Schema) (x : Value) (fault : Fault)
    (world after : World) : Prop where
  parse : (schema.parse x).Faults world fault after
  ensure : (schema.ensure x).Faults world fault after
  safeParse : (schema.safeParse x).Faults world fault after
  parser : ∃ run, (∀ earlier : World, schema.parser.Returns earlier run earlier) ∧
    (run x).Faults world fault after
  safeParser : ∃ run, (∀ earlier : World, schema.safeParser.Returns earlier run earlier) ∧
    (run x).Faults world fault after

variable {schema : Schema} {v : Validator} {x y : Value} {world after : World} {failure : Failure}
  {fault : Fault}

section Read

variable (read : schema.toValidator = .ok v)
include read

theorem returns_read (world : World) : schema.read.Returns world v world :=
  Eval.returns_ofConstruction.mpr ⟨read, rfl⟩

/-- Once it is read, a schema does what its validator does. -/
theorem returns_read_bind {α : Type} {next : Validator → Eval α} {value : α}
    (rest : (next v).Returns world value after) :
      (schema.read >>= next).Returns world value after :=
  Eval.returns_bind.mpr ⟨v, world, returns_read read world, rest⟩

theorem faults_read_bind {α : Type} {next : Validator → Eval α}
    (rest : (next v).Faults world fault after) : (schema.read >>= next).Faults world fault after :=
  Eval.faults_bind.mpr (.inr ⟨v, world, returns_read read world, rest⟩)

/-- A parser is bound to the validator that the schema is read as. -/
theorem bound_parser_returns (earlier : World) : schema.parser.Returns earlier v.parse earlier :=
  returns_read_bind read (Eval.returns_pure.mpr ⟨rfl, rfl⟩)

theorem bound_safeParser_returns (earlier : World) :
    schema.safeParser.Returns earlier v.safeParse earlier :=
  returns_read_bind read (Eval.returns_pure.mpr ⟨rfl, rfl⟩)

/-- Where the parse accepts, every helper accepts with the same output. -/
theorem helpersAccept (accepted : (v.parseOutcome x).Returns world (.ok y) after) :
    schema.HelpersAccept x y world after := by
  have parsed : (v.parse x).Returns world y after :=
    Eval.returns_bind.mpr ⟨.ok y, after, accepted, Eval.returns_pure.mpr ⟨rfl, rfl⟩⟩
  have lined : (v.safeParse x).Returns world (.ok y) after :=
    Eval.returns_bind.mpr ⟨.ok y, after, accepted, Eval.returns_pure.mpr ⟨rfl, rfl⟩⟩
  have schemaParsed : (schema.parse x).Returns world y after := returns_read_bind read parsed
  exact {
    parse := schemaParsed
    ensure := Eval.returns_bind.mpr ⟨y, after, schemaParsed, Eval.returns_pure.mpr ⟨rfl, rfl⟩⟩
    safeParse := returns_read_bind read lined
    parser := ⟨v.parse, bound_parser_returns read, parsed⟩
    safeParser := ⟨v.safeParse, bound_safeParser_returns read, lined⟩ }

/-- Where the parse rejects, every helper rejects with the same failure. -/
theorem helpersReject (rejected : (v.parseOutcome x).Returns world (.err failure) after) :
    schema.HelpersReject x failure world after := by
  have parsed : (v.parse x).Faults world (.invalid failure.raised) after :=
    Eval.faults_bind.mpr (.inr ⟨.err failure, after, rejected, Eval.faults_raise.mpr ⟨rfl, rfl⟩⟩)
  have lined : (v.safeParse x).Returns world (.error failure.line) after :=
    Eval.returns_bind.mpr ⟨.err failure, after, rejected, Eval.returns_pure.mpr ⟨rfl, rfl⟩⟩
  have schemaParsed : (schema.parse x).Faults world (.invalid failure.raised) after :=
    faults_read_bind read parsed
  exact {
    parse := schemaParsed
    ensure := Eval.faults_bind.mpr (.inl schemaParsed)
    safeParse := returns_read_bind read lined
    parser := ⟨v.parse, bound_parser_returns read, parsed⟩
    safeParser := ⟨v.safeParse, bound_safeParser_returns read, lined⟩ }

/-- Where the parse faults, every helper ends in the same fault. -/
theorem helpersFault (faulted : (v.parseOutcome x).Faults world fault after) :
    schema.HelpersFault x fault world after := by
  have parsed : (v.parse x).Faults world fault after := Eval.faults_bind.mpr (.inl faulted)
  have lined : (v.safeParse x).Faults world fault after := Eval.faults_bind.mpr (.inl faulted)
  have schemaParsed : (schema.parse x).Faults world fault after := faults_read_bind read parsed
  exact {
    parse := schemaParsed
    ensure := Eval.faults_bind.mpr (.inl schemaParsed)
    safeParse := faults_read_bind read lined
    parser := ⟨v.parse, bound_parser_returns read, parsed⟩
    safeParser := ⟨v.safeParse, bound_safeParser_returns read, lined⟩ }

end Read

/-- Using the schema as it stands is the same as reading it: it is a validator, a function, or an
object whose result form, if it has one, can be used. -/
def StandsAsRead : Schema → Prop
  | .validator _ | .function _ => True
  | .foreign object => object.result.isSome ∨ object.misplacedResult = none
  | _ => False

/-- What a result form answers is the outcome of the validator made of it. -/
theorem ending_resulting (function : ResultCallable) (x : Value) (world : World) :
    (SafeForm.resulting function x).outcome.ending world =
      (Eval.perform (function.run x)).ending world := by
  have performed : (Checked.perform (function.run x)).ending world = _ :=
    Checked.ending_lift _ world
  rw [Checked.ending_outcome, SafeForm.resulting, Checked.ending_bind, performed]
  rcases (Eval.perform (function.run x)).ending world with ⟨_ | _ | _, after⟩ <;> rfl

/-- A schema that stands for what it is read as has the outcome of that validator. -/
theorem StandsAsRead.ending_callDirectly (stands : schema.StandsAsRead)
    (read : schema.toValidator = .ok v) (x : Value) (world : World) :
    (schema.callDirectly x).ending world = (v.run x).ending world := by
  rw [Validator.ending_run]
  cases schema with
  | validator given =>
    cases read
    exact Validator.ending_run _ x world
  | function f =>
    cases read
    rfl
  | foreign object =>
    obtain ⟨call, result, misplaced, description⟩ := object
    cases result with
    | some result =>
      cases read
      exact (ending_resulting result x world).symm
    | none =>
      cases read
      cases stands with
      | inl present => cases present
      | inr absent =>
        cases absent
        rfl
  | _ => exact stands.elim

/-- Every entry point accepts a value, with one output and leaving one world. -/
structure EntryPointsAccept (schema : Schema) (x y : Value) (world after : World) : Prop extends
    HelpersAccept schema x y world after where
  validate : (schema.validate x).Returns world (.ok y) after
  accepts : (schema.accepts x).Returns world true after
  tryParse : ∀ default, (schema.tryParse x default).Returns world y after
  standard : schema.StandsAsRead → (schema.standardValidate x).Returns world (.value y) after

/-- Every entry point rejects a value with one failure; the parse helpers, which look messages up,
when these are such that a dictionary can be asked for them. -/
structure EntryPointsReject (schema : Schema) (x : Value) (failure : Failure)
    (world after : World) :
    Prop where
  helpers : (∀ issue ∈ failure.issues, issue.message.unhashable? = none) →
    HelpersReject schema x failure world after
  validate : (schema.validate x).Returns world (.err failure) after
  accepts : (schema.accepts x).Returns world false after
  tryParse : ∀ default, (schema.tryParse x default).Returns world default after
  standard : schema.StandsAsRead → (schema.standardValidate x).Returns world
    (.issues (failure.issues.map fun issue => (issue.message, issue.path))) after

/-- Every entry point ends in one fault. -/
structure EntryPointsFault (schema : Schema) (x : Value) (fault : Fault)
    (world after : World) : Prop
    extends HelpersFault schema x fault world after where
  validate : (schema.validate x).Faults world fault after
  accepts : (schema.accepts x).Faults world fault after
  tryParse : ∀ default, (schema.tryParse x default).Faults world fault after
  standard : schema.StandsAsRead → (schema.standardValidate x).Faults world fault after

section Read

variable (read : schema.toValidator = .ok v)
include read

/-- Validation with a schema is the run of the validator that it is read as. -/
theorem returns_validate_iff {outcome : Outcome} :
    (schema.validate x).Returns world outcome after ↔ (v.run x).Returns world outcome after := by
  constructor
  · intro returned
    obtain ⟨given, between, had, later⟩ := Eval.returns_bind.mp returned
    obtain ⟨same, rfl⟩ := Eval.returns_ofConstruction.mp had
    cases read.symm.trans same
    exact later
  · exact fun ran => returns_read_bind read ran

/-- The vendor-neutral form of a schema that stands for what it is read as is that of its
outcome. -/
theorem StandsAsRead.returns_standard (stands : schema.StandsAsRead) {outcome : Outcome}
    (ran : (v.run x).Returns world outcome after) :
    (schema.standardValidate x).Returns world (.ofOutcome outcome) after := by
  have direct : (schema.callDirectly x).Returns world outcome after := by
    rw [Eval.Returns, stands.ending_callDirectly read]
    exact ran
  exact Eval.returns_bind.mpr ⟨outcome, after, direct, Eval.returns_pure.mpr ⟨rfl, rfl⟩⟩

/-- Without configured messages all entry points of a schema that can be read give the verdict of
the safe form: they accept with its value, reject with its line and issues, or end in its fault. An
exception stands for a missing line with the first message or the number of issues. -/
theorem entry_points_agree (unconfigured : world.settings.Unconfigured) :
    (∀ y after, (v.safe x).Returns world y after → schema.EntryPointsAccept x y world after) ∧
    (∀ failure after, (v.safe x).Reports world failure after →
      schema.EntryPointsReject x failure world after) ∧
    (∀ fault after, (v.safe x).Faults world fault after →
      schema.EntryPointsFault x fault world after) := by
  refine ⟨?_, ?_, ?_⟩
  · intro y after returned
    have ran : (v.run x).Returns world (.ok y) after := Checked.returns_outcome_ok.mpr returned
    have validated := (returns_validate_iff read).mpr ran
    exact {
      helpersAccept read (Validator.parseOutcome_of_returns returned) with
      validate := validated
      accepts := Eval.returns_bind.mpr ⟨.ok y, after, validated, Eval.returns_pure.mpr ⟨rfl, rfl⟩⟩
      tryParse := fun default =>
        Eval.returns_bind.mpr ⟨.ok y, after, validated, Eval.returns_pure.mpr ⟨rfl, rfl⟩⟩
      standard := fun stands => stands.returns_standard read ran }
  · intro failure after reported
    have ran : (v.run x).Returns world (.err failure) after :=
      Checked.returns_outcome_err.mpr reported
    have validated := (returns_validate_iff read).mpr ran
    have framed := Validator.framed_of_reports reported
    exact {
      helpers := fun hashable => helpersReject read <| Validator.parseOutcome_of_reports reported <|
        Failure.returns_localize_of_unconfigured (framed.settings ▸ unconfigured) hashable
      validate := validated
      accepts := Eval.returns_bind.mpr
        ⟨.err failure, after, validated, Eval.returns_pure.mpr ⟨rfl, rfl⟩⟩
      tryParse := fun default =>
        Eval.returns_bind.mpr ⟨.err failure, after, validated, Eval.returns_pure.mpr ⟨rfl, rfl⟩⟩
      standard := fun stands => stands.returns_standard read ran }
  · intro fault after faulted
    have ran : (v.run x).Faults world fault after := Checked.faults_outcome.mpr faulted
    have validated : (schema.validate x).Faults world fault after := faults_read_bind read ran
    have direct : schema.StandsAsRead → (schema.callDirectly x).Faults world fault after := by
      intro stands
      rw [Eval.Faults, stands.ending_callDirectly read]
      exact ran
    exact {
      helpersFault read (Validator.parseOutcome_of_faults faulted) with
      validate := validated
      accepts := Eval.faults_bind.mpr (.inl validated)
      tryParse := fun default => Eval.faults_bind.mpr (.inl validated)
      standard := fun stands => Eval.faults_bind.mpr (.inl (direct stands)) }

end Read

/-- A registration form: a name, and an age that is a class as it stands. -/
private def form : Schema :=
  .validator (.object [(.str "name", .leaf .string), (.str "age", .ofClass .int)])

/-- A form with an age in words is rejected by every entry point, under the path of the age. -/
theorem form_entry_points_agree :
    form.toValidator = .ok (.object [(.str "name", .leaf .string), (.str "age", .ofClass .int)]) ∧
    (World.initial "forms").settings.Unconfigured ∧
    ∃ failure after, failure.issues.map (fun issue => (issue.message, issue.path)) =
        [(.str "Expected integer", [.str "age"])] ∧
      form.EntryPointsReject (.dict [(.str "name", .str "Ada"), (.str "age", .str "ten")]) failure
        (World.initial "forms") after := by
  have read : form.toValidator =
    .ok (.object [(.str "name", .leaf .string), (.str "age", .ofClass .int)]) := rfl
  have unconfigured := Settings.unconfigured_initial "forms"
  exact ⟨read, unconfigured, _, _, rfl, (entry_points_agree read unconfigured).2.1
    (Failure.within (.str "age") "age" (.expecting "Expected integer" "integer")) _ rfl⟩

/-- Not every entry point gives the same verdict of every schema that can be read: a bare class is
read as a type check, but used as it stands it is called, and what it makes of the value is
accepted; and the parse helpers break off over a message that no dictionary can be asked for. -/
theorem not_all_entry_points_agree :
    (¬∀ (schema : Schema) (v : Validator) (x : Value) (world : World) (failure : Failure)
    (after : World), schema.toValidator = .ok v → world.settings.Unconfigured →
      (v.safe x).Reports world failure after → (schema.standardValidate x).Returns world
        (.issues (failure.issues.map fun issue => (issue.message, issue.path))) after) ∧
    ¬∀ (schema : Schema) (v : Validator) (x : Value) (world : World) (failure : Failure)
      (after : World), schema.toValidator = .ok v → world.settings.Unconfigured →
      (v.safe x).Reports world failure after →
      (schema.safeParse x).Returns world (.error failure.line) after := by
  have unconfigured := Settings.unconfigured_initial "forms"
  constructor
  · intro agree
    have rejected := agree (.cls .int) (.leaf .integer) (.str "5") (World.initial "forms")
      (.expecting "Expected integer" "integer") (World.initial "forms") rfl unconfigured rfl
    have called : ((Schema.cls .int).standardValidate (.str "5")).Returns (World.initial "forms")
      (.value (.int 5)) (World.initial "forms") := rfl
    cases rejected.symm.trans called
  · intro agree
    have rejected := agree (.validator (.retitled (.leaf .string) (.given (.list [])))) _ (.int 5)
      (World.initial "forms") (.of (.list []) []) (World.initial "forms") rfl unconfigured rfl
    have broken : ((Schema.validator (.retitled (.leaf .string) (.given (.list [])))).safeParse
      (.int 5)).Faults (World.initial "forms") (.misuse (.unhashable "list"))
        (World.initial "forms") := rfl
    cases rejected.symm.trans broken

end Schema

end Conform
