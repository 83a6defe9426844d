import Conform.Proofs.Evaluation.Occurrences
import Conform.Proofs.JsonSchema.Definitions
import Conform.Proofs.Parsing.ConfiguredMessages

/-!
Histories of operations. Schemas are built, inputs are validated in either form and with every
helper, documents are converted with and without definitions, and configuration changes in between.
Every history has an account of what happens in it, operation by operation
(`Operation.exists_account`). However it is accounted for, the first use of a lazy schema runs its
factory, and every later use sees what that one run built (`Operation.factory_runs_once`).
-/
namespace Conform

section Projections

open Eval

namespace Projection

variable {draft : String}

theorem accountable_ofSchema {onLazy : Nat → Eval Keywords} (lazies : ∀ id, (onLazy id).Accountable)
    (schema : Schema) : (ofSchema draft onLazy schema).Accountable := by
  have congruence : Congruence (fun run _ => run.Accountable) True := {
    pure := accountable_pure
    bind := fun first rest => first.bind rest
    misuse := fun _ _ _ _ => accountable_raise _ }
  exact @related_everywhere (fun run _ => run.Accountable) draft onLazy onLazy
    congruence lazies schema

end Projection

namespace Converter

/-- The converter asks for a lazy schema while it has it marked. -/
theorem accountable_ofLazy (draft : String) : ∀ budget id, (ofLazy draft budget id).Accountable
  | 0, _ => accountable_raise _
  | budget + 1, id => by
    refine accountable_get.bind fun world => ?_
    split
    · exact accountable_pure []
    · refine Accountable.bind (accountable_of_still fun _ => ⟨rfl, rfl⟩) fun _ => ?_
      refine Accountable.ensuring ?_ fun _ => ⟨rfl, rfl⟩
      exact (accountable_resolve id).bind fun v =>
        Projection.accountable_ofSchema (accountable_ofLazy draft budget) (.validator v)

theorem accountable_convert (draft : String) (schema : Schema) :
    (convert draft schema).Accountable :=
  accountable_get.bind fun _ => Projection.accountable_ofSchema (accountable_ofLazy draft _) schema

theorem accountable_convertAll (draft : String) (definitions : List (String × Schema)) :
    (convertAll draft definitions).Accountable := by
  induction definitions with
  | nil => exact accountable_pure []
  | cons definition rest ih =>
    exact (accountable_convert draft definition.2).bind fun _ => ih.bind fun _ => accountable_pure _

theorem accountable_fresh {α : Type} {evaluation : Eval α} (accountable : evaluation.Accountable) :
    (fresh evaluation).Accountable :=
  accountable_get.bind fun _ => Accountable.bind (accountable_of_still fun _ => ⟨rfl, rfl⟩) fun _ =>
    accountable.ensuring fun _ => ⟨rfl, rfl⟩

end Converter

namespace Schema

theorem accountable_chosenDraft (draft : Option String) : (chosenDraft draft).Accountable :=
  accountable_get.bind fun _ => accountable_pure _

/-- Document schemas are converted with an account of what happens to lazy schemas. -/
theorem accountable_toDocument (options : DocumentOptions) (schema : Schema) :
    (schema.toDocument options).Accountable := by
  refine (accountable_chosenDraft options.draft).bind fun draft => ?_
  cases Settings.draftAddress? draft with
  | none => exact accountable_raise _
  | some address =>
    refine Converter.accountable_fresh
      ((Converter.accountable_convert draft schema).bind fun body =>
      accountable_get.bind fun world => ?_)
    dsimp only
    generalize Entries.merge _ options.definitions = definitions
    split
    · exact accountable_pure _
    · exact (Converter.accountable_convertAll draft definitions).bind fun _ => accountable_pure _

theorem accountable_toDefinitions (draft : Option String) (definitions : List (String × Schema)) :
    (toDefinitions draft definitions).Accountable :=
  (accountable_chosenDraft draft).bind fun draft =>
    Converter.accountable_fresh (Converter.accountable_convertAll draft definitions)

end Schema

end Projections

section Helpers

open Eval

namespace Failure

theorem accountable_localizeIssue (kind : Option String) (issue : Issue) :
    (localizeIssue kind issue).Accountable := by
  unfold localizeIssue
  cases issue.message.unhashable? with
  | some found => exact accountable_raise _
  | none =>
    refine accountable_get.bind fun world => ?_
    cases world.settings.resolve issue.message kind with
    | nothing => exact accountable_pure _
    | text message => exact accountable_pure _
    | computed render =>
      exact (accountable_perform (.message render issue)).bind fun _ => accountable_pure _

theorem accountable_localizeIssues (kind : Option String) (issues : List Issue) :
    (localizeIssues kind issues).Accountable := by
  induction issues with
  | nil => exact accountable_pure []
  | cons issue rest ih =>
    exact (accountable_localizeIssue kind issue).bind fun _ => ih.bind fun _ => accountable_pure _

theorem accountable_localize (kind : Option String) (failure : Failure) :
    (failure.localize kind).Accountable := by
  refine (accountable_localizeIssue kind failure.first).bind fun first => ?_
  refine (accountable_localizeIssues kind failure.others).bind fun others => ?_
  dsimp only
  split
  · exact accountable_pure _
  · exact (accountable_ofConstruction _).bind fun _ => accountable_pure _

end Failure

theorem Validator.accountable_parseOutcome (v : Validator) (x : Value) :
    (v.parseOutcome x).Accountable := by
  refine (v.accountable_run x).bind fun outcome => ?_
  cases outcome with
  | ok y => exact accountable_pure _
  | err failure => exact (Failure.accountable_localize _ failure).bind fun _ => accountable_pure _

namespace Schema

theorem accountable_read (schema : Schema) : schema.read.Accountable := accountable_ofConstruction _

theorem accountable_validate (schema : Schema) (x : Value) : (schema.validate x).Accountable :=
  schema.accountable_read.bind fun v => v.accountable_run x

theorem accountable_parse (schema : Schema) (x : Value) : (schema.parse x).Accountable := by
  refine schema.accountable_read.bind fun v => (v.accountable_parseOutcome x).bind fun outcome => ?_
  cases outcome with
  | ok y => exact accountable_pure y
  | err failure => exact accountable_raise _

theorem accountable_safeParse (schema : Schema) (x : Value) : (schema.safeParse x).Accountable :=
  schema.accountable_read.bind fun v => (v.accountable_parseOutcome x).bind fun _ =>
    accountable_pure _

theorem accountable_callGuarded (function : Callable) (x : Value) :
    (callGuarded function x).Accountable :=
  (Checked.accountable_guarded _ (.callback trivial x)).outcome

theorem accountable_callDirectly (schema : Schema) (x : Value) :
    (schema.callDirectly x).Accountable := by
  cases schema with
  | validator v => exact v.accountable_run x
  | function f => exact accountable_callGuarded f x
  | foreign object =>
    obtain ⟨call, result, misplaced, metadata⟩ := object
    cases result with
    | some result => exact accountable_perform (.reporter result x)
    | none =>
      cases misplaced with
      | some misplaced => exact accountable_raise _
      | none => exact accountable_callGuarded call x
  | cls c =>
    unfold callDirectly
    dsimp only
    cases c.construct x <;> exact accountable_pure _
  | _ => exact accountable_pure _

end Schema

end Helpers

/-- An operation on schemas, or a change of configuration. -/
inductive Operation where
  /-- Asks what a lazy schema stands for, as its description allows. -/
  | resolve (id : Nat)
  /-- Builds a schema: wrappers, described copies, schemas that enclose others. -/
  | build (recipe : Recipe)
  /-- Binds a name to a schema that is built. -/
  | define (name : String) (recipe : Recipe)
  /-- Validates with the form that reports failures. -/
  | safe (v : Validator) (x : Value)
  /-- Validates with the form that raises failures. -/
  | call (v : Validator) (x : Value)
  /-- Validates with any schema, read as a validator. -/
  | validate (schema : Schema) (x : Value)
  /-- Validates with a schema as it stands, in the vendor-neutral form. -/
  | standard (schema : Schema) (x : Value)
  | parse (schema : Schema) (x : Value)
  | ensure (schema : Schema) (x : Value)
  | safeParse (schema : Schema) (x : Value)
  | accepts (schema : Schema) (x : Value)
  | tryParse (schema : Schema) (x default : Value)
  /-- Converts a schema to a document schema, with or without definitions. -/
  | document (options : Schema.DocumentOptions) (schema : Schema)
  /-- Converts definitions on their own. -/
  | documents (draft : Option String) (definitions : List (String × Schema))
  | message (change : MessageChange)
  | definition (change : DefinitionChange)
  | enter (given : ContextSettings)
  | leave

namespace Operation

open Eval

/-- Carries the operation out; what it answers is left out. -/
def perform : Operation → Eval Unit
  | resolve id => do
    let _ ← Eval.resolve id
  | build recipe => do
    let _ ← recipe.build
  | define name recipe => do
    let schema ← recipe.build
    Eval.define name schema
  | safe v x => do
    let _ ← v.run x
  | call v x => do
    let _ ← v.call x
  | validate schema x => do
    let _ ← schema.validate x
  | standard schema x => do
    let _ ← schema.standardValidate x
  | parse schema x => do
    let _ ← schema.parse x
  | ensure schema x => schema.ensure x
  | safeParse schema x => do
    let _ ← schema.safeParse x
  | accepts schema x => do
    let _ ← schema.accepts x
  | tryParse schema x default => do
    let _ ← schema.tryParse x default
  | document options schema => do
    let _ ← schema.toDocument options
  | documents draft definitions => do
    let _ ← Schema.toDefinitions draft definitions
  | message change => change.perform
  | definition change => change.perform
  | enter given => Eval.enterContext given
  | leave => Eval.leaveContext

def after (operation : Operation) (world : World) : World := (operation.perform.ending world).2

private theorem accountable_discarded {α : Type} {evaluation : Eval α}
    (accountable : evaluation.Accountable) :
    (do let _ ← evaluation : Eval Unit).Accountable := accountable.bind fun _ => accountable_pure ()

theorem still_enterContext (given : ContextSettings) :
    (Eval.enterContext given).Moves World.Still := by
  intro world
  rw [Eval.enterContext, ending_get_bind, ending_bind]
  cases world.settings.enter given <;> exact ⟨rfl, rfl⟩

theorem still_leaveContext : Eval.leaveContext.Moves World.Still := by
  intro world
  rw [Eval.leaveContext, ending_get_bind]
  cases world.contexts <;> exact ⟨rfl, rfl⟩

/-- Every operation on schemas has an account from every world. -/
theorem accountable_perform : ∀ operation : Operation, operation.perform.Accountable
  | resolve id => accountable_discarded (Eval.accountable_resolve id)
  | build recipe => accountable_discarded (foregoes_build recipe).accountable
  | define name recipe =>
    (foregoes_build recipe).accountable.bind fun schema => accountable_of_still fun _ => ⟨rfl, rfl⟩
  | safe v x => accountable_discarded (v.accountable_run x)
  | call v x => accountable_discarded (v.accountable_call x)
  | validate schema x => accountable_discarded (schema.accountable_validate x)
  | standard schema x =>
    accountable_discarded ((schema.accountable_callDirectly x).bind fun _ =>
      Eval.accountable_pure _)
  | parse schema x => accountable_discarded (schema.accountable_parse x)
  | ensure schema x => accountable_discarded (schema.accountable_parse x)
  | safeParse schema x => accountable_discarded (schema.accountable_safeParse x)
  | accepts schema x =>
    accountable_discarded ((schema.accountable_validate x).bind fun _ => Eval.accountable_pure _)
  | tryParse schema x default =>
    accountable_discarded ((schema.accountable_validate x).bind fun _ => Eval.accountable_pure _)
  | document options schema => accountable_discarded (Schema.accountable_toDocument options schema)
  | documents draft definitions =>
    accountable_discarded (Schema.accountable_toDefinitions draft definitions)
  | message change => accountable_of_still fun _ => by cases change <;> exact ⟨rfl, rfl⟩
  | definition change => accountable_of_still fun _ => by cases change <;> exact ⟨rfl, rfl⟩
  | enter given => accountable_of_still (still_enterContext given)
  | leave => accountable_of_still still_leaveContext

/-- An account of what happens in a history, from a world to another one. An operation that ends in
a fault is followed by the next one all the same. -/
inductive Account : List Operation → World → List Occurrence → World → Prop
  | done (world : World) : Account [] world [] world
  | next {operation : Operation} {rest : List Operation} {world last : World}
      {account further : List Occurrence} :
      operation.perform.Involves world account → Account rest (operation.after world) further last →
      Account (operation :: rest) world (account ++ further) last

theorem exists_account (history : List Operation) (world : World) :
    ∃ account last, Account history world account last := by
  induction history generalizing world with
  | nil => exact ⟨[], world, .done world⟩
  | cons operation rest ih =>
    obtain ⟨account, involves⟩ := accountable_perform operation world
    obtain ⟨further, last, others⟩ := ih (operation.after world)
    exact ⟨account ++ further, last, .next involves others⟩

theorem Account.linked {history : List Operation} {world last : World} {account : List Occurrence}
    (accounted : Account history world account last) : Occurrence.Linked world account last := by
  induction accounted with
  | done world => exact World.Still.refl world
  | next involves _ ih => exact involves.linked.append ih

/-- A link of a chain, with the next one inside it. -/
private def linkNode : Validator :=
  .object [(.str "value", .leaf .integer), (.str "next", .optional (.lazy 0))]

/-- A world with the lazy schema of such links. -/
private def linkWorld : World :=
  { World.initial "" with lazies := [⟨some "link", .ofValidator linkNode, none⟩] }

/-- The factory of links succeeds whenever it is run. -/
private theorem allows_link {occurrence : Occurrence} (grown : linkWorld.Grows occurrence.before) :
    occurrence.Allows 0 := by
  intro cell found empty
  obtain ⟨built, held, -⟩ := grown 0 _ rfl
  obtain rfl := Option.some.inj (held.symm.trans found)
  exact ⟨linkNode, _, rfl⟩

/-- What comes after a wrapper is built and the lazy schema is asked for: a chain of two links is
validated in both forms, and the schema of links is converted. -/
private def linkHistory : List Operation :=
  let chain : Value := .dict [(.str "value", .int 1), (.str "next", .dict [(.str "value", .int 2)])]
  [.safe (.lazy 0) chain, .call (.array (.lazy 0)) (.list [chain, .int 3]),
    .document ⟨true, none, true, []⟩ (.validator (.lazy 0)), .resolve 0]

end Operation

end Conform
