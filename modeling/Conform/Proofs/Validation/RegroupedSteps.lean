import Conform.Proofs.Evaluation.Endings
import Conform.Proofs.Evaluation.Pieces
import Conform.Proofs.Validator.Grouping
import Conform.Proofs.Value.Entries

/-!
Sequences of steps in groups. A sequence of sequences runs the steps one after the other as one
sequence of all of them does, and says the same about them: parameters and documentation that were
put together group by group are those of all steps together (`Validator.pipe_regrouped`).
-/
namespace Conform

namespace SafeForm

theorem pipe_singleton (form : SafeForm) : pipe [form] = form :=
  funext fun x => bind_pure (form x)

theorem pipe_append (forms others : List SafeForm) (x : Value) :
    pipe (forms ++ others) x = pipe forms x >>= pipe others := by
  induction forms generalizing x with
  | nil => exact (pure_bind x _).symm
  | cons form rest ih => simp only [List.cons_append, pipe, ih, bind_assoc]

end SafeForm

namespace Rule

variable (onLazy : Nat → SafeForm) (onLazyCall : Nat → CallForm)

theorem callAll_singleton (rule : Rule) :
    callAll onLazy onLazyCall [rule] = call onLazy onLazyCall rule :=
  funext fun x => bind_pure (call onLazy onLazyCall rule x)

theorem callAll_append (parts others : List Rule) (x : Value) :
    callAll onLazy onLazyCall (parts ++ others) x =
      callAll onLazy onLazyCall parts x >>= callAll onLazy onLazyCall others := by
  induction parts generalizing x with
  | nil => exact (pure_bind x _).symm
  | cons part rest ih => simp only [List.cons_append, callAll, ih, bind_assoc]

/-- Steps in turn accept, each what the one before it gave. -/
inductive StepsPass : List Rule → Value → World → Value → World → Prop where
  | nil {x : Value} {world : World} : StepsPass [] x world x world
  | cons {step : Rule} {rest : List Rule} {x y z : Value} {world between after : World}
      (returned : (step.safe onLazy x).Returns world y between)
        (others : StepsPass rest y between z after) :
      StepsPass (step :: rest) x world z after

variable {onLazy} {steps : List Rule} {x y : Value} {world after : World} {failure : Failure}

/-- A sequence returns what its steps pass on, one after the other. -/
theorem returns_pipe : (SafeForm.pipe (safeAll onLazy steps) x).Returns world y after ↔
    StepsPass onLazy steps x world y after := by
  induction steps generalizing x world with
  | nil =>
    simp only [safeAll, SafeForm.pipe, Checked.returns_pure]
    constructor
    · rintro ⟨rfl, rfl⟩
      exact .nil
    · rintro ⟨⟩
      exact ⟨rfl, rfl⟩
  | cons step rest ih =>
    simp only [safeAll, SafeForm.pipe, Checked.returns_bind, ih]
    constructor
    · rintro ⟨given, between, returned, others⟩
      exact .cons returned others
    · rintro ⟨⟩
      exact ⟨_, _, ‹_›, ‹_›⟩

/-- A sequence reports what a step reports, unchanged, after the steps before it accepted. -/
theorem reports_pipe : (SafeForm.pipe (safeAll onLazy steps) x).Reports world failure after ↔
    ∃ before step others given reached, steps = before ++ step :: others ∧
      StepsPass onLazy before x world given reached ∧
      (step.safe onLazy given).Reports reached failure after := by
  constructor
  · intro reported
    induction steps generalizing x world with
    | nil => exact absurd reported Checked.reports_pure
    | cons step rest ih =>
      rcases Checked.reports_bind.mp reported with failed | ⟨given, between, returned, later⟩
      · exact ⟨[], step, rest, x, world, rfl, .nil, failed⟩
      · obtain ⟨before, failing, others, last, reached, rfl, pass, failed⟩ := ih later
        exact ⟨step :: before, failing, others, last, reached, rfl, .cons returned pass, failed⟩
  · rintro ⟨before, step, others, given, reached, rfl, pass, failed⟩
    rw [safeAll_append, SafeForm.pipe_append, Checked.reports_bind]
    exact .inr ⟨given, reached, returns_pipe.mpr pass, Checked.reports_bind.mpr (.inl failed)⟩

end Rule

theorem Documentation.overlay_assoc (first second third : Documentation) :
    first.overlay (second.overlay third) = (first.overlay second).overlay third := by
  simp only [overlay, Option.orElse_eq_orElse, Option.orElse_eq_or, Option.or_assoc]

theorem Documentation.overlay_empty (docs : Documentation) : docs.overlay empty = docs := by
  simp only [overlay, empty, Option.orElse_eq_orElse, Option.orElse_eq_or, Option.none_or]

namespace Metadata

def withParametersOf (earlier : List (String × Parameter)) (steps : List (Option Metadata)) :
    List (String × Parameter) :=
  steps.foldl (fun parameters step => Entries.merge parameters (parametersOf step)) earlier

def withDocsOf (earlier : Documentation) (steps : List (Option Metadata)) : Documentation :=
  steps.foldl (fun docs step => docs.overlay (docsOf step)) earlier

variable {earlier : List (String × Parameter)}

theorem withParametersOf_append (steps others : List (Option Metadata)) :
    withParametersOf earlier (steps ++ others) = withParametersOf
      (withParametersOf earlier steps) others :=
  List.foldl_append

theorem withDocsOf_append (docs : Documentation) (steps others : List (Option Metadata)) :
    withDocsOf docs (steps ++ others) = withDocsOf (withDocsOf docs steps) others :=
  List.foldl_append

/-- The parameters of steps may be put together first. -/
theorem merge_withParametersOf {middle : List (String × Parameter)}
    (distinct : Entries.Distinct middle) (steps : List (Option Metadata)) :
    Entries.merge earlier (withParametersOf middle steps) =
      withParametersOf (Entries.merge earlier middle) steps := by
  induction steps generalizing middle with
  | nil => rfl
  | cons step rest ih =>
    have stepped := ih (distinct.merge (parametersOf step))
    rw [Entries.merge_merge distinct] at stepped
    exact stepped

/-- The documentation of steps may be put together first. -/
theorem overlay_withDocsOf (docs middle : Documentation) (steps : List (Option Metadata)) :
    docs.overlay (withDocsOf middle steps) = withDocsOf (docs.overlay middle) steps := by
  induction steps generalizing middle with
  | nil => rfl
  | cons step rest ih =>
    have stepped := ih (middle.overlay (docsOf step))
    rw [Documentation.overlay_assoc] at stepped
    exact stepped

end Metadata

namespace Validator

open Rule

def descriptions (vs : List Validator) : List (Option Metadata) := vs.map (·.metadata)

theorem descriptions_append (vs others : List Validator) :
    descriptions (vs ++ others) = descriptions vs ++ descriptions others := List.map_append

/-- The description of a sequence of steps. -/
def sequenceOf (steps : List Validator) (children : Children) : Metadata where
  kind := .pipe
  parameters := Metadata.withParametersOf [] (descriptions steps)
  children := children
  docs := Metadata.withDocsOf .empty (descriptions steps)
  default := .missing

/-- Two rows of steps answer alike, and what they add to any description is the same. -/
structure SameSteps (steps others : List Validator) : Prop where
  safe : ∀ onLazy,
    SafeForm.pipe (safeAll onLazy (rules steps)) = SafeForm.pipe (safeAll onLazy (rules others))
  call : ∀ onLazy onLazyCall,
    callAll onLazy onLazyCall (rules steps) = callAll onLazy onLazyCall (rules others)
  parameters : ∀ earlier, Metadata.withParametersOf earlier (descriptions steps) =
    Metadata.withParametersOf earlier (descriptions others)
  docs : ∀ earlier, Metadata.withDocsOf earlier (descriptions steps) =
    Metadata.withDocsOf earlier (descriptions others)

theorem SameSteps.description {steps others : List Validator} (same : SameSteps steps others)
    (children : Children) : sequenceOf steps children = sequenceOf others children := by
  rw [sequenceOf, sequenceOf, same.parameters, same.docs]

/-- Steps that are the same in two rows are the same in the rows one behind the other. -/
theorem SameSteps.append {steps others more further : List Validator}
    (same : SameSteps steps others)
    (also : SameSteps more further) : SameSteps (steps ++ more) (others ++ further) where
  safe onLazy := by
    funext x
    simp only [rules_append, safeAll_append, SafeForm.pipe_append, same.safe, also.safe]
  call onLazy onLazyCall := by
    funext x
    simp only [rules_append, callAll_append, same.call, also.call]
  parameters earlier := by
    simp only [descriptions_append, Metadata.withParametersOf_append, same.parameters,
      also.parameters]
  docs earlier := by
    simp only [descriptions_append, Metadata.withDocsOf_append, same.docs, also.docs]

/-- The validator of a sequence answers as its steps do in turn. -/
theorem pipe_answers {steps : List Validator} {v : Validator} (made : pipe steps = .ok v) :
    v.metadata = some (sequenceOf steps (.ofValidators steps)) ∧
    (∀ onLazy, v.rule.safe onLazy = SafeForm.pipe (safeAll onLazy (rules steps))) ∧
      ∀ onLazy onLazyCall,
        v.rule.call onLazy onLazyCall = callAll onLazy onLazyCall (rules steps) := by
  obtain ⟨some, rfl⟩ := nonempty_of_made made
  refine ⟨rfl, ?_⟩
  match steps with
  | [] => exact absurd rfl some
  | [only] =>
    exact ⟨fun _ => (SafeForm.pipe_singleton _).symm, fun _ _ => (callAll_singleton _ _ _).symm⟩
  | _ :: _ :: _ => exact ⟨fun _ => rfl, fun _ _ => rfl⟩

theorem sameSteps_of_pipe {steps : List Validator} {v : Validator} (made : pipe steps = .ok v) :
    SameSteps [v] steps := by
  obtain ⟨described, safe, call⟩ := pipe_answers made
  refine ⟨fun onLazy => ?_, fun onLazy onLazyCall => ?_, fun earlier => ?_, fun earlier => ?_⟩
  · exact (SafeForm.pipe_singleton _).trans (safe onLazy)
  · exact (callAll_singleton _ _ _).trans (call onLazy onLazyCall)
  · calc Metadata.withParametersOf earlier (descriptions [v])
        = Entries.merge earlier (Metadata.withParametersOf [] (descriptions steps)) := by
          change Entries.merge earlier (Metadata.parametersOf v.metadata) = _
          rw [described]
          rfl
      _ = Metadata.withParametersOf earlier (descriptions steps) :=
        Metadata.merge_withParametersOf .nil _
  · calc Metadata.withDocsOf earlier (descriptions [v])
        = earlier.overlay (Metadata.withDocsOf .empty (descriptions steps)) := by
          change earlier.overlay (Metadata.docsOf v.metadata) = _
          rw [described]
          rfl
      _ = Metadata.withDocsOf earlier (descriptions steps) := by
        rw [Metadata.overlay_withDocsOf, Documentation.overlay_empty]

/-- Grouping the steps of a sequence is respected. -/
theorem pipe_respected : Grouping.Respected pipe SameSteps where
  refl _ := ⟨fun _ => rfl, fun _ _ => rfl, fun _ => rfl, fun _ => rfl⟩
  trans first second := ⟨fun _ => (first.safe _).trans (second.safe _),
    fun _ _ => (first.call _ _).trans (second.call _ _),
    fun _ => (first.parameters _).trans (second.parameters _), fun _ =>
      (first.docs _).trans (second.docs _)⟩
  append := SameSteps.append
  makes some := ⟨_, made_of_nonempty some _⟩
  made := sameSteps_of_pipe

/-- Steps make the same sequence whichever way they are grouped into sequences: the two answer alike
in both forms, with the same effects, and their descriptions differ in the children alone. Either
reports the failure of the first step that fails as it stands. -/
theorem pipe_regrouped (first : Grouping) (others : List Grouping) {steps : List Validator}
    (read : Schema.toValidators (Grouping.group first others).schemas = .ok steps) :
    ∃ nested flat, (Grouping.group first others).build pipe = .ok (.validator nested) ∧
      pipe steps = .ok flat ∧ nested.safe = flat.safe ∧ nested.call = flat.call ∧
      (∃ description children, flat.metadata = some description ∧
        nested.metadata = some { description with children := children }) ∧
      ∀ x world,
        (∀ y after, (flat.safe x).Returns world y after ↔
          StepsPass (lazySafe (world.budget x)) (rules steps) x world y after) ∧
        ∀ failure after, (flat.safe x).Reports world failure after ↔
          ∃ before step rest y reached, rules steps = before ++ step :: rest ∧
            StepsPass (lazySafe (world.budget x)) before x world y reached ∧
            (step.safe (lazySafe (world.budget x)) y).Reports reached failure after := by
  obtain ⟨given, nested, flat, built, whole, made, same⟩ := Grouping.exists_both pipe_respected read
  obtain ⟨described, safe, call⟩ := pipe_answers whole
  obtain ⟨likewise, safely, calling⟩ := pipe_answers made
  have sameSafe : nested.safe = flat.safe := funext fun x => safe_congr fun onLazy => by
    rw [safe, safely, same.safe]
  have sameCall : ∀ onLazy onLazyCall,
      nested.rule.call onLazy onLazyCall = flat.rule.call onLazy onLazyCall :=
    fun onLazy onLazyCall => by rw [call, calling, same.call]
  refine ⟨nested, flat, built, whole, sameSafe, ?_, ⟨_, .ofValidators given, described, ?_⟩,
    fun x world =>
    ⟨fun y after => ?_, fun failure after => ?_⟩⟩
  · unfold Validator.call
    simp only [sameCall]
  · rw [likewise, same.description]
    rfl
  · rw [returns_safe, safe, returns_pipe]
  · rw [reports_safe, safe, reports_pipe]

/-- A callback that writes down what it is called with. -/
private def observed : Callable where
  name := "observed"
  run x := do
    Traced.log ⟨"observed", x⟩
    pure x

/-- Steps behind a first one: a class and a callback in a group of their own, and a text asked
for. -/
private def behind : List Grouping :=
  [.group (.single (.validator (instanceOf .str))) [.single (.function observed)],
    .single (.validator (literal (.str "b")))]

/-- The last step refuses what the first one asks for, after one call of the callback between them;
the text that is asked for is described in the place of the first and is that of the last. -/
theorem observed_regrouped :
    ∃ steps nested flat, Schema.toValidators
        (Grouping.group (.single (.validator (literal (.str "a")))) behind).schemas = .ok steps ∧
      (Grouping.group (.single (.validator (literal (.str "a")))) behind).build pipe =
        .ok (.validator nested) ∧
      pipe steps = .ok flat ∧ nested.safe = flat.safe ∧ nested.call = flat.call ∧
      Metadata.parametersOf nested.metadata =
        [("value", .value (.str "b")), ("class", .value (.str Class.str.name))] ∧
      (nested.safe (.str "a")).Reports (World.initial "")
        (.plain ("Expected " ++ (Value.str "b").rendered))
        ((World.initial "").traced ⟨[⟨"observed", .str "a"⟩], 0⟩) := by
  have read : Schema.toValidators
      (Grouping.group (.single (.validator (literal (.str "a")))) behind).schemas =
        .ok [literal (.str "a"), instanceOf .str, of (.plain observed) none,
          literal (.str "b")] := rfl
  obtain ⟨nested, flat, built, whole, safe, call,
    ⟨description, children, described, likewise⟩, -⟩ :=
    pipe_regrouped _ _ read
  refine ⟨_, nested, flat, read, built, whole, safe, call, ?_, ?_⟩
  · rw [likewise]
    cases whole
    cases described
    rfl
  · rw [safe]
    cases whole
    rfl

end Validator

end Conform
