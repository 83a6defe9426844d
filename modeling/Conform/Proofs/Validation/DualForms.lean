import Conform.Proofs.Evaluation.LawfulRules
import Conform.Proofs.Evaluation.Worlds

/-!
The two forms of a validator. Several constructions have a calling form of their own instead of
raising what their safe form reports; `Validator.call_decided_by_safe` says that this makes no
difference: however the safe form ends, the calling form ends accordingly and in the same world.
Callbacks may do anything to the trace, for instance write down that they were called with what, so
an equal world means the same calls in the same order.
-/
namespace Conform

/-- The message of a fault is text: the fault has a text, and the line of a failure is one. -/
def Fault.Worded : Fault → Prop
  | .invalid failure => failure.line.isStr
  | other => other.hasText

/-- The messages that a piece brings in are text. A validator given its two forms separately is not
built of such pieces. -/
def Piece.Worded : Piece → Prop
  | .callback function => ∀ x trace fault after,
    (function.run x).Faults trace fault after → fault.Worded
  | .renderer render => (∀ x trace fault after,
      (render.run x).Faults trace fault after → fault.Worded) ∧
    ∀ x trace message after, (render.run x).Returns trace message after → message.isStr
  | .reporter function => ∀ x trace failure after,
    (function.run x).Returns trace (.err failure) after → failure.line.isStr
  | .pair _ _ => False
  | .message given => given.isStr

namespace Law

/-- Lines and messages are text. -/
def worded : Law where
  world := fun world => world.Builds (Rule.SuppliedBy Piece.Worded)
  message := fun message => message.isStr
  failure := fun failure => failure.line.isStr
  fault := fun _ => True

/-- A fault with worded messages is one that the law of wording handles. -/
private theorem worded_handles {fault : Fault} (isWorded : fault.Worded) :
    worded.Handles fault := by
  intro default lawful
  cases fault with
  | invalid failure => exact isWorded
  | leaving kind text => trivial
  | misuse cause | ordinary kind text =>
    have written : Fault.hasText _ = true := isWorded
    simp only [Fault.caught?, Fault.messageOr, written, if_true]
    split
    · exact lawful
    · exact rfl

/-- A piece that raises worded faults only is one that the law of wording allows. -/
theorem worded_allows {piece : Piece} (isWorded : piece.Worded) : worded.Allows piece := by
  cases piece with
  | callback function =>
    exact fun x trace fault after faulted => worded_handles (isWorded x trace fault after faulted)
  | renderer render =>
    refine ⟨fun x trace fault after faulted => ?_, isWorded.2⟩
    exact worded_handles (isWorded.1 x trace fault after faulted)
  | reporter function => exact ⟨fun _ _ _ _ _ => trivial, isWorded⟩
  | pair function result => exact isWorded.elim
  | message message => exact isWorded

theorem worded_respected : worded.Respected where
  traced trace builds := builds.later (.traced trace .refl)
  resolved builds resolved :=
    ⟨builds.later (World.Later.refl.of_returns resolved), fun piece member =>
      worded_allows (builds _ _ _ _ .refl resolved piece member)⟩
  unresolved builds faulted := ⟨builds.later (World.Later.refl.of_faults faulted), trivial⟩
  text _ := rfl
  line lawful := lawful
  misuse _ := trivial
  plain _ := rfl
  expecting _ _ := rfl
  said lawful := lawful
  crossed message paths := by cases paths <;> rfl
  reported first others lawful := lawful first List.mem_cons_self
  within _ _ _ := rfl
  invalidKey _ _ := rfl
  below _ lawful := lawful

end Law

/-- However the safe computation ends, the calling computation ends accordingly. -/
def Determines (safely : Checked Value) (calling : Eval Value) : Prop :=
  ∀ world : World, world.Builds (Rule.SuppliedBy Piece.Worded) →
    (∀ y after, safely.Returns world y after → calling.Returns world y after) ∧
    (∀ failure after, safely.Reports world failure after →
      ∃ fault, calling.Faults world fault after ∧
        fault.caught? (.str Fault.noText) = some failure) ∧
    ∀ fault after, safely.Faults world fault after → calling.Faults world fault after

namespace Determines

open Checked SafeForm

theorem of_returned (value : Value) : Determines (pure value) (pure value) := by
  intro world builds
  refine ⟨?_, by simp, by simp⟩
  intro y after returned
  exact Eval.returns_pure.mpr (returns_pure.mp returned)

/-- Raising what a computation reports preserves a line that is text. -/
theorem of_raising {safely : Checked Value} (kept : safely.Keeps Law.worded anything) :
    Determines safely (raising safely) := by
  intro world builds
  refine ⟨?_, ?_, ?_⟩
  · intro y after returned
    rw [Eval.Returns, ending_raising, show safely.ending world = _ from returned]
  · intro failure after reported
    have line := ((kept world builds).2.1 failure after reported).2
    have same : failure.raised = failure := by
      obtain ⟨line', first, others⟩ := failure
      cases line' with
      | str text => rfl
      | _ => cases line
    refine ⟨.invalid failure, ?_, rfl⟩
    rw [Eval.Faults, ending_raising, show safely.ending world = _ from reported]
    simp only [same]
  · intro fault after faulted
    rw [Eval.Faults, ending_raising, show safely.ending world = _ from faulted]

/-- A callback called outright raises what a guarded one reports. -/
theorem of_guarded {run : Traced Value}
    (worded : ∀ trace fault after, run.Faults trace fault after → fault.Worded) :
    Determines (guarded (.str Fault.noText) run) (Eval.perform run) := by
  intro world builds
  refine ⟨?_, ?_, ?_⟩
  · intro y after returned
    exact Eval.returns_perform.mpr (returns_guarded.mp returned)
  · intro failure after reported
    obtain ⟨raised, trace, ran, caught, left⟩ := reports_guarded.mp reported
    exact ⟨raised, Eval.faults_perform.mpr ⟨trace, ran, left⟩, caught⟩
  · intro fault after faulted
    obtain ⟨raised, trace, ran, uncaught, rfl, left⟩ := faults_guarded.mp faulted
    have passed : raised.passed = raised := by
      cases raised with
      | invalid failure => cases uncaught
      | leaving | misuse | ordinary => exact if_pos (worded _ _ _ ran)
    exact Eval.faults_perform.mpr ⟨trace, passed.symm ▸ ran, left⟩

/-- The safe form determines the calling form of a sequence if it does so in each half and what it
says is worded. -/
theorem bind {safely : Checked Value} {calling : Eval Value} {safeNext : SafeForm}
    {callNext : CallForm} (kept : safely.Keeps Law.worded anything)
    (first : Determines safely calling) (rest : ∀ y, Determines (safeNext y) (callNext y)) :
    Determines (safely >>= safeNext) (calling >>= callNext) := by
  intro world builds
  obtain ⟨returning, reporting, faulting⟩ := first world builds
  refine ⟨?_, ?_, ?_⟩
  · intro z after returned
    obtain ⟨y, between, before, later⟩ := returns_bind.mp returned
    have further := ((kept world builds).1 y between before).1
    exact Eval.returns_bind.mpr
      ⟨y, between, returning y between before, (rest y between further).1 z after later⟩
  · intro failure after reported
    rcases reports_bind.mp reported with early | ⟨y, between, before, later⟩
    · obtain ⟨fault, faulted, caught⟩ := reporting failure after early
      exact ⟨fault, Eval.faults_bind.mpr (.inl faulted), caught⟩
    · have further := ((kept world builds).1 y between before).1
      obtain ⟨fault, faulted, caught⟩ := (rest y between further).2.1 failure after later
      exact ⟨fault,
        Eval.faults_bind.mpr (.inr ⟨y, between, returning y between before, faulted⟩), caught⟩
  · intro fault after faulted
    rcases faults_bind.mp faulted with early | ⟨y, between, before, later⟩
    · exact Eval.faults_bind.mpr (.inl (faulting fault after early))
    · have further := ((kept world builds).1 y between before).1
      exact Eval.faults_bind.mpr
        (.inr ⟨y, between, returning y between before,
          (rest y between further).2.2 fault after later⟩)

/-- Both forms of a lazy rule go on with what it stands for. -/
theorem resolve {id : Nat} {safeNext : Validator → Checked Value}
    {callNext : Validator → Eval Value}
    (rest : ∀ v : Validator, v.rule.SuppliedBy Piece.Worded →
      Determines (safeNext v) (callNext v)) :
    Determines (ExceptT.lift (Eval.resolve id) >>= safeNext) (Eval.resolve id >>= callNext) := by
  intro world builds
  have determined : ∀ v between, (Eval.resolve id).Returns world v between →
      between.Builds (Rule.SuppliedBy Piece.Worded) ∧ v.rule.SuppliedBy Piece.Worded :=
    fun v between resolved => ⟨builds.later (World.Later.refl.of_returns resolved),
      builds _ _ _ _ .refl resolved⟩
  refine ⟨?_, ?_, ?_⟩
  · intro z after returned
    obtain ⟨v, between, before, later⟩ := returns_bind.mp returned
    have resolved := returns_lift.mp before
    obtain ⟨further, supplied⟩ := determined v between resolved
    exact Eval.returns_bind.mpr ⟨v, between, resolved,
      (rest v supplied between further).1 z after later⟩
  · intro failure after reported
    rcases reports_bind.mp reported with early | ⟨v, between, before, later⟩
    · exact absurd early reports_lift
    · have resolved := returns_lift.mp before
      obtain ⟨further, supplied⟩ := determined v between resolved
      obtain ⟨fault, faulted, caught⟩ := (rest v supplied between further).2.1 failure after later
      exact ⟨fault, Eval.faults_bind.mpr (.inr ⟨v, between, resolved, faulted⟩), caught⟩
  · intro fault after faulted
    rcases faults_bind.mp faulted with early | ⟨v, between, before, later⟩
    · exact Eval.faults_bind.mpr (.inl (faults_lift.mp early))
    · have resolved := returns_lift.mp before
      obtain ⟨further, supplied⟩ := determined v between resolved
      exact Eval.faults_bind.mpr
        (.inr ⟨v, between, resolved, (rest v supplied between further).2.2 fault after later⟩)

end Determines

namespace Rule

open SafeForm

variable {onLazy : Nat → SafeForm} {onLazyCall : Nat → CallForm}

mutual

/-- The safe form of a rule determines its calling form when this is so of lazy rules. -/
theorem determines_call (lawful : ∀ id, Lawful Law.worded (onLazy id))
    (lazies : ∀ id x, Determines (onLazy id x) (onLazyCall id x)) :
    ∀ rule : Rule, rule.SuppliedBy Piece.Worded →
      ∀ x, Determines (rule.safe onLazy x) (rule.call onLazy onLazyCall x)
  | .plain _, supplied, x => .of_guarded (supplied _ (List.mem_singleton.mpr rfl) x)
  | .paired _ _, supplied, _ => (supplied _ (List.mem_singleton.mpr rfl)).elim
  | .pipe steps, supplied, x => determines_callAll lawful lazies steps supplied x
  | .accepting absence inner, supplied, x => by
    simp only [safe, SafeForm.accepting, call]
    split
    · exact .of_returned x
    · exact determines_call lawful lazies inner supplied x
  | .withDefault inner value, supplied, x => by
    simp only [safe, SafeForm.withDefault, call]
    split
    · exact .of_returned value
    · exact determines_call lawful lazies inner supplied x
  | .lazy id, _, x => lazies id x
  -- All other rules raise what their safe form reports, so the line must be text.
  | .leaf _, supplied, x | .instanceOf _, supplied, x | .literal _, supplied, x
  | .oneOf _, supplied, x | .keyName _, supplied, x | .check _ _, supplied, x
  | .resulting _, supplied, x | .recovering _ _, supplied, x | .rejecting _ _, supplied, x
  | .union _, supplied, x | .discriminatedUnion _, supplied, x | .variant _ _, supplied, x
  | .intersect _, supplied, x | .refine _ _ _, supplied, x | .transform _ _ _, supplied, x
  | .preprocess _ _, supplied, x | .convert _ _, supplied, x | .tryConvert _, supplied, x
  | .rawCheck _, supplied, x | .rawConvert _, supplied, x | .crossCheck _ _ _, supplied, x
  | .items _ _ _, supplied, x | .retitle _ _, supplied, x | .forward _ _, supplied, x
  | .array _, supplied, x | .tuple _, supplied, x | .looseTuple _, supplied, x
  | .tupleWithRest _ _, supplied, x | .object _, supplied, x | .looseObject _, supplied, x
  | .objectWithRest _ _, supplied, x | .passthrough _, supplied, x | .lenient _, supplied, x
  | .required _ _, supplied, x | .record _ _, supplied, x | .map _ _, supplied, x
  | .set _, supplied, x =>
    .of_raising (keeps_safe Law.worded_respected lawful _
      (fun piece member => Law.worded_allows (supplied piece member)) x)

/-- The safe forms of steps determine their calling forms. -/
theorem determines_callAll (lawful : ∀ id, Lawful Law.worded (onLazy id))
    (lazies : ∀ id x, Determines (onLazy id x) (onLazyCall id x)) :
    ∀ rules : List Rule, (∀ piece ∈ piecesAll rules, piece.Worded) →
      ∀ x, Determines (SafeForm.pipe (safeAll onLazy rules) x) (callAll onLazy onLazyCall rules x)
  | [], _, x => .of_returned x
  | rule :: rest, supplied, x => by
    obtain ⟨first, others⟩ := List.forall_mem_append.mp supplied
    refine .bind ?_ (determines_call lawful lazies rule first x)
      (determines_callAll lawful lazies rest others)
    exact keeps_safe Law.worded_respected lawful rule
      (fun piece member => Law.worded_allows (first piece member)) x

end

/-- The two forms of a lazy rule agree, whatever the budget. -/
theorem determines_lazyCall (budget : Nat) :
    ∀ id x, Determines (lazySafe budget id x) (lazyCall budget id x) := by
  induction budget with
  | zero =>
    intro id x world builds
    refine ⟨fun y after returned => absurd returned Checked.returns_misuse,
      fun failure after reported => absurd reported Checked.reports_misuse, ?_⟩
    intro fault after faulted
    exact Eval.faults_misuse.mpr (Checked.faults_misuse.mp faulted)
  | succ budget ih =>
    intro id x
    refine .resolve fun v supplied => ?_
    exact determines_call (keeps_lazySafe Law.worded_respected budget) ih v.rule supplied x

end Rule

/-- A callback that writes down what it is called with and refuses everything but text. -/
private def remark : Callable where
  name := "remark"
  run x := do
    Traced.log ⟨"remark", x⟩
    if x.isStr then pure x else Traced.raise (.ordinary .value "no remark")

/-- Remarks in a chain: every link has one, and the next link may be absent. -/
private def chain : Validator :=
  .object [(.str "remark", .of (.plain remark) none), (.str "next", .optional (.lazy 0))]

private def chainWorld : World :=
  { World.initial "chain" with lazies := [⟨some "link", .ofValidator chain, none⟩] }

private theorem remark_worded : (Piece.callback remark).Worded := by
  intro x trace fault after faulted
  cases text : x.isStr <;> simp only [Traced.Faults, Traced.ending, remark] at faulted <;>
    rw [text] at faulted <;> cases faulted
  rfl

private theorem chain_supplied : chain.rule.SuppliedBy Piece.Worded := by
  intro piece member
  cases List.mem_singleton.mp member
  exact remark_worded

private theorem chainWorld_builds : chainWorld.Builds (Rule.SuppliedBy Piece.Worded) := by
  have sound : chainWorld.Sound (World.Reads (Rule.SuppliedBy Piece.Worded))
      (Rule.SuppliedBy Piece.Worded) := by
    refine ⟨fun entry member => (nomatch member), ?_, ?_⟩
    · intro cell member
      cases List.mem_singleton.mp member
      refine Recipe.keeps_ofValidator fun v read => ?_
      cases read
      exact chain_supplied
    · intro cell member v built
      cases List.mem_singleton.mp member
      cases built
  exact sound.builds_of_reads fun id piece member => nomatch member

end Conform
