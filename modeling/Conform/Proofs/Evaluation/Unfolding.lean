import Conform.Proofs.Evaluation.Frames
import Conform.Proofs.Evaluation.Pieces
import Mathlib.Logic.Basic

/-!
Unfolding of recursive schemas. A lazy rule inside another is a reference; `Rule.substitute` puts a
rule in its place, and `Rule.unfolding` does so a number of times, with any rule at the innermost
references. Substitution and evaluation commute (`Rule.safe_substitute`).
-/
namespace Conform

namespace Rule

mutual

/-- The rule with another in place of a lazy rule, wherever it is referred to. -/
def substitute (id : Nat) (replacement : Rule) : Rule → Rule
  | .pipe steps => .pipe (substituteAll id replacement steps)
  | .accepting absence inner => .accepting absence (substitute id replacement inner)
  | .withDefault inner value => .withDefault (substitute id replacement inner) value
  | .recovering inner value => .recovering (substitute id replacement inner) value
  | .rejecting absence inner => .rejecting absence (substitute id replacement inner)
  | .union options => .union (substituteAll id replacement options)
  | .discriminatedUnion options => .discriminatedUnion (substituteAll id replacement options)
  | .variant key options => .variant key (substituteAll id replacement options)
  | .intersect members => .intersect (substituteAll id replacement members)
  | .refine inner test message => .refine (substitute id replacement inner) test message
  | .transform inner function failure =>
    .transform (substitute id replacement inner) function failure
  | .preprocess function inner => .preprocess function (substitute id replacement inner)
  | .retitle inner source => .retitle (substitute id replacement inner) source
  | .forward inner path => .forward (substitute id replacement inner) path
  | .array item => .array (substitute id replacement item)
  | .tuple positions => .tuple (substituteAll id replacement positions)
  | .looseTuple positions => .looseTuple (substituteAll id replacement positions)
  | .tupleWithRest positions rest =>
    .tupleWithRest (substituteAll id replacement positions) (substitute id replacement rest)
  | .object fields => .object (substituteFields id replacement fields)
  | .looseObject fields => .looseObject (substituteFields id replacement fields)
  | .objectWithRest fields rest =>
    .objectWithRest (substituteFields id replacement fields) (substitute id replacement rest)
  | .passthrough inner => .passthrough (substitute id replacement inner)
  | .lenient inner => .lenient (substitute id replacement inner)
  | .required declared inner => .required declared (substitute id replacement inner)
  | .record key value =>
    .record (substitute id replacement key) (substitute id replacement value)
  | .map key value => .map (substitute id replacement key) (substitute id replacement value)
  | .set item => .set (substitute id replacement item)
  | .lazy other => if other = id then replacement else .lazy other
  | rule => rule
termination_by structural rule => rule

/-- Rules with another in place of a lazy rule. -/
def substituteAll (id : Nat) (replacement : Rule) : List Rule → List Rule
  | [] => []
  | rule :: rest => substitute id replacement rule :: substituteAll id replacement rest
termination_by structural rules => rules

/-- Named rules with another in place of a lazy rule. -/
def substituteFields (id : Nat) (replacement : Rule) : List (Value × Rule) → List (Value × Rule)
  | [] => []
  | (key, rule) :: rest =>
    (key, substitute id replacement rule) :: substituteFields id replacement rest
termination_by structural fields => fields

end

/-- A rule with itself in place of the references in it, so many times inside one another, and
another rule in place of the innermost ones. -/
def unfolding (id : Nat) (rule innermost : Rule) : Nat → Rule
  | 0 => innermost
  | n + 1 => substitute id (unfolding id rule innermost n) rule

/-- The safe forms of lazy rules with a form in place of one of them. -/
def standing (onLazy : Nat → SafeForm) (id : Nat) (form : SafeForm) (other : Nat) : SafeForm :=
  if other = id then form else onLazy other

variable (onLazy : Nat → SafeForm) (id : Nat) (replacement : Rule)

mutual

/-- To put a rule in place of a lazy one is to let its safe form stand for the lazy one. -/
theorem safe_substitute : ∀ rule : Rule, (substitute id replacement rule).safe onLazy =
    rule.safe (standing onLazy id (replacement.safe onLazy))
  | .pipe steps => congrArg SafeForm.pipe (safe_substituteAll steps)
  | .accepting absence inner => congrArg (SafeForm.accepting absence) (safe_substitute inner)
  | .withDefault inner value => congrArg (SafeForm.withDefault · value) (safe_substitute inner)
  | .recovering inner value => congrArg (SafeForm.recovering · value) (safe_substitute inner)
  | .rejecting absence inner => congrArg (SafeForm.rejecting absence) (safe_substitute inner)
  | .union options => congrArg SafeForm.union (safe_substituteAll options)
  | .discriminatedUnion options => congrArg SafeForm.discriminatedUnion (safe_substituteAll options)
  | .variant key options => congrArg (SafeForm.variant key) (safe_substituteAll options)
  | .intersect members => congrArg SafeForm.intersect (safe_substituteAll members)
  | .refine inner test message => congrArg (SafeForm.refine · test message) (safe_substitute inner)
  | .transform inner function failure =>
    congrArg (SafeForm.transform · function failure) (safe_substitute inner)
  | .preprocess function inner => congrArg (SafeForm.preprocess function) (safe_substitute inner)
  | .retitle inner source => congrArg (SafeForm.retitle · source) (safe_substitute inner)
  | .forward inner path => congrArg (SafeForm.forward · path) (safe_substitute inner)
  | .array item => congrArg SafeForm.array (safe_substitute item)
  | .tuple positions => congrArg SafeForm.tuple (safe_substituteAll positions)
  | .looseTuple positions => congrArg SafeForm.looseTuple (safe_substituteAll positions)
  | .tupleWithRest positions rest =>
    congrArg₂ SafeForm.tupleWithRest (safe_substituteAll positions) (safe_substitute rest)
  | .object fields => congrArg SafeForm.object (safe_substituteFields fields)
  | .looseObject fields => congrArg SafeForm.looseObject (safe_substituteFields fields)
  | .objectWithRest fields rest =>
    congrArg₂ SafeForm.objectWithRest (safe_substituteFields fields) (safe_substitute rest)
  | .passthrough inner => congrArg SafeForm.passthrough (safe_substitute inner)
  | .lenient inner => congrArg SafeForm.lenient (safe_substitute inner)
  | .required declared inner => congrArg (SafeForm.required declared) (safe_substitute inner)
  | .record key value => congrArg₂ SafeForm.record (safe_substitute key) (safe_substitute value)
  | .map key value => congrArg₂ SafeForm.map (safe_substitute key) (safe_substitute value)
  | .set item => congrArg SafeForm.set (safe_substitute item)
  | .lazy other => by
    change (if other = id then replacement else Rule.lazy other).safe onLazy =
      if other = id then replacement.safe onLazy else onLazy other
    split <;> rfl
  | .leaf _ | .instanceOf _ | .literal _ | .oneOf _ | .keyName _ | .check _ _ | .plain _
  | .resulting _ | .paired _ _ | .convert _ _ | .tryConvert _ | .rawCheck _ | .rawConvert _
  | .crossCheck _ _ _ | .items _ _ _ => rfl

theorem safe_substituteAll : ∀ rules : List Rule,
    safeAll onLazy (substituteAll id replacement rules) =
      safeAll (standing onLazy id (replacement.safe onLazy)) rules
  | [] => rfl
  | rule :: rest => congrArg₂ List.cons (safe_substitute rule) (safe_substituteAll rest)

theorem safe_substituteFields : ∀ fields : List (Value × Rule),
    safeFields onLazy (substituteFields id replacement fields) =
      safeFields (standing onLazy id (replacement.safe onLazy)) fields
  | [] => rfl
  | (key, rule) :: rest =>
    congrArg₂ (fun form further => (key, form) :: further) (safe_substitute rule)
      (safe_substituteFields rest)

end

end Rule

end Conform
