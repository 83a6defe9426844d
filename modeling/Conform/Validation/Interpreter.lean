import Conform.Validation.Forms

/-!
Rules as validators. Both forms follow the structure of the rule; only lazy rules look elsewhere,
and how often they may do so, one inside the other, is bounded by a budget computed from the input.
-/
namespace Conform

namespace Rule

mutual

/-- The safe form of a rule, given the safe forms of lazy rules. -/
def safe (onLazy : Nat → SafeForm) : Rule → SafeForm
  | .leaf l => .leaf l
  | .instanceOf cls => .instanceOf cls
  | .literal value => .literal value
  | .oneOf values => .oneOf values
  | .keyName keys => .keyName keys
  | .check test message => .check test message
  | .plain function => .plain function
  | .resulting function => .resulting function
  | .paired _ result => .resulting result
  | .pipe steps => .pipe (safeAll onLazy steps)
  | .accepting absence inner => .accepting absence (safe onLazy inner)
  | .withDefault inner value => .withDefault (safe onLazy inner) value
  | .recovering inner value => .recovering (safe onLazy inner) value
  | .rejecting absence inner => .rejecting absence (safe onLazy inner)
  | .union options => .union (safeAll onLazy options)
  | .discriminatedUnion options => .discriminatedUnion (safeAll onLazy options)
  | .variant key options => .variant key (safeAll onLazy options)
  | .intersect members => .intersect (safeAll onLazy members)
  | .refine inner test message => .refine (safe onLazy inner) test message
  | .transform inner function failure => .transform (safe onLazy inner) function failure
  | .preprocess function inner => .preprocess function (safe onLazy inner)
  | .convert function failure => .convert function failure
  | .tryConvert program => .tryConvert program
  | .rawCheck program => .rawCheck program
  | .rawConvert program => .rawConvert program
  | .crossCheck paths test message => .crossCheck paths test message
  | .items quantifier test message => .items quantifier test message
  | .retitle inner source => .retitle (safe onLazy inner) source
  | .forward inner path => .forward (safe onLazy inner) path
  | .array item => .array (safe onLazy item)
  | .tuple positions => .tuple (safeAll onLazy positions)
  | .looseTuple positions => .looseTuple (safeAll onLazy positions)
  | .tupleWithRest positions rest => .tupleWithRest (safeAll onLazy positions) (safe onLazy rest)
  | .object fields => .object (safeFields onLazy fields)
  | .looseObject fields => .looseObject (safeFields onLazy fields)
  | .objectWithRest fields rest => .objectWithRest (safeFields onLazy fields) (safe onLazy rest)
  | .passthrough inner => .passthrough (safe onLazy inner)
  | .lenient inner => .lenient (safe onLazy inner)
  | .required declared inner => .required declared (safe onLazy inner)
  | .record key value => .record (safe onLazy key) (safe onLazy value)
  | .map key value => .map (safe onLazy key) (safe onLazy value)
  | .set item => .set (safe onLazy item)
  | .lazy id => onLazy id

def safeAll (onLazy : Nat → SafeForm) : List Rule → List SafeForm
  | [] => []
  | rule :: rest => safe onLazy rule :: safeAll onLazy rest

def safeFields (onLazy : Nat → SafeForm) : List (Value × Rule) → List (Value × SafeForm)
  | [] => []
  | (key, rule) :: rest => (key, safe onLazy rule) :: safeFields onLazy rest

end

mutual

/-- The calling form of a rule, given both forms of lazy rules. Throwing callbacks, sequences,
wrappers of absent values, defaults and lazy rules call their parts; all others raise what their
safe form reports. -/
def call (onLazy : Nat → SafeForm) (onLazyCall : Nat → CallForm) : Rule → CallForm
  | .plain function => fun x => Eval.perform (function.run x)
  | .paired function _ => fun x => Eval.perform (function.run x)
  | .pipe steps => callAll onLazy onLazyCall steps
  | .accepting absence inner => fun x =>
    if absence.covers x then pure x else call onLazy onLazyCall inner x
  | .withDefault inner value => fun x =>
    if x.isMissing then pure value else call onLazy onLazyCall inner x
  | .lazy id => onLazyCall id
  | rule => fun x => Checked.raising (safe onLazy rule x)
termination_by structural rule => rule

def callAll (onLazy : Nat → SafeForm) (onLazyCall : Nat → CallForm) : List Rule → CallForm
  | [], x => pure x
  | rule :: rest, x => do
    let y ← call onLazy onLazyCall rule x
    callAll onLazy onLazyCall rest y
termination_by structural rules => rules

end

/-- The safe form of a lazy rule, with a budget of lazy rules inside one another. -/
def lazySafe : Nat → Nat → SafeForm
  | 0, _, _ => Checked.misuse .tooDeep
  | budget + 1, id, x => do
    let v ← ExceptT.lift (Eval.resolve id)
    v.rule.safe (lazySafe budget) x

/-- The calling form of a lazy rule, with a budget of lazy rules inside one another. -/
def lazyCall : Nat → Nat → CallForm
  | 0, _, _ => Eval.misuse .tooDeep
  | budget + 1, id, x => do
    let v ← Eval.resolve id
    v.rule.call (lazySafe budget) (lazyCall budget) x

end Rule

/-- The budget for an input: a recursive schema that goes down into its input at every turn meets
each lazy schema at most once on every level; the margin is for schemas that convert their input. -/
def World.budget (world : World) (x : Value) : Nat :=
  (x.depth + 1) * (world.lazyBound + 1) + 1000

namespace Validator

/-- The safe form of a validator. -/
def safe (v : Validator) : SafeForm := fun x => do
  let world ← getThe World
  v.rule.safe (Rule.lazySafe (world.budget x)) x

/-- The calling form of a validator. -/
def call (v : Validator) : CallForm := fun x => do
  let budget := (← get).budget x
  v.rule.call (Rule.lazySafe budget) (Rule.lazyCall budget) x

/-- The outcome of a validation. -/
def run (v : Validator) (x : Value) : Eval Outcome := (v.safe x).outcome

end Validator

end Conform
