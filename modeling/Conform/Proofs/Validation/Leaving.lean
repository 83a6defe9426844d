import Conform.Proofs.Evaluation.Trails

/-!
Requests to leave the program. Whatever a validator is made of, a callback or a factory that asks to
leave ends the evaluation of either form at once: no construction catches the request or rewords it,
and nothing is called after it.
-/
namespace Conform

namespace Validator

variable (v : Validator) (x : Value) (world : World)

/-- The calls that the safe form of a validator makes on an input. -/
def SafeTrail (calls : List Call) : Prop :=
  (v.rule.safe (Rule.lazySafe (world.budget x)) x).Trail world calls

/-- The calls that the calling form of a validator makes on an input. -/
def CallTrail (calls : List Call) : Prop :=
  (v.rule.call (Rule.lazySafe (world.budget x)) (Rule.lazyCall (world.budget x)) x).Trail
    world calls

/-- A callback that asks to leave. -/
private def leaves : Callable := ⟨"leaves", fun _ => Traced.raise (.leaving .exit "enough")⟩

/-- A callback that faults without asking to leave. -/
private def fails : Callable := ⟨"fails", fun _ => Traced.raise (.ordinary .value "no")⟩

/-- A world with a lazy schema whose factory asks to leave. -/
private def leavingWorld : World :=
  { World.initial "" with
    lazies := [⟨some "late", .calling (Traced.raise (.leaving .exit "enough")), none⟩] }

/-- Alternatives inside a recovery; the last of them takes everything. -/
private def recovered (option : Validator) : Except Misuse Validator :=
  (union [transform (leaf .integer) fails, option, leaf .any]).map (catching · .null)

end Validator

end Conform
