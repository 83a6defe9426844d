import Conform.Validation.Interpreter

/-!
What a rule owes to whoever wrote it. `Rule.pieces` lists the callbacks, messages and results
supplied to a rule and its parts; what a lazy rule stands for is not among them, since it is built
during evaluation.
-/
namespace Conform

/-- Something supplied to a rule. -/
inductive Piece where
  | callback (function : Callable)
  | renderer (render : Callable)
  | reporter (function : ResultCallable)
  | pair (function : Callable) (result : ResultCallable)
  | message (message : Value)

def Check.pieces : Check → List Piece
  | .predicate test => [.callback test]
  | _ => []

def MessageSource.pieces : MessageSource → List Piece
  | .given message => [.message message]
  | .computed render => [.renderer render]

def FailStep.pieces : FailStep → List Piece
  | .fail condition message => .message message :: condition.toList.map .callback
  | .answer function => [.callback function]

def IssueStep.pieces : IssueStep → List Piece
  | .report condition message _ => .message message :: condition.toList.map .callback
  | .answer function => [.callback function]

namespace Rule

mutual

/-- Everything supplied to a rule and its parts. -/
def pieces : Rule → List Piece
  | .leaf _ | .instanceOf _ | .literal _ | .oneOf _ | .keyName _ | .lazy _ => []
  | .check test _ => test.pieces
  | .plain function | .convert function _ | .crossCheck _ function _ | .items _ function _ =>
    [.callback function]
  | .resulting function => [.reporter function]
  | .paired function result => [.pair function result]
  | .tryConvert program => program.flatMap (·.pieces)
  | .rawCheck program | .rawConvert program => program.flatMap (·.pieces)
  | .refine inner function _ | .transform inner function _ | .preprocess function inner =>
    .callback function :: pieces inner
  | .retitle inner source => source.pieces ++ pieces inner
  | .accepting _ inner | .withDefault inner _ | .recovering inner _ | .rejecting _ inner
  | .forward inner _ | .array inner | .passthrough inner | .lenient inner | .required _ inner
  | .set inner => pieces inner
  | .pipe parts | .union parts | .discriminatedUnion parts | .variant _ parts | .intersect parts
  | .tuple parts | .looseTuple parts => piecesAll parts
  | .tupleWithRest parts rest => piecesAll parts ++ pieces rest
  | .object fields | .looseObject fields => piecesOfFields fields
  | .objectWithRest fields rest => piecesOfFields fields ++ pieces rest
  | .record key value | .map key value => pieces key ++ pieces value

def piecesAll : List Rule → List Piece
  | [] => []
  | rule :: rest => pieces rule ++ piecesAll rest

def piecesOfFields : List (Value × Rule) → List Piece
  | [] => []
  | (_, rule) :: rest => pieces rule ++ piecesOfFields rest

end

def parts : Rule → List Rule
  | .accepting _ inner | .withDefault inner _ | .recovering inner _ | .rejecting _ inner
  | .refine inner _ _ | .transform inner _ _ | .preprocess _ inner | .retitle inner _
  | .forward inner _ | .array inner | .passthrough inner | .lenient inner | .required _ inner
  | .set inner => [inner]
  | .pipe parts | .union parts | .discriminatedUnion parts | .variant _ parts | .intersect parts
  | .tuple parts | .looseTuple parts => parts
  | .tupleWithRest parts rest => parts ++ [rest]
  | .object fields | .looseObject fields => fields.map (·.2)
  | .objectWithRest fields rest => fields.map (·.2) ++ [rest]
  | .record key value | .map key value => [key, value]
  | _ => []

/-- The rule is supplied with good pieces only. -/
def SuppliedBy (good : Piece → Prop) (rule : Rule) : Prop := ∀ piece ∈ rule.pieces, good piece

theorem suppliedBy_anything (rule : Rule) : rule.SuppliedBy fun _ => True := fun _ _ => trivial

theorem piecesAll_eq_flatMap : ∀ parts : List Rule, piecesAll parts = parts.flatMap pieces
  | [] => by rw [piecesAll, List.flatMap_nil]
  | rule :: rest => by rw [piecesAll, List.flatMap_cons, piecesAll_eq_flatMap rest]

theorem piecesOfFields_eq_flatMap :
    ∀ fields : List (Value × Rule), piecesOfFields fields = fields.flatMap fun field =>
      field.2.pieces
  | [] => by rw [piecesOfFields, List.flatMap_nil]
  | (key, rule) :: rest => by
    rw [piecesOfFields, List.flatMap_cons, piecesOfFields_eq_flatMap rest]

/-- What a part is supplied with the whole rule is supplied with. -/
theorem pieces_subset_of_mem_parts {rule part : Rule} (member : part ∈ rule.parts) :
    part.pieces ⊆ rule.pieces := by
  intro piece supplied
  have ofAll : ∀ {parts : List Rule}, part ∈ parts → piece ∈ piecesAll parts := by
    intro parts member
    rw [piecesAll_eq_flatMap]
    exact List.mem_flatMap.mpr ⟨part, member, supplied⟩
  have ofFields : ∀ {fields : List (Value × Rule)}, part ∈ fields.map (·.2) →
      piece ∈ piecesOfFields fields := by
    intro fields member
    obtain ⟨field, inside, rfl⟩ := List.mem_map.mp member
    rw [piecesOfFields_eq_flatMap]
    exact List.mem_flatMap.mpr ⟨field, inside, supplied⟩
  cases rule with
  | accepting | withDefault | recovering | rejecting | forward | array | passthrough | lenient
  | required | set =>
    cases List.mem_singleton.mp member
    exact supplied
  | refine | transform | preprocess =>
    cases List.mem_singleton.mp member
    exact List.mem_cons_of_mem _ supplied
  | retitle =>
    cases List.mem_singleton.mp member
    exact List.mem_append_right _ supplied
  | pipe | union | discriminatedUnion | variant | intersect | tuple | looseTuple =>
    exact ofAll member
  | tupleWithRest =>
    rcases List.mem_append.mp member with member | member
    · exact List.mem_append_left _ (ofAll member)
    · cases List.mem_singleton.mp member
      exact List.mem_append_right _ supplied
  | object | looseObject => exact ofFields member
  | objectWithRest =>
    rcases List.mem_append.mp member with member | member
    · exact List.mem_append_left _ (ofFields member)
    · cases List.mem_singleton.mp member
      exact List.mem_append_right _ supplied
  | record | map =>
    rcases List.mem_cons.mp member with rfl | member
    · exact List.mem_append_left _ supplied
    · cases List.mem_singleton.mp member
      exact List.mem_append_right _ supplied
  | _ => cases member

theorem SuppliedBy.part {good : Piece → Prop} {rule part : Rule} (supplied : rule.SuppliedBy good)
    (member : part ∈ rule.parts) : part.SuppliedBy good :=
  fun piece inside => supplied piece (pieces_subset_of_mem_parts member inside)

theorem sizeOf_lt_of_mem_parts {rule part : Rule} (member : part ∈ rule.parts) :
    sizeOf part < sizeOf rule := by
  have ofFields : ∀ {fields : List (Value × Rule)}, part ∈ fields.map (·.2) →
      sizeOf part < sizeOf fields := by
    intro fields member
    obtain ⟨⟨key, field⟩, inside, rfl⟩ := List.mem_map.mp member
    have smaller := List.sizeOf_lt_of_mem inside
    simp only [Prod.mk.sizeOf_spec] at smaller ⊢
    omega
  cases rule with
  | pipe | union | discriminatedUnion | variant | intersect | tuple | looseTuple =>
    have smaller := List.sizeOf_lt_of_mem member
    simp only [Rule.parts] at smaller
    simp only [pipe.sizeOf_spec, union.sizeOf_spec, discriminatedUnion.sizeOf_spec,
      variant.sizeOf_spec, intersect.sizeOf_spec, tuple.sizeOf_spec, looseTuple.sizeOf_spec]
    omega
  | accepting | withDefault | recovering | rejecting | forward | array | passthrough | lenient
  | required | set | refine | transform | preprocess | retitle =>
    cases List.mem_singleton.mp member
    simp only [accepting.sizeOf_spec, withDefault.sizeOf_spec, recovering.sizeOf_spec,
      rejecting.sizeOf_spec, forward.sizeOf_spec, array.sizeOf_spec, passthrough.sizeOf_spec,
      lenient.sizeOf_spec, required.sizeOf_spec, set.sizeOf_spec, refine.sizeOf_spec,
      transform.sizeOf_spec, preprocess.sizeOf_spec, retitle.sizeOf_spec]
    omega
  | record | map =>
    rcases List.mem_cons.mp member with rfl | member
    · simp only [record.sizeOf_spec, map.sizeOf_spec]
      omega
    · cases List.mem_singleton.mp member
      simp only [record.sizeOf_spec, map.sizeOf_spec]
      omega
  | tupleWithRest =>
    rcases List.mem_append.mp member with member | member
    · have smaller := List.sizeOf_lt_of_mem member
      simp only [tupleWithRest.sizeOf_spec]
      omega
    · cases List.mem_singleton.mp member
      simp only [tupleWithRest.sizeOf_spec]
      omega
  | object | looseObject =>
    have smaller := ofFields member
    simp only [object.sizeOf_spec, looseObject.sizeOf_spec]
    omega
  | objectWithRest =>
    rcases List.mem_append.mp member with member | member
    · have smaller := ofFields member
      simp only [objectWithRest.sizeOf_spec]
      omega
    · cases List.mem_singleton.mp member
      simp only [objectWithRest.sizeOf_spec]
      omega
  | _ => cases member

/-- What holds of a rule whenever it holds of its parts holds of every rule. -/
theorem byParts {motive : Rule → Prop}
    (step : ∀ rule, (∀ part ∈ rule.parts, motive part) → motive rule) (rule : Rule) : motive rule :=
  step rule fun part _ => byParts step part
termination_by sizeOf rule
decreasing_by exact sizeOf_lt_of_mem_parts ‹_›

variable (onLazy : Nat → SafeForm)

theorem safeAll_eq_map : ∀ parts : List Rule, safeAll onLazy parts = parts.map (safe onLazy)
  | [] => by rw [safeAll, List.map_nil]
  | rule :: rest => by rw [safeAll, List.map_cons, safeAll_eq_map rest]

theorem safeAll_append (parts others : List Rule) :
    safeAll onLazy (parts ++ others) = safeAll onLazy parts ++ safeAll onLazy others := by
  rw [safeAll_eq_map, safeAll_eq_map, safeAll_eq_map, List.map_append]

@[simp] theorem length_safeAll (parts : List Rule) :
    (safeAll onLazy parts).length = parts.length := by
  rw [safeAll_eq_map, List.length_map]

theorem safeFields_eq_map : ∀ fields : List (Value × Rule),
    safeFields onLazy fields = fields.map fun field => (field.1, safe onLazy field.2)
  | [] => by rw [safeFields, List.map_nil]
  | (key, rule) :: rest => by rw [safeFields, List.map_cons, safeFields_eq_map rest]

end Rule

end Conform
