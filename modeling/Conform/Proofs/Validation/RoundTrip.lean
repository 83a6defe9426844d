import Conform.Proofs.Validation.SettlingContainers

/-!
Round trips. A schema of type checks, constants, tests, wrappers of absent values, defaults that
pass, objects, lists, tuples and records gives an output in normal form: validated again it comes
out the same (`Validator.round_trip`).
-/
namespace Conform

namespace Rule

/-- A test whose callback, if it has one, depends on its argument only. -/
def PureTest (rule : Rule) : Prop :=
  ∃ test message, rule = .check test message ∧ ∀ piece ∈ test.pieces, piece.Pure

/-- The rule accepts a value as it is. -/
def Keeps (rule : Rule) (value : Value) : Prop :=
  ∃ budget world after, (rule.safe (lazySafe budget) value).Returns world value after

/-- Rules that bring their input into a normal form. Keys of objects are different, as keys of
dictionaries are; a default is a value that the wrapped rule keeps; after its first step a sequence
only tests. -/
inductive Normalises : Rule → Prop
  | leaf (l : Leaf) : Normalises (.leaf l)
  | instanceOf (cls : Class) : Normalises (.instanceOf cls)
  | literal (value : Value) : Normalises (.literal value)
  | oneOf (values : List Value) : Normalises (.oneOf values)
  | check {test : Check} {message : String} (pure : ∀ piece ∈ test.pieces, piece.Pure) :
      Normalises (.check test message)
  | accepting {absence : Absence} {inner : Rule} (part : Normalises inner) :
      Normalises (.accepting absence inner)
  | rejecting {absence : Absence} {inner : Rule} (part : Normalises inner) :
      Normalises (.rejecting absence inner)
  | withDefault {inner : Rule} {value : Value} (part : Normalises inner)
      (kept : inner.Keeps value) :
      Normalises (.withDefault inner value)
  | refine {inner : Rule} {test : Callable} {message : String} (part : Normalises inner)
      (pure : test.Pure) : Normalises (.refine inner test message)
  | pipe {first : Rule} {tests : List Rule} (part : Normalises first)
      (testing : ∀ test ∈ tests, test.PureTest) : Normalises (.pipe (first :: tests))
  | array {item : Rule} (part : Normalises item) : Normalises (.array item)
  | tuple {items : List Rule} (parts : ∀ item ∈ items, Normalises item) : Normalises (.tuple items)
  | looseTuple {items : List Rule} (parts : ∀ item ∈ items, Normalises item) :
      Normalises (.looseTuple items)
  | tupleWithRest {items : List Rule} {rest : Rule} (parts : ∀ item ∈ items, Normalises item)
      (further : Normalises rest) : Normalises (.tupleWithRest items rest)
  | object {fields : List (Value × Rule)} (keys : Entries.Distinct fields)
      (parts : ∀ field ∈ fields, Normalises field.2) : Normalises (.object fields)
  | looseObject {fields : List (Value × Rule)} (keys : Entries.Distinct fields)
      (parts : ∀ field ∈ fields, Normalises field.2) : Normalises (.looseObject fields)
  | objectWithRest {fields : List (Value × Rule)} {rest : Rule} (keys : Entries.Distinct fields)
      (parts : ∀ field ∈ fields, Normalises field.2) (further : Normalises rest) :
      Normalises (.objectWithRest fields rest)
  | passthrough {fields : List (Value × Rule)} (keys : Entries.Distinct fields)
      (parts : ∀ field ∈ fields, Normalises field.2) : Normalises (.passthrough (.object fields))
  | lenient {inner : Rule} (part : Normalises inner) : Normalises (.lenient inner)
  | required {declared : List Value} {inner : Rule} (part : Normalises inner) :
      Normalises (.required declared inner)
  | record {key value : Rule} (keys : Normalises key) (values : Normalises value) :
      Normalises (.record key value)

variable {rule : Rule} {onLazy : Nat → SafeForm}

theorem PureTest.eager (pure : rule.PureTest) : rule.Eager := by
  obtain ⟨test, message, rfl, -⟩ := pure
  exact .intro nofun nofun

/-- No rule that normalises is lazy. -/
theorem Normalises.eager (normalises : rule.Normalises) : rule.Eager := by
  have fields {fields : List (Value × Rule)} (eager : ∀ field ∈ fields, field.2.Eager) :
      ∀ part ∈ fields.map (·.2), part.Eager := by
    intro part inside
    obtain ⟨field, member, rfl⟩ := List.mem_map.mp inside
    exact eager field member
  induction normalises with
  | leaf | instanceOf | literal | oneOf | check => exact .intro nofun nofun
  | accepting _ ih | rejecting _ ih | withDefault _ _ ih | refine _ _ ih | array _ ih | lenient _ ih
  | required _ ih => exact .intro nofun (List.forall_mem_singleton.mpr ih)
  | pipe _ testing ih =>
    exact .intro nofun
      (List.forall_mem_cons.mpr ⟨ih, fun test inside => (testing test inside).eager⟩)
  | tuple _ ih | looseTuple _ ih => exact .intro nofun ih
  | tupleWithRest _ _ ih further =>
    exact .intro nofun (List.forall_mem_append.mpr ⟨ih, List.forall_mem_singleton.mpr further⟩)
  | object _ _ ih | looseObject _ _ ih => exact .intro nofun (fields ih)
  | objectWithRest _ _ _ ih further =>
    exact .intro nofun
      (List.forall_mem_append.mpr ⟨fields ih, List.forall_mem_singleton.mpr further⟩)
  | passthrough _ _ ih =>
    exact .intro nofun (List.forall_mem_singleton.mpr (.intro nofun (fields ih)))
  | record _ _ keys values =>
    exact .intro nofun (List.forall_mem_cons.mpr ⟨keys, List.forall_mem_singleton.mpr values⟩)

section Parts

open SafeForm

theorem settles_safeAll {parts : List Rule} (settles : ∀ part ∈ parts, Settles (part.safe onLazy)) :
    ∀ form ∈ safeAll onLazy parts, form.Settles := by
  rw [safeAll_eq_map]
  intro form inside
  obtain ⟨part, member, rfl⟩ := List.mem_map.mp inside
  exact settles part member

theorem settles_safeFields {fields : List (Value × Rule)}
    (settles : ∀ field ∈ fields, Settles (field.2.safe onLazy)) :
    ∀ field ∈ safeFields onLazy fields, field.2.Settles := by
  rw [safeFields_eq_map]
  intro form inside
  obtain ⟨field, member, rfl⟩ := List.mem_map.mp inside
  exact settles field member

theorem distinct_safeFields {fields : List (Value × Rule)} (keys : Entries.Distinct fields) :
    Entries.Distinct (safeFields onLazy fields) := by
  rw [safeFields_eq_map]
  exact List.pairwise_map.mpr keys

theorem PureTest.settles {test : Rule} (pure : test.PureTest) : Settles (test.safe onLazy) := by
  obtain ⟨check, message, rfl, pieces⟩ := pure
  exact settles_check pieces message

theorem PureTest.same {test : Rule} (pure : test.PureTest) {x y : Value}
    (gives : (test.safe onLazy x).Gives y) : x = y := by
  obtain ⟨check, message, rfl, pieces⟩ := pure
  exact gives_check pieces gives

/-- What a rule keeps in one evaluation its form gives in all of them. -/
theorem Keeps.gives {inner : Rule} {value : Value} (kept : inner.Keeps value) (eager : inner.Eager)
    (settles : Settles (inner.safe onLazy)) : (inner.safe onLazy value).Gives value := by
  obtain ⟨budget, world, after, returned⟩ := kept
  rw [eager.safe_eq (lazySafe budget) onLazy] at returned
  exact ((settles.steady value).returns_iff.mp returned).1

/-- Forms of rules that normalise settle. -/
theorem Normalises.settles (normalises : rule.Normalises) : Settles (rule.safe onLazy) := by
  induction normalises with
  | leaf | instanceOf | oneOf => exact settles_provided ..
  | literal value => exact settles_literal value
  | check pure => exact settles_check pure _
  | accepting _ ih => exact settles_accepting ih _
  | rejecting _ ih => exact settles_rejecting ih _
  | withDefault part kept ih => exact settles_withDefault ih (kept.gives part.eager ih)
  | refine _ pure ih => exact settles_refine ih pure _
  | @pipe first tests _ testing ih =>
    have settled : ∀ form ∈ safeAll onLazy tests, form.Settles :=
      settles_safeAll fun test inside => (testing test inside).settles
    have same : ∀ form ∈ safeAll onLazy tests, ∀ {x y : Value}, (form x).Gives y → x = y := by
      rw [safeAll_eq_map]
      intro form inside x y gives
      obtain ⟨test, member, rfl⟩ := List.mem_map.mp inside
      exact (testing test member).same gives
    exact settles_pipe ih settled same
  | array _ ih => exact settles_array ih
  | tuple _ ih => exact settles_tuple (settles_safeAll ih)
  | looseTuple _ ih => exact settles_looseTuple (settles_safeAll ih)
  | tupleWithRest _ _ ih further => exact settles_tupleWithRest (settles_safeAll ih) further
  | object keys _ ih => exact settles_object (settles_safeFields ih) (distinct_safeFields keys)
  | looseObject keys _ ih =>
    exact settles_looseObject (settles_safeFields ih) (distinct_safeFields keys)
  | objectWithRest keys _ _ ih further =>
    exact settles_objectWithRest (settles_safeFields ih) (distinct_safeFields keys) further
  | passthrough keys _ ih =>
    exact settles_passthrough (settles_safeFields ih) (distinct_safeFields keys)
  | lenient _ ih => exact settles_lenient ih
  | required _ ih => exact settles_required ih _
  | record _ _ keys values => exact settles_record keys values

end Parts

end Rule

namespace Validator

/-- An output in normal form is accepted again, in any world, and comes out the same; validating it
changes nothing. -/
theorem round_trip (v : Validator) (normalises : v.rule.Normalises) {x y : Value}
    {world after : World} (accepted : (v.safe x).Returns world y after) (later : World) :
    (v.safe y).Returns later y later := by
  rw [returns_safe] at accepted ⊢
  have first : SafeForm.Settles (v.rule.safe (Rule.lazySafe (world.budget x))) := normalises.settles
  have gives := ((first.steady x).returns_iff.mp accepted).1
  rw [normalises.eager.safe_eq (Rule.lazySafe (later.budget y)) (Rule.lazySafe (world.budget x))]
  exact first.again gives later

/-- A registration: a name that is given when absent, marks, and a table that may be in another
form. -/
private def registration : Validator :=
  .object [(.str "name", .withDefault (.leaf .string) (.str "none")),
    (.str "marks", .optional (.array (.leaf .integer))),
    (.str "table", .of (.lenient (.record (.leaf .string) (.leaf .boolean))) none)]

private theorem registration_normalises : registration.rule.Normalises := by
  have kept : Rule.Keeps (.leaf .string) (.str "none") :=
    ⟨0, World.initial "registration", World.initial "registration", rfl⟩
  have keys :
      Entries.Distinct (fieldRules [(.str "name", .withDefault (.leaf .string) (.str "none")),
        (.str "marks", .optional (.array (.leaf .integer))),
        (.str "table", .of (.lenient (.record (.leaf .string) (.leaf .boolean))) none)]) := by
    unfold Entries.Distinct
    decide
  refine .object keys ?_
  intro field inside
  rcases List.mem_cons.mp inside with rfl | inside
  · exact .withDefault (.leaf .string) kept
  · rcases List.mem_cons.mp inside with rfl | inside
    · exact .accepting (.array (.leaf .integer))
    · cases List.mem_singleton.mp inside
      exact .lenient (.record (.leaf .string) (.leaf .boolean))

/-- Marks in a tuple come out as a list, an unknown key is dropped and the name added; the table is
kept although its value is no Boolean. The output is its own. -/
theorem registration_round_trip :
    registration.rule.Normalises ∧
    (registration.safe (.dict [(.str "unknown", .null), (.str "marks", .tuple [.int 1]),
        (.str "table", .dict [(.str "a", .int 1)])])).Returns (World.initial "registration")
      (.dict [(.str "name", .str "none"), (.str "marks", .list [.int 1]),
        (.str "table", .dict [(.str "a", .int 1)])]) (World.initial "registration") ∧
    (registration.safe (.dict [(.str "name", .str "none"), (.str "marks", .list [.int 1]),
        (.str "table", .dict [(.str "a", .int 1)])])).Returns (World.initial "later")
      (.dict [(.str "name", .str "none"), (.str "marks", .list [.int 1]),
        (.str "table", .dict [(.str "a", .int 1)])]) (World.initial "later") := by
  have accepted :
    (registration.safe (.dict [(.str "unknown", .null), (.str "marks", .tuple [.int 1]),
        (.str "table", .dict [(.str "a", .int 1)])])).Returns (World.initial "registration")
      (.dict [(.str "name", .str "none"), (.str "marks", .list [.int 1]),
        (.str "table", .dict [(.str "a", .int 1)])]) (World.initial "registration") := rfl
  exact ⟨registration_normalises, accepted,
    round_trip registration registration_normalises accepted (World.initial "later")⟩

end Validator

end Conform
