import Conform.Proofs.Evaluation.Frames
import Conform.Proofs.Validation.ObjectModes
import Conform.Proofs.Validator.Grouping
import Conform.Proofs.Validator.Shapes

/-!
Shapes in parts. The object of two shapes behind each other is the conjunction of their objects,
whatever the fields do (`SafeForm.object_append`). A shape that is split by picking some of its keys
and dropping them comes back as a shape in another order; its fields are then asked in that order,
so that the answers agree where what is left behind by one field makes no difference to another
(`Validator.split_shapes`).
-/
namespace Conform

namespace Checked

variable {α : Type}

/-- In the worlds that evaluation reaches from here on the computation always returns, or never. -/
def AcceptsThroughout (start : World) (computation : Checked α) : Prop :=
  ∀ one two, start.Later one → start.Later two →
    (∃ y after, computation.Returns one y after) → ∃ y after, computation.Returns two y after

/-- In the worlds that evaluation reaches from here on the computation returns equal values, if
any. -/
def EqualThroughout (start : World) (computation : Checked Value) : Prop :=
  ∀ one two y z after last, start.Later one → start.Later two →
    computation.Returns one y after → computation.Returns two z last → y.equiv z

theorem Steady.acceptsThroughout {computation : Checked α} (steady : computation.Steady)
    (start : World) :
    computation.AcceptsThroughout start := by
  obtain ⟨answer, ends⟩ := steady
  rintro one two - - ⟨y, after, returned⟩
  cases (ends one).symm.trans returned
  exact ⟨y, two, ends two⟩

theorem Steady.equalThroughout {computation : Checked Value} (steady : computation.Steady)
    (start : World) : computation.EqualThroughout start := by
  obtain ⟨answer, ends⟩ := steady
  intro one two y z after last _ _ returned again
  cases (ends one).symm.trans returned
  cases (ends two).symm.trans again
  exact Value.equiv_refl y

end Checked

namespace SafeForm

open Checked

section Appending

variable {forms others : List (Value × SafeForm)}

/-- The outputs of two objects are joined to those of the object with the fields of both. -/
theorem joinOutput_presentPairs (pairs more : List (Value × Value)) :
    joinOutput (joinOutput (.dict []) (.dict (Entries.merge [] (presentPairs pairs))))
      (.dict (Entries.merge [] (presentPairs more))) =
        .dict (Entries.merge [] (presentPairs (pairs ++ more))) := by
  have first : Entries.merge [] (Entries.merge [] (presentPairs pairs)) =
      Entries.merge [] (presentPairs pairs) := Entries.merge_merge .nil [] _
  have second : Entries.merge (Entries.merge [] (presentPairs pairs))
      (Entries.merge [] (presentPairs more)) =
        Entries.merge (Entries.merge [] (presentPairs pairs)) (presentPairs more) :=
    Entries.merge_merge .nil _ _
  have whole : presentPairs (pairs ++ more) = presentPairs pairs ++ presentPairs more :=
    List.filter_append ..
  change Value.dict (Entries.merge (Entries.merge [] (Entries.merge [] (presentPairs pairs)))
    (Entries.merge [] (presentPairs more))) = _
  rw [first, second, whole]
  exact congrArg Value.dict List.foldl_append.symm

/-- The object of two rows of fields behind each other is the conjunction of their objects. -/
theorem object_append (forms others : List (Value × SafeForm)) :
    object (forms ++ others) = intersect [object forms, object others] := by
  funext x
  cases mapping : x.entries? with
  | none =>
    simp only [intersect, intersectFrom, object, entriesOf, mapping]
    rfl
  | some entries =>
    simp only [intersect, intersectFrom, object_eq mapping, fieldOutputs,
      List.mapM_append, bind_assoc, pure_bind, joinOutput_presentPairs]

end Appending

section Reordering

variable {forms others : List (Value × SafeForm)} {entries pairs more : List (Value × Value)}
  {start world after : World}

/-- Evaluation of the form leads to later worlds. -/
def Proceeds (form : SafeForm) : Prop :=
  ∀ x world y after, (form x).Returns world y after → world.Later after

/-- Each output is one that its field gives in a world on the way. -/
theorem outcomes_of_fieldOutputs (proceeds : ∀ form ∈ forms, Proceeds form.2)
    (later : start.Later world)
    (returned : (fieldOutputs forms entries).Returns world pairs after) (key : Value) :
    Option.Rel (fun form y => ∃ reached last, start.Later reached ∧
      (form (inputAt entries key)).Returns reached y last) (Entries.get? forms key)
        (Entries.get? pairs key) := by
  unfold fieldOutputs at returned
  induction forms generalizing world pairs with
  | nil =>
    rw [List.mapM_nil] at returned
    obtain ⟨rfl, -⟩ := returns_pure.mp returned
    exact .none
  | cons form rest ih =>
    obtain ⟨here, further⟩ := List.forall_mem_cons.mp proceeds
    rw [List.mapM_cons] at returned
    obtain ⟨pair, between, visited, behind⟩ := returns_bind.mp returned
    obtain ⟨outputs, last, given, made⟩ := returns_bind.mp behind
    obtain ⟨rfl, rfl⟩ := returns_pure.mp made
    obtain ⟨y, reached, asked, stored⟩ := returns_bind.mp visited
    obtain ⟨rfl, rfl⟩ := returns_pure.mp stored
    have answered := returns_within.mp asked
    -- The first field with the key decides in both rows, since each output is stored under its
    -- field's key.
    rw [Entries.get?_cons, Entries.get?_cons]
    by_cases same : (form.1 == key) = true
    · have input : inputAt entries form.1 = inputAt entries key := by
        rw [inputAt, inputAt, Entries.get?_congr same]
      rw [input] at answered
      rw [if_pos same, if_pos same]
      exact .some ⟨world, reached, later, answered⟩
    · rw [if_neg same, if_neg same]
      exact ih further (later.trans (here _ _ _ _ answered)) given

/-- Fields that answer in every world on the way answer all together. -/
theorem exists_fieldOutputs (proceeds : ∀ form ∈ forms, Proceeds form.2)
    (accepts : ∀ form ∈ forms, ∀ reached, start.Later reached →
      ∃ y last, (form.2 (inputAt entries form.1)).Returns reached y last)
    (later : start.Later world) : ∃ pairs after,
      (fieldOutputs forms entries).Returns world pairs after := by
  unfold fieldOutputs
  induction forms generalizing world with
  | nil => exact ⟨[], world, returns_pure.mpr ⟨rfl, rfl⟩⟩
  | cons form rest ih =>
    obtain ⟨here, further⟩ := List.forall_mem_cons.mp proceeds
    obtain ⟨first, others⟩ := List.forall_mem_cons.mp accepts
    obtain ⟨y, between, answered⟩ := first world later
    obtain ⟨pairs, after, given⟩ := ih further others (later.trans (here _ _ _ _ answered))
    have visited : (visitField entries form).Returns world (form.1, y) between :=
      returns_bind.mpr ⟨y, between, returns_within.mpr answered, returns_pure.mpr ⟨rfl, rfl⟩⟩
    have made : (pure ((form.1, y) :: pairs) : Checked _).Returns after
        ((form.1, y) :: pairs) after :=
      returns_pure.mpr ⟨rfl, rfl⟩
    refine ⟨(form.1, y) :: pairs, after, ?_⟩
    rw [List.mapM_cons]
    exact returns_bind.mpr ⟨_, between, visited, returns_bind.mpr ⟨pairs, after, given, made⟩⟩

/-- Fields under different keys answer all together just if each of them answers, as long as what
was left behind makes no difference to that. -/
theorem fieldOutputs_accept_iff (distinct : Entries.Distinct forms)
    (proceeds : ∀ form ∈ forms, Proceeds form.2)
    (alike : ∀ form ∈ forms, (form.2 (inputAt entries form.1)).AcceptsThroughout start) :
    (∃ pairs after, (fieldOutputs forms entries).Returns start pairs after) ↔
      ∀ form ∈ forms, ∃ y last, (form.2 (inputAt entries form.1)).Returns start y last := by
  constructor
  · rintro ⟨pairs, after, returned⟩ form inside
    have outcome := outcomes_of_fieldOutputs proceeds .refl returned form.1
    rw [distinct.get?_of_mem inside (BEq.refl _)] at outcome
    generalize Entries.get? pairs form.1 = output at outcome
    cases outcome with
    | some answered =>
      obtain ⟨reached, last, later, answered⟩ := answered
      exact alike form inside reached start later .refl ⟨_, last, answered⟩
  · intro each
    apply exists_fieldOutputs proceeds _ .refl
    intro form inside reached later
    exact alike form inside start reached .refl later (each form inside)

/-- What the fields of one row give is equal, key by key, to what those of another one give that has
the same fields under the same keys. -/
theorem equal_outputs (same : ∀ key, Entries.get? forms key = Entries.get? others key)
    (proceeds : ∀ form ∈ forms, Proceeds form.2) (also : ∀ form ∈ others, Proceeds form.2)
    (equal : ∀ form ∈ forms, (form.2 (inputAt entries form.1)).EqualThroughout start) {last : World}
    (returned : (fieldOutputs forms entries).Returns start pairs after)
    (again : (fieldOutputs others entries).Returns start more last) (key : Value) :
    Option.Rel (fun y z => Value.equiv y z) (Entries.get? pairs key) (Entries.get? more key) := by
  have first := outcomes_of_fieldOutputs proceeds .refl returned key
  have second := outcomes_of_fieldOutputs also .refl again key
  rw [← same] at second
  cases found : Entries.get? forms key with
  | none =>
    rw [found] at first second
    generalize Entries.get? pairs key = one at first
    generalize Entries.get? more key = two at second
    cases first
    cases second
    exact .none
  | some form =>
    obtain ⟨entry, inside, named, rfl⟩ := Entries.exists_of_get?_eq_some found
    have input : inputAt entries entry.1 = inputAt entries key := by
      rw [inputAt, inputAt, Entries.get?_congr named]
    have answers := equal entry inside
    rw [input] at answers
    rw [found] at first second
    generalize Entries.get? pairs key = one at first
    generalize Entries.get? more key = two at second
    cases first with
    | some given =>
      cases second with
      | some given' =>
        obtain ⟨reached, behind, later, answered⟩ := given
        obtain ⟨reached', behind', later', answered'⟩ := given'
        exact .some (answers reached reached' _ _ behind behind' later later' answered answered')

/-- Among the outputs that are not absent, those under a key. -/
theorem get?_presentPairs (distinct : Entries.Distinct pairs) (key : Value) :
    Entries.get? (presentPairs pairs) key = (Entries.get? pairs key).filter fun y =>
      !y.isMissing := by
  cases found : Entries.get? pairs key with
  | none =>
    refine Entries.get?_eq_none_iff.mpr fun pair present => ?_
    exact Entries.get?_eq_none_iff.mp found pair (List.mem_filter.mp present).1
  | some y =>
    obtain ⟨pair, inside, same, rfl⟩ := Entries.exists_of_get?_eq_some found
    rw [← Entries.get?_congr same, presents_presentPairs distinct pair inside]
    by_cases absent : pair.2.isMissing = true
    · simp [Option.filter, absent]
    · simp [Option.filter, absent]

/-- Outputs that are equal key by key make equal dictionaries. -/
theorem equiv_presentPairs (distinct : Entries.Distinct pairs) (also : Entries.Distinct more)
    (equal : ∀ key, Option.Rel (fun y z => Value.equiv y z) (Entries.get? pairs key)
      (Entries.get? more key)) :
    (Value.dict (presentPairs pairs)).equiv (.dict (presentPairs more)) := by
  apply Value.equiv_dict_of_get? (distinct_presentPairs distinct) (distinct_presentPairs also)
  intro key
  rw [get?_presentPairs distinct, get?_presentPairs also]
  have held := equal key
  generalize Entries.get? pairs key = one at held
  generalize Entries.get? more key = two at held
  cases held with
  | none => exact .none
  | @some y z same =>
    have absent : y.isMissing = z.isMissing := by
      rw [Bool.eq_iff_iff, Value.isMissing_iff, Value.isMissing_iff]
      constructor
      · rintro rfl
        exact Value.eq_missing_of_equiv (Value.equiv_symm same)
      · rintro rfl
        exact Value.eq_missing_of_equiv same
    by_cases here : y.isMissing = true
    · simp [Option.filter, ← absent, here]
    · simp [Option.filter, ← absent, here, same]

end Reordering

end SafeForm

namespace Validator

open SafeForm Checked

variable {fields others : List (Value × Validator)} {x : Value} {world : World}

/-- What a field answers to what lies under its key in the input, with the budget that the whole
input is given. -/
def fieldAnswer (x : Value) (world : World) (entries : List (Value × Value))
    (field : Value × Validator) :
    Checked Value :=
  field.2.rule.safe (Rule.lazySafe (world.budget x)) (inputAt entries field.1)

theorem fieldForms_eq (fields : List (Value × Validator)) (x : Value) (world : World) :
    fieldForms fields x world =
      fields.map fun field => (field.1, field.2.rule.safe (Rule.lazySafe (world.budget x))) := by
  simp [fieldForms, Rule.safeFields_eq_map, fieldRules]

theorem get?_fieldForms (fields : List (Value × Validator)) (x : Value) (world : World)
    (key : Value) :
    Entries.get? (fieldForms fields x world) key =
      (Entries.get? fields key).map fun v => v.rule.safe (Rule.lazySafe (world.budget x)) := by
  rw [fieldForms_eq]
  exact Entries.get?_map (fun v : Validator =>
    v.rule.safe (Rule.lazySafe (world.budget x))) fields key

theorem proceeds_fieldForms : ∀ form ∈ fieldForms fields x world, Proceeds form.2 := by
  intro form inside
  rw [fieldForms_eq] at inside
  obtain ⟨field, -, rfl⟩ := List.mem_map.mp inside
  exact fun x world y after => Rule.later_of_returns

theorem distinct_fieldForms (declared : Entries.Distinct fields) :
    Entries.Distinct (fieldForms fields x world) :=
  Entries.distinct_of_keys_eq (keys_fieldForms fields x world) declared

/-- Of a field there is a field with the same check under the same key in any row that has the same
fields. -/
theorem exists_field_of_same (declared : Entries.Distinct others)
    (same : ∀ key, Entries.get? fields key = Entries.get? others key) :
    ∀ field ∈ others, ∃ origin ∈ fields, (origin.1 == field.1) = true ∧ origin.2 = field.2 := by
  intro field inside
  have found := declared.get?_of_mem inside (BEq.refl field.1)
  rw [← same] at found
  exact Entries.exists_of_get?_eq_some found

theorem fieldAnswer_congr {origin field : Value × Validator} (key : (origin.1 == field.1) = true)
    (check : origin.2 = field.2) (entries : List (Value × Value)) :
    fieldAnswer x world entries origin = fieldAnswer x world entries field := by
  rw [fieldAnswer, fieldAnswer, check, inputAt, inputAt, Entries.get?_congr key]

/-- What is left behind makes no difference to whether the fields accept what lies under their
keys. -/
def FieldsAcceptThroughout (fields : List (Value × Validator)) (x : Value) (world : World) : Prop :=
  ∀ entries, x.entries? = some entries → ∀ field ∈ fields,
    (fieldAnswer x world entries field).AcceptsThroughout world

/-- What is left behind makes no difference to what the fields give for what lies under their
keys. -/
def FieldsEqualThroughout (fields : List (Value × Validator)) (x : Value) (world : World) : Prop :=
  ∀ entries, x.entries? = some entries → ∀ field ∈ fields,
    (fieldAnswer x world entries field).EqualThroughout world

/-- Fields without lazy parts over callbacks that leave nothing behind. -/
theorem throughout_of_eager (eager : ∀ field ∈ fields, field.2.rule.Eager)
    (pure : ∀ field ∈ fields, field.2.rule.SuppliedBy Piece.Pure) (x : Value) (world : World) :
    FieldsAcceptThroughout fields x world ∧ FieldsEqualThroughout fields x world := by
  have steady : ∀ entries, ∀ field ∈ fields, (fieldAnswer x world entries field).Steady :=
    fun entries field inside => (eager field inside).steady (pure field inside) _ _
  exact ⟨fun entries _ field inside => (steady entries field inside).acceptsThroughout world,
    fun entries _ field inside => (steady entries field inside).equalThroughout world⟩

section SameFields

variable (declared : Entries.Distinct fields) (also : Entries.Distinct others)
  (same : ∀ key, Entries.get? fields key = Entries.get? others key)
include declared

/-- An object accepts a dictionary just if each of its fields does. -/
theorem object_accepts_iff (alike : FieldsAcceptThroughout fields x world) :
    (∃ y after, ((object fields).safe x).Returns world y after) ↔
      ∃ entries, x.entries? = some entries ∧ ∀ field ∈ fields,
        ∃ y last, (fieldAnswer x world entries field).Returns world y last := by
  have fieldwise : ∀ entries, x.entries? = some entries →
      ((∃ pairs after,
        (fieldOutputs (fieldForms fields x world) entries).Returns world pairs after) ↔
        ∀ field ∈ fields, ∃ y last, (fieldAnswer x world entries field).Returns world y last) := by
    intro entries mapping
    have distinct : Entries.Distinct (fieldForms fields x world) := distinct_fieldForms declared
    have answers : ∀ form ∈ fieldForms fields x world,
        (form.2 (inputAt entries form.1)).AcceptsThroughout world := by
      rw [fieldForms_eq, List.forall_mem_map]
      exact alike entries mapping
    have each : (∀ form ∈ fieldForms fields x world,
        ∃ y last, (form.2 (inputAt entries form.1)).Returns world y last) ↔
          ∀ field ∈ fields, ∃ y last, (fieldAnswer x world entries field).Returns world y last := by
      rw [fieldForms_eq, List.forall_mem_map]
      rfl
    exact (fieldOutputs_accept_iff distinct proceeds_fieldForms answers).trans each
  constructor
  · rintro ⟨y, after, returned⟩
    obtain ⟨pairs, ⟨entries, mapping, given⟩, -⟩ := (returns_object declared).mp returned
    exact ⟨entries, mapping, (fieldwise entries mapping).mp ⟨pairs, after, given⟩⟩
  · rintro ⟨entries, mapping, each⟩
    obtain ⟨pairs, after, given⟩ := (fieldwise entries mapping).mpr each
    exact ⟨_, after, (returns_object declared).mpr ⟨pairs, ⟨entries, mapping, given⟩, rfl⟩⟩

include also same

/-- Objects that have the same fields in any order accept alike. -/
theorem object_accepts_congr (alike : FieldsAcceptThroughout fields x world) :
    (∃ y after, ((object fields).safe x).Returns world y after) ↔
      ∃ y after, ((object others).safe x).Returns world y after := by
  have back : ∀ key, Entries.get? others key = Entries.get? fields key := fun key => (same key).symm
  have likewise : FieldsAcceptThroughout others x world := by
    intro entries mapping field inside
    obtain ⟨origin, member, key, check⟩ := exists_field_of_same also same field inside
    rw [← fieldAnswer_congr key check]
    exact alike entries mapping origin member
  rw [object_accepts_iff declared alike, object_accepts_iff also likewise]
  refine exists_congr fun entries => and_congr_right fun _ => ?_
  constructor
  · intro each field inside
    obtain ⟨origin, member, key, check⟩ := exists_field_of_same also same field inside
    rw [← fieldAnswer_congr key check]
    exact each origin member
  · intro each field inside
    obtain ⟨origin, member, key, check⟩ := exists_field_of_same declared back field inside
    rw [← fieldAnswer_congr key check]
    exact each origin member

/-- Objects that have the same fields in any order output equal dictionaries. -/
theorem object_outputs_congr (equal : FieldsEqualThroughout fields x world) {y z : Value}
    {after last : World} (returned : ((object fields).safe x).Returns world y after)
    (again : ((object others).safe x).Returns world z last) : y.eq z := by
  obtain ⟨pairs, gives, rfl⟩ := (returns_object declared).mp returned
  obtain ⟨more, further, rfl⟩ := (returns_object also).mp again
  have distinct := gives.distinct declared
  have likewise := further.distinct also
  obtain ⟨entries, mapping, given⟩ := gives
  obtain ⟨looked, found, behind⟩ := further
  cases mapping.symm.trans found
  -- The two rows ask the same fields, each possibly in another world, on the way from the same one.
  have forms : ∀ key, Entries.get? (fieldForms fields x world) key =
      Entries.get? (fieldForms others x world) key := by
    intro key
    rw [get?_fieldForms, get?_fieldForms, same]
  have answers : ∀ form ∈ fieldForms fields x world,
      (form.2 (inputAt entries form.1)).EqualThroughout world := by
    rw [fieldForms_eq, List.forall_mem_map]
    exact equal entries mapping
  exact equiv_presentPairs distinct likewise
    (equal_outputs forms proceeds_fieldForms proceeds_fieldForms answers given behind)

end SameFields

/-- The conjunction of two objects is the object with the fields of both. -/
theorem exists_intersect_objects (fields others : List (Value × Validator)) :
    ∃ joined, intersect [object fields, object others] = .ok joined ∧
      joined.safe = (object (fields ++ others)).safe := by
  refine ⟨_, made_of_nonempty (List.cons_ne_nil _ _) _, funext fun x => safe_congr fun onLazy => ?_⟩
  have fieldwise : Rule.safeFields onLazy (fieldRules (fields ++ others)) =
      Rule.safeFields onLazy (fieldRules fields) ++ Rule.safeFields onLazy (fieldRules others) := by
    simp [Rule.safeFields_eq_map, fieldRules]
  change SafeForm.intersect [SafeForm.object (Rule.safeFields onLazy (fieldRules fields)),
    SafeForm.object (Rule.safeFields onLazy (fieldRules others))] x =
      SafeForm.object (Rule.safeFields onLazy (fieldRules (fields ++ others))) x
  rw [fieldwise, SafeForm.object_append]

/-- The object of a shape extended by disjoint fields is the conjunction of the objects of both. The
conjunction of the object of the fields that are picked from a shape and of that of the fields that
are left is the object of both behind each other, in which each key has the field that it has in the
shape. Where what one field leaves behind makes no difference to another (as for
`throughout_of_eager`), it accepts what the object of the shape accepts, and the outputs are
equal. -/
theorem split_shapes {base extension shape : Schema}
    {fields further declared : List (Value × Validator)}
    {keys : List Value} (read : base.toShape = .ok fields) (also : extension.toShape = .ok further)
    (disjoint : Entries.Distinct (fields ++ further)) (reads : shape.toShape = .ok declared)
    (distinct : Entries.Distinct declared) (hashable : ∀ key ∈ keys, key.unhashable? = none) :
    (∃ extended joined, base.extend extension = .ok extended ∧
      extended.toShape = .ok (fields ++ further) ∧
        intersect [object fields, object further] = .ok joined ∧
      joined.safe = (object (fields ++ further)).safe) ∧
    ∃ picked left chosen others joined, shape.pick keys = .ok picked ∧ picked.toShape = .ok chosen ∧
      shape.without keys = .ok left ∧ left.toShape = .ok others ∧
      intersect [object chosen, object others] = .ok joined ∧
      joined.safe = (object (chosen ++ others)).safe ∧
      (∀ key, Entries.get? (chosen ++ others) key = Entries.get? declared key) ∧
      ∀ x world, FieldsAcceptThroughout declared x world →
        ((∃ y after, ((object declared).safe x).Returns world y after) ↔
          ∃ y after, (joined.safe x).Returns world y after) ∧
        (FieldsEqualThroughout declared x world → ∀ y z after last,
          ((object declared).safe x).Returns world y after → (joined.safe x).Returns world z last →
            y.eq z) := by
  constructor
  · obtain ⟨joined, made, same⟩ := exists_intersect_objects fields further
    exact ⟨_, joined, Schema.extend_of_disjoint read also disjoint,
      Schema.toFields_ofFields _, made, same⟩
  · have split := Entries.get?_split keys declared
    have whole := Entries.distinct_split keys distinct
    have back : ∀ key, Entries.get? declared key = _ := fun key => (split key).symm
    obtain ⟨joined, made, same⟩ :=
      exists_intersect_objects (Entries.ofPairs (Entries.restrict keys declared))
      (declared.filter fun field => !keys.any (· == field.1))
    refine ⟨_, _, _, _, joined, Schema.pick_of_toShape reads hashable, Schema.toFields_ofFields _,
      Schema.without_of_toShape reads hashable, Schema.toFields_ofFields _, made, same, split, ?_⟩
    intro x world alike
    rw [same]
    refine ⟨object_accepts_congr distinct whole back alike,
      fun equal y z after last returned again => ?_⟩
    exact object_outputs_congr distinct whole back equal returned again

/-- A callback that writes down that it is called, and gives what it is called with. -/
private def noted : Callable where
  name := "noted"
  run x := do
    Traced.log ⟨"noted", x⟩
    pure x

/-- Two fields whose calls are written down around one that asks for a number. -/
private def noting : List (Value × Validator) :=
  [(.str "a", convert noted), (.str "b", leaf .integer), (.str "c", convert noted)]

/-- An input for these fields, one of which is absent. -/
private def answered : List (Value × Value) := [(.str "b", .int 2), (.str "a", .null)]

/-- What the callbacks write down makes no difference to what they give. -/
private theorem noting_throughout (x : Value) (world : World) :
    FieldsAcceptThroughout noting x world ∧ FieldsEqualThroughout noting x world := by
  have calls : ∀ (v : Value) (reached : World),
      (SafeForm.convert noted "Transform failed" v).Returns reached v
        (reached.traced { reached.trace with logged := ⟨"noted", v⟩ :: reached.trace.logged }) :=
    fun _ _ => rfl
  have tests : ∀ entries, (fieldAnswer x world entries (.str "b", leaf .integer)).Steady := by
    have eager : Rule.Eager (.leaf .integer) := .intro nofun nofun
    have pure : Rule.SuppliedBy Piece.Pure (.leaf .integer) := nofun
    exact fun entries => eager.steady pure _ _
  constructor
  · intro entries _ field inside
    simp only [noting, List.mem_cons, List.not_mem_nil, or_false] at inside
    rcases inside with rfl | rfl | rfl
    · exact fun one two _ _ _ => ⟨_, _, calls _ two⟩
    · exact (tests entries).acceptsThroughout world
    · exact fun one two _ _ _ => ⟨_, _, calls _ two⟩
  · intro entries _ field inside
    simp only [noting, List.mem_cons, List.not_mem_nil, or_false] at inside
    rcases inside with rfl | rfl | rfl
    · intro one two y z after last _ _ returned again
      cases (calls _ one).symm.trans returned
      cases (calls _ two).symm.trans again
      exact Value.equiv_refl _
    · exact (tests entries).equalThroughout world
    · intro one two y z after last _ _ returned again
      cases (calls _ one).symm.trans returned
      cases (calls _ two).symm.trans again
      exact Value.equiv_refl _

/-- A key that is picked twice, one that no field has, and one more. -/
private def askedKeys : List Value := [.str "c", .str "z", .str "a", .str "c"]

/-- The object of two shapes with one field each is the conjunction of their objects. Where the last
field is picked first, and once more, beside a key that no field has, the conjunction asks the
fields in another order, as can be seen from what is written down, and gives an equal output. -/
theorem noting_split :
    ∃ fields further, (Schema.dict (Schema.ofFields fields)).toShape = .ok fields ∧
      (Schema.mapping (Schema.ofFields further)).toShape = .ok further ∧
      Entries.Distinct (fields ++ further) ∧
        (Schema.dict (Schema.ofFields noting)).toShape = .ok noting ∧
      Entries.Distinct noting ∧ (∀ key ∈ askedKeys, key.unhashable? = none) ∧
      FieldsAcceptThroughout noting (.dict answered) (World.initial "") ∧
      FieldsEqualThroughout noting (.dict answered) (World.initial "") ∧
      (∃ extended joined, (Schema.dict (Schema.ofFields fields)).extend
          (.mapping (Schema.ofFields further)) = .ok extended ∧
        intersect [object fields, object further] = .ok joined ∧
        joined.safe = (object (fields ++ further)).safe) ∧
      ∃ picked left chosen others joined,
        (Schema.dict (Schema.ofFields noting)).pick askedKeys = .ok picked ∧
        picked.toShape = .ok chosen ∧
          (Schema.dict (Schema.ofFields noting)).without askedKeys = .ok left ∧
        left.toShape = .ok others ∧ intersect [object chosen, object others] = .ok joined ∧
        ∃ y after z last,
          ((object noting).safe (.dict answered)).Returns (World.initial "") y after ∧
          (joined.safe (.dict answered)).Returns (World.initial "") z last ∧ y.eq z ∧
          after.trace.events = [⟨"noted", .null⟩, ⟨"noted", .missing⟩] ∧
          last.trace.events = [⟨"noted", .missing⟩, ⟨"noted", .null⟩] := by
  have read : (Schema.dict (Schema.ofFields [(.str "a", leaf .any)])).toShape =
      .ok [(.str "a", leaf .any)] :=
    Schema.toFields_ofFields _
  have also : (Schema.mapping (Schema.ofFields [(.str "n", leaf .null)])).toShape =
      .ok [(.str "n", leaf .null)] := Schema.toFields_ofFields _
  have reads : (Schema.dict (Schema.ofFields noting)).toShape = .ok noting :=
    Schema.toFields_ofFields _
  have disjoint :
      Entries.Distinct ([(Value.str "a", leaf .any)] ++ [(Value.str "n", leaf .null)]) := by
    decide
  have distinct : Entries.Distinct noting := by decide
  have hashable : ∀ key ∈ askedKeys, key.unhashable? = none := by decide
  obtain ⟨accepts, equal⟩ := noting_throughout (.dict answered) (World.initial "")
  obtain ⟨⟨extended, joined, adding, -, made, same⟩, picked, left, chosen, others, whole,
    picking, chose,
    dropping, rest, built, together, -, agree⟩ :=
      split_shapes read also disjoint reads distinct hashable
  have out := (agree (.dict answered) (World.initial "") accepts).2 equal
  refine ⟨_, _, read, also, disjoint, reads, distinct, hashable, accepts, equal,
    ⟨extended, joined, adding, made, same⟩, picked, left, chosen, others, whole, picking,
      chose, dropping,
    rest, built, ?_⟩
  have first : (Schema.dict (Schema.ofFields noting)).pick askedKeys =
      .ok (.dict (Schema.ofFields [(.str "c", convert noted), (.str "a", convert noted)])) := rfl
  have second : (Schema.dict (Schema.ofFields noting)).without askedKeys =
      .ok (.dict (Schema.ofFields [(.str "b", leaf .integer)])) := rfl
  cases picking.symm.trans first
  cases dropping.symm.trans second
  cases chose.symm.trans (Schema.toFields_ofFields _)
  cases rest.symm.trans (Schema.toFields_ofFields _)
  have ran : ((object noting).safe (.dict answered)).Returns (World.initial "")
      (.dict [(.str "a", .null), (.str "b", .int 2)]) ((World.initial "").traced
        ⟨[⟨"noted", .missing⟩, ⟨"noted", .null⟩], 0⟩) := rfl
  have again : (whole.safe (.dict answered)).Returns (World.initial "")
      (.dict [(.str "a", .null), (.str "b", .int 2)]) ((World.initial "").traced
        ⟨[⟨"noted", .null⟩, ⟨"noted", .missing⟩], 0⟩) := by
    rw [together]
    rfl
  exact ⟨_, _, _, _, ran, again, out _ _ _ _ ran again, rfl, rfl⟩

end Validator

end Conform
