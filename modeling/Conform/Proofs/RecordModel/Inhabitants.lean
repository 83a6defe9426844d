import Conform.Proofs.Evaluation.Outputs
import Conform.Proofs.RecordModel.Choices
import Conform.Proofs.Value.Equivalence

/-!
The values of a type. Types that are equal have the same values, so that a choice between types has
the values of all of them although equal ones are left out. What every type that has a first value
has as well (`ValueType.Retains`) is how a step may change a value without changing its type.
-/
namespace Conform

def Value.isAtom : Value → Bool
  | .null | .bool _ | .int _ | .float _ | .str _ | .bytes _ => true
  | _ => false

namespace Value

variable {x y value : Value}

/-- What equals an atom is an atom. -/
theorem isAtom_of_sameAs (atom : value.isAtom) (same : x.sameAs value) : x.isAtom := by
  obtain ⟨-, equal, -⟩ := sameAs_iff.mp same
  cases alike_of_equiv equal with
  | same => exact atom
  | number first second => cases x <;> first | rfl | cases first
  | list | tuple => cases atom
  | elements first second => cases value <;> cases second <;> cases atom
  | entries first second => cases value <;> cases second <;> cases atom

end Value

namespace ValueType

mutual

/-- Whether a value is of a type. Integers, texts and Booleans are exactly these, and so are lists,
sets and dictionaries; a float may be an integer. -/
def admits : ValueType → Value → Bool
  | .any, _ => true
  | .str, y => y.isStr
  | .int, y => match y with
    | .int _ => true
    | _ => false
  | .float, y => match y with
    | .int _ | .float _ => true
    | _ => false
  | .bool, y => match y with
    | .bool _ => true
    | _ => false
  | .null, y => y.isNull
  | .literal values, y => values.any y.sameAs
  | .list item, y => match y with
    | .list ys => ys.all (admits item)
    | _ => false
  | .set item, y => match y with
    | .set ys => ys.all (admits item)
    | _ => false
  | .dict key value, y => match y with
    | .dict entries => entries.all fun entry => admits key entry.1 && admits value entry.2
    | _ => false
  | .union members, y => admitsOne members y
  | .model _, _ => false
termination_by structural held => held

/-- Whether a value is of one of several types. -/
def admitsOne : List ValueType → Value → Bool
  | [], _ => false
  | member :: rest, y => admits member y || admitsOne rest y
termination_by structural members => members

end

/-- All literals in the type are atoms, and no model is in it. -/
inductive Ground : ValueType → Prop where
  | any : Ground .any
  | str : Ground .str
  | int : Ground .int
  | float : Ground .float
  | bool : Ground .bool
  | null : Ground .null
  | literal {values : List Value} (atoms : ∀ value ∈ values, value.isAtom) :
      Ground (.literal values)
  | list {item : ValueType} (ground : Ground item) : Ground (.list item)
  | set {item : ValueType} (ground : Ground item) : Ground (.set item)
  | dict {key value : ValueType} (keys : Ground key) (values : Ground value) :
      Ground (.dict key value)
  | union {members : List ValueType} (all : ∀ member ∈ members, Ground member) :
      Ground (.union members)

variable {held other : ValueType} {members : List ValueType} {x y : Value}

@[simp] theorem admits_literal {values : List Value} :
    (literal values).admits y ↔ ∃ value ∈ values, y.sameAs value := by
  simp [admits]

@[simp] theorem admits_list {item : ValueType} :
    (list item).admits y ↔ ∃ ys, y = .list ys ∧ ∀ y ∈ ys, item.admits y := by
  cases y <;> simp [admits]

@[simp] theorem admits_set {item : ValueType} :
    (set item).admits y ↔ ∃ ys, y = .set ys ∧ ∀ y ∈ ys, item.admits y := by
  cases y <;> simp [admits]

@[simp] theorem admits_dict {key value : ValueType} :
    (dict key value).admits y ↔
      ∃ entries, y = .dict entries ∧ ∀ entry ∈ entries,
        key.admits entry.1 ∧ value.admits entry.2 := by
  cases y <;> simp [admits]

@[simp] theorem admits_union : (union members).admits y ↔ ∃ member ∈ members, member.admits y := by
  induction members with
  | nil => simp [admits, admitsOne]
  | cons first rest ih =>
    have later : admitsOne rest y ↔ ∃ member ∈ rest, member.admits y := ih
    simp [admits, admitsOne, later]

/-- A value that equals one spelling of a choice equals the other. -/
theorem sameAs_of_sameChoice {value kept : Value} (equals : y.sameAs value)
    (choice : sameChoice value kept) :
    y.sameAs kept := by
  obtain ⟨proper, equal, named⟩ := Value.sameAs_iff.mp equals
  obtain ⟨same, called⟩ := Bool.and_eq_true_iff.mp choice
  exact Value.sameAs_iff.mpr ⟨proper, Value.equiv_trans equal same,
    named.trans (beq_iff_eq.mp called)⟩

theorem memberTable_eq_map (members others : List ValueType) :
    memberTable members others = members.map fun member => others.map (same member) := by
  induction members with
  | nil => rfl
  | cons first rest ih => rw [memberTable, ih, List.map_cons]

/-- Of equal choices each covers the other. -/
theorem covered_of_same_union {others : List ValueType}
    (equal : same (.union members) (.union others)) :
    ∀ other ∈ others, ∃ member ∈ members, same member other := by
  rw [same, memberTable_eq_map] at equal
  exact ((Value.table_iff_cover same members others).mp equal).2

/-- Equal types have the same values. -/
theorem Ground.admits_of_same (ground : held.Ground) (equal : same held other)
    (admitted : other.admits y) :
    held.admits y := by
  induction ground generalizing other y with
  | any => rfl
  | str | int | float | bool | null =>
    cases other <;> first | exact admitted | simp [same] at equal
  | literal atoms =>
    cases other with
    | literal others =>
      obtain ⟨value, inside, equals⟩ := admits_literal.mp admitted
      obtain ⟨-, covered⟩ := Bool.and_eq_true_iff.mp equal
      obtain ⟨kept, member, choice⟩ :=
        List.any_eq_true.mp (List.all_eq_true.mp covered value inside)
      exact admits_literal.mpr ⟨kept, member, sameAs_of_sameChoice equals choice⟩
    | _ => simp [same] at equal
  | list _ ih =>
    cases other with
    | list item =>
      obtain ⟨ys, rfl, each⟩ := admits_list.mp admitted
      exact admits_list.mpr ⟨ys, rfl, fun y inside => ih equal (each y inside)⟩
    | _ => simp [same] at equal
  | set _ ih =>
    cases other with
    | set item =>
      obtain ⟨ys, rfl, each⟩ := admits_set.mp admitted
      exact admits_set.mpr ⟨ys, rfl, fun y inside => ih equal (each y inside)⟩
    | _ => simp [same] at equal
  | dict _ _ keys values =>
    cases other with
    | dict key value =>
      obtain ⟨entries, rfl, each⟩ := admits_dict.mp admitted
      obtain ⟨first, second⟩ := Bool.and_eq_true_iff.mp equal
      exact admits_dict.mpr ⟨entries, rfl, fun entry inside =>
        ⟨keys first (each entry inside).1, values second (each entry inside).2⟩⟩
    | _ => simp [same] at equal
  | union all ih =>
    cases other with
    | union members =>
      obtain ⟨member, inside, admitted⟩ := admits_union.mp admitted
      obtain ⟨kept, earlier, equals⟩ := covered_of_same_union equal member inside
      exact admits_union.mpr ⟨kept, earlier, ih kept earlier equals admitted⟩
    | _ => simp [same] at equal

section Choices

theorem unhashableIn?_eq_none (each : ∀ member ∈ members, member.unhashable? = none) :
    unhashableIn? members = none := by
  induction members with
  | nil => rfl
  | cons first rest ih =>
    obtain ⟨here, later⟩ := List.forall_mem_cons.mp each
    simp only [unhashableIn?, here, ih later, Option.orElse_none]

theorem hashable_atoms {values : List Value} (atoms : ∀ value ∈ values, value.isAtom) :
    values.findSome? Value.unhashable? = none := by
  refine List.findSome?_eq_none_iff.mpr fun value inside => ?_
  have atom := atoms value inside
  cases value <;> first | rfl | cases atom

theorem Ground.hashable (ground : held.Ground) : held.unhashable? = none := by
  induction ground with
  | any | str | int | float | bool | null => rfl
  | literal atoms => exact hashable_atoms atoms
  | list _ ih | set _ ih => exact ih
  | dict _ _ keys values => simp only [unhashable?, keys, values, Option.orElse_none]
  | union _ ih => exact unhashableIn?_eq_none ih

/-- Types without containers in their literals can be compared. -/
theorem Ground.comparable (first : held.Ground) (second : other.Ground) :
    clash? held other = none := by
  induction first generalizing other with
  | any | str | int | float | bool | null => rfl
  | literal atoms =>
    cases second with
    | literal further => exact hashable_atoms (List.forall_mem_append.mpr ⟨atoms, further⟩)
    | _ => rfl
  | list _ ih =>
    cases second with
    | list further => exact ih further
    | _ => rfl
  | set _ ih =>
    cases second with
    | set further => exact ih further
    | _ => rfl
  | dict _ _ keys values =>
    cases second with
    | dict key value => simp only [clash?, keys key, values value, Option.orElse_none, ite_self]
    | _ => rfl
  | union all =>
    cases second with
    | union further =>
      have each := List.forall_mem_append.mpr ⟨all, further⟩
      exact unhashableIn?_eq_none fun member inside => (each member inside).hashable
    | _ => rfl

/-- What is offered by a type is ground, and the type has the values of no more than what it
offers. -/
theorem Ground.alternatives (ground : held.Ground) : (∀ part ∈ held.alternatives, part.Ground) ∧
    ∀ y, held.admits y → ∃ part ∈ held.alternatives, part.admits y := by
  cases held with
  | union members =>
    cases ground with
    | union all => exact ⟨all, fun y admitted => admits_union.mp admitted⟩
  | _ =>
    exact ⟨List.forall_mem_singleton.mpr ground,
      fun y admitted => ⟨_, List.mem_singleton.mpr rfl, admitted⟩⟩

/-- A choice between ground types can be made, is ground and has the values of them all. -/
theorem choice_ground (ground : ∀ member ∈ members, member.Ground) :
    ∃ held, choice members = .ok held ∧ held.Ground ∧
      ∀ member ∈ members, ∀ y, member.admits y → held.admits y := by
  have parts : ∀ part ∈ members.flatMap alternatives, part.Ground := by
    intro part inside
    obtain ⟨member, given, offered⟩ := List.mem_flatMap.mp inside
    exact (ground member given).alternatives.1 part offered
  obtain ⟨kept, once⟩ := exists_distinct fun first one second two =>
    (parts first one).comparable (parts second two)
  have stays : ∀ part ∈ kept, part.Ground := fun part inside =>
    parts part (mem_of_distinct once part inside)
  have covers : ∀ member ∈ members, ∀ y, member.admits y → ∃ part ∈ kept, part.admits y := by
    intro member given y admitted
    obtain ⟨part, offered, admitted⟩ := (ground member given).alternatives.2 y admitted
    obtain ⟨other, inside, rfl | same⟩ :=
      covered_of_distinct once part (List.mem_flatMap.mpr ⟨member, given, offered⟩)
    · exact ⟨other, inside, admitted⟩
    · exact ⟨other, inside, (stays other inside).admits_of_same same admitted⟩
  have several : choice members = .ok (.union kept) ∨ ∃ only,
      kept = [only] ∧ choice members = .ok only := by
    unfold choice
    rw [once]
    rcases kept with _ | ⟨first, _ | ⟨second, rest⟩⟩
    · exact .inl rfl
    · exact .inr ⟨first, rfl, rfl⟩
    · exact .inl rfl
  rcases several with made | ⟨only, rfl, made⟩
  · exact ⟨.union kept, made, .union stays, fun member given y admitted =>
      admits_union.mpr (covers member given y admitted)⟩
  · refine ⟨only, made, stays only List.mem_cons_self, fun member given y admitted => ?_⟩
    obtain ⟨part, inside, admitted⟩ := covers member given y admitted
    rwa [← List.mem_singleton.mp inside]

end Choices

section Literals

variable {values : List Value}

/-- One more value, unless it is one of the choices kept so far. -/
def keepChoice (kept : List Value) (value : Value) : List Value :=
  if kept.any (sameChoice value) then kept else kept ++ [value]

theorem ofLiterals_eq : ofLiterals values =
    .literal
      (if (values.findSome? Value.unhashable?).isSome then values
        else values.foldl keepChoice []) := by
  unfold ofLiterals
  split <;> rfl

/-- Keeping a choice adds nothing but the choice, and afterwards the choice or one that is the same
is there. -/
theorem keepChoice_spec (kept : List Value) (value : Value) :
    kept ⊆ keepChoice kept value ∧ keepChoice kept value ⊆ kept ++ [value] ∧
      ∃ other ∈ keepChoice kept value, other = value ∨ sameChoice value other := by
  unfold keepChoice
  split
  · next repeated =>
    obtain ⟨other, inside, choice⟩ := List.any_eq_true.mp repeated
    exact ⟨List.Subset.refl kept, List.subset_append_left kept [value], other, inside, .inr choice⟩
  · exact ⟨List.subset_append_left kept [value], List.Subset.refl _, value, by simp, .inl rfl⟩

/-- Without repetition, values are kept or the same choice as one that is. -/
theorem foldl_keepChoice (values kept : List Value) :
    kept ⊆ values.foldl keepChoice kept ∧ values.foldl keepChoice kept ⊆ kept ++ values ∧
      ∀ value ∈ values, ∃ other ∈ values.foldl keepChoice kept,
        other = value ∨ sameChoice value other := by
  induction values generalizing kept with
  | nil => simp
  | cons first rest ih =>
    obtain ⟨holds, adds, other, inside, choice⟩ := keepChoice_spec kept first
    obtain ⟨stays, within, covers⟩ := ih (keepChoice kept first)
    refine ⟨List.Subset.trans holds stays, List.Subset.trans within ?_, ?_⟩
    · rw [List.append_cons]
      exact List.append_subset.mpr
        ⟨List.Subset.trans adds (List.subset_append_left _ rest), List.subset_append_right _ rest⟩
    · exact List.forall_mem_cons.mpr ⟨⟨other, stays inside, choice⟩, covers⟩

/-- The values of literals: each that equals one of them. -/
theorem ofLiterals_covers (values : List Value) :
    ∃ kept, ofLiterals values = .literal kept ∧ kept ⊆ values ∧
      ∀ value ∈ values, ∀ y : Value, y.sameAs value → ∃ other ∈ kept, y.sameAs other := by
  refine ⟨_, ofLiterals_eq, ?_⟩
  split
  · exact ⟨fun _ inside => inside, fun value inside y equals => ⟨value, inside, equals⟩⟩
  · obtain ⟨-, within, covers⟩ := foldl_keepChoice values []
    refine ⟨within, fun value inside y equals => ?_⟩
    obtain ⟨other, member, rfl | choice⟩ := covers value inside
    · exact ⟨other, member, equals⟩
    · exact ⟨other, member, sameAs_of_sameChoice equals choice⟩

theorem ground_ofLiterals (atoms : ∀ value ∈ values, value.isAtom) :
    (ofLiterals values).Ground := by
  obtain ⟨kept, made, within, -⟩ := ofLiterals_covers values
  rw [made]
  exact .literal fun value inside => atoms value (within inside)

theorem admits_ofLiterals {value : Value} (member : value ∈ values) (equals : y.sameAs value) :
    (ofLiterals values).admits y := by
  obtain ⟨kept, made, -, covers⟩ := ofLiterals_covers values
  rw [made]
  exact admits_literal.mpr (covers value member y equals)

end Literals

section Retained

/-- Every ground type that has the first value has the second. -/
def Retains (x y : Value) : Prop := ∀ held : ValueType, held.Ground → held.admits x → held.admits y

theorem retains_refl (x : Value) : Retains x x := fun _ _ admitted => admitted

theorem Retains.trans {z : Value} (first : Retains x y) (second : Retains y z) : Retains x z :=
  fun held ground admitted => second held ground (first held ground admitted)

/-- An atom in place of one that it equals. -/
theorem retains_of_sameAs {value : Value} (atom : value.isAtom) (equals : x.sameAs value) :
    Retains x value := by
  have before := Value.isAtom_of_sameAs atom equals
  obtain ⟨-, -, named⟩ := Value.sameAs_iff.mp equals
  intro held ground admitted
  induction ground with
  | any => rfl
  | str | int | float | bool | null =>
    cases x <;> cases before <;> cases value <;> cases atom <;>
      first | exact admitted | simp [Value.typeName] at named
  | literal atoms =>
    obtain ⟨other, inside, same⟩ := admits_literal.mp admitted
    exact admits_literal.mpr ⟨other, inside, Value.sameAs_of_sameAs equals same⟩
  | list =>
    obtain ⟨_, rfl, -⟩ := admits_list.mp admitted
    cases before
  | set =>
    obtain ⟨_, rfl, -⟩ := admits_set.mp admitted
    cases before
  | dict =>
    obtain ⟨_, rfl, -⟩ := admits_dict.mp admitted
    cases before
  | union _ ih =>
    obtain ⟨member, inside, admitted⟩ := admits_union.mp admitted
    exact admits_union.mpr ⟨member, inside, ih member inside admitted⟩

/-- A container keeps the types that another has when it does so for each sort of container. -/
theorem retains_of_container (container : x.isAtom = false)
    (list : ∀ item, Ground item → (list item).admits x → (ValueType.list item).admits y)
    (set : ∀ item, Ground item → (set item).admits x → (ValueType.set item).admits y)
    (dict : ∀ key value, Ground key → Ground value → (dict key value).admits x →
      (ValueType.dict key value).admits y) : Retains x y := by
  intro held ground admitted
  induction ground with
  | any => rfl
  | str | int | float | bool | null => cases x <;> cases container <;> cases admitted
  | literal atoms =>
    obtain ⟨other, inside, same⟩ := admits_literal.mp admitted
    rw [Value.isAtom_of_sameAs (atoms other inside) same] at container
    cases container
  | list ground => exact list _ ground admitted
  | set ground => exact set _ ground admitted
  | dict keys values => exact dict _ _ keys values admitted
  | union _ ih =>
    obtain ⟨member, inside, admitted⟩ := admits_union.mp admitted
    exact admits_union.mpr ⟨member, inside, ih member inside admitted⟩

open SafeForm (Stems EntriesStem)

/-- A list in place of a list or tuple. -/
theorem retains_of_items {items outputs : List Value} (held : x.items? = some items)
    (stems : Stems Retains items outputs) : Retains x (.list outputs) := by
  refine retains_of_container (by cases x <;> first | rfl | cases held) ?_ ?_ ?_
  · intro item ground admitted
    obtain ⟨_, rfl, each⟩ := admits_list.mp admitted
    cases held
    refine admits_list.mpr ⟨outputs, rfl, fun y inside => ?_⟩
    obtain ⟨given, member, keeps⟩ := stems y inside
    exact keeps item ground (each given member)
  · intro item _ admitted
    obtain ⟨_, rfl, -⟩ := admits_set.mp admitted
    cases held
  · intro key value _ _ admitted
    obtain ⟨_, rfl, -⟩ := admits_dict.mp admitted
    cases held

/-- A set in place of another. -/
theorem retains_of_elements {items outputs : List Value} (held : x.elements? = some items)
    (stems : Stems Retains items outputs) : Retains x (.set outputs) := by
  refine retains_of_container (by cases x <;> first | rfl | cases held) ?_ ?_ ?_
  · intro item _ admitted
    obtain ⟨_, rfl, -⟩ := admits_list.mp admitted
    cases held
  · intro item ground admitted
    obtain ⟨_, rfl, each⟩ := admits_set.mp admitted
    cases held
    refine admits_set.mpr ⟨outputs, rfl, fun y inside => ?_⟩
    obtain ⟨given, member, keeps⟩ := stems y inside
    exact keeps item ground (each given member)
  · intro key value _ _ admitted
    obtain ⟨_, rfl, -⟩ := admits_dict.mp admitted
    cases held

/-- A dictionary in place of another. -/
theorem retains_of_entries {entries outputs : List (Value × Value)}
    (held : x.entries? = some entries)
    (stem : EntriesStem Retains Retains entries outputs) : Retains x (.dict outputs) := by
  refine retains_of_container (by cases x <;> first | rfl | cases held) ?_ ?_ ?_
  · intro item _ admitted
    obtain ⟨_, rfl, -⟩ := admits_list.mp admitted
    cases held
  · intro item _ admitted
    obtain ⟨_, rfl, -⟩ := admits_set.mp admitted
    cases held
  · intro key value keyGround valueGround admitted
    obtain ⟨_, rfl, each⟩ := admits_dict.mp admitted
    cases held
    refine admits_dict.mpr ⟨outputs, rfl, fun output inside => ?_⟩
    obtain ⟨⟨one, first, keyed⟩, two, second, valued⟩ := stem output inside
    exact ⟨keyed key keyGround (each one first).1, valued value valueGround (each two second).2⟩

end Retained

end ValueType

end Conform
