import Conform.Proofs.Evaluation.Coinciding
import Conform.Proofs.Evaluation.Unfolding
import Conform.Proofs.Value.Depth
import Mathlib.Data.List.Forall2

/-!
Recursive schemas. A rule whose references to a lazy schema all lie beneath a field, a rest, an
element or an entry goes down into its input at every turn, and what it hands on is never deeper
than what it was given. So the lazy schema ends on every value, and the same way as the rule
unfolded more often than the value is deep (`Validator.lazy_ends_as_unfolding`).
-/
namespace Conform

/-- The value is no deeper than another, and absent if that is. -/
structure Value.Below (x y : Value) : Prop where
  depth : y.depth ≤ x.depth
  absent : x = .missing → y = .missing

theorem Value.Below.refl (x : Value) : x.Below x := ⟨Nat.le_refl _, id⟩

theorem Value.Below.trans {x y z : Value} (first : x.Below y) (second : y.Below z) : x.Below z :=
  ⟨Nat.le_trans second.depth first.depth, fun absent => second.absent (first.absent absent)⟩

/-- What is made of a value that is not absent need only be no deeper. -/
theorem Value.Below.of_present {x y : Value} (present : x ≠ .missing) (deep : y.depth ≤ x.depth) :
    x.Below y := ⟨deep, fun absent => absurd absent present⟩

namespace SafeForm

open Checked

/-- Outputs joined are no deeper than the input when the outputs before fit into it and the last one
is none deeper. -/
theorem below_joinOutput {x merged out : Value}
    (earlier : ∀ entries bound, merged = .dict entries → x.depth ≤ bound + 1 →
      Value.EntriesWithin bound entries)
    (later : x.Below out) : x.Below (joinOutput merged out) := by
  cases held : out.entries? with
  | none =>
    simp only [joinOutput, held]
    exact later
  | some entries =>
    have present : x ≠ .missing := by
      intro absent
      rw [later.absent absent] at held
      cases held
    have deep : Value.depthOfEntries entries + 1 ≤ x.depth :=
      Value.depth_of_entries held ▸ later.depth
    obtain ⟨bound, same⟩ := Nat.exists_eq_succ_of_ne_zero (Nat.ne_zero_of_lt deep)
    have within : Value.EntriesWithin bound entries :=
      Value.depthOfEntries_le_iff.mp (Nat.le_of_succ_le_succ (same ▸ deep))
    have fits : ∀ {joined}, Value.EntriesWithin bound joined → x.Below (.dict joined) := by
      intro joined also
      refine .of_present present ?_
      rw [same]
      exact Nat.succ_le_succ (Value.depthOfEntries_le_iff.mpr also)
    cases merged with
    | dict before =>
      simp only [joinOutput, held]
      exact fits ((earlier before bound rfl (Nat.le_of_eq same)).merge within)
    | _ =>
      simp only [joinOutput, held]
      exact fits within

/-- On a value the first form ends in the world as the second does in every world, and neither makes
anything deeper of it. -/
def Agree (world : World) (x : Value) (first second : SafeForm) : Prop :=
  Coincide x.Below world (first x) (second x)

variable {world : World} {x : Value} {first second : SafeForm}

theorem coincide_provided {condition : Bool} {failure : Failure} {y : Value}
    (holds : condition = true → x.Below y) :
    Coincide x.Below world (provided condition failure y) (provided condition failure y) := by
  cases condition with
  | true => exact coincide_pure (holds rfl)
  | false => exact coincide_reject failure

section Single

variable (world) (x)

theorem agree_leaf (l : Leaf) : Agree world x (leaf l) (leaf l) :=
  coincide_provided fun _ => .refl x

theorem agree_instanceOf (cls : Class) : Agree world x (instanceOf cls) (instanceOf cls) :=
  coincide_provided fun _ => .refl x

/-- The value asked for is as deep as the value that equals it. -/
theorem agree_literal (value : Value) : Agree world x (literal value) (literal value) := by
  refine coincide_provided fun same => ?_
  have equal := Value.equiv_of_sameAs same
  refine ⟨Nat.le_of_eq (Value.depth_eq_of_equiv equal).symm, ?_⟩
  rintro rfl
  exact Value.eq_missing_of_equiv (Value.equiv_symm equal)

theorem agree_oneOf (values : List Value) : Agree world x (oneOf values) (oneOf values) :=
  coincide_provided fun _ => .refl x

/-- A check of a value agrees with itself, whatever lazy rules do. -/
theorem agree_check {test : Check} (unaided : test.pieces = []) (message : String) :
    Agree world x (check test message) (check test message) := by
  obtain ⟨passed, answers⟩ : ∃ passed, answer test x = pure passed := by
    cases test with
    | predicate => cases unaided
    | lengthAtLeast | lengthAtMost | compare | occurs => exact ⟨_, rfl⟩
  have tested : Coincide (fun _ => True) world (guarded (.str message) (pure passed))
      (guarded (.str message) (pure passed)) := coincide_pure trivial
  unfold Agree check
  rw [answers]
  exact tested.bind fun _ _ => coincide_provided fun _ => .refl x

end Single

theorem Agree.accepting (agree : Agree world x first second) (absence : Absence) :
    Agree world x (accepting absence first) (accepting absence second) := by
  unfold Agree SafeForm.accepting
  split
  · exact coincide_pure (.refl x)
  · exact agree

section Several

variable {firsts seconds : List SafeForm}

/-- Steps that agree on everything no deeper than the input agree on it. -/
theorem agree_pipe
    (agree : List.Forall₂ (fun first second => ∀ y, x.Below y → Agree world y first second)
      firsts seconds) :
    Agree world x (pipe firsts) (pipe seconds) := by
  have onward : ∀ y, x.Below y → Coincide x.Below world (pipe firsts y) (pipe seconds y) := by
    induction agree with
    | nil => exact fun y below => coincide_pure below
    | cons step _ ih =>
      exact fun y below => (step y below).bind fun z deeper => ih z (below.trans deeper)
  exact onward x (.refl x)

variable (agree : List.Forall₂ (Agree world x) firsts seconds)
include agree

theorem agree_union : Agree world x (union firsts) (union seconds) := by
  unfold Agree union
  induction agree with
  | nil => exact coincide_reject _
  | cons option _ ih => exact option.attempt_bind (fun _ below => coincide_pure below) fun _ => ih

theorem coincide_intersectFrom {merged : Value} (below : x.Below merged) :
    Coincide x.Below world (intersectFrom x firsts merged) (intersectFrom x seconds merged) := by
  induction agree generalizing merged with
  | nil => exact coincide_pure below
  | cons member _ ih =>
    refine member.bind fun out deep => ih (below_joinOutput ?_ deep)
    rintro entries bound rfl room
    exact Value.depthOfEntries_le_iff.mp (Nat.le_of_succ_le_succ (Nat.le_trans below.depth room))

/-- Without members there would be an empty dictionary in place of a value that may be none. -/
theorem agree_intersect (nonempty : firsts ≠ []) :
    Agree world x (intersect firsts) (intersect seconds) := by
  cases agree with
  | nil => exact absurd rfl nonempty
  | cons member others =>
    refine member.bind fun out deep => coincide_intersectFrom others (below_joinOutput ?_ deep)
    rintro entries bound ⟨⟩ _
    exact Value.entriesWithin_nil

end Several

/-- The forms agree on everything that is no deeper than a bound. -/
def AgreeTo (world : World) (bound : Nat) (first second : SafeForm) : Prop :=
  ∀ y, y.depth ≤ bound → Agree world y first second

/-- The forms agree on everything less deep than a value. -/
def AgreeUnder (world : World) (x : Value) (first second : SafeForm) : Prop :=
  ∀ y, y.depth < x.depth → Agree world y first second

section Containers

variable {bound : Nat} {firsts seconds : List SafeForm}

theorem AgreeUnder.to (agree : AgreeUnder world x first second) (deep : x.depth = bound + 1) :
    AgreeTo world bound first second := fun y within => agree y (deep ▸ Nat.lt_succ_of_le within)

theorem coincide_itemsOf :
    Coincide (fun items => x.items? = some items) world (itemsOf x) (itemsOf x) := by
  unfold itemsOf
  cases held : x.items? with
  | some items => exact coincide_pure rfl
  | none => exact coincide_reject _

theorem coincide_entriesOf (failure : Failure) :
    Coincide (fun entries => x.entries? = some entries) world
    (entriesOf failure x) (entriesOf failure x) := by
  unfold entriesOf
  cases held : x.entries? with
  | some entries => exact coincide_pure rfl
  | none => exact coincide_reject _

theorem coincide_requireHashable (y : Value) :
    Coincide (fun _ => True) world (requireHashable y) (requireHashable y) := by
  unfold requireHashable
  cases y.unhashable? with
  | some found => exact coincide_misuse nofun
  | none => exact coincide_pure trivial

/-- A list of items that are no deeper than those of the input is no deeper than the input. -/
theorem below_list {items outputs : List Value} (held : x.items? = some items)
    (within : ∀ y ∈ outputs, y.depth ≤ Value.depthIn items) : x.Below (.list outputs) := by
  refine .of_present (fun absent => ?_) ?_
  · rw [absent] at held
    cases held
  · rw [Value.depth_of_items held]
    exact Nat.succ_le_succ (Value.depthIn_le_iff.mpr within)

/-- A dictionary of keys and values that are no deeper than those of the input is no deeper than the
input. -/
theorem below_dict {entries out : List (Value × Value)} (held : x.entries? = some entries)
    (within : Value.EntriesWithin (Value.depthOfEntries entries) out) : x.Below (.dict out) := by
  refine .of_present (fun absent => ?_) ?_
  · rw [absent] at held
    cases held
  · rw [Value.depth_of_entries held]
    exact Nat.succ_le_succ (Value.depthOfEntries_le_iff.mpr within)

/-- Items of bounded depth leave bounded outputs, and both forms give the same. -/
theorem coincide_eachItem (agree : AgreeTo world bound first second) {items : List Value}
    (within : ∀ item ∈ items, item.depth ≤ bound) (i : Nat) :
    Coincide (fun ys => ∀ y ∈ ys, y.depth ≤ bound) world (eachItem first i items)
      (eachItem second i items) := by
  induction items generalizing i with
  | nil => exact coincide_pure nofun
  | cons item rest ih =>
    obtain ⟨here, further⟩ := List.forall_mem_cons.mp within
    refine ((agree item here).within _).bind fun y below => ?_
    refine (ih further (i + 1)).bind fun ys others => coincide_pure ?_
    exact List.forall_mem_cons.mpr ⟨Nat.le_trans below.depth here, others⟩

/-- Positions of bounded depth leave bounded outputs, and both rows give the same. -/
theorem coincide_eachPosition (agree : List.Forall₂ (AgreeTo world bound) firsts seconds)
    {items : List Value} (within : ∀ item ∈ items, item.depth ≤ bound) (i : Nat) :
    Coincide (fun ys => ∀ y ∈ ys, y.depth ≤ bound) world (eachPosition i firsts items)
      (eachPosition i seconds items) := by
  induction agree generalizing items i with
  | nil => cases items <;> exact coincide_pure nofun
  | cons form _ ih =>
    cases items with
    | nil => exact coincide_pure nofun
    | cons item rest =>
      obtain ⟨here, further⟩ := List.forall_mem_cons.mp within
      refine ((form item here).within _).bind fun y below => ?_
      refine (ih further (i + 1)).bind fun ys others => coincide_pure ?_
      exact List.forall_mem_cons.mpr ⟨Nat.le_trans below.depth here, others⟩

theorem agree_array (agree : AgreeUnder world x first second) :
    Agree world x (array first) (array second) := by
  refine coincide_itemsOf.bind fun items held => ?_
  have within := Value.depthIn_le_iff.mp (Nat.le_refl (Value.depthIn items))
  refine (coincide_eachItem (agree.to (Value.depth_of_items held)) within 0).bind fun ys deep => ?_
  exact coincide_pure (below_list held deep)

variable (agree : List.Forall₂ (AgreeUnder world x) firsts seconds)
include agree

theorem positions_to (deep : x.depth = bound + 1) :
    List.Forall₂ (AgreeTo world bound) firsts seconds := agree.imp fun _ _ form => form.to deep

theorem agree_tuple : Agree world x (tuple firsts) (tuple seconds) := by
  refine coincide_itemsOf.bind fun items held => ?_
  have within := Value.depthIn_le_iff.mp (Nat.le_refl (Value.depthIn items))
  rw [agree.length_eq]
  split
  · refine (coincide_eachPosition (positions_to agree (Value.depth_of_items held)) within 0).bind ?_
    exact fun ys deep => coincide_pure (below_list held deep)
  · exact coincide_reject _

theorem agree_looseTuple : Agree world x (looseTuple firsts) (looseTuple seconds) := by
  refine coincide_itemsOf.bind fun items held => ?_
  have within := Value.depthIn_le_iff.mp (Nat.le_refl (Value.depthIn items))
  rw [agree.length_eq]
  split
  · exact coincide_reject _
  · refine (coincide_eachPosition (positions_to agree (Value.depth_of_items held)) within 0).bind ?_
    exact fun ys deep => coincide_pure (below_list held deep)

/-- Positions with a rest agree if their forms and the rest do. -/
theorem agree_tupleWithRest (rest : AgreeUnder world x first second) :
    Agree world x (tupleWithRest firsts first) (tupleWithRest seconds second) := by
  refine coincide_itemsOf.bind fun items held => ?_
  have within := Value.depthIn_le_iff.mp (Nat.le_refl (Value.depthIn items))
  rw [agree.length_eq]
  split
  · exact coincide_reject _
  · refine (coincide_eachPosition (positions_to agree (Value.depth_of_items held)) within 0).bind ?_
    intro ys deep
    have behind : ∀ item ∈ items.drop seconds.length, item.depth ≤ Value.depthIn items :=
      fun item inside => within item (List.mem_of_mem_drop inside)
    refine (coincide_eachItem (rest.to (Value.depth_of_items held)) behind _).bind
      fun zs deeper => ?_
    exact coincide_pure (below_list held (List.forall_mem_append.mpr ⟨deep, deeper⟩))

end Containers

section Dictionaries

variable {bound : Nat} {entries : List (Value × Value)} {firsts seconds : List (Value × SafeForm)}

/-- Storing an output that is not absent keeps a dictionary within a bound. -/
theorem within_storePresent {out : List (Value × Value)} {key y : Value}
    (within : Value.EntriesWithin bound out) (deep : y.depth ≤ bound)
    (keyed : y = .missing ∨ key.depth ≤ bound) :
    Value.EntriesWithin bound (storePresent out key y) := by
  unfold storePresent
  split
  · exact within
  · rename_i present
    rcases keyed with rfl | keyed
    · exact absurd rfl present
    · exact within.insert keyed deep

/-- Storing an output or erasing an absent one keeps a dictionary within a bound. -/
theorem within_storeOrErase {out : List (Value × Value)} {key y : Value}
    (within : Value.EntriesWithin bound out) (deep : y.depth ≤ bound)
    (keyed : y = .missing ∨ key.depth ≤ bound) :
    Value.EntriesWithin bound (storeOrErase out key y) := by
  unfold storeOrErase
  split
  · exact within.erase key
  · rename_i present
    rcases keyed with rfl | keyed
    · exact absurd rfl present
    · exact within.insert keyed deep

/-- A field that is absent stays so, and one that is present is stored under a key no deeper than
the one it was found under. -/
theorem coincide_eachField
    {store : List (Value × Value) → Value → Value → List (Value × Value)}
    (stores : ∀ {out key y}, Value.EntriesWithin bound out → y.depth ≤ bound →
      y = .missing ∨ key.depth ≤ bound → Value.EntriesWithin bound (store out key y))
    (agree : List.Forall₂ (fun first second => first.1 = second.1 ∧
      AgreeTo world bound first.2 second.2) firsts seconds)
    (given : Value.EntriesWithin bound entries) {out : List (Value × Value)}
    (within : Value.EntriesWithin bound out) :
    Coincide (Value.EntriesWithin bound) world (eachField store entries firsts out)
      (eachField store entries seconds out) := by
  induction agree generalizing out with
  | nil => exact coincide_pure within
  | @cons first second _ _ field _ ih =>
    obtain ⟨key, form⟩ := first
    obtain ⟨_, other⟩ := second
    obtain ⟨rfl, agreed⟩ := field
    have found : ((Entries.get? entries key).getD .missing).depth ≤ bound ∧
        ((Entries.get? entries key).getD .missing = .missing ∨ key.depth ≤ bound) := by
      cases held : Entries.get? entries key with
      | none => exact ⟨Nat.zero_le _, .inl rfl⟩
      | some value => exact ⟨(given.found held).2, .inr (given.found held).1⟩
    refine ((agreed _ found.1).within _).bind fun y below => ih (stores within ?_ ?_)
    · exact Nat.le_trans below.depth found.1
    · exact found.2.imp_left below.absent

/-- Undeclared entries of bounded depth leave bounded outputs, and both forms give the same. -/
theorem coincide_eachRest (declared : List Value) (agree : AgreeTo world bound first second)
    {further out : List (Value × Value)} (given : Value.EntriesWithin bound further)
    (within : Value.EntriesWithin bound out) :
    Coincide (Value.EntriesWithin bound) world (eachRest declared first further out)
      (eachRest declared second further out) := by
  induction further generalizing out with
  | nil => exact coincide_pure within
  | cons entry rest ih =>
    obtain ⟨here, later⟩ := List.forall_mem_cons.mp given
    unfold eachRest
    split
    · exact ih later within
    · refine ((agree entry.2 here.2).within _).bind fun y below => ih later ?_
      exact within.insert here.1 (Nat.le_trans below.depth here.2)

/-- Entries of bounded depth leave bounded outputs, and both rules of keys and values give the same.
-/
theorem coincide_eachEntry {onKey : Value → Failure → Option Failure} {onValue : Value → Place}
    {keys others : SafeForm}
    (key : AgreeTo world bound keys others) (value : AgreeTo world bound first second)
    {further out : List (Value × Value)} (given : Value.EntriesWithin bound further)
    (within : Value.EntriesWithin bound out) :
    Coincide (Value.EntriesWithin bound) world (eachEntry onKey onValue keys first further out)
      (eachEntry onKey onValue others second further out) := by
  induction further generalizing out with
  | nil => exact coincide_pure within
  | cons entry rest ih =>
    obtain ⟨here, later⟩ := List.forall_mem_cons.mp given
    refine ((key entry.1 here.1).reword _).bind fun k keyed => ?_
    refine ((value entry.2 here.2).reword _).bind fun y below => ?_
    refine (coincide_requireHashable k).bind fun _ _ => ih later ?_
    exact within.insert (Nat.le_trans keyed.depth here.1) (Nat.le_trans below.depth here.2)

theorem agree_record {keys others : SafeForm} (key : AgreeUnder world x keys others)
    (value : AgreeUnder world x first second) :
    Agree world x (record keys first) (record others second) := by
  refine (coincide_entriesOf _).bind fun entries held => ?_
  have deep := Value.depth_of_entries held
  have given := Value.depthOfEntries_le_iff.mp (Nat.le_refl (Value.depthOfEntries entries))
  refine (coincide_eachEntry (key.to deep) (value.to deep) given Value.entriesWithin_nil).bind ?_
  exact fun out within => coincide_pure (below_dict held within)

variable (agree : List.Forall₂ (fun first second => first.1 = second.1 ∧
  AgreeUnder world x first.2 second.2) firsts seconds)
include agree

theorem fields_to (deep : x.depth = bound + 1) : List.Forall₂ (fun first second =>
    first.1 = second.1 ∧ AgreeTo world bound first.2 second.2) firsts seconds :=
  agree.imp fun _ _ field => ⟨field.1, field.2.to deep⟩

theorem agree_object : Agree world x (object firsts) (object seconds) := by
  refine (coincide_entriesOf _).bind fun entries held => ?_
  have fields := fields_to agree (Value.depth_of_entries held)
  have given := Value.depthOfEntries_le_iff.mp (Nat.le_refl (Value.depthOfEntries entries))
  refine (coincide_eachField within_storePresent fields given Value.entriesWithin_nil).bind ?_
  exact fun out within => coincide_pure (below_dict held within)

theorem agree_looseObject : Agree world x (looseObject firsts) (looseObject seconds) := by
  refine (coincide_entriesOf _).bind fun entries held => ?_
  have fields := fields_to agree (Value.depth_of_entries held)
  have given := Value.depthOfEntries_le_iff.mp (Nat.le_refl (Value.depthOfEntries entries))
  refine (coincide_eachField within_storeOrErase fields given given).bind ?_
  exact fun out within => coincide_pure (below_dict held within)

theorem agree_objectWithRest (rest : AgreeUnder world x first second) :
    Agree world x (objectWithRest firsts first) (objectWithRest seconds second) := by
  refine (coincide_entriesOf _).bind fun entries held => ?_
  have deep := Value.depth_of_entries held
  have given := Value.depthOfEntries_le_iff.mp (Nat.le_refl (Value.depthOfEntries entries))
  have keys : firsts.map (·.1) = seconds.map (·.1) := by
    clear rest
    induction agree with
    | nil => rfl
    | cons field _ ih => rw [List.map_cons, List.map_cons, field.1, ih]
  rw [keys]
  refine (coincide_eachField within_storePresent (fields_to agree deep) given
    Value.entriesWithin_nil).bind fun out within => ?_
  refine (coincide_eachRest _ (rest.to deep) given within).bind fun all also => ?_
  exact coincide_pure (below_dict held also)

end Dictionaries

end SafeForm

namespace Rule

open SafeForm

/-- Rules made of type checks, exact values, tests without callbacks, wrappers of absent values,
sequences, alternatives, conjunctions, objects, lists, tuples and records, in which references to a
lazy schema stand beneath a field, a rest, an element or an entry only. The flag says whether the
rule itself lies beneath one. -/
inductive Recursive (id : Nat) : Bool → Rule → Prop where
  | reference : Recursive id true (.lazy id)
  | leaf {beneath : Bool} (l : Leaf) : Recursive id beneath (.leaf l)
  | instanceOf {beneath : Bool} (cls : Class) : Recursive id beneath (.instanceOf cls)
  | literal {beneath : Bool} (value : Value) : Recursive id beneath (.literal value)
  | oneOf {beneath : Bool} (values : List Value) : Recursive id beneath (.oneOf values)
  | check {beneath : Bool} {test : Check} (message : String) :
    test.pieces = [] → Recursive id beneath (.check test message)
  | accepting {beneath : Bool} {inner : Rule} (absence : Absence) :
    Recursive id beneath inner → Recursive id beneath (.accepting absence inner)
  | pipe {beneath : Bool} {steps : List Rule} :
    (∀ step ∈ steps, Recursive id beneath step) → Recursive id beneath (.pipe steps)
  | union {beneath : Bool} {options : List Rule} :
    (∀ option ∈ options, Recursive id beneath option) → Recursive id beneath (.union options)
  | intersect {beneath : Bool} {members : List Rule} : members ≠ [] →
    (∀ member ∈ members, Recursive id beneath member) → Recursive id beneath (.intersect members)
  | array {beneath : Bool} {item : Rule} :
    Recursive id true item → Recursive id beneath (.array item)
  | tuple {beneath : Bool} {positions : List Rule} :
    (∀ position ∈ positions, Recursive id true position) → Recursive id beneath (.tuple positions)
  | looseTuple {beneath : Bool} {positions : List Rule} :
    (∀ position ∈ positions, Recursive id true position) →
      Recursive id beneath (.looseTuple positions)
  | tupleWithRest {beneath : Bool} {positions : List Rule} {rest : Rule} :
    (∀ position ∈ positions, Recursive id true position) → Recursive id true rest →
    Recursive id beneath (.tupleWithRest positions rest)
  | object {beneath : Bool} {fields : List (Value × Rule)} :
    (∀ field ∈ fields, Recursive id true field.2) → Recursive id beneath (.object fields)
  | looseObject {beneath : Bool} {fields : List (Value × Rule)} :
    (∀ field ∈ fields, Recursive id true field.2) → Recursive id beneath (.looseObject fields)
  | objectWithRest {beneath : Bool} {fields : List (Value × Rule)} {rest : Rule} :
    (∀ field ∈ fields, Recursive id true field.2) → Recursive id true rest →
    Recursive id beneath (.objectWithRest fields rest)
  | record {beneath : Bool} {key value : Rule} :
    Recursive id true key → Recursive id true value → Recursive id beneath (.record key value)

/-- The inputs on which a reference can be evaluated for an input: less deep ones, and beneath an
item or an entry also equally deep ones. -/
def CanMeet (beneath : Bool) (x y : Value) : Prop :=
  y.depth < x.depth ∨ beneath = true ∧ y.depth ≤ x.depth

variable {id : Nat} {world : World} {first second : Nat → SafeForm}

theorem forall₂_safeAll {related : SafeForm → SafeForm → Prop} {rules : List Rule}
    (each : ∀ rule ∈ rules, related (rule.safe first) (rule.safe second)) :
    List.Forall₂ related (safeAll first rules) (safeAll second rules) := by
  induction rules with
  | nil => exact .nil
  | cons rule rest ih =>
    obtain ⟨here, later⟩ := List.forall_mem_cons.mp each
    exact .cons here (ih later)

/-- What holds of the safe forms of fields one by one holds of the row of them. -/
theorem forall₂_safeFields {related : SafeForm → SafeForm → Prop} {fields : List (Value × Rule)}
    (each : ∀ field ∈ fields, related (field.2.safe first) (field.2.safe second)) :
    List.Forall₂ (fun one other => one.1 = other.1 ∧ related one.2 other.2)
      (safeFields first fields) (safeFields second fields) := by
  induction fields with
  | nil => exact .nil
  | cons field rest ih =>
    obtain ⟨here, later⟩ := List.forall_mem_cons.mp each
    exact .cons ⟨rfl, here⟩ (ih later)

/-- A rule agrees with itself on an input when the forms of its references agree on all inputs that
these can meet. -/
theorem Recursive.agree {beneath : Bool} {rule : Rule} (recursive : Recursive id beneath rule) :
    ∀ x, (∀ y, CanMeet beneath x y → Agree world y (first id) (second id)) →
      Agree world x (rule.safe first) (rule.safe second) := by
  -- a part beneath an item or an entry is evaluated on less deep inputs only
  have under : ∀ {beneath : Bool} {part : Rule} {x : Value},
      (∀ y, (∀ z, CanMeet true y z → Agree world z (first id) (second id)) →
        Agree world y (part.safe first) (part.safe second)) →
      (∀ y, CanMeet beneath x y → Agree world y (first id) (second id)) →
      AgreeUnder world x (part.safe first) (part.safe second) := by
    intro beneath part x ih meets y less
    refine ih y fun z met => meets z (.inl ?_)
    rcases met with deeper | ⟨-, deeper⟩
    · exact Nat.lt_trans deeper less
    · exact Nat.lt_of_le_of_lt deeper less
  induction recursive with
  | reference => exact fun x meets => meets x (.inr ⟨rfl, Nat.le_refl _⟩)
  | leaf l => exact fun x _ => agree_leaf world x l
  | instanceOf cls => exact fun x _ => agree_instanceOf world x cls
  | literal value => exact fun x _ => agree_literal world x value
  | oneOf values => exact fun x _ => agree_oneOf world x values
  | check message unaided => exact fun x _ => agree_check world x unaided message
  | accepting absence _ ih => exact fun x meets => (ih x meets).accepting absence
  | pipe _ ih =>
    refine fun x meets => agree_pipe (forall₂_safeAll fun step inside y below => ?_)
    refine ih step inside y fun z met => meets z ?_
    rcases met with deeper | ⟨beneath, deeper⟩
    · exact .inl (Nat.lt_of_lt_of_le deeper below.depth)
    · exact .inr ⟨beneath, Nat.le_trans deeper below.depth⟩
  | union _ ih =>
    exact fun x meets => agree_union (forall₂_safeAll fun option inside => ih option inside x meets)
  | intersect nonempty _ ih =>
    intro x meets
    refine agree_intersect (forall₂_safeAll fun member inside => ih member inside x meets) ?_
    intro empty
    rw [safeAll_eq_map] at empty
    exact nonempty (List.map_eq_nil_iff.mp empty)
  | array _ ih => exact fun x meets => agree_array (under ih meets)
  | tuple _ ih =>
    exact fun x meets =>
      agree_tuple (forall₂_safeAll fun part inside => under (ih part inside) meets)
  | looseTuple _ ih =>
    exact fun x meets =>
      agree_looseTuple (forall₂_safeAll fun part inside => under (ih part inside) meets)
  | tupleWithRest _ _ ih rest =>
    exact fun x meets => agree_tupleWithRest
      (forall₂_safeAll fun part inside => under (ih part inside) meets) (under rest meets)
  | object _ ih =>
    exact fun x meets =>
      agree_object (forall₂_safeFields fun field inside => under (ih field inside) meets)
  | looseObject _ ih =>
    exact fun x meets =>
      agree_looseObject (forall₂_safeFields fun field inside => under (ih field inside) meets)
  | objectWithRest _ _ ih rest =>
    exact fun x meets => agree_objectWithRest
      (forall₂_safeFields fun field inside => under (ih field inside) meets) (under rest meets)
  | record _ _ key value => exact fun x meets => agree_record (under key meets) (under value meets)

/-- A lazy rule does what the schema that it is resolved to does, with one less to its budget. -/
theorem ending_lazySafe {v : Validator} {after : World}
    (resolved : (Eval.resolve id).Returns world v after)
    (budget : Nat) (x : Value) : (lazySafe (budget + 1) id x).ending world =
      (v.rule.safe (lazySafe budget) x).ending after := by
  have opened : lazySafe (budget + 1) id x =
    (ExceptT.lift (Eval.resolve id) >>= fun v =>
      v.rule.safe (lazySafe budget) x : Checked Value) := rfl
  have lifted : Checked.Returns (ExceptT.lift (Eval.resolve id)) world v after :=
    Checked.returns_lift.mpr resolved
  rw [opened, Checked.ending_bind, show Checked.ending _ world = _ from lifted]

/-- Where a lazy schema is built to a recursive rule, its safe form with a budget and the rule
unfolded agree on every value that is less deep than either goes. -/
theorem Recursive.agree_unfolding {v : Validator} (recursive : Recursive id false v.rule)
    (built : (Eval.resolve id).Returns world v world) (innermost : Rule)
    (onLazy : Nat → SafeForm) (n : Nat) :
    ∀ (budget : Nat) (x : Value), x.depth < budget → x.depth < n →
      Agree world x (lazySafe budget id) ((unfolding id v.rule innermost n).safe onLazy) := by
  induction n with
  | zero => exact fun budget x _ deep => absurd deep (Nat.not_lt_zero _)
  | succ n ih =>
    intro budget x room deep
    obtain ⟨budget, rfl⟩ := Nat.exists_eq_succ_of_ne_zero (Nat.ne_zero_of_lt room)
    have agree : Agree world x (v.rule.safe (lazySafe budget))
        (v.rule.safe (standing onLazy id ((unfolding id v.rule innermost n).safe onLazy))) := by
      refine recursive.agree x fun y met => ?_
      have less : y.depth < x.depth := by
        rcases met with less | ⟨⟨⟩, -⟩
        exact less
      have stands : standing onLazy id ((unfolding id v.rule innermost n).safe onLazy) id =
        (unfolding id v.rule innermost n).safe onLazy := if_pos rfl
      rw [stands]
      exact ih budget y (by omega) (by omega)
    obtain ⟨answer, here, everywhere, bounded, below⟩ := agree
    refine ⟨answer, ?_, fun reached => ?_, bounded, below⟩
    · rw [ending_lazySafe built]
      exact here
    · rw [unfolding, safe_substitute]
      exact everywhere reached

end Rule

namespace Validator

open Rule

/-- A lazy schema that is built to a recursive rule ends on every value, and no lazy schema has to
lie inside another more often than the value is deep. It ends as the rule does that is unfolded more
often than the value is deep, whatever stands in place of the innermost references, and in whatever
world that is asked. -/
theorem lazy_ends_as_unfolding {id : Nat} {v : Validator} {world between : World}
    (recursive : Recursive id false v.rule) (resolved : (Eval.resolve id).Returns world v between)
    (x : Value) :
    ∃ answer, answer ≠ .error (.misuse .tooDeep) ∧
      ((Validator.lazy id).safe x).ending world = (answer, between) ∧
      (∀ budget, x.depth < budget → (lazySafe budget id x).ending world = (answer, between)) ∧
      ∀ innermost n, x.depth < n → ∀ onLazy reached,
        ((unfolding id v.rule innermost n).safe onLazy x).ending reached = (answer, reached) := by
  have built := Eval.returns_resolve_again resolved
  have agree := fun innermost onLazy n budget =>
    recursive.agree_unfolding built innermost onLazy n budget x
  obtain ⟨answer, here, everywhere, bounded, -⟩ :=
    agree (.leaf .never) (lazySafe 0) (x.depth + 1) (x.depth + 1) (Nat.lt_succ_self _)
      (Nat.lt_succ_self _)
  have budgeted : ∀ budget, x.depth < budget →
      (lazySafe budget id x).ending world = (answer, between) := by
    intro budget room
    obtain ⟨other, there, always, -, -⟩ :=
      agree (.leaf .never) (lazySafe 0) (x.depth + 1) budget room (Nat.lt_succ_self _)
    cases (everywhere between).symm.trans (always between)
    obtain ⟨budget, rfl⟩ := Nat.exists_eq_succ_of_ne_zero (Nat.ne_zero_of_lt room)
    rw [ending_lazySafe resolved, ← ending_lazySafe built]
    exact there
  refine ⟨answer, bounded, ?_, budgeted, ?_⟩
  · rw [ending_safe]
    refine budgeted (world.budget x) ?_
    have positive : 0 < world.lazyBound + 1 := Nat.succ_pos _
    have levels := Nat.le_mul_of_pos_right (x.depth + 1) positive
    unfold World.budget
    omega
  · intro innermost n deep onLazy reached
    obtain ⟨other, there, always, -, -⟩ :=
      agree innermost onLazy n (x.depth + 1) (Nat.lt_succ_self _) deep
    cases here.symm.trans there
    exact always reached

/-- A tree: a number, and any number of trees below it. -/
private def tree : Validator :=
  .object [(.str "value", .leaf .integer), (.str "below", .array (.lazy 0))]

private def treeWorld : World :=
  { World.initial "trees" with lazies := [⟨some "tree", .ofValidator tree, none⟩] }

private theorem tree_recursive : Recursive 0 false tree.rule := by
  refine .object (List.forall_mem_cons.mpr ⟨?_, List.forall_mem_singleton.mpr ?_⟩)
  · exact .leaf .integer
  · exact .array .reference

private def twoTrees : Value :=
  .dict [(.str "value", .int 1),
    (.str "below", .list [.dict [(.str "value", .int 2), (.str "below", .list [])]])]

/-- A tree above another, four deep, is accepted by every unfolding of more than four turns. -/
theorem tree_ends_as_unfolding : Recursive 0 false tree.rule ∧
    ∃ between, (Eval.resolve 0).Returns treeWorld tree between ∧
      ∀ n, 4 < n → ∀ reached,
        ((unfolding 0 tree.rule (.leaf .never) n).safe (lazySafe 0) twoTrees).Returns
          reached twoTrees
          reached := by
  have resolved : (Eval.resolve 0).Returns treeWorld tree _ := rfl
  refine ⟨tree_recursive, _, resolved, fun n deep reached => ?_⟩
  obtain ⟨answer, -, ends, -, unfolds⟩ := lazy_ends_as_unfolding tree_recursive resolved twoTrees
  have accepted : ((Validator.lazy 0).safe twoTrees).Returns treeWorld twoTrees _ := rfl
  cases ends.symm.trans accepted
  exact unfolds (.leaf .never) n deep (lazySafe 0) reached

end Validator

end Conform
