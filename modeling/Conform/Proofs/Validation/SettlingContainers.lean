import Conform.Proofs.Validation.Settling
import Conform.Proofs.Value.Reordering
import Mathlib.Data.List.Forall2

/-!
Containers settle when their parts do. Lists, tuples, objects and records give a normalised copy of
their input: lists for tuples, nothing but declared fields, no absent ones. Looking at such a copy
once more they make the same visits and store the same outputs.
-/
namespace Conform

namespace SafeForm

open Checked

section Sequences

variable {item : SafeForm} {forms : List SafeForm} {x y : Value}

/-- Items settle where each settles. -/
theorem gives_eachItem (settles : item.Settles) (i : Nat) (xs ys : List Value) :
    (eachItem item i xs).Gives ys ↔ List.Forall₂ (fun x y => (item x).Gives y) xs ys := by
  induction xs generalizing i ys with
  | nil => exact gives_pure.trans (eq_comm.trans List.forall₂_nil_left_iff.symm)
  | cons x rest ih =>
    have later : (eachItem item (i + 1) rest).Steady :=
      steady_of_composed (composed_eachItem settles.composed (i + 1) rest)
    unfold eachItem
    rw [((settles.steady x).within _).gives_bind, List.forall₂_cons_left_iff]
    simp only [gives_within, later.gives_bind, gives_pure, ih]
    constructor
    · rintro ⟨y, first, others, further, rfl⟩
      exact ⟨y, others, first, further, rfl⟩
    · rintro ⟨y, others, first, further, rfl⟩
      exact ⟨y, first, others, further, rfl⟩

/-- Outputs of items are given back item by item. -/
theorem items_again (settles : item.Settles) {xs ys : List Value}
    (each : List.Forall₂ (fun x y => (item x).Gives y) xs ys) :
    List.Forall₂ (fun x y => (item x).Gives y) ys ys := by
  refine List.forall₂_same.mpr fun y inside => ?_
  obtain ⟨x, -, gives⟩ := exists_right_of_forall₂ each.flip y inside
  exact settles.again gives

theorem gives_array (settles : item.Settles) :
    (array item x).Gives y ↔ ∃ items ys, x.items? = some items ∧
      List.Forall₂ (fun x y => (item x).Gives y) items ys ∧ .list ys = y := by
  have steady (items : List Value) : (eachItem item 0 items).Steady :=
    steady_of_composed (composed_eachItem settles.composed 0 items)
  unfold array
  simp only [gives_itemsOf_bind, (steady _).gives_bind, gives_eachItem settles, gives_pure,
    exists_and_left]

theorem settles_array (settles : item.Settles) : Settles (array item) := by
  refine settles_of_lists (fun x => steady_of_composed (composed_array settles.composed x)) ?_ ?_
  · intro x y gives
    obtain ⟨items, ys, -, each, rfl⟩ := (gives_array settles).mp gives
    exact (gives_array settles).mpr ⟨ys, ys, rfl, items_again settles each, rfl⟩
  · intro x y gives
    obtain ⟨items, ys, sequence, -, list⟩ := (gives_array settles).mp gives
    exact ⟨Option.isSome_of_eq_some sequence, ys, list⟩

/-- Every form gives the output in its position. -/
def PositionsGive (forms : List SafeForm) (xs ys : List Value) : Prop :=
  List.Forall₂ (fun visit y => (visit.1 visit.2).Gives y) (forms.zip xs) ys

theorem steady_eachPosition (settles : ∀ form ∈ forms, form.Settles) (i : Nat) (xs : List Value) :
    (eachPosition i forms xs).Steady :=
  steady_of_composed
    (composed_eachPosition (fun form inside => (settles form inside).composed) i xs)

/-- Positions settle where each settles. -/
theorem gives_eachPosition (settles : ∀ form ∈ forms, form.Settles) (i : Nat) (xs ys : List Value) :
    (eachPosition i forms xs).Gives ys ↔ PositionsGive forms xs ys := by
  induction forms generalizing i xs ys with
  | nil => cases xs <;> exact gives_pure.trans (eq_comm.trans List.forall₂_nil_left_iff.symm)
  | cons form rest ih =>
    obtain ⟨first, others⟩ := List.forall_mem_cons.mp settles
    cases xs with
    | nil => exact gives_pure.trans (eq_comm.trans List.forall₂_nil_left_iff.symm)
    | cons x xs =>
      have later := steady_eachPosition others (i + 1) xs
      unfold eachPosition PositionsGive
      rw [((first.steady x).within _).gives_bind, List.zip_cons_cons, List.forall₂_cons_left_iff]
      simp only [gives_within, later.gives_bind, gives_pure, ih others, PositionsGive]
      constructor
      · rintro ⟨y, given, outputs, further, rfl⟩
        exact ⟨y, outputs, given, further, rfl⟩
      · rintro ⟨y, outputs, given, further, rfl⟩
        exact ⟨y, given, outputs, further, rfl⟩

/-- Outputs of positions are as many as the forms and are given back, whatever follows them. -/
theorem positions_again (settles : ∀ form ∈ forms, form.Settles) {xs ys : List Value}
    (enough : forms.length ≤ xs.length) (each : PositionsGive forms xs ys) (further : List Value) :
    ys.length = forms.length ∧ PositionsGive forms (ys ++ further) ys := by
  unfold PositionsGive at each ⊢
  induction forms generalizing xs ys with
  | nil =>
    cases List.forall₂_nil_left_iff.mp each
    exact ⟨rfl, .nil⟩
  | cons form rest ih =>
    obtain ⟨first, others⟩ := List.forall_mem_cons.mp settles
    cases xs with
    | nil => cases enough
    | cons x xs =>
      rw [List.zip_cons_cons] at each
      cases each with
      | cons given later =>
        obtain ⟨length, kept⟩ := ih others (Nat.le_of_succ_le_succ enough) later
        refine ⟨congrArg Nat.succ length, ?_⟩
        rw [List.cons_append, List.zip_cons_cons]
        exact .cons (first.again given) kept

theorem gives_tuple (settles : ∀ form ∈ forms, form.Settles) :
    (tuple forms x).Gives y ↔ ∃ items ys, x.items? = some items ∧ items.length = forms.length ∧
      PositionsGive forms items ys ∧ .list ys = y := by
  unfold tuple
  rw [gives_itemsOf_bind]
  refine exists_congr fun items => ?_
  simp only [exists_and_left]
  refine and_congr_right fun _ => ?_
  split
  · rename_i fits
    simp only [(steady_eachPosition settles 0 items).gives_bind,
      gives_eachPosition settles, gives_pure, fits, true_and]
  · rename_i unfit
    simp only [not_gives_reject, unfit, false_and]

theorem gives_looseTuple (settles : ∀ form ∈ forms, form.Settles) :
    (looseTuple forms x).Gives y ↔ ∃ items ys, x.items? = some items ∧
      forms.length ≤ items.length ∧ PositionsGive forms items ys ∧ .list ys = y := by
  unfold looseTuple
  rw [gives_itemsOf_bind]
  refine exists_congr fun items => ?_
  simp only [exists_and_left]
  refine and_congr_right fun _ => ?_
  split
  · rename_i short
    simp only [not_gives_reject, Nat.not_le.mpr short, false_and]
  · rename_i long
    simp only [(steady_eachPosition settles 0 items).gives_bind,
      gives_eachPosition settles, gives_pure, Nat.not_lt.mp long, true_and]

/-- A row with a rest settles where its positions and the rest settle. -/
theorem gives_tupleWithRest (settles : ∀ form ∈ forms, form.Settles) (others : item.Settles) :
    (tupleWithRest forms item x).Gives y ↔ ∃ items ys zs, x.items? = some items ∧
      forms.length ≤ items.length ∧ PositionsGive forms items ys ∧
      List.Forall₂ (fun x y => (item x).Gives y) (items.drop forms.length) zs ∧
        .list (ys ++ zs) = y := by
  have further (i : Nat) (items : List Value) : (eachItem item i items).Steady :=
    steady_of_composed (composed_eachItem others.composed i items)
  unfold tupleWithRest
  rw [gives_itemsOf_bind]
  refine exists_congr fun items => ?_
  simp only [exists_and_left]
  refine and_congr_right fun _ => ?_
  split
  · rename_i short
    simp only [not_gives_reject, Nat.not_le.mpr short, false_and]
  · rename_i long
    simp only [(steady_eachPosition settles 0 items).gives_bind, gives_eachPosition settles,
      (further _ _).gives_bind, gives_eachItem others, gives_pure, Nat.not_lt.mp long, true_and]

/-- A fixed row settles as its positions do. -/
theorem settles_tuple (settles : ∀ form ∈ forms, form.Settles) : Settles (tuple forms) := by
  have composed := composed_tuple fun form inside => (settles form inside).composed
  refine settles_of_lists (fun x => steady_of_composed (composed x)) ?_ ?_
  · intro x y gives
    obtain ⟨items, ys, -, fits, each, rfl⟩ := (gives_tuple settles).mp gives
    obtain ⟨length, kept⟩ := positions_again settles (Nat.le_of_eq fits.symm) each []
    rw [List.append_nil] at kept
    exact (gives_tuple settles).mpr ⟨ys, ys, rfl, length, kept, rfl⟩
  · intro x y gives
    obtain ⟨items, ys, sequence, -, -, list⟩ := (gives_tuple settles).mp gives
    exact ⟨Option.isSome_of_eq_some sequence, ys, list⟩

theorem settles_looseTuple (settles : ∀ form ∈ forms, form.Settles) :
    Settles (looseTuple forms) := by
  have composed := composed_looseTuple fun form inside => (settles form inside).composed
  refine settles_of_lists (fun x => steady_of_composed (composed x)) ?_ ?_
  · intro x y gives
    obtain ⟨items, ys, -, long, each, rfl⟩ := (gives_looseTuple settles).mp gives
    obtain ⟨length, kept⟩ := positions_again settles long each []
    rw [List.append_nil] at kept
    exact (gives_looseTuple settles).mpr ⟨ys, ys, rfl, Nat.le_of_eq length.symm, kept, rfl⟩
  · intro x y gives
    obtain ⟨items, ys, sequence, -, -, list⟩ := (gives_looseTuple settles).mp gives
    exact ⟨Option.isSome_of_eq_some sequence, ys, list⟩

theorem settles_tupleWithRest (settles : ∀ form ∈ forms, form.Settles) (others : item.Settles) :
    Settles (tupleWithRest forms item) := by
  have composed := composed_tupleWithRest (fun form inside => (settles form inside).composed)
    others.composed
  refine settles_of_lists (fun x => steady_of_composed (composed x)) ?_ ?_
  · intro x y gives
    obtain ⟨items, ys, zs, -, long, each, further, rfl⟩ :=
      (gives_tupleWithRest settles others).mp gives
    obtain ⟨length, kept⟩ := positions_again settles long each zs
    have rest : (ys ++ zs).drop forms.length = zs := by rw [← length, List.drop_left]
    have enough : forms.length ≤ (ys ++ zs).length := by rw [List.length_append, length]; omega
    have again := items_again others further
    refine (gives_tupleWithRest settles others).mpr ⟨ys ++ zs, ys, zs, rfl, enough, kept, ?_, rfl⟩
    rw [rest]
    exact again
  · intro x y gives
    obtain ⟨items, ys, zs, sequence, -, -, -, list⟩ := (gives_tupleWithRest settles others).mp gives
    exact ⟨Option.isSome_of_eq_some sequence, ys ++ zs, list⟩

end Sequences

section Fields

/-- A field's form gives the pair's value for what lies under the key; the pair has the key. -/
def FieldGives (entries : List (Value × Value)) (field : Value × SafeForm)
    (pair : Value × Value) : Prop :=
  pair.1 = field.1 ∧ (field.2 ((Entries.get? entries field.1).getD .missing)).Gives pair.2

variable {fields : List (Value × SafeForm)} {rest : SafeForm} {x y : Value}
  {entries others pairs out : List (Value × Value)}

theorem steady_eachField (settles : ∀ field ∈ fields, field.2.Settles)
    (store : List (Value × Value) → Value → Value → List (Value × Value))
    (entries out : List (Value × Value)) : (eachField store entries fields out).Steady :=
  steady_of_composed
    (composed_eachField (fun field inside => (settles field inside).composed) store entries out)

/-- Declared fields settle to what each of them gives, in order. -/
theorem gives_eachField (settles : ∀ field ∈ fields, field.2.Settles)
    {store : List (Value × Value) → Value → Value → List (Value × Value)}
    {result : List (Value × Value)} :
    (eachField store entries fields out).Gives result ↔ ∃ pairs,
      List.Forall₂ (FieldGives entries) fields pairs ∧
        pairs.foldl (fun out pair => store out pair.1 pair.2) out = result := by
  induction fields generalizing out with
  | nil =>
    rw [eachField, gives_pure]
    simp only [List.forall₂_nil_left_iff, exists_eq_left, List.foldl_nil]
  | cons field rest ih =>
    obtain ⟨first, others⟩ := List.forall_mem_cons.mp settles
    unfold eachField
    simp only [((first.steady _).within _).gives_bind, gives_within, ih others]
    constructor
    · rintro ⟨y, given, pairs, each, rfl⟩
      exact ⟨(field.1, y) :: pairs, .cons ⟨rfl, given⟩ each, rfl⟩
    · rintro ⟨pairs, each, rfl⟩
      cases each with
      | @cons _ pair _ further first each =>
        obtain ⟨key, given⟩ := first
        refine ⟨pair.2, given, further, each, ?_⟩
        rw [List.foldl_cons, key]

theorem keys_of_fieldGives (each : List.Forall₂ (FieldGives entries) fields pairs) :
    pairs.map (·.1) = fields.map (·.1) := by
  induction each with
  | nil => rfl
  | cons first _ ih => rw [List.map_cons, List.map_cons, first.1, ih]

theorem distinct_of_fieldGives (keys : Entries.Distinct fields)
    (each : List.Forall₂ (FieldGives entries) fields pairs) : Entries.Distinct pairs :=
  Entries.distinct_of_keys_eq (keys_of_fieldGives each) keys

/-- Entries under whose keys the outputs, or the inputs, are found again give the same outputs. -/
theorem fields_again (settles : ∀ field ∈ fields, field.2.Settles)
    (each : List.Forall₂ (FieldGives entries) fields pairs)
    (found : ∀ pair ∈ pairs, (Entries.get? others pair.1).getD .missing = pair.2 ∨
      Entries.get? others pair.1 = Entries.get? entries pair.1) :
    List.Forall₂ (FieldGives others) fields pairs := by
  induction each with
  | nil => exact .nil
  | @cons field pair _ _ first _ ih =>
    obtain ⟨settled, further⟩ := List.forall_mem_cons.mp settles
    obtain ⟨here, later⟩ := List.forall_mem_cons.mp found
    obtain ⟨key, given⟩ := first
    refine .cons ⟨key, ?_⟩ (ih further later)
    rw [key] at here
    rcases here with output | input
    · rw [output]
      exact settled.again given
    · rw [input]
      exact given

/-- The outputs that are not absent. -/
def presentPairs (pairs : List (Value × Value)) : List (Value × Value) :=
  pairs.filter fun pair => !pair.2.isMissing

/-- What is found under the key of an output: the output, or nothing when it is absent. -/
def Presents (out pairs : List (Value × Value)) : Prop :=
  ∀ pair ∈ pairs, Entries.get? out pair.1 = if pair.2.isMissing then none else some pair.2

theorem Presents.getD (presents : Presents out pairs) : ∀ pair ∈ pairs,
    (Entries.get? out pair.1).getD .missing = pair.2 := by
  intro pair inside
  rw [presents pair inside]
  split
  · rename_i absent
    exact (Value.isMissing_iff.mp absent).symm
  · rfl

theorem foldl_storePresent (pairs out : List (Value × Value)) :
    pairs.foldl (fun out pair => storePresent out pair.1 pair.2) out =
      Entries.merge out (presentPairs pairs) := by
  induction pairs generalizing out with
  | nil => rfl
  | cons pair rest ih =>
    unfold presentPairs at ih ⊢
    rw [List.foldl_cons, ih, List.filter_cons, storePresent]
    cases pair.2.isMissing <;> rfl

theorem distinct_presentPairs (distinct : Entries.Distinct pairs) :
    Entries.Distinct (presentPairs pairs) := List.Pairwise.filter _ distinct

/-- Stored from nothing on, the present outputs are all that there is. -/
theorem foldl_storePresent_nil (distinct : Entries.Distinct pairs) :
    pairs.foldl (fun out pair => storePresent out pair.1 pair.2) [] = presentPairs pairs := by
  rw [foldl_storePresent]
  exact Entries.merge_nil_of_distinct (distinct_presentPairs distinct)

/-- Outputs that are not absent stand for the outputs under their keys. -/
theorem presents_presentPairs (distinct : Entries.Distinct pairs) :
    Presents (presentPairs pairs) pairs := by
  unfold presentPairs Presents
  induction pairs with
  | nil => exact nofun
  | cons first rest ih =>
    obtain ⟨apart, further⟩ := List.pairwise_cons.mp distinct
    have absent : Entries.get? (rest.filter fun pair => !pair.2.isMissing) first.1 = none :=
      Entries.get?_eq_none_iff.mpr fun other inside =>
        BEq.symm_false (apart other (List.mem_filter.mp inside).1)
    intro pair inside
    rw [List.filter_cons]
    rcases List.mem_cons.mp inside with rfl | later
    · cases pair.2.isMissing with
      | true => exact absent
      | false => exact (Entries.get?_cons ..).trans (if_pos (BEq.refl pair.1))
    · have found := ih further pair later
      cases first.2.isMissing with
      | true => exact found
      | false =>
        refine (Entries.get?_cons ..).trans ?_
        rw [apart pair later, if_neg Bool.false_ne_true, found]

/-- The entries under keys that are not declared. -/
def undeclared (declared : List Value) (entries : List (Value × Value)) : List (Value × Value) :=
  entries.filter fun entry => !declared.any (· == entry.1)

/-- The keys of the outputs that are absent. -/
def absentKeys (pairs : List (Value × Value)) : List Value :=
  (pairs.filter fun pair => pair.2.isMissing).map (·.1)

/-- The key of an output is one of those if the output is absent. -/
theorem any_absentKeys (distinct : Entries.Distinct pairs) :
    ∀ pair ∈ pairs, (absentKeys pairs).any (· == pair.1) = pair.2.isMissing := by
  intro pair inside
  rw [Bool.eq_iff_iff, List.any_eq_true]
  constructor
  · rintro ⟨key, listed, same⟩
    obtain ⟨other, kept, rfl⟩ := List.mem_map.mp listed
    obtain ⟨member, absent⟩ := List.mem_filter.mp kept
    rwa [distinct.unique inside member (BEq.symm same)]
  · intro absent
    exact ⟨pair.1, List.mem_map_of_mem (List.mem_filter.mpr ⟨inside, absent⟩), BEq.refl _⟩

/-- Outputs stored one by one, or taken away where they are absent, are overlaid at once and the
absent ones taken away from all. -/
theorem foldl_storeOrErase (distinct : Entries.Distinct pairs) (out : List (Value × Value)) :
    pairs.foldl (fun out pair => storeOrErase out pair.1 pair.2) out =
      undeclared (absentKeys pairs) (Entries.merge out (presentPairs pairs)) := by
  induction pairs generalizing out with
  | nil => simp [undeclared, absentKeys, presentPairs, Entries.merge]
  | cons pair rest ih =>
    obtain ⟨apart, further⟩ := List.pairwise_cons.mp distinct
    rw [List.foldl_cons, ih further]
    by_cases absent : pair.2.isMissing = true
    · -- No later output has this key, so that it is taken away at the end as well as here.
      have untouched : Entries.get? (presentPairs rest) pair.1 = none :=
        Entries.get?_eq_none_iff.mpr fun other inside =>
          BEq.symm_false (apart other (List.mem_filter.mp inside).1)
      have removed : storeOrErase out pair.1 pair.2 = Entries.erase out pair.1 := if_pos absent
      have keys : absentKeys (pair :: rest) = pair.1 :: absentKeys rest := by
        simp [absentKeys, absent]
      have present : presentPairs (pair :: rest) = presentPairs rest := by
        simp [presentPairs, absent]
      rw [removed, keys, present, ← Entries.erase_merge untouched, undeclared, undeclared,
        Entries.erase, List.filter_filter]
      simp only [List.any_cons, Bool.not_or, Bool.and_comm, BEq.comm]
    · have stored : storeOrErase out pair.1 pair.2 =
        Entries.insert out pair.1 pair.2 := if_neg absent
      have keys : absentKeys (pair :: rest) = absentKeys rest := by simp [absentKeys, absent]
      have present : presentPairs (pair :: rest) = pair :: presentPairs rest := by
        simp [presentPairs, absent]
      rw [stored, keys, present]
      rfl

/-- Among the entries without absent outputs, an output is found as it was before. -/
theorem presents_storeOrErase (distinct : Entries.Distinct pairs) (out : List (Value × Value)) :
    Presents (pairs.foldl (fun out pair => storeOrErase out pair.1 pair.2) out) pairs := by
  intro pair inside
  have found := presents_presentPairs distinct pair inside
  have merged := Entries.get?_merge (distinct_presentPairs distinct) out pair.1
  rw [foldl_storeOrErase distinct, undeclared, Entries.get?_without,
    any_absentKeys distinct pair inside]
  by_cases absent : pair.2.isMissing = true
  · rw [if_pos absent, if_pos absent]
  · rw [if_neg absent] at found ⊢
    rw [if_neg absent, merged, found, Option.some_or]

/-- Storing what is there already changes nothing. -/
theorem foldl_storeOrErase_of_presents (presents : Presents out pairs) :
    pairs.foldl (fun out pair => storeOrErase out pair.1 pair.2) out = out := by
  induction pairs with
  | nil => rfl
  | cons pair rest ih =>
    obtain ⟨here, later⟩ := List.forall_mem_cons.mp presents
    have stored : storeOrErase out pair.1 pair.2 = out := by
      unfold storeOrErase
      split
      · rename_i absent
        rw [if_pos absent] at here
        exact Entries.erase_of_get?_eq_none here
      · rename_i present
        rw [if_neg present] at here
        exact Entries.insert_of_get?_eq_some here
    rw [List.foldl_cons, stored, ih later]

/-- An object settles to what its fields give and no more. -/
theorem gives_object (settles : ∀ field ∈ fields, field.2.Settles)
    (keys : Entries.Distinct fields) :
    (object fields x).Gives y ↔ ∃ entries pairs, x.entries? = some entries ∧
      List.Forall₂ (FieldGives entries) fields pairs ∧ .dict (presentPairs pairs) = y := by
  unfold object
  simp only [gives_entriesOf_bind, (steady_eachField settles _ _ _).gives_bind, gives_pure,
    gives_eachField settles]
  constructor
  · rintro ⟨entries, mapping, out, ⟨pairs, each, rfl⟩, rfl⟩
    rw [foldl_storePresent_nil (distinct_of_fieldGives keys each)]
    exact ⟨entries, pairs, mapping, each, rfl⟩
  · rintro ⟨entries, pairs, mapping, each, rfl⟩
    have stored := foldl_storePresent_nil (distinct_of_fieldGives keys each)
    exact ⟨entries, mapping, presentPairs pairs, ⟨pairs, each, stored⟩, rfl⟩

/-- An object settles if its fields do and their keys are apart. -/
theorem settles_object (settles : ∀ field ∈ fields, field.2.Settles)
    (keys : Entries.Distinct fields) :
    Settles (object fields) := by
  have composed := composed_object fun field inside => (settles field inside).composed
  refine settles_of_dictionaries (fun x => steady_of_composed (composed x)) ?_ ?_
  · intro x y gives
    obtain ⟨entries, pairs, -, each, rfl⟩ := (gives_object settles keys).mp gives
    have presents := presents_presentPairs (distinct_of_fieldGives keys each)
    have again := fields_again settles each fun pair inside => .inl (presents.getD pair inside)
    exact (gives_object settles keys).mpr ⟨presentPairs pairs, pairs, rfl, again, rfl⟩
  · intro x y gives
    obtain ⟨entries, pairs, -, -, dict⟩ := (gives_object settles keys).mp gives
    exact ⟨_, dict⟩

/-- A loose object settles to its input with what its fields give. -/
theorem gives_looseObject (settles : ∀ field ∈ fields, field.2.Settles) :
    (looseObject fields x).Gives y ↔ ∃ entries pairs, x.entries? = some entries ∧
      List.Forall₂ (FieldGives entries) fields pairs ∧
        .dict (pairs.foldl (fun out pair => storeOrErase out pair.1 pair.2) entries) = y := by
  unfold looseObject
  simp only [gives_entriesOf_bind, (steady_eachField settles _ _ _).gives_bind, gives_pure,
    gives_eachField settles]
  constructor
  · rintro ⟨entries, mapping, out, ⟨pairs, each, rfl⟩, rfl⟩
    exact ⟨entries, pairs, mapping, each, rfl⟩
  · rintro ⟨entries, pairs, mapping, each, rfl⟩
    exact ⟨entries, mapping, _, ⟨pairs, each, rfl⟩, rfl⟩

theorem settles_looseObject (settles : ∀ field ∈ fields, field.2.Settles)
    (keys : Entries.Distinct fields) : Settles (looseObject fields) := by
  have composed := composed_looseObject fun field inside => (settles field inside).composed
  refine settles_of_dictionaries (fun x => steady_of_composed (composed x)) ?_ ?_
  · intro x y gives
    obtain ⟨entries, pairs, -, each, rfl⟩ := (gives_looseObject settles).mp gives
    have presents := presents_storeOrErase (distinct_of_fieldGives keys each) entries
    have again := fields_again settles each fun pair inside => .inl (presents.getD pair inside)
    refine (gives_looseObject settles).mpr ⟨_, pairs, rfl, again, ?_⟩
    rw [foldl_storeOrErase_of_presents presents]
  · intro x y gives
    obtain ⟨entries, pairs, -, -, dict⟩ := (gives_looseObject settles).mp gives
    exact ⟨_, dict⟩

/-- The form gives the pair's value for the entry's; the pair has the entry's key. -/
def RestGives (rest : SafeForm) (entry pair : Value × Value) : Prop :=
  pair.1 = entry.1 ∧ (rest entry.2).Gives pair.2

theorem gives_eachRest (settles : rest.Settles) {declared : List Value}
    {result : List (Value × Value)} :
    (eachRest declared rest entries out).Gives result ↔ ∃ pairs,
      List.Forall₂ (RestGives rest) (undeclared declared entries) pairs ∧
        Entries.merge out pairs = result := by
  unfold undeclared
  induction entries generalizing out with
  | nil =>
    rw [eachRest, gives_pure]
    simp only [List.filter_nil, List.forall₂_nil_left_iff, exists_eq_left]
    rfl
  | cons entry further ih =>
    unfold eachRest
    split
    · rename_i isDeclared
      rw [List.filter_cons, isDeclared, ih]
      rfl
    · rename_i other
      rw [List.filter_cons, Bool.eq_false_iff.mpr other]
      simp only [((settles.steady _).within _).gives_bind, gives_within, ih]
      constructor
      · rintro ⟨y, given, pairs, each, rfl⟩
        exact ⟨(entry.1, y) :: pairs, .cons ⟨rfl, given⟩ each, rfl⟩
      · rintro ⟨pairs, each, rfl⟩
        cases each with
        | @cons _ pair _ later first each =>
          obtain ⟨key, given⟩ := first
          refine ⟨pair.2, given, later, each, ?_⟩
          rw [← key]
          rfl

/-- An object with a rest settles to what its fields and its further entries give. -/
theorem gives_objectWithRest (settles : ∀ field ∈ fields, field.2.Settles)
    (keys : Entries.Distinct fields) (others : rest.Settles) :
    (objectWithRest fields rest x).Gives y ↔ ∃ entries pairs rests, x.entries? = some entries ∧
      List.Forall₂ (FieldGives entries) fields pairs ∧
      List.Forall₂ (RestGives rest) (undeclared (fields.map (·.1)) entries) rests ∧
        .dict (Entries.merge (presentPairs pairs) rests) = y := by
  have steady (declared : List Value) (entries out : List (Value × Value)) :
      (eachRest declared rest entries out).Steady :=
    steady_of_composed (composed_eachRest others.composed declared entries out)
  unfold objectWithRest
  simp only [gives_entriesOf_bind, (steady_eachField settles _ _ _).gives_bind,
    (steady _ _ _).gives_bind, gives_pure, gives_eachField settles, gives_eachRest others]
  constructor
  · rintro ⟨entries, mapping, out, ⟨pairs, each, rfl⟩, all, ⟨rests, further, rfl⟩, rfl⟩
    rw [foldl_storePresent_nil (distinct_of_fieldGives keys each)]
    exact ⟨entries, pairs, rests, mapping, each, further, rfl⟩
  · rintro ⟨entries, pairs, rests, mapping, each, further, rfl⟩
    have stored := foldl_storePresent_nil (distinct_of_fieldGives keys each)
    exact ⟨entries, mapping, presentPairs pairs, ⟨pairs, each, stored⟩, _,
      ⟨rests, further, rfl⟩, rfl⟩

/-- Overlaid with entries under undeclared keys, the outputs of the fields come first and unchanged,
and what follows are the undeclared entries. -/
private theorem merge_undeclared {declared : List Value} {rests : List (Value × Value)}
    (inside : ∀ pair ∈ pairs, pair.1 ∈ declared)
    (outside : ∀ entry ∈ rests, declared.any (· == entry.1) = false) :
    Entries.merge (presentPairs pairs) rests = presentPairs pairs ++ Entries.merge [] rests ∧
      undeclared declared (Entries.merge (presentPairs pairs) rests) = Entries.merge [] rests := by
  have named : ∀ pair ∈ presentPairs pairs, declared.any (· == pair.1) = true := fun pair present =>
    List.any_eq_true.mpr ⟨pair.1, inside pair (List.mem_filter.mp present).1, BEq.refl pair.1⟩
  have fresh : ∀ entry ∈ rests, Entries.get? (presentPairs pairs) entry.1 = none := by
    intro entry member
    refine Entries.get?_eq_none_iff.mpr fun pair present => ?_
    have unnamed := List.any_eq_false.mp (outside entry member) pair.1
      (inside pair (List.mem_filter.mp present).1)
    exact Bool.eq_false_iff.mpr unnamed
  have split : Entries.merge (presentPairs pairs) rests = presentPairs pairs ++
      Entries.merge [] rests := by
    have appended := Entries.merge_append fresh []
    rwa [List.append_nil] at appended
  refine ⟨split, ?_⟩
  rw [split, undeclared, List.filter_append]
  have dropped : (presentPairs pairs).filter (fun entry => !declared.any (· == entry.1)) = [] := by
    refine List.filter_eq_nil_iff.mpr fun pair present => ?_
    rw [named pair present]
    exact Bool.false_ne_true
  have kept : (Entries.merge [] rests).filter (fun entry => !declared.any (· == entry.1)) =
      Entries.merge [] rests := by
    refine List.filter_eq_self.mpr fun entry member => ?_
    obtain ⟨⟨source, given, key⟩, -⟩ := Entries.mem_merge member
    rw [key, outside source given]
    rfl
  rw [dropped, kept, List.nil_append]

/-- Overlaid with entries under undeclared keys, a field gives what it gave before. -/
private theorem get?_merge_undeclared {declared : List Value} {rests : List (Value × Value)}
    (inside : ∀ pair ∈ pairs, pair.1 ∈ declared)
    (outside : ∀ entry ∈ rests, declared.any (· == entry.1) = false) :
    ∀ pair ∈ pairs, Entries.get? (Entries.merge (presentPairs pairs) rests) pair.1 =
      Entries.get? (presentPairs pairs) pair.1 := by
  intro pair member
  apply Entries.get?_merge_of_get?_eq_none
  rw [Entries.get?_eq_none_iff]
  intro entry given
  have unnamed := List.any_eq_false.mp (outside entry given) pair.1 (inside pair member)
  exact BEq.symm_false (Bool.eq_false_iff.mpr unnamed)

theorem settles_objectWithRest (settles : ∀ field ∈ fields, field.2.Settles)
    (keys : Entries.Distinct fields) (others : rest.Settles) :
      Settles (objectWithRest fields rest) := by
  have composed := composed_objectWithRest (fun field inside => (settles field inside).composed)
    others.composed
  refine settles_of_dictionaries (fun x => steady_of_composed (composed x)) ?_ ?_
  · intro x y gives
    obtain ⟨entries, pairs, rests, -, each, further, rfl⟩ :=
      (gives_objectWithRest settles keys others).mp gives
    have distinct := distinct_of_fieldGives keys each
    have inside : ∀ pair ∈ pairs, pair.1 ∈ fields.map (·.1) := by
      intro pair member
      rw [← keys_of_fieldGives each]
      exact List.mem_map_of_mem member
    have outside : ∀ entry ∈ rests, (fields.map (·.1)).any (· == entry.1) = false := by
      intro entry member
      obtain ⟨source, given, key, -⟩ := exists_right_of_forall₂ further.flip entry member
      rw [key]
      simpa using (List.mem_filter.mp given).2
    obtain ⟨split, remaining⟩ := merge_undeclared inside outside
    have found := get?_merge_undeclared inside outside
    have presents := presents_presentPairs distinct
    have again : List.Forall₂ (FieldGives (Entries.merge (presentPairs pairs) rests))
        fields pairs :=
      fields_again settles each fun pair member =>
        .inl (by rw [found pair member, presents.getD pair member])
    have restAgain : List.Forall₂ (RestGives rest) (Entries.merge [] rests)
        (Entries.merge [] rests) := by
      refine List.forall₂_same.mpr fun entry member => ⟨rfl, ?_⟩
      obtain ⟨-, source, given, value⟩ := Entries.mem_merge member
      obtain ⟨origin, -, -, gives⟩ := exists_right_of_forall₂ further.flip source given
      rw [value]
      exact others.again gives
    refine (gives_objectWithRest settles keys others).mpr
      ⟨_, pairs, Entries.merge [] rests, rfl, again, ?_, ?_⟩
    · rw [remaining]
      exact restAgain
    · have whole : Entries.Distinct (presentPairs pairs ++ Entries.merge [] rests) := by
        rw [← split]
        exact (distinct_presentPairs distinct).merge rests
      rw [Entries.merge_of_distinct whole, split]
  · intro x y gives
    obtain ⟨entries, pairs, rests, -, -, -, dict⟩ :=
      (gives_objectWithRest settles keys others).mp gives
    exact ⟨_, dict⟩

/-- An object that passes everything on settles to its input overlaid with what the inner form
gives. -/
theorem gives_passthrough (settles : rest.Settles) :
    (passthrough rest x).Gives y ↔ ∃ entries out further, x.entries? = some entries ∧
      (rest x).Gives out ∧ out.entries? = some further ∧
        .dict (Entries.merge entries further) = y := by
  unfold passthrough
  rw [gives_entriesOf_bind]
  refine exists_congr fun entries => ?_
  simp only [exists_and_left, (settles.steady x).gives_bind]
  refine and_congr_right fun _ => exists_congr fun out => and_congr_right fun _ => ?_
  cases out.entries? with
  | some further => simp only [gives_pure, Option.some.injEq, exists_eq_left']
  | none =>
    constructor
    · intro gives
      exact absurd gives not_gives_misuse
    · rintro ⟨further, impossible, -⟩
      cases impossible

/-- Overlaid with the outputs of fields, entries give under the name of a field its output, or what
they gave before where the output is absent. -/
private theorem finds_overlaid (distinct : Entries.Distinct pairs)
    (entries : List (Value × Value)) :
    ∀ pair ∈ pairs,
      (Entries.get? (Entries.merge entries (presentPairs pairs)) pair.1).getD .missing = pair.2 ∨
        Entries.get? (Entries.merge entries (presentPairs pairs)) pair.1 =
          Entries.get? entries pair.1 := by
  intro pair member
  cases absent : pair.2.isMissing with
  | true =>
    have hidden := presents_presentPairs distinct pair member
    rw [absent, if_pos rfl] at hidden
    exact .inr (Entries.get?_merge_of_get?_eq_none hidden)
  | false =>
    have present : pair ∈ presentPairs pairs := by
      refine List.mem_filter.mpr ⟨member, ?_⟩
      rw [absent]
      rfl
    have found : Entries.get? (Entries.merge entries (presentPairs pairs)) pair.1 = some pair.2 :=
      Entries.get?_merge_of_mem (distinct_presentPairs distinct) present
    exact .inl (by rw [found]; rfl)

/-- The output of an object next to the entries of its input. The fields that were absent find the
same input as before, all others find their output. -/
theorem settles_passthrough (settles : ∀ field ∈ fields, field.2.Settles)
    (keys : Entries.Distinct fields) : Settles (passthrough (object fields)) := by
  have inner := settles_object settles keys
  refine settles_of_dictionaries
    (fun x => steady_of_composed (composed_passthrough inner.composed x)) ?_ ?_
  · intro x y gives
    obtain ⟨entries, out, further, mapping, given, held, rfl⟩ := (gives_passthrough inner).mp gives
    obtain ⟨looked, pairs, same, each, rfl⟩ := (gives_object settles keys).mp given
    cases mapping.symm.trans same
    cases held
    have distinct := distinct_of_fieldGives keys each
    have again := fields_again settles each (finds_overlaid distinct entries)
    have regiven : (object fields (.dict (Entries.merge entries (presentPairs pairs)))).Gives
        (.dict (presentPairs pairs)) :=
      (gives_object settles keys).mpr ⟨_, pairs, rfl, again, rfl⟩
    refine (gives_passthrough inner).mpr ⟨_, _, _, rfl, regiven, rfl, ?_⟩
    rw [Entries.merge_of_get?_eq_some fun pair present =>
      Entries.get?_merge_of_mem (distinct_presentPairs distinct) present]
  · intro x y gives
    obtain ⟨entries, out, further, -, -, -, dict⟩ := (gives_passthrough inner).mp gives
    exact ⟨_, dict⟩

/-- The forms give the pair's key and value for the entry's, and the key can serve as one. -/
def EntryGives (keyForm valueForm : SafeForm) (entry pair : Value × Value) : Prop :=
  (keyForm entry.1).Gives pair.1 ∧ (valueForm entry.2).Gives pair.2 ∧ pair.1.unhashable? = none

variable {keyForm valueForm : SafeForm}

/-- Entries settle to pairs, each of a key and a value that their forms give. -/
theorem gives_eachEntry (keySettles : keyForm.Settles) (valueSettles : valueForm.Settles)
    {onKey : Value → Failure → Option Failure}
    {onValue : Value → Place} {result : List (Value × Value)} :
    (eachEntry onKey onValue keyForm valueForm entries out).Gives result ↔ ∃ pairs,
      List.Forall₂ (EntryGives keyForm valueForm) entries pairs ∧
        Entries.merge out pairs = result := by
  induction entries generalizing out with
  | nil =>
    rw [eachEntry, gives_pure]
    simp only [List.forall₂_nil_left_iff, exists_eq_left]
    rfl
  | cons entry rest ih =>
    unfold eachEntry
    simp only [((keySettles.steady _).reword _).gives_bind,
      ((valueSettles.steady _).within _).gives_bind, gives_reword, gives_within,
      gives_requireHashable_bind, ih]
    constructor
    · rintro ⟨k, keyGiven, y, valueGiven, hashable, pairs, each, rfl⟩
      exact ⟨(k, y) :: pairs, .cons ⟨keyGiven, valueGiven, hashable⟩ each, rfl⟩
    · rintro ⟨pairs, each, rfl⟩
      cases each with
      | @cons _ pair _ later first each =>
        obtain ⟨keyGiven, valueGiven, hashable⟩ := first
        exact ⟨pair.1, keyGiven, pair.2, valueGiven, hashable, later, each, rfl⟩

/-- A record settles to the entries that its keys and values settle to. -/
theorem gives_record (keySettles : keyForm.Settles) (valueSettles : valueForm.Settles) :
    (record keyForm valueForm x).Gives y ↔ ∃ entries pairs, x.entries? = some entries ∧
      List.Forall₂ (EntryGives keyForm valueForm) entries pairs ∧
        .dict (Entries.merge [] pairs) = y := by
  have steady (onKey : Value → Failure → Option Failure) (onValue : Value → Place)
      (entries out : List (Value × Value)) :
      (eachEntry onKey onValue keyForm valueForm entries out).Steady :=
    steady_of_composed
      (composed_eachEntry keySettles.composed onKey onValue valueSettles.composed entries out)
  unfold record
  simp only [gives_entriesOf_bind, (steady _ _ _ _).gives_bind, gives_pure,
    gives_eachEntry keySettles valueSettles]
  constructor
  · rintro ⟨entries, mapping, out, ⟨pairs, each, rfl⟩, rfl⟩
    exact ⟨entries, pairs, mapping, each, rfl⟩
  · rintro ⟨entries, pairs, mapping, each, rfl⟩
    exact ⟨entries, mapping, _, ⟨pairs, each, rfl⟩, rfl⟩

/-- A record settles if its keys and values do. -/
theorem settles_record (keySettles : keyForm.Settles) (valueSettles : valueForm.Settles) :
    Settles (record keyForm valueForm) := by
  have composed := composed_record keySettles.composed valueSettles.composed
  refine settles_of_dictionaries (fun x => steady_of_composed (composed x)) ?_ ?_
  · intro x y gives
    obtain ⟨entries, pairs, -, each, rfl⟩ := (gives_record keySettles valueSettles).mp gives
    have again : List.Forall₂ (EntryGives keyForm valueForm) (Entries.merge [] pairs)
        (Entries.merge [] pairs) := by
      refine List.forall₂_same.mpr fun entry member => ?_
      obtain ⟨⟨keyed, first, key⟩, ⟨valued, second, value⟩⟩ := Entries.mem_merge member
      obtain ⟨_, -, keyGiven, -, hashable⟩ := exists_right_of_forall₂ each.flip keyed first
      obtain ⟨_, -, -, valueGiven, -⟩ := exists_right_of_forall₂ each.flip valued second
      rw [← key] at keyGiven hashable
      rw [← value] at valueGiven
      exact ⟨keySettles.again keyGiven, valueSettles.again valueGiven, hashable⟩
    have distinct : Entries.Distinct (Entries.merge [] pairs) :=
      Entries.Distinct.merge List.Pairwise.nil pairs
    refine (gives_record keySettles valueSettles).mpr ⟨_, _, rfl, again, ?_⟩
    rw [Entries.merge_nil_of_distinct distinct]
  · intro x y gives
    obtain ⟨entries, pairs, -, -, dict⟩ := (gives_record keySettles valueSettles).mp gives
    exact ⟨_, dict⟩

end Fields

end SafeForm

end Conform
