import Conform.Proofs.Value.Entries
import Mathlib.Data.List.Forall2
import Mathlib.Data.List.Perm.Basic

/-!
Entries in another order. Where keys are different, two dictionaries are reorderings of each other
just if they have the same keys and related values are found under each, so that storing, removing
and overlaying preserve reorderings.
-/
namespace Conform

namespace Entries

section Correspondence

variable {κ α : Type} {related : α → α → Prop} {xs ys : Entries κ α}

/-- The entries have the same keys in any order, and related values. -/
def Reordered (related : α → α → Prop) (xs ys : Entries κ α) : Prop :=
  ∃ zs : Entries κ α, xs.Perm zs ∧
    List.Forall₂ (fun first second => first.1 = second.1 ∧ related first.2 second.2) zs ys

theorem reordered_refl (reflexive : ∀ entry ∈ xs, related entry.2 entry.2) :
    Reordered related xs xs :=
  ⟨xs, .refl xs, List.forall₂_same.mpr fun entry inside => ⟨rfl, reflexive entry inside⟩⟩

theorem Reordered.keys (reordered : Reordered related xs ys) :
    (xs.map (·.1)).Perm (ys.map (·.1)) := by
  obtain ⟨zs, permuted, each⟩ := reordered
  have same : zs.map (·.1) = ys.map (·.1) := by
    clear permuted
    induction each with
    | nil => rfl
    | cons first _ ih => rw [List.map_cons, List.map_cons, first.1, ih]
  exact (permuted.map _).trans (.of_eq same)

theorem Reordered.covers (reordered : Reordered related xs ys) :
    ∀ entry ∈ xs, ∃ other ∈ ys, entry.1 = other.1 ∧ related entry.2 other.2 := by
  obtain ⟨zs, permuted, each⟩ := reordered
  exact fun entry inside => exists_right_of_forall₂ each entry (permuted.mem_iff.mp inside)

theorem Reordered.covered (reordered : Reordered related xs ys) :
    ∀ other ∈ ys, ∃ entry ∈ xs, entry.1 = other.1 ∧ related entry.2 other.2 := by
  obtain ⟨zs, permuted, each⟩ := reordered
  intro other inside
  obtain ⟨entry, member, holds⟩ := exists_right_of_forall₂ each.flip other inside
  exact ⟨entry, permuted.mem_iff.mpr member, holds⟩

/-- Entries chosen by their keys. -/
theorem Reordered.filter (reordered : Reordered related xs ys) (keeps : κ → Bool) :
    Reordered related (xs.filter fun entry => keeps entry.1)
      (ys.filter fun entry => keeps entry.1) := by
  obtain ⟨zs, permuted, each⟩ := reordered
  refine ⟨_, permuted.filter _, ?_⟩
  clear permuted
  induction each with
  | nil => exact .nil
  | cons first _ ih =>
    rw [List.filter_cons, List.filter_cons, first.1]
    split
    · exact .cons first ih
    · exact ih

end Correspondence

section Options

variable {α : Type} {related : α → α → Prop} {one two first second : Option α}

theorem rel_refl (reflexive : ∀ a, related a a) (given : Option α) :
    Option.Rel related given given := by
  cases given with
  | none => exact .none
  | some a => exact .some (reflexive a)

theorem rel_imp {further : α → α → Prop} (rel : Option.Rel related one two)
    (turns : ∀ a b, one = some a → related a b → further a b) : Option.Rel further one two := by
  cases rel with
  | some holds => exact .some (turns _ _ rfl holds)
  | none => exact .none

theorem rel_flip (rel : Option.Rel related one two) : Option.Rel (flip related) two one := by
  cases rel with
  | some holds => exact .some holds
  | none => exact .none

theorem isNone_eq_of_rel (rel : Option.Rel related one two) : one.isNone = two.isNone := by
  cases rel <;> rfl

theorem rel_or (upper : Option.Rel related one two) (lower : Option.Rel related first second) :
    Option.Rel related (one.or first) (two.or second) := by
  cases upper with
  | some holds => exact .some holds
  | none => exact lower

end Options

/-- Storing a key leaves the keys as they are or puts the key behind them. -/
theorem keys_insert {κ α : Type} [BEq κ] (entries : Entries κ α) (key : κ) (value : α) :
    (insert entries key value).map (·.1) =
      if (get? entries key).isSome then entries.map (·.1) else entries.map (·.1) ++ [key] := by
  induction entries with
  | nil => rfl
  | cons entry rest ih =>
    unfold insert
    rw [get?_cons]
    by_cases same : (entry.1 == key) = true
    · rw [if_pos same, if_pos same]
      rfl
    · rw [if_neg same, if_neg same, List.map_cons, ih]
      split <;> rfl

section Distinct

variable {κ α : Type} [BEq κ] [EquivBEq κ] {related : α → α → Prop} {xs ys : Entries κ α}

theorem Reordered.distinct (reordered : Reordered related xs ys) (distinct : Distinct xs) :
    Distinct ys := by
  have apart : (xs.map (·.1)).Pairwise fun first second => (first == second) = false :=
    List.pairwise_map.mpr distinct
  exact List.pairwise_map.mp ((reordered.keys.pairwise_iff BEq.symm_false).mp apart)

/-- Entries whose keys are equal to different ones, in their order, have different keys. -/
theorem Distinct.of_keys (distinct : Distinct xs)
    (each : List.Forall₂ (fun entry other => (entry.1 == other.1) = true) xs ys) : Distinct ys := by
  induction each with
  | nil => exact .nil
  | cons same each ih =>
    obtain ⟨apart, further⟩ := List.pairwise_cons.mp distinct
    refine List.pairwise_cons.mpr ⟨fun other inside => ?_, ih further⟩
    obtain ⟨source, member, equal⟩ := exists_right_of_forall₂ each.flip other inside
    rw [← BEq.congr_left same, ← BEq.congr_right equal]
    exact apart source member

omit [EquivBEq κ] in
theorem exists_of_get?_eq_some {key : κ} {value : α} (found : get? xs key = some value) :
    ∃ entry ∈ xs, (entry.1 == key) = true ∧ entry.2 = value := by
  obtain ⟨entry, first, same⟩ := Option.map_eq_some_iff.mp found
  exact ⟨entry, List.mem_of_find?_eq_some first, by simpa using List.find?_some first, same⟩

theorem Distinct.get?_of_mem (distinct : Distinct xs) {entry : κ × α}
    (inside : entry ∈ xs) {key : κ}
    (same : (entry.1 == key) = true) : get? xs key = some entry.2 := by
  cases found : get? xs key with
  | none =>
    rw [get?_eq_none_iff.mp found entry inside] at same
    cases same
  | some value =>
    obtain ⟨other, member, equal, rfl⟩ := exists_of_get?_eq_some found
    rw [distinct.unique inside member (BEq.trans same (BEq.symm equal))]

/-- Where related values, or none, are found under each key, every entry has a related one. -/
theorem exists_related_of_get? (distinct : Distinct xs)
    (found : ∀ key, Option.Rel related (get? xs key) (get? ys key)) :
    ∀ entry ∈ xs, ∃ other ∈ ys, (other.1 == entry.1) = true ∧ related entry.2 other.2 := by
  intro entry inside
  have rel := found entry.1
  rw [distinct.get?_of_mem inside (BEq.refl _)] at rel
  generalize held : get? ys entry.1 = value at rel
  cases rel with
  | some holds =>
    obtain ⟨other, member, same, rfl⟩ := exists_of_get?_eq_some held
    exact ⟨other, member, same, holds⟩

/-- Related values, or none, are found under each key. -/
theorem Reordered.get? (reordered : Reordered related xs ys) (distinct : Distinct xs) (key : κ) :
    Option.Rel related (get? xs key) (get? ys key) := by
  cases found : Entries.get? xs key with
  | none =>
    have absent : Entries.get? ys key = none := by
      refine get?_eq_none_iff.mpr fun other inside => ?_
      obtain ⟨entry, member, same, -⟩ := reordered.covered other inside
      rw [← same]
      exact get?_eq_none_iff.mp found entry member
    rw [absent]
    exact .none
  | some value =>
    obtain ⟨entry, inside, equal, rfl⟩ := exists_of_get?_eq_some found
    obtain ⟨other, member, same, holds⟩ := reordered.covers entry inside
    rw [(reordered.distinct distinct).get?_of_mem member (same ▸ equal)]
    exact .some holds

/-- Entries with the same keys, under each of which related values are found. -/
theorem reordered_of_get? (first : Distinct xs) (second : Distinct ys)
    (keys : (xs.map (·.1)).Perm (ys.map (·.1)))
    (found : ∀ key, Option.Rel related (Entries.get? xs key) (Entries.get? ys key)) :
    Reordered related xs ys := by
  have keyed : List.Forall₂ (fun key entry => key = entry.1) (xs.map (·.1)) xs :=
    List.forall₂_map_left_iff.mpr (List.forall₂_same.mpr fun _ _ => rfl)
  obtain ⟨zs, each, permuted⟩ := List.perm_comp_forall₂ keys.symm keyed
  refine ⟨zs, permuted.symm, (List.forall₂_iff_zip.mpr ?_).flip⟩
  obtain ⟨length, same⟩ := List.forall₂_iff_zip.mp (List.forall₂_map_left_iff.mp each)
  refine ⟨length, fun {other entry} pair => ⟨(same pair).symm, ?_⟩⟩
  obtain ⟨there, here⟩ := List.of_mem_zip pair
  have values := found entry.1
  rw [first.get?_of_mem (permuted.mem_iff.mp here) (BEq.refl _),
    second.get?_of_mem there (same pair ▸ BEq.refl _)] at values
  cases values with
  | some holds => exact holds

/-- The keys of an overlay: those from before, and behind them the new ones. -/
theorem keys_merge {second : Entries κ α} (distinct : Distinct second) (first : Entries κ α) :
    (merge first second).map (·.1) =
      first.map (·.1) ++ (second.map (·.1)).filter fun key => (Entries.get? first key).isNone := by
  induction second generalizing first with
  | nil => simp [merge]
  | cons entry rest ih =>
    obtain ⟨apart, further⟩ := List.pairwise_cons.mp distinct
    have later : (rest.map (·.1)).filter
        (fun key => (Entries.get? (insert first entry.1 entry.2) key).isNone) =
          (rest.map (·.1)).filter fun key => (Entries.get? first key).isNone := by
      refine List.filter_congr fun key inside => ?_
      obtain ⟨other, member, rfl⟩ := List.mem_map.mp inside
      rw [get?_insert, apart other member, if_neg Bool.false_ne_true]
    have stepped := ih further (insert first entry.1 entry.2)
    rw [later, keys_insert] at stepped
    rw [List.map_cons, List.filter_cons]
    cases found : Entries.get? first entry.1 with
    | none => simpa [found, merge] using stepped
    | some value => simpa [found, merge] using stepped

theorem get?_congr {key other : κ} (same : (key == other) = true) (entries : Entries κ α) :
    Entries.get? entries key = Entries.get? entries other := by
  unfold Entries.get?
  simp only [BEq.congr_right same]

/-- An overlay gives what is put on top, and beside that what was there. -/
theorem get?_merge {second : Entries κ α} (distinct : Distinct second)
    (first : Entries κ α) (key : κ) :
    Entries.get? (merge first second) key = (Entries.get? second key).or
      (Entries.get? first key) := by
  cases found : Entries.get? second key with
  | none => exact get?_merge_of_get?_eq_none found
  | some value =>
    obtain ⟨entry, inside, same, rfl⟩ := exists_of_get?_eq_some found
    rw [← get?_congr same]
    exact get?_merge_of_mem distinct inside

/-- Overlaying reordered dictionaries leaves them reordered. -/
theorem Reordered.merge {more others : Entries κ α} (first : Reordered related xs ys)
    (second : Reordered related more others) (distinct : Distinct xs) (also : Distinct more) :
    Reordered related (merge xs more) (merge ys others) := by
  have further := second.distinct also
  refine reordered_of_get? (distinct.merge more) ((first.distinct distinct).merge others)
    ?_ fun key => ?_
  · have absent : ∀ key, (Entries.get? xs key).isNone = (Entries.get? ys key).isNone :=
      fun key => isNone_eq_of_rel (first.get? distinct key)
    rw [keys_merge also, keys_merge further]
    simp only [absent]
    exact first.keys.append (second.keys.filter _)
  · rw [get?_merge also, get?_merge further]
    exact rel_or (second.get? also key) (first.get? distinct key)

theorem Reordered.insert (reordered : Reordered related xs ys) (distinct : Distinct xs) (key : κ)
    {value other : α} (holds : related value other) :
    Reordered related (insert xs key value) (insert ys key other) := by
  have single : Reordered related [(key, value)] [(key, other)] :=
    ⟨_, .refl _, .cons ⟨rfl, holds⟩ .nil⟩
  exact reordered.merge single distinct (List.pairwise_singleton ..)

end Distinct

end Entries

end Conform
