import Conform.Entries
import Mathlib.Data.List.Forall2

/-!
Laws of insertion-ordered dictionaries: what is found under a key after an insertion, a removal or
an overlay, and when these leave the entries as they are. Keys are compared by an equivalence
relation, so that a key may be found under another spelling.
-/
namespace Conform

/-- Whatever is on the left of a correspondence has something on its right. -/
theorem exists_right_of_forall₂ {α β : Type} {related : α → β → Prop} {firsts : List α}
    {seconds : List β} (each : List.Forall₂ related firsts seconds) :
    ∀ first ∈ firsts, ∃ second ∈ seconds, related first second := by
  induction each with
  | nil => exact nofun
  | cons here _ ih =>
    refine List.forall_mem_cons.mpr ⟨⟨_, List.mem_cons_self, here⟩, fun first inside => ?_⟩
    obtain ⟨second, member, holds⟩ := ih first inside
    exact ⟨second, List.mem_cons_of_mem _ member, holds⟩

namespace Entries

section Mapping

variable {κ α β : Type} [BEq κ]

theorem get?_cons (entry : κ × α) (rest : Entries κ α) (key : κ) :
    get? (entry :: rest) key = if entry.1 == key then some entry.2 else get? rest key := by
  simp only [get?, List.find?_cons]
  cases entry.1 == key <;> rfl

theorem get?_append (first second : Entries κ α) (key : κ) :
    get? (first ++ second) key = (get? first key).or (get? second key) := by
  induction first with
  | nil => rfl
  | cons entry rest ih =>
    rw [List.cons_append, get?_cons, get?_cons, ih]
    split <;> rfl

theorem map_insert (change : α → β) (entries : Entries κ α) (key : κ) (value : α) :
    (insert entries key value).map (fun entry => (entry.1, change entry.2)) =
      insert (entries.map fun entry => (entry.1, change entry.2)) key (change value) := by
  induction entries with
  | nil => rfl
  | cons entry rest ih =>
    simp only [insert, List.map_cons]
    split
    · rfl
    · simp only [List.map_cons, ih]

/-- Giving a key the value that it has changes nothing. -/
theorem insert_of_get?_eq_some {entries : Entries κ α} {key : κ} {value : α}
    (found : get? entries key = some value) : insert entries key value = entries := by
  induction entries with
  | nil => cases found
  | cons entry rest ih =>
    rw [get?_cons] at found
    unfold insert
    split
    · rename_i same
      rw [if_pos same] at found
      cases found
      rfl
    · rename_i other
      rw [if_neg other] at found
      rw [ih found]

/-- A value for a key that is not there goes to the end. -/
theorem insert_of_get?_eq_none {entries : Entries κ α} {key : κ} (fresh : get? entries key = none)
    (value : α) : insert entries key value = entries ++ [(key, value)] := by
  induction entries with
  | nil => rfl
  | cons entry rest ih =>
    rw [get?_cons] at fresh
    unfold insert
    split
    · rename_i same
      rw [if_pos same] at fresh
      cases fresh
    · rename_i other
      rw [if_neg other] at fresh
      rw [ih fresh, List.cons_append]

theorem insert_append {first : Entries κ α} {key : κ} (fresh : get? first key = none)
    (second : Entries κ α) (value : α) :
    insert (first ++ second) key value = first ++ insert second key value := by
  induction first with
  | nil => rfl
  | cons entry rest ih =>
    rw [get?_cons] at fresh
    split at fresh
    · cases fresh
    · rename_i other
      rw [List.cons_append, insert, if_neg other, ih fresh, List.cons_append]

/-- Entries under keys that are not among the first ones are overlaid on the others. -/
theorem merge_append {first third : Entries κ α}
    (fresh : ∀ entry ∈ third, get? first entry.1 = none)
    (second : Entries κ α) : merge (first ++ second) third = first ++ merge second third := by
  induction third generalizing second with
  | nil => rfl
  | cons entry rest ih =>
    have here := fresh entry (List.mem_cons_self ..)
    have later := ih (fun other inside => fresh other (List.mem_cons_of_mem _ inside))
      (insert second entry.1 entry.2)
    unfold merge at later ⊢
    rw [List.foldl_cons, insert_append here, later, List.foldl_cons]

theorem get?_eq_none_iff {entries : Entries κ α} {key : κ} :
    get? entries key = none ↔ ∀ entry ∈ entries, (entry.1 == key) = false := by
  unfold get?
  rw [Option.map_eq_none_iff, List.find?_eq_none]
  simp only [Bool.not_eq_true]

/-- Removing a key that is not there changes nothing. -/
theorem erase_of_get?_eq_none {entries : Entries κ α} {key : κ} (absent : get? entries key = none) :
    erase entries key = entries := by
  unfold erase
  rw [List.filter_eq_self]
  intro entry inside
  rw [get?_eq_none_iff.mp absent entry inside]
  rfl

/-- No two entries have one key. -/
def Distinct (entries : Entries κ α) : Prop :=
  entries.Pairwise fun first second => (first.1 == second.1) = false

instance (entries : Entries κ α) : Decidable (Distinct entries) :=
  inferInstanceAs (Decidable (List.Pairwise _ entries))

theorem distinct_of_keys_eq {entries : Entries κ α} {others : Entries κ β}
    (same : others.map (·.1) = entries.map (·.1)) (distinct : Distinct entries) :
      Distinct others := by
  have apart : (entries.map (·.1)).Pairwise fun first second => (first == second) = false :=
    List.pairwise_map.mpr distinct
  rw [← same] at apart
  exact List.pairwise_map.mp apart

/-- The entries with the given keys, in the order of the keys and under their spelling. -/
def restrict (keys : List κ) (entries : Entries κ α) : Entries κ α :=
  keys.filterMap fun key => (get? entries key).map fun value => (key, value)

/-- Overlaying entries with what they hold changes nothing. -/
theorem merge_of_get?_eq_some {first second : Entries κ α}
    (held : ∀ entry ∈ second, get? first entry.1 = some entry.2) : merge first second = first := by
  induction second with
  | nil => rfl
  | cons entry rest ih =>
    have here := held entry (List.mem_cons_self ..)
    have later := ih fun other inside => held other (List.mem_cons_of_mem _ inside)
    unfold merge at later ⊢
    rw [List.foldl_cons, insert_of_get?_eq_some here, later]

/-- An insertion adds its entry, or gives its value to an entry with an equivalent key. -/
theorem mem_insert {entries : Entries κ α} {key : κ} {value : α} {entry : κ × α}
    (inside : entry ∈ insert entries key value) :
    entry ∈ entries ∨ entry = (key, value) ∨
      ∃ first ∈ entries, (first.1 == key) = true ∧ entry = (first.1, value) := by
  induction entries with
  | nil => exact .inr (.inl (List.mem_singleton.mp inside))
  | cons first rest ih =>
    unfold insert at inside
    split at inside
    · rename_i same
      rcases List.mem_cons.mp inside with rfl | later
      · exact .inr (.inr ⟨first, List.mem_cons_self .., same, rfl⟩)
      · exact .inl (List.mem_cons_of_mem _ later)
    · rcases List.mem_cons.mp inside with rfl | later
      · exact .inl (List.mem_cons_self ..)
      · rcases ih later with old | new | ⟨other, member, same, equal⟩
        · exact .inl (List.mem_cons_of_mem _ old)
        · exact .inr (.inl new)
        · exact .inr (.inr ⟨other, List.mem_cons_of_mem _ member, same, equal⟩)

/-- Giving a value to a key leaves the entries under other keys where they are. -/
theorem mem_insert_of_mem {entries : Entries κ α} {entry : κ × α}
    (member : entry ∈ entries) (key : κ) (value : α) :
    (entry.1 == key) = true ∨ entry ∈ insert entries key value := by
  induction entries with
  | nil => cases member
  | cons first rest ih =>
    unfold insert
    rcases List.mem_cons.mp member with rfl | later
    · split
      · exact .inl ‹_›
      · exact .inr List.mem_cons_self
    · split
      · exact .inr (List.mem_cons_of_mem _ later)
      · exact (ih later).imp_right (List.mem_cons_of_mem _)

/-- Storing under a key keeps the keys apart. -/
theorem Distinct.insert {entries : Entries κ α} (distinct : Distinct entries)
    (key : κ) (value : α) :
    Distinct (insert entries key value) := by
  induction entries with
  | nil => exact List.pairwise_singleton ..
  | cons first rest ih =>
    obtain ⟨apart, further⟩ := List.pairwise_cons.mp distinct
    unfold Entries.insert
    split
    · exact List.pairwise_cons.mpr ⟨apart, further⟩
    · rename_i other
      refine List.pairwise_cons.mpr ⟨fun entry inside => ?_, ih further⟩
      rcases mem_insert inside with old | rfl | ⟨later, member, -, rfl⟩
      · exact apart entry old
      · exact Bool.eq_false_iff.mpr other
      · exact apart later member

/-- Entries under new keys, all different, are overlaid in order behind the others. -/
theorem merge_of_distinct {first second : Entries κ α} (distinct : Distinct (first ++ second)) :
    merge first second = first ++ second := by
  induction second generalizing first with
  | nil => exact (List.append_nil first).symm
  | cons entry rest ih =>
    have fresh : get? first entry.1 = none := get?_eq_none_iff.mpr fun other inside =>
      (List.pairwise_append.mp distinct).2.2 other inside entry (List.mem_cons_self ..)
    have regrouped : first ++ entry :: rest = first ++ [entry] ++ rest := by
      rw [List.append_assoc, List.singleton_append]
    rw [regrouped] at distinct ⊢
    have later := ih distinct
    unfold merge at later ⊢
    rw [List.foldl_cons, insert_of_get?_eq_none fresh, later]

theorem merge_nil_of_distinct {entries : Entries κ α} (distinct : Distinct entries) :
    merge [] entries = entries := by
  have whole : Distinct ([] ++ entries) := distinct
  exact merge_of_distinct whole

theorem Distinct.merge {first : Entries κ α} (distinct : Distinct first) (second : Entries κ α) :
    Distinct (merge first second) := by
  induction second generalizing first with
  | nil => exact distinct
  | cons entry rest ih => exact ih (distinct.insert entry.1 entry.2)

/-- Keys and values of an overlay come from either side. -/
theorem mem_merge {first second : Entries κ α} {entry : κ × α}
    (inside : entry ∈ merge first second) :
    (∃ other ∈ first ++ second, entry.1 = other.1) ∧ ∃ other ∈ first ++ second,
      entry.2 = other.2 := by
  induction second generalizing first with
  | nil =>
    rw [List.append_nil]
    exact ⟨⟨entry, inside, rfl⟩, ⟨entry, inside, rfl⟩⟩
  | cons given rest ih =>
    have came : ∀ other ∈ insert first given.1 given.2 ++ rest,
        (∃ source ∈ first ++ given :: rest, other.1 = source.1) ∧
          ∃ source ∈ first ++ given :: rest, other.2 = source.2 := by
      intro other member
      have new : given ∈ first ++ given :: rest := by simp
      rcases List.mem_append.mp member with early | late
      · rcases mem_insert early with old | rfl | ⟨spelled, old, -, rfl⟩
        · have kept : other ∈ first ++ given :: rest := List.mem_append_left _ old
          exact ⟨⟨other, kept, rfl⟩, ⟨other, kept, rfl⟩⟩
        · exact ⟨⟨given, new, rfl⟩, ⟨given, new, rfl⟩⟩
        · exact ⟨⟨spelled, List.mem_append_left _ old, rfl⟩, ⟨given, new, rfl⟩⟩
      · have kept : other ∈ first ++ given :: rest :=
          List.mem_append_right _ (List.mem_cons_of_mem _ late)
        exact ⟨⟨other, kept, rfl⟩, ⟨other, kept, rfl⟩⟩
    obtain ⟨⟨keyed, member, key⟩, ⟨valued, held, value⟩⟩ := ih inside
    obtain ⟨source, former, same⟩ := (came keyed member).1
    obtain ⟨origin, latter, equal⟩ := (came valued held).2
    exact ⟨⟨source, former, key.trans same⟩, ⟨origin, latter, value.trans equal⟩⟩

end Mapping

section Equivalence

variable {κ α : Type} [BEq κ] [EquivBEq κ]

/-- What is stored under a key is found there and nowhere else. -/
theorem get?_insert (entries : Entries κ α) (key other : κ) (value : α) :
    get? (insert entries key value) other = if key == other then some value
      else get? entries other := by
  induction entries with
  | nil => rw [insert, get?_cons]
  | cons entry rest ih =>
    unfold insert
    split
    · rename_i same
      simp only [get?_cons, BEq.congr_left same]
      split <;> rfl
    · rename_i apart
      simp only [get?_cons, ih]
      by_cases here : (entry.1 == other) = true
      · have elsewhere : (key == other) = false := by
          rw [Bool.eq_false_iff]
          intro same
          exact apart (BEq.trans here (BEq.symm same))
        rw [if_pos here, elsewhere, if_neg Bool.false_ne_true, if_pos here]
      · rw [if_neg here, if_neg here]

theorem get?_insert_self (entries : Entries κ α) (key : κ) (value : α) :
    get? (insert entries key value) key = some value := by
  rw [get?_insert, if_pos (BEq.refl key)]

/-- What is erased is not found, and nothing else is lost. -/
theorem get?_erase (entries : Entries κ α) (key other : κ) :
    get? (erase entries key) other = if key == other then none else get? entries other := by
  induction entries with
  | nil => cases same : key == other <;> rfl
  | cons entry rest ih =>
    unfold erase at ih ⊢
    rw [List.filter_cons]
    by_cases same : (entry.1 == key) = true
    · rw [same, Bool.not_true, if_neg Bool.false_ne_true, ih, get?_cons, BEq.congr_left same]
      split <;> rfl
    · rw [Bool.eq_false_iff.mpr same, Bool.not_false, if_pos rfl, get?_cons, ih, get?_cons]
      by_cases here : (entry.1 == other) = true
      · have elsewhere : (key == other) = false := by
          rw [Bool.eq_false_iff]
          intro equal
          exact same (BEq.trans here (BEq.symm equal))
        rw [if_pos here, elsewhere, if_neg Bool.false_ne_true, if_pos here]
      · rw [if_neg here, if_neg here]

/-- Entries that have one key are one entry. -/
theorem Distinct.unique {entries : Entries κ α} (distinct : Distinct entries) {one two : κ × α}
    (first : one ∈ entries) (second : two ∈ entries) (same : (one.1 == two.1) = true) :
      one = two := by
  induction entries with
  | nil => cases first
  | cons entry rest ih =>
    obtain ⟨apart, further⟩ := List.pairwise_cons.mp distinct
    rcases List.mem_cons.mp first with rfl | early
    · rcases List.mem_cons.mp second with rfl | late
      · rfl
      · rw [apart two late] at same
        cases same
    · rcases List.mem_cons.mp second with rfl | late
      · rw [BEq.symm_false (apart one early)] at same
        cases same
      · exact ih further early late

/-- Under keys that the overlay leaves alone, what was there is found. -/
theorem get?_merge_of_get?_eq_none {first second : Entries κ α} {key : κ}
    (untouched : get? second key = none) : get? (merge first second) key = get? first key := by
  induction second generalizing first with
  | nil => rfl
  | cons entry rest ih =>
    have apart := get?_eq_none_iff.mp untouched
    have here := apart entry (List.mem_cons_self ..)
    have later : get? rest key = none :=
      get?_eq_none_iff.mpr fun other inside => apart other (List.mem_cons_of_mem _ inside)
    have found : get? (merge (insert first entry.1 entry.2) rest) key =
        get? (insert first entry.1 entry.2) key := ih later
    rw [get?_insert, here, if_neg Bool.false_ne_true] at found
    exact found

/-- Under the keys of the overlay, its values are found. -/
theorem get?_merge_of_mem {first second : Entries κ α} (distinct : Distinct second) {entry : κ × α}
    (inside : entry ∈ second) : get? (merge first second) entry.1 = some entry.2 := by
  induction second generalizing first with
  | nil => cases inside
  | cons given rest ih =>
    obtain ⟨apart, further⟩ := List.pairwise_cons.mp distinct
    rcases List.mem_cons.mp inside with rfl | later
    · have untouched : get? rest entry.1 = none := get?_eq_none_iff.mpr fun other member =>
        BEq.symm_false (apart other member)
      have found : get? (merge (insert first entry.1 entry.2) rest) entry.1 =
          get? (insert first entry.1 entry.2) entry.1 := get?_merge_of_get?_eq_none untouched
      rw [get?_insert_self] at found
      exact found
    · exact ih further later

/-- Of two values given to a key, the later one stays. -/
theorem insert_insert {key other : κ} (same : (key == other) = true) (entries : Entries κ α)
    (value last : α) :
    insert (insert entries key value) other last = insert entries key last := by
  induction entries with
  | nil => simp only [insert, same, if_true]
  | cons entry rest ih =>
    simp only [insert, BEq.congr_right same]
    split
    · rename_i here
      rw [insert, if_pos here]
    · rename_i elsewhere
      rw [insert, if_neg elsewhere, ih]

/-- A new value for a key that has a place may be given before or after that of another key. -/
theorem insert_comm {entries : Entries κ α} {key other : κ} (apart : (other == key) = false)
    (placed : get? entries key ≠ none) (value further : α) :
    insert (insert entries other further) key value =
      insert (insert entries key value) other further := by
  induction entries with
  | nil => exact absurd rfl placed
  | cons entry rest ih =>
    rw [get?_cons] at placed
    by_cases here : (entry.1 == key) = true
    · have elsewhere : (entry.1 == other) = false := by
        rw [Bool.eq_false_iff]
        intro same
        rw [BEq.trans (BEq.symm same) here] at apart
        cases apart
      simp only [insert, here, elsewhere, if_true, Bool.false_eq_true, if_false]
    · rw [if_neg here] at placed
      by_cases there : (entry.1 == other) = true
      · simp only [insert, here, there, if_true, Bool.false_eq_true, if_false]
      · simp only [insert, here, there, Bool.false_eq_true, if_false, ih placed]

/-- A key that has a place among the entries and is none of an overlay's may be given its value
first. -/
theorem insert_merge {second : Entries κ α} {key : κ} (untouched : get? second key = none)
    {first : Entries κ α} (placed : get? first key ≠ none) (value : α) :
    insert (merge first second) key value = merge (insert first key value) second := by
  induction second generalizing first with
  | nil => rfl
  | cons entry rest ih =>
    have apart := get?_eq_none_iff.mp untouched
    have here := apart entry List.mem_cons_self
    have later : get? rest key = none :=
      get?_eq_none_iff.mpr fun other inside => apart other (List.mem_cons_of_mem _ inside)
    have kept : get? (insert first entry.1 entry.2) key ≠ none := by
      rwa [get?_insert, here, if_neg Bool.false_ne_true]
    have stepped := ih later kept
    rw [insert_comm here placed] at stepped
    exact stepped

/-- An entry is put on top of an overlay, or into it beforehand. -/
theorem merge_insert {second : Entries κ α} (distinct : Distinct second)
    (first : Entries κ α) (key : κ)
    (value : α) : merge first (insert second key value) =
      insert (merge first second) key value := by
  induction second generalizing first with
  | nil => rfl
  | cons entry rest ih =>
    obtain ⟨apart, further⟩ := List.pairwise_cons.mp distinct
    rw [insert]
    split
    · rename_i same
      have untouched : get? rest key = none := get?_eq_none_iff.mpr fun other inside => by
        rw [BEq.congr_right (BEq.symm same)]
        exact BEq.symm_false (apart other inside)
      have placed : get? (insert first entry.1 entry.2) key ≠ none := by
        rw [get?_insert, if_pos same]
        exact Option.some_ne_none _
      have stepped := insert_merge untouched placed value
      rw [insert_insert same] at stepped
      exact stepped.symm
    · exact ih further (insert first entry.1 entry.2)

/-- Overlays may be put together first. -/
theorem merge_merge {second : Entries κ α} (distinct : Distinct second)
    (first third : Entries κ α) :
    merge first (merge second third) = merge (merge first second) third := by
  induction third generalizing second with
  | nil => rfl
  | cons entry rest ih =>
    have stepped := ih (distinct.insert entry.1 entry.2)
    rw [merge_insert distinct] at stepped
    exact stepped

/-- Removing a key and giving a value to another one do not interfere. -/
theorem erase_insert {key other : κ} (apart : (other == key) = false)
    (entries : Entries κ α) (value : α) :
    erase (insert entries other value) key = insert (erase entries key) other value := by
  induction entries with
  | nil => simp [erase, insert, apart]
  | cons entry rest ih =>
    unfold erase at ih ⊢
    by_cases here : (entry.1 == other) = true
    · have kept : (entry.1 == key) = false := by rw [BEq.congr_left here, apart]
      simp [insert, here, kept]
    · by_cases removed : (entry.1 == key) = true
      · simp [insert, here, removed, ih]
      · simp [insert, here, removed, ih]

/-- A key that is none of an overlay's may be removed first. -/
theorem erase_merge {second : Entries κ α} {key : κ} (untouched : get? second key = none)
    (first : Entries κ α) : erase (merge first second) key = merge (erase first key) second := by
  induction second generalizing first with
  | nil => rfl
  | cons entry rest ih =>
    have apart := get?_eq_none_iff.mp untouched
    have later : get? rest key = none :=
      get?_eq_none_iff.mpr fun other inside => apart other (List.mem_cons_of_mem _ inside)
    have stepped := ih later (insert first entry.1 entry.2)
    rw [erase_insert (apart entry List.mem_cons_self)] at stepped
    exact stepped

/-- Without the entries under some keys, the others are found as before. -/
theorem get?_without (entries : Entries κ α) (keys : List κ) (key : κ) :
    get? (entries.filter fun entry => !keys.any (· == entry.1)) key =
      if keys.any (· == key) then none else get? entries key := by
  induction entries with
  | nil => simp [get?]
  | cons entry rest ih =>
    rw [List.filter_cons, get?_cons]
    by_cases here : (entry.1 == key) = true
    · have same : keys.any (· == entry.1) = keys.any (· == key) := by
        simp only [BEq.congr_right here]
      rw [same]
      by_cases listed : keys.any (· == key) = true
      · simpa [listed] using ih
      · simp [listed, get?_cons, here]
    · by_cases listed : keys.any (· == entry.1) = true
      · simpa [listed, here] using ih
      · simpa [listed, get?_cons, here] using ih

/-- Under each key the last value that it is given is found. -/
theorem get?_merge_reverse (first pairs : Entries κ α) (key : κ) :
    get? (merge first pairs) key = (get? pairs.reverse key).or (get? first key) := by
  induction pairs generalizing first with
  | nil => rfl
  | cons entry rest ih =>
    have stepped := ih (insert first entry.1 entry.2)
    rw [get?_insert] at stepped
    rw [List.reverse_cons, get?_append, get?_cons, Option.or_assoc]
    refine stepped.trans (congrArg _ ?_)
    split <;> rfl

end Equivalence

end Entries

end Conform
