import Conform.Proofs.Value.Entries
import Conform.Proofs.Value.Equivalence

/-!
Nesting depth of values. What a container holds is less deep than the container, equivalent values
are equally deep, and dictionaries do not get deeper by taking in keys and values that are not.
-/
namespace Conform

namespace Value

theorem depthIn_le_iff {items : List Value} {bound : Nat} :
    depthIn items ≤ bound ↔ ∀ item ∈ items, item.depth ≤ bound := by
  induction items with
  | nil => simp [depthIn]
  | cons item rest ih => rw [depthIn, Nat.max_le, ih, List.forall_mem_cons]

/-- Neither a key nor a value of the entries is deeper than a bound. -/
def EntriesWithin (bound : Nat) (entries : List (Value × Value)) : Prop :=
  ∀ entry ∈ entries, entry.1.depth ≤ bound ∧ entry.2.depth ≤ bound

theorem depthOfEntries_le_iff {entries : List (Value × Value)} {bound : Nat} :
    depthOfEntries entries ≤ bound ↔ EntriesWithin bound entries := by
  unfold EntriesWithin
  induction entries with
  | nil => simp [depthOfEntries]
  | cons entry rest ih => rw [depthOfEntries, Nat.max_le, Nat.max_le, ih, List.forall_mem_cons]

theorem depth_of_items {x : Value} {items : List Value} (held : x.items? = some items) :
    x.depth = depthIn items + 1 := by
  cases x <;> cases held <;> rfl

theorem depth_of_elements {x : Value} {items : List Value} (held : x.elements? = some items) :
    x.depth = depthIn items + 1 := by
  cases x <;> cases held <;> rfl

theorem depth_of_entries {x : Value} {entries : List (Value × Value)}
    (held : x.entries? = some entries) : x.depth = depthOfEntries entries + 1 := by
  cases x <;> cases held <;> rfl

theorem depth_of_magnitude {x : Value} {place : Magnitude} (placed : x.magnitude? = some place) :
    x.depth = 0 := by
  cases x with
  | bool | int | float => rfl
  | _ => cases placed

theorem depthIn_mono {xs ys : List Value} (covered : ∀ x ∈ xs, ∃ y ∈ ys, x.depth ≤ y.depth) :
    depthIn xs ≤ depthIn ys := by
  refine depthIn_le_iff.mpr fun x inside => ?_
  obtain ⟨y, member, deep⟩ := covered x inside
  exact Nat.le_trans deep (depthIn_le_iff.mp (Nat.le_refl _) y member)

/-- What is equal to a value is at least as deep. -/
private theorem depth_le_of_equiv (x : Value) : ∀ y, equiv x y → x.depth ≤ y.depth := by
  induction x using byParts with
  | step x ih =>
    intro y equal
    cases alike_of_equiv equal with
    | same => exact Nat.le_refl _
    | number first =>
      rw [depth_of_magnitude first]
      exact Nat.zero_le _
    | list each | tuple each =>
      refine Nat.succ_le_succ (depthIn_mono fun item inside => ?_)
      obtain ⟨other, member, same⟩ := exists_right_of_forall₂ each item inside
      exact ⟨other, member, ih item inside other same⟩
    | elements first second cover =>
      rw [depth_of_elements first, depth_of_elements second]
      refine Nat.succ_le_succ (depthIn_mono fun item inside => ?_)
      obtain ⟨other, member, same⟩ := cover.1 item inside
      exact ⟨other, member, ih item (mem_parts_of_elements first inside) other same⟩
    | entries first second cover =>
      rw [depth_of_entries first, depth_of_entries second]
      refine Nat.succ_le_succ (depthOfEntries_le_iff.mpr fun entry inside => ?_)
      obtain ⟨other, member, key, item⟩ := cover.1 entry inside
      obtain ⟨inKeys, inItems⟩ := mem_parts_of_entries first inside
      obtain ⟨keys, items⟩ := depthOfEntries_le_iff.mp (Nat.le_refl _) other member
      exact ⟨Nat.le_trans (ih entry.1 inKeys other.1 key) keys,
        Nat.le_trans (ih entry.2 inItems other.2 item) items⟩

/-- Equivalent values are equally deep. -/
theorem depth_eq_of_equiv {x y : Value} (equal : equiv x y) : x.depth = y.depth :=
  Nat.le_antisymm (depth_le_of_equiv x y equal) (depth_le_of_equiv y x (equiv_symm equal))

section Dictionaries

variable {bound : Nat} {entries : List (Value × Value)}

theorem entriesWithin_nil : EntriesWithin bound [] := nofun

theorem EntriesWithin.insert (within : EntriesWithin bound entries) {key value : Value}
    (keyed : key.depth ≤ bound) (valued : value.depth ≤ bound) :
    EntriesWithin bound (Entries.insert entries key value) := by
  intro entry inside
  rcases Entries.mem_insert inside with old | rfl | ⟨first, member, -, rfl⟩
  · exact within entry old
  · exact ⟨keyed, valued⟩
  · exact ⟨(within first member).1, valued⟩

theorem EntriesWithin.erase (within : EntriesWithin bound entries) (key : Value) :
    EntriesWithin bound (Entries.erase entries key) :=
  fun entry inside => within entry (List.mem_filter.mp inside).1

theorem EntriesWithin.merge {further : List (Value × Value)} (within : EntriesWithin bound entries)
    (also : EntriesWithin bound further) : EntriesWithin bound (Entries.merge entries further) := by
  have both : EntriesWithin bound (entries ++ further) := List.forall_mem_append.mpr ⟨within, also⟩
  intro entry inside
  obtain ⟨⟨keyed, member, key⟩, ⟨valued, held, value⟩⟩ := Entries.mem_merge inside
  rw [key, value]
  exact ⟨(both keyed member).1, (both valued held).2⟩

/-- A key that is found is as deep as the one it is found under. -/
theorem EntriesWithin.found (within : EntriesWithin bound entries) {key value : Value}
    (held : Entries.get? entries key = some value) : key.depth ≤ bound ∧ value.depth ≤ bound := by
  obtain ⟨entry, found, rfl⟩ := Option.map_eq_some_iff.mp held
  have here := within entry (List.mem_of_find?_eq_some found)
  have same := List.find?_some found
  exact ⟨depth_eq_of_equiv same ▸ here.1, here.2⟩

end Dictionaries

end Value

end Conform
