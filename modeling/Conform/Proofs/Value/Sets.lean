import Conform.Value.Equality
import Mathlib.Data.List.Induction

/-!
The items of a set are among those that it is made of: repetitions are left out, and the table that
decides their order neither adds nor changes one.
-/
namespace Conform

namespace SetOrder.Table

variable {pool : List Value} {table : Table}

/-- Every item of the table is one of the pool. -/
def Within (pool : List Value) (table : Table) : Prop := ∀ entry ∈ table.entries, entry.item ∈ pool

theorem mem_insertBySlot {entry given : Entry} {entries : List Entry}
    (inside : entry ∈ insertBySlot given entries) : entry = given ∨ entry ∈ entries := by
  induction entries with
  | nil => exact .inl (List.mem_singleton.mp inside)
  | cons other rest ih =>
    unfold insertBySlot at inside
    split at inside
    · exact List.mem_cons.mp inside
    · rcases List.mem_cons.mp inside with rfl | later
      · exact .inr List.mem_cons_self
      · exact (ih later).imp_right (List.mem_cons_of_mem _)

theorem Within.place (within : table.Within pool) (hash : Nat) {item : Value}
    (member : item ∈ pool) :
    (table.place hash item).Within pool := by
  intro entry inside
  rcases mem_insertBySlot inside with rfl | old
  · exact member
  · exact within entry old

theorem within_empty (size : Nat) : (empty size).Within pool := nofun

/-- Storing an item of the pool leaves a table within the pool. -/
theorem Within.insert (within : table.Within pool) (hash : Nat) {item : Value}
    (member : item ∈ pool) :
    (table.insert hash item).Within pool := by
  have placed := within.place hash member
  unfold Table.insert
  dsimp only
  split
  · exact placed
  · refine List.foldlRecOn _ _ (within_empty _) fun larger held entry inside => ?_
    exact held.place entry.hash (placed entry inside)

end SetOrder.Table

/-- Putting items in the order of their table brings in no other items. -/
theorem SetOrder.mem_of_mem_arrange {items : List Value} {item : Value}
    (inside : item ∈ arrange items) :
    item ∈ items := by
  unfold arrange at inside
  split at inside
  · next found _ =>
    obtain ⟨entry, held, rfl⟩ := List.mem_map.mp inside
    refine List.foldlRecOn _ _ (motive := Table.Within items) (Table.within_empty 8) ?_ entry held
    exact fun table within given member => within.insert given.1 (List.of_mem_zip member).2
  · exact inside

namespace Value

theorem mem_of_mem_unrepeated {items : List Value} {item : Value}
    (inside : item ∈ unrepeated items) :
    item ∈ items := by
  refine List.foldlRecOn (motive := (· ⊆ items)) items _ (List.nil_subset items) ?_ inside
  intro kept within other member
  split
  · exact within
  · exact List.append_subset.mpr ⟨within, List.cons_subset.mpr ⟨member, List.nil_subset items⟩⟩

/-- The items of the set that values make are among them. -/
theorem mem_of_mem_distinct {items : List Value} {item : Value} (inside : item ∈ distinct items) :
    item ∈ items :=
  mem_of_mem_unrepeated (SetOrder.mem_of_mem_arrange inside)

end Value

end Conform
