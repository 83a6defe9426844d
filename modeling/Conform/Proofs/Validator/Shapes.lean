import Conform.Schema.Shape
import Conform.Proofs.Value.Equivalence
import Conform.Proofs.Value.Reordering

/-!
Operations on shapes, seen through the fields that a shape is read as: adding disjoint fields puts
them behind the others, and picking and dropping the same keys splits the fields in two parts that
have together under each key what the whole has.
-/
namespace Conform

namespace Entries

section Mapping

variable {κ α β : Type} [BEq κ] (change : α → β)

theorem get?_map (entries : Entries κ α) (key : κ) :
    get? (entries.map fun entry => (entry.1, change entry.2)) key =
      (get? entries key).map change := by
  induction entries with
  | nil => rfl
  | cons entry rest ih =>
    rw [List.map_cons, get?_cons, get?_cons, ih]
    split <;> rfl

theorem map_merge (first second : Entries κ α) :
    (merge first second).map (fun entry => (entry.1, change entry.2)) =
      merge (first.map fun entry => (entry.1, change entry.2))
        (second.map fun entry => (entry.1, change entry.2)) := by
  induction second generalizing first with
  | nil => rfl
  | cons entry rest ih =>
    have stepped := ih (insert first entry.1 entry.2)
    rw [map_insert] at stepped
    exact stepped

theorem map_restrict (keys : List κ) (entries : Entries κ α) :
    (restrict keys entries).map (fun entry => (entry.1, change entry.2)) =
      restrict keys (entries.map fun entry => (entry.1, change entry.2)) := by
  unfold restrict
  rw [List.map_filterMap]
  apply List.filterMap_congr
  intro key _
  rw [get?_map]
  cases get? entries key <;> rfl

/-- What is picked: values of the entries, under the spelling of the picked keys. -/
theorem mem_restrict {keys : List κ} {entries : Entries κ α} {entry : κ × α} :
    entry ∈ restrict keys entries ↔ entry.1 ∈ keys ∧ get? entries entry.1 = some entry.2 := by
  unfold restrict
  simp only [List.mem_filterMap, Option.map_eq_some_iff]
  constructor
  · rintro ⟨key, listed, value, found, rfl⟩
    exact ⟨listed, found⟩
  · rintro ⟨listed, found⟩
    exact ⟨entry.1, listed, entry.2, found, rfl⟩

end Mapping

section Splitting

variable {κ α : Type} [BEq κ] [EquivBEq κ] (keys : List κ) (entries : Entries κ α)

/-- What is picked is found under the picked keys as before, however often and in whatever spelling
these are listed. -/
theorem get?_ofPairs_restrict (key : κ) :
    get? (ofPairs (restrict keys entries)) key = if keys.any (· == key) then get? entries key
      else none := by
  rw [ofPairs, get?_merge_reverse]
  have nothing : get? ([] : Entries κ α) key = none := rfl
  rw [nothing, Option.or_none]
  cases found : get? (restrict keys entries).reverse key with
  | some value =>
    -- Of a key that is picked several times the last one is stored, but each of them has the same
    -- value.
    obtain ⟨entry, inside, same, rfl⟩ := exists_of_get?_eq_some found
    obtain ⟨listed, held⟩ := mem_restrict.mp (List.mem_reverse.mp inside)
    have picked : keys.any (· == key) = true := List.any_eq_true.mpr ⟨entry.1, listed, same⟩
    rw [if_pos picked, ← get?_congr same, held]
  | none =>
    by_cases picked : keys.any (· == key) = true
    · obtain ⟨name, listed, same⟩ := List.any_eq_true.mp picked
      rw [if_pos picked, ← get?_congr same]
      cases held : get? entries name with
      | none => rfl
      | some value =>
        have inside : (name, value) ∈ (restrict keys entries).reverse :=
          List.mem_reverse.mpr (mem_restrict.mpr ⟨listed, held⟩)
        rw [get?_eq_none_iff.mp found _ inside] at same
        cases same
    · rw [if_neg picked]

/-- The entries picked, and those without the picked keys, have together what all of them have. -/
theorem get?_split (key : κ) :
    get? (ofPairs (restrict keys entries) ++ entries.filter fun entry =>
      !keys.any (· == entry.1)) key =
      get? entries key := by
  rw [get?_append, get?_ofPairs_restrict, get?_without]
  by_cases picked : keys.any (· == key) = true
  · rw [if_pos picked, if_pos picked, Option.or_none]
  · rw [if_neg picked, if_neg picked, Option.none_or]

variable {entries}

/-- What is picked of a row and what is left of it are apart if the row was. -/
theorem distinct_split (distinct : Distinct entries) :
    Distinct (ofPairs (restrict keys entries) ++ entries.filter fun entry =>
      !keys.any (· == entry.1)) := by
  refine List.pairwise_append.mpr ⟨Distinct.merge .nil _, List.Pairwise.filter _ distinct, ?_⟩
  intro entry picked other left
  have unlisted : keys.any (· == other.1) = false := by simpa using (List.mem_filter.mp left).2
  have absent : get? (ofPairs (restrict keys entries)) other.1 = none := by
    rw [get?_ofPairs_restrict, unlisted, if_neg Bool.false_ne_true]
  exact get?_eq_none_iff.mp absent entry picked

end Splitting

end Entries

namespace Schema

def ofFields (fields : List (Value × Validator)) : List (Value × Schema) :=
  fields.map fun field => (field.1, .validator field.2)

/-- A dictionary of validators is read as they are. -/
theorem toFields_ofFields (fields : List (Value × Validator)) :
    toFields (ofFields fields) = .ok fields := by
  induction fields with
  | nil => rfl
  | cons field rest ih =>
    unfold ofFields at ih ⊢
    rw [List.map_cons, toFields, ih]
    rfl

variable {schema base extension : Schema} {fields further : List (Value × Validator)}
  {keys : List Value}

theorem requireShape_of_toShape (read : schema.toShape = .ok fields) :
    schema.requireShape = .ok (ofFields fields) := by
  unfold toShape at read
  unfold requireShape shape?
  cases held : schema.entries? with
  | none =>
    rw [held] at read
    cases read
  | some entries =>
    simp only [held] at read ⊢
    rw [read]
    rfl

/-- A shape extended by fields under other keys has these behind its own. -/
theorem extend_of_disjoint (read : base.toShape = .ok fields)
    (also : extension.toShape = .ok further) (disjoint : Entries.Distinct (fields ++ further)) :
    base.extend extension = .ok (.dict (ofFields (fields ++ further))) := by
  have keys : (ofFields fields ++ ofFields further).map (·.1) = (fields ++ further).map (·.1) := by
    simp [ofFields, Function.comp_def]
  have distinct := Entries.distinct_of_keys_eq keys disjoint
  have whole : ofFields (fields ++ further) = ofFields fields ++ ofFields further := List.map_append
  unfold extend
  rw [requireShape_of_toShape read, requireShape_of_toShape also, whole, ←
    Entries.merge_of_distinct distinct]
  rfl

theorem requireKeys_of_hashable (hashable : ∀ key ∈ keys, key.unhashable? = none) :
    requireKeys keys = .ok () := by
  have none : keys.findSome? Value.unhashable? = .none := List.findSome?_eq_none_iff.mpr hashable
  rw [requireKeys, none]

/-- The fields that are picked, in the order of the keys. -/
theorem pick_of_toShape (read : schema.toShape = .ok fields)
    (hashable : ∀ key ∈ keys, key.unhashable? = none) :
    schema.pick keys = .ok (.dict (ofFields (Entries.ofPairs (Entries.restrict keys fields)))) := by
  have picked : ofFields (Entries.ofPairs (Entries.restrict keys fields)) =
      Entries.ofPairs (Entries.restrict keys (ofFields fields)) := by
    unfold ofFields Entries.ofPairs
    rw [Entries.map_merge, Entries.map_restrict]
    rfl
  unfold pick
  rw [requireShape_of_toShape read, requireKeys_of_hashable hashable, picked]
  rfl

/-- The fields that are left, in the order of the shape. -/
theorem without_of_toShape (read : schema.toShape = .ok fields)
    (hashable : ∀ key ∈ keys, key.unhashable? = none) :
    schema.without keys =
      .ok (.dict (ofFields (fields.filter fun field => !keys.any (· == field.1)))) := by
  have left : ofFields (fields.filter fun field => !keys.any (· == field.1)) =
      (ofFields fields).filter fun field => !keys.any (· == field.1) := by
    unfold ofFields
    rw [List.filter_map]
    rfl
  unfold without
  rw [requireShape_of_toShape read, requireKeys_of_hashable hashable, left]
  rfl

end Schema

end Conform
