import Conform.Proofs.Validator.Constructions
import Conform.RecordModel

/-!
Choices between types, made by keeping those that equal none of the earlier ones. Constructions that
go well are taken apart step by step.
-/
namespace Conform

namespace ValueType

section Constructions

variable {α β : Type}

theorem map_ok {made : Except Misuse α} {change : α → β} {value : β}
    (ok : made.map change = .ok value) : ∃ first, made = .ok first ∧ change first = value := by
  cases made with
  | error cause => cases ok
  | ok first =>
    cases ok
    exact ⟨first, rfl, rfl⟩

/-- What is made of a list was made of each of its items. -/
theorem mapM_ok {change : α → Except Misuse β} {items : List α} {made : List β}
    (ok : items.mapM change = .ok made) : ∀ item ∈ items, ∃ value, change item = .ok value := by
  induction items generalizing made with
  | nil => exact nofun
  | cons first rest ih =>
    rw [List.mapM_cons] at ok
    obtain ⟨value, one, ok⟩ := bind_ok ok
    obtain ⟨others, each, -⟩ := bind_ok ok
    exact List.forall_mem_cons.mpr ⟨⟨value, one⟩, ih each⟩

end Constructions

section Repetition

variable {member : ValueType} {members kept out : List ValueType}

/-- A member that repeats an earlier one is the same as some kept member. -/
theorem same_of_isRepeated (repeated : isRepeated member kept = .ok true) :
    ∃ earlier ∈ kept, same earlier member := by
  induction kept with
  | nil => cases repeated
  | cons first rest ih =>
    unfold isRepeated at repeated
    split at repeated
    · cases repeated
    · split at repeated
      · next equal => exact ⟨first, List.mem_cons_self, equal⟩
      · obtain ⟨earlier, inside, equal⟩ := ih repeated
        exact ⟨earlier, List.mem_cons_of_mem _ inside, equal⟩

/-- Members that can be compared can be looked for among those kept. -/
theorem exists_isRepeated (comparable : ∀ earlier ∈ kept, clash? earlier member = none) :
    ∃ repeated, isRepeated member kept = .ok repeated := by
  induction kept with
  | nil => exact ⟨false, rfl⟩
  | cons first rest ih =>
    obtain ⟨here, later⟩ := List.forall_mem_cons.mp comparable
    simp only [isRepeated, here]
    split
    · exact ⟨true, rfl⟩
    · exact ih later

/-- One more type is kept unless it equals one of those kept so far. -/
def keep (kept : List ValueType) (member : ValueType) : Except Misuse (List ValueType) := do
  let repeated ← isRepeated member kept
  return if repeated then kept else kept ++ [member]

/-- What is kept was kept before or is the new type. -/
theorem mem_of_keep (grown : keep kept member = .ok out) : ∀ other ∈ out,
    other ∈ kept ∨ other = member := by
  obtain ⟨repeated, -, same⟩ := bind_ok grown
  cases same
  intro other inside
  split at inside
  · exact .inl inside
  · exact (List.mem_append.mp inside).imp_right List.mem_singleton.mp

/-- What was kept stays, and the new type or an equal one is kept. -/
theorem covered_of_keep (grown : keep kept member = .ok out) :
    kept ⊆ out ∧ ∃ other ∈ out, other = member ∨ same other member := by
  obtain ⟨repeated, found, equal⟩ := bind_ok grown
  cases equal
  cases repeated with
  | true =>
    obtain ⟨earlier, inside, same⟩ := same_of_isRepeated found
    exact ⟨fun _ inside => inside, earlier, inside, .inr same⟩
  | false =>
    exact ⟨List.subset_append_left kept [member], member, by simp, .inl rfl⟩

/-- Nothing is kept but given members. -/
private theorem mem_of_foldlM_keep (made : members.foldlM keep kept = .ok out) :
    ∀ member ∈ out, member ∈ kept ∨ member ∈ members := by
  induction members generalizing kept with
  | nil =>
    cases made
    exact fun member inside => .inl inside
  | cons first rest ih =>
    obtain ⟨next, grown, made⟩ := bind_ok made
    intro member inside
    rcases ih made member inside with early | late
    · rcases mem_of_keep grown member early with old | rfl
      · exact .inl old
      · exact .inr List.mem_cons_self
    · exact .inr (List.mem_cons_of_mem _ late)

/-- Every given member is kept or is the same as one that is. -/
private theorem covered_of_foldlM_keep (made : members.foldlM keep kept = .ok out) :
    kept ⊆ out ∧ ∀ member ∈ members, ∃ other ∈ out, other = member ∨ same other member := by
  induction members generalizing kept with
  | nil =>
    cases made
    exact ⟨fun _ inside => inside, nofun⟩
  | cons first rest ih =>
    obtain ⟨next, grown, made⟩ := bind_ok made
    obtain ⟨stays, other, inside, equal⟩ := covered_of_keep grown
    obtain ⟨further, each⟩ := ih made
    exact ⟨fun _ early => further (stays early),
      List.forall_mem_cons.mpr ⟨⟨other, further inside, equal⟩, each⟩⟩

/-- Of types without repetition every one was there before. -/
theorem mem_of_distinct (made : distinct members = .ok out) : ∀ member ∈ out, member ∈ members := by
  intro member inside
  rcases mem_of_foldlM_keep made member inside with early | late
  · cases early
  · exact late

/-- Of every type an equal one is kept. -/
theorem covered_of_distinct (made : distinct members = .ok out) :
    ∀ member ∈ members, ∃ other ∈ out, other = member ∨ same other member :=
  (covered_of_foldlM_keep made).2

/-- Types that can all be compared with each other can be freed of repetition. -/
theorem exists_distinct
    (comparable : ∀ first ∈ members, ∀ second ∈ members, clash? first second = none) :
    ∃ out, distinct members = .ok out := by
  have folded : ∀ rest kept : List ValueType, rest ⊆ members → kept ⊆ members →
      ∃ out, rest.foldlM keep kept = .ok out := by
    intro rest
    induction rest with
    | nil => exact fun kept _ _ => ⟨kept, rfl⟩
    | cons first rest ih =>
      intro kept left held
      obtain ⟨here, later⟩ := List.cons_subset.mp left
      obtain ⟨repeated, found⟩ := exists_isRepeated fun earlier inside =>
        comparable earlier (held inside) first here
      have grown : keep kept first = .ok (if repeated then kept else kept ++ [first]) := by
        unfold keep
        rw [found]
        rfl
      rw [List.foldlM_cons, grown]
      refine ih _ later fun other inside => ?_
      rcases mem_of_keep grown other inside with old | rfl
      · exact held old
      · exact here
  exact folded members [] (fun _ inside => inside) (List.nil_subset members)

end Repetition

end ValueType

end Conform
