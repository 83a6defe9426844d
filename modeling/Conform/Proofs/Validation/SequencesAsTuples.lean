import Conform.Proofs.Evaluation.Budgets
import Conform.Proofs.Validator.Constructions
import Conform.Proofs.Validator.Grouping
import Conform.Proofs.Value.Depth

/-!
Lists as tuples. A list of equal items, a tuple of which the rest is dropped and one of which the
rest passes another schema each answer as a tuple of exactly these positions does: on the same
input, or on the beginning of it (`Validator.sequences_as_tuples`).
-/
namespace Conform

namespace Value

/-- The first items of a list or tuple. -/
def beginning (count : Nat) : Value → Value
  | .list items => .list (items.take count)
  | .tuple items => .tuple (items.take count)
  | x => x

variable {x : Value} {items : List Value}

theorem items?_beginning (found : x.items? = some items) (count : Nat) :
    (x.beginning count).items? = some (items.take count) := by
  cases x <;> cases found <;> rfl

theorem depth_beginning_le (x : Value) (count : Nat) : (x.beginning count).depth ≤ x.depth := by
  have fewer : ∀ items : List Value, depthIn (items.take count) ≤ depthIn items := fun items =>
    depthIn_mono fun y inside => ⟨y, List.mem_of_mem_take inside, Nat.le_refl _⟩
  cases x with
  | list items | tuple items => exact Nat.succ_le_succ (fewer items)
  | _ => exact Nat.le_refl _

end Value

theorem World.budget_beginning_le (world : World) (x : Value) (count : Nat) :
    world.budget (x.beginning count) ≤ world.budget x :=
  Nat.add_le_add_right (Nat.mul_le_mul_right _ (Nat.succ_le_succ (x.depth_beginning_le count))) _

namespace SafeForm

open Checked

theorem eachItem_eq_eachPosition (item : SafeForm) (i : Nat) (xs : List Value) :
    eachItem item i xs = eachPosition i (List.replicate xs.length item) xs := by
  induction xs generalizing i with
  | nil => rfl
  | cons x rest ih => simp only [eachItem, List.length_cons, List.replicate_succ, eachPosition, ih]

/-- What lies behind the positions is not looked at. -/
theorem eachPosition_take (forms : List SafeForm) (i : Nat) (xs : List Value) :
    eachPosition i forms (xs.take forms.length) = eachPosition i forms xs := by
  induction forms generalizing i xs with
  | nil => cases xs <;> rfl
  | cons form rest ih =>
    cases xs with
    | nil => rfl
    | cons x xs => simp only [List.length_cons, List.take_succ_cons, eachPosition, ih]

/-- Positions of a longer row are those of the first row with those of the second behind them. -/
theorem eachPosition_append {forms : List SafeForm} {xs : List Value}
    (fits : forms.length ≤ xs.length) (others : List SafeForm) (i : Nat) :
    eachPosition i (forms ++ others) xs = (do
      let ys ← eachPosition i forms xs
      let zs ← eachPosition (i + forms.length) others (xs.drop forms.length)
      pure (ys ++ zs)) := by
  induction forms generalizing i xs with
  | nil =>
    simp only [List.nil_append, eachPosition, pure_bind, List.length_nil, Nat.add_zero,
      List.drop_zero, bind_pure]
  | cons form rest ih =>
    cases xs with
    | nil => exact absurd fits (Nat.not_succ_le_zero _)
    | cons x xs =>
      have behind : i + 1 + rest.length = i + (form :: rest).length := by
        rw [List.length_cons]
        omega
      have stepped := ih (Nat.le_of_succ_le_succ fits) (i + 1)
      rw [behind] at stepped
      simp only [List.cons_append, eachPosition, stepped, bind_assoc, pure_bind, List.length_cons,
        List.drop_succ_cons]

variable {forms : List SafeForm} {x : Value} {xs : List Value} (found : x.items? = some xs)
include found

theorem array_eq_tuple (item : SafeForm) :
    array item x = tuple (List.replicate xs.length item) x := by
  simp only [array, tuple, itemsOf, found, pure_bind, List.length_replicate, if_true,
    eachItem_eq_eachPosition]

theorem looseTuple_eq_tuple (fits : forms.length ≤ xs.length) :
    looseTuple forms x = tuple forms (x.beginning forms.length) := by
  have long : ¬xs.length < forms.length := Nat.not_lt.mpr fits
  have kept : (xs.take forms.length).length = forms.length := List.length_take_of_le fits
  simp only [looseTuple, tuple, itemsOf, found, Value.items?_beginning found, pure_bind, long,
    kept, if_false, if_true, eachPosition_take]

/-- A row with a rest of items is a row with the rest's form for every further item. -/
theorem tupleWithRest_eq_tuple (fits : forms.length ≤ xs.length) (rest : SafeForm) :
    tupleWithRest forms rest x = tuple
      (forms ++ List.replicate (xs.length - forms.length) rest) x := by
  have long : ¬xs.length < forms.length := Nat.not_lt.mpr fits
  have whole : xs.length = (forms ++ List.replicate (xs.length - forms.length) rest).length := by
    rw [List.length_append, List.length_replicate, Nat.add_sub_cancel' fits]
  have behind : xs.length - forms.length = (xs.drop forms.length).length := List.length_drop.symm
  simp only [tupleWithRest, tuple, itemsOf, found, pure_bind, long, if_false, ← whole, if_true,
    eachPosition_append fits, bind_assoc, eachItem_eq_eachPosition, ← behind, Nat.zero_add]

theorem looseTuple_of_short (short : xs.length < forms.length) :
    looseTuple forms x = reject (wrongLength "at least " forms.length xs.length) := by
  simp only [looseTuple, itemsOf, found, pure_bind, short, if_true]

theorem tupleWithRest_of_short (short : xs.length < forms.length) (rest : SafeForm) :
    tupleWithRest forms rest x = reject (wrongLength "at least " forms.length xs.length) := by
  simp only [tupleWithRest, itemsOf, found, pure_bind, short, if_true]

end SafeForm

namespace Validator

open Rule SafeForm Checked

theorem safeAll_replicate (onLazy : Nat → SafeForm) (v : Validator) (count : Nat) :
    safeAll onLazy (rules (List.replicate count v)) =
      List.replicate count (v.rule.safe onLazy) := by
  rw [safeAll_eq_map, rules, List.map_replicate, List.map_replicate]

theorem length_forms (onLazy : Nat → SafeForm) (vs : List Validator) :
    (safeAll onLazy (rules vs)).length = vs.length := by
  rw [length_safeAll, rules, List.length_map]

variable {items : List Validator} {v : Value} {xs : List Value}

/-- On as many items as there are positions, or more, the rest is dropped before or after. -/
theorem safe_looseTuple (found : v.items? = some xs) (fits : items.length ≤ xs.length)
    (onLazy : Nat → SafeForm) : (Rule.looseTuple (rules items)).safe onLazy v =
      (Rule.tuple (rules items)).safe onLazy (v.beginning items.length) := by
  have counted := length_forms onLazy items
  rw [← counted] at fits ⊢
  exact looseTuple_eq_tuple found fits

/-- Where there are items enough, a rest is so many further positions of the same form. -/
theorem safe_tupleWithRest (found : v.items? = some xs) (fits : items.length ≤ xs.length)
    (rest : Validator)
    (onLazy : Nat → SafeForm) : (Rule.tupleWithRest (rules items) rest.rule).safe onLazy v =
      (Rule.tuple (rules (items ++ List.replicate (xs.length - items.length) rest))).safe
        onLazy v := by
  have padded : safeAll onLazy (rules (items ++ List.replicate (xs.length - items.length) rest)) =
      safeAll onLazy (rules items) ++ List.replicate (xs.length - items.length)
        (rest.rule.safe onLazy) := by
    rw [rules_append, safeAll_append, safeAll_replicate]
  rw [Rule.safe, Rule.safe, padded]
  have counted := length_forms onLazy items
  rw [← counted] at fits ⊢
  exact tupleWithRest_eq_tuple found fits (rest.rule.safe onLazy)

/-- A list of items that pass one schema is a tuple of as many positions; a tuple of which more is
dropped is the tuple of its beginning, and one of which more passes another schema the tuple of as
many further positions; and these two refuse what is too short outright. The recursion limit depends
on the input, so that a tuple of the beginning may exhaust its own where the whole input has a
greater one. -/
theorem sequences_as_tuples (item rest : Validator) (nonempty : items ≠ [])
    (found : v.items? = some xs) :
    (xs ≠ [] → ∃ fixed, tuple (List.replicate xs.length item) = .ok fixed ∧
      (array item).safe v = fixed.safe v) ∧
    ∃ loose resting fixed, looseTuple items = .ok loose ∧ tupleWithRest items rest = .ok resting ∧
      tuple items = .ok fixed ∧
      (items.length ≤ xs.length →
        (∀ budget, loose.rule.safe (lazySafe budget) v =
          fixed.rule.safe (lazySafe budget) (v.beginning items.length)) ∧
        (fixed.safe (v.beginning items.length)).Deepens (loose.safe v) ∧
        ∃ padded, tuple (items ++ List.replicate (xs.length - items.length) rest) = .ok padded ∧
          resting.safe v = padded.safe v) ∧
      (xs.length < items.length →
        loose.safe v = reject (wrongLength "at least " items.length xs.length) ∧
        resting.safe v = reject (wrongLength "at least " items.length xs.length)) := by
  constructor
  · intro some
    have parts : List.replicate xs.length item ≠ [] := by
      rw [Ne, List.replicate_eq_nil_iff]
      exact fun none => some (List.length_eq_zero_iff.mp none)
    refine ⟨_, made_of_nonempty parts _, safe_congr fun onLazy => ?_⟩
    refine (array_eq_tuple found _).trans ?_
    rw [← safeAll_replicate]
    rfl
  · refine ⟨_, _, _, made_of_nonempty nonempty _, made_of_nonempty nonempty _,
      made_of_nonempty nonempty _,
      fun fits => ⟨fun budget => safe_looseTuple found fits _, ?_, ?_⟩, fun short => ⟨?_, ?_⟩⟩
    · exact safe_deepens (safe_looseTuple found fits) fun world =>
        world.budget_beginning_le v items.length
    · have parts : items ++ List.replicate (xs.length - items.length) rest ≠ [] :=
        List.append_ne_nil_of_left_ne_nil nonempty _
      exact ⟨_, made_of_nonempty parts _, safe_congr (safe_tupleWithRest found fits rest)⟩
    · refine safe_of_rule fun onLazy => ?_
      rw [← length_forms onLazy items] at short ⊢
      exact looseTuple_of_short found short
    · refine safe_of_rule fun onLazy => ?_
      rw [← length_forms onLazy items] at short ⊢
      exact tupleWithRest_of_short found short (rest.rule.safe onLazy)

/-- A text and a number. -/
private def parts : List Validator := [leaf .string, leaf .integer]

/-- A text, a number and null. -/
private def given : Value := .tuple [.str "a", .int 1, .null]

/-- Without the third item the two parts accept; with it they refuse, at its position, what no truth
value is; and a text alone is too short for both. -/
theorem parts_as_tuples :
    (parts ≠ [] ∧ given.items? = some [.str "a", .int 1, .null]) ∧
    (∃ fixed, tuple (List.replicate 3 (leaf .any)) = .ok fixed ∧
      (array (leaf .any)).safe given = fixed.safe given) ∧
    (∃ loose resting fixed padded, looseTuple parts = .ok loose ∧
      tupleWithRest parts (leaf .boolean) = .ok resting ∧ tuple parts = .ok fixed ∧
      tuple (parts ++ [leaf .boolean]) = .ok padded ∧
      (fixed.safe (given.beginning 2)).Deepens (loose.safe given) ∧
      (loose.safe given).Returns (World.initial "") (.list [.str "a", .int 1]) (World.initial "") ∧
      resting.safe given = padded.safe given ∧
      (resting.safe given).Reports (World.initial "")
        ((Failure.expecting "Expected boolean" "boolean").within (.int 2) "[2]")
          (World.initial "")) ∧
    ∃ loose, looseTuple parts = .ok loose ∧
      loose.safe (.list [.str "a"]) = reject (wrongLength "at least " 2 1) := by
  have nonempty : parts ≠ [] := List.cons_ne_nil _ _
  have found : given.items? = some [.str "a", .int 1, .null] := rfl
  have alone : (Value.list [.str "a"]).items? = some [.str "a"] := rfl
  obtain ⟨alike, loose, resting, fixed, dropping, going, exact, long, -⟩ :=
    sequences_as_tuples (leaf .any) (leaf .boolean) nonempty found
  obtain ⟨-, deepens, padded, padding, same⟩ := long (by decide)
  obtain ⟨-, lax, further, least, taken, -, -, -, refuses⟩ :=
    sequences_as_tuples (leaf .any) (leaf .boolean) nonempty alone
  refine ⟨⟨nonempty, found⟩, alike (List.cons_ne_nil _ _), ⟨loose, resting, fixed, padded, dropping,
    going, exact, padding, deepens, ?_, same, ?_⟩, lax, taken, (refuses (by decide)).1⟩
  · cases dropping
    rfl
  · rw [same]
    cases padding
    rfl

end Validator

end Conform
