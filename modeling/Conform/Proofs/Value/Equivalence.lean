import Conform.Value.Equality
import Mathlib.Data.List.Forall2

/-!
Equivalence of values is an equivalence relation, so that it may serve to compare keys. One level of
it is described by `Alike`, which says of every sort of value how the parts of two equivalent ones
correspond; the laws follow by induction over the parts.
-/
namespace Conform

theorem Magnitude.scale_pos : (0 : Int) < (Nat.pow 2 1074 : Nat) := by
  have positive : ∀ n, 0 < Nat.pow 2 n := fun _ => Nat.pow_pos Nat.two_pos
  exact Int.natCast_pos.mpr (positive 1074)

/-- Different integers lie at different places. -/
theorem Magnitude.beq_ofInt (n m : Int) :
    (some (Magnitude.ofInt n) == some (Magnitude.ofInt m)) = decide (n = m) := by
  rw [Option.some_beq_some, Bool.eq_iff_iff, beq_iff_eq, decide_eq_true_iff, Magnitude.ofInt,
    Magnitude.ofInt, Magnitude.at.injEq]
  exact Int.mul_eq_mul_right_iff (Int.ne_of_gt Magnitude.scale_pos)

namespace Value

def parts : Value → List Value
  | .list items | .tuple items | .set items | .frozenset items => items
  | .dict entries | .mapping entries => entries.flatMap fun entry => [entry.1, entry.2]
  | _ => []

theorem sizeOf_lt_of_mem_parts {x part : Value} (member : part ∈ x.parts) :
    sizeOf part < sizeOf x := by
  have ofItems : ∀ {items : List Value}, part ∈ items → sizeOf part < sizeOf items := fun inside =>
    List.sizeOf_lt_of_mem inside
  have ofEntries : ∀ {entries : List (Value × Value)},
      (part ∈ entries.flatMap fun entry => [entry.1, entry.2]) → sizeOf part < sizeOf entries := by
    intro entries inside
    obtain ⟨⟨key, item⟩, entry, either⟩ := List.mem_flatMap.mp inside
    have smaller := List.sizeOf_lt_of_mem entry
    simp only [Prod.mk.sizeOf_spec] at smaller
    rcases List.mem_cons.mp either with rfl | either
    · omega
    · cases List.mem_singleton.mp either
      simp only
      omega
  cases x with
  | list items | tuple items | set items | frozenset items =>
    have smaller : sizeOf part < sizeOf items := ofItems member
    simp only [list.sizeOf_spec, tuple.sizeOf_spec, set.sizeOf_spec, frozenset.sizeOf_spec]
    omega
  | dict entries | mapping entries =>
    have smaller : sizeOf part < sizeOf entries := ofEntries member
    simp only [dict.sizeOf_spec, mapping.sizeOf_spec]
    omega
  | _ => cases member

/-- What holds of a value whenever it holds of its parts holds of every value. -/
theorem byParts {motive : Value → Prop} (step : ∀ x, (∀ part ∈ x.parts, motive part) → motive x)
    (x : Value) : motive x :=
  step x fun part _ => byParts step part
termination_by sizeOf x
decreasing_by exact sizeOf_lt_of_mem_parts ‹_›

section Tables

variable {α : Type} (related : α → α → Bool)

/-- Each item of either list is related to one of the other. -/
def Cover (related : α → α → Prop) (xs ys : List α) : Prop :=
  (∀ x ∈ xs, ∃ y ∈ ys, related x y) ∧ ∀ y ∈ ys, ∃ x ∈ xs, related x y

theorem everyRow_table (xs ys : List α) :
    everyRow (xs.map fun x => ys.map (related x)) ↔ ∀ x ∈ xs, ∃ y ∈ ys, related x y := by
  simp [everyRow]

/-- The columns of a table, joined row by row to what they held before. -/
private theorem columns_table (xs ys : List α) (start : α → Bool) :
    (xs.map fun x => ys.map (related x)).foldl (List.zipWith (· || ·)) (ys.map start) =
      ys.map fun y => start y || xs.any (related · y) := by
  induction xs generalizing start with
  | nil => simp
  | cons x rest ih =>
    have joined : List.zipWith (· || ·) (ys.map start) (ys.map (related x)) =
        ys.map fun y => start y || related x y := by
      rw [List.zipWith_map, List.zipWith_self]
    rw [List.map_cons, List.foldl_cons, joined, ih]
    simp only [List.any_cons, Bool.or_assoc]

theorem everyColumn_table (xs ys : List α) :
    everyColumn ys.length (xs.map fun x => ys.map (related x)) ↔ ∀ y ∈ ys, ∃ x ∈ xs,
      related x y := by
  have empty : List.replicate ys.length false = ys.map fun _ => false := by
    rw [List.map_const']
  unfold everyColumn
  rw [empty, columns_table related xs ys]
  simp

theorem table_iff_cover (xs ys : List α) :
    (everyRow (xs.map fun x => ys.map (related x)) &&
        everyColumn ys.length (xs.map fun x => ys.map (related x))) ↔
      Cover (fun x y => related x y) xs ys := by
  rw [Bool.and_eq_true, everyRow_table, everyColumn_table]
  exact Iff.rfl

end Tables

theorem itemTable_eq_map (xs ys : List Value) : itemTable xs ys = xs.map fun x =>
    ys.map (equiv x) := by
  induction xs with
  | nil => rfl
  | cons x rest ih => rw [itemTable, ih, List.map_cons]

/-- Whether two entries are equivalent in their keys and in their values. -/
def equivEntry (first second : Value × Value) : Bool :=
  equiv first.1 second.1 && equiv first.2 second.2

theorem entryTable_eq_map (xs ys : List (Value × Value)) :
    entryTable xs ys = xs.map fun x => ys.map (equivEntry x) := by
  induction xs with
  | nil => rfl
  | cons x rest ih =>
    rw [entryTable, ih, List.map_cons]
    rfl

theorem equivEach_iff (xs ys : List Value) :
    equivEach xs ys ↔ List.Forall₂ (fun x y => equiv x y) xs ys := by
  induction xs generalizing ys with
  | nil => cases ys <;> simp [equivEach]
  | cons x rest ih => cases ys <;> simp [equivEach, ih]

/-- One level of equivalence, given how the parts are related. -/
inductive Alike (related : Value → Value → Prop) : Value → Value → Prop
  | same (x : Value) : Alike related x x
  | number {x y : Value} {place : Magnitude} (first : x.magnitude? = some place)
      (second : y.magnitude? = some place) : Alike related x y
  | list {xs ys : List Value} (each : List.Forall₂ related xs ys) :
      Alike related (.list xs) (.list ys)
  | tuple {xs ys : List Value} (each : List.Forall₂ related xs ys) :
      Alike related (.tuple xs) (.tuple ys)
  | elements {x y : Value} {xs ys : List Value} (first : x.elements? = some xs)
      (second : y.elements? = some ys) (cover : Cover related xs ys) : Alike related x y
  | entries {x y : Value} {xs ys : List (Value × Value)} (first : x.entries? = some xs)
      (second : y.entries? = some ys)
      (cover : Cover (fun x y => related x.1 y.1 ∧ related x.2 y.2) xs ys) : Alike related x y

theorem equiv_int (n : Int) (y : Value) :
    equiv (.int n) y = (y.magnitude? == some (.ofInt n)) := by
  cases y with
  | int m =>
    change (n == m) = (some (Magnitude.ofInt m) == some (Magnitude.ofInt n))
    rw [Magnitude.beq_ofInt, Bool.eq_iff_iff, beq_iff_eq, decide_eq_true_iff, eq_comm]
  | _ => rfl

/-- Every floating-point number but a not-a-number lies at a place. -/
theorem eq_nan_of_magnitude {f : Binary64} (unplaced : f.magnitude? = none) : ∃ tag,
    f = .nan tag := by
  cases f with
  | nan tag => exact ⟨tag, rfl⟩
  | finite => cases unplaced
  | infinite negative => cases negative <;> cases unplaced

/-- A number is equivalent to whatever lies at its place. -/
theorem equiv_of_magnitude {x y : Value} {place : Magnitude} (placed : x.magnitude? = some place) :
    equiv x y ↔ y.magnitude? = some place := by
  cases x with
  | bool b =>
    cases placed
    exact beq_iff_eq
  | int n =>
    cases placed
    rw [equiv_int]
    exact beq_iff_eq
  | float f =>
    have known : f.magnitude? = some place := placed
    have unfolded : equiv (.float f) y = (y.magnitude? == f.magnitude? && y.magnitude?.isSome) := by
      cases f with
      | nan tag => cases placed
      | finite | infinite => rfl
    rw [unfolded, known, Bool.and_eq_true, beq_iff_eq]
    constructor
    · rintro ⟨equal, -⟩
      exact equal
    · intro equal
      exact ⟨equal, by rw [equal]; rfl⟩
  | _ => cases placed

/-- Equal sequences are matched item by item. -/
theorem equiv_of_elements {x y : Value} {xs : List Value} (held : x.elements? = some xs) :
    equiv x y ↔ ∃ ys, y.elements? = some ys ∧ Cover (fun x y => equiv x y) xs ys := by
  cases other : y.elements? with
  | none => cases x <;> cases held <;> simp [equiv, other]
  | some ys =>
    have unfolded : equiv x y =
        (everyRow (itemTable xs ys) && everyColumn ys.length (itemTable xs ys)) := by
      cases x <;> cases held <;> simp only [equiv, other]
    rw [unfolded]
    simp only [itemTable_eq_map, Option.some.injEq, exists_eq_left']
    exact table_iff_cover equiv xs ys

/-- Equal dictionaries are matched entry by entry. -/
theorem equiv_of_entries {x y : Value} {xs : List (Value × Value)} (held : x.entries? = some xs) :
    equiv x y ↔ ∃ ys, y.entries? = some ys ∧
      Cover (fun x y => equiv x.1 y.1 ∧ equiv x.2 y.2) xs ys := by
  cases other : y.entries? with
  | none => cases x <;> cases held <;> simp [equiv, other]
  | some ys =>
    have unfolded : equiv x y =
        (everyRow (entryTable xs ys) && everyColumn ys.length (entryTable xs ys)) := by
      cases x <;> cases held <;> simp only [equiv, other]
    rw [unfolded]
    simp only [entryTable_eq_map, Option.some.injEq, exists_eq_left']
    have covered := table_iff_cover equivEntry xs ys
    simpa only [equivEntry, Bool.and_eq_true] using covered

/-- Equivalent values are alike, their parts being equivalent. -/
theorem alike_of_equiv {x y : Value} (equal : equiv x y) : Alike (fun x y => equiv x y) x y := by
  cases x with
  | null => cases y <;> first | exact .same _ | cases equal
  | missing => cases y <;> first | exact .same _ | cases equal
  | bool b =>
    have placed : (Value.bool b).magnitude? = some (.ofInt (if b then 1 else 0)) := rfl
    exact .number placed ((equiv_of_magnitude placed).mp equal)
  | int n =>
    have placed : (Value.int n).magnitude? = some (.ofInt n) := rfl
    exact .number placed ((equiv_of_magnitude placed).mp equal)
  | float f =>
    cases placed : f.magnitude? with
    | some place =>
      have first : (Value.float f).magnitude? = some place := placed
      exact .number first ((equiv_of_magnitude first).mp equal)
    | none =>
      obtain ⟨tag, rfl⟩ := eq_nan_of_magnitude placed
      cases y with
      | float g =>
        cases g with
        | nan other =>
          cases (beq_iff_eq (a := tag)).mp equal
          exact .same _
        | _ => cases equal
      | _ => cases equal
  | str s =>
    cases y with
    | str t =>
      cases (beq_iff_eq (a := s)).mp equal
      exact .same _
    | _ => cases equal
  | bytes bs =>
    cases y with
    | bytes cs =>
      cases (beq_iff_eq (a := bs)).mp equal
      exact .same _
    | _ => cases equal
  | list xs =>
    cases y with
    | list ys => exact .list ((equivEach_iff xs ys).mp equal)
    | _ => cases equal
  | tuple xs =>
    cases y with
    | tuple ys => exact .tuple ((equivEach_iff xs ys).mp equal)
    | _ => cases equal
  | set xs | frozenset xs =>
    obtain ⟨ys, held, cover⟩ := (equiv_of_elements rfl).mp equal
    exact .elements rfl held cover
  | dict xs | mapping xs =>
    obtain ⟨ys, held, cover⟩ := (equiv_of_entries rfl).mp equal
    exact .entries rfl held cover
  | object cls i =>
    cases y with
    | object other j =>
      have both : cls = other ∧ i = j := by simpa [equiv] using equal
      obtain ⟨rfl, rfl⟩ := both
      exact .same _
    | _ => cases equal

/-- Every value is equal to itself. -/
theorem equiv_refl (x : Value) : equiv x x := by
  induction x using byParts with
  | step x ih =>
    have entry : ∀ {entries : List (Value × Value)},
        (∀ part ∈ entries.flatMap fun entry => [entry.1, entry.2], equiv part part) →
          ∀ entry ∈ entries, equiv entry.1 entry.1 ∧ equiv entry.2 entry.2 := by
      intro entries ih entry inside
      have key := ih entry.1 (List.mem_flatMap.mpr ⟨entry, inside, by simp⟩)
      have item := ih entry.2 (List.mem_flatMap.mpr ⟨entry, inside, by simp⟩)
      exact ⟨key, item⟩
    cases x with
    | null | missing => rfl
    | bool b => exact (equiv_of_magnitude rfl).mpr rfl
    | int n => exact (equiv_of_magnitude rfl).mpr rfl
    | float f =>
      cases placed : f.magnitude? with
      | some place =>
        have located : (Value.float f).magnitude? = some place := placed
        exact (equiv_of_magnitude located).mpr placed
      | none =>
        obtain ⟨tag, rfl⟩ := eq_nan_of_magnitude placed
        exact beq_self_eq_true tag
    | str s => exact beq_self_eq_true s
    | bytes bs => exact beq_self_eq_true bs
    | list xs => exact (equivEach_iff xs xs).mpr (List.forall₂_same.mpr ih)
    | tuple xs => exact (equivEach_iff xs xs).mpr (List.forall₂_same.mpr ih)
    | set xs | frozenset xs =>
      have cover : Cover (fun x y => equiv x y) xs xs :=
        ⟨fun x inside => ⟨x, inside, ih x inside⟩, fun x inside => ⟨x, inside, ih x inside⟩⟩
      exact (equiv_of_elements rfl).mpr ⟨xs, rfl, cover⟩
    | dict xs | mapping xs =>
      have cover : Cover (fun x y => equiv x.1 y.1 ∧ equiv x.2 y.2) xs xs :=
        ⟨fun x inside => ⟨x, inside, entry ih x inside⟩, fun x inside =>
          ⟨x, inside, entry ih x inside⟩⟩
      exact (equiv_of_entries rfl).mpr ⟨xs, rfl, cover⟩
    | object cls i => simp [equiv]

/-- Values that are alike, with equivalent parts, are equivalent. -/
theorem equiv_iff_alike {x y : Value} : equiv x y ↔ Alike (fun x y => equiv x y) x y := by
  constructor
  · exact alike_of_equiv
  · intro alike
    cases alike with
    | same => exact equiv_refl x
    | number first second => exact (equiv_of_magnitude first).mpr second
    | list each => exact (equivEach_iff _ _).mpr each
    | tuple each => exact (equivEach_iff _ _).mpr each
    | elements first second cover => exact (equiv_of_elements first).mpr ⟨_, second, cover⟩
    | entries first second cover => exact (equiv_of_entries first).mpr ⟨_, second, cover⟩

/-- Items that correspond both ways. -/
private theorem Cover.flip {α : Type} {first second : α → α → Prop} {xs ys : List α}
    (cover : Cover first xs ys) (turn : ∀ x ∈ xs, ∀ y, first x y → second y x) :
      Cover second ys xs := by
  constructor
  · intro y inside
    obtain ⟨x, member, related⟩ := cover.2 y inside
    exact ⟨x, member, turn x member y related⟩
  · intro x inside
    obtain ⟨y, member, related⟩ := cover.1 x inside
    exact ⟨y, member, turn x inside y related⟩

/-- Rows that cover each other one behind the other cover each other. -/
private theorem Cover.trans {α : Type} {first second third : α → α → Prop} {xs ys zs : List α}
    (left : Cover first xs ys) (right : Cover second ys zs)
    (join : ∀ x ∈ xs, ∀ y z, first x y → second y z → third x z) : Cover third xs zs := by
  constructor
  · intro x inside
    obtain ⟨y, between, related⟩ := left.1 x inside
    obtain ⟨z, member, further⟩ := right.1 y between
    exact ⟨z, member, join x inside y z related further⟩
  · intro z inside
    obtain ⟨y, between, further⟩ := right.2 z inside
    obtain ⟨x, member, related⟩ := left.2 y between
    exact ⟨x, member, join x member y z related further⟩

theorem mem_parts_of_elements {x part : Value} {items : List Value}
    (held : x.elements? = some items) (inside : part ∈ items) : part ∈ x.parts := by
  cases x <;> cases held <;> exact inside

theorem mem_parts_of_entries {x : Value} {entries : List (Value × Value)} {entry : Value × Value}
    (held : x.entries? = some entries) (inside : entry ∈ entries) :
    entry.1 ∈ x.parts ∧ entry.2 ∈ x.parts := by
  have both : ∀ part ∈ [entry.1, entry.2], part ∈ entries.flatMap fun entry => [entry.1, entry.2] :=
    fun part either => List.mem_flatMap.mpr ⟨entry, inside, either⟩
  cases x <;> cases held <;>
    exact ⟨both entry.1 (List.mem_cons_self ..), both entry.2 (by simp)⟩

private theorem turned {xs ys : List Value} (each : List.Forall₂ (fun x y => equiv x y) xs ys)
    (turn : ∀ x ∈ xs, ∀ {y}, equiv x y → equiv y x) :
      List.Forall₂ (fun x y => equiv x y) ys xs := by
  induction each with
  | nil => exact .nil
  | cons first rest ih =>
    have later := ih fun x inside => turn x (List.mem_cons_of_mem _ inside)
    exact .cons (turn _ (List.mem_cons_self ..) first) later

private theorem joined {xs ys zs : List Value} (left : List.Forall₂ (fun x y => equiv x y) xs ys)
    (right : List.Forall₂ (fun x y => equiv x y) ys zs)
    (join : ∀ x ∈ xs, ∀ {y z}, equiv x y → equiv y z → equiv x z) :
    List.Forall₂ (fun x y => equiv x y) xs zs := by
  induction left generalizing zs with
  | nil => exact right
  | cons first rest ih =>
    cases right with
    | cons second further =>
      have later := ih further fun x inside => join x (List.mem_cons_of_mem _ inside)
      exact .cons (join _ (List.mem_cons_self ..) first second) later

/-- Equality of values is symmetric. -/
theorem equiv_symm {x y : Value} (equal : equiv x y) : equiv y x := by
  induction x using byParts generalizing y with
  | step x ih =>
    rw [equiv_iff_alike]
    cases alike_of_equiv equal with
    | same => exact .same x
    | number first second => exact .number second first
    | list each => exact .list (turned each ih)
    | tuple each => exact .tuple (turned each ih)
    | elements first second cover =>
      exact .elements second first
        (cover.flip fun part inside _ => ih part (mem_parts_of_elements first inside))
    | entries first second cover =>
      refine .entries second first (cover.flip ?_)
      rintro entry inside other ⟨key, item⟩
      have parts := mem_parts_of_entries first inside
      exact ⟨ih entry.1 parts.1 key, ih entry.2 parts.2 item⟩

/-- Equality of values is transitive. -/
theorem equiv_trans {x y z : Value} (left : equiv x y) (right : equiv y z) : equiv x z := by
  induction x using byParts generalizing y z with
  | step x ih =>
    cases alike_of_equiv left with
    | same => exact right
    | number first second =>
      have placed := (equiv_of_magnitude second).mp right
      exact (equiv_of_magnitude first).mpr placed
    | @list xs ys each =>
      cases z with
      | list zs =>
        have further := (equivEach_iff ys zs).mp right
        exact (equivEach_iff xs zs).mpr (joined each further ih)
      | _ => cases right
    | @tuple xs ys each =>
      cases z with
      | tuple zs =>
        have further := (equivEach_iff ys zs).mp right
        exact (equivEach_iff xs zs).mpr (joined each further ih)
      | _ => cases right
    | elements first second cover =>
      obtain ⟨zs, held, further⟩ := (equiv_of_elements second).mp right
      have whole := cover.trans further fun part inside _ _ =>
        ih part (mem_parts_of_elements first inside)
      exact (equiv_of_elements first).mpr ⟨zs, held, whole⟩
    | entries first second cover =>
      obtain ⟨zs, held, further⟩ := (equiv_of_entries second).mp right
      refine (equiv_of_entries first).mpr ⟨zs, held, cover.trans further ?_⟩
      rintro entry inside between other ⟨key, item⟩ ⟨further, later⟩
      have parts := mem_parts_of_entries first inside
      exact ⟨ih entry.1 parts.1 key further, ih entry.2 parts.2 item later⟩

instance : EquivBEq Value where
  rfl := equiv_refl _
  symm := equiv_symm
  trans := equiv_trans

theorem equiv_of_sameAs {x y : Value} (same : x.sameAs y) : equiv x y := by
  obtain ⟨equal, -⟩ := Bool.and_eq_true_iff.mp same
  unfold Value.eq at equal
  split at equal
  · cases equal
  · exact equal

theorem sameAs_iff {x y : Value} :
    x.sameAs y ↔ (∀ tag, x ≠ .float (.nan tag)) ∧ x.equiv y ∧ x.typeName = y.typeName := by
  have equal : x.eq y ↔ (∀ tag, x ≠ .float (.nan tag)) ∧ x.equiv y := by
    unfold Value.eq
    split
    · next tag => simp
    · next proper => exact ⟨fun equal => ⟨proper, equal⟩, And.right⟩
  rw [sameAs, Bool.and_eq_true, equal, beq_iff_eq, and_assoc]

/-- A value that is equivalent to one that is no not-a-number is none either. -/
theorem proper_of_equiv {x y : Value} (equal : x.equiv y) (proper : ∀ tag, x ≠ .float (.nan tag)) :
    ∀ tag, y ≠ .float (.nan tag) := by
  rintro tag rfl
  cases alike_of_equiv equal with
  | same => exact proper tag rfl
  | number first second => cases second
  | elements first second => cases second
  | entries first second => cases second

/-- A value that equals two others makes them equal. -/
theorem sameAs_of_sameAs {x y value : Value} (one : x.sameAs y) (two : x.sameAs value) :
    y.sameAs value := by
  obtain ⟨proper, equal, named⟩ := sameAs_iff.mp one
  obtain ⟨-, further, called⟩ := sameAs_iff.mp two
  exact sameAs_iff.mpr ⟨proper_of_equiv equal proper, equiv_trans (equiv_symm equal) further,
    named.symm.trans called⟩

theorem isStr_iff {x : Value} : x.isStr ↔ ∃ text, x = .str text := by
  cases x <;> simp [isStr]

/-- Only the text itself is equivalent to a text. -/
theorem eq_str_of_beq {x : Value} {s : String} (equal : (x == .str s) = true) : x = .str s := by
  cases alike_of_equiv (equiv_symm equal) with
  | same => rfl
  | number first => cases first
  | elements first => cases first
  | entries first => cases first

theorem beq_str (s t : String) : (Value.str s == Value.str t) = (s == t) := rfl

/-- What is absent is equivalent to nothing else. -/
theorem eq_missing_of_equiv {x : Value} (equal : equiv x .missing) : x = .missing := by
  cases alike_of_equiv (equiv_symm equal) with
  | same => rfl
  | number first => cases first
  | elements first => cases first
  | entries first => cases first

end Value

end Conform
