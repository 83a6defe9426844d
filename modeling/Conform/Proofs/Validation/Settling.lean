import Conform.Proofs.Evaluation.Steady
import Conform.Proofs.Value.Entries
import Conform.Proofs.Value.Equivalence

/-!
Forms that settle: what they give is accepted again and given back. Besides that it is kept track of
what absent fields and dictionaries become, since a wrapper looks at its input or output for these.
Each construction settles when its parts do.
-/
namespace Conform

theorem Value.isMissing_iff {x : Value} : x.isMissing ↔ x = .missing := by
  cases x <;> simp [isMissing]

namespace SafeForm

open Checked

/-- The form is steady and gives its outputs back; it gives what is absent for nothing else, and
dictionaries for dictionaries. -/
structure Settles (form : SafeForm) : Prop where
  steady : ∀ x, (form x).Steady
  again : ∀ {x y : Value}, (form x).Gives y → (form y).Gives y
  missing : ∀ {x : Value}, (form x).Gives .missing → x = .missing
  mapping : ∀ {x y : Value}, (form x).Gives y → x.entries?.isSome → y.entries?.isSome

variable {form inner : SafeForm}

/-- What is put together from steady forms is steady. -/
theorem steady_of_composed {α : Type} {computation : Checked α}
    (composed : computation.Composed Piece.Pure Checked.Steady) : computation.Steady :=
  composed.steady fun _ steady => steady

theorem Settles.composed (settles : form.Settles) :
    Composed Piece.Pure Checked.Steady form := fun x =>
  .part (settles.steady x)

/-- A form that gives lists for lists and tuples only settles when it gives its outputs back. -/
theorem settles_of_lists (steady : ∀ x, (form x).Steady)
    (again : ∀ {x y : Value}, (form x).Gives y → (form y).Gives y)
    (lists : ∀ {x y : Value}, (form x).Gives y → x.items?.isSome ∧ ∃ ys, .list ys = y) :
      form.Settles where
  steady := steady
  again := again
  missing gives := by
    obtain ⟨-, ys, impossible⟩ := lists gives
    cases impossible
  mapping {x y} gives mapping := by
    obtain ⟨sequence, -⟩ := lists gives
    have noMapping : x.entries?.isSome = false := by cases x <;> first | rfl | cases sequence
    rw [noMapping] at mapping
    cases mapping

/-- A form that gives dictionaries only settles when it gives its outputs back. -/
theorem settles_of_dictionaries (steady : ∀ x, (form x).Steady)
    (again : ∀ {x y : Value}, (form x).Gives y → (form y).Gives y)
    (dictionaries : ∀ {x y : Value}, (form x).Gives y → ∃ out, .dict out = y) : form.Settles where
  steady := steady
  again := again
  missing gives := by
    obtain ⟨out, impossible⟩ := dictionaries gives
    cases impossible
  mapping gives _ := by
    obtain ⟨out, rfl⟩ := dictionaries gives
    rfl

section Tests

/-- A steady form that lets values through unchanged settles. -/
theorem settles_of_same (steady : ∀ x, (form x).Steady)
    (same : ∀ {x y : Value}, (form x).Gives y → x = y) : form.Settles where
  steady := steady
  again gives := by
    cases same gives
    exact gives
  missing gives := same gives
  mapping gives mapping := by
    cases same gives
    exact mapping

theorem settles_provided (condition : Value → Bool) (failure : Failure) :
    Settles fun x => provided (condition x) failure x :=
  settles_of_same (fun _ => steady_of_composed (composed_provided ..)) fun gives =>
    (gives_provided.mp gives).2

theorem gives_check {test : Check} {message : String} (pure : ∀ piece ∈ test.pieces, piece.Pure)
    {x y : Value} : (check test message x).Gives y → x = y := by
  intro gives
  have steady := steady_guarded (Traced.calls_answer pure x).steady (.str message)
  obtain ⟨passed, -, provided⟩ := steady.gives_bind.mp gives
  exact (gives_provided.mp provided).2

theorem settles_check {test : Check} (pure : ∀ piece ∈ test.pieces, piece.Pure) (message : String) :
    Settles (check test message) :=
  settles_of_same (fun x => steady_of_composed (composed_check pure message x)) (gives_check pure)

theorem settles_literal (value : Value) : Settles (literal value) where
  steady _ := steady_of_composed (composed_provided ..)
  again gives := by
    obtain ⟨same, rfl⟩ := gives_provided.mp gives
    exact gives_provided.mpr ⟨Value.sameAs_of_sameAs same same, rfl⟩
  missing gives := by
    obtain ⟨same, rfl⟩ := gives_provided.mp gives
    exact Value.eq_missing_of_equiv (Value.equiv_of_sameAs same)
  mapping gives mapping := by
    obtain ⟨same, rfl⟩ := gives_provided.mp gives
    obtain ⟨entries, held⟩ := Option.isSome_iff_exists.mp mapping
    obtain ⟨others, found, -⟩ := (Value.equiv_of_entries held).mp (Value.equiv_of_sameAs same)
    rw [found]
    rfl

end Tests

section Wrapped

variable (settles : inner.Settles)
include settles

theorem settles_accepting (absence : Absence) : Settles (accepting absence inner) where
  steady x := steady_of_composed (composed_accepting settles.composed absence x)
  again {x y} gives := by
    unfold accepting at gives ⊢
    split at gives
    · rename_i covered
      cases gives_pure.mp gives
      rw [if_pos covered]
      exact gives
    · split
      · exact gives_pure.mpr rfl
      · exact settles.again gives
  missing {x} gives := by
    unfold accepting at gives
    split at gives
    · exact gives_pure.mp gives
    · exact settles.missing gives
  mapping {x y} gives mapping := by
    unfold accepting at gives
    split at gives
    · cases gives_pure.mp gives
      exact mapping
    · exact settles.mapping gives mapping

/-- A default settles when the wrapped form gives it back. -/
theorem settles_withDefault {value : Value} (kept : (inner value).Gives value) :
    Settles (withDefault inner value) where
  steady x := steady_of_composed (composed_withDefault settles.composed value x)
  again {x y} gives := by
    unfold withDefault at gives ⊢
    split at gives
    · cases gives_pure.mp gives
      split
      · exact gives
      · exact kept
    · rename_i present
      have given : ¬y.isMissing := by
        intro absent
        cases Value.isMissing_iff.mp absent
        exact present (Value.isMissing_iff.mpr (settles.missing gives))
      rw [if_neg given]
      exact settles.again gives
  missing {x} gives := by
    unfold withDefault at gives
    split at gives
    · rename_i absent
      exact Value.isMissing_iff.mp absent
    · exact settles.missing gives
  mapping {x y} gives mapping := by
    unfold withDefault at gives
    split at gives
    · rename_i absent
      cases Value.isMissing_iff.mp absent
      cases mapping
    · exact settles.mapping gives mapping

theorem gives_rejecting {absence : Absence} {x y : Value} :
    (rejecting absence inner x).Gives y ↔ (inner x).Gives y ∧ absence.covers y = false := by
  unfold rejecting
  rw [(settles.steady x).gives_bind]
  simp only [gives_provided, Bool.not_eq_true']
  constructor
  · rintro ⟨given, first, present, rfl⟩
    exact ⟨first, present⟩
  · rintro ⟨first, present⟩
    exact ⟨y, first, present, rfl⟩

theorem settles_rejecting (absence : Absence) : Settles (rejecting absence inner) where
  steady x := steady_of_composed (composed_rejecting settles.composed absence x)
  again gives := by
    obtain ⟨first, present⟩ := (gives_rejecting settles).mp gives
    exact (gives_rejecting settles).mpr ⟨settles.again first, present⟩
  missing gives := settles.missing ((gives_rejecting settles).mp gives).1
  mapping gives := settles.mapping ((gives_rejecting settles).mp gives).1

/-- A further test lets through what it answers yes to. -/
theorem gives_refine {test : Callable} {message : String} (pure : test.Pure) {x y : Value} :
    (refine inner test message x).Gives y ↔ (inner x).Gives y ∧
      ∃ result, (guarded (.str message) (test.run y)).Gives result ∧ result.truthy := by
  unfold refine
  rw [(settles.steady x).gives_bind]
  constructor
  · rintro ⟨given, first, rest⟩
    obtain ⟨result, answered, provided⟩ := (steady_guarded (pure given) _).gives_bind.mp rest
    obtain ⟨passed, rfl⟩ := gives_provided.mp provided
    exact ⟨first, result, answered, passed⟩
  · rintro ⟨first, result, answered, passed⟩
    refine ⟨y, first, (steady_guarded (pure y) _).gives_bind.mpr ⟨result, answered, ?_⟩⟩
    exact gives_provided.mpr ⟨passed, rfl⟩

theorem settles_refine {test : Callable} (pure : test.Pure) (message : String) :
    Settles (refine inner test message) where
  steady x := steady_of_composed (composed_refine settles.composed pure message x)
  again gives := by
    obtain ⟨first, passed⟩ := (gives_refine settles pure).mp gives
    exact (gives_refine settles pure).mpr ⟨settles.again first, passed⟩
  missing gives := settles.missing ((gives_refine settles pure).mp gives).1
  mapping gives := settles.mapping ((gives_refine settles pure).mp gives).1

/-- Tests after the first step let its output through or refuse it. -/
theorem gives_pipe {tests : List SafeForm} (steady : ∀ test ∈ tests, test.Settles)
    (same : ∀ test ∈ tests, ∀ {x y : Value}, (test x).Gives y → x = y) {x y : Value} :
    (pipe (inner :: tests) x).Gives y ↔ (inner x).Gives y ∧ ∀ test ∈ tests, (test y).Gives y := by
  have tested : ∀ {x y : Value}, (pipe tests x).Gives y ↔ x = y ∧ ∀ test ∈ tests,
      (test y).Gives y := by
    induction tests with
    | nil => exact fun {x y} => gives_pure.trans (by simp)
    | cons test rest ih =>
      obtain ⟨first, others⟩ := List.forall_mem_cons.mp steady
      obtain ⟨unchanged, further⟩ := List.forall_mem_cons.mp same
      intro x y
      unfold pipe
      rw [(first.steady x).gives_bind]
      constructor
      · rintro ⟨given, passed, rest⟩
        cases unchanged passed
        obtain ⟨rfl, later⟩ := (ih others further).mp rest
        exact ⟨rfl, List.forall_mem_cons.mpr ⟨passed, later⟩⟩
      · rintro ⟨rfl, passed⟩
        obtain ⟨now, later⟩ := List.forall_mem_cons.mp passed
        exact ⟨x, now, (ih others further).mpr ⟨rfl, later⟩⟩
  unfold pipe
  rw [(settles.steady x).gives_bind]
  constructor
  · rintro ⟨given, first, rest⟩
    obtain ⟨rfl, passed⟩ := tested.mp rest
    exact ⟨first, passed⟩
  · rintro ⟨first, passed⟩
    exact ⟨y, first, tested.mpr ⟨rfl, passed⟩⟩

/-- Steps settle if the first does and the later ones give what they are given. -/
theorem settles_pipe {tests : List SafeForm} (steady : ∀ test ∈ tests, test.Settles)
    (same : ∀ test ∈ tests, ∀ {x y : Value}, (test x).Gives y → x = y) :
    Settles (pipe (inner :: tests)) where
  steady x := by
    have composed : ∀ form ∈ inner :: tests, Composed Piece.Pure Checked.Steady form :=
      List.forall_mem_cons.mpr ⟨settles.composed, fun test inside => (steady test inside).composed⟩
    exact steady_of_composed (composed_pipe composed x)
  again gives := by
    obtain ⟨first, passed⟩ := (gives_pipe settles steady same).mp gives
    exact (gives_pipe settles steady same).mpr ⟨settles.again first, passed⟩
  missing gives := settles.missing ((gives_pipe settles steady same).mp gives).1
  mapping gives := settles.mapping ((gives_pipe settles steady same).mp gives).1

/-- A lenient form gives what the wrapped form gives, or a dictionary that it refuses. -/
theorem gives_lenient {x y : Value} :
    (lenient inner x).Gives y ↔
      x.entries?.isSome ∧ ((inner x).Gives y ∨ (inner x).Fails ∧ x = y) := by
  unfold lenient
  rw [gives_entriesOf_bind, Option.isSome_iff_exists, exists_and_right]
  refine and_congr_right fun _ => ?_
  unfold recovering
  constructor
  · intro gives
    rcases returns_attempt_bind.mp (gives (World.initial "")) with
      ⟨given, between, first, rest⟩ | ⟨failure, between, refused, rest⟩
    · cases (returns_pure.mp rest).1
      exact .inl ((settles.steady x).returns_iff.mp first).1
    · cases (returns_pure.mp rest).1
      exact .inr ⟨(settles.steady x).fails_of_reports refused, rfl⟩
  · rintro (gives | ⟨⟨failure, refuses⟩, rfl⟩) world
    · exact returns_attempt_bind.mpr (.inl ⟨y, world, gives world, returns_pure.mpr ⟨rfl, rfl⟩⟩)
    · exact returns_attempt_bind.mpr
        (.inr ⟨failure, world, refuses world, returns_pure.mpr ⟨rfl, rfl⟩⟩)

theorem settles_lenient : Settles (lenient inner) where
  steady x := steady_of_composed (composed_lenient settles.composed x)
  again gives := by
    obtain ⟨mapping, given | ⟨refused, rfl⟩⟩ := (gives_lenient settles).mp gives
    · exact (gives_lenient settles).mpr ⟨settles.mapping given mapping, .inl (settles.again given)⟩
    · exact gives
  missing gives := by
    obtain ⟨mapping, given | ⟨refused, rfl⟩⟩ := (gives_lenient settles).mp gives
    · exact settles.missing given
    · rfl
  mapping gives mapping := by
    obtain ⟨-, given | ⟨refused, rfl⟩⟩ := (gives_lenient settles).mp gives
    · exact settles.mapping given mapping
    · exact mapping

/-- Required fields give what the inner form gives, unless a declared field is absent. -/
theorem gives_required {declared : List Value} {x y : Value} :
    (required declared inner x).Gives y ↔ x.entries?.isSome ∧ (inner x).Gives y ∧
      ∃ out, y.entries? = some out ∧ firstAbsent? declared out = none := by
  unfold required
  rw [gives_entriesOf_bind, Option.isSome_iff_exists, exists_and_right]
  refine and_congr_right fun _ => ?_
  rw [(settles.steady x).gives_bind]
  constructor
  · rintro ⟨given, first, rest⟩
    obtain ⟨out, held, rest⟩ := gives_entriesOf_bind.mp rest
    cases absent : firstAbsent? declared out with
    | some key =>
      rw [absent] at rest
      exact absurd (rest (World.initial "")) returns_report
    | none =>
      rw [absent] at rest
      cases gives_pure.mp rest
      exact ⟨first, out, held, absent⟩
  · rintro ⟨first, out, held, absent⟩
    refine ⟨y, first, gives_entriesOf_bind.mpr ⟨out, held, ?_⟩⟩
    rw [absent]
    exact gives_pure.mpr rfl

theorem settles_required (declared : List Value) : Settles (required declared inner) where
  steady x := steady_of_composed (composed_required settles.composed declared x)
  again gives := by
    obtain ⟨-, first, out, held, absent⟩ := (gives_required settles).mp gives
    have mapping : Option.isSome _ := Option.isSome_iff_exists.mpr ⟨out, held⟩
    exact (gives_required settles).mpr ⟨mapping, settles.again first, out, held, absent⟩
  missing gives := settles.missing ((gives_required settles).mp gives).2.1
  mapping gives := settles.mapping ((gives_required settles).mp gives).2.1

end Wrapped

end SafeForm

end Conform
