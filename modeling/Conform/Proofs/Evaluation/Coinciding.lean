import Conform.Proofs.Evaluation.Endings

/-!
Computations that coincide. One ends in a given world as the other does in every world; both leave
the world as it is and stay clear of the recursion limit. This is what is left to say of a
computation that looks lazy schemas up in a world where they are built, beside one that has no need
to.
-/
namespace Conform

namespace Checked

variable {α β : Type} {property : α → Prop} {further : β → Prop} {world : World}

/-- The first computation ends in the world as the second does in every world. Both leave the world
as it is, do not go too deep, and return nothing without the property. -/
def Coincide (property : α → Prop) (world : World) (first second : Checked α) : Prop :=
  ∃ answer, first.ending world = (answer, world) ∧
    (∀ reached, second.ending reached = (answer, reached)) ∧
    answer ≠ .error (.misuse .tooDeep) ∧ ∀ value, answer = .ok (.ok value) → property value

theorem coincide_pure {value : α} (holds : property value) :
    Coincide property world (pure value) (pure value) := by
  refine ⟨.ok (.ok value), rfl, fun _ => rfl, nofun, ?_⟩
  rintro given ⟨⟩
  exact holds

theorem coincide_reject (failure : Failure) :
    Coincide property world (reject failure) (reject failure) :=
  ⟨.ok (.error failure), rfl, fun _ => rfl, nofun, nofun⟩

theorem coincide_misuse {cause : Misuse} (bounded : cause ≠ .tooDeep) :
    Coincide property world (misuse cause) (misuse cause) := by
  refine ⟨.error (.misuse cause), rfl, fun _ => rfl, ?_, nofun⟩
  rintro ⟨⟩
  exact bounded rfl

variable {first second : Checked α}

/-- Computations coincide in sequence when they coincide first and the rest does on what was
returned. -/
theorem Coincide.bind {next later : α → Checked β} (coincide : first.Coincide property world second)
    (rest : ∀ value, property value → (next value).Coincide further world (later value)) :
    (first >>= next).Coincide further world (second >>= later) := by
  obtain ⟨answer, here, everywhere, bounded, holds⟩ := coincide
  rcases answer with fault | failure | value
  · refine ⟨.error fault, by rw [ending_bind, here], fun reached => ?_, ?_, nofun⟩
    · rw [ending_bind, everywhere reached]
    · rintro ⟨⟩
      exact bounded rfl
  · refine ⟨.ok (.error failure), by rw [ending_bind, here], fun reached => ?_, nofun, nofun⟩
    rw [ending_bind, everywhere reached]
  · obtain ⟨last, there, always, still, has⟩ := rest value (holds value rfl)
    refine ⟨last, by rw [ending_bind, here]; exact there, fun reached => ?_, still, has⟩
    rw [ending_bind, everywhere reached]
    exact always reached

/-- Computations coincide where what follows a success does and what follows a failure does. -/
theorem Coincide.attempt_bind {next later : Except Failure α → Checked β}
    (coincide : first.Coincide property world second)
    (success : ∀ value, property value →
      (next (.ok value)).Coincide further world (later (.ok value)))
    (refusal : ∀ failure, (next (.error failure)).Coincide further world (later (.error failure))) :
    (attempt first >>= next).Coincide further world (attempt second >>= later) := by
  have attempted : (attempt first).Coincide (fun result => ∀ value, result = .ok value →
      property value)
        world (attempt second) := by
    obtain ⟨answer, here, everywhere, bounded, holds⟩ := coincide
    rcases answer with fault | result
    · refine ⟨.error fault, by rw [ending_attempt, here], fun reached => ?_, ?_, nofun⟩
      · rw [ending_attempt, everywhere reached]
      · rintro ⟨⟩
        exact bounded rfl
    · refine ⟨.ok (.ok result), by rw [ending_attempt, here], fun reached => ?_, nofun, ?_⟩
      · rw [ending_attempt, everywhere reached]
      · rintro given ⟨⟩ value rfl
        exact holds value rfl
  refine attempted.bind fun result holds => ?_
  cases result with
  | ok value => exact success value (holds value rfl)
  | error failure => exact refusal failure

theorem coincide_report (worded : Option Failure) :
    Coincide property world (report worded) (report worded) := by
  cases worded with
  | some failure => exact coincide_reject failure
  | none => exact coincide_misuse nofun

theorem Coincide.reword (coincide : first.Coincide property world second)
    (wording : Failure → Option Failure) :
    (reword wording first).Coincide property world (reword wording second) :=
  coincide.attempt_bind (fun _ holds => coincide_pure holds) fun _ => coincide_report _

theorem Coincide.within (coincide : first.Coincide property world second) (place : Place) :
    (within place first).Coincide property world (Checked.within place second) :=
  coincide.reword _

end Checked

end Conform
