import Conform.Proofs.Validation.Jams

/-!
When a safe form ends in a fault after all: exactly when its evaluation comes to a rule that jams,
to a lazy rule that cannot be built, or to lazy rules too deep inside one another
(`Validator.safe_faults_iff_breaksOff`). Nothing recovers from that. Over callbacks that raise
ordinary faults only, and lazy schemas that can be built, what breaks an evaluation off is one of
few misuses.
-/
namespace Conform

/-- Callbacks do not ask to leave the program, and none reports its failures as results. -/
def Piece.Ordinary : Piece → Prop
  | .callback function | .renderer function => ∀ x trace kind text after,
    ¬(function.run x).Faults trace (.leaving kind text) after
  | .reporter _ | .pair _ _ => False
  | .message _ => True

/-- What outputs and messages are put together with can go wrong in these ways only: a value cannot
be a key or an item of a set, is no dictionary, or cannot be written, and lazy rules can lie too
deep. -/
def Misuse.IsInternal : Misuse → Prop
  | .unhashable _ | .notMapping _ | .unwritableInteger | .tooDeep => True
  | _ => False

namespace Law

/-- Nothing worse than a misuse is raised. -/
def orderly : Law where
  world := fun _ => True
  message := fun _ => True
  failure := fun _ => True
  fault := fun fault => ∃ cause, fault = .misuse cause

/-- Where nothing worse than a misuse is raised, ordinary pieces are allowed. -/
theorem orderly_allows {piece : Piece} (ordinary : piece.Ordinary) : orderly.Allows piece := by
  have handles : ∀ fault, (∀ kind text, fault ≠ .leaving kind text) → orderly.Handles fault := by
    intro fault stays default _
    cases caught : fault.caught? default with
    | some failure => trivial
    | none =>
      rcases (Fault.uncaught_of_caught? caught).passed_eq with ⟨kind, text, leaves⟩ | passed
      · exact absurd leaves (stays kind text)
      · exact ⟨_, passed⟩
  cases piece with
  | callback function =>
    intro x trace fault after faulted
    refine handles fault ?_
    rintro kind text rfl
    exact ordinary x trace kind text after faulted
  | renderer render =>
    refine ⟨?_, fun _ _ _ _ _ => trivial⟩
    intro x trace fault after faulted
    refine handles fault ?_
    rintro kind text rfl
    exact ordinary x trace kind text after faulted
  | reporter | pair => exact ordinary.elim
  | message => trivial

/-- Evaluation raises nothing worse than a misuse of its own accord. -/
theorem orderly_eager : orderly.Eager where
  traced _ _ := trivial
  text _ := trivial
  line _ := trivial
  misuse cause := ⟨cause, rfl⟩
  plain _ := trivial
  expecting _ _ := trivial
  said _ := trivial
  crossed _ _ := trivial
  reported _ _ _ := trivial
  within _ _ _ := trivial
  below _ _ := trivial

end Law

namespace Rule

open Checked SafeForm

variable {world after : World} {fault : Fault}

section Ordinary

variable {onLazy : Nat → SafeForm} {rule : Rule} {x : Value} {kind : ExitKind} {text : String}

/-- A rule without parts is lawful where its callbacks are. -/
private theorem not_errs_alone (supplied : rule.SuppliedBy Piece.Ordinary) (alone : rule.parts = [])
    (evident : ∀ id, rule ≠ .lazy id) : ¬rule.Errs onLazy x world (.leaving kind text) after := by
  intro errs
  have allowed : rule.SuppliedBy Law.orderly.Allows :=
    fun piece member => Law.orderly_allows (supplied piece member)
  have lawful : Lawful Law.orderly (rule.safe onLazy) := by
    refine lawful_of_parts Law.orderly_eager allowed (fun id same => absurd same (evident id)) ?_ ?_
    · rintro key value rfl
      cases alone
    · rw [alone]
      exact nofun
  have faulted := errs.faults fun _ => rfl
  obtain ⟨-, cause, raised⟩ := (lawful x world trivial).2.2 _ _ faulted
  cases raised

/-- Ordinary callbacks do not ask to leave, and neither does a rule that is made of them. -/
theorem not_errs_leaving (supplied : rule.SuppliedBy Piece.Ordinary) :
    ¬rule.Errs onLazy x world (.leaving kind text) after := by
  intro errs
  have again := errs
  cases errs with
  | refine _ ran | transform _ ran | preprocess ran =>
    have ordinary : Piece.Ordinary (.callback _) := (List.forall_mem_cons.mp supplied).1
    exact ordinary _ _ _ _ _ ran
  | retitle _ ran =>
    have ordinary : Piece.Ordinary (.renderer _) :=
      (List.forall_mem_append.mp supplied).1 _ (List.mem_singleton.mpr rfl)
    exact ordinary _ _ _ _ _ ran
  | check | plain | convert | tryConvert | rawCheck | rawConvert | crossCheck | items =>
    exact not_errs_alone supplied rfl nofun again

/-- Over ordinary callbacks a rule jams over what it puts together only. -/
theorem Jams.internal (supplied : rule.SuppliedBy Piece.Ordinary)
    (jams : rule.Jams onLazy x world fault after) :
    ∃ cause, fault = .misuse cause ∧ cause.IsInternal := by
  cases jams with
  | callback errs uncaught =>
    rcases uncaught.passed_eq with ⟨kind, text, rfl⟩ | passed
    · exact absurd errs (not_errs_leaving supplied)
    · exact ⟨_, passed, trivial⟩
  | resulting | paired => exact (supplied _ (List.mem_singleton.mpr rfl)).elim
  | visit | element | item | key | value | entry | output | absent | discriminator | variant =>
    exact ⟨_, rfl, trivial⟩

end Ordinary

/-- An evaluation that has come to this goes no further: a rule jams, a lazy rule cannot be built,
or lazy rules lie too deep inside one another. -/
inductive Stops : Nat → Rule → Value → World → Fault → World → Prop where
  | jams {budget : Nat} {rule : Rule} {x : Value} {fault : Fault} {world after : World} :
      rule.Jams (lazySafe budget) x world fault after → Stops budget rule x world fault after
  | unresolved {budget id : Nat} {x : Value} {fault : Fault} {world after : World} :
      (Eval.resolve id).Faults world fault after →
      Stops (budget + 1) (.lazy id) x world fault after
  | exhausted {id : Nat} {x : Value} {world : World} :
      Stops 0 (.lazy id) x world (.misuse .tooDeep) world

theorem Stops.faults {budget : Nat} {rule : Rule} {x : Value}
    (stops : rule.Stops budget x world fault after) :
    (rule.safe (lazySafe budget) x).Faults world fault after := by
  cases stops with
  | jams jams => exact jams.faults
  | unresolved unresolved => exact faults_bind.mpr (.inl (faults_lift.mpr unresolved))
  | exhausted => exact faults_misuse.mpr ⟨rfl, rfl⟩

/-- A fault of whatever the evaluation of a rule comes to is a fault of the rule. -/
theorem Reaches.faults {budget left : Nat} {rule part : Rule} {x y : Value} {reached : World}
    (reaches : Reaches budget rule x world left part y reached)
    (faulted : (part.safe (lazySafe left) y).Faults reached fault after) :
    (rule.safe (lazySafe budget) x).Faults world fault after := by
  induction reaches with
  | here => exact faulted
  | part runs _ ih => exact runs.faults (ih faulted)
  | resolved resolved _ ih =>
    exact faults_bind.mpr (.inr ⟨_, _, returns_lift.mpr resolved, ih faulted⟩)

/-- Whatever the evaluation of a rule comes to has good pieces if lazy rules are built of such. -/
theorem Reaches.supplied {good : Piece → Prop} {budget left : Nat} {rule part : Rule} {x y : Value}
    {reached : World} (reaches : Reaches budget rule x world left part y reached)
    (supplied : rule.SuppliedBy good) (builds : world.Builds (SuppliedBy good)) :
    part.SuppliedBy good := by
  induction reaches with
  | here => exact supplied
  | part runs _ ih => exact ih (supplied.part runs.mem_parts) (runs.builds builds)
  | resolved resolved _ ih =>
    exact ih (builds _ _ _ _ .refl resolved) (builds.later (World.Later.refl.of_returns resolved))

/-- A fault that the evaluation of a rule ends in comes from what stops it, if this is so of lazy
rules. -/
private theorem stops_of_faults_in {budget : Nat}
    (lazies : ∀ id x world, (lazySafe budget id x).Faults world fault after →
      ∃ left part y reached, Reaches budget (.lazy id) x world left part y reached ∧
        part.Stops left y reached fault after)
    (rule : Rule) (x : Value) (world : World)
    (faulted : (rule.safe (lazySafe budget) x).Faults world fault after) :
    ∃ left part y reached, Reaches budget rule x world left part y reached ∧
      part.Stops left y reached fault after := by
  induction rule using byParts generalizing x world with
  | step rule ih =>
    by_cases lazy : ∃ id, rule = .lazy id
    · obtain ⟨id, rfl⟩ := lazy
      exact lazies id x world faulted
    · rcases jams_or_runs (fun id same => lazy ⟨id, same⟩) faulted with
        jams | ⟨part, y, reached, runs, faulted⟩
      · exact ⟨budget, rule, x, world, .here, .jams jams⟩
      · obtain ⟨left, found, z, there, reaches, stops⟩ :=
          ih part runs.mem_parts y reached faulted
        exact ⟨left, found, z, there, .part runs reaches, stops⟩

/-- An evaluation that ends in a fault reaches a part of its rule that stops with it. -/
theorem stops_of_faults (budget : Nat) :
    ∀ (rule : Rule) (x : Value) (world : World),
      (rule.safe (lazySafe budget) x).Faults world fault after →
      ∃ left part y reached, Reaches budget rule x world left part y reached ∧
        part.Stops left y reached fault after := by
  induction budget with
  | zero =>
    refine stops_of_faults_in fun id x world faulted => ?_
    obtain ⟨rfl, rfl⟩ := faults_misuse.mp faulted
    exact ⟨0, .lazy id, x, world, .here, .exhausted⟩
  | succ budget ih =>
    refine stops_of_faults_in fun id x world faulted => ?_
    rcases faults_bind.mp faulted with early | ⟨v, between, had, late⟩
    · exact ⟨_, .lazy id, x, world, .here, .unresolved (faults_lift.mp early)⟩
    · obtain ⟨left, found, z, there, reaches, stops⟩ := ih v.rule x between late
      exact ⟨left, found, z, there, .resolved (returns_lift.mp had) reaches, stops⟩

/-- Every lazy rule that the evaluation of a rule comes to can be built. -/
def AllBuild (budget : Nat) (rule : Rule) (x : Value) (world : World) : Prop :=
  ∀ left id y reached fault after, Reaches budget rule x world left (.lazy id) y reached →
    ¬(Eval.resolve id).Faults reached fault after

end Rule

namespace Validator

open Checked

variable {v : Validator} {x : Value} {world after : World} {fault : Fault}

/-- The evaluation of the safe form on an input comes to something that stops it. -/
def BreaksOff (v : Validator) (x : Value) (world : World) (fault : Fault) (after : World) : Prop :=
  ∃ left part y reached,
    Rule.Reaches (world.budget x) v.rule x world left part y reached ∧
      part.Stops left y reached fault after

theorem faults_iff_breaksOff :
    (v.safe x).Faults world fault after ↔ v.BreaksOff x world fault after := by
  rw [faults_safe]
  constructor
  · exact Rule.stops_of_faults _ v.rule x world
  · rintro ⟨left, part, y, reached, reaches, stops⟩
    exact reaches.faults stops.faults

/-- Where callbacks raise ordinary faults and lazy schemas can be built, an evaluation breaks off
over what it puts together. -/
theorem BreaksOff.internal (supplied : v.rule.SuppliedBy Piece.Ordinary)
    (builds : world.Builds (Rule.SuppliedBy Piece.Ordinary))
    (build : Rule.AllBuild (world.budget x) v.rule x world)
    (breaks : v.BreaksOff x world fault after) :
    ∃ cause, fault = .misuse cause ∧ cause.IsInternal := by
  obtain ⟨left, part, y, reached, reaches, stops⟩ := breaks
  cases stops with
  | jams jams => exact jams.internal (reaches.supplied supplied builds)
  | unresolved unresolved => exact absurd unresolved (build _ _ _ _ _ _ reaches)
  | exhausted => exact ⟨_, rfl, trivial⟩

/-- A value in place of any failure is given for each failure and for nothing else. -/
theorem recovering_ends {recovering : Validator} {value : Value}
    (recovers : recovering.rule = .recovering v.rule value) :
    (∀ fault after, (recovering.safe x).Faults world fault after ↔
      v.BreaksOff x world fault after) ∧
    ((∀ fault after, ¬v.BreaksOff x world fault after) →
      ∃ y after, (recovering.safe x).Returns world y after ∧
        ((v.safe x).Returns world y after ∨
          y = value ∧ ∃ failure, (v.safe x).Reports world failure after)) := by
  constructor
  · intro fault after
    rw [← faults_iff_breaksOff, faults_safe, faults_safe, recovers]
    constructor
    · intro faulted
      rcases faults_attempt_bind.mp faulted with early | ⟨_, _, _, late⟩ | ⟨_, _, _, late⟩
      · exact early
      · exact absurd late faults_pure
      · exact absurd late faults_pure
    · exact fun faulted => faults_attempt_bind.mpr (.inl faulted)
  · intro unbroken
    rcases ends (v.safe x) world with ⟨y, after, returned⟩ | ⟨failure, after, reported⟩ |
      ⟨fault, after, faulted⟩
    · refine ⟨y, after, ?_, .inl returned⟩
      rw [returns_safe, recovers]
      exact returns_attempt_bind.mpr
        (.inl ⟨y, after, returns_safe.mp returned, returns_pure.mpr ⟨rfl, rfl⟩⟩)
    · refine ⟨value, after, ?_, .inr ⟨rfl, failure, reported⟩⟩
      rw [returns_safe, recovers]
      exact returns_attempt_bind.mpr
        (.inr ⟨failure, after, reports_safe.mp reported, returns_pure.mpr ⟨rfl, rfl⟩⟩)
    · exact absurd (faults_iff_breaksOff.mp faulted) (unbroken fault after)

/-- The safe form ends in a fault exactly when its evaluation comes to something that stops it. In
every other case a value in place of any failure is given for each failure and for nothing else; in
this case it is not given either. Over callbacks that raise ordinary faults only, and lazy schemas
that can be built, an evaluation is stopped by an output that cannot be a key or an item of a set,
by one that is no dictionary where its entries are needed, by a message about what cannot be
written, or by lazy rules too deep inside one another. -/
theorem safe_faults_iff_breaksOff (v : Validator) (x : Value) (world : World) :
    (∀ fault after, (v.safe x).Faults world fault after ↔ v.BreaksOff x world fault after) ∧
    (∀ value, ∀ recovering ∈ [v.catching value, v.fallback value],
      (∀ fault after, (recovering.safe x).Faults world fault after ↔
        v.BreaksOff x world fault after) ∧
      ((∀ fault after, ¬v.BreaksOff x world fault after) →
        ∃ y after, (recovering.safe x).Returns world y after ∧
          ((v.safe x).Returns world y after ∨
            y = value ∧ ∃ failure, (v.safe x).Reports world failure after))) ∧
    (v.rule.SuppliedBy Piece.Ordinary → world.Builds (Rule.SuppliedBy Piece.Ordinary) →
      Rule.AllBuild (world.budget x) v.rule x world →
      ∀ fault after, v.BreaksOff x world fault after →
        ∃ cause, fault = .misuse cause ∧ cause.IsInternal) := by
  refine ⟨fun _ _ => faults_iff_breaksOff, fun value recovering member => ?_,
    fun supplied builds build _ _ breaks => breaks.internal supplied builds build⟩
  rcases List.mem_cons.mp member with rfl | member
  · exact recovering_ends rfl
  · cases List.mem_singleton.mp member
    exact recovering_ends rfl

/-- Sets of lists of integers, although a list cannot be an item of a set. -/
private def listSet : Validator := .set (.array (.leaf .integer))

private def pairSet : Value := .set [.tuple [.int 1, .int 2]]

/-- The set of lists is supplied with ordinary pieces, and whatever it comes to can be built. -/
private theorem listSet_conditions :
    listSet.rule.SuppliedBy Piece.Ordinary ∧
    (World.initial "v").Builds (Rule.SuppliedBy Piece.Ordinary) ∧
    Rule.AllBuild ((World.initial "v").budget pairSet) listSet.rule pairSet
      (World.initial "v") := by
  refine ⟨fun piece member => (nomatch member),
    World.initial_builds (fun id piece member => nomatch member) "v", ?_⟩
  intro left id y reached fault after reaches
  -- From the set the evaluation comes to the array and from there to the integers, and no further.
  cases reaches with
  | part runs reaches =>
    cases List.mem_singleton.mp runs.mem_parts
    cases reaches with
    | part runs reaches =>
      cases List.mem_singleton.mp runs.mem_parts
      cases reaches with
      | part runs reaches => cases runs.mem_parts

/-- A set of pairs breaks the evaluation off, so it does also where failures give way to a value. -/
theorem listSet_faults_iff_breaksOff :
    (listSet.rule.SuppliedBy Piece.Ordinary ∧
      (World.initial "v").Builds (Rule.SuppliedBy Piece.Ordinary) ∧
      Rule.AllBuild ((World.initial "v").budget pairSet) listSet.rule pairSet (World.initial "v")) ∧
    listSet.BreaksOff pairSet (World.initial "v") (.misuse (.unhashable "list"))
      (World.initial "v") ∧
    (Misuse.unhashable "list").IsInternal ∧
    ((listSet.catching (.str "none")).safe pairSet).Faults (World.initial "v")
      (.misuse (.unhashable "list")) (World.initial "v") := by
  obtain ⟨supplied, builds, build⟩ := listSet_conditions
  obtain ⟨breaks, recovers, causes⟩ :=
    safe_faults_iff_breaksOff listSet pairSet (World.initial "v")
  have faulted : (listSet.safe pairSet).Faults (World.initial "v") (.misuse (.unhashable "list"))
      (World.initial "v") := rfl
  have broken := (breaks _ _).mp faulted
  obtain ⟨cause, same, internal⟩ := causes supplied builds build _ _ broken
  cases same
  exact ⟨⟨supplied, builds, build⟩, broken, internal,
    ((recovers (.str "none") _ List.mem_cons_self).1 _ _).mpr broken⟩

/-- Not every safe form over ordinary callbacks returns or reports, and not every failure gives way
to a value. -/
theorem not_all_safe_forms_end :
    ¬∀ (v : Validator) (x value : Value) (world : World), v.rule.SuppliedBy Piece.Ordinary →
      world.Builds (Rule.SuppliedBy Piece.Ordinary) →
      Rule.AllBuild (world.budget x) v.rule x world →
      ((∃ y after, (v.safe x).Returns world y after) ∨
        ∃ failure after, (v.safe x).Reports world failure after) ∧
      ∃ y after, ((v.catching value).safe x).Returns world y after := by
  intro always
  obtain ⟨supplied, builds, build⟩ := listSet_conditions
  obtain ⟨-, y, after, returned⟩ :=
    always listSet pairSet (.str "none") (World.initial "v") supplied builds build
  have faulted : ((listSet.catching (.str "none")).safe pairSet).Faults (World.initial "v")
      (.misuse (.unhashable "list")) (World.initial "v") := rfl
  rw [Returns, show ((listSet.catching (.str "none")).safe pairSet).ending (World.initial "v") = _
    from faulted] at returned
  cases returned

end Validator

end Conform
