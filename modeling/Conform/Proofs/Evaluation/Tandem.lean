import Conform.Proofs.Evaluation.Steady
import Mathlib.Data.List.Forall2
import Mathlib.Logic.Relation

/-!
Two computations in tandem: in all worlds both return, and the values are related, or both report a
failure. Neither ends in a fault. What is put together from computations in tandem runs in tandem.
-/
namespace Conform

namespace Checked

section Single

variable {α β : Type} {computation : Checked α} {next : α → Checked β} {value : α} {later : β}

theorem Gives.bind_ending (gives : computation.Gives value) (world : World) :
    (computation >>= next).ending world = (next value).ending world := by
  have ends : computation.ending world = (.ok (.ok value), world) := gives world
  rw [ending_bind, ends]

theorem Gives.bind (gives : computation.Gives value) (rest : (next value).Gives later) :
    (computation >>= next).Gives later :=
  fun world => (gives.bind_ending world).trans (rest world)

theorem Gives.bind_refuses (gives : computation.Gives value) (rest : (next value).Refuses) :
    (computation >>= next).Refuses := by
  obtain ⟨failure, legible, reports⟩ := rest
  exact ⟨failure, legible, fun world => (gives.bind_ending world).trans (reports world)⟩

theorem Refuses.bind (refuses : computation.Refuses) : (computation >>= next).Refuses := by
  obtain ⟨failure, legible, reports⟩ := refuses
  exact ⟨failure, legible, fun world => reports_bind.mpr (.inl (reports world))⟩

theorem Gives.attempt (gives : computation.Gives value) :
    (attempt computation).Gives (.ok value) := by
  intro world
  have ends : computation.ending world = (.ok (.ok value), world) := gives world
  rw [Returns, ending_attempt, ends]

theorem Refuses.attempt (refuses : computation.Refuses) :
    ∃ failure, (attempt computation).Gives (.error failure) := by
  obtain ⟨failure, -, reports⟩ := refuses
  refine ⟨failure, fun world => ?_⟩
  have ends : computation.ending world = (.ok (.error failure), world) := reports world
  rw [Returns, ending_attempt, ends]

theorem Refuses.reword (refuses : computation.Refuses) {wording : Failure → Option Failure}
    (words : ∀ failure : Failure, failure.Legible →
      ∃ worded, wording failure = some worded ∧ worded.Legible) :
    (reword wording computation).Refuses := by
  obtain ⟨failure, legible, reports⟩ := refuses
  obtain ⟨worded, found, still⟩ := words failure legible
  exact ⟨worded, still, fun world => reports_reword.mpr ⟨failure, reports world, found⟩⟩

theorem Gives.not_refuses (gives : computation.Gives value) : ¬computation.Refuses := by
  rintro ⟨failure, -, reports⟩
  cases (gives (World.initial "")).symm.trans (reports (World.initial ""))

end Single

variable {α β γ δ : Type} {related : α → γ → Prop} {further : β → δ → Prop} {first : Checked α}
  {second : Checked γ}

/-- Both computations return, in all worlds, and the values are related, or both report a failure in
all worlds. -/
def Tandem (related : α → γ → Prop) (first : Checked α) (second : Checked γ) : Prop :=
  (∃ a c, first.Gives a ∧ second.Gives c ∧ related a c) ∨ first.Refuses ∧ second.Refuses

theorem Tandem.mono {weaker : α → γ → Prop} (tandem : Tandem related first second)
    (weakens : ∀ a c, related a c → weaker a c) : Tandem weaker first second := by
  rcases tandem with ⟨a, c, gives, also, holds⟩ | refuse
  · exact .inl ⟨a, c, gives, also, weakens a c holds⟩
  · exact .inr refuse

theorem tandem_pure {a : α} {c : γ} (holds : related a c) : Tandem related (pure a) (pure c) :=
  .inl ⟨a, c, gives_pure.mpr rfl, gives_pure.mpr rfl, holds⟩

theorem refuses_reject {failure : Failure} (legible : failure.Legible) :
    (reject failure : Checked α).Refuses :=
  ⟨failure, legible, fun _ => reports_reject.mpr ⟨rfl, rfl⟩⟩

theorem tandem_reject {failure other : Failure} (legible : failure.Legible)
    (too : other.Legible) : Tandem related (reject failure) (reject other) :=
  .inr ⟨refuses_reject legible, refuses_reject too⟩

/-- Two sequences run in tandem if their first halves do and related values keep the rest in tandem.
-/
theorem Tandem.bind {next : α → Checked β} {onward : γ → Checked δ}
    (tandem : Tandem related first second)
    (rest : ∀ a c, related a c → Tandem further (next a) (onward c)) :
    Tandem further (first >>= next) (second >>= onward) := by
  rcases tandem with ⟨a, c, gives, also, holds⟩ | ⟨refuses, too⟩
  · rcases rest a c holds with ⟨b, d, later, likewise, holds⟩ | ⟨refuses, too⟩
    · exact .inl ⟨b, d, gives.bind later, also.bind likewise, holds⟩
    · exact .inr ⟨gives.bind_refuses refuses, also.bind_refuses too⟩
  · exact .inr ⟨refuses.bind, too.bind⟩

/-- The same where the rest is told of a failure, of which each side may have its own. -/
theorem Tandem.attempt_bind {next : Except Failure α → Checked β}
    {onward : Except Failure γ → Checked δ} (tandem : Tandem related first second)
    (success : ∀ a c, related a c → Tandem further (next (.ok a)) (onward (.ok c)))
    (refusal : ∀ failure other, Tandem further (next (.error failure)) (onward (.error other))) :
    Tandem further (attempt first >>= next) (attempt second >>= onward) := by
  have attempted : Tandem (fun one two => Tandem further (next one) (onward two)) (attempt first)
      (attempt second) := by
    rcases tandem with ⟨a, c, gives, also, holds⟩ | ⟨refuses, too⟩
    · exact .inl ⟨_, _, gives.attempt, also.attempt, success a c holds⟩
    · obtain ⟨failure, gives⟩ := refuses.attempt
      obtain ⟨other, also⟩ := too.attempt
      exact .inl ⟨_, _, gives, also, refusal failure other⟩
  exact attempted.bind fun _ _ rest => rest

/-- The failures of both may be worded differently. -/
theorem Tandem.reword (tandem : Tandem related first second)
    {wording other : Failure → Option Failure}
    (words : ∀ failure : Failure, failure.Legible →
      ∃ worded, wording failure = some worded ∧ worded.Legible)
    (others : ∀ failure : Failure, failure.Legible →
      ∃ worded, other failure = some worded ∧ worded.Legible) :
    Tandem related (reword wording first) (reword other second) := by
  rcases tandem with ⟨a, c, gives, also, holds⟩ | ⟨refuses, too⟩
  · exact .inl ⟨a, c, gives_reword.mpr gives, gives_reword.mpr also, holds⟩
  · exact .inr ⟨refuses.reword words, too.reword others⟩

theorem Tandem.within (tandem : Tandem related first second) {place other : Place}
    (shown : Value.areWritable place.shown) (also : Value.areWritable other.shown) :
    Tandem related (within place first) (Checked.within other second) :=
  tandem.reword (fun _ legible => legible.placed shown) fun _ legible => legible.placed also

theorem Tandem.steady (tandem : Tandem related first second) : first.Steady := by
  rcases tandem with ⟨a, -, gives, -⟩ | ⟨⟨failure, -, reports⟩, -⟩
  · exact ⟨.ok (.ok a), gives⟩
  · exact ⟨.ok (.error failure), reports⟩

theorem Tandem.of_gives {a : α} (tandem : Tandem related first second) (gives : first.Gives a) :
    ∃ c, related a c := by
  rcases tandem with ⟨b, c, also, -, holds⟩ | ⟨refuses, -⟩
  · cases gives.unique also
    exact ⟨c, holds⟩
  · exact absurd refuses gives.not_refuses

theorem Tandem.self (tandem : Tandem related first second) : Tandem Eq first first := by
  rcases tandem with ⟨a, -, gives, -⟩ | ⟨refuses, -⟩
  · exact .inl ⟨a, a, gives, gives, rfl⟩
  · exact .inr ⟨refuses, refuses⟩

/-- Of two computations that give or refuse, either can be first. -/
theorem tandem_swap {first : Checked α} {second : Checked γ} {next : α → γ → Checked β}
    {onward : γ → α → Checked δ} (one : Tandem Eq first first) (two : Tandem Eq second second)
    (rest : ∀ a c, Tandem further (next a c) (onward c a)) :
    Tandem further (first >>= fun a => second >>= next a)
      (second >>= fun c => first >>= onward c) := by
  rcases one with ⟨a, -, gives, -⟩ | ⟨refuses, -⟩
  · rcases two with ⟨c, -, also, -⟩ | ⟨too, -⟩
    · rcases rest a c with ⟨b, d, later, likewise, holds⟩ | ⟨later, likewise⟩
      · exact .inl ⟨b, d, gives.bind (also.bind later), also.bind (gives.bind likewise), holds⟩
      · exact .inr ⟨gives.bind_refuses (also.bind_refuses later),
          also.bind_refuses (gives.bind_refuses likewise)⟩
    · exact .inr ⟨gives.bind_refuses too.bind, too.bind⟩
  · rcases two with ⟨c, -, also, -⟩ | ⟨too, -⟩
    · exact .inr ⟨refuses.bind, also.bind_refuses refuses.bind⟩
    · exact .inr ⟨refuses.bind, too.bind⟩

/-- Tandem computations compose along a third one. -/
theorem Tandem.comp {others : γ → δ → Prop} {third : Checked δ} (one : Tandem related first second)
    (two : Tandem others second third) : Tandem (Relation.Comp related others) first third := by
  rcases one with ⟨a, c, gives, between, holds⟩ | ⟨refuses, between⟩
  · rcases two with ⟨c', d, also, last, further⟩ | ⟨refuses, -⟩
    · cases between.unique also
      exact .inl ⟨a, d, gives, last, c, holds, further⟩
    · exact absurd refuses between.not_refuses
  · rcases two with ⟨c, -, gives, -⟩ | ⟨-, also⟩
    · exact absurd between gives.not_refuses
    · exact .inr ⟨refuses, also⟩

/-- One returns in a world just if the other does in another, and then the values are related. -/
theorem Tandem.returns (tandem : Tandem related first second) (world world' : World) :
    ((∃ a after, first.Returns world a after) ↔ ∃ c after, second.Returns world' c after) ∧
      ∀ a after c after', first.Returns world a after → second.Returns world' c after' →
        related a c := by
  rcases tandem with ⟨a, c, gives, also, holds⟩ | ⟨⟨failure, -, reports⟩, other, -, refuses⟩
  · refine ⟨⟨fun _ => ⟨c, world', also world'⟩, fun _ => ⟨a, world, gives world⟩⟩, ?_⟩
    intro b after d after' returned returned'
    cases (gives world).symm.trans returned
    cases (also world').symm.trans returned'
    exact holds
  · have fails : ∀ a after, ¬first.Returns world a after := by
      intro a after returned
      cases (reports world).symm.trans returned
    have fails' : ∀ c after, ¬second.Returns world' c after := by
      intro c after returned
      cases (refuses world').symm.trans returned
    refine ⟨⟨?_, ?_⟩, fun a after _ _ returned => absurd returned (fails a after)⟩
    · rintro ⟨a, after, returned⟩
      exact absurd returned (fails a after)
    · rintro ⟨c, after, returned⟩
      exact absurd returned (fails' c after)

section Lists

variable {visit : α → Checked β}

/-- Visits of corresponding members are made in tandem. -/
theorem tandem_mapM {other : γ → Checked δ} {firsts : List α} {seconds : List γ}
    (each : List.Forall₂ (fun a c => Tandem further (visit a) (other c)) firsts seconds) :
    Tandem (List.Forall₂ further) (firsts.mapM visit) (seconds.mapM other) := by
  induction each with
  | nil => exact tandem_pure .nil
  | cons here _ ih =>
    rw [List.mapM_cons, List.mapM_cons]
    exact here.bind fun _ _ holds => ih.bind fun _ _ later => tandem_pure (.cons holds later)

theorem steady_mapM {members : List α} (steady : ∀ a ∈ members, (visit a).Steady) :
    (members.mapM visit).Steady := by
  induction members with
  | nil => exact ⟨.ok (.ok []), fun _ => rfl⟩
  | cons a rest ih =>
    obtain ⟨here, others⟩ := List.forall_mem_cons.mp steady
    rw [List.mapM_cons]
    exact here.bind fun b => (ih others).bind fun later => ⟨.ok (.ok (b :: later)), fun _ => rfl⟩

/-- A steady traversal gives the outputs that its members give one by one. -/
theorem gives_mapM {members : List α} (steady : ∀ a ∈ members, (visit a).Steady)
    {outputs : List β} :
    (members.mapM visit).Gives outputs ↔
      List.Forall₂ (fun a b => (visit a).Gives b) members outputs := by
  induction members generalizing outputs with
  | nil => exact gives_pure.trans (eq_comm.trans List.forall₂_nil_left_iff.symm)
  | cons a rest ih =>
    obtain ⟨here, others⟩ := List.forall_mem_cons.mp steady
    have later : (rest.mapM visit).Steady := steady_mapM others
    rw [List.mapM_cons, here.gives_bind, List.forall₂_cons_left_iff]
    simp only [later.gives_bind, gives_pure, ih others]
    constructor
    · rintro ⟨b, first, further, given, rfl⟩
      exact ⟨b, further, first, given, rfl⟩
    · rintro ⟨b, further, first, given, rfl⟩
      exact ⟨b, first, further, given, rfl⟩

/-- Visits that give or refuse can be made in any order. -/
theorem tandem_mapM_perm {firsts seconds : List α} (permuted : firsts.Perm seconds)
    (settled : ∀ a ∈ firsts, Tandem Eq (visit a) (visit a)) :
    Tandem List.Perm (firsts.mapM visit) (seconds.mapM visit) := by
  induction permuted with
  | nil => exact tandem_pure .nil
  | cons a _ ih =>
    obtain ⟨here, others⟩ := List.forall_mem_cons.mp settled
    rw [List.mapM_cons, List.mapM_cons]
    refine here.bind ?_
    rintro b _ rfl
    exact (ih others).bind fun _ _ later => tandem_pure (later.cons b)
  | swap a b rest =>
    obtain ⟨here, settled⟩ := List.forall_mem_cons.mp settled
    obtain ⟨there, others⟩ := List.forall_mem_cons.mp settled
    have remaining : Tandem (List.Forall₂ Eq) (rest.mapM visit) (rest.mapM visit) :=
      tandem_mapM (List.forall₂_same.mpr others)
    simp only [List.mapM_cons, bind_assoc, pure_bind]
    refine tandem_swap here there fun first second => remaining.bind fun later also same => ?_
    rw [List.forall₂_eq_eq_eq] at same
    subst same
    exact tandem_pure (.swap second first later)
  | trans one two ih ih' =>
    have both := (ih settled).comp (ih' fun a inside => settled a (one.mem_iff.mpr inside))
    exact both.mono fun _ _ ⟨_, before, after⟩ => before.trans after

end Lists

end Checked

namespace SafeForm

open Checked

variable {related : Value → Value → Prop} {x y : Value}

theorem tandem_provided {condition other : Bool} {failure failure' : Failure}
    (legible : failure.Legible) (too : failure'.Legible) (same : condition = other)
    (holds : condition → related x y) :
    Tandem related (provided condition failure x) (provided other failure' y) := by
  subst same
  cases condition with
  | true => exact tandem_pure (holds rfl)
  | false => exact tandem_reject legible too

theorem tandem_entriesOf {holds : List (Value × Value) → List (Value × Value) → Prop}
    {failure : Failure} (legible : failure.Legible) (rel : Option.Rel holds x.entries? y.entries?) :
    Tandem holds (entriesOf failure x) (entriesOf failure y) := by
  unfold entriesOf
  generalize x.entries? = one at rel
  generalize y.entries? = two at rel
  cases rel with
  | some related => exact tandem_pure related
  | none => exact tandem_reject legible legible

theorem tandem_itemsOf {holds : List Value → List Value → Prop}
    (rel : Option.Rel holds x.items? y.items?) :
    Tandem holds (itemsOf x) (itemsOf y) := by
  unfold itemsOf
  generalize x.items? = one at rel
  generalize y.items? = two at rel
  cases rel with
  | some related => exact tandem_pure related
  | none => exact tandem_reject (Failure.legible_expecting _ _) (Failure.legible_expecting _ _)

theorem gives_requireHashable (hashable : x.unhashable? = none) : (requireHashable x).Gives () := by
  unfold requireHashable
  rw [hashable]
  exact gives_pure.mpr rfl

end SafeForm

end Conform
