import Conform.Proofs.Evaluation.LawfulRules
import Conform.Proofs.Evaluation.Visits
import Conform.Proofs.Evaluation.Worlds

/-!
What an evaluation comes to. `Rule.Runs` is one step: the evaluation of a rule on an input comes to
that of one of its parts, in the world that the evaluation of earlier parts left. `Rule.Reaches` is
its closure through lazy rules, of which the budget says how many may still lie inside one another.
-/
namespace Conform

namespace Rule

open Checked SafeForm

/-- The one part that a rule runs on its input before anything else. -/
def inner? : Rule → Value → Option Rule
  | .accepting absence inner, x => if absence.covers x then none else some inner
  | .withDefault inner _, x => if x.isMissing then none else some inner
  | .recovering inner _, _ | .rejecting _ inner, _ | .refine inner _ _, _ | .transform inner _ _, _
  | .retitle inner _, _ | .forward inner _, _ => some inner
  | .passthrough inner, x | .lenient inner, x | .required _ inner, x =>
    x.entries?.map fun _ => inner
  | _, _ => none

/-- The parts that a rule tries on its input until one accepts. -/
def options : Rule → Value → List Rule
  | .union options, _ => options
  | .discriminatedUnion options, x | .variant _ options, x => x.entries?.elim [] fun _ => options
  | _, _ => []

/-- The rules for the keys and the values of a dictionary. -/
def entryParts? : Rule → Option (Rule × Rule)
  | .record key value | .map key value => some (key, value)
  | _ => none

variable (onLazy : Nat → SafeForm)

/-- Each of several rules in turn refuses the input. -/
inductive AllRefuse (x : Value) : List Rule → World → World → Prop where
  | nil {world : World} : AllRefuse x [] world world
  | cons {rule : Rule} {rest : List Rule} {failure : Failure} {world between after : World} :
      (rule.safe onLazy x).Reports world failure between → AllRefuse x rest between after →
      AllRefuse x (rule :: rest) world after

/-- Each of several items in turn is accepted, with an output that can be an item of a set. -/
inductive ItemsPass (item : Rule) : List Value → World → World → Prop where
  | nil {world : World} : ItemsPass item [] world world
  | cons {x y : Value} {rest : List Value} {world between after : World} :
      (item.safe onLazy x).Returns world y between → y.unhashable? = none →
      ItemsPass item rest between after → ItemsPass item (x :: rest) world after

/-- Key and value of each of several entries in turn are accepted, the key with an output that can
be one. -/
inductive EntriesPass (keys values : Rule) : List (Value × Value) → World → World → Prop where
  | nil {world : World} : EntriesPass keys values [] world world
  | cons {key item k y : Value} {rest : List (Value × Value)}
      {world first between after : World} :
      (keys.safe onLazy key).Returns world k first →
        (values.safe onLazy item).Returns first y between →
      k.unhashable? = none → EntriesPass keys values rest between after →
      EntriesPass keys values ((key, item) :: rest) world after

/-- The evaluation of a rule on an input comes to that of a part on a value of its own. -/
inductive Runs : Rule → Value → World → Rule → Value → World → Prop where
  | visit {rule : Rule} {x : Value} {before others : List Visit} {visit : Visit} {ys : List Value}
      {world reached : World} :
      rule.visits? x = some (before ++ visit :: others) →
      (runVisits onLazy before).Returns world ys reached →
      Runs rule x world visit.rule visit.value reached
  | step {before others : List Rule} {part : Rule} {x y : Value} {world reached : World} :
      (SafeForm.pipe (safeAll onLazy before) x).Returns world y reached →
      Runs (.pipe (before ++ part :: others)) x world part y reached
  | inner {rule part : Rule} {x : Value} {world : World} :
      rule.inner? x = some part → Runs rule x world part x world
  | input {function : Callable} {part : Rule} {x y : Value} {world reached : World} :
      (guarded (.str "Preprocess failed") (function.run x)).Returns world y reached →
      Runs (.preprocess function part) x world part y reached
  | option {rule part : Rule} {before others : List Rule} {x : Value} {world reached : World} :
      rule.options x = before ++ part :: others → AllRefuse onLazy x before world reached →
      Runs rule x world part x reached
  | element {item : Rule} {x y : Value} {before others : List Value} {world reached : World} :
      x.elements? = some (before ++ y :: others) → ItemsPass onLazy item before world reached →
      Runs (.set item) x world item y reached
  | key {rule keys values : Rule} {x key item : Value} {before others : List (Value × Value)}
      {world reached : World} :
      rule.entryParts? = some (keys, values) → x.entries? = some (before ++ (key, item) :: others) →
      EntriesPass onLazy keys values before world reached →
      Runs rule x world keys key reached
  | value {rule keys values : Rule} {x key item k : Value} {before others : List (Value × Value)}
      {world between reached : World} :
      rule.entryParts? = some (keys, values) → x.entries? = some (before ++ (key, item) :: others) →
      EntriesPass onLazy keys values before world between →
      (keys.safe onLazy key).Returns between k reached →
      Runs rule x world values item reached

/-- The evaluation of a rule, with a budget for lazy rules, comes to that of another with what is
left of it. -/
inductive Reaches : Nat → Rule → Value → World → Nat → Rule → Value → World → Prop where
  | here {budget : Nat} {rule : Rule} {x : Value} {world : World} :
      Reaches budget rule x world budget rule x world
  | part {budget left : Nat} {rule part found : Rule} {x y z : Value}
      {world between reached : World} :
      Runs (lazySafe budget) rule x world part y between →
      Reaches budget part y between left found z reached →
      Reaches budget rule x world left found z reached
  | resolved {budget left id : Nat} {v : Validator} {found : Rule} {x z : Value}
      {world between reached : World} :
      (Eval.resolve id).Returns world v between →
      Reaches budget v.rule x between left found z reached →
      Reaches (budget + 1) (.lazy id) x world left found z reached

variable {onLazy} {rule part : Rule} {x y : Value} {world reached : World}

/-- Every visit is of a part of the rule. -/
theorem mem_parts_of_visit {visits : List Visit} (given : rule.visits? x = some visits)
    {visit : Visit} (member : visit ∈ visits) : visit.rule ∈ rule.parts := by
  have ofItems : ∀ {item : Rule} {i : Nat} {xs : List Value}, visit ∈ itemVisits item i xs →
      visit.rule = item := by
    intro item i xs member
    obtain ⟨_, _, -, rfl⟩ := mem_itemVisits member
    rfl
  have ofPositions : ∀ {i : Nat} {parts : List Rule} {xs : List Value},
      visit ∈ positionVisits i parts xs → visit.rule ∈ parts := by
    intro i parts xs member
    obtain ⟨_, _, _, listed, -, rfl⟩ := mem_positionVisits member
    exact List.mem_of_getElem? listed
  have ofFields : ∀ {entries : List (Value × Value)} {fields : List (Value × Rule)},
      visit ∈ fieldVisits entries fields → visit.rule ∈ fields.map (·.2) := by
    intro entries fields member
    obtain ⟨field, inside, rfl⟩ := mem_fieldVisits member
    exact List.mem_map.mpr ⟨field, inside, rfl⟩
  cases rule with
  | array item =>
    obtain ⟨items, -, rfl⟩ := Option.map_eq_some_iff.mp given
    exact List.mem_singleton.mpr (ofItems member)
  | tuple parts =>
    obtain ⟨items, -, given⟩ := Option.bind_eq_some_iff.mp given
    split at given <;> cases given
    exact ofPositions member
  | looseTuple parts =>
    obtain ⟨items, -, given⟩ := Option.bind_eq_some_iff.mp given
    split at given <;> cases given
    exact ofPositions member
  | tupleWithRest parts rest =>
    obtain ⟨items, -, given⟩ := Option.bind_eq_some_iff.mp given
    split at given <;> cases given
    rcases List.mem_append.mp member with member | member
    · exact List.mem_append_left _ (ofPositions member)
    · exact List.mem_append_right _ (List.mem_singleton.mpr (ofItems member))
  | object fields =>
    obtain ⟨entries, -, rfl⟩ := Option.map_eq_some_iff.mp given
    exact ofFields member
  | looseObject fields =>
    obtain ⟨entries, -, rfl⟩ := Option.map_eq_some_iff.mp given
    exact ofFields member
  | objectWithRest fields rest =>
    obtain ⟨entries, -, rfl⟩ := Option.map_eq_some_iff.mp given
    rcases List.mem_append.mp member with member | member
    · exact List.mem_append_left _ (ofFields member)
    · obtain ⟨entry, -, rfl⟩ := mem_restVisits member
      exact List.mem_append_right _ (List.mem_singleton.mpr rfl)
  | intersect members =>
    cases given
    obtain ⟨member, inside, rfl⟩ := List.mem_map.mp member
    exact inside
  | _ => cases given

/-- What the evaluation of a rule comes to is a part of the rule. -/
theorem Runs.mem_parts (runs : Runs onLazy rule x world part y reached) : part ∈ rule.parts := by
  cases runs with
  | visit given _ => exact mem_parts_of_visit given (by simp)
  | step _ => exact List.mem_append_right _ List.mem_cons_self
  | inner runs =>
    cases rule with
    | accepting =>
      simp only [inner?] at runs
      split at runs <;> cases runs
      exact List.mem_singleton.mpr rfl
    | withDefault =>
      simp only [inner?] at runs
      split at runs <;> cases runs
      exact List.mem_singleton.mpr rfl
    | recovering | rejecting | refine | transform | retitle | forward =>
      cases runs
      exact List.mem_singleton.mpr rfl
    | passthrough | lenient | required =>
      obtain ⟨entries, -, rfl⟩ := Option.map_eq_some_iff.mp runs
      exact List.mem_singleton.mpr rfl
    | _ => cases runs
  | input _ => exact List.mem_singleton.mpr rfl
  | @option _ _ before others _ _ _ tries _ =>
    have inside : part ∈ before ++ part :: others := by simp
    rw [← tries] at inside
    cases rule with
    | union => exact inside
    | discriminatedUnion | variant =>
      simp only [Rule.options] at inside
      cases found : x.entries? with
      | none =>
        rw [found] at inside
        cases inside
      | some entries =>
        rw [found] at inside
        exact inside
    | _ => cases inside
  | element _ _ => exact List.mem_singleton.mpr rfl
  | key parts _ _ =>
    cases rule with
    | record | map =>
      cases parts
      exact List.mem_cons_self
    | _ => cases parts
  | value parts _ _ _ =>
    cases rule with
    | record | map =>
      cases parts
      exact List.mem_cons_of_mem _ (List.mem_singleton.mpr rfl)
    | _ => cases parts

end Rule

namespace Law

/-- Lazy schemas are built to good rules in every world passed; nothing else is asked. -/
def building (good : Rule → Prop) : Law :=
  ⟨fun world => world.Builds good, fun _ => True, fun _ => True, fun _ => True⟩

variable {good : Rule → Prop}

theorem building_allows (piece : Piece) : (building good).Allows piece := ofWorlds_allows piece

theorem building_respected : (building good).Respected :=
  ofWorlds_respected (fun _ trace builds => builds.later (.traced trace .refl))
    fun _ id builds => builds.later (.resolved id .refl)

end Law

namespace Rule

open Checked SafeForm

variable {good : Rule → Prop}

/-- Every rule keeps lazy schemas good. -/
theorem keeps_building (budget : Nat) (rule : Rule) :
    Lawful (Law.building good) (rule.safe (lazySafe budget)) :=
  keeps_safe Law.building_respected (keeps_lazySafe Law.building_respected budget) rule
    fun piece _ => Law.building_allows piece

/-- Visits with good parts leave only good validators in the cells. -/
theorem keeps_runVisits (budget : Nat) (visits : List Visit) :
    (runVisits (lazySafe budget) visits).Keeps (Law.building good) anything := by
  induction visits with
  | nil => exact keeps_pure trivial
  | cons visit rest ih =>
    have visited : (visit.run (lazySafe budget)).Keeps (Law.building good) anything :=
      (keeps_building budget visit.rule visit.value).reword Law.building_respected.toEager
        fun _ _ _ _ => trivial
    exact visited.bind fun y _ => ih.bind fun ys _ => keeps_pure trivial

variable {budget : Nat} {rule part : Rule} {x y : Value} {world reached : World}

/-- The world in which a part is evaluated builds good rules as well. -/
theorem Runs.builds (runs : Runs (lazySafe budget) rule x world part y reached)
    (builds : world.Builds good) : reached.Builds good := by
  have returning : ∀ {rule : Rule} {x y : Value} {world after : World}, world.Builds good →
      (rule.safe (lazySafe budget) x).Returns world y after → after.Builds good :=
    fun builds returned => ((keeps_building budget _ _ _ builds).1 _ _ returned).1
  have entriesPassing : ∀ {keys values : Rule} {entries : List (Value × Value)}
      {world after : World},
        world.Builds good → EntriesPass (lazySafe budget) keys values entries world after →
        after.Builds good := by
    intro keys values entries world after builds pass
    induction pass with
    | nil => exact builds
    | cons returned output _ _ ih => exact ih (returning (returning builds returned) output)
  cases runs with
  | visit _ ran => exact ((keeps_runVisits budget _ _ builds).1 _ _ ran).1
  | @step before _ _ _ _ _ _ ran =>
    have piped : ((Rule.pipe before).safe (lazySafe budget) x).Returns world y reached := ran
    exact returning builds piped
  | inner _ => exact builds
  | input ran =>
    obtain ⟨trace, -, rfl⟩ := returns_guarded.mp ran
    exact builds.later (.traced trace .refl)
  | option tries refuse =>
    clear tries
    induction refuse with
    | nil => exact builds
    | cons reported _ ih => exact ih ((keeps_building budget _ _ _ builds).2.1 _ _ reported).1
  | element elements pass =>
    clear elements
    induction pass with
    | nil => exact builds
    | cons returned _ _ ih => exact ih (returning builds returned)
  | key _ _ pass => exact entriesPassing builds pass
  | value _ _ pass returned => exact returning (entriesPassing builds pass) returned

end Rule

end Conform
