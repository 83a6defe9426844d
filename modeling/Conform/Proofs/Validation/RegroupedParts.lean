import Conform.Proofs.Validation.Alternatives
import Conform.Proofs.Validator.Grouping
import Conform.Proofs.Value.Equivalence
import Conform.Proofs.Value.Reordering

/-!
Alternatives and conjunctions in groups. A choice between choices is the choice between all their
options; a conjunction of conjunctions joins the outputs of all their members, as long as these are
dictionaries, in one dictionary where each key keeps its first place and spelling and takes its last
value (`Validator.parts_regrouped`).
-/
namespace Conform

namespace SafeForm

open Checked

variable {otherwise : Checked Value}

theorem firstMatch_append (options others : List SafeForm) (x : Value) :
    firstMatch otherwise (options ++ others) x = firstMatch
      (firstMatch otherwise others x) options x := by
  induction options with
  | nil => rfl
  | cons option rest ih => simp only [List.cons_append, firstMatch, ih]

/-- A choice that finds no option is passed over like an option that refuses. -/
theorem firstMatch_nested (failure : Failure) (options : List SafeForm) (x : Value) :
    firstMatch otherwise [firstMatch (reject failure) options] x =
      firstMatch otherwise options x := by
  refine ext_ending fun world => ?_
  induction options generalizing world with
  | nil => rfl
  | cons option rest ih =>
    simp only [firstMatch, ending_bind, ending_attempt] at ih ⊢
    rcases (option x).ending world with ⟨fault | refused | given, between⟩
    · rfl
    · exact ih between
    · rfl

theorem intersectFrom_append (x : Value) (members others : List SafeForm) (merged : Value) :
    intersectFrom x (members ++ others) merged =
      intersectFrom x members merged >>= intersectFrom x others := by
  induction members generalizing merged with
  | nil => exact (pure_bind merged _).symm
  | cons member rest ih => simp only [List.cons_append, intersectFrom, ih, bind_assoc]

end SafeForm

namespace Entries

theorem any_keys (entries : Entries Value Value) (key : Value) :
    (keys entries).any (· == key) = (get? entries key).isSome := by
  rw [Bool.eq_iff_iff, keys, List.any_map, get?, Option.isSome_map, List.find?_isSome,
    List.any_eq_true]
  rfl

/-- A dictionary of pairs has each key where it comes first, and as it is spelt there. -/
theorem keys_ofPairs (pairs : Entries Value Value) :
    keys (ofPairs pairs) = Value.unrepeated (keys pairs) := by
  have further : ∀ first : Entries Value Value, keys (merge first pairs) = (keys pairs).foldl
      (fun kept key => if kept.any (· == key) then kept else kept ++ [key]) (keys first) := by
    induction pairs with
    | nil => exact fun _ => rfl
    | cons entry rest ih =>
      intro first
      have inserted : keys (insert first entry.1 entry.2) =
          if (keys first).any (· == entry.1) then keys first else keys first ++ [entry.1] := by
        rw [any_keys]
        exact keys_insert first entry.1 entry.2
      have stepped := ih (insert first entry.1 entry.2)
      rw [inserted] at stepped
      exact stepped
  exact further []

end Entries

namespace Rule

open Checked SafeForm

/-- The entries of several dictionaries in a row. -/
def pairsOf (outputs : List Value) : List (Value × Value) := outputs.flatMap fun y =>
    y.entries?.getD []

variable (onLazy : Nat → SafeForm)

/-- Each of several rules in turn, as long as they accept, outputs a dictionary. -/
def GivesMappings (x : Value) : List Rule → World → Prop
  | [], _ => True
  | member :: rest, world => ∀ y after, (member.safe onLazy x).Returns world y after →
    y.entries?.isSome ∧ GivesMappings x rest after

variable {onLazy} {x y : Value} {world after : World} {members others : List Rule}
  {outputs : List Value}
  {failure : Failure}

/-- All members give dictionaries if those before do and, for every output of theirs, those behind
do. -/
theorem givesMappings_append : GivesMappings onLazy x (members ++ others) world ↔
    GivesMappings onLazy x members world ∧
      ∀ outputs after, AllAccept onLazy x members outputs world after →
        GivesMappings onLazy x others after := by
  induction members generalizing world with
  | nil =>
    constructor
    · intro gives
      refine ⟨trivial, fun outputs after accept => ?_⟩
      cases accept
      exact gives
    · rintro ⟨-, later⟩
      exact later [] world .nil
  | cons member rest ih =>
    simp only [List.cons_append, GivesMappings, ih]
    constructor
    · intro gives
      refine ⟨fun y after returned => ⟨(gives y after returned).1, (gives y after returned).2.1⟩,
        fun outputs after accept => ?_⟩
      cases accept with
      | cons returned accept => exact (gives _ _ returned).2.2 _ _ accept
    · rintro ⟨gives, later⟩ y after returned
      obtain ⟨mapping, further⟩ := gives y after returned
      exact ⟨mapping, further, fun outputs last accept => later _ _ (.cons returned accept)⟩

theorem AllAccept.mappings (accept : AllAccept onLazy x members outputs world after)
    (gives : GivesMappings onLazy x members world) : ∀ y ∈ outputs, y.entries?.isSome := by
  induction accept with
  | nil => exact nofun
  | cons returned _ ih =>
    obtain ⟨mapping, further⟩ := gives _ _ returned
    exact List.forall_mem_cons.mpr ⟨mapping, ih further⟩

theorem joinOutput_of_entries {pairs : List (Value × Value)} (given : y.entries? = some pairs)
    (entries : List (Value × Value)) : joinOutput (.dict entries) y =
      .dict (Entries.merge entries pairs) := by
  simp only [joinOutput, given]

/-- Dictionaries are joined by putting their entries together. -/
theorem foldl_joinOutput (mappings : ∀ y ∈ outputs, y.entries?.isSome)
    (entries : List (Value × Value)) :
    outputs.foldl joinOutput (.dict entries) = .dict (Entries.merge entries (pairsOf outputs)) := by
  induction outputs generalizing entries with
  | nil => rfl
  | cons y rest ih =>
    obtain ⟨mapping, others⟩ := List.forall_mem_cons.mp mappings
    obtain ⟨pairs, given⟩ := Option.isSome_iff_exists.mp mapping
    have whole : pairsOf (y :: rest) = pairs ++ pairsOf rest := by
      rw [pairsOf, List.flatMap_cons, given]
      rfl
    rw [List.foldl_cons, joinOutput_of_entries given, ih others, whole]
    exact congrArg Value.dict List.foldl_append.symm

/-- A conjunction reports what a member reports, unchanged, after the members before it accepted. -/
theorem reports_intersectFrom {merged : Value} :
    (intersectFrom x (safeAll onLazy members) merged).Reports world failure after ↔
      ∃ before member rest outputs reached, members = before ++ member :: rest ∧
        AllAccept onLazy x before outputs world reached ∧
        (member.safe onLazy x).Reports reached failure after := by
  constructor
  · intro reported
    induction members generalizing merged world with
    | nil => exact absurd reported reports_pure
    | cons member rest ih =>
      rcases reports_bind.mp reported with failed | ⟨out, between, returned, later⟩
      · exact ⟨[], member, rest, [], world, rfl, .nil, failed⟩
      · obtain ⟨before, failing, others, outputs, reached, rfl, accept, failed⟩ := ih later
        exact ⟨member :: before, failing, others, out :: outputs, reached, rfl,
          .cons returned accept, failed⟩
  · rintro ⟨before, member, rest, outputs, reached, rfl, accept, failed⟩
    rw [safeAll_append, intersectFrom_append, reports_bind]
    exact .inr ⟨_, reached, returns_intersectFrom.mpr ⟨outputs, accept, rfl⟩,
      reports_bind.mpr (.inl failed)⟩

/-- Outputs may be joined to each other before they are joined to what was there. -/
theorem ending_intersectFrom_join {middle : List (Value × Value)}
    (distinct : Entries.Distinct middle)
    (entries : List (Value × Value)) (gives : GivesMappings onLazy x members world) :
    (intersectFrom x (safeAll onLazy members) (.dict middle) >>= fun out =>
        pure (joinOutput (.dict entries) out)).ending world =
      (intersectFrom x (safeAll onLazy members) (.dict (Entries.merge entries middle))).ending
        world := by
  induction members generalizing middle world with
  | nil => rfl
  | cons member rest ih =>
    simp only [safeAll, intersectFrom, bind_assoc]
    rw [ending_bind, ending_bind]
    rcases ended : (member.safe onLazy x).ending world with ⟨fault | failure | out, after⟩
    · rfl
    · rfl
    · obtain ⟨mapping, further⟩ := gives out after ended
      obtain ⟨pairs, given⟩ := Option.isSome_iff_exists.mp mapping
      have stepped := ih (distinct.merge pairs) further
      rw [Entries.merge_merge distinct, ← joinOutput_of_entries given middle,
        ← joinOutput_of_entries given (Entries.merge entries middle)] at stepped
      exact stepped

end Rule

namespace Validator

open Rule SafeForm Checked

/-- The two rows of options are the same to every choice. -/
def SameOptions (options others : List Validator) : Prop :=
  ∀ onLazy otherwise x, firstMatch otherwise (safeAll onLazy (rules options)) x =
    firstMatch otherwise (safeAll onLazy (rules others)) x

/-- The first row of members is the same to every conjunction as the second one, where that one's
outputs are dictionaries. -/
structure SameMembers (members others : List Validator) : Prop where
  mappings : ∀ {onLazy x world}, GivesMappings onLazy x (rules others) world →
    GivesMappings onLazy x (rules members) world
  joined : ∀ {onLazy x world}, GivesMappings onLazy x (rules others) world → ∀ entries,
    (intersectFrom x (safeAll onLazy (rules members)) (.dict entries)).ending world =
      (intersectFrom x (safeAll onLazy (rules others)) (.dict entries)).ending world

/-- Grouping the options of a choice is respected. -/
theorem union_respected : Grouping.Respected union SameOptions where
  refl _ := fun _ _ _ => rfl
  trans first second := fun _ _ _ => (first _ _ _).trans (second _ _ _)
  append first second := fun onLazy otherwise x => by
    simp only [rules_append, safeAll_append, firstMatch_append]
    rw [first, second]
  makes some := ⟨_, made_of_nonempty some _⟩
  made made := fun onLazy otherwise x => by
    obtain ⟨-, rfl⟩ := nonempty_of_made made
    exact firstMatch_nested _ _ x

/-- What the first row of members accepts the second one does, where its outputs are
dictionaries. -/
theorem SameMembers.accept {members others : List Validator} (same : SameMembers members others)
    {onLazy : Nat → SafeForm} {x : Value} {world after : World} {outputs : List Value}
    (accept : AllAccept onLazy x (rules members) outputs world after)
    (gives : GivesMappings onLazy x (rules others) world) :
    ∃ outputs, AllAccept onLazy x (rules others) outputs world after := by
  have returned : (intersectFrom x (safeAll onLazy (rules members)) (.dict [])).Returns
      world _ after :=
    returns_intersectFrom.mpr ⟨outputs, accept, rfl⟩
  rw [Returns, same.joined gives []] at returned
  obtain ⟨outputs, accept, -⟩ := returns_intersectFrom.mp returned
  exact ⟨outputs, accept⟩

/-- Members that are the same in two rows are the same in the rows one behind the other. -/
theorem SameMembers.append {members others more further : List Validator}
    (same : SameMembers members others)
    (also : SameMembers more further) : SameMembers (members ++ more) (others ++ further) where
  mappings gives := by
    rw [rules_append, givesMappings_append] at gives ⊢
    refine ⟨same.mappings gives.1, fun outputs after accept => ?_⟩
    obtain ⟨outputs, accept⟩ := same.accept accept gives.1
    exact also.mappings (gives.2 outputs after accept)
  joined := by
    intro onLazy x world gives entries
    rw [rules_append, givesMappings_append] at gives
    simp only [rules_append, safeAll_append, intersectFrom_append, ending_bind, same.joined gives.1]
    rcases ended :
      (intersectFrom x (safeAll onLazy (rules others)) (.dict entries)).ending world with
      ⟨fault | failure | merged, after⟩
    · rfl
    · rfl
    · obtain ⟨outputs, accept, joined⟩ := returns_intersectFrom.mp ended
      rw [foldl_joinOutput (accept.mappings gives.1)] at joined
      rw [← joined]
      exact also.joined (gives.2 outputs after accept) _

/-- Grouping the members of an intersection is respected. -/
theorem intersect_respected : Grouping.Respected intersect SameMembers where
  refl _ := ⟨fun gives => gives, fun _ _ => rfl⟩
  trans first second := ⟨fun gives => first.mappings (second.mappings gives),
    fun gives entries =>
      (first.joined (second.mappings gives) entries).trans (second.joined gives entries)⟩
  append := SameMembers.append
  makes some := ⟨_, made_of_nonempty some _⟩
  made made := by
    obtain ⟨-, rfl⟩ := nonempty_of_made made
    refine ⟨fun gives y after returned => ⟨?_, trivial⟩, fun gives entries =>
      ending_intersectFrom_join .nil entries gives⟩
    obtain ⟨outputs, accept, joined⟩ := returns_intersectFrom.mp returned
    rw [foldl_joinOutput (accept.mappings gives)] at joined
    rw [← joined]
    rfl

/-- Schemas make the same choice and the same conjunction whichever way they are grouped: two
choices are the same on every input, and two conjunctions are on inputs for which each member that
accepts outputs a dictionary. A conjunction reports the failure of its first member that fails as it
stands, and else gives one dictionary: each key of the outputs where it comes first, as it is spelt
there, with the value that it is given last. -/
theorem parts_regrouped (first : Grouping) (others : List Grouping) {parts : List Validator}
    (read : Schema.toValidators (Grouping.group first others).schemas = .ok parts) :
    (∃ nested flat, (Grouping.group first others).build union = .ok (.validator nested) ∧
      union parts = .ok flat ∧ nested.safe = flat.safe) ∧
    ∃ nested flat, (Grouping.group first others).build intersect = .ok (.validator nested) ∧
      intersect parts = .ok flat ∧
      ∀ x world, GivesMappings (lazySafe (world.budget x)) x (rules parts) world →
        (nested.safe x).ending world = (flat.safe x).ending world ∧
        (∀ failure after, (flat.safe x).Reports world failure after ↔
          ∃ before member rest outputs reached, rules parts = before ++ member :: rest ∧
            AllAccept (lazySafe (world.budget x)) x before outputs world reached ∧
            (member.safe (lazySafe (world.budget x)) x).Reports reached failure after) ∧
        (∀ outputs after, AllAccept (lazySafe (world.budget x)) x
          (rules parts) outputs world after → ∃ y, (flat.safe x).Returns world y after) ∧
        ∀ y after, (flat.safe x).Returns world y after →
          ∃ outputs merged,
            AllAccept (lazySafe (world.budget x)) x (rules parts) outputs world after ∧
            y = .dict merged ∧ Entries.keys merged = Value.unrepeated
              (Entries.keys (pairsOf outputs)) ∧
            ∀ key, Entries.get? merged key = Entries.get? (pairsOf outputs).reverse key := by
  constructor
  · obtain ⟨given, nested, flat, built, whole, made, same⟩ :=
      Grouping.exists_both union_respected read
    refine ⟨nested, flat, built, whole, ?_⟩
    obtain ⟨-, rfl⟩ := nonempty_of_made made
    obtain ⟨-, rfl⟩ := nonempty_of_made whole
    exact funext fun x => safe_congr fun onLazy => same onLazy _ x
  · obtain ⟨given, nested, flat, built, whole, made, same⟩ :=
      Grouping.exists_both intersect_respected read
    refine ⟨nested, flat, built, whole, fun x world gives => ?_⟩
    obtain ⟨-, rfl⟩ := nonempty_of_made made
    obtain ⟨-, rfl⟩ := nonempty_of_made whole
    refine ⟨?_, fun failure after => ?_, fun outputs after accept => ?_, fun y after returned => ?_⟩
    · rw [ending_safe, ending_safe]
      exact same.joined gives []
    · rw [reports_safe]
      exact reports_intersectFrom
    · exact ⟨_, returns_safe.mpr (returns_intersectFrom.mpr ⟨outputs, accept, rfl⟩)⟩
    · obtain ⟨outputs, accept, joined⟩ := returns_intersectFrom.mp (returns_safe.mp returned)
      rw [foldl_joinOutput (accept.mappings gives)] at joined
      refine ⟨outputs, _, accept, joined.symm, Entries.keys_ofPairs _, fun key => ?_⟩
      rw [Entries.get?_merge_reverse]
      exact Option.or_none

/-- A callback that gives a dictionary whatever it is called with. -/
private def giving (entries : List (Value × Value)) : Schema :=
  .function ⟨"giving", fun _ => pure (.dict entries)⟩

/-- A dictionary with the number one as a key. -/
private def numbered : List (Value × Value) := [(.int 1, .str "a"), (.str "k", .null)]

/-- A dictionary with the same key as a truth value. -/
private def affirmed : List (Value × Value) := [(.bool true, .str "b")]

/-- A dictionary with the number one behind another key. -/
private def further : List (Value × Value) := [(.str "m", .null), (.int 1, .str "c")]

private theorem numbered_affirmed_further :
    Entries.merge (Entries.merge (Entries.merge [] numbered) affirmed) further =
      [(.int 1, .str "c"), (.str "k", .null), (.str "m", .null)] := by
  have one : ((.int 1 : Value) == .bool true) = true := by decide +kernel
  have second : Entries.merge (Entries.merge [] numbered) affirmed =
      [(.int 1, .str "b"), (.str "k", .null)] := by
    have first : Entries.merge [] numbered = numbered := rfl
    rw [first]
    simp only [numbered, affirmed, Entries.merge, List.foldl_cons, List.foldl_nil,
      Entries.insert, one, if_true]
  rw [second]
  rfl

/-- Joined to a dictionary with the number one, a group of the two others gives that key its last
value, in its place and with its spelling. -/
theorem numbered_regrouped :
    ∃ parts choice options nested flat, Schema.toValidators
        (Grouping.group (.single (giving numbered))
          [.group (.single (giving affirmed)) [.single (giving further)]]).schemas = .ok parts ∧
      (Grouping.group (.single (giving numbered))
        [.group (.single (giving affirmed)) [.single (giving further)]]).build union =
          .ok (.validator choice) ∧
      union parts = .ok options ∧ choice.safe = options.safe ∧
      (Grouping.group (.single (giving numbered))
        [.group (.single (giving affirmed)) [.single (giving further)]]).build intersect =
          .ok (.validator nested) ∧
      intersect parts = .ok flat ∧
      GivesMappings (lazySafe ((World.initial "").budget .null)) .null (rules parts)
        (World.initial "") ∧
      (nested.safe .null).ending (World.initial "") = (flat.safe .null).ending (World.initial "") ∧
      (nested.safe .null).Returns (World.initial "")
        (.dict [(.int 1, .str "c"), (.str "k", .null), (.str "m", .null)]) (World.initial "") := by
  obtain ⟨parts, read⟩ : ∃ parts, Schema.toValidators (Grouping.group (.single (giving numbered))
      [.group (.single (giving affirmed)) [.single (giving further)]]).schemas =
        .ok parts := ⟨_, rfl⟩
  obtain ⟨⟨choice, options, chosen, all, safe⟩, nested, flat, built, whole, same⟩ :=
    parts_regrouped _ _ read
  have gives : GivesMappings (lazySafe ((World.initial "").budget .null)) .null (rules parts)
      (World.initial "") := by
    cases read
    rintro y after ⟨⟩
    refine ⟨rfl, ?_⟩
    rintro y after ⟨⟩
    refine ⟨rfl, ?_⟩
    rintro y after ⟨⟩
    exact ⟨rfl, trivial⟩
  obtain ⟨ending, -⟩ := same .null (World.initial "") gives
  refine ⟨parts, choice, options, nested, flat, read, chosen, all, safe, built, whole,
    gives, ending, ?_⟩
  rw [Returns, ending, ← numbered_affirmed_further]
  cases read
  cases whole
  rfl

end Validator

end Conform
