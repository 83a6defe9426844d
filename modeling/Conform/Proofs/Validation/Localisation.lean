import Conform.Proofs.Evaluation.Reaches
import Conform.Proofs.JsonSchema.Admission

/-!
Where failures of nested schemas come from. A failure of objects, lists and tuples in one another is
the failure of one node, seen through the places on the way to it: the places lead to the value that
the node refuses, they are put before its issues and its line, and everything before them was
accepted.
-/
namespace Conform

namespace Value

/-- The places lead from a value to a part of it; at the end a key may be absent. -/
inductive Leads : Value → List Place → Value → Prop
  | here (x : Value) : Leads x [] x
  | item {x y z : Value} {items : List Value} {i : Nat} {places : List Place}
      (sequence : x.items? = some items) (found : items[i]? = some y) (on : Leads y places z) :
      Leads x (.position i :: places) z
  | member {x y z : Value} {entries : List (Value × Value)} {key : Value} {places : List Place}
      (mapping : x.entries? = some entries) (found : (key, y) ∈ entries) (on : Leads y places z) :
      Leads x (.key key :: places) z
  | absent {x : Value} {entries : List (Value × Value)} {key : Value}
      (mapping : x.entries? = some entries) (none : ∀ entry ∈ entries, entry.1 ≠ key) :
      Leads x [.key key] .missing

end Value

namespace Failure

/-- The failure of a part, reported from the places on the way to it. -/
def under (places : List Place) (failure : Failure) : Failure :=
  places.foldr (fun place failure => failure.within place.segment place.label) failure

/-- What places put before a line. -/
def heading (places : List Place) : String :=
  places.foldr (fun place rest => place.label ++ ": " ++ rest) ""

theorem issues_within (failure : Failure) (segment : Value) (label : String) :
    (failure.within segment label).issues = failure.issues.map (·.below [segment]) := rfl

/-- The issues of a failure that is reported from places lie below those places. -/
theorem issues_under (places : List Place) (failure : Failure) :
    (failure.under places).issues = failure.issues.map (·.below (places.map (·.segment))) := by
  induction places with
  | nil =>
    have same : (fun issue : Issue => issue.below []) = id := rfl
    simp only [under, List.foldr_nil, List.map_nil, same, List.map_id]
  | cons place rest ih =>
    change ((failure.under rest).within place.segment place.label).issues = _
    rw [issues_within, ih, List.map_map]
    rfl

/-- The line seen from further out says the places one after the other and then the line as text. -/
theorem line_under {places : List Place} (outside : places ≠ []) (failure : Failure) :
    (failure.under places).line = .str (heading places ++ failure.line.text) := by
  induction places with
  | nil => exact absurd rfl outside
  | cons place rest ih =>
    change Value.str (place.label ++ ": " ++ (failure.under rest).line.text) = _
    cases rest with
    | nil => simp [under, heading]
    | cons next rest =>
      rw [ih (List.cons_ne_nil next rest)]
      simp only [heading, List.foldr_cons, Value.text, String.append_assoc]

end Failure

namespace Rule

/-- Every failure of the rule lies at the root. -/
def Pathless (rule : Rule) : Prop :=
  ∀ budget x world failure after,
    (rule.safe (lazySafe budget) x).Reports world failure after →
      ∀ issue ∈ failure.issues, issue.path = []

def named (fields : List (String × Rule)) : List (Value × Rule) :=
  fields.map fun field => (.str field.1, field.2)

/-- Objects, lists, tuples and wrappers that let absent values through, over rules whose failures
lie at the root. -/
inductive Nested : Rule → Prop
  | leaf {rule : Rule} (pathless : rule.Pathless) : Nested rule
  | accepting {absence : Absence} {inner : Rule} (part : Nested inner) :
      Nested (.accepting absence inner)
  | array {item : Rule} (part : Nested item) : Nested (.array item)
  | tuple {items : List Rule} (parts : ∀ item ∈ items, Nested item) : Nested (.tuple items)
  | looseTuple {items : List Rule} (parts : ∀ item ∈ items, Nested item) :
      Nested (.looseTuple items)
  | tupleWithRest {items : List Rule} {rest : Rule} (parts : ∀ item ∈ items, Nested item)
      (further : Nested rest) : Nested (.tupleWithRest items rest)
  | object {fields : List (String × Rule)} (parts : ∀ field ∈ fields, Nested field.2) :
      Nested (.object (named fields))
  | looseObject {fields : List (String × Rule)} (parts : ∀ field ∈ fields, Nested field.2) :
      Nested (.looseObject (named fields))
  | objectWithRest {fields : List (String × Rule)} {rest : Rule}
      (parts : ∀ field ∈ fields, Nested field.2)
      (further : Nested rest) : Nested (.objectWithRest (named fields) rest)

/-- The way down from a rule and a value in a world to a node, the value that it is given and the
world that it finds: at every level the visits before the one taken were accepted. -/
inductive Descends (onLazy : Nat → SafeForm) :
    World → Rule → Value → List Place → World → Rule → Value → Prop
  | here (world : World) (rule : Rule) (x : Value) : Descends onLazy world rule x [] world rule x
  | through {world reached : World} {absence : Absence} {inner node : Rule} {x y : Value}
      {places : List Place} (present : absence.covers x = false)
      (on : Descends onLazy world inner x places reached node y) :
      Descends onLazy world (.accepting absence inner) x places reached node y
  | into {world between reached : World} {rule node : Rule} {x y : Value}
      {before others : List Visit}
      {visit : Visit} {place : Place} {places : List Place} {outputs : List Value}
      (visits : rule.visits? x = some (before ++ visit :: others))
      (accepted : (runVisits onLazy before).Returns world outputs between)
      (placed : visit.place = some place)
      (on : Descends onLazy between visit.rule visit.value places reached node y) :
      Descends onLazy world rule x (place :: places) reached node y

variable {onLazy : Nat → SafeForm} {rule : Rule} {x : Value} {world after : World}

/-- Whether all declared keys are text, and every visit goes to a place. -/
private def Located : Rule → Prop
  | .object fields | .looseObject fields | .objectWithRest fields _ =>
    ∀ field ∈ fields, ∃ name, field.1 = .str name
  | .intersect _ => False
  | _ => True

/-- A path that leads on from the value under a name leads on from the dictionary. -/
private theorem leads_of_field {entries : List (Value × Value)} {name : String}
    (mapping : x.entries? = some entries) {places : List Place} {z : Value}
    (on : Value.Leads ((Entries.get? entries (.str name)).getD .missing) places z) :
    x.Leads (.key (.str name) :: places) z := by
  cases found : Entries.get? entries (.str name) with
  | some y =>
    rw [found] at on
    obtain ⟨entry, first, rfl⟩ := Option.map_eq_some_iff.mp found
    have equal : (entry.1 == Value.str name) = true := by simpa using List.find?_some first
    have key := Value.eq_str_of_beq equal
    refine .member mapping ?_ on
    rw [← key]
    exact List.mem_of_find?_eq_some first
  | none =>
    rw [found] at on
    have none : ∀ entry ∈ entries, entry.1 ≠ .str name := by
      intro entry member equal
      have different := List.find?_eq_none.mp (Option.map_eq_none_iff.mp found) entry member
      rw [equal] at different
      exact different ((Value.beq_str name name).trans (beq_self_eq_true name))
    cases on with
    | here => exact .absent mapping none
    | item sequence => cases sequence
    | member mapping => cases mapping
    | absent mapping => cases mapping

/-- Every visit goes to a place, and what is found from there on is found from the input. -/
private theorem leads_of_visit {visits : List Visit} {visit : Visit} (located : rule.Located)
    (given : rule.visits? x = some visits) (member : visit ∈ visits) :
    ∃ place, visit.place = some place ∧
      ∀ places z, visit.value.Leads places z → x.Leads (place :: places) z := by
  have ofItems : ∀ {item : Rule} {skipped : Nat} {items : List Value}, x.items? = some items →
      visit ∈ itemVisits item skipped (items.drop skipped) → ∃ place, visit.place = some place ∧
        ∀ places z, visit.value.Leads places z → x.Leads (place :: places) z := by
    intro item skipped items sequence member
    obtain ⟨j, y, found, rfl⟩ := mem_itemVisits member
    rw [List.getElem?_drop] at found
    exact ⟨_, rfl, fun places z on => .item sequence found on⟩
  have ofPositions : ∀ {parts : List Rule} {items : List Value}, x.items? = some items →
      visit ∈ positionVisits 0 parts items → ∃ place, visit.place = some place ∧
        ∀ places z, visit.value.Leads places z → x.Leads (place :: places) z := by
    intro parts items sequence member
    obtain ⟨j, part, y, -, found, rfl⟩ := mem_positionVisits member
    refine ⟨_, rfl, fun places z on => .item sequence ?_ on⟩
    rwa [Nat.zero_add]
  have ofFields : ∀ {entries : List (Value × Value)} {fields : List (Value × Rule)},
      (∀ field ∈ fields, ∃ name, field.1 = .str name) → x.entries? = some entries →
      visit ∈ fieldVisits entries fields → ∃ place, visit.place = some place ∧
        ∀ places z, visit.value.Leads places z → x.Leads (place :: places) z := by
    intro entries fields texts mapping member
    obtain ⟨field, inside, rfl⟩ := mem_fieldVisits member
    obtain ⟨name, key⟩ := texts field inside
    rw [key]
    exact ⟨_, rfl, fun places z on => leads_of_field mapping on⟩
  cases rule with
  | array item =>
    obtain ⟨items, sequence, rfl⟩ := Option.map_eq_some_iff.mp given
    exact ofItems sequence member
  | tuple parts =>
    obtain ⟨items, sequence, given⟩ := Option.bind_eq_some_iff.mp given
    split at given <;> cases given
    exact ofPositions sequence member
  | looseTuple parts =>
    obtain ⟨items, sequence, given⟩ := Option.bind_eq_some_iff.mp given
    split at given <;> cases given
    exact ofPositions sequence member
  | tupleWithRest parts rest =>
    obtain ⟨items, sequence, given⟩ := Option.bind_eq_some_iff.mp given
    split at given <;> cases given
    rcases List.mem_append.mp member with member | member
    · exact ofPositions sequence member
    · exact ofItems sequence member
  | object fields =>
    obtain ⟨entries, mapping, rfl⟩ := Option.map_eq_some_iff.mp given
    exact ofFields located mapping member
  | looseObject fields =>
    obtain ⟨entries, mapping, rfl⟩ := Option.map_eq_some_iff.mp given
    exact ofFields located mapping member
  | objectWithRest fields rest =>
    obtain ⟨entries, mapping, rfl⟩ := Option.map_eq_some_iff.mp given
    rcases List.mem_append.mp member with member | member
    · exact ofFields located mapping member
    · obtain ⟨entry, inside, rfl⟩ := mem_restVisits member
      exact ⟨_, rfl, fun places z on => .member mapping inside on⟩
  | intersect members => cases located
  | _ => cases given

/-- The failure is that of a node, seen through the places on the way down to it. -/
private def Localised (budget : Nat) (world : World) (rule : Rule) (x : Value) (failure : Failure)
    (after : World) : Prop :=
  ∃ places reached node y inner,
    Descends (lazySafe budget) world rule x places reached node y ∧ x.Leads places y ∧
    (node.safe (lazySafe budget) y).Reports reached inner after ∧
    (∀ issue ∈ inner.issues, issue.path = []) ∧ failure = inner.under places

/-- A refusal says nothing about where it was found. -/
private theorem refusal_pathless (rule : Rule) (x : Value) :
    ∀ issue ∈ (rule.refusal x).issues, issue.path = [] := by
  have alone : ∀ failure : Failure, failure.first.path = [] → failure.others = [] →
      ∀ issue ∈ failure.issues, issue.path = [] := by
    rintro failure root none issue member
    rw [Failure.issues, none] at member
    rw [List.mem_singleton.mp member]
    exact root
  cases rule with
  | tuple parts | looseTuple parts | tupleWithRest parts rest =>
    cases found : x.items? <;> simp only [refusal, found] <;> exact alone _ rfl rfl
  | _ => exact alone _ rfl rfl

/-- A structural rule fails as one of its parts does, or refuses its input outright. -/
private theorem localised_of_parts {budget : Nat} (rule : Rule) (structural : rule.isStructural)
    (located : rule.Located)
    (parts : ∀ part ∈ rule.parts, ∀ {x world failure after},
      (part.safe (lazySafe budget) x).Reports world failure after →
        Localised budget world part x failure after)
    {failure : Failure} (reported : (rule.safe (lazySafe budget) x).Reports world failure after) :
    Localised budget world rule x failure after := by
  cases given : rule.visits? x with
  | none =>
    have refused := reported
    rw [safe_eq_reject _ structural given] at refused
    obtain ⟨rfl, -⟩ := Checked.reports_reject.mp refused
    exact ⟨[], world, rule, x, _, .here world rule x, .here x, reported,
      refusal_pathless rule x, rfl⟩
  | some visits =>
    obtain ⟨before, visit, others, outputs, between, inner, rfl, accepted, failed, worded⟩ :=
      reports_runVisits.mp ((reports_of_visits given).mp reported)
    have member : visit ∈ before ++ visit :: others := by simp
    obtain ⟨place, placed, leads⟩ := leads_of_visit located given member
    obtain ⟨places, reached, node, y, deepest, descends, on, refused, root, rfl⟩ :=
      parts visit.rule (mem_parts_of_visit given member) failed
    refine ⟨place :: places, reached, node, y, deepest, .into given accepted placed descends,
      leads places y on, refused, root, ?_⟩
    rw [placed] at worded
    exact (Failure.placed?_eq_some.mp worded).2.symm

private theorem texts_named (fields : List (String × Rule)) :
    ∀ field ∈ named fields, ∃ name, field.1 = .str name := by
  intro field member
  obtain ⟨entry, -, rfl⟩ := List.mem_map.mp member
  exact ⟨entry.1, rfl⟩

private theorem mem_parts_named {fields : List (String × Rule)} {part : Rule}
    (member : part ∈ (named fields).map (·.2)) : ∃ field ∈ fields, field.2 = part := by
  obtain ⟨entry, listed, rfl⟩ := List.mem_map.mp member
  obtain ⟨field, inside, rfl⟩ := List.mem_map.mp listed
  exact ⟨field, inside, rfl⟩

/-- A reported failure is localised: what led to it, what was accepted on the way, and what it says.
-/
private theorem Nested.localised {budget : Nat} (nested : Nested rule) {x : Value} {world : World}
    {failure : Failure} {after : World}
    (reported : (rule.safe (lazySafe budget) x).Reports world failure after) :
    Localised budget world rule x failure after := by
  induction nested generalizing x world failure after with
  | leaf pathless =>
    exact ⟨[], world, _, x, failure, .here world _ x, .here x, reported,
      pathless budget x world failure after reported, rfl⟩
  | @accepting absence inner _ ih =>
    cases covered : absence.covers x with
    | true =>
      simp only [safe, SafeForm.accepting, covered, if_true, Checked.reports_pure] at reported
    | false =>
      simp only [safe, SafeForm.accepting, covered, Bool.false_eq_true, if_false] at reported
      obtain ⟨places, reached, node, y, deepest, descends, rest⟩ := ih reported
      exact ⟨places, reached, node, y, deepest, .through covered descends, rest⟩
  | @array item _ ih =>
    refine localised_of_parts (.array item) rfl trivial (fun part member => ?_) reported
    cases List.mem_singleton.mp member
    exact ih
  | @tuple items _ ih => exact localised_of_parts (.tuple items) rfl trivial ih reported
  | @looseTuple items _ ih => exact localised_of_parts (.looseTuple items) rfl trivial ih reported
  | @tupleWithRest items rest _ _ ih further =>
    refine localised_of_parts (.tupleWithRest items rest) rfl trivial
      (fun part member => ?_) reported
    rcases List.mem_append.mp member with member | member
    · exact ih part member
    · cases List.mem_singleton.mp member
      exact further
  | @object fields _ ih =>
    refine localised_of_parts (.object (named fields)) rfl (texts_named fields)
      (fun part member => ?_)
      reported
    obtain ⟨field, inside, rfl⟩ := mem_parts_named member
    exact ih field inside
  | @looseObject fields _ ih =>
    refine localised_of_parts (.looseObject (named fields)) rfl (texts_named fields)
      (fun part member => ?_) reported
    obtain ⟨field, inside, rfl⟩ := mem_parts_named member
    exact ih field inside
  | @objectWithRest fields rest _ _ ih further =>
    refine localised_of_parts (.objectWithRest (named fields) rest) rfl (texts_named fields)
      (fun part member => ?_) reported
    rcases List.mem_append.mp member with member | member
    · obtain ⟨field, inside, rfl⟩ := mem_parts_named member
      exact ih field inside
    · cases List.mem_singleton.mp member
      exact further

/-- The failures of a type check lie at the root. -/
theorem pathless_leaf (l : Leaf) : Pathless (.leaf l) := by
  intro budget x world failure after reported issue member
  obtain ⟨-, rfl, -⟩ := SafeForm.reports_provided.mp reported
  cases List.mem_singleton.mp member
  rfl

end Rule

namespace Validator

/-- A failure of nested schemas is the failure of one node. The places on the way down to it lead
through the input to the value that the node refuses, or to an absent key; at every level what comes
before was accepted; the issues are those of the node with the places as their path, and the line is
that of the node after the labels of the places. -/
theorem failure_localised (v : Validator) (nested : v.rule.Nested) {x : Value} {world after : World}
    {failure : Failure} (reported : (v.safe x).Reports world failure after) :
    ∃ places reached node y inner,
      Rule.Descends (Rule.lazySafe (world.budget x)) world v.rule x places reached node y ∧
      x.Leads places y ∧
      (node.safe (Rule.lazySafe (world.budget x)) y).Reports reached inner after ∧
      (∀ issue ∈ inner.issues, issue.path = []) ∧
      failure.issues = inner.issues.map (fun issue =>
        { issue with path := places.map (·.segment) }) ∧
      failure.line = if places.isEmpty then inner.line
        else .str (Failure.heading places ++ inner.line.text) := by
  obtain ⟨places, reached, node, y, inner, descends, leads, refused, root, rfl⟩ :=
    nested.localised (reports_safe.mp reported)
  refine ⟨places, reached, node, y, inner, descends, leads, refused, root, ?_, ?_⟩
  · rw [Failure.issues_under]
    refine List.map_congr_left fun issue member => ?_
    rw [Issue.below, root issue member, List.append_nil]
  · cases places with
    | nil => rfl
    | cons place rest => exact Failure.line_under (List.cons_ne_nil place rest) inner

/-- An account: a user with a name and perhaps a list of numbers. -/
private def account : Validator :=
  object
    [(.str "user",
      object [(.str "name", leaf .string), (.str "marks", optional (array (leaf .integer)))])]

private theorem account_nested : account.rule.Nested := by
  have user : Rule.Nested (.object (Rule.named [("name", .leaf .string),
      ("marks", .accepting .missing (.array (.leaf .integer)))])) := by
    refine .object fun field member => ?_
    rcases List.mem_cons.mp member with rfl | member
    · exact .leaf (Rule.pathless_leaf .string)
    · cases List.mem_singleton.mp member
      exact .accepting (.array (.leaf (Rule.pathless_leaf .integer)))
  have outer : ∀ field ∈ [("user", Rule.object (Rule.named [("name", .leaf .string),
      ("marks", .accepting .missing (.array (.leaf .integer)))]))], Rule.Nested field.2 := by
    intro field member
    cases List.mem_singleton.mp member
    exact user
  exact .object outer

/-- An account with a mark that is no number. -/
private def mistaken : Value :=
  .dict [(.str "user", .dict [(.str "name", .str "a"), (.str "marks", .list [.int 1, .null])])]

/-- A mark that is no number is found by following its path, and the line names the way to it. -/
theorem account_failure_localised :
    account.rule.Nested ∧ ∃ failure,
      (account.safe mistaken).Reports (World.initial "account") failure (World.initial "account") ∧
      failure.line = .str "user: marks: [1]: Expected integer" ∧
      ∃ places y, mistaken.Leads places y ∧
        places.map (·.segment) = [.str "user", .str "marks", .int 1] := by
  have reported : (account.safe mistaken).Reports (World.initial "account")
      ⟨.str "user: marks: [1]: Expected integer", ⟨.str "Expected integer",
        [.str "user", .str "marks", .int 1], .missing, some "integer", none⟩, []⟩
      (World.initial "account") := rfl
  refine ⟨account_nested, _, reported, rfl, ?_⟩
  obtain ⟨places, reached, node, y, inner, -, leads, -, -, issues, -⟩ :=
    failure_localised account account_nested reported
  refine ⟨places, y, leads, ?_⟩
  exact (congrArg Issue.path (List.cons.inj issues).1).symm

end Validator

end Conform
