import Conform.Proofs.JsonSchema.Outlines
import Conform.Proofs.Validation.RegroupedSteps

/-!
Constraints of grouped checks in document schemas. The document schema of a sequence begins with
that of its first step and takes over the constraints of those later steps that are checks
themselves. A sequence among the later steps is passed over, with the checks in it, although it
validates and describes itself as they do (`Validator.toDocument_regrouped`).
-/
namespace Conform

theorem Documentation.empty_overlay (docs : Documentation) : empty.overlay docs = docs := by
  simp only [overlay, empty, Option.orElse_eq_orElse, Option.orElse_eq_or, Option.or_none]

namespace Keywords

variable {keywords : Keywords} {docs : Documentation} {name : Value}

theorem overlay_append (first second : Keywords) :
    keywords.overlay (first ++ second) = (keywords.overlay first).overlay second :=
      List.foldl_append

theorem get?_overlay (further : Keywords) : Entries.get? (keywords.overlay further) name =
    (Entries.get? further.reverse name).or (Entries.get? keywords name) :=
  Entries.get?_merge_reverse keywords further name

def note (name : String) (said : Option Value) : Keywords :=
  (said.map fun value => (Value.str name, Fragment.value value)).toList

def notes (docs : Documentation) : Keywords :=
  note "description" docs.description ++ note "title" docs.title ++
    note "examples" (docs.examples.map .list) ++ note "deprecated" docs.deprecated ++
    note "readOnly" docs.readonly

theorem overlay_note (name : String) (said : Option Value) :
    keywords.overlay (note name said) = said.elim keywords (keywords.putValue name) := by
  cases said <;> rfl

/-- The address of the dialect is added by overlaying it. -/
theorem addressed_eq_overlay (includeAddress : Bool) (address : String) :
    (if includeAddress then keywords.putValue "$schema" (.str address) else keywords) =
      keywords.overlay (note "$schema" (if includeAddress then some (.str address) else none)) := by
  cases includeAddress <;> rfl

/-- Documentation is added by overlaying its keywords. -/
theorem document_eq_overlay (docs : Documentation) :
    keywords.document docs .missing = keywords.overlay (notes docs) := by
  simp only [notes, overlay_append, overlay_note]
  rfl

/-- Keywords that are not constraints: no step gives them as parameters. -/
def Unconstraining (keywords : Keywords) : Prop :=
  ∀ entry ∈ keywords, ∃ name, entry.1 = .str name ∧ name ∉ copied

theorem unconstraining_note {name : String} (uncopied : name ∉ copied) (said : Option Value) :
    (note name said).Unconstraining := by
  cases said with
  | none => exact nofun
  | some value => exact List.forall_mem_singleton.mpr ⟨name, rfl, uncopied⟩

theorem unconstraining_notes (docs : Documentation) : (notes docs).Unconstraining := by
  simp only [notes, Unconstraining, List.forall_mem_append, and_assoc]
  exact ⟨unconstraining_note (by decide) _, unconstraining_note (by decide) _,
    unconstraining_note (by decide) _, unconstraining_note (by decide) _,
      unconstraining_note (by decide) _⟩

theorem Unconstraining.get?_eq_none (unconstraining : keywords.Unconstraining) {name : String}
    (constraint : name ∈ copied) : Entries.get? keywords (.str name) = none := by
  refine get?_eq_none_of_others fun entry member => ?_
  obtain ⟨other, spelt, uncopied⟩ := unconstraining entry member
  exact ⟨other, spelt, (ne_of_mem_of_not_mem constraint uncopied).symm⟩

theorem Unconstraining.append {further : Keywords} (first : keywords.Unconstraining)
    (second : further.Unconstraining) : Unconstraining (keywords ++ further) :=
  List.forall_mem_append.mpr ⟨first, second⟩

theorem Unconstraining.reverse (unconstraining : keywords.Unconstraining) :
    Unconstraining (List.reverse keywords) :=
  fun entry member => unconstraining entry (List.mem_reverse.mp member)

theorem get?_note_eq_none_iff {spelling : String} {said : Option Value} :
    Entries.get? (note spelling said).reverse name = none ↔
      (Value.str spelling == name) = true → said = none := by
  cases said with
  | none => exact ⟨fun _ _ => rfl, fun _ => rfl⟩
  | some value =>
    change Entries.get? [(Value.str spelling, Fragment.value value)] name = none ↔ _
    rw [Entries.get?_cons]
    split <;> simp_all [Entries.get?]

/-- Documentation overlaid with a later one says something wherever it did. -/
theorem get?_notes_of_overlay {later : Documentation}
    (silent : Entries.get? (notes (docs.overlay later)).reverse name = none) :
    Entries.get? (notes docs).reverse name = none := by
  simp only [notes, List.reverse_append, Entries.get?_append, Option.or_eq_none_iff,
    get?_note_eq_none_iff,
    Documentation.overlay, Option.orElse_eq_orElse, Option.orElse_eq_or,
      Option.map_eq_none_iff] at silent ⊢
  obtain ⟨readonly, deprecated, examples, title, description⟩ := silent
  exact ⟨fun same => (readonly same).2, fun same => (deprecated same).2, fun same =>
    (examples same).2,
    fun same => (title same).2, fun same => (description same).2⟩

theorem get?_notes_of_withDocsOf {steps : List (Option Metadata)}
    (silent : Entries.get? (notes (Metadata.withDocsOf docs steps)).reverse name = none) :
    Entries.get? (notes docs).reverse name = none := by
  induction steps generalizing docs with
  | nil => exact silent
  | cons step rest ih => exact get?_notes_of_overlay (ih silent)

/-- The constraints that schemas give, in order. -/
def constraintsOf (schemas : List Schema) : Keywords :=
  schemas.flatMap fun schema => ofParameters (Metadata.parametersOf schema.metadata?)

theorem constraintsOf_append (schemas others : List Schema) :
    constraintsOf (schemas ++ others) = constraintsOf schemas ++ constraintsOf others :=
      List.flatMap_append

/-- Constraints are given under a few names. -/
theorem get?_constraintsOf_eq_none (schemas : List Schema)
    (free : ∀ constraint ∈ copied, name ≠ .str constraint) :
    Entries.get? (constraintsOf schemas).reverse name = none := by
  refine Entries.get?_eq_none_iff.mpr fun entry member => ?_
  obtain ⟨schema, -, given⟩ := List.mem_flatMap.mp (List.mem_reverse.mp member)
  obtain ⟨constraint, taken, spelt⟩ := spelt_of_mem_ofParameters given
  refine Bool.eq_false_iff.mpr fun same => free constraint taken ?_
  rw [spelt] at same
  exact Value.eq_str_of_beq (BEq.symm same)

/-- Constraints between keywords that are none are told apart by what is given last under some
name. -/
theorem overlaid_agree_iff {base closing : Keywords} (start : base.Unconstraining)
    (last : closing.Unconstraining) (schemas others : List Schema) :
    (∀ name, Entries.get? ((base.overlay (constraintsOf schemas)).overlay closing) name =
      Entries.get? ((base.overlay (constraintsOf others)).overlay closing) name) ↔
    ∀ name, Entries.get? (constraintsOf schemas).reverse name =
      Entries.get? (constraintsOf others).reverse name := by
  simp only [get?_overlay]
  constructor
  · intro agree name
    by_cases constraint : ∃ spelling ∈ copied, name = .str spelling
    · obtain ⟨spelling, taken, rfl⟩ := constraint
      have here := agree (.str spelling)
      simpa only [last.reverse.get?_eq_none taken, start.get?_eq_none taken, Option.none_or,
        Option.or_none] using here
    · have free : ∀ spelling ∈ copied, name ≠ .str spelling :=
        fun spelling taken same => constraint ⟨spelling, taken, same⟩
      rw [get?_constraintsOf_eq_none _ free, get?_constraintsOf_eq_none _ free]
  · intro agree name
    rw [agree name]

end Keywords

namespace Grouping

/-- The schema that stands for itself. -/
def single? : Grouping → Option Schema
  | .single schema => some schema
  | .group _ _ => none

/-- The schemas whose constraints the document schema of the groups takes over: those that begin a
group, and those behind them that stand for themselves. -/
def heeded : Grouping → List Schema
  | .single schema => [schema]
  | .group first others => heeded first ++ others.filterMap single?

/-- What is made of a group is made of the validators that its parts are read as. -/
theorem made_of_build {make : List Validator → Except Misuse Validator} {first : Grouping}
    {others : List Grouping}
    {schema : Schema} (built : (group first others).build make = .ok schema) :
    ∃ part parts v steps w, first.build make = .ok part ∧ buildAll make others = .ok parts ∧
      part.toValidator = .ok v ∧ Schema.toValidators parts = .ok steps ∧ make (v :: steps) = .ok w ∧
      schema = .validator w := by
  rw [build] at built
  obtain ⟨part, one, built⟩ := bind_ok built
  obtain ⟨parts, more, built⟩ := bind_ok built
  obtain ⟨vs, read, built⟩ := bind_ok built
  obtain ⟨w, made, built⟩ := bind_ok built
  cases built
  obtain ⟨v, steps, given, further, rfl⟩ := Schema.toValidators_cons read
  exact ⟨part, parts, v, steps, w, one, more, given, further, made, rfl⟩

end Grouping

namespace Validator

open Projection

/-- A type check or exact values, documented or not. -/
inductive IsLeaf : Validator → Prop
  | leaf (l : Leaf) : IsLeaf (leaf l)
  | instanceOf (cls : Class) : IsLeaf (.instanceOf cls)
  | literal (value : Value) : IsLeaf (.literal value)
  | oneOf {values : List Value} {v : Validator} (made : Validator.oneOf values = .ok v) : IsLeaf v
  | redocument {v : Validator} (change : Documentation → Documentation) (leaf : IsLeaf v) :
      IsLeaf (v.redocument change)

/-- A check that is described by its constraints, documented or not. -/
def IsCheck (v : Validator) : Prop :=
  ∃ parameters docs, v.metadata = some ⟨.check, parameters, .absent, docs, .missing⟩

variable {draft : String} {base given further outline : Keywords} {v w : Validator}
  {steps checks : List Validator}

theorem isCheck_test (check : Check) (message : String) (parameters : List (String × Value)) :
    (test check message parameters).IsCheck := ⟨_, .empty, rfl⟩

theorem IsCheck.redocument (check : v.IsCheck) (change : Documentation → Documentation) :
    (v.redocument change).IsCheck := by
  obtain ⟨parameters, docs, described⟩ := check
  refine ⟨parameters, change docs, ?_⟩
  rw [Validator.redocument, withMetadata, described]
  rfl

/-- The document schema says under every name what a base, the constraints and the documentation say
together. -/
def Constrained (draft : String) (base given : Keywords) (v : Validator) : Prop :=
  ∃ outline, Outlined draft v outline ∧ ∀ name, Entries.get? (v.annotated outline) name =
    Entries.get? ((base.overlay given).overlay (Keywords.notes (Metadata.docsOf v.metadata))) name

theorem annotated_eq_overlay (plain : (v.metadata.map (·.default)).getD .missing = .missing) :
    v.annotated outline = outline.overlay (Keywords.notes (Metadata.docsOf v.metadata)) := by
  rw [annotated, plain, Keywords.document_eq_overlay]

/-- Leaves say nothing under the names of constraints, neither in their document schema nor as
parameters. -/
theorem IsLeaf.unconstraining (leaf : v.IsLeaf) (draft : String) :
    (∃ base, base.Unconstraining ∧ Outlined draft v base) ∧
      Keywords.ofParameters (Metadata.parametersOf v.metadata) = [] ∧
      (v.metadata.map (·.default)).getD .missing = .missing := by
  have single : ∀ {name : String} (fragment : Fragment), name ∉ Keywords.copied →
      Keywords.Unconstraining [(.str name, fragment)] :=
    fun _ uncopied => List.forall_mem_singleton.mpr ⟨_, rfl, uncopied⟩
  induction leaf with
  | leaf l =>
    refine ⟨?_, rfl, rfl⟩
    cases l with
    | string | number | integer | boolean | null =>
      exact ⟨Keywords.ofType _, single _ (by decide), outlined_of_metadata rfl fun _ => rfl⟩
    | any | unknown => exact ⟨([] : Keywords), nofun, outlined_of_metadata rfl fun _ => rfl⟩
    | never => exact ⟨[(.str "not", .object [])], single _ (by decide),
        outlined_of_metadata rfl fun _ => rfl⟩
  | instanceOf cls =>
    exact ⟨⟨([] : Keywords), nofun, outlined_of_metadata rfl fun _ => rfl⟩, rfl, rfl⟩
  | literal value =>
    exact ⟨⟨_, single (.value value) (by decide), outlined_of_metadata rfl fun _ => rfl⟩, rfl, rfl⟩
  | @oneOf values v made =>
    obtain ⟨-, -, rfl⟩ := eq_of_oneOf made
    exact ⟨⟨_, single (.value (.list values)) (by decide), outlined_of_metadata rfl fun _ => rfl⟩,
      rfl, rfl⟩
  | redocument change _ ih =>
    obtain ⟨⟨base, unconstraining, outlined⟩, silent, plain⟩ := ih
    refine ⟨⟨base, unconstraining, outlined.redocument change⟩, ?_⟩
    obtain ⟨metadata, described, -⟩ := outlined
    rw [described] at silent plain
    simp only [Validator.redocument, withMetadata, described]
    exact ⟨silent, plain⟩

/-- Leaves give no constraints. -/
theorem IsLeaf.constrained (leaf : v.IsLeaf) (draft : String) :
    ∃ base, base.Unconstraining ∧ Constrained draft base [] v := by
  obtain ⟨⟨base, unconstraining, outlined⟩, -, plain⟩ := leaf.unconstraining draft
  refine ⟨base, unconstraining, base, outlined, fun name => ?_⟩
  rw [annotated_eq_overlay plain]
  rfl

/-- A sequence adds the constraints of its later steps to those of the first one. -/
theorem Constrained.pipe (first : Constrained draft base given v)
    (made : Validator.pipe (v :: steps) = .ok w)
    (adds : ∀ keywords, withChecks keywords (steps.map .validator) = keywords.overlay further) :
    Constrained draft base (given ++ further) w := by
  obtain ⟨outline, outlined, looked⟩ := first
  obtain ⟨described, -⟩ := pipe_answers made
  have docs : Metadata.docsOf w.metadata = Metadata.withDocsOf (Metadata.docsOf v.metadata)
      (descriptions steps) := by
    rw [described]
    change Metadata.withDocsOf (Documentation.empty.overlay (Metadata.docsOf v.metadata))
      (descriptions steps) = _
    rw [Documentation.empty_overlay]
  have plain : (w.metadata.map (·.default)).getD .missing = .missing := by
    rw [described]
    rfl
  refine ⟨_, outlined.pipe made, fun name => ?_⟩
  simp only [annotated_eq_overlay plain, adds, Keywords.overlay_append,
    Keywords.get?_overlay, looked]
  cases said : Entries.get? (Keywords.notes (Metadata.docsOf w.metadata)).reverse name with
  | some fragment => rfl
  | none =>
    -- Where the documentation of the sequence says nothing, that of its first step says nothing
    -- either.
    rw [docs] at said
    rw [Keywords.get?_notes_of_withDocsOf said]
    rfl

/-- The keywords behind the constraints: documentation, and the address of the dialect if it is
asked for. -/
def closing (v : Validator) (includeAddress : Bool) (address : String) : Keywords :=
  Keywords.notes (Metadata.docsOf v.metadata) ++
    Keywords.note "$schema" (if includeAddress then some (.str address) else none)

theorem unconstraining_closing (v : Validator) (includeAddress : Bool) (address : String) :
    (v.closing includeAddress address).Unconstraining :=
  (Keywords.unconstraining_notes _).append (Keywords.unconstraining_note (by decide) _)

/-- A constrained validator has one document schema in every world in which the dialect is chosen.
-/
theorem Constrained.document {address : String} (constrained : Constrained draft base given v)
    (found : Settings.draftAddress? draft = some address) (includeAddress : Bool) : ∃ keywords,
      (∀ asked world, (Schema.chosenDraft asked).Returns world draft world →
        (Schema.toDocument ⟨includeAddress, asked, false, []⟩ (.validator v)).Returns world
          keywords world) ∧
      ∀ name, Entries.get? keywords name =
        Entries.get? ((base.overlay given).overlay (v.closing includeAddress address)) name := by
  obtain ⟨outline, outlined, looked⟩ := constrained
  refine ⟨_, fun _ _ chosen =>
    Schema.returns_toDocument_of_chosen chosen found includeAddress outlined.projected,
      fun name => ?_⟩
  rw [Keywords.addressed_eq_overlay, closing, Keywords.overlay_append,
    Keywords.get?_overlay, looked, ← Keywords.get?_overlay]

/-- Steps that are the same make sequences that answer alike and say the same. -/
theorem SameSteps.sequences {others : List Validator} (same : SameSteps steps others)
    (made : Validator.pipe steps = .ok v) (whole : Validator.pipe others = .ok w) :
    v.safe = w.safe ∧ Metadata.parametersOf v.metadata = Metadata.parametersOf w.metadata ∧
      Metadata.docsOf v.metadata = Metadata.docsOf w.metadata := by
  obtain ⟨described, safe, -⟩ := pipe_answers made
  obtain ⟨likewise, safely, -⟩ := pipe_answers whole
  refine ⟨funext fun x => safe_congr fun onLazy => ?_, ?_⟩
  · rw [safe, safely, same.safe]
  · rw [described, likewise, same.description]
    exact ⟨rfl, rfl⟩

theorem withChecks_cons (check : v.IsCheck) (keywords : Keywords) (rest : List Schema) :
    withChecks keywords (.validator v :: rest) =
      withChecks (keywords.overlay (.ofParameters (Metadata.parametersOf v.metadata))) rest := by
  obtain ⟨parameters, docs, described⟩ := check
  simp only [withChecks, List.foldl_cons, Schema.metadata?, described, if_true]
  rfl

/-- Checks add the constraints that they give. -/
theorem withChecks_checks (constraining : ∀ check ∈ checks, check.IsCheck) (keywords : Keywords) :
    withChecks keywords (checks.map .validator) =
      keywords.overlay (Keywords.constraintsOf (checks.map .validator)) := by
  induction checks generalizing keywords with
  | nil => rfl
  | cons check rest ih =>
    obtain ⟨here, others⟩ := List.forall_mem_cons.mp constraining
    have added := withChecks_cons here keywords (rest.map .validator)
    rw [ih others, ← Keywords.overlay_append] at added
    exact added

/-- Of the later steps of a sequence those add their constraints that are checks themselves. -/
theorem withChecks_built {others : List Grouping} {parts : List Schema}
    (built : Grouping.buildAll Validator.pipe others = .ok parts)
    (read : Schema.toValidators parts = .ok steps)
    (row : Grouping.schemasOf others = checks.map .validator)
    (constraining : ∀ check ∈ checks, check.IsCheck)
    (keywords : Keywords) : withChecks keywords (steps.map .validator) =
      keywords.overlay (Keywords.constraintsOf (others.filterMap Grouping.single?)) := by
  induction others generalizing parts steps checks keywords with
  | nil =>
    cases built
    cases read
    rfl
  | cons part rest ih =>
    rw [Grouping.buildAll] at built
    obtain ⟨schema, one, built⟩ := bind_ok built
    obtain ⟨behind, more, built⟩ := bind_ok built
    cases built
    obtain ⟨step, later, given, further, rfl⟩ := Schema.toValidators_cons read
    rw [Grouping.schemasOf] at row
    obtain ⟨here, beyond, rfl, hereRow, beyondRow⟩ := List.append_eq_map_iff.mp row
    have others := ih more further beyondRow.symm fun check member =>
      constraining check (List.mem_append_right _ member)
    cases part with
    | single check =>
      cases one
      obtain ⟨c, rfl, rfl⟩ := List.map_eq_singleton_iff.mp hereRow
      obtain rfl : c = step := Except.ok.inj given
      have added :=
        withChecks_cons (constraining c (List.mem_append_left _ List.mem_cons_self)) keywords
        (later.map .validator)
      rw [others, ← Keywords.overlay_append] at added
      exact added
    | group first inner =>
      obtain ⟨-, -, v, inside, w, -, -, -, -, made, rfl⟩ := Grouping.made_of_build one
      obtain rfl : w = step := Except.ok.inj given
      obtain ⟨described, -⟩ := pipe_answers made
      have passed : withChecks keywords (.validator w :: later.map .validator) =
          withChecks keywords (later.map .validator) := by
        simp only [withChecks, List.foldl_cons, Schema.metadata?, described, sequenceOf]
        rfl
      exact passed.trans (others keywords)

/-- A leaf type at the head gives no constraints. -/
theorem constraintsOf_head {head : Schema} (read : head.toValidator = .ok v) (leaf : v.IsLeaf) :
    Keywords.constraintsOf [head] = [] := by
  obtain ⟨-, silent, -⟩ := leaf.unconstraining ""
  have given : Keywords.ofParameters (Metadata.parametersOf head.metadata?) = [] := by
    cases head with
    | validator w =>
      cases read
      exact silent
    | foreign object =>
      cases read
      rcases object with ⟨call, result | result, misplaced, metadata⟩ <;> exact silent
    | _ => rfl
  rw [Keywords.constraintsOf, List.flatMap_singleton, given]

/-- The document schema of nested groups takes over the constraints of the steps that it heeds. -/
theorem constrained_of_built {head : Schema} (read : head.toValidator = .ok v) (leaf : v.IsLeaf)
    (start : Constrained draft base [] v) :
      ∀ (grouping : Grouping) {checks : List Validator} {schema : Schema}
      {w : Validator}, grouping.schemas = head :: checks.map .validator →
        (∀ check ∈ checks, check.IsCheck) →
      grouping.build Validator.pipe = .ok schema → schema.toValidator = .ok w →
      Constrained draft base (Keywords.constraintsOf grouping.heeded) w
  | .single schema, checks, _, w, row, _, built, given => by
    cases built
    obtain ⟨rfl, -⟩ := List.cons.inj row
    rw [read] at given
    cases given
    rwa [Grouping.heeded, constraintsOf_head read leaf]
  | .group first others, checks, _, w, row, constraining, built, given => by
    obtain ⟨part, parts, v', steps, w', one, more, turned, further, made, rfl⟩ :=
      Grouping.made_of_build built
    cases given
    rw [Grouping.schemas] at row
    obtain ⟨here, beyond, rfl, hereRow, beyondRow⟩ :
        ∃ here beyond, checks = here ++ beyond ∧ first.schemas = head :: here.map .validator ∧
          Grouping.schemasOf others = beyond.map .validator := by
      obtain ⟨one, further, split⟩ := List.exists_cons_of_ne_nil first.schemas_ne_nil
      rw [split, List.cons_append] at row
      obtain ⟨rfl, tail⟩ := List.cons.inj row
      obtain ⟨here, beyond, rfl, hereRow, beyondRow⟩ := List.append_eq_map_iff.mp tail
      exact ⟨here, beyond, rfl, by rw [split, hereRow], beyondRow.symm⟩
    have leading := constrained_of_built read leaf start first hereRow
      (fun check member => constraining check (List.mem_append_left _ member)) one turned
    have adds := withChecks_built more further beyondRow
      (fun check member => constraining check (List.mem_append_right _ member))
    rw [Grouping.heeded, Keywords.constraintsOf_append]
    exact leading.pipe made adds

theorem toValidators_map (vs : List Validator) :
    Schema.toValidators (vs.map .validator) = .ok vs := by
  induction vs with
  | nil => rfl
  | cons v rest ih =>
    rw [List.map_cons, Schema.toValidators, ih]
    rfl

/-- A leaf type and checks make the same sequence whichever way they are grouped into sequences: it
answers alike and has the same parameters. The document schemas are the same as well if, and only
if, under every name the last constraint given is one that the document schema of the groups heeds:
in every known dialect, be it asked for or the one that holds by default. -/
theorem toDocument_regrouped {first : Grouping} {others : List Grouping} {head : Schema}
    (row : (Grouping.group first others).schemas = head :: checks.map .validator)
    (read : head.toValidator = .ok v) (leaf : v.IsLeaf)
    (constraining : ∀ check ∈ checks, check.IsCheck)
    (known : (Settings.draftAddress? draft).isSome) (includeAddress : Bool) :
    ∃ nested flat ofNested ofFlat,
      (Grouping.group first others).build Validator.pipe = .ok (.validator nested) ∧
      Validator.pipe (v :: checks) = .ok flat ∧ nested.safe = flat.safe ∧
      Metadata.parametersOf nested.metadata = Metadata.parametersOf flat.metadata ∧
      (∀ asked world, (Schema.chosenDraft asked).Returns world draft world →
        (Schema.toDocument ⟨includeAddress, asked, false, []⟩ (.validator nested)).Returns world
          ofNested world) ∧
      (∀ asked world, (Schema.chosenDraft asked).Returns world draft world →
        (Schema.toDocument ⟨includeAddress, asked, false, []⟩ (.validator flat)).Returns world
          ofFlat world) ∧
      ((∀ name, Entries.get? ofNested name = Entries.get? ofFlat name) ↔
        ∀ name,
          Entries.get? (Keywords.constraintsOf (Grouping.group first others).heeded).reverse name =
          Entries.get?
            (Keywords.constraintsOf (Grouping.group first others).schemas).reverse name) := by
  obtain ⟨address, found⟩ := Option.isSome_iff_exists.mp known
  obtain ⟨base, unconstraining, start⟩ := leaf.constrained draft
  have turned : Schema.toValidators (Grouping.group first others).schemas = .ok (v :: checks) := by
    rw [row, Schema.toValidators, read, toValidators_map]
    rfl
  obtain ⟨given, nested, flat, built, whole, made, same⟩ :=
    Grouping.exists_both pipe_respected turned
  obtain ⟨sameSafe, sameParameters, sameDocs⟩ := same.sequences made whole
  have all : Keywords.constraintsOf (Grouping.group first others).schemas =
      [] ++ Keywords.constraintsOf (checks.map .validator) := by
    rw [row, ← constraintsOf_head read leaf, ← Keywords.constraintsOf_append]
    rfl
  have grouped := constrained_of_built read leaf start _ row constraining built rfl
  have sequenced := start.pipe whole (withChecks_checks constraining)
  obtain ⟨ofNested, returned, looked⟩ := grouped.document found includeAddress
  obtain ⟨ofFlat, flatReturned, flatLooked⟩ := sequenced.document found includeAddress
  refine ⟨nested, flat, ofNested, ofFlat, built, whole, sameSafe, sameParameters, returned,
    flatReturned, ?_⟩
  have sameClosing : nested.closing includeAddress address =
      flat.closing includeAddress address := by
    rw [closing, closing, sameDocs]
  simp only [looked, flatLooked, sameClosing, ← all]
  exact Keywords.overlaid_agree_iff unconstraining
    (unconstraining_closing flat includeAddress address) _ _

/-- A text that is not too short, as a sequence of its own. -/
private def lengthy : Grouping :=
  .group (.single (.cls .str)) [.single (.validator (minLength (.int 2)))]

/-- A sequence that begins with a sequence has the document schema of all steps in a row. -/
theorem lengthy_regrouped :
    (Grouping.group lengthy
      [.single (.validator ((maxLength (.int 8)).brand (.str "Code")))]).schemas =
      .cls .str :: [minLength (.int 2), (maxLength (.int 8)).brand (.str "Code")].map .validator ∧
    (Schema.cls .str).toValidator = .ok (leaf .string) ∧ (leaf .string).IsLeaf ∧
    (∀ check ∈ [minLength (.int 2), (maxLength (.int 8)).brand (.str "Code")], check.IsCheck) ∧
    (Settings.draftAddress? "draft-07").isSome ∧
    (∀ asked ∈ [none, some "draft-07"],
      (Schema.chosenDraft asked).Returns (World.initial "") "draft-07" (World.initial "")) ∧
    ∃ nested flat ofNested ofFlat,
      (Grouping.group lengthy
        [.single (.validator ((maxLength (.int 8)).brand (.str "Code")))]).build
        Validator.pipe = .ok (.validator nested) ∧
      Validator.pipe [leaf .string, minLength (.int 2),
        (maxLength (.int 8)).brand (.str "Code")] = .ok flat ∧
      (∀ asked ∈ [none, some "draft-07"],
        (Schema.toDocument ⟨true, asked, false, []⟩ (.validator nested)).Returns (World.initial "")
          ofNested (World.initial "") ∧
        (Schema.toDocument ⟨true, asked, false, []⟩ (.validator flat)).Returns (World.initial "")
          ofFlat (World.initial "")) ∧
      ∀ name, Entries.get? ofNested name = Entries.get? ofFlat name := by
  have row :
    (Grouping.group lengthy
      [.single (.validator ((maxLength (.int 8)).brand (.str "Code")))]).schemas =
      .cls .str :: [minLength (.int 2), (maxLength (.int 8)).brand (.str "Code")].map
        .validator := rfl
  have read : (Schema.cls .str).toValidator = .ok (leaf .string) := rfl
  have constraining : ∀ check ∈ [minLength (.int 2), (maxLength (.int 8)).brand (.str "Code")],
      check.IsCheck :=
    List.forall_mem_cons.mpr ⟨isCheck_test _ _ _, List.forall_mem_singleton.mpr
      ((isCheck_test _ _ _).redocument _)⟩
  have known : (Settings.draftAddress? "draft-07").isSome := rfl
  have chosen : ∀ asked ∈ [none, some "draft-07"],
      (Schema.chosenDraft asked).Returns (World.initial "") "draft-07" (World.initial "") :=
    List.forall_mem_cons.mpr ⟨rfl, List.forall_mem_singleton.mpr rfl⟩
  obtain ⟨nested, flat, ofNested, ofFlat, built, whole, -, -, returned, also, agree⟩ :=
    toDocument_regrouped row read (.leaf .string) constraining known true
  exact ⟨row, read, IsLeaf.leaf .string, constraining, known, chosen, nested, flat, ofNested,
    ofFlat, built, whole,
    fun asked listed =>
      ⟨returned asked _ (chosen asked listed), also asked _ (chosen asked listed)⟩,
    agree.mpr fun _ => rfl⟩

/-- A sequence behind the first step is passed over, with the bound that a check in it sets. -/
theorem inner_sequence_unheeded : ∃ nested flat ofNested ofFlat,
    (Grouping.group (.single (.validator (leaf .string)))
      [.group (.single (.validator (minLength (.int 2)))) []]).build Validator.pipe =
        .ok (.validator nested) ∧
    Validator.pipe [leaf .string, minLength (.int 2)] = .ok flat ∧
    Metadata.parametersOf nested.metadata = Metadata.parametersOf flat.metadata ∧
    (Schema.toDocument ⟨false, some "draft-2020-12", false, []⟩ (.validator nested)).Returns
      (World.initial "")
      ofNested (World.initial "") ∧
    (Schema.toDocument ⟨false, some "draft-2020-12", false, []⟩ (.validator flat)).Returns
      (World.initial "")
      ofFlat (World.initial "") ∧
    Entries.get? ofNested (.str "minLength") = none ∧
    Entries.get? ofFlat (.str "minLength") = some (.value (.int 2)) :=
  ⟨_, _, _, _, rfl, rfl, rfl, rfl, rfl, rfl, rfl⟩

end Validator

end Conform
