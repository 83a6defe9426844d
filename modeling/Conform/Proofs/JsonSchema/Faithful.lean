import Conform.Proofs.JsonSchema.Containers
import Conform.Proofs.JsonSchema.Projectable
import Conform.Proofs.Validator.Constructions

/-!
Constructions that keep validators and their document schemas together: where the parts accept what
their document schemas admit, so does the whole.
-/
namespace Conform

namespace Validator

/-- The document schema of a validator, which admits the document values that the validator
accepts. -/
structure Exact (draft : String) (v : Validator) (keywords : Keywords) (absence : Bool) : Prop where
  projected : ∀ onLazy, Projection.ofSchema draft onLazy (.validator v) = pure keywords
  decided : ∀ onLazy x, x.isJson → (v.rule.safe onLazy x).Decides (keywords.admits draft x)
  absent : ∀ onLazy, (v.rule.safe onLazy .missing).Decides absence
  listed : Projection.Listing.byKind.lists (.validator v) = !absence

/-- A document schema that wrappers can build on. -/
structure Faithful (draft : String) (v : Validator) (keywords : Keywords) : Prop
    extends Exact draft v keywords false where
  undocumented : Metadata.docsOf v.metadata = .empty
  extensible : keywords.Extensible

variable {draft : String}

section Leaves

open Checked

theorem decides_leaf (l : Leaf) (onLazy : Nat → SafeForm) (x : Value) :
    ((leaf l).rule.safe onLazy x).Decides (l.accepts x) :=
  decides_provided _ (Failure.legible_expecting _ _) x

/-- A type check is described by its type. -/
theorem faithful_typed {l : Leaf} {name : String} (named : l.typeName? = some name) :
    Faithful draft (leaf l) (Keywords.ofType name) where
  projected := fun onLazy => by
    cases l <;> cases named <;> rfl
  decided := fun onLazy x json => by
    have same : l.accepts x = x.hasType name := by
      cases l <;> cases named <;> cases x <;> first | rfl | cases json
    rw [Keywords.admits_ofType, ← same]
    exact decides_leaf l onLazy x
  absent := fun onLazy => by
    have refused : l.accepts .missing = false := by cases l <;> first | rfl | cases named
    rw [← refused]
    exact decides_leaf l onLazy .missing
  listed := by
    cases l <;> rfl
  undocumented := rfl
  extensible := .inl (Keywords.typed_ofType name)

theorem faithful_never : Faithful draft (leaf .never) [(.str "not", .object [])] where
  projected := fun _ => rfl
  decided := fun onLazy x _ => decides_leaf .never onLazy x
  absent := fun onLazy => decides_leaf .never onLazy .missing
  listed := rfl
  undocumented := rfl
  extensible := .inr rfl

/-- Equality of one type is equality of documents where one side is a scalar. -/
theorem sameAs_scalar {x value : Value} (scalar : value.isScalar) (json : x.isJson) :
    x.sameAs value = x.sameJson value := by
  cases x with
  | bool b =>
    cases value with
    | bool c =>
      have same := Magnitude.beq_ofInt (if c then 1 else 0) (if b then 1 else 0)
      simp only [Value.sameAs, Value.eq, Value.equiv, Value.magnitude?, Value.sameJson,
        Value.typeName, same, beq_self_eq_true, Bool.and_true]
      cases b <;> cases c <;> rfl
    | null | int n | str s => exact Bool.and_false _
    | _ => cases scalar
  | null | int n | str s | list items | dict entries =>
    cases value with
    | null | int m | str t =>
      first
      | exact Bool.and_true _
      | exact Bool.and_false _
    | bool c => exact Bool.and_false _
    | _ => cases scalar
  | _ => cases json

theorem missing_sameAs {value : Value} (scalar : value.isScalar) :
    Value.missing.sameAs value = false := by
  cases value <;> first | rfl | cases scalar

/-- A literal scalar is described as a constant. -/
theorem faithful_literal {value : Value} (scalar : value.isScalar) :
    Faithful draft (literal value) [(.str "const", .value value)] where
  projected := fun _ => rfl
  decided := fun onLazy x json => by
    have admitted : Keywords.admits draft [(.str "const", .value value)] x = x.sameAs value := by
      rw [sameAs_scalar scalar json]
      exact Bool.and_true _
    rw [admitted]
    exact decides_provided _ (Failure.legible_plain _) value
  absent := fun onLazy => by
    rw [← missing_sameAs scalar]
    exact decides_provided _ (Failure.legible_plain _) value
  listed := rfl
  undocumented := rfl
  extensible := .inr rfl

/-- A choice among scalars is described by listing them. -/
theorem faithful_oneOf {values : List Value} {v : Validator}
    (scalar : ∀ value ∈ values, value.isScalar)
    (made : oneOf values = .ok v) : Faithful draft v [(.str "enum", .value (.list values))] := by
  obtain ⟨-, -, rfl⟩ := eq_of_oneOf made
  constructor
  · constructor
    · exact fun _ => rfl
    · intro onLazy x json
      have admitted : Keywords.admits draft [(.str "enum", .value (.list values))] x =
          values.any x.sameAs := by
        refine (Bool.and_true _).trans ?_
        change values.any x.sameJson = values.any x.sameAs
        rw [Bool.eq_iff_iff]
        simp only [List.any_eq_true]
        refine exists_congr fun value => and_congr_right fun member => ?_
        rw [sameAs_scalar (scalar value member) json]
      rw [admitted]
      exact decides_provided _ (Failure.legible_plain _) x
    · intro onLazy
      have refused : values.any Value.missing.sameAs = false := by
        refine List.any_eq_false.mpr fun value member => ?_
        rw [missing_sameAs (scalar value member)]
        exact Bool.false_ne_true
      rw [← refused]
      exact decides_provided _ (Failure.legible_plain _) .missing
    · rfl
  · rfl
  · exact .inr rfl

end Leaves

section Projecting

open Projection

variable {onLazy : Nat → Eval Keywords} {keywordsOf : Validator → Keywords}

theorem ofChild_eq {v : Validator} {keywords : Keywords}
    (projected : ofSchema draft onLazy (.validator v) = pure keywords) :
    ofChild draft onLazy (.ofValidator v) = pure (some keywords) := by
  change ofSchema draft onLazy (.validator v) >>= _ = _
  rw [projected]
  rfl

theorem ofPositions_eq {vs : List Validator}
    (projected : ∀ v ∈ vs, ofSchema draft onLazy (.validator v) = pure (keywordsOf v)) :
    ofPositions draft onLazy (.ofValidators vs) = pure (vs.map keywordsOf) := by
  change ofSchemas draft onLazy (vs.map .validator) = _
  induction vs with
  | nil => rfl
  | cons v rest ih =>
    have later := ih fun other member => projected other (List.mem_cons_of_mem _ member)
    change ofSchema draft onLazy (.validator v) >>= (fun _ =>
      ofSchemas draft onLazy (rest.map .validator) >>= _) = _
    rw [projected v List.mem_cons_self, pure_bind, later]
    rfl

end Projecting

section Composites

open Checked Projection Rule

variable {keywordsOf : Validator → Keywords} {keywords : Keywords}

/-- A list is described by the document schema of its items. -/
theorem faithful_array {item : Validator} (part : Faithful draft item keywords) :
    Faithful draft (array item) ((Keywords.ofType "array").put "items" (.object keywords)) where
  projected := fun onLazy => by
    change (ofChild draft onLazy (.ofValidator item) >>= _) >>= _ = _
    rw [ofChild_eq (part.projected onLazy)]
    rfl
  decided := fun onLazy x json => by
    rw [Keywords.admits_array]
    rcases Value.array_or_not json with ⟨items, rfl, parts⟩ | ⟨unvisited, otherType⟩
    · exact decides_of_visits rfl (decides_itemVisits 0 items fun item member =>
        part.decided onLazy item (parts item member))
    · rw [otherType, Bool.false_and]
      exact decides_of_unvisited rfl (Option.map_eq_none_iff.mpr unvisited)
  absent := fun onLazy => decides_of_unvisited rfl rfl
  listed := rfl
  undocumented := rfl
  extensible := .inl (Keywords.typed_array keywords)

private theorem all_refuse {vs : List Validator} (some : vs ≠ []) :
    (vs.all fun _ => false) = false := by
  cases vs with
  | nil => exact absurd rfl some
  | cons v rest => rfl

/-- A choice is described by the document schemas of its options. -/
theorem faithful_union {options : List Validator} {v : Validator}
    (parts : ∀ option ∈ options, Faithful draft option (keywordsOf option))
    (made : union options = .ok v) :
    Faithful draft v (Keywords.ofList "anyOf" (options.map keywordsOf)) := by
  obtain ⟨some, rfl⟩ := nonempty_of_made made
  constructor
  · constructor
    · intro onLazy
      change (ofPositions draft onLazy (.ofValidators options) >>= _) >>= _ = _
      rw [ofPositions_eq fun option member => (parts option member).projected onLazy]
      have listed : (options.map keywordsOf).isEmpty = false := by
        simpa using some
      simp only [pure_bind, listed, Bool.false_eq_true, if_false]
      rfl
    · intro onLazy x json
      rw [Keywords.admits_anyOf, List.any_map]
      exact decides_firstMatch (decides_reject (Failure.legible_plain _)) options
        (·.rule) _ fun option member =>
        (parts option member).decided onLazy x json
    · intro onLazy
      have refused := decides_firstMatch
        (decides_reject (Failure.legible_plain "Value does not match any type in union")) options
          (·.rule) (fun _ => false) fun option member => (parts option member).absent onLazy
      have none : (options.any fun _ => false) = false :=
        List.any_eq_false.mpr fun _ _ => Bool.false_ne_true
      rwa [none] at refused
    · rfl
  · rfl
  · exact .inr rfl

/-- All members at once are described by the document schemas of the members. -/
theorem faithful_intersect {members : List Validator} {v : Validator}
    (parts : ∀ member ∈ members, Faithful draft member (keywordsOf member))
    (made : intersect members = .ok v) :
    Faithful draft v (Keywords.ofList "allOf" (members.map keywordsOf)) := by
  obtain ⟨some, rfl⟩ := nonempty_of_made made
  have visits : ∀ x, (Rule.intersect (rules members)).visits? x =
      .some (members.map fun member => ⟨none, member.rule, x⟩) := by
    intro x
    simp only [visits?, rules, List.map_map]
    rfl
  constructor
  · constructor
    · intro onLazy
      change (ofPositions draft onLazy (.ofValidators members) >>= _) >>= _ = _
      rw [ofPositions_eq fun member inside => (parts member inside).projected onLazy]
      have listed : (members.map keywordsOf).isEmpty = false := by
        simpa using some
      simp only [pure_bind, listed, Bool.false_eq_true, if_false]
      rfl
    · intro onLazy x json
      rw [Keywords.admits_allOf, List.all_map]
      exact decides_of_visits (visits x) (decides_runVisits members _ _
        (fun member _ => .whole member.rule _) fun member inside =>
        (parts member inside).decided onLazy x json)
    · intro onLazy
      rw [← all_refuse some]
      exact decides_of_visits (visits .missing) (decides_runVisits members _ _
        (fun member _ => .whole member.rule _) fun member inside =>
        (parts member inside).absent onLazy)
    · rfl
  · rfl
  · exact .inr rfl

/-- A dictionary with text keys is described by the document schema of its values. -/
theorem faithful_record {value : Validator} (part : Faithful draft value keywords) :
    Faithful draft (record (leaf .string) value)
      ((Keywords.ofType "object").put "additionalProperties" (.object keywords)) where
  projected := fun onLazy => by
    change ((ofSchema draft onLazy (.validator value) >>= _) >>= _) >>= _ = _
    rw [part.projected onLazy]
    rfl
  decided := fun onLazy x json => by
    rw [Keywords.admits_record]
    rcases Value.object_or_not json with ⟨entries, rfl, parts⟩ | ⟨other, otherType⟩
    · have keys : ∀ entry ∈ entries,
          ((leaf .string).rule.safe onLazy entry.1).Decides entry.1.isStr :=
        fun entry _ => decides_leaf .string onLazy entry.1
      have hashable : ∀ entry ∈ entries, ∀ world k,
          ((leaf .string).rule.safe onLazy entry.1).Returns world k world →
            k.unhashable? = none := by
        intro entry member world k returned
        obtain ⟨-, rfl, -⟩ := SafeForm.returns_provided.mp returned
        exact Value.hashable_of_isStr (parts entry member).1
      have shown : ∀ entry ∈ entries, Value.areWritable (Place.recordEntry entry.1).shown :=
        fun entry member => Value.areWritable_iff.mpr
          (List.forall_mem_singleton.mpr (Value.isWritable_of_isStr (parts entry member).1))
      have decided : (SafeForm.eachEntry SafeForm.invalidKey? .recordEntry
          ((leaf .string).rule.safe onLazy) (value.rule.safe onLazy) entries []).Decides
            (entries.all fun entry => entry.1.isStr && keywords.admits draft entry.2) :=
        decides_eachEntry entries [] SafeForm.exists_invalidKey? shown keys hashable
          fun entry member =>
          part.decided onLazy entry.2 (parts entry member).2
      have same : (entries.all fun entry => entry.1.isStr && keywords.admits draft entry.2) =
          entries.all fun entry => keywords.admits draft entry.2 := by
        rw [Bool.eq_iff_iff, List.all_eq_true, List.all_eq_true]
        refine forall₂_congr fun entry member => ?_
        rw [(parts entry member).1, Bool.true_and]
      rw [same] at decided
      exact decided.bind_pure Value.dict
    · rw [otherType, Bool.false_and]
      exact decides_entriesOf other (Failure.legible_expecting _ _)
  absent := fun onLazy => decides_entriesOf rfl (Failure.legible_expecting _ _)
  listed := rfl
  undocumented := rfl
  extensible := .inl (Keywords.typed_record keywords)

/-- A schema that admits null besides is described by adding null to its document schema. -/
theorem faithful_nullable {inner : Validator} (part : Faithful draft inner keywords) :
    Faithful draft (nullable inner) keywords.orNull where
  projected := fun onLazy => by
    change ofMetadata draft onLazy (wrapping .nullable inner []) = _
    rw [wrapping, part.undocumented]
    change (ofChild draft onLazy (.ofValidator inner) >>= _) >>= _ = _
    rw [ofChild_eq (part.projected onLazy)]
    rfl
  decided := fun onLazy x json => by
    rw [Keywords.admits_orNull part.extensible]
    change (if x.isNull then pure x else inner.rule.safe onLazy x : Checked Value).Decides _
    cases isNull : x.isNull with
    | true => exact decides_pure x
    | false => exact part.decided onLazy x json
  absent := fun onLazy => part.absent onLazy
  listed := rfl
  undocumented := by
    change (Metadata.docsOf inner.metadata).kept = .empty
    rw [part.undocumented]
    rfl
  extensible := Keywords.extensible_orNull part.extensible

private theorem decides_positions {vs : List Validator} {items : List Value}
    {onLazy : Nat → SafeForm}
    (parts : ∀ v ∈ vs, Faithful draft v (keywordsOf v)) (json : ∀ item ∈ items, item.isJson) :
    (runVisits onLazy (positionVisits 0 (rules vs) items)).Decides
      (((vs.map keywordsOf).zip items).all fun pair => pair.1.admits draft pair.2) := by
  rw [List.zip_map_left, List.all_map]
  exact decides_positionVisits 0 vs items fun v member item inside =>
    (parts v member).decided onLazy item (json item inside)

private theorem ofMetadata_tuple {vs : List Validator} {parameters : List (String × Parameter)}
    {onLazy : Nat → Eval Keywords} {rest : Option Keywords}
    (parts : ∀ v ∈ vs, Faithful draft v (keywordsOf v))
    (further : ofRest draft onLazy parameters = pure rest) :
    ofMetadata draft onLazy ⟨.tuple, parameters, .ofValidators vs, .empty, .missing⟩ =
      pure (tupleOf draft (vs.map keywordsOf) rest (isTrue (Entries.get? parameters "loose"))) := by
  change (ofPositions draft onLazy (.ofValidators vs) >>= fun _ =>
    ofRest draft onLazy parameters >>= _) >>= _ = _
  rw [ofPositions_eq fun v member => (parts v member).projected onLazy, pure_bind, further]
  rfl

/-- Tuples differ in the lengths that they take and in what they do beyond the listed positions. -/
private theorem decides_tupleOf {onLazy : Nat → SafeForm} {vs : List Validator}
    {rest : Option Keywords} {isOpen : Bool} (rule : Rule) (fits : List Value → Bool)
    (further : List Value → List Visit) (structural : rule.isStructural)
    (unlisted : ∀ x, x.items? = none → rule.visits? x = none)
    (visited : ∀ xs, rule.visits? (.list xs) =
      if fits xs then some (positionVisits 0 (rules vs) xs ++ further xs) else none)
    (long : ∀ xs, fits xs → vs.length ≤ xs.length)
    (refused : ∀ xs, ¬fits xs → vs.length ≤ xs.length →
      admitsBeyond draft rest isOpen (xs.drop vs.length) = false)
    (beyond : ∀ xs, (∀ item ∈ xs, item.isJson) → fits xs →
      (runVisits onLazy (further xs)).Decides (admitsBeyond draft rest isOpen (xs.drop vs.length)))
    (parts : ∀ v ∈ vs, Faithful draft v (keywordsOf v)) {x : Value} (json : x.isJson) :
    (rule.safe onLazy x).Decides
      ((tupleOf draft (vs.map keywordsOf) rest isOpen).admits draft x) := by
  rw [admits_tupleOf, List.length_map]
  rcases Value.array_or_not json with ⟨xs, rfl, inside⟩ | ⟨none, otherType⟩
  · have isArray : (Value.list xs).hasType "array" = true := rfl
    rw [isArray, Bool.true_and, Value.elements]
    have visited := visited xs
    by_cases fit : fits xs
    · rw [if_pos fit] at visited
      rw [decide_eq_true (long xs fit), Bool.true_and]
      exact decides_of_visits visited
        (decides_append (decides_positions parts inside) (beyond xs inside fit))
    · rw [if_neg fit] at visited
      have unfit : (decide (vs.length ≤ xs.length) &&
          admitsBeyond draft rest isOpen (xs.drop vs.length)) = false := by
        by_cases enough : vs.length ≤ xs.length
        · rw [refused xs fit enough, Bool.and_false]
        · rw [decide_eq_false enough, Bool.false_and]
      rw [Bool.and_right_comm, unfit, Bool.false_and]
      exact decides_of_unvisited structural visited
  · rw [otherType, Bool.false_and]
    exact decides_of_unvisited structural (unlisted x none)

/-- Positions are described by their document schemas, with nothing behind them. -/
theorem faithful_tuple {items : List Validator} {v : Validator}
    (parts : ∀ item ∈ items, Faithful draft item (keywordsOf item)) (made : tuple items = .ok v) :
    Faithful draft v (tupleOf draft (items.map keywordsOf) none false) := by
  obtain ⟨-, rfl⟩ := nonempty_of_made made
  have exactLength : ∀ xs : List Value, admitsBeyond draft none false (xs.drop items.length) =
      decide (xs.length ≤ items.length) := by
    intro xs
    rw [admitsBeyond, Bool.false_or, Bool.eq_iff_iff, decide_eq_true_iff, List.isEmpty_iff,
      List.drop_eq_nil_iff]
  constructor
  · constructor
    · exact fun onLazy => ofMetadata_tuple parts rfl
    · intro onLazy x json
      refine decides_tupleOf (.tuple (rules items)) (fun xs =>
        xs.length == items.length) (fun _ => [])
        rfl (fun x none => ?_) (fun xs => ?_) (fun xs fit => ?_) (fun xs unfit enough => ?_)
        (fun xs _ fit => ?_) parts json
      · simp only [visits?, none, Option.bind_none]
      · simp [visits?, Value.items?, rules]
      · exact Nat.le_of_eq (beq_iff_eq.mp fit).symm
      · rw [exactLength, decide_eq_false_iff_not]
        rw [beq_iff_eq] at unfit
        omega
      · rw [exactLength, decide_eq_true (Nat.le_of_eq (beq_iff_eq.mp fit))]
        exact decides_pure []
    · exact fun onLazy => decides_of_unvisited rfl rfl
    · rfl
  · rfl
  · exact .inl (typed_tupleOf _ _ _)

/-- Positions that may be followed by anything are described as such. -/
theorem faithful_looseTuple {items : List Validator} {v : Validator}
    (parts : ∀ item ∈ items, Faithful draft item (keywordsOf item))
    (made : looseTuple items = .ok v) :
    Faithful draft v (tupleOf draft (items.map keywordsOf) none true) := by
  obtain ⟨-, rfl⟩ := nonempty_of_made made
  constructor
  · constructor
    · exact fun onLazy => ofMetadata_tuple parts rfl
    · intro onLazy x json
      refine decides_tupleOf (.looseTuple (rules items))
        (fun xs => decide (items.length ≤ xs.length))
        (fun _ => []) rfl (fun x none => ?_) (fun xs => ?_) (fun xs fit => ?_)
        (fun xs unfit enough => ?_) (fun xs _ fit => ?_) parts json
      · simp only [visits?, none, Option.bind_none]
      · simp only [visits?, Value.items?, rules, Option.bind_some, List.length_map, List.append_nil]
        by_cases enough : items.length ≤ xs.length
        · simp [enough, Nat.not_lt.mpr enough]
        · simp [enough, Nat.lt_of_not_le enough]
      · exact decide_eq_true_iff.mp fit
      · exact absurd (decide_eq_true enough) unfit
      · exact decides_pure []
    · exact fun onLazy => decides_of_unvisited rfl rfl
    · rfl
  · rfl
  · exact .inl (typed_tupleOf _ _ _)

/-- Positions with a schema for what follows them describe that by its document schema. -/
theorem faithful_tupleWithRest {items : List Validator} {rest v : Validator}
    (parts : ∀ item ∈ items, Faithful draft item (keywordsOf item))
    (further : Faithful draft rest keywords) (made : tupleWithRest items rest = .ok v) :
    Faithful draft v (tupleOf draft (items.map keywordsOf) (some keywords) false) := by
  obtain ⟨-, rfl⟩ := nonempty_of_made made
  constructor
  · constructor
    · intro onLazy
      refine ofMetadata_tuple parts ?_
      change ofSchema draft onLazy (.validator rest) >>= _ = _
      rw [further.projected]
      rfl
    · intro onLazy x json
      refine decides_tupleOf (.tupleWithRest (rules items) rest.rule)
        (fun xs => decide (items.length ≤ xs.length))
        (fun xs => itemVisits rest.rule items.length (xs.drop items.length)) rfl (fun x none => ?_)
        (fun xs => ?_) (fun xs fit => ?_) (fun xs unfit enough => ?_)
          (fun xs inside fit => ?_) parts json
      · simp only [visits?, none, Option.bind_none]
      · simp only [visits?, Value.items?, rules, Option.bind_some, List.length_map]
        by_cases enough : items.length ≤ xs.length
        · simp [enough, Nat.not_lt.mpr enough]
        · simp [enough, Nat.lt_of_not_le enough]
      · exact decide_eq_true_iff.mp fit
      · exact absurd (decide_eq_true enough) unfit
      · exact decides_itemVisits items.length _ fun item member =>
          further.decided onLazy item (inside item (List.mem_of_mem_drop member))
    · exact fun onLazy => decides_of_unvisited rfl rfl
    · rfl
  · rfl
  · exact .inl (typed_tupleOf _ _ _)

end Composites

section Pipes

open Checked Projection Rule

variable {keywords : Keywords} {limits : Limits}

theorem safe_pipe {steps : List Validator} {v : Validator} (made : pipe steps = .ok v)
    (onLazy : Nat → SafeForm) (x : Value) :
    v.rule.safe onLazy x = SafeForm.pipe (safeAll onLazy (rules steps)) x := by
  obtain ⟨some, rfl⟩ := nonempty_of_made made
  match steps with
  | [] => exact absurd rfl some
  | [only] => exact (bind_pure (only.rule.safe onLazy x)).symm
  | first :: second :: rest => rfl

private theorem mergeDocs_tests : Metadata.mergeDocs (limits.tests.map (·.metadata)) = .empty := by
  induction limits with
  | nil => rfl
  | cons limit rest ih =>
    have silent : Documentation.overlay .empty
        (Metadata.docsOf (limit.1.test (.int limit.2)).metadata) = .empty := by
      cases limit with
      | mk limit bound => cases limit <;> rfl
    simp only [Metadata.mergeDocs, Limits.tests, List.map_cons, List.foldl_cons, silent] at ih ⊢
    exact ih

private theorem hold_congr {x y : Value}
    (same : ∀ limit ∈ limits, limit.1.measure.of y = limit.1.measure.of x) :
    limits.hold y = limits.hold x := by
  rw [Limits.hold, Limits.hold, Bool.eq_iff_iff, List.all_eq_true, List.all_eq_true]
  refine forall₂_congr fun limit member => ?_
  rw [Limit.holds, Limit.holds, same limit member]

/-- Tests after a schema whose outputs have the size of its inputs. -/
theorem faithful_limited {base v : Validator} (part : Faithful draft base keywords)
    (typed : keywords.Typed) (once : (limits.map (·.1)).Nodup)
    (fresh : ∀ limit ∈ limits, Entries.get? keywords (.str limit.1.keyword.name) = none)
    (sized : ∀ limit ∈ limits, ∀ onLazy x world y, x.isJson →
      (base.rule.safe onLazy x).Returns world y world →
        limit.1.measure.of y = limit.1.measure.of x ∧ (limit.1.measure.of y).isSome)
    (made : pipe (base :: limits.tests) = .ok v) : Faithful draft v (limits.describe keywords) := by
  have silent : Metadata.mergeDocs ((base :: limits.tests).map (·.metadata)) = .empty := by
    have start : Documentation.overlay .empty (Metadata.docsOf base.metadata) = .empty := by
      rw [part.undocumented]
      rfl
    rw [List.map_cons, Metadata.mergeDocs, List.foldl_cons, start]
    exact mergeDocs_tests
  have stepwise := safe_pipe made
  obtain ⟨-, rfl⟩ := nonempty_of_made made
  constructor
  · constructor
    · intro onLazy
      change ofMetadata draft onLazy ⟨.pipe,
        Metadata.mergeParameters ((base :: limits.tests).map (·.metadata)),
        .ofValidators (base :: limits.tests),
        Metadata.mergeDocs ((base :: limits.tests).map (·.metadata)), .missing⟩ = _
      rw [silent]
      change (ofSchema draft onLazy (.validator base) >>= fun keywords =>
        pure (withChecks keywords (limits.tests.map .validator))) >>= _ = _
      rw [part.projected onLazy, pure_bind, Limits.withChecks_tests]
      rfl
    · intro onLazy x json
      rw [Limits.admits_describe once fresh, stepwise]
      refine (part.decided onLazy x json).bind fun _ world y returned => ?_
      have kept := fun limit member => sized limit member onLazy x world y json returned
      rw [← hold_congr fun limit member => (kept limit member).1]
      exact Limits.decides_tests fun limit member => (kept limit member).2
    · intro onLazy
      rw [stepwise]
      change Decides _ (false && false)
      exact (part.absent onLazy).bind nofun
    · rfl
  · exact silent
  · exact .inl (Limits.typed_describe typed)

theorem fresh_ofType (name : String) (limit : Limit) :
    Entries.get? (Keywords.ofType name) (.str limit.keyword.name) = none := by
  cases limit <;> rfl

/-- A type check with bounds is described by its type and the keywords of the bounds. -/
theorem faithful_limitedLeaf {l : Leaf} {name : String} {measure : Measure} {v : Validator}
    (named : l.typeName? = some name) (measured : l.measure? = some measure)
    (fits : ∀ limit ∈ limits, limit.1.measure = measure) (once : (limits.map (·.1)).Nodup)
    (made : pipe (leaf l :: limits.tests) = .ok v) :
    Faithful draft v (limits.describe (Keywords.ofType name)) := by
  refine faithful_limited (faithful_typed named) (Keywords.typed_ofType name) once
    (fun limit _ => fresh_ofType name limit.1) ?_ made
  intro limit member onLazy x world y json returned
  obtain ⟨accepted, rfl, -⟩ := SafeForm.returns_provided.mp returned
  refine ⟨rfl, ?_⟩
  rw [fits limit member]
  cases l <;> cases measured <;> cases x <;> first | rfl | cases accepted | cases json

private theorem length_eachItem {item : SafeForm} {i : Nat} {xs out : List Value}
    {world after : World}
    (returned : (SafeForm.eachItem item i xs).Returns world out after) :
      out.length = xs.length := by
  induction xs generalizing i out world with
  | nil =>
    obtain ⟨rfl, -⟩ := returns_pure.mp returned
    rfl
  | cons x rest ih =>
    simp only [SafeForm.eachItem, returns_bind, returns_pure] at returned
    obtain ⟨y, between, -, ys, last, later, rfl, rfl⟩ := returned
    exact congrArg (· + 1) (ih later)

/-- A list with bounds on its length is described by its items and the keywords of the bounds. -/
theorem faithful_limitedArray {item v : Validator} (part : Faithful draft item keywords)
    (fits : ∀ limit ∈ limits, limit.1.measure = .array) (once : (limits.map (·.1)).Nodup)
    (made : pipe (array item :: limits.tests) = .ok v) :
    Faithful draft v
      (limits.describe ((Keywords.ofType "array").put "items" (.object keywords))) := by
  refine faithful_limited (faithful_array part) (Keywords.typed_array keywords) once ?_ ?_ made
  · intro limit _
    cases limit with
    | mk limit bound => cases limit <;> rfl
  · intro limit member onLazy x world y json returned
    rw [fits limit member]
    change (SafeForm.array (item.rule.safe onLazy) x).Returns world y world at returned
    simp only [SafeForm.array, returns_bind, SafeForm.returns_itemsOf, returns_pure] at returned
    obtain ⟨items, between, ⟨found, -⟩, out, last, each, rfl, -⟩ := returned
    cases x with
    | list xs =>
      cases found
      exact ⟨congrArg (fun n : Nat => some (n : Int)) (length_eachItem each), rfl⟩
    | tuple xs => cases json
    | _ => cases found

end Pipes

end Validator

end Conform
