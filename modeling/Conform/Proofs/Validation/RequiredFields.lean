import Conform.Proofs.Evaluation.Lazies
import Conform.Proofs.Validation.ObjectModes
import Conform.Proofs.Validation.RegroupedSteps
import Mathlib.Data.List.Induction

/-!
Required fields of objects that are wrapped. An object never outputs the mark of what is absent
under a declared key, however often it is wrapped in tests, messages, paths, documentation, laziness
and sequences that begin with it (`Validator.Encloses.accepted`). Requiring its fields goes by the
description, so that the fields are required just as long as every wrapper hands the description on
(`Validator.Encloses.declared`); both together are `Validator.required_of_encloses`.
-/
namespace Conform

namespace World

variable {world after : World} {id : Nat} {v w : Validator} {cell : LazyCell} {schema : Schema}

/-- Whatever happens from here on, the lazy schema is built to the validator if it is built at
all. -/
def StandsFor (world : World) (id : Nat) (v : Validator) : Prop :=
  ∀ later w after, world.Later later → (Eval.resolve id).Returns later w after → w = v

/-- The cell of a lazy schema whose recipe gives the same schema in every world. -/
private def Stores (id : Nat) (schema : Schema) (v : Validator) (world : World) : Prop :=
  ∃ cell, world.lazies[id]? = some cell ∧
    (∀ world : World, cell.body.build.Returns world schema world) ∧
    ∀ w, cell.built = some w → w = v

/-- A request for the cell gives the validator that its recipe gives. -/
private theorem Stores.resolved (stores : Stores id schema v world)
    (read : schema.toValidator = .ok v)
    (resolved : (Eval.resolve id).Returns world w after) : w = v := by
  obtain ⟨cell, found, steady, kept⟩ := stores
  rw [Eval.Returns, ending_resolve, found] at resolved
  cases built : cell.built with
  | some before =>
    simp only [built] at resolved
    cases resolved
    exact kept w built
  | none =>
    simp only [built] at resolved
    obtain ⟨u, between, ran, rest⟩ :=
      Eval.returns_bind.mp (show (buildCell id cell).Returns world w after from resolved)
    obtain ⟨_, _, -, done⟩ := Eval.returns_bind.mp rest
    obtain ⟨rfl, -⟩ := Eval.returns_pure.mp done
    obtain ⟨trace, start⟩ := cell.exists_start world
    obtain ⟨made, middle, given, last⟩ := Eval.returns_bind.mp (start.symm.trans ran)
    cases given.symm.trans (steady (world.traced trace))
    obtain ⟨good, -⟩ := Eval.returns_ofConstruction.mp last
    exact (Except.ok.inj (read.symm.trans good)).symm

/-- Every request leaves a cell with such a recipe. -/
private theorem Stores.step (stores : Stores id schema v world) (read : schema.toValidator = .ok v)
    (other : Nat) : Stores id schema v ((Eval.resolve other).ending world).2 := by
  have ⟨cell, found, steady, kept⟩ := stores
  have inside : id < world.lazies.length := (List.getElem?_eq_some_iff.mp found).1
  have still : ∀ further, (world.lazies ++ further)[id]? = some cell := fun further => by
    rw [List.getElem?_append_left inside, found]
  rcases Eval.ends (Eval.resolve other) world with ⟨w, after, resolved⟩ | ⟨fault, after, faulted⟩
  · rw [show (Eval.resolve other).ending world = _ from resolved]
    obtain ⟨-, -, ⟨-, rfl⟩ | ⟨further, -, -, lazies⟩⟩ := Eval.returns_resolve_cases resolved
    · exact stores
    · by_cases same : other = id
      · subst same
        refine ⟨.keeping w cell, ?_, steady, ?_⟩
        · rw [lazies, List.getElem?_modify_eq, still further]
          rfl
        · rintro _ ⟨⟩
          exact stores.resolved read resolved
      · refine ⟨cell, ?_, steady, kept⟩
        rw [lazies, List.getElem?_modify_ne _ _ same, still further]
  · rw [show (Eval.resolve other).ending world = _ from faulted]
    obtain ⟨further, lazies⟩ := Eval.faults_resolve_cases faulted
    exact ⟨cell, by rw [lazies, still further], steady, kept⟩

/-- A lazy schema that is yet to be built stands for what its recipe gives in every world. -/
theorem standsFor_of_steady (found : world.lazies[id]? = some cell) (unbuilt : cell.built = none)
    (steady : ∀ world : World, cell.body.build.Returns world schema world)
    (read : schema.toValidator = .ok v) : world.StandsFor id v := by
  intro later w after reached resolved
  have start : Stores id schema v world := ⟨cell, found, steady, by rw [unbuilt]; nofun⟩
  have stores : Stores id schema v later :=
    reached.induct start (fun _ _ stores => stores) fun _ other stores => stores.step read other
  exact stores.resolved read resolved

end World

namespace Rule

/-- Whether a rule is a test, which outputs what it is given. -/
def isTest : Rule → Bool
  | .check _ _ | .rawCheck _ | .crossCheck _ _ _ | .items _ _ _ => true
  | _ => false

variable {onLazy : Nat → SafeForm} {rule : Rule} {steps : List Rule} {x y : Value}
  {world after : World}

/-- A test gives what it was given. -/
theorem output_of_isTest (test : rule.isTest)
    (returned : (rule.safe onLazy x).Returns world y after) :
    x = y := by
  cases rule with
  | check check message =>
    obtain ⟨_, _, -, rest⟩ := Checked.returns_bind.mp returned
    exact (SafeForm.returns_provided.mp rest).2.1
  | crossCheck paths condition message =>
    obtain ⟨_, _, -, rest⟩ := Checked.returns_bind.mp returned
    exact (SafeForm.returns_provided.mp rest).2.1
  | items quantifier condition message =>
    obtain ⟨_, _, -, rest⟩ := Checked.returns_bind.mp returned
    obtain ⟨_, _, -, rest⟩ := Checked.returns_bind.mp rest
    exact (SafeForm.returns_provided.mp rest).2.1
  | rawCheck program =>
    obtain ⟨⟨issues, _⟩, _, -, rest⟩ := Checked.returns_bind.mp returned
    cases issues with
    | nil => exact (Checked.returns_pure.mp rest).1
    | cons first others => exact absurd rest Checked.returns_reject
  | _ => cases test

theorem StepsPass.output_of_isTest (pass : StepsPass onLazy steps x world y after)
    (tests : ∀ step ∈ steps, step.isTest) : x = y := by
  induction pass with
  | nil => rfl
  | cons returned _ ih =>
    obtain ⟨first, others⟩ := List.forall_mem_cons.mp tests
    rw [Rule.output_of_isTest first returned]
    exact ih others

end Rule

namespace SafeForm

open Checked

variable {forms : List (Value × SafeForm)} {rest : SafeForm} {x y : Value}
  {entries out pairs : List (Value × Value)} {world after : World}

/-- Under none of the keys lies the mark of what is absent. -/
def Definite (keys : List Value) (out : List (Value × Value)) : Prop :=
  ∀ key ∈ keys, ∀ value, Entries.get? out key = some value → value.isMissing = false

theorem Whole.definite (whole : Whole out) (keys : List Value) : Definite keys out := by
  intro key _ value found
  obtain ⟨entry, inside, -, rfl⟩ := Entries.exists_of_get?_eq_some found
  exact whole entry inside

/-- Outputs that are stored, or taken away where they are absent, leave nothing absent under their
keys. -/
theorem definite_stored (pairs entries : List (Value × Value)) :
    Definite (pairs.map (·.1))
      (pairs.foldl (fun out pair => storeOrErase out pair.1 pair.2) entries) := by
  -- The last output that is stored is looked at first: what lies under another key was there
  -- before.
  induction pairs using List.reverseRecOn with
  | nil => nofun
  | append_singleton pairs pair ih =>
    intro key listed value found
    rw [List.foldl_append, List.foldl_cons, List.foldl_nil, storeOrErase] at found
    by_cases same : (pair.1 == key) = true
    · by_cases absent : pair.2.isMissing = true
      · rw [if_pos absent, Entries.get?_erase, if_pos same] at found
        cases found
      · rw [if_neg absent, Entries.get?_insert, if_pos same] at found
        cases found
        exact Bool.eq_false_iff.mpr absent
    · have earlier : key ∈ pairs.map (·.1) := by
        rw [List.map_append, List.mem_append] at listed
        refine listed.resolve_right fun last => same ?_
        rw [List.mem_singleton.mp last]
        exact BEq.refl _
      have before :
          Entries.get? (pairs.foldl (fun out pair => storeOrErase out pair.1 pair.2) entries) key =
            some value := by
        by_cases absent : pair.2.isMissing = true
        · rwa [if_pos absent, Entries.get?_erase, if_neg same] at found
        · rwa [if_neg absent, Entries.get?_insert, if_neg same] at found
      exact ih key earlier value before

/-- An object gives definite entries: no declared field is absent. -/
theorem definite_object (returned : (object forms x).Returns world y after) :
    x.entries?.isSome ∧ ∃ out, y = .dict out ∧ Definite (forms.map (·.1)) out := by
  obtain ⟨entries, _, looked, -⟩ := returns_bind.mp returned
  obtain ⟨mapping, -⟩ := returns_entriesOf.mp looked
  rw [object_eq mapping] at returned
  obtain ⟨pairs, _, -, made⟩ := returns_bind.mp returned
  obtain ⟨rfl, -⟩ := returns_pure.mp made
  have empty : Whole [] := nofun
  exact ⟨Option.isSome_iff_exists.mpr ⟨_, mapping⟩, _, rfl,
    (empty.merge (whole_presentPairs pairs)).definite _⟩

theorem definite_looseObject (returned : (looseObject forms x).Returns world y after) :
    x.entries?.isSome ∧ ∃ out, y = .dict out ∧ Definite (forms.map (·.1)) out := by
  obtain ⟨entries, _, looked, -⟩ := returns_bind.mp returned
  obtain ⟨mapping, -⟩ := returns_entriesOf.mp looked
  rw [looseObject_eq mapping] at returned
  obtain ⟨pairs, _, given, made⟩ := returns_bind.mp returned
  obtain ⟨rfl, -⟩ := returns_pure.mp made
  rw [← keys_of_fieldOutputs given]
  exact ⟨Option.isSome_iff_exists.mpr ⟨_, mapping⟩, _, rfl, definite_stored pairs entries⟩

theorem definite_objectWithRest (returned : (objectWithRest forms rest x).Returns world y after) :
    x.entries?.isSome ∧ ∃ out, y = .dict out ∧ Definite (forms.map (·.1)) out := by
  obtain ⟨entries, _, looked, -⟩ := returns_bind.mp returned
  obtain ⟨mapping, -⟩ := returns_entriesOf.mp looked
  rw [objectWithRest_eq mapping] at returned
  obtain ⟨pairs, _, -, later⟩ := returns_bind.mp returned
  obtain ⟨others, _, further, made⟩ := returns_bind.mp later
  obtain ⟨rfl, -⟩ := returns_pure.mp made
  have empty : Whole [] := nofun
  refine ⟨Option.isSome_iff_exists.mpr ⟨_, mapping⟩, _, rfl, fun key listed value found => ?_⟩
  -- What the rest gives lies under other keys.
  rw [Entries.get?_merge_of_get?_eq_none
    (get?_of_keys_undeclared (keys_of_restOutputs further) listed)] at found
  exact (empty.merge (whole_presentPairs pairs)).definite _ key listed value found

/-- Fields that are required are there, and the output is what it would be otherwise. -/
theorem returns_required {declared : List Value} {inner : SafeForm} :
    (required declared inner x).Returns world y after ↔ x.entries?.isSome ∧
      (inner x).Returns world y after ∧
      ∃ out, y.entries? = some out ∧ firstAbsent? declared out = none := by
  unfold required
  rw [returns_bind, Option.isSome_iff_exists]
  constructor
  · rintro ⟨entries, _, looked, rest⟩
    obtain ⟨mapping, rfl⟩ := returns_entriesOf.mp looked
    obtain ⟨z, between, given, rest⟩ := returns_bind.mp rest
    obtain ⟨out, _, seen, rest⟩ := returns_bind.mp rest
    obtain ⟨held, rfl⟩ := returns_entriesOf.mp seen
    cases absent : firstAbsent? declared out with
    | some key =>
      rw [absent] at rest
      exact absurd rest returns_report
    | none =>
      rw [absent] at rest
      obtain ⟨rfl, rfl⟩ := returns_pure.mp rest
      exact ⟨⟨entries, mapping⟩, given, out, held, absent⟩
  · rintro ⟨⟨entries, mapping⟩, given, out, held, absent⟩
    refine ⟨entries, world, returns_entriesOf.mpr ⟨mapping, rfl⟩, ?_⟩
    refine returns_bind.mpr ⟨y, after, given, ?_⟩
    refine returns_bind.mpr ⟨out, after, returns_entriesOf.mpr ⟨held, rfl⟩, ?_⟩
    rw [absent]
    exact returns_pure.mpr ⟨rfl, rfl⟩

/-- The first of the required fields that is absent is the one that is reported. -/
theorem reports_required_of_absent {declared : List Value} {inner : SafeForm} {key : Value}
    (writable : key.isWritable) (mapping : x.entries?.isSome)
    (given : (inner x).Returns world y after) (held : y.entries? = some out)
    (absent : firstAbsent? declared out = some key) :
    (required declared inner x).Reports world (absentField.within key key.text) after := by
  obtain ⟨entries, mapping⟩ := Option.isSome_iff_exists.mp mapping
  refine reports_bind.mpr (.inr ⟨entries, world, returns_entriesOf.mpr ⟨mapping, rfl⟩, ?_⟩)
  refine reports_bind.mpr (.inr ⟨y, after, given, ?_⟩)
  refine reports_bind.mpr (.inr ⟨out, after, returns_entriesOf.mpr ⟨held, rfl⟩, ?_⟩)
  rw [absent]
  refine reports_report.mpr ⟨Failure.placed?_eq_some.mpr ⟨?_, rfl⟩, rfl⟩
  exact Value.areWritable_iff.mpr
    (by simp [Place.key, writable, absentField, Failure.plain, Value.isWritable])

/-- Where nothing absent lies under declared keys, the first declared key under which nothing lies
at all is the first one that is found absent. -/
theorem firstAbsent?_of_definite {before after : List Value} {key : Value}
    (definite : Definite (before ++ key :: after) out) (none : Entries.get? out key = none)
    (found : ∀ other ∈ before, Entries.get? out other ≠ Option.none) :
    firstAbsent? (before ++ key :: after) out = some key := by
  have present : ∀ other ∈ before, ¬((Entries.get? out other).getD .missing).isMissing = true := by
    intro other earlier
    obtain ⟨value, held⟩ := Option.ne_none_iff_exists'.mp (found other earlier)
    rw [held, Option.getD_some, definite other (List.mem_append_left _ earlier) value held]
    exact Bool.false_ne_true
  have here : ((Entries.get? out key).getD .missing).isMissing = true := by rw [none]; rfl
  unfold firstAbsent?
  rw [List.find?_append, List.find?_eq_none.mpr present, Option.none_or, List.find?_cons, here]
  rfl

end SafeForm

namespace Validator

open SafeForm Checked

/-- The validator wraps an object of the fields, and outputs what that outputs. The answer tells
whether every wrapper hands the description of the object on. -/
inductive Encloses (fields : List (Value × Validator)) (world : World) : Bool → Validator → Prop
  | object : Encloses fields world true (.object fields)
  | looseObject : Encloses fields world true (.looseObject fields)
  | objectWithRest (rest : Validator) : Encloses fields world true (.objectWithRest fields rest)
  | retitled {described : Bool} {v : Validator} (source : MessageSource)
      (inner : Encloses fields world described v) :
        Encloses fields world described (v.retitled source)
  | forward {described : Bool} {v : Validator} (path : List Value)
      (inner : Encloses fields world described v) : Encloses fields world described (v.forward path)
  | redocument {described : Bool} {v : Validator} (change : Documentation → Documentation)
      (inner : Encloses fields world described v) :
        Encloses fields world described (v.redocument change)
  | refine {described : Bool} {v : Validator} (test : Callable) (message : String)
      (inner : Encloses fields world described v) :
        Encloses fields world false (v.refine test message)
  | lazy {described : Bool} {v : Validator} {id : Nat} (stands : world.StandsFor id v)
      (inner : Encloses fields world described v) : Encloses fields world false (.lazy id)
  | pipe {described : Bool} {v w : Validator} {tests : List Validator}
      (only : ∀ test ∈ tests, test.rule.isTest) (made : Validator.pipe (v :: tests) = .ok w)
      (inner : Encloses fields world described v) : Encloses fields world false w

variable {fields : List (Value × Validator)} {world later after : World} {described : Bool}
  {v : Validator}
  {x y : Value}

/-- Documenting, branding and marking as read-only hand the description on. -/
theorem Encloses.document (encloses : Encloses fields world described v) (docs : Documentation) :
    Encloses fields world described (v.document docs) := .redocument (·.overlay docs) encloses

theorem Encloses.brand (encloses : Encloses fields world described v) (name : Value) :
    Encloses fields world described (v.brand name) :=
  .redocument (fun docs => { docs with brand := Documentation.said name }) encloses

theorem Encloses.readonly (encloses : Encloses fields world described v) :
    Encloses fields world described v.readonly := encloses.document _

/-- The description declares the fields as long as it is that of the object, and else none. -/
theorem Encloses.declared (encloses : Encloses fields world described v) :
    v.declared = if described then fields.map (·.1) else [] := by
  induction encloses with
  | object | looseObject | objectWithRest => exact List.map_map.trans rfl
  | retitled _ _ ih | forward _ _ ih => exact ih
  | redocument change inner ih =>
    rename_i v
    rw [← ih]
    obtain ⟨rule, metadata | metadata, codec⟩ := v <;> rfl
  | refine | lazy => rfl
  | pipe _ made =>
    obtain ⟨-, rfl⟩ := nonempty_of_made made
    rfl

/-- A sequence that begins with a validator and goes on with tests gives what the validator
gives. -/
theorem returns_of_pipe_tests {tests : List Validator} {w : Validator} {onLazy : Nat → SafeForm}
    (only : ∀ test ∈ tests, test.rule.isTest) (made : Validator.pipe (v :: tests) = .ok w)
    (returned : (w.rule.safe onLazy x).Returns world y after) :
    ∃ between, (v.rule.safe onLazy x).Returns world y between := by
  obtain ⟨-, rfl⟩ := nonempty_of_made made
  cases tests with
  | nil => exact ⟨after, returned⟩
  | cons test tests =>
    obtain ⟨⟩ | ⟨first, others⟩ := Rule.returns_pipe.mp returned
    have same := others.output_of_isTest fun step listed => by
      obtain ⟨other, member, rfl⟩ := List.mem_map.mp listed
      exact only other member
    rw [← same]
    exact ⟨_, first⟩

/-- What an enclosed object accepts is a dictionary, and so is what it outputs, in which nothing
absent lies under declared keys. -/
theorem Encloses.accepted (encloses : Encloses fields world described v) (budget : Nat)
    (reached : world.Later later)
    (returned : (v.rule.safe (Rule.lazySafe budget) x).Returns later y after) :
    x.entries?.isSome ∧ ∃ out, y = .dict out ∧ Definite (fields.map (·.1)) out := by
  have keys : ∀ onLazy,
      (Rule.safeFields onLazy (fieldRules fields)).map (·.1) = fields.map (·.1) := by
    simp [Rule.safeFields_eq_map, fieldRules]
  induction encloses generalizing budget later after with
  | object =>
    rw [← keys]
    exact definite_object returned
  | looseObject =>
    rw [← keys]
    exact definite_looseObject returned
  | objectWithRest rest =>
    rw [← keys]
    exact definite_objectWithRest returned
  | retitled source _ ih =>
    rcases returns_attempt_bind.mp returned with ⟨_, _, given, done⟩ | ⟨failure, _, -, rest⟩
    · obtain ⟨rfl, rfl⟩ := returns_pure.mp done
      exact ih budget reached given
    · cases source with
      | given message => exact absurd rest returns_reject
      | computed render =>
        obtain ⟨_, _, -, refused⟩ := returns_bind.mp rest
        exact absurd refused returns_reject
  | forward path _ ih => exact ih budget reached (returns_reword.mp returned)
  | redocument change _ ih => exact ih budget reached returned
  | refine test message _ ih =>
    obtain ⟨_, _, given, rest⟩ := returns_bind.mp returned
    obtain ⟨_, _, -, tested⟩ := returns_bind.mp rest
    obtain ⟨-, rfl, -⟩ := returns_provided.mp tested
    exact ih budget reached given
  | lazy stands _ ih =>
    cases budget with
    | zero => exact absurd returned returns_misuse
    | succ budget =>
      obtain ⟨_, between, resolved, given⟩ := returns_bind.mp returned
      have built := returns_lift.mp resolved
      cases stands _ _ _ reached built
      exact ih budget (reached.of_returns built) given
  | pipe only made _ ih =>
    obtain ⟨between, given⟩ := returns_of_pipe_tests only made returned
    exact ih budget reached given

/-- What `required` makes of a validator: its fields are those that the description declares, and
their names have to be writable. -/
theorem exists_required (v : Validator) :
    ∃ r, Schema.required (.validator v) = Value.showing v.declared r ∧
      r.rule = .required v.declared v.rule := ⟨_, rfl, rfl⟩

/-- Required fields of an object that is wrapped. Whatever is accepted then is accepted anyway, with
the same output. As long as the wrappers hand the description on, every declared key is in the
output with a value that is not absent; and when the wrapped object accepts something and its output
lacks a declared key, the first such key is reported. Once a wrapper does not hand the description
on, no field is required any more: refused is an output with an absent value only. Fields can be
required unless the name of one that is seen cannot be written. -/
theorem required_of_encloses (encloses : Encloses fields world described v) :
    ((∃ r, Schema.required (.validator v) = .ok r) ↔
      (described → Value.areWritable (fields.map (·.1)))) ∧
    ∀ r, Schema.required (.validator v) = .ok r →
      (∀ x y after, (r.safe x).Returns world y after → (v.safe x).Returns world y after ∧
        ∃ out, y = .dict out ∧ (described → ∀ field ∈ fields, ∃ value,
          Entries.get? out field.1 = some value ∧ value.isMissing = false)) ∧
      ∀ x y after, (v.safe x).Returns world y after → ∃ out, y = .dict out ∧
        (described → ∀ before key others, fields.map (·.1) = before ++ key :: others →
          Entries.get? out key = none → (∀ other ∈ before, Entries.get? out other ≠ none) →
            (r.safe x).Reports world
              ⟨.str (key.text ++ ": " ++ "Required"), .located (.str "Required") [key], []⟩ after) ∧
        (described = false → ((r.safe x).Returns world y after ↔ Whole out)) := by
  obtain ⟨made, equal, rule⟩ := exists_required v
  rw [encloses.declared] at rule equal
  refine ⟨?_, fun r given => ?_⟩
  · rw [equal]
    cases described <;> simp [Value.areWritable]
  obtain ⟨written, rfl⟩ := Value.showing_eq_ok.mp (equal.symm.trans given)
  refine ⟨fun x y after returned => ?_, fun x y after returned => ?_⟩
  · rw [returns_safe, rule] at returned
    obtain ⟨-, given, out, held, absent⟩ := returns_required.mp returned
    obtain ⟨-, _, rfl, -⟩ := encloses.accepted _ .refl given
    cases held
    refine ⟨returns_safe.mpr given, out, rfl, fun all field inside => ?_⟩
    rw [if_pos all] at absent
    have present :=
      ((firstAbsent?_eq_none_iff _ _).mp absent).1 field.1 (List.mem_map_of_mem inside)
    cases found : Entries.get? out field.1 with
    | none =>
      rw [found] at present
      cases present
    | some value =>
      rw [found] at present
      exact ⟨value, rfl, present⟩
  · have given := returns_safe.mp returned
    obtain ⟨mapping, out, rfl, definite⟩ := encloses.accepted _ .refl given
    refine ⟨out, rfl, fun all before key others order lacking found => ?_, fun none => ?_⟩
    · rw [if_pos all, order] at written
      rw [order] at definite
      have writable := Value.areWritable_iff.mp written key (by simp)
      have absent := firstAbsent?_of_definite definite lacking found
      rw [reports_safe, rule, if_pos all, order]
      exact reports_required_of_absent writable mapping given rfl absent
    · rw [returns_safe, rule, if_neg (Bool.eq_false_iff.mp none)]
      refine returns_required.trans ⟨?_, fun whole => ?_⟩
      · rintro ⟨-, -, kept, ⟨⟩, absent⟩
        exact ((firstAbsent?_eq_none_iff _ _).mp absent).2
      · exact ⟨mapping, given, out, rfl,
          (firstAbsent?_eq_none_iff _ _).mpr ⟨List.forall_mem_nil _, whole⟩⟩

/-- One field that may be absent. -/
private def roster : List (Value × Validator) := [(.str "name", optional (leaf .string))]

/-- The object of the field with another message, its issues reported under a path, branded and
read-only. -/
private def badge : Validator :=
  ((((object roster).retitled (.given (.str "No roster"))).forward [.str "team"]).brand
    (.str "Roster")).readonly

/-- A lazy schema that is yet to be built, to the branded object. -/
private def rosterWorld : World :=
  { World.initial "" with lazies := [⟨none, .ofValidator badge, none⟩] }

private def passing : Callable := ⟨"passing", fun _ => pure (.bool true)⟩

/-- The lazy schema with a test of its output. -/
private def veiled : Validator := (Validator.lazy 0).refine passing "Refused"

/-- Required through a message, a path and a brand, the field has to be there; through laziness and
a test it does not. -/
theorem roster_required :
    Encloses roster rosterWorld true badge ∧ Encloses roster rosterWorld false veiled ∧
    (∃ r, Schema.required (.validator badge) = .ok r ∧
      (r.safe (.dict [])).Reports rosterWorld
        ⟨.str "name: Required", .located (.str "Required") [.str "name"], []⟩ rosterWorld) ∧
    ∃ r after, Schema.required (.validator veiled) = .ok r ∧
      (r.safe (.dict [])).Returns rosterWorld (.dict []) after := by
  have described : Encloses roster rosterWorld true badge :=
    ((Encloses.object.retitled (.given (.str "No roster"))).forward [.str "team"]).brand
      (.str "Roster")
      |>.readonly
  have steady : ∀ world : World,
      (Recipe.ofValidator badge).build.Returns world (.validator badge) world := fun _ => rfl
  have stands : rosterWorld.StandsFor 0 badge := World.standsFor_of_steady rfl rfl steady rfl
  have hidden : Encloses roster rosterWorld false veiled := .refine _ _ (.lazy stands described)
  obtain ⟨possible, answers⟩ := required_of_encloses described
  obtain ⟨r, made⟩ := possible.mpr fun _ => rfl
  obtain ⟨-, outputs⟩ := answers r made
  obtain ⟨_, ⟨⟩, reported, -⟩ := outputs (.dict []) (.dict []) rosterWorld rfl
  obtain ⟨possible, answers⟩ := required_of_encloses hidden
  obtain ⟨s, built⟩ := possible.mpr nofun
  obtain ⟨-, accepts⟩ := answers s built
  obtain ⟨after, accepted⟩ :
      ∃ after, (veiled.safe (.dict [])).Returns rosterWorld (.dict []) after := ⟨_, rfl⟩
  obtain ⟨_, ⟨⟩, -, returned⟩ := accepts (.dict []) (.dict []) after accepted
  have report := reported rfl [] (.str "name") [] rfl rfl nofun
  exact ⟨described, hidden, ⟨r, made, report⟩, s, after, built, (returned rfl).mpr nofun⟩

/-- Required through a test, a declared field may be absent from what is accepted. -/
theorem not_all_required_through_wrappers :
    ∃ r, Schema.required (.validator ((object roster).refine passing "Refused")) = .ok r ∧
      (r.safe (.dict [])).Returns (World.initial "") (.dict []) (World.initial "") := ⟨_, rfl, rfl⟩

end Validator

end Conform
