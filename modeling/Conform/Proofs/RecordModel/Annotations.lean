import Conform.Proofs.Evaluation.Pieces
import Conform.Proofs.RecordModel.Inhabitants

/-!
The type that a schema's description gives is a type of its outputs. The type of a sequence of steps
is that of the first one, so the later ones have to leave types as they are: what a schema gives
that converts nothing is of every type that its input is of.
-/
namespace Conform

open ValueType SafeForm Rule

namespace Validator

/-- The schema is put together from type checks, exact values, tests, lists, sets, dictionaries,
alternatives, null, refinements, conversions and sequences. Conversions are allowed only where it is
said so, and in a sequence only within the first step, unless that is of any type. -/
inductive Typed : Bool → Validator → Prop where
  | leaf {converts : Bool} (l : Leaf) : Typed converts (leaf l)
  | literal {converts : Bool} {value : Value} (atom : value.isAtom) : Typed converts (literal value)
  | oneOf {converts : Bool} {values : List Value} {v : Validator}
      (atoms : ∀ value ∈ values, value.isAtom)
      (made : oneOf values = .ok v) : Typed converts v
  | test {converts : Bool} (check : Check) (message : String) (parameters : List (String × Value)) :
      Typed converts (test check message parameters)
  | array {converts : Bool} {item : Validator} (typed : Typed converts item) :
      Typed converts (array item)
  | set {converts : Bool} {item : Validator} (typed : Typed converts item) :
      Typed converts (set item)
  | record {converts : Bool} {key value : Validator} (keys : Typed converts key)
      (values : Typed converts value) : Typed converts (record key value)
  | map {converts : Bool} {key value : Validator} (keys : Typed converts key)
      (values : Typed converts value) : Typed converts (map key value)
  | union {converts : Bool} {options : List Validator} {v : Validator}
      (all : ∀ option ∈ options, Typed converts option) (made : union options = .ok v) :
        Typed converts v
  | nullable {converts : Bool} {inner : Validator} (typed : Typed converts inner) :
      Typed converts (nullable inner)
  | refine {converts : Bool} {inner : Validator} (typed : Typed converts inner) (test : Callable)
      (message : String) : Typed converts (refine inner test message)
  | convert (function : Callable) : Typed true (convert function)
  | transform {inner : Validator} (typed : Typed true inner) (function : Callable) :
      Typed true (transform inner function)
  | pipe {converts : Bool} {first v : Validator} {rest : List Validator}
      (head : Typed converts first)
      (tail : ∀ step ∈ rest, Typed false step) (made : pipe (first :: rest) = .ok v) :
        Typed converts v
  | untyped {first v : Validator} {rest : List Validator} (head : Typed true first)
      (tail : ∀ step ∈ rest, Typed true step)
      (anything : ∀ name, ofSchema name (.validator first) = .ok .any)
      (made : Validator.pipe (first :: rest) = .ok v) : Typed true v

variable {onLazy : Nat → SafeForm} {v : Validator} {converts : Bool} {held : ValueType}

private theorem forall_safe_rules {holds : SafeForm → Prop} {parts : List Validator}
    (each : ∀ part ∈ parts, holds (part.rule.safe onLazy)) :
    ∀ form ∈ safeAll onLazy (rules parts), holds form := by
  rw [safeAll_eq_map, rules, List.map_map]
  exact List.forall_mem_map.mpr each

/-- A sequence gives what its steps lead to, whether there are several or a lone one. -/
private theorem relates_steps {related through : Value → Value → Prop} {first : Validator}
    {rest : List Validator} (made : pipe (first :: rest) = .ok v)
    (head : (first.rule.safe onLazy).Relates related)
    (tail : ∀ step ∈ rest, (step.rule.safe onLazy).Relates through)
    (composes : ∀ x y z, related x y → through y z → related x z) :
    (v.rule.safe onLazy).Relates related := by
  cases made
  cases rest with
  | nil => exact head
  | cons second others => exact relates_pipe head (forall_safe_rules tail) composes

/-- Without conversions, outputs retain the types of their inputs. -/
theorem Typed.retains (typed : v.Typed converts) (free : converts = false) :
    (v.rule.safe onLazy).Relates Retains := by
  induction typed with
  | leaf l => exact relates_leaf retains_refl l
  | literal atom => exact relates_literal fun x equals => retains_of_sameAs atom equals
  | @oneOf _ values _ _ made =>
    obtain ⟨-, -, rfl⟩ := eq_of_oneOf made
    exact relates_oneOf retains_refl _
  | test check message => exact relates_check retains_refl check message
  | array _ ih => exact relates_array (ih free) fun _ _ _ => retains_of_items
  | set _ ih => exact relates_set (ih free) fun _ _ _ => retains_of_elements
  | record _ _ keys values => exact relates_record (keys free) (values free) fun _ _ _ =>
    retains_of_entries
  | map _ _ keys values => exact relates_map (keys free) (values free) fun _ _ _ =>
    retains_of_entries
  | @union _ options _ _ made ih =>
    cases options <;> cases made
    exact relates_union (forall_safe_rules fun option inside => ih option inside free)
  | nullable _ ih => exact relates_accepting (fun x _ => retains_refl x) (ih free)
  | refine _ test message ih => exact relates_refine (ih free) test message
  | convert | transform | untyped => cases free
  | pipe _ _ made head tail =>
    exact relates_steps made (head free) (fun step inside => tail step inside rfl) fun _ _ _ =>
      Retains.trans

/-- The type is the one that the description of the schema gives, and all outputs are of it. -/
structure TypedAs (v : Validator) (held : ValueType) : Prop where
  ground : held.Ground
  described : ∀ name, ofSchema name (.validator v) = .ok held
  inhabited : ∀ onLazy, (v.rule.safe onLazy).Relates fun _ y => held.admits y

/-- What is of any type. -/
theorem typedAs_any (described : ∀ name, ofSchema name (.validator v) = .ok .any) :
    v.TypedAs .any :=
  ⟨.any, described, fun _ _ _ _ _ _ => rfl⟩

theorem typedAs_leaf (l : Leaf) : ∃ held, (Validator.leaf l).TypedAs held := by
  have accepts : ∀ held : ValueType, held.Ground →
      (∀ name, ofSchema name (.validator (.leaf l)) = .ok held) →
        (∀ x, l.accepts x → held.admits x) → ∃ held, (Validator.leaf l).TypedAs held :=
    fun held ground described admits =>
      ⟨held, ground, described, fun _ x => ensures_provided (admits x)⟩
  cases l with
  | string => exact accepts .str .str (fun _ => rfl) fun _ accepted => accepted
  | integer => exact accepts .int .int (fun _ => rfl) fun _ accepted => accepted
  | boolean => exact accepts .bool .bool (fun _ => rfl) fun _ accepted => accepted
  | null => exact accepts .null .null (fun _ => rfl) fun _ accepted => accepted
  | number =>
    refine accepts .float .float (fun _ => rfl) fun x accepted => ?_
    cases x <;> first | rfl | cases accepted
  | any | unknown | never => exact ⟨.any, typedAs_any fun _ => rfl⟩

theorem typedAs_literal {value : Value} (atom : value.isAtom) :
    (Validator.literal value).TypedAs (ofLiterals [value]) where
  ground := ground_ofLiterals (List.forall_mem_singleton.mpr atom)
  described _ := by cases value <;> first | rfl | cases atom
  inhabited _ x := ensures_provided fun equals =>
    admits_ofLiterals List.mem_cons_self (Value.sameAs_of_sameAs equals equals)

theorem typedAs_oneOf {values : List Value} (atoms : ∀ value ∈ values, value.isAtom)
    (made : Validator.oneOf values = .ok v) : v.TypedAs (ofLiterals values) := by
  obtain ⟨-, -, rfl⟩ := eq_of_oneOf made
  refine ⟨ground_ofLiterals atoms, fun _ => rfl, fun _ x => ensures_provided fun equals => ?_⟩
  obtain ⟨value, inside, same⟩ := List.any_eq_true.mp equals
  exact admits_ofLiterals inside same

section Parts

variable {inner key value first : Validator} {keys values : ValueType} {rest : List Validator}

theorem TypedAs.array (typed : inner.TypedAs held) : (array inner).TypedAs (.list held) where
  ground := .list typed.ground
  described name := congrArg (Except.map ValueType.list) (typed.described name)
  inhabited onLazy := by
    refine relates_array (typed.inhabited onLazy) fun x items outputs _ stems => ?_
    refine admits_list.mpr ⟨outputs, rfl, fun y inside => ?_⟩
    obtain ⟨_, -, admitted⟩ := stems y inside
    exact admitted

theorem TypedAs.set (typed : inner.TypedAs held) : (set inner).TypedAs (.set held) where
  ground := .set typed.ground
  described name := congrArg (Except.map ValueType.set) (typed.described name)
  inhabited onLazy := by
    refine relates_set (typed.inhabited onLazy) fun x items outputs _ stems => ?_
    refine admits_set.mpr ⟨outputs, rfl, fun y inside => ?_⟩
    obtain ⟨_, -, admitted⟩ := stems y inside
    exact admitted

private theorem admits_dict_of_stem {entries outputs : List (Value × Value)}
    (stem : EntriesStem (fun _ k => keys.admits k) (fun _ y => values.admits y) entries outputs) :
    (ValueType.dict keys values).admits (.dict outputs) := by
  refine admits_dict.mpr ⟨outputs, rfl, fun output inside => ?_⟩
  obtain ⟨⟨_, -, keyed⟩, _, -, valued⟩ := stem output inside
  exact ⟨keyed, valued⟩

private theorem ofPair_typed (keyed : key.TypedAs keys) (valued : value.TypedAs values)
    (name : String) :
    ofPair name (.ofValidators [key, value]) = .ok (.dict keys values) := by
  change (ofSchema name (.validator key) >>= fun k => ofSchema name (.validator value) >>= fun v =>
    Except.ok (ValueType.dict k v)) = _
  rw [keyed.described, valued.described]
  rfl

theorem TypedAs.record (keyed : key.TypedAs keys) (valued : value.TypedAs values) :
    (record key value).TypedAs (.dict keys values) where
  ground := .dict keyed.ground valued.ground
  described := ofPair_typed keyed valued
  inhabited onLazy := relates_record (keyed.inhabited onLazy) (valued.inhabited onLazy)
    fun _ _ _ _ stem => admits_dict_of_stem stem

theorem TypedAs.map (keyed : key.TypedAs keys) (valued : value.TypedAs values) :
    (map key value).TypedAs (.dict keys values) where
  ground := .dict keyed.ground valued.ground
  described := ofPair_typed keyed valued
  inhabited onLazy := relates_map (keyed.inhabited onLazy) (valued.inhabited onLazy)
    fun _ _ _ _ stem => admits_dict_of_stem stem

theorem TypedAs.refine (typed : inner.TypedAs held) (test : Callable) (message : String) :
    (refine inner test message).TypedAs held where
  ground := typed.ground
  described := typed.described
  inhabited onLazy := relates_refine (typed.inhabited onLazy) test message

/-- A schema that admits null besides has a type if what it wraps has one. -/
theorem TypedAs.nullable (typed : inner.TypedAs held) : ∃ either,
    (nullable inner).TypedAs either := by
  have ground : ∀ member ∈ [held, .null], member.Ground :=
    List.forall_mem_cons.mpr ⟨typed.ground, List.forall_mem_singleton.mpr .null⟩
  obtain ⟨either, made, grounded, covers⟩ := choice_ground ground
  refine ⟨either, grounded, fun name => ?_, fun onLazy => ?_⟩
  · change (ofSchema name (.validator inner) >>= fun held => choice [held, .null]) = _
    rw [typed.described]
    exact made
  · have inhabited := (typed.inhabited onLazy)
    refine relates_accepting (fun x absent => covers .null (by simp) x absent) fun x => ?_
    exact (inhabited x).mono fun y admitted => covers held (by simp) y admitted

/-- A sequence is typed by its first step if the later steps retain what they are given. -/
theorem TypedAs.pipe (typed : first.TypedAs held)
    (tail : ∀ step ∈ rest, ∀ onLazy, (step.rule.safe onLazy).Relates Retains)
    (made : pipe (first :: rest) = .ok v) : v.TypedAs held where
  ground := typed.ground
  described name := by
    cases made
    exact typed.described name
  inhabited onLazy :=
    relates_steps made (typed.inhabited onLazy) (fun step inside => tail step inside onLazy)
    fun _ y z admitted retained => retained held typed.ground admitted

end Parts

/-- Options of known types have, as positions, a list of these. -/
theorem ofPositions_typed {options : List Validator}
    (each : ∀ option ∈ options, ∃ held, option.TypedAs held) :
    ∃ members : List ValueType, (∀ member ∈ members, member.Ground) ∧
      (∀ name i, ofPositions name i (options.map .validator) = .ok members) ∧
      ∀ option ∈ options, ∃ member ∈ members, option.TypedAs member := by
  induction options with
  | nil => exact ⟨[], nofun, fun _ _ => rfl, nofun⟩
  | cons option rest ih =>
    obtain ⟨⟨held, typed⟩, later⟩ := List.forall_mem_cons.mp each
    obtain ⟨members, ground, listed, covers⟩ := ih later
    refine ⟨held :: members, List.forall_mem_cons.mpr ⟨typed.ground, ground⟩, fun name i => ?_,
      List.forall_mem_cons.mpr ⟨⟨held, List.mem_cons_self, typed⟩, fun other inside => ?_⟩⟩
    · rw [List.map_cons, ofPositions, typed.described, listed]
      rfl
    · obtain ⟨member, offered, typed⟩ := covers other inside
      exact ⟨member, List.mem_cons_of_mem _ offered, typed⟩

/-- A choice is typed if each of its options is. -/
theorem typedAs_union {options : List Validator}
    (each : ∀ option ∈ options, ∃ held, option.TypedAs held)
    (made : Validator.union options = .ok v) : ∃ held, v.TypedAs held := by
  obtain ⟨members, ground, listed, covers⟩ := ofPositions_typed each
  have inhabited : ∀ held : ValueType, (∀ member ∈ members, ∀ y, member.admits y → held.admits y) →
      ∀ onLazy, (v.rule.safe onLazy).Relates fun _ y => held.admits y := by
    intro held admits onLazy
    cases options <;> cases made
    refine relates_union (forall_safe_rules fun option inside x => ?_)
    obtain ⟨member, offered, typed⟩ := covers option inside
    exact (typed.inhabited onLazy x).mono (admits member offered)
  obtain ⟨either, chosen, grounded, admits⟩ := choice_ground ground
  cases options <;> cases made
  -- A lone option is not made a choice of.
  rcases members with _ | ⟨only, _ | ⟨second, rest⟩⟩
  · refine ⟨either, grounded, fun name => ?_, inhabited either admits⟩
    change (ofPositions name 0 _ >>= _) = _
    rw [listed]
    exact chosen
  · refine ⟨only, ground only List.mem_cons_self, fun name => ?_, inhabited only ?_⟩
    · change (ofPositions name 0 _ >>= _) = _
      rw [listed]
      rfl
    · intro member inside y admitted
      rwa [← List.mem_singleton.mp inside]
  · refine ⟨either, grounded, fun name => ?_, inhabited either admits⟩
    change (ofPositions name 0 _ >>= _) = _
    rw [listed]
    exact chosen

/-- What a schema gives is of the type that its description gives. -/
theorem Typed.typedAs (typed : v.Typed converts) : ∃ held, v.TypedAs held := by
  induction typed with
  | leaf l => exact typedAs_leaf l
  | literal atom => exact ⟨_, typedAs_literal atom⟩
  | oneOf atoms made => exact ⟨_, typedAs_oneOf atoms made⟩
  | test | convert | transform => exact ⟨.any, typedAs_any fun _ => rfl⟩
  | array _ ih =>
    obtain ⟨held, typed⟩ := ih
    exact ⟨_, typed.array⟩
  | set _ ih =>
    obtain ⟨held, typed⟩ := ih
    exact ⟨_, typed.set⟩
  | record _ _ keys values =>
    obtain ⟨_, keyed⟩ := keys
    obtain ⟨_, valued⟩ := values
    exact ⟨_, keyed.record valued⟩
  | map _ _ keys values =>
    obtain ⟨_, keyed⟩ := keys
    obtain ⟨_, valued⟩ := values
    exact ⟨_, keyed.map valued⟩
  | union _ made ih => exact typedAs_union ih made
  | nullable _ ih =>
    obtain ⟨held, typed⟩ := ih
    exact typed.nullable
  | refine _ test message ih =>
    obtain ⟨held, typed⟩ := ih
    exact ⟨held, typed.refine test message⟩
  | pipe _ tail made ih =>
    obtain ⟨held, typed⟩ := ih
    exact ⟨held, typed.pipe (fun step inside onLazy => (tail step inside).retains rfl) made⟩
  | untyped _ _ anything made =>
    cases made
    exact ⟨.any, typedAs_any anything⟩

/-- The description of a schema gives a type, and every output of the schema is of it; unless a step
of a sequence converts after a first step of which more is known than that it gives anything. -/
theorem output_inhabits_annotation (typed : v.Typed true) :
    ∃ held, (∀ name, ofSchema name (.validator v) = .ok held) ∧
      ∀ x y world after, (v.safe x).Returns world y after → held.admits y := by
  obtain ⟨held, typedAs⟩ := typed.typedAs
  refine ⟨held, typedAs.described, fun x y world after returned => ?_⟩
  exact typedAs.inhabited _ x world y after (returns_safe.mp returned)

/-- A score for every round, null for one that was left out. -/
private def rounds : Validator := .array (.nullable (.leaf .integer))

/-- There is at least one. -/
private def played : Validator := predicate ⟨"bool", fun x => pure (.bool x.truthy)⟩ "No rounds"

/-- The scores of at least one round are a list of integers and nulls. -/
theorem scores_output_inhabits_annotation :
    ∃ v held after, Validator.pipe [rounds, played] = .ok v ∧ v.Typed true ∧
      (v.safe (.tuple [.int 3, .null])).Returns (World.initial "scores")
        (.list [.int 3, .null]) after ∧
      (∀ name, ofSchema name (.validator v) = .ok held) ∧ held.admits (.list [.int 3, .null]) := by
  have made : Validator.pipe [rounds, played] = .ok _ := rfl
  have typed : Typed true _ :=
    .pipe (.array (.nullable (.leaf .integer))) (List.forall_mem_singleton.mpr (.test ..)) made
  obtain ⟨held, described, inhabited⟩ := output_inhabits_annotation typed
  exact ⟨_, held, _, made, typed, rfl, described,
    inhabited (.tuple [.int 3, .null]) _ (World.initial "scores") _ rfl⟩

/-- The length of a value. -/
private def measured : Callable := ⟨"len", fun x => pure (.int ((x.length?.getD 0 : Nat) : Int))⟩

/-- Text turned into its length is still described as text. -/
theorem not_all_outputs_inhabit_annotation :
    ∃ v held after, Validator.pipe [.leaf .string, convert measured] = .ok v ∧
      (∀ name, ofSchema name (.validator v) = .ok held) ∧
      (v.safe (.str "word")).Returns (World.initial "words") (.int 4) after ∧
        held.admits (.int 4) = false :=
  ⟨_, .str, _, rfl, fun _ => rfl, rfl, rfl⟩

end Validator

end Conform
