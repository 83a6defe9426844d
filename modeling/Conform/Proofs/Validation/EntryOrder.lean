import Conform.Proofs.Evaluation.Tandem
import Conform.Proofs.Validation.SettlingContainers
import Conform.Proofs.Value.Permuted

/-!
Validation does not depend on the order of entries. Forms without callbacks, recovery and lazy parts
run in tandem on inputs that differ in the order of entries at most, and so do what they give; loops
over the entries of the input are compared through what each visit gives, in whatever order.
-/
namespace Conform

open Value (Disclosure Rearranged RearrangedEntries RearrangedEntry)

namespace SafeForm

open Checked

/-- The outputs to an input differ at most in the order of entries, and a dictionary gives a
dictionary. -/
structure Arranges (told : Disclosure) (x out out' : Value) : Prop where
  rearranged : Rearranged told out out'
  mapping : x.entries?.isSome → out.entries?.isSome

variable {told : Disclosure}

/-- On inputs that differ at most in the order of entries the form runs in tandem. -/
def Orderless (told : Disclosure) (form : SafeForm) : Prop :=
  ∀ x y, Rearranged told x y → Tandem (Arranges told x) (form x) (form y)

theorem arranges_self {x y : Value} (rearranged : Rearranged told x y) : Arranges told x x y :=
  ⟨rearranged, id⟩

section Tests

theorem tandem_provided_plain {x y : Value} {related : Value → Value → Prop}
    {condition other : Bool}
    {message : String} (same : condition = other) (holds : condition → related x y) :
    Tandem related (provided condition (.plain message) x) (provided other (.plain message) y) :=
  tandem_provided (Failure.legible_plain _) (Failure.legible_plain _) same holds

theorem orderless_leaf (l : Leaf) : Orderless told (leaf l) := by
  intro x y rearranged
  refine tandem_provided (Failure.legible_expecting _ _) (Failure.legible_expecting _ _) ?_ fun _ =>
    arranges_self rearranged
  cases rearranged.permuted <;> cases l <;> rfl

theorem orderless_instanceOf (cls : Class) : Orderless told (instanceOf cls) :=
  fun _ _ rearranged =>
  tandem_provided (Failure.legible_expecting _ _) (Failure.legible_expecting _ _)
    (rearranged.permuted.isInstance_eq cls) fun _ => arranges_self rearranged

theorem orderless_literal {value : Value} (proper : value.Proper told) :
    Orderless told (literal value) := by
  intro x y rearranged
  refine tandem_provided_plain (rearranged.permuted.sameAs_eq value) fun same =>
    ⟨proper.rearranged, fun mapping => ?_⟩
  obtain ⟨entries, held⟩ := Option.isSome_iff_exists.mp mapping
  obtain ⟨others, found, -⟩ := (Value.equiv_of_entries held).mp (Value.equiv_of_sameAs same)
  exact Option.isSome_of_eq_some found

theorem orderless_oneOf (values : List Value) : Orderless told (oneOf values) := by
  intro x y rearranged
  have same : x.sameAs = y.sameAs := funext rearranged.permuted.sameAs_eq
  exact tandem_provided_plain (by rw [same]) fun _ => arranges_self rearranged

theorem orderless_keyName (keys : List String) : Orderless told (keyName keys) := by
  intro x y rearranged
  have same : ∀ key : Value, (x == key) = (y == key) := fun key =>
    BEq.congr_left rearranged.permuted.equiv
  exact tandem_provided_plain (by simp only [same]) fun _ => arranges_self rearranged

/-- Tests without callback give one answer to both inputs. -/
theorem answer_of_permuted {test : Check} (unaided : test.pieces = []) {x y : Value}
    (permuted : x.Permuted y) : ∃ passed,
      answer test x = pure passed ∧ answer test y = pure passed := by
  cases test with
  | predicate => cases unaided
  | lengthAtLeast | lengthAtMost =>
    refine ⟨_, rfl, ?_⟩
    unfold answer lengthRelates
    rw [permuted.length?_eq]
  | compare comparison bound =>
    refine ⟨_, rfl, ?_⟩
    unfold answer
    rw [permuted.compare?_eq]
  | occurs pattern => cases permuted <;> exact ⟨_, rfl, rfl⟩

theorem tandem_answer {test : Check} (unaided : test.pieces = []) {x y : Value}
    (permuted : x.Permuted y) (default : Value) :
    Tandem Eq (guarded default (answer test x)) (guarded default (answer test y)) := by
  obtain ⟨passed, first, second⟩ := answer_of_permuted unaided permuted
  rw [first, second]
  exact tandem_pure rfl

theorem orderless_check {test : Check} (unaided : test.pieces = []) (message : String) :
    Orderless told (check test message) := fun _ _ rearranged =>
  (tandem_answer unaided rearranged.permuted _).bind fun _ _ same =>
    tandem_provided_plain same fun _ => arranges_self rearranged

end Tests

section Wrappers

variable {inner : SafeForm} {forms : List SafeForm} {x y : Value}

theorem covers_eq (permuted : x.Permuted y) (absence : Absence) :
    absence.covers x = absence.covers y := by
  cases absence <;> simp only [Absence.covers, permuted.isMissing_eq, permuted.isNull_eq]

theorem orderless_accepting (absence : Absence) (orderless : Orderless told inner) :
    Orderless told (accepting absence inner) := by
  intro x y rearranged
  unfold accepting
  rw [covers_eq rearranged.permuted]
  split
  · exact tandem_pure (arranges_self rearranged)
  · exact orderless x y rearranged

/-- A default that is proper leaves an orderless form orderless. -/
theorem orderless_withDefault {value : Value} (orderless : Orderless told inner)
    (proper : value.Proper told) : Orderless told (withDefault inner value) := by
  intro x y rearranged
  unfold withDefault
  rw [← rearranged.permuted.isMissing_eq]
  split
  · rename_i absent
    cases Value.isMissing_iff.mp absent
    exact tandem_pure ⟨proper.rearranged, nofun⟩
  · exact orderless x y rearranged

theorem orderless_rejecting (absence : Absence) (orderless : Orderless told inner) :
    Orderless told (rejecting absence inner) := by
  intro x y rearranged
  refine (orderless x y rearranged).bind fun out out' arranges => ?_
  exact tandem_provided_plain (by rw [covers_eq arranges.rearranged.permuted]) fun _ => arranges

theorem orderless_retitle {message : Value} (writable : message.isWritable)
    (orderless : Orderless told inner) : Orderless told (retitle inner (.given message)) := by
  intro x y rearranged
  have legible : (Failure.of message []).Legible := by
    simp [Failure.Legible, Failure.of, Failure.issues, Issue.bare, Value.areWritable, writable]
  exact (orderless x y rearranged).attempt_bind (fun _ _ arranges => tandem_pure arranges)
    fun _ _ => tandem_reject legible legible

theorem orderless_forward (path : List Value) (orderless : Orderless told inner) :
    Orderless told (forward inner path) := fun x y rearranged =>
  (orderless x y rearranged).reword (fun _ legible => ⟨_, rfl, legible.below path⟩)
    fun _ legible => ⟨_, rfl, legible.below path⟩

/-- Orderless steps are orderless in sequence. -/
theorem orderless_pipe (each : ∀ form ∈ forms, Orderless told form) :
    Orderless told (pipe forms) := by
  induction forms with
  | nil => exact fun x y rearranged => tandem_pure (arranges_self rearranged)
  | cons step rest ih =>
    obtain ⟨first, others⟩ := List.forall_mem_cons.mp each
    intro x y rearranged
    refine (first x y rearranged).bind fun out out' arranges => ?_
    exact (ih others out out' arranges.rearranged).mono fun _ _ further =>
      ⟨further.rearranged, further.mapping ∘ arranges.mapping⟩

/-- The two inputs are accepted by the same alternative. -/
theorem tandem_firstMatch (each : ∀ form ∈ forms, Orderless told form)
    (rearranged : Rearranged told x y) {otherwise otherwise' : Checked Value}
    (last : Tandem (Arranges told x) otherwise otherwise') :
    Tandem (Arranges told x) (firstMatch otherwise forms x) (firstMatch otherwise' forms y) := by
  induction forms with
  | nil => exact last
  | cons option rest ih =>
    obtain ⟨first, others⟩ := List.forall_mem_cons.mp each
    exact (first x y rearranged).attempt_bind (fun _ _ arranges => tandem_pure arranges)
      fun _ _ => ih others

theorem orderless_union (each : ∀ form ∈ forms, Orderless told form) :
    Orderless told (union forms) := fun _ _ rearranged =>
  tandem_firstMatch each rearranged
    (tandem_reject (Failure.legible_plain _) (Failure.legible_plain _))

/-- The entries of the two inputs. -/
theorem tandem_entries {failure : Failure} (legible : failure.Legible)
    (rearranged : Rearranged told x y) :
    Tandem (fun xs ys => x.entries? = some xs ∧ RearrangedEntries told xs ys) (entriesOf failure x)
      (entriesOf failure y) :=
  tandem_entriesOf legible (Entries.rel_imp rearranged.entries fun _ _ held also => ⟨held, also⟩)

theorem orderless_discriminatedUnion (each : ∀ form ∈ forms, Orderless told form) :
    Orderless told (discriminatedUnion forms) := fun _ _ rearranged =>
  (tandem_entries legible_notObject rearranged).bind fun _ _ _ =>
    tandem_firstMatch each rearranged
      (tandem_reject (Failure.legible_plain _) (Failure.legible_plain _))

/-- The discriminator that was found is shown, so it has to be written. -/
theorem refuses_noVariant {key : Value} (hashable : key.unhashable? = none)
    (writable : key.isWritable) {entries : List (Value × Value)}
    (found : ((Entries.get? entries key).getD .missing).isWritable) :
    (noVariant key entries).Refuses := by
  refine (gives_requireHashable hashable).bind_refuses ?_
  simp only [writable, found, Bool.and_self, if_true]
  exact refuses_reject (Failure.legible_plain _)

/-- A choice by a key is orderless where the labels may show everything. -/
theorem orderless_variant {key : Value} (hashable : key.unhashable? = none)
    (writable : key.isWritable) (tells : told = .everything)
    (each : ∀ form ∈ forms, Orderless told form) : Orderless told (variant key forms) := by
  intro x y rearranged
  refine (tandem_entries legible_notObject rearranged).bind ?_
  rintro xs ys ⟨-, entries⟩
  have found := entries.getD key
  have written := found.proper.written tells
  refine tandem_firstMatch each rearranged (.inr ⟨refuses_noVariant hashable writable written, ?_⟩)
  exact refuses_noVariant hashable writable (found.permuted.isWritable_eq ▸ written)

/-- The entries that a dictionary among the outputs so far brings along. -/
def earlier : Value → List (Value × Value)
  | .dict entries => entries
  | _ => []

/-- What rearranged outputs bring along is rearranged. -/
theorem rearranged_earlier (rearranged : Rearranged told x y) :
    RearrangedEntries told (earlier x) (earlier y) := by
  have held := rearranged.entries
  cases rearranged.permuted with
  | same =>
    cases x with
    | dict =>
      cases held with
      | some entries => exact entries
    | _ => exact Value.rearrangedEntries_nil
  | dict =>
    cases held with
    | some entries => exact entries
  | list | tuple | mapping => exact Value.rearrangedEntries_nil

theorem joinOutput_of_entries {merged out : Value} {entries : List (Value × Value)}
    (held : out.entries? = some entries) (distinct : Entries.Distinct entries) :
    joinOutput merged out = .dict (Entries.merge (earlier merged) entries) := by
  unfold joinOutput
  rw [held]
  cases merged with
  | dict => rfl
  | _ => exact congrArg Value.dict (Entries.merge_nil_of_distinct distinct).symm

theorem joinOutput_of_none {out : Value} (held : out.entries? = none) (merged : Value) :
    joinOutput merged out = out := by
  unfold joinOutput
  rw [held]

theorem arranges_joinOutput {merged merged' out out' : Value}
    (before : Arranges told x merged merged') (arranges : Arranges told x out out') :
    Arranges told x (joinOutput merged out) (joinOutput merged' out') := by
  have entries := arranges.rearranged.entries
  cases held : out.entries? with
  | none =>
    rw [held] at entries
    generalize held' : out'.entries? = others at entries
    cases entries
    rw [joinOutput_of_none held, joinOutput_of_none held']
    exact arranges
  | some xs =>
    rw [held] at entries
    generalize held' : out'.entries? = others at entries
    cases entries with
    | some further =>
      have distinct := further.reordered.distinct further.proper.distinct
      rw [joinOutput_of_entries held further.proper.distinct, joinOutput_of_entries held' distinct]
      exact ⟨((rearranged_earlier before.rearranged).merge further).dict, fun _ => rfl⟩

/-- All members at once are orderless if each of them is. -/
theorem orderless_intersect (each : ∀ form ∈ forms, Orderless told form) :
    Orderless told (intersect forms) := by
  intro x y rearranged
  have whole : ∀ merged merged', Arranges told x merged merged' →
      Tandem (Arranges told x) (intersectFrom x forms merged) (intersectFrom y forms merged') := by
    induction forms with
    | nil => exact fun _ _ before => tandem_pure before
    | cons member rest ih =>
      obtain ⟨first, others⟩ := List.forall_mem_cons.mp each
      intro merged merged' before
      exact (first x y rearranged).bind fun out out' arranges =>
        ih others _ _ (arranges_joinOutput before arranges)
  exact whole _ _ ⟨Value.rearrangedEntries_nil.dict, fun _ => rfl⟩

end Wrappers

section Sequences

variable {item : SafeForm} {forms : List SafeForm} {xs ys : List Value}

theorem entries?_of_items {x : Value} {items : List Value} (held : x.items? = some items) :
    x.entries? = none := by
  cases x <;> first | rfl | cases held

/-- The items of the two inputs, which are no dictionaries. -/
theorem tandem_items {x y : Value} (rearranged : Rearranged told x y) :
    Tandem (fun xs ys => x.entries? = none ∧ List.Forall₂ (Rearranged told) xs ys) (itemsOf x)
      (itemsOf y) :=
  tandem_itemsOf (Entries.rel_imp rearranged.items fun _ _ held each =>
    ⟨entries?_of_items held, each⟩)

theorem tandem_eachItem (orderless : Orderless told item)
    (each : List.Forall₂ (Rearranged told) xs ys) (i : Nat) :
    Tandem (List.Forall₂ (Rearranged told)) (eachItem item i xs) (eachItem item i ys) := by
  induction each generalizing i with
  | nil => exact tandem_pure .nil
  | cons first _ ih =>
    refine ((orderless _ _ first).within rfl rfl).bind fun _ _ arranges => ?_
    exact (ih (i + 1)).bind fun _ _ later => tandem_pure (.cons arranges.rearranged later)

/-- Positions of rearranged items give rearranged outputs, item by item. -/
theorem tandem_eachPosition (orderless : ∀ form ∈ forms, Orderless told form)
    (each : List.Forall₂ (Rearranged told) xs ys) (i : Nat) :
    Tandem (List.Forall₂ (Rearranged told)) (eachPosition i forms xs)
      (eachPosition i forms ys) := by
  induction each generalizing i forms with
  | nil => cases forms <;> exact tandem_pure .nil
  | cons first _ ih =>
    cases forms with
    | nil => exact tandem_pure .nil
    | cons form rest =>
      obtain ⟨here, others⟩ := List.forall_mem_cons.mp orderless
      refine ((here _ _ first).within rfl rfl).bind fun _ _ arranges => ?_
      exact (ih others (i + 1)).bind fun _ _ later => tandem_pure (.cons arranges.rearranged later)

/-- A list is no dictionary, and neither is what it is made from. -/
theorem arranges_list {x : Value} (absent : x.entries? = none)
    (each : List.Forall₂ (Rearranged told) xs ys) : Arranges told x (.list xs) (.list ys) := by
  refine ⟨Value.rearranged_list each, ?_⟩
  rw [absent]
  exact nofun

theorem orderless_array (orderless : Orderless told item) : Orderless told (array item) := by
  intro x y rearranged
  refine (tandem_items rearranged).bind ?_
  rintro items others ⟨plain, each⟩
  exact (tandem_eachItem orderless each 0).bind fun _ _ outputs =>
    tandem_pure (arranges_list plain outputs)

/-- Positions are orderless if their forms are. -/
theorem orderless_tuple (orderless : ∀ form ∈ forms, Orderless told form) :
    Orderless told (tuple forms) := by
  intro x y rearranged
  refine (tandem_items rearranged).bind ?_
  rintro items others ⟨plain, each⟩
  rw [each.length_eq]
  split
  · exact (tandem_eachPosition orderless each 0).bind fun _ _ outputs =>
      tandem_pure (arranges_list plain outputs)
  · exact tandem_reject (Failure.legible_plain _) (Failure.legible_plain _)

theorem orderless_looseTuple (orderless : ∀ form ∈ forms, Orderless told form) :
    Orderless told (looseTuple forms) := by
  intro x y rearranged
  refine (tandem_items rearranged).bind ?_
  rintro items others ⟨plain, each⟩
  rw [each.length_eq]
  split
  · exact tandem_reject (Failure.legible_plain _) (Failure.legible_plain _)
  · exact (tandem_eachPosition orderless each 0).bind fun _ _ outputs =>
      tandem_pure (arranges_list plain outputs)

theorem orderless_tupleWithRest (orderless : ∀ form ∈ forms, Orderless told form)
    (rest : Orderless told item) : Orderless told (tupleWithRest forms item) := by
  intro x y rearranged
  refine (tandem_items rearranged).bind ?_
  rintro items others ⟨plain, each⟩
  rw [each.length_eq]
  split
  · exact tandem_reject (Failure.legible_plain _) (Failure.legible_plain _)
  · refine (tandem_eachPosition orderless each 0).bind fun _ _ outputs => ?_
    have remaining := List.forall₂_drop forms.length each
    exact (tandem_eachItem rest remaining forms.length).bind fun _ _ further =>
      tandem_pure (arranges_list plain (List.rel_append outputs further))

end Sequences

section Objects

variable {inner : SafeForm}

/-- Keeping further entries is orderless, the entries being rearranged with their dictionary. -/
theorem orderless_passthrough (orderless : Orderless told inner) :
    Orderless told (passthrough inner) := by
  intro x y rearranged
  refine (tandem_entries legible_notObject rearranged).bind ?_
  rintro xs ys ⟨mapping, entries⟩
  refine (orderless x y rearranged).bind fun out out' arranges => ?_
  have present := arranges.mapping (Option.isSome_of_eq_some mapping)
  have outputs := arranges.rearranged.entries
  generalize out.entries? = one at present outputs
  generalize out'.entries? = two at outputs
  cases outputs with
  | some further => exact tandem_pure ⟨(entries.merge further).dict, fun _ => rfl⟩
  | none => cases present

theorem orderless_lenient (orderless : Orderless told inner) :
    Orderless told (lenient inner) := fun x y rearranged =>
  (tandem_entries legible_notObject rearranged).bind fun _ _ _ =>
    (orderless x y rearranged).attempt_bind (fun _ _ arranges => tandem_pure arranges)
      fun _ _ => tandem_pure (arranges_self rearranged)

theorem firstAbsent?_eq_none_iff (declared : List Value) (out : List (Value × Value)) :
    firstAbsent? declared out = none ↔
      (∀ key ∈ declared, ((Entries.get? out key).getD .missing).isMissing = false) ∧
        ∀ entry ∈ out, entry.2.isMissing = false := by
  simp [firstAbsent?]

/-- Whether a declared field is absent does not depend on the order of entries. -/
theorem firstAbsent?_eq_none_of_rearranged {xs ys : List (Value × Value)}
    (rearranged : RearrangedEntries told xs ys) (declared : List Value) :
    firstAbsent? declared xs = none ↔ firstAbsent? declared ys = none := by
  rw [firstAbsent?_eq_none_iff, firstAbsent?_eq_none_iff]
  have found : ∀ key, ((Entries.get? xs key).getD .missing).isMissing =
      ((Entries.get? ys key).getD .missing).isMissing :=
    fun key => (rearranged.getD key).permuted.isMissing_eq
  simp only [found]
  refine and_congr_right fun _ => ⟨fun each other inside => ?_, fun each entry inside => ?_⟩
  · obtain ⟨entry, member, -, permuted⟩ := rearranged.reordered.covered other inside
    exact permuted.isMissing_eq.symm.trans (each entry member)
  · obtain ⟨other, member, -, permuted⟩ := rearranged.reordered.covers entry inside
    exact permuted.isMissing_eq.trans (each other member)

/-- The field named in a complaint about absence can be written. -/
theorem isWritable_of_firstAbsent? {declared : List Value}
    {out : List (Value × Value)} {key : Value}
    (named : ∀ key ∈ declared, key.isWritable) (also : ∀ entry ∈ out, entry.1.isWritable)
    (absent : firstAbsent? declared out = some key) : key.isWritable := by
  unfold firstAbsent? at absent
  generalize sought : declared.find? _ = first at absent
  cases first with
  | some _ =>
    cases absent
    exact named key (List.mem_of_find?_eq_some sought)
  | none =>
    have found : (out.find? fun entry => entry.2.isMissing).map (·.1) = some key := absent
    obtain ⟨entry, inside, rfl⟩ := Option.map_eq_some_iff.mp found
    exact also entry (List.mem_of_find?_eq_some inside)

theorem shown_key {key : Value} (writable : key.isWritable) :
    Value.areWritable (Place.key key).shown :=
  Value.areWritable_iff.mpr (List.forall_mem_singleton.mpr writable)

theorem refuses_absent {key : Value} (writable : key.isWritable) :
    (report (absentField.placed? (.key key)) : Checked Value).Refuses := by
  obtain ⟨worded, found, legible⟩ := (Failure.legible_plain "Required").placed (shown_key writable)
  rw [absentField, found]
  exact refuses_reject legible

theorem orderless_required {declared : List Value} (named : ∀ key ∈ declared, key.isWritable)
    (tells : told ≠ .nothing) (orderless : Orderless told inner) :
    Orderless told (required declared inner) := by
  intro x y rearranged
  refine (tandem_entries legible_notObject rearranged).bind fun _ _ _ => ?_
  refine (orderless x y rearranged).bind fun out out' arranges => ?_
  refine (tandem_entries legible_notObject arranges.rearranged).bind ?_
  rintro outs others ⟨-, entries⟩
  have same := firstAbsent?_eq_none_of_rearranged entries declared
  have first : ∀ key, firstAbsent? declared outs = some key → key.isWritable :=
    fun key => isWritable_of_firstAbsent? named (entries.proper.named tells)
  have second : ∀ key, firstAbsent? declared others = some key → key.isWritable :=
    fun key => isWritable_of_firstAbsent? named (entries.named tells)
  generalize firstAbsent? declared outs = one at same first
  generalize firstAbsent? declared others = two at same second
  cases one with
  | none =>
    cases same.mp rfl
    exact tandem_pure arranges
  | some key =>
    cases two with
    | none => cases same.mpr rfl
    | some other => exact .inr ⟨refuses_absent (first key rfl), refuses_absent (second other rfl)⟩

end Objects

section Fields

variable {fields : List (Value × SafeForm)} {rest : SafeForm}
  {xs ys out out' : List (Value × Value)}

/-- Fields that do not depend on the order of entries, under names that can be keys and be shown. -/
structure OrderlessFields (told : Disclosure) (fields : List (Value × SafeForm)) : Prop where
  forms : ∀ field ∈ fields, Orderless told field.2
  names : ∀ field ∈ fields, field.1.unhashable? = none ∧ field.1.isWritable

/-- Storing rearranged outputs keeps rearranged entries. -/
def Stores (told : Disclosure)
    (store : List (Value × Value) → Value → Value → List (Value × Value)) : Prop :=
  ∀ {out out' : List (Value × Value)} {key y y' : Value},
    key.unhashable? = none ∧ key.isWritable → RearrangedEntries told out out' →
      Rearranged told y y' → RearrangedEntries told (store out key y) (store out' key y')

theorem stores_present : Stores told storePresent := by
  intro out out' key y y' ⟨hashable, writable⟩ entries rearranged
  unfold storePresent
  rw [rearranged.permuted.isMissing_eq]
  split
  · exact entries
  · exact entries.insert hashable (fun _ => writable) rearranged

theorem stores_orErase : Stores told storeOrErase := by
  intro out out' key y y' ⟨hashable, writable⟩ entries rearranged
  unfold storeOrErase
  rw [rearranged.permuted.isMissing_eq]
  split
  · exact entries.erase key
  · exact entries.insert hashable (fun _ => writable) rearranged

/-- Declared fields give rearranged outputs for rearranged entries. -/
theorem tandem_eachField {store : List (Value × Value) → Value → Value → List (Value × Value)}
    (stores : Stores told store) (orderless : OrderlessFields told fields)
    (entries : RearrangedEntries told xs ys) (outputs : RearrangedEntries told out out') :
    Tandem (RearrangedEntries told) (eachField store xs fields out)
      (eachField store ys fields out') := by
  induction fields generalizing out out' with
  | nil => exact tandem_pure outputs
  | cons field further ih =>
    obtain ⟨form, forms⟩ := List.forall_mem_cons.mp orderless.forms
    obtain ⟨name, names⟩ := List.forall_mem_cons.mp orderless.names
    have shown := shown_key name.2
    refine ((form _ _ (entries.getD field.1)).within shown shown).bind fun y y' arranges => ?_
    exact ih ⟨forms, names⟩ (stores name outputs arranges.rearranged)

/-- A dictionary made from the entries of the input. -/
theorem orderless_ofEntries {failure : Failure} (legible : failure.Legible)
    {build : List (Value × Value) → Checked (List (Value × Value))}
    (alike : ∀ xs ys, RearrangedEntries told xs ys →
      Tandem (RearrangedEntries told) (build xs) (build ys)) :
    Orderless told (fun x => do
      let entries ← entriesOf failure x
      let out ← build entries
      pure (.dict out)) := by
  intro x y rearranged
  refine (tandem_entries legible rearranged).bind ?_
  rintro xs ys ⟨-, entries⟩
  exact (alike xs ys entries).bind fun _ _ outputs => tandem_pure ⟨outputs.dict, fun _ => rfl⟩

theorem orderless_object (orderless : OrderlessFields told fields) :
    Orderless told (object fields) :=
  orderless_ofEntries legible_notObject fun _ _ entries =>
    tandem_eachField stores_present orderless entries Value.rearrangedEntries_nil

theorem orderless_looseObject (orderless : OrderlessFields told fields) :
    Orderless told (looseObject fields) :=
  orderless_ofEntries legible_notObject fun _ _ entries =>
    tandem_eachField stores_orErase orderless entries entries

end Fields

section Entries

variable {visit : Value × Value → Checked (Value × Value)} {rest keyForm valueForm : SafeForm}
  {xs ys out out' : List (Value × Value)}

/-- From entries under one key with values that differ at most in the order of entries, the visit
gives pairs of that kind under an equal key, or it refuses both. -/
def VisitsAlike (told : Disclosure) (visit : Value × Value → Checked (Value × Value)) : Prop :=
  ∀ first second, RearrangedEntry told first second →
    Tandem (fun pair other => (first.1 == pair.1) ∧ RearrangedEntry told pair other) (visit first)
      (visit second)

/-- Entries in whatever order are visited with the same result. -/
theorem tandem_visits (alike : VisitsAlike told visit) (entries : RearrangedEntries told xs ys) :
    Tandem (RearrangedEntries told) (xs.mapM visit) (ys.mapM visit) := by
  obtain ⟨zs, permuted, each⟩ := entries.aligned
  have own : ∀ entry ∈ xs, Tandem _ (visit entry) (visit entry) := fun entry inside =>
    alike entry entry (entries.proper.rearranged entry inside)
  have shuffled : Tandem List.Perm (xs.mapM visit) (zs.mapM visit) :=
    tandem_mapM_perm permuted fun entry inside => (own entry inside).self
  have corresponding : Tandem (List.Forall₂ (RearrangedEntry told)) (zs.mapM visit)
      (ys.mapM visit) :=
    tandem_mapM (each.imp fun first second pair =>
      (alike first second pair).mono fun _ _ holds => holds.2)
  rcases shuffled.comp corresponding with ⟨pairs, others, gives, also, between, reordered,
    aligned⟩ | refuse
  · have keys : List.Forall₂ (fun entry pair => (entry.1 == pair.1) = true) xs pairs := by
      have outputs := (gives_mapM fun entry inside => (own entry inside).steady).mp gives
      refine ((List.forall₂_and_left xs pairs).mpr ⟨fun _ => id, outputs⟩).imp fun entry
        pair given => ?_
      obtain ⟨-, same, -⟩ := (own entry given.1).of_gives given.2
      exact same
    have distinct := entries.proper.distinct.of_keys keys
    exact .inl ⟨pairs, others, gives, also,
      Value.rearrangedEntries_of_aligned distinct reordered aligned⟩
  · exact .inr refuse

/-- One entry under an undeclared key. -/
def visitRest (rest : SafeForm) (entry : Value × Value) : Checked (Value × Value) := do
  let y ← within (.key entry.1) (rest entry.2)
  pure (entry.1, y)

/-- What is stored on the way is stored in the end. -/
theorem eachRest_eq (declared : List Value) (out : List (Value × Value)) :
    eachRest declared rest xs out =
      (undeclared declared xs).mapM (visitRest rest) >>= fun pairs =>
        pure (Entries.merge out pairs) := by
  unfold undeclared
  induction xs generalizing out with
  | nil => rfl
  | cons entry further ih =>
    unfold eachRest
    rw [List.filter_cons]
    split
    · rename_i isDeclared
      rw [isDeclared, ih]
      rfl
    · rename_i other
      rw [Bool.eq_false_iff.mpr other]
      simp only [Bool.not_false, if_true, List.mapM_cons, visitRest, bind_assoc, pure_bind, ih]
      rfl

theorem visitsAlike_rest (tells : told ≠ .nothing) (orderless : Orderless told rest) :
    VisitsAlike told (visitRest rest) := by
  intro first second pair
  have shown := shown_key (pair.named tells)
  have also := shown_key (pair.key ▸ pair.named tells)
  refine ((orderless _ _ pair.value).within shown also).bind fun y y' arranges => ?_
  exact tandem_pure ⟨BEq.refl _, pair.key, pair.hashable, pair.named, arranges.rearranged⟩

/-- Undeclared entries give rearranged outputs, one by one. -/
theorem tandem_eachRest (tells : told ≠ .nothing) (orderless : Orderless told rest)
    (declared : List Value) (entries : RearrangedEntries told xs ys)
    (outputs : RearrangedEntries told out out') :
    Tandem (RearrangedEntries told) (eachRest declared rest xs out)
      (eachRest declared rest ys out') := by
  rw [eachRest_eq, eachRest_eq]
  have remaining := entries.filter fun key => !declared.any (· == key)
  exact (tandem_visits (visitsAlike_rest tells orderless) remaining).bind fun _ _ further =>
    tandem_pure (outputs.merge further)

theorem orderless_objectWithRest {fields : List (Value × SafeForm)}
    (orderless : OrderlessFields told fields) (tells : told ≠ .nothing)
    (others : Orderless told rest) : Orderless told (objectWithRest fields rest) := by
  intro x y rearranged
  refine (tandem_entries legible_notObject rearranged).bind ?_
  rintro xs ys ⟨-, entries⟩
  have fieldwise := tandem_eachField stores_present orderless entries Value.rearrangedEntries_nil
  refine fieldwise.bind fun out out' outputs => ?_
  exact (tandem_eachRest tells others _ entries outputs).bind fun _ _ whole =>
    tandem_pure ⟨whole.dict, fun _ => rfl⟩

/-- On what can be a key the form gives an equal one that can be a key and be written too, or it
refuses. -/
def NamesKeys (form : SafeForm) : Prop :=
  ∀ key : Value, key.unhashable? = none → key.isWritable →
    Tandem (fun name other => (key == name) ∧ name = other ∧ name.unhashable? = none ∧
      name.isWritable)
      (form key) (form key)

/-- A form that gives nothing but what it is given. -/
theorem namesKeys_of_provided {form : SafeForm} {condition : Value → Bool} {failure : Failure}
    (legible : failure.Legible) (gives : ∀ x, form x = provided (condition x) failure x) :
    NamesKeys form := by
  intro key hashable writable
  rw [gives]
  exact tandem_provided legible legible rfl fun _ => ⟨BEq.refl key, rfl, hashable, writable⟩

theorem namesKeys_literal {value : Value} (hashable : value.unhashable? = none)
    (writable : value.isWritable) : NamesKeys (literal value) := fun _ _ _ =>
  tandem_provided_plain rfl fun same => ⟨Value.equiv_of_sameAs same, rfl, hashable, writable⟩

theorem namesKeys_check {test : Check} (unaided : test.pieces = []) (message : String) :
    NamesKeys (check test message) := fun key hashable writable =>
  (tandem_answer unaided (.same key) _).bind fun _ _ same =>
    tandem_provided_plain same fun _ => ⟨BEq.refl key, rfl, hashable, writable⟩

variable {onKey : Value → Failure → Option Failure} {onValue : Value → Place}

/-- One entry, its key before its value. -/
def visitEntry (onKey : Value → Failure → Option Failure) (onValue : Value → Place)
    (keyForm valueForm : SafeForm) (entry : Value × Value) : Checked (Value × Value) := do
  let k ← reword (onKey entry.1) (keyForm entry.1)
  let y ← within (onValue entry.1) (valueForm entry.2)
  requireHashable k
  pure (k, y)

/-- Going through entries is making the visits of each and storing what they give. -/
theorem eachEntry_eq (onKey : Value → Failure → Option Failure) (onValue : Value → Place)
    (out : List (Value × Value)) :
    eachEntry onKey onValue keyForm valueForm xs out =
      xs.mapM (visitEntry onKey onValue keyForm valueForm) >>= fun pairs =>
        pure (Entries.merge out pairs) := by
  induction xs generalizing out with
  | nil => rfl
  | cons entry further ih =>
    simp only [eachEntry, List.mapM_cons, visitEntry, bind_assoc, pure_bind, ih]
    rfl

/-- The failures of keys and values that can be written are reported as such under keys that can be
written. -/
structure Worded (onKey : Value → Failure → Option Failure) (onValue : Value → Place) : Prop where
  keys : ∀ key (failure : Failure), failure.Legible →
    ∃ worded, onKey key failure = some worded ∧ worded.Legible
  values : ∀ key : Value, key.isWritable → Value.areWritable (onValue key).shown

theorem worded_record : Worded invalidKey? .recordEntry :=
  ⟨exists_invalidKey?, fun _ => shown_key⟩

theorem worded_map : Worded (fun key => Failure.placed? (.mapKey key)) .mapEntry :=
  ⟨fun _ _ legible => legible.placed rfl, fun _ => shown_key⟩

/-- Visits of entries are alike on rearranged entries if keys name what they are and values are
orderless. -/
theorem visitsAlike_entry (worded : Worded onKey onValue) (tells : told ≠ .nothing)
    (names : NamesKeys keyForm) (orderless : Orderless told valueForm) :
    VisitsAlike told (visitEntry onKey onValue keyForm valueForm) := by
  intro first second pair
  unfold visitEntry
  rw [← pair.key]
  have writable := pair.named tells
  have words := worded.keys first.1
  refine ((names first.1 pair.hashable writable).reword words words).bind ?_
  rintro name _ ⟨same, rfl, hashable, named⟩
  have shown := worded.values first.1 writable
  refine ((orderless _ _ pair.value).within shown shown).bind fun y y' arranges => ?_
  have able := gives_requireHashable hashable
  have required : Tandem Eq (requireHashable name) (requireHashable name) :=
    .inl ⟨(), (), able, able, rfl⟩
  exact required.bind fun _ _ _ =>
    tandem_pure ⟨same, rfl, hashable, fun _ => named, arranges.rearranged⟩

theorem tandem_eachEntry (worded : Worded onKey onValue) (tells : told ≠ .nothing)
    (names : NamesKeys keyForm) (orderless : Orderless told valueForm)
    (entries : RearrangedEntries told xs ys) :
    Tandem (RearrangedEntries told) (eachEntry onKey onValue keyForm valueForm xs [])
      (eachEntry onKey onValue keyForm valueForm ys []) := by
  rw [eachEntry_eq, eachEntry_eq]
  have visits := tandem_visits (visitsAlike_entry worded tells names orderless) entries
  exact visits.bind fun _ _ outputs => tandem_pure (Value.rearrangedEntries_nil.merge outputs)

theorem orderless_record (tells : told ≠ .nothing) (names : NamesKeys keyForm)
    (orderless : Orderless told valueForm) : Orderless told (record keyForm valueForm) :=
  orderless_ofEntries legible_notObject fun _ _ entries =>
    tandem_eachEntry worded_record tells names orderless entries

theorem orderless_map (tells : told ≠ .nothing) (names : NamesKeys keyForm)
    (orderless : Orderless told valueForm) : Orderless told (map keyForm valueForm) :=
  orderless_ofEntries (Failure.legible_expecting _ _) fun _ _ entries =>
    tandem_eachEntry worded_map tells names orderless entries

end Entries

end SafeForm

end Conform
