import Conform.Proofs.Validation.EntryOrder

/-!
The modes of an object beside each other. All of them look at their fields first, in one way and in
one order, and differ in what they make of the outputs: a dictionary of them alone, the input with
the outputs stored in place, the outputs and then the rest of the input, or the input overlaid with
the outputs. What these have in common is `Validator.object_modes_agree`; where the second and the
fourth part is `Validator.passthrough_as_looseObject`, and which of them leave absent outputs out is
`Validator.absent_outputs_left_out`.
-/
namespace Conform

namespace Checked

variable {α : Type}

/-- A computation returns something, or else it breaks off or fails as it does when something is
made of what it returns. -/
theorem ends_thereafter (computation : Checked α) (world : World) :
    (∃ fault after, ∀ make : α → Value,
      (computation >>= fun value => pure (make value)).Faults world fault after) ∨
    (∃ failure after, ∀ make : α → Value,
      (computation >>= fun value => pure (make value)).Reports world failure after) ∨
    ∃ value after, computation.Returns world value after := by
  rcases ended : computation.ending world with ⟨fault | failure | value, after⟩
  · exact .inl ⟨fault, after, fun make => faults_bind.mpr (.inl ended)⟩
  · exact .inr (.inl ⟨failure, after, fun make => reports_bind.mpr (.inl ended)⟩)
  · exact .inr (.inr ⟨value, after, ended⟩)

end Checked

namespace SafeForm

open Checked

section Outputs

variable {forms : List (Value × SafeForm)} {entries pairs : List (Value × Value)}
  {world after : World}

/-- What lies under a key, or else the mark of what is absent. -/
def inputAt (entries : List (Value × Value)) (key : Value) : Value :=
  (Entries.get? entries key).getD .missing

def visitField (entries : List (Value × Value)) (field : Value × SafeForm) :
    Checked (Value × Value) := do
  let y ← within (.key field.1) (field.2 (inputAt entries field.1))
  pure (field.1, y)

/-- What the fields give for the entries of an input, in the order of declaration. -/
def fieldOutputs (forms : List (Value × SafeForm)) (entries : List (Value × Value)) :
    Checked (List (Value × Value)) := forms.mapM (visitField entries)

/-- What a form gives for the entries under keys that are not declared. -/
def restOutputs (declared : List Value) (rest : SafeForm) (entries : List (Value × Value)) :
    Checked (List (Value × Value)) := (undeclared declared entries).mapM (visitRest rest)

/-- What is stored on the way is stored in the end. -/
theorem eachField_eq (store : List (Value × Value) → Value → Value → List (Value × Value))
    (out : List (Value × Value)) :
    eachField store entries forms out = fieldOutputs forms entries >>= fun pairs =>
      pure (pairs.foldl (fun out pair => store out pair.1 pair.2) out) := by
  unfold fieldOutputs
  induction forms generalizing out with
  | nil => rfl
  | cons field rest ih =>
    simp only [eachField, List.mapM_cons, visitField, inputAt, bind_assoc, pure_bind, ih,
      List.foldl_cons]

/-- Visits that put an output under the key of what they visit keep the keys. -/
private theorem keys_of_visits {β : Type} {visit : Value × β → Checked (Value × Value)}
    (keeps : ∀ item, ∃ output : Checked Value, visit item = output >>= fun y => pure (item.1, y))
    {items : List (Value × β)} (returned : (items.mapM visit).Returns world pairs after) :
    pairs.map (·.1) = items.map (·.1) := by
  induction items generalizing world pairs with
  | nil =>
    rw [List.mapM_nil] at returned
    obtain ⟨rfl, -⟩ := returns_pure.mp returned
    rfl
  | cons item rest ih =>
    rw [List.mapM_cons] at returned
    obtain ⟨pair, between, first, later⟩ := returns_bind.mp returned
    obtain ⟨others, last, further, made⟩ := returns_bind.mp later
    obtain ⟨rfl, rfl⟩ := returns_pure.mp made
    obtain ⟨output, equal⟩ := keeps item
    rw [equal] at first
    obtain ⟨y, reached, -, stored⟩ := returns_bind.mp first
    obtain ⟨rfl, -⟩ := returns_pure.mp stored
    rw [List.map_cons, List.map_cons, ih further]

theorem keys_of_fieldOutputs (returned : (fieldOutputs forms entries).Returns world pairs after) :
    pairs.map (·.1) = forms.map (·.1) := keys_of_visits (fun _ => ⟨_, rfl⟩) returned

theorem keys_of_restOutputs {declared : List Value} {rest : SafeForm}
    (returned : (restOutputs declared rest entries).Returns world pairs after) :
    pairs.map (·.1) = (undeclared declared entries).map (·.1) :=
  keys_of_visits (fun _ => ⟨_, rfl⟩) returned

/-- A form that accepts everything gives the entries as they are. -/
theorem restOutputs_any (declared : List Value) (entries : List (Value × Value)) :
    restOutputs declared (leaf .any) entries = pure (undeclared declared entries) := by
  unfold restOutputs
  induction undeclared declared entries with
  | nil => rfl
  | cons entry rest ih =>
    rw [List.mapM_cons, ih]
    rfl

end Outputs

section Modes

variable {forms : List (Value × SafeForm)} {x : Value} {entries : List (Value × Value)}
  (mapping : x.entries? = some entries)
include mapping

theorem object_eq : object forms x = fieldOutputs forms entries >>= fun pairs =>
    pure (.dict (Entries.merge [] (presentPairs pairs))) := by
  simp only [object, entriesOf, mapping, eachField_eq, foldl_storePresent, pure_bind, bind_assoc]

theorem looseObject_eq : looseObject forms x = fieldOutputs forms entries >>= fun pairs =>
    pure (.dict (pairs.foldl (fun out pair => storeOrErase out pair.1 pair.2) entries)) := by
  simp only [looseObject, entriesOf, mapping, eachField_eq, pure_bind, bind_assoc]

theorem objectWithRest_eq (rest : SafeForm) :
    objectWithRest forms rest x = fieldOutputs forms entries >>= fun pairs =>
      restOutputs (forms.map (·.1)) rest entries >>= fun others =>
        pure (.dict (Entries.merge (Entries.merge [] (presentPairs pairs)) others)) := by
  simp only [objectWithRest, entriesOf, mapping, eachField_eq, foldl_storePresent,
    eachRest_eq, restOutputs, pure_bind, bind_assoc]

theorem passthrough_object_eq :
    passthrough (object forms) x = fieldOutputs forms entries >>= fun pairs =>
    pure (.dict (Entries.merge entries (Entries.merge [] (presentPairs pairs)))) := by
  simp only [passthrough, entriesOf, mapping, object_eq mapping, pure_bind, bind_assoc]
  rfl

end Modes

section Copies

variable {pairs entries : List (Value × Value)}

theorem distinct_undeclared (distinct : Entries.Distinct entries) (declared : List Value) :
    Entries.Distinct (undeclared declared entries) := List.Pairwise.filter _ distinct

theorem get?_undeclared (declared : List Value) (entries : List (Value × Value)) (key : Value) :
    Entries.get? (undeclared declared entries) key =
      if declared.any (· == key) then none else Entries.get? entries key :=
  Entries.get?_without entries declared key

/-- Among outputs for entries under undeclared keys nothing is found under a declared one. -/
theorem get?_of_keys_undeclared {declared : List Value} {others : List (Value × Value)}
    (keys : others.map (·.1) = (undeclared declared entries).map (·.1)) {key : Value}
    (listed : key ∈ declared) : Entries.get? others key = none := by
  apply Entries.get?_eq_none_iff.mpr
  intro other inside
  have member : other.1 ∈ (undeclared declared entries).map (·.1) := by
    rw [← keys]
    exact List.mem_map_of_mem inside
  obtain ⟨entry, kept, same⟩ := List.mem_map.mp member
  have unnamed : declared.any (· == entry.1) = false := by simpa using (List.mem_filter.mp kept).2
  have apart := List.any_eq_false.mp unnamed key listed
  rw [← same]
  exact BEq.symm_false (Bool.eq_false_iff.mpr apart)

/-- Under a key that no output has there is none. -/
theorem get?_presentPairs_of_other {key : Value}
    (other : (pairs.map (·.1)).any (· == key) = false) :
    Entries.get? (presentPairs pairs) key = none := by
  apply Entries.get?_eq_none_iff.mpr
  intro pair present
  have member := (List.mem_filter.mp present).1
  have unnamed := List.any_eq_false.mp other pair.1 (List.mem_map_of_mem member)
  exact Bool.eq_false_iff.mpr unnamed

/-- In a copy of the input in which the outputs are stored, and from which absent ones are taken
away, the outputs are found under their keys and the input under all others. -/
theorem get?_stored (distinct : Entries.Distinct pairs) (entries : List (Value × Value))
    (key : Value) :
    Entries.get? (pairs.foldl (fun out pair => storeOrErase out pair.1 pair.2) entries) key =
      if (pairs.map (·.1)).any (· == key) then Entries.get? (presentPairs pairs) key
      else Entries.get? entries key := by
  by_cases named : (pairs.map (·.1)).any (· == key) = true
  · obtain ⟨name, listed, same⟩ := List.any_eq_true.mp named
    obtain ⟨pair, inside, rfl⟩ := List.mem_map.mp listed
    have stored := presents_storeOrErase distinct entries pair inside
    have present := presents_presentPairs distinct pair inside
    rw [if_pos named, ← Entries.get?_congr same, ← Entries.get?_congr same, stored, present]
  · have other := Bool.eq_false_iff.mpr named
    have absent : (absentKeys pairs).any (· == key) = false := by
      apply List.any_eq_false.mpr
      intro name listed
      obtain ⟨pair, kept, rfl⟩ := List.mem_map.mp listed
      exact List.any_eq_false.mp other _ (List.mem_map_of_mem (List.mem_filter.mp kept).1)
    rw [if_neg named, foldl_storeOrErase distinct, get?_undeclared, absent,
      if_neg Bool.false_ne_true,
      Entries.get?_merge (distinct_presentPairs distinct), get?_presentPairs_of_other other,
        Option.none_or]

/-- Among the outputs and the entries under other keys, the outputs are found under their keys and
the input under all others. -/
theorem get?_followed (distinct : Entries.Distinct entries) (pairs : List (Value × Value))
    (key : Value) :
    Entries.get? (Entries.merge (presentPairs pairs) (undeclared (pairs.map (·.1)) entries)) key =
      if (pairs.map (·.1)).any (· == key) then Entries.get? (presentPairs pairs) key
      else Entries.get? entries key := by
  rw [Entries.get?_merge (distinct_undeclared distinct _), get?_undeclared]
  by_cases named : (pairs.map (·.1)).any (· == key) = true
  · rw [if_pos named, if_pos named, Option.none_or]
  · have other := Bool.eq_false_iff.mpr named
    rw [if_neg named, if_neg named, get?_presentPairs_of_other other, Option.or_none]

/-- Followed by outputs for the entries under other keys, the outputs are found as before. -/
theorem presents_followed (distinct : Entries.Distinct pairs) {others : List (Value × Value)}
    (apart : Entries.Distinct others)
    (keys : others.map (·.1) = (undeclared (pairs.map (·.1)) entries).map (·.1)) :
    Presents (Entries.merge (presentPairs pairs) others) pairs := by
  intro pair inside
  have fresh := get?_of_keys_undeclared keys (List.mem_map_of_mem inside)
  rw [Entries.get?_merge apart, fresh, Option.none_or]
  exact presents_presentPairs distinct pair inside

/-- Overlaid with the outputs, the input has them under their keys, but for its own values under the
keys of absent ones. -/
theorem presents_overlaid_iff (distinct : Entries.Distinct pairs) (entries : List (Value × Value)) :
    Presents (Entries.merge entries (presentPairs pairs)) pairs ↔
      ∀ pair ∈ pairs, pair.2.isMissing → Entries.get? entries pair.1 = none := by
  refine forall₂_congr fun pair inside => ?_
  have present := presents_presentPairs distinct pair inside
  rw [Entries.get?_merge (distinct_presentPairs distinct), present]
  by_cases absent : pair.2.isMissing = true
  · simp [absent]
  · simp [absent]

/-- Where the outputs are found, no key of an absent one is left to be taken away. -/
theorem Presents.undeclared_absentKeys {out : List (Value × Value)}
    (presents : Presents out pairs) :
    undeclared (absentKeys pairs) out = out := by
  refine List.filter_eq_self.mpr fun entry held => ?_
  rw [Bool.not_eq_true', List.any_eq_false]
  intro key listed same
  obtain ⟨pair, kept, rfl⟩ := List.mem_map.mp listed
  obtain ⟨inside, absent⟩ := List.mem_filter.mp kept
  have hidden := presents pair inside
  rw [if_pos absent] at hidden
  have apart := Entries.get?_eq_none_iff.mp hidden entry held
  rw [BEq.symm same] at apart
  cases apart

/-- Overlaid with the outputs, the input is what it becomes when they are stored and absent ones
taken away, just if no absent output has a key of the input. -/
theorem overlaid_eq_stored_iff (distinct : Entries.Distinct pairs)
    (entries : List (Value × Value)) :
    Entries.merge entries (presentPairs pairs) =
        pairs.foldl (fun out pair => storeOrErase out pair.1 pair.2) entries ↔
      ∀ pair ∈ pairs, pair.2.isMissing → Entries.get? entries pair.1 = none := by
  rw [← presents_overlaid_iff distinct]
  constructor
  · intro same
    rw [same]
    exact presents_storeOrErase distinct entries
  · intro presents
    rw [foldl_storeOrErase distinct, presents.undeclared_absentKeys]

/-- Where the outputs are found, the entries under their keys are the outputs that are not
absent. -/
theorem Presents.restrict {out : List (Value × Value)} (presents : Presents out pairs) :
    Entries.restrict (pairs.map (·.1)) out = presentPairs pairs := by
  unfold Entries.restrict presentPairs
  induction pairs with
  | nil => rfl
  | cons pair rest ih =>
    obtain ⟨here, later⟩ := List.forall_mem_cons.mp presents
    have others := ih later
    by_cases absent : pair.2.isMissing = true
    · simp only [List.map_cons, List.filterMap_cons, List.filter_cons, here, absent]
      simpa using others
    · simp only [List.map_cons, List.filterMap_cons, List.filter_cons, here, absent]
      simpa using others

/-- Where a copy gives the outputs under their keys, it presents them. -/
theorem presents_of_get? (distinct : Entries.Distinct pairs) {out entries : List (Value × Value)}
    (found : ∀ key, Entries.get? out key =
      if (pairs.map (·.1)).any (· == key) then Entries.get? (presentPairs pairs) key
      else Entries.get? entries key) : Presents out pairs := by
  intro pair inside
  have named : (pairs.map (·.1)).any (· == pair.1) = true :=
    List.any_eq_true.mpr ⟨pair.1, List.mem_map_of_mem inside, BEq.refl _⟩
  rw [found, if_pos named, presents_presentPairs distinct pair inside]

/-- None of the values is absent. -/
def Whole (entries : List (Value × Value)) : Prop := ∀ entry ∈ entries, entry.2.isMissing = false

instance (entries : List (Value × Value)) : Decidable (Whole entries) :=
  inferInstanceAs (Decidable (∀ entry ∈ entries, entry.2.isMissing = false))

theorem whole_presentPairs (pairs : List (Value × Value)) : Whole (presentPairs pairs) := by
  intro pair present
  simpa using (List.mem_filter.mp present).2

theorem Whole.undeclared (whole : Whole entries) (declared : List Value) :
    Whole (undeclared declared entries) := fun entry kept => whole entry (List.mem_filter.mp kept).1

/-- Entries without absent values that are overlaid with such entries have none either. -/
theorem Whole.merge {first second : List (Value × Value)} (whole : Whole first)
    (also : Whole second) :
    Whole (Entries.merge first second) := by
  intro entry inside
  obtain ⟨-, source, member, value⟩ := Entries.mem_merge inside
  rw [value]
  rcases List.mem_append.mp member with early | late
  · exact whole source early
  · exact also source late

/-- What is put on top of entries, each key once, is among them. -/
theorem Whole.of_merge {first second : List (Value × Value)} (distinct : Entries.Distinct second)
    (whole : Whole (Entries.merge first second)) : Whole second := by
  intro entry inside
  have found : Entries.get? (Entries.merge first second) entry.1 = some entry.2 :=
    Entries.get?_merge_of_mem distinct inside
  obtain ⟨other, member, -, value⟩ := Entries.exists_of_get?_eq_some found
  rw [← value]
  exact whole other member

end Copies

end SafeForm

namespace Validator

open SafeForm Checked

variable {fields : List (Value × Validator)} {x : Value} {entries pairs : List (Value × Value)}
  {world after : World}

def fieldForms (fields : List (Value × Validator)) (x : Value) (world : World) :
    List (Value × SafeForm) :=
  Rule.safeFields (Rule.lazySafe (world.budget x)) (fieldRules fields)

theorem keys_fieldForms (fields : List (Value × Validator)) (x : Value) (world : World) :
    (fieldForms fields x world).map (·.1) = fields.map (·.1) := by
  simp [fieldForms, Rule.safeFields_eq_map, fieldRules]

/-- The fields give the outputs for the entries of the input, in the order of declaration. -/
def FieldsGive (fields : List (Value × Validator)) (x : Value) (world : World)
    (pairs : List (Value × Value)) (after : World) : Prop :=
  ∃ entries, x.entries? = some entries ∧
    (fieldOutputs (fieldForms fields x world) entries).Returns world pairs after

theorem fieldsGive_iff (mapping : x.entries? = some entries) :
    FieldsGive fields x world pairs after ↔
    (fieldOutputs (fieldForms fields x world) entries).Returns world pairs after := by
  constructor
  · rintro ⟨looked, same, returned⟩
    cases mapping.symm.trans same
    exact returned
  · exact fun returned => ⟨entries, mapping, returned⟩

theorem FieldsGive.keys (gives : FieldsGive fields x world pairs after) :
    pairs.map (·.1) = fields.map (·.1) := by
  obtain ⟨entries, -, returned⟩ := gives
  rw [keys_of_fieldOutputs returned, keys_fieldForms]

theorem FieldsGive.distinct (gives : FieldsGive fields x world pairs after)
    (declared : Entries.Distinct fields) : Entries.Distinct pairs :=
  Entries.distinct_of_keys_eq gives.keys declared

/-- Stored from nothing on, the present outputs of fields are all that there is. -/
theorem FieldsGive.merge_nil (gives : FieldsGive fields x world pairs after)
    (declared : Entries.Distinct fields) : Entries.merge [] (presentPairs pairs) =
      presentPairs pairs :=
  Entries.merge_nil_of_distinct (distinct_presentPairs (gives.distinct declared))

theorem FieldsGive.unique {others : List (Value × Value)} {last : World}
    (gives : FieldsGive fields x world pairs after) (also : FieldsGive fields x world others last) :
    pairs = others := by
  obtain ⟨entries, mapping, given⟩ := gives
  cases given.symm.trans ((fieldsGive_iff mapping).mp also)
  rfl

/-- The rest gives the outputs for the entries under undeclared keys, with the budget that the whole
input was given before the fields were looked at. -/
def OthersGive (fields : List (Value × Validator)) (rest : Validator) (x : Value)
    (world between : World) (others : List (Value × Value)) (after : World) : Prop :=
  ∃ entries, x.entries? = some entries ∧
    (restOutputs (fields.map (·.1)) (rest.rule.safe (Rule.lazySafe (world.budget x)))
      entries).Returns
      between others after

theorem OthersGive.keys {rest : Validator} {between : World} {others : List (Value × Value)}
    (gives : OthersGive fields rest x world between others after)
    (mapping : x.entries? = some entries) :
    others.map (·.1) = (undeclared (fields.map (·.1)) entries).map (·.1) := by
  obtain ⟨looked, same, returned⟩ := gives
  cases mapping.symm.trans same
  exact keys_of_restOutputs returned

/-- A rest that accepts everything gives what the input has under undeclared keys. -/
theorem othersGive_any (fields : List (Value × Validator)) (mapping : x.entries? = some entries)
    (world between : World) :
    OthersGive fields (leaf .any) x world between
      (undeclared (fields.map (·.1)) entries) between := by
  refine ⟨entries, mapping, ?_⟩
  change (restOutputs (fields.map (·.1)) (SafeForm.leaf .any) entries).Returns _ _ _
  rw [restOutputs_any]
  exact returns_pure.mpr ⟨rfl, rfl⟩

section Endings

variable (mapping : x.entries? = some entries) (fields) (world)
include mapping

theorem ending_object : ((object fields).safe x).ending world =
    (fieldOutputs (fieldForms fields x world) entries >>= fun pairs =>
      pure (.dict (Entries.merge [] (presentPairs pairs)))).ending world := by
  rw [ending_safe]
  exact congrArg (Checked.ending · world) (object_eq mapping)

theorem ending_looseObject : ((looseObject fields).safe x).ending world =
    (fieldOutputs (fieldForms fields x world) entries >>= fun pairs =>
      pure (.dict (pairs.foldl (fun out pair => storeOrErase out pair.1 pair.2) entries))).ending
        world := by
  rw [ending_safe]
  exact congrArg (Checked.ending · world) (looseObject_eq mapping)

/-- An object with a rest stores what its fields and its further entries give, in that order. -/
theorem ending_objectWithRest (rest : Validator) :
    ((objectWithRest fields rest).safe x).ending world =
    (fieldOutputs (fieldForms fields x world) entries >>= fun pairs =>
      restOutputs (fields.map (·.1)) (rest.rule.safe (Rule.lazySafe (world.budget x))) entries >>=
        fun others =>
          pure (.dict (Entries.merge (Entries.merge [] (presentPairs pairs)) others))).ending
          world := by
  rw [ending_safe, ← keys_fieldForms fields x world]
  exact congrArg (Checked.ending · world) (objectWithRest_eq mapping _)

theorem ending_passthrough_object : ((passthrough (object fields)).safe x).ending world =
    (fieldOutputs (fieldForms fields x world) entries >>= fun pairs =>
      pure (.dict (Entries.merge entries (Entries.merge [] (presentPairs pairs))))).ending
        world := by
  rw [ending_safe]
  exact congrArg (Checked.ending · world) (passthrough_object_eq mapping)

end Endings

/-- With a rest that accepts everything, undeclared entries are kept as they are. -/
theorem ending_objectWithRest_any (mapping : x.entries? = some entries)
    (fields : List (Value × Validator))
    (world : World) : ((objectWithRest fields (leaf .any)).safe x).ending world =
      (fieldOutputs (fieldForms fields x world) entries >>= fun pairs =>
        pure (.dict (Entries.merge (Entries.merge [] (presentPairs pairs))
          (undeclared (fields.map (·.1)) entries)))).ending world := by
  have everything : (leaf .any).rule.safe (Rule.lazySafe (world.budget x)) =
    SafeForm.leaf .any := rfl
  rw [ending_objectWithRest fields world mapping, everything, restOutputs_any]
  simp only [pure_bind]

section Returning

variable (declared : Entries.Distinct fields) {y : Value}
include declared

/-- An object accepts a dictionary for which all its fields give something, and outputs what of this
is not absent. -/
theorem returns_object : ((object fields).safe x).Returns world y after ↔
    ∃ pairs, FieldsGive fields x world pairs after ∧ .dict (presentPairs pairs) = y := by
  constructor
  · intro returned
    obtain ⟨entries, between, looked, -⟩ := returns_bind.mp (returns_safe.mp returned)
    obtain ⟨mapping, -⟩ := returns_entriesOf.mp looked
    rw [Returns, ending_object fields world mapping] at returned
    obtain ⟨pairs, last, given, made⟩ := returns_bind.mp returned
    obtain ⟨rfl, rfl⟩ := returns_pure.mp made
    have gives := (fieldsGive_iff mapping).mpr given
    exact ⟨pairs, gives, by rw [gives.merge_nil declared]⟩
  · rintro ⟨pairs, gives, rfl⟩
    have own := gives.merge_nil declared
    obtain ⟨entries, mapping, given⟩ := gives
    rw [Returns, ending_object fields world mapping, ← own]
    exact returns_bind.mpr ⟨pairs, after, given, returns_pure.mpr ⟨rfl, rfl⟩⟩

variable (mapping : x.entries? = some entries)
include mapping

omit declared in
/-- A loose object stores what its fields give over the entries that it was given. -/
theorem returns_looseObject : ((looseObject fields).safe x).Returns world y after ↔
    ∃ pairs, FieldsGive fields x world pairs after ∧
      .dict (pairs.foldl (fun out pair => storeOrErase out pair.1 pair.2) entries) = y := by
  rw [Returns, ending_looseObject fields world mapping, ← Returns, returns_bind]
  simp only [returns_pure, fieldsGive_iff mapping]
  constructor
  · rintro ⟨pairs, between, given, made, rfl⟩
    exact ⟨pairs, given, made⟩
  · rintro ⟨pairs, given, made⟩
    exact ⟨pairs, after, given, made, rfl⟩

/-- An object that passes everything on overlays its input with what its fields give. -/
theorem returns_passthrough_object : ((passthrough (object fields)).safe x).Returns world y after ↔
    ∃ pairs, FieldsGive fields x world pairs after ∧
      .dict (Entries.merge entries (presentPairs pairs)) = y := by
  rw [Returns, ending_passthrough_object fields world mapping, ← Returns, returns_bind]
  constructor
  · rintro ⟨pairs, between, given, made⟩
    obtain ⟨rfl, rfl⟩ := returns_pure.mp made
    have gives := (fieldsGive_iff mapping).mpr given
    exact ⟨pairs, gives, by rw [gives.merge_nil declared]⟩
  · rintro ⟨pairs, gives, rfl⟩
    refine ⟨pairs, after, (fieldsGive_iff mapping).mp gives, ?_⟩
    rw [gives.merge_nil declared]
    exact returns_pure.mpr ⟨rfl, rfl⟩

/-- An object with a rest overlays what its fields give with what its further entries give. -/
theorem returns_objectWithRest {rest : Validator} :
    ((objectWithRest fields rest).safe x).Returns world y after ↔
      ∃ pairs between others, FieldsGive fields x world pairs between ∧
        OthersGive fields rest x world between others after ∧
          .dict (Entries.merge (presentPairs pairs) others) = y := by
  rw [Returns, ending_objectWithRest fields world mapping, ← Returns, returns_bind]
  constructor
  · rintro ⟨pairs, between, given, later⟩
    obtain ⟨others, last, further, made⟩ := returns_bind.mp later
    obtain ⟨rfl, rfl⟩ := returns_pure.mp made
    have gives := (fieldsGive_iff mapping).mpr given
    exact ⟨pairs, between, others, gives, ⟨entries, mapping, further⟩, by
      rw [gives.merge_nil declared]⟩
  · rintro ⟨pairs, between, others, gives, ⟨looked, same, further⟩, rfl⟩
    cases mapping.symm.trans same
    refine ⟨pairs, between, (fieldsGive_iff mapping).mp gives,
      returns_bind.mpr ⟨others, after, further, ?_⟩⟩
    rw [gives.merge_nil declared]
    exact returns_pure.mpr ⟨rfl, rfl⟩

end Returning

/-- Every mode refuses what is no dictionary. -/
theorem reports_notObject (absent : x.entries? = none)
    (build : List (Value × Value) → Checked Value)
    (world : World) : (entriesOf notObject x >>= build).Reports world notObject world :=
  reports_bind.mpr (.inl (reports_entriesOf.mpr ⟨absent, rfl, rfl⟩))

/-- All modes of an object break off alike and refuse alike, or else the fields give their
outputs. -/
theorem modes_end_alike (fields : List (Value × Validator)) (x : Value) (world : World) :
    (∃ fault after, ((object fields).safe x).Faults world fault after ∧
      ((looseObject fields).safe x).Faults world fault after ∧
      ((objectWithRest fields (leaf .any)).safe x).Faults world fault after ∧
      ((passthrough (object fields)).safe x).Faults world fault after) ∨
    (∃ failure after, ((object fields).safe x).Reports world failure after ∧
      ((looseObject fields).safe x).Reports world failure after ∧
      ((objectWithRest fields (leaf .any)).safe x).Reports world failure after ∧
      ((passthrough (object fields)).safe x).Reports world failure after) ∨
    ∃ entries pairs after, x.entries? = some entries ∧ FieldsGive fields x world pairs after := by
  cases mapping : x.entries? with
  | none =>
    refine .inr (.inl ⟨notObject, world, ?_, ?_, ?_, ?_⟩)
    all_goals exact reports_safe.mpr (reports_notObject mapping _ world)
  | some entries =>
    unfold Faults Reports
    rw [ending_object fields world mapping, ending_looseObject fields world mapping,
      ending_objectWithRest_any mapping, ending_passthrough_object fields world mapping]
    rcases ends_thereafter (fieldOutputs (fieldForms fields x world) entries) world with
      ⟨fault, after, faulted⟩ | ⟨failure, after, reported⟩ | ⟨pairs, after, given⟩
    · exact .inl ⟨fault, after, faulted _, faulted _, faulted _, faulted _⟩
    · exact .inr (.inl ⟨failure, after, reported _, reported _, reported _, reported _⟩)
    · exact .inr (.inr ⟨entries, pairs, after, rfl, (fieldsGive_iff mapping).mpr given⟩)

/-- Stored in a copy of the input, the outputs make the dictionary that they make in front of what
the input has under other keys. -/
theorem equiv_stored_followed (outputs : Entries.Distinct pairs)
    (distinct : Entries.Distinct entries) :
    (Value.dict (pairs.foldl (fun out pair => storeOrErase out pair.1 pair.2) entries)).eq
      (.dict (Entries.merge (presentPairs pairs) (undeclared (pairs.map (·.1)) entries))) := by
  apply Value.equiv_dict_of_get?
  · rw [foldl_storeOrErase outputs]
    exact distinct_undeclared (distinct.merge _) _
  · exact (distinct_presentPairs outputs).merge _
  · intro key
    rw [get?_stored outputs, get?_followed distinct]
    exact Entries.rel_refl Value.equiv_refl _

/-- The strict, the loose and the unrestricted mode of an object break off alike, refuse alike or
accept alike. Where they accept, the outputs of the two latter are equal as dictionaries, the output
of the first is what these have under declared keys, in the order of declaration, and an absent
output is in none of them. -/
theorem object_modes_agree (declared : Entries.Distinct fields) (x : Value)
    (distinct : ∀ entries, x.entries? = some entries → Entries.Distinct entries) (world : World) :
    (∃ fault after, ((object fields).safe x).Faults world fault after ∧
      ((looseObject fields).safe x).Faults world fault after ∧
      ((objectWithRest fields (leaf .any)).safe x).Faults world fault after) ∨
    (∃ failure after, ((object fields).safe x).Reports world failure after ∧
      ((looseObject fields).safe x).Reports world failure after ∧
      ((objectWithRest fields (leaf .any)).safe x).Reports world failure after) ∨
    ∃ pairs own kept rested after, FieldsGive fields x world pairs after ∧
      ((object fields).safe x).Returns world (.dict own) after ∧
      ((looseObject fields).safe x).Returns world (.dict kept) after ∧
      ((objectWithRest fields (leaf .any)).safe x).Returns world (.dict rested) after ∧
      (Value.dict kept).eq (.dict rested) ∧
      Entries.restrict (fields.map (·.1)) kept = own ∧
        Entries.restrict (fields.map (·.1)) rested = own ∧
      Presents own pairs ∧ Presents kept pairs ∧ Presents rested pairs := by
  rcases modes_end_alike fields x world with ⟨fault, after, strict, loose, further, -⟩ |
    ⟨failure, after, strict, loose, further, -⟩ | ⟨entries, pairs, after, mapping, gives⟩
  · exact .inl ⟨fault, after, strict, loose, further⟩
  · exact .inr (.inl ⟨failure, after, strict, loose, further⟩)
  · have outputs := gives.distinct declared
    have others := othersGive_any fields mapping world after
    have kept := presents_storeOrErase outputs entries
    have rested := presents_of_get? outputs (get?_followed (distinct entries mapping) pairs)
    have first := kept.restrict
    have second := rested.restrict
    have equal := equiv_stored_followed outputs (distinct entries mapping)
    rw [gives.keys] at rested first second equal
    exact .inr
      (.inr ⟨pairs, _, _, _, after, gives, (returns_object declared).mpr ⟨pairs, gives, rfl⟩,
      (returns_looseObject mapping).mpr ⟨pairs, gives, rfl⟩,
      (returns_objectWithRest declared mapping).mpr ⟨pairs, after, _, gives, others, rfl⟩, equal,
        first, second,
      presents_presentPairs outputs, kept, rested⟩)

/-- A callback that gives what is absent, whatever it is called with. -/
private def vanishing : Callable := ⟨"vanishing", fun _ => pure .missing⟩

/-- An absent output between two that are not. -/
private def shelf : List (Value × Validator) :=
  [(.str "b", leaf .integer), (.str "a", convert vanishing),
    (.str "c", withDefault (leaf .any) .null)]

/-- Two of the declared keys, in the other order, and one that is not declared. -/
private def stocked : List (Value × Value) :=
  [(.str "a", .int 1), (.str "x", .null), (.str "b", .int 2)]

/-- The loose output keeps the key that is not declared in front, the unrestricted one puts it
behind; the absent output is in neither, and the strict output has the two others in the order of
declaration. -/
theorem shelf_modes_agree :
    Entries.Distinct shelf ∧
    (∀ entries, (Value.dict stocked).entries? = some entries → Entries.Distinct entries) ∧
    ∃ kept rested,
      ((object shelf).safe (.dict stocked)).Returns (World.initial "")
        (.dict [(.str "b", .int 2), (.str "c", .null)]) (World.initial "") ∧
      ((looseObject shelf).safe (.dict stocked)).Returns (World.initial "") (.dict kept)
        (World.initial "") ∧
      ((objectWithRest shelf (leaf .any)).safe (.dict stocked)).Returns (World.initial "")
        (.dict rested)
        (World.initial "") ∧
      kept = [(.str "x", .null), (.str "b", .int 2), (.str "c", .null)] ∧
      rested = [(.str "b", .int 2), (.str "c", .null), (.str "x", .null)] ∧
      (Value.dict kept).eq (.dict rested) ∧
      Entries.restrict [.str "b", .str "a", .str "c"] kept =
        [(.str "b", .int 2), (.str "c", .null)] ∧
      Entries.restrict [.str "b", .str "a", .str "c"] rested =
        [(.str "b", .int 2), (.str "c", .null)] := by
  have declared : Entries.Distinct shelf := by decide
  have distinct : ∀ entries, (Value.dict stocked).entries? = some entries →
      Entries.Distinct entries := by
    rintro entries ⟨⟩
    decide
  have strict : ((object shelf).safe (.dict stocked)).Returns (World.initial "")
      (.dict [(.str "b", .int 2), (.str "c", .null)]) (World.initial "") := rfl
  have loose : ((looseObject shelf).safe (.dict stocked)).Returns (World.initial "")
      (.dict [(.str "x", .null), (.str "b", .int 2), (.str "c", .null)]) (World.initial "") := rfl
  have unrestricted : ((objectWithRest shelf (leaf .any)).safe (.dict stocked)).Returns
    (World.initial "")
      (.dict [(.str "b", .int 2), (.str "c", .null), (.str "x", .null)]) (World.initial "") := rfl
  rcases object_modes_agree declared (.dict stocked) distinct (World.initial "") with
    ⟨fault, after, faulted, -⟩ | ⟨failure, after, reported, -⟩ |
      ⟨pairs, own, kept, rested, after, -, alone, stored, followed, equal, first, second, -⟩
  · cases strict.symm.trans faulted
  · cases strict.symm.trans reported
  · cases strict.symm.trans alone
    cases loose.symm.trans stored
    cases unrestricted.symm.trans followed
    exact ⟨declared, distinct, _, _, strict, loose, unrestricted, rfl, rfl, equal, first, second⟩

/-- An object passed through breaks off and refuses as a loose one does, and gives the loose output
but for the keys of absent outputs. -/
theorem passthrough_ends_as_looseObject (declared : Entries.Distinct fields) (x : Value)
    (world : World) :
    (∃ fault after, ((passthrough (object fields)).safe x).Faults world fault after ∧
      ((looseObject fields).safe x).Faults world fault after) ∨
    (∃ failure after, ((passthrough (object fields)).safe x).Reports world failure after ∧
      ((looseObject fields).safe x).Reports world failure after) ∨
    ∃ pairs passed after, FieldsGive fields x world pairs after ∧
      ((passthrough (object fields)).safe x).Returns world (.dict passed) after ∧
      ((looseObject fields).safe x).Returns world
        (.dict (undeclared (absentKeys pairs) passed)) after := by
  rcases modes_end_alike fields x world with ⟨fault, after, -, loose, -, passed⟩ |
    ⟨failure, after, -, loose, -, passed⟩ | ⟨entries, pairs, after, mapping, gives⟩
  · exact .inl ⟨fault, after, passed, loose⟩
  · exact .inr (.inl ⟨failure, after, passed, loose⟩)
  · refine .inr (.inr ⟨pairs, Entries.merge entries (presentPairs pairs), after, gives, ?_, ?_⟩)
    · exact (returns_passthrough_object declared mapping).mpr ⟨pairs, gives, rfl⟩
    · rw [← foldl_storeOrErase (gives.distinct declared)]
      exact (returns_looseObject mapping).mpr ⟨pairs, gives, rfl⟩

/-- For a dictionary for which the fields give their outputs, an object passed through ends as a
loose one just if no absent output has a key of it. -/
theorem ending_passthrough_eq_iff (declared : Entries.Distinct fields)
    (mapping : x.entries? = some entries) (gives : FieldsGive fields x world pairs after) :
    ((passthrough (object fields)).safe x).ending world =
      ((looseObject fields).safe x).ending world ↔
      ∀ pair ∈ pairs, pair.2.isMissing → Entries.get? entries pair.1 = none := by
  -- Both results are made of the same outputs, and differ where the two ways of storing these do.
  have passed := (returns_passthrough_object declared mapping).mpr ⟨pairs, gives, rfl⟩
  have loose := (returns_looseObject mapping).mpr ⟨pairs, gives, rfl⟩
  unfold Returns at passed loose
  rw [passed, loose, ← overlaid_eq_stored_iff (gives.distinct declared) entries]
  simp only [Prod.mk.injEq, Except.ok.injEq, Value.dict.injEq, and_true]

/-- An object passed through is described as a loose one, breaks off and refuses as that does, and
gives the loose output but for one thing: it does not take the keys of absent outputs away. Hence
the two are the same just if no absent output has a key of the input. -/
theorem passthrough_as_looseObject (declared : Entries.Distinct fields) (x : Value)
    (world : World) :
    (passthrough (object fields)).metadata = (looseObject fields).metadata ∧
    ((∃ fault after, ((passthrough (object fields)).safe x).Faults world fault after ∧
        ((looseObject fields).safe x).Faults world fault after) ∨
      (∃ failure after, ((passthrough (object fields)).safe x).Reports world failure after ∧
        ((looseObject fields).safe x).Reports world failure after) ∨
      ∃ pairs passed after, FieldsGive fields x world pairs after ∧
        ((passthrough (object fields)).safe x).Returns world (.dict passed) after ∧
        ((looseObject fields).safe x).Returns world
          (.dict (undeclared (absentKeys pairs) passed)) after) ∧
    (((passthrough (object fields)).safe x).ending world =
      ((looseObject fields).safe x).ending world ↔
      ∀ entries pairs after, x.entries? = some entries → FieldsGive fields x world pairs after →
        ∀ pair ∈ pairs, pair.2.isMissing → Entries.get? entries pair.1 = none) := by
  have ends := passthrough_ends_as_looseObject declared x world
  refine ⟨rfl, ends, ?_⟩
  constructor
  · intro same entries pairs after mapping gives
    exact (ending_passthrough_eq_iff declared mapping gives).mp same
  · intro unnamed
    rcases ends with ⟨fault, after, passed, loose⟩ | ⟨failure, after, passed, loose⟩ |
      ⟨pairs, -, after, gives, -⟩
    · exact passed.trans loose.symm
    · exact passed.trans loose.symm
    · have ⟨entries, mapping, _⟩ := gives
      exact (ending_passthrough_eq_iff declared mapping gives).mpr
        (unnamed entries pairs after mapping gives)

/-- Without the key of the absent output, the input is passed through as a loose object; with it,
the key is kept although its output is absent. -/
theorem shelf_passed_through :
    Entries.Distinct shelf ∧
    ((passthrough (object shelf)).safe (.dict [(.str "x", .null), (.str "b", .int 2)])).ending
      (World.initial "") =
        ((looseObject shelf).safe (.dict [(.str "x", .null), (.str "b", .int 2)])).ending
          (World.initial "") ∧
    ((passthrough (object shelf)).safe (.dict [(.str "x", .null), (.str "b", .int 2)])).Returns
      (World.initial "") (.dict [(.str "x", .null), (.str "b", .int 2), (.str "c", .null)])
        (World.initial "") := by
  have declared : Entries.Distinct shelf := by decide
  have gives : FieldsGive shelf (.dict [(.str "x", .null), (.str "b", .int 2)]) (World.initial "")
      [(.str "b", .int 2), (.str "a", .missing), (.str "c", .null)] (World.initial "") :=
        ⟨_, rfl, rfl⟩
  obtain ⟨-, -, same⟩ := passthrough_as_looseObject declared
    (.dict [(.str "x", .null), (.str "b", .int 2)]) (World.initial "")
  refine ⟨declared, same.mpr ?_, rfl⟩
  rintro entries pairs after ⟨⟩ also
  rw [← gives.unique also]
  decide

/-- An output that is absent takes its key away from a loose object, and not from one that is passed
through. -/
theorem not_all_passthrough_as_looseObject :
    ((looseObject [(.str "a", convert vanishing)]).safe (.dict [(.str "a", .int 1)])).Returns
      (World.initial "") (.dict []) (World.initial "") ∧
    ((passthrough (object [(.str "a", convert vanishing)])).safe
      (.dict [(.str "a", .int 1)])).Returns
      (World.initial "") (.dict [(.str "a", .int 1)]) (World.initial "") := ⟨rfl, rfl⟩

/-- What an object outputs for an input without absent values has none, and its absent outputs are
left out; the same holds of a loose object. Of an object that is passed through an absent output is
left out just if the input does not have its key; else the input's value stays. Of an object with
rest the absent outputs of fields are left out and those of the rest are not, so that the output has
an absent value just if the rest gives one. -/
theorem absent_outputs_left_out (declared : Entries.Distinct fields) (rest : Validator)
    (mapping : x.entries? = some entries) (distinct : Entries.Distinct entries)
    (whole : Whole entries)
    (world after : World) (y : Value) :
    (((object fields).safe x).Returns world y after → ∃ pairs out, y = .dict out ∧
      FieldsGive fields x world pairs after ∧ Whole out ∧ Presents out pairs) ∧
    (((looseObject fields).safe x).Returns world y after → ∃ pairs out, y = .dict out ∧
      FieldsGive fields x world pairs after ∧ Whole out ∧ Presents out pairs) ∧
    (((passthrough (object fields)).safe x).Returns world y after → ∃ pairs out, y = .dict out ∧
      FieldsGive fields x world pairs after ∧ Whole out ∧
        (Presents out pairs ↔
          ∀ pair ∈ pairs, pair.2.isMissing → Entries.get? entries pair.1 = none)) ∧
    (((objectWithRest fields rest).safe x).Returns world y after → ∃ pairs between others out,
      y = .dict out ∧ FieldsGive fields x world pairs between ∧
        OthersGive fields rest x world between others after ∧ Presents out pairs ∧
          (Whole out ↔ Whole others)) := by
  refine ⟨fun returned => ?_, fun returned => ?_, fun returned => ?_, fun returned => ?_⟩
  · obtain ⟨pairs, gives, rfl⟩ := (returns_object declared).mp returned
    have outputs := gives.distinct declared
    exact ⟨pairs, _, rfl, gives, whole_presentPairs pairs, presents_presentPairs outputs⟩
  · obtain ⟨pairs, gives, rfl⟩ := (returns_looseObject mapping).mp returned
    have outputs := gives.distinct declared
    refine ⟨pairs, _, rfl, gives, ?_, presents_storeOrErase outputs entries⟩
    rw [foldl_storeOrErase outputs]
    exact (whole.merge (whole_presentPairs pairs)).undeclared _
  · obtain ⟨pairs, gives, rfl⟩ := (returns_passthrough_object declared mapping).mp returned
    have outputs := gives.distinct declared
    have stays := presents_overlaid_iff outputs entries
    exact ⟨pairs, _, rfl, gives, whole.merge (whole_presentPairs pairs), stays⟩
  · obtain ⟨pairs, between, others, gives, further, rfl⟩ :=
      (returns_objectWithRest declared mapping).mp returned
    have outputs := gives.distinct declared
    have keys := further.keys mapping
    have apart : Entries.Distinct others :=
      Entries.distinct_of_keys_eq keys (distinct_undeclared distinct _)
    rw [← gives.keys] at keys
    exact ⟨pairs, between, others, _, rfl, gives, further, presents_followed outputs apart keys,
      Whole.of_merge apart, (whole_presentPairs pairs).merge⟩

/-- Of what is stocked the absent output is left out, but passed through the input's value stays;
and where the rest gives nothing but what is absent, this is in the output. -/
theorem shelf_absent_left_out :
    Entries.Distinct shelf ∧ (Value.dict stocked).entries? = some stocked ∧
      Entries.Distinct stocked ∧
    Whole stocked ∧
    (∃ pairs, FieldsGive shelf (.dict stocked) (World.initial "") pairs (World.initial "") ∧
      Whole [(.str "b", .int 2), (.str "c", .null)] ∧
      Presents [(.str "b", .int 2), (.str "c", .null)] pairs) ∧
    (∃ pairs, FieldsGive shelf (.dict stocked) (World.initial "") pairs (World.initial "") ∧
      ¬Presents [(.str "a", .int 1), (.str "x", .null), (.str "b", .int 2),
        (.str "c", .null)] pairs) ∧
    ∃ between others, FieldsGive shelf (.dict stocked) (World.initial "")
        [(.str "b", .int 2), (.str "a", .missing), (.str "c", .null)] between ∧
      OthersGive shelf (convert vanishing) (.dict stocked) (World.initial "") between others
        (World.initial "") ∧ ¬Whole others := by
  have declared : Entries.Distinct shelf := by decide
  have distinct : Entries.Distinct stocked := by decide
  have whole : Whole stocked := by decide
  have gives : FieldsGive shelf (.dict stocked) (World.initial "")
      [(.str "b", .int 2), (.str "a", .missing), (.str "c", .null)] (World.initial "") :=
        ⟨_, rfl, rfl⟩
  have mapping : (Value.dict stocked).entries? = some stocked := rfl
  have outputs := fun y =>
    absent_outputs_left_out declared (convert vanishing) mapping distinct whole
    (World.initial "") (World.initial "") y
  obtain ⟨pairs, out, same, given, left, presents⟩ :=
    (outputs (.dict [(.str "b", .int 2), (.str "c", .null)])).1 rfl
  cases same
  obtain ⟨others, through, equal, also, -, stays⟩ :=
    (outputs (.dict [(.str "a", .int 1), (.str "x", .null),
    (.str "b", .int 2), (.str "c", .null)])).2.2.1 rfl
  cases equal
  obtain ⟨_, between, rests, all, filled, first, further, -, absent⟩ :=
    (outputs (.dict [(.str "b", .int 2), (.str "c", .null), (.str "x", .missing)])).2.2.2 rfl
  cases filled
  refine ⟨declared, mapping, distinct, whole, ⟨pairs, given, left, presents⟩,
    ⟨others, also, ?_⟩, between, rests, ?_, further, ?_⟩
  · rw [stays, ← gives.unique also]
    decide
  · rwa [gives.unique first]
  · rw [← absent]
    decide

/-- An output of the rest that is absent is kept. -/
theorem not_all_absent_outputs_left_out :
    Whole [(.str "a", .int 1)] ∧
    ((objectWithRest [] (convert vanishing)).safe (.dict [(.str "a", .int 1)])).Returns
      (World.initial "")
      (.dict [(.str "a", .missing)]) (World.initial "") := ⟨by decide, rfl⟩

end Validator

end Conform
