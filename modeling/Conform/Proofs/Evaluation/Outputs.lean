import Conform.Proofs.Evaluation.Endings
import Conform.Proofs.Value.Entries
import Conform.Proofs.Value.Sets

/-!
What holds of outputs, whatever the world. A form relates its inputs to its outputs; how a
construction does so follows from how its parts do.
-/
namespace Conform

namespace Checked

variable {α β : Type} {property : α → Prop} {further : β → Prop} {computation : Checked α}

/-- Every value that the computation returns has the property. -/
def Ensures (property : α → Prop) (computation : Checked α) : Prop :=
  ∀ world value after, computation.Returns world value after → property value

theorem Ensures.mono {weaker : α → Prop} (ensures : computation.Ensures property)
    (weakens : ∀ value, property value → weaker value) : computation.Ensures weaker :=
  fun world value after returned => weakens value (ensures world value after returned)

theorem ensures_pure {value : α} (holds : property value) : Ensures property (pure value) := by
  intro world given after returned
  obtain ⟨rfl, -⟩ := returns_pure.mp returned
  exact holds

theorem ensures_reject {failure : Failure} : Ensures property (reject failure) :=
  fun _ _ _ returned => absurd returned returns_reject

theorem Ensures.bind {next : α → Checked β} (first : computation.Ensures property)
    (rest : ∀ value, property value → (next value).Ensures further) :
    (computation >>= next).Ensures further := by
  intro world value after returned
  obtain ⟨given, between, before, later⟩ := returns_bind.mp returned
  exact rest given (first world given between before) between value after later

/-- What follows a computation of which nothing is known. -/
theorem ensures_after {next : α → Checked β} (rest : ∀ value, (next value).Ensures further) :
    (computation >>= next).Ensures further := by
  intro world value after returned
  obtain ⟨given, between, -, later⟩ := returns_bind.mp returned
  exact rest given between value after later

theorem Ensures.attempt_bind {next : Except Failure α → Checked β}
    (first : computation.Ensures property)
    (success : ∀ value, property value → (next (.ok value)).Ensures further)
    (refusal : ∀ failure, (next (.error failure)).Ensures further) :
    (attempt computation >>= next).Ensures further := by
  intro world value after returned
  rcases returns_attempt_bind.mp returned with ⟨given, between, before, later⟩ | ⟨failure,
    between, -, later⟩
  · exact success given (first world given between before) between value after later
  · exact refusal failure between value after later

theorem Ensures.reword {wording : Failure → Option Failure}
    (ensures : computation.Ensures property) :
    (reword wording computation).Ensures property :=
  fun world value after returned => ensures world value after (returns_reword.mp returned)

end Checked

namespace SafeForm

open Checked

/-- Every output of the form is related to its input. -/
def Relates (related : Value → Value → Prop) (form : SafeForm) : Prop := ∀ x,
    (form x).Ensures (related x)

variable {related through : Value → Value → Prop} {form : SafeForm}

theorem ensures_provided {property : Value → Prop} {condition : Bool}
    {failure : Failure} {y : Value}
    (holds : condition → property y) : (provided condition failure y).Ensures property := by
  cases condition with
  | true => exact ensures_pure (holds rfl)
  | false => exact ensures_reject

theorem ensures_entriesOf {failure : Failure} {x : Value} :
    (entriesOf failure x).Ensures fun entries => x.entries? = some entries :=
  fun _ _ _ returned => (returns_entriesOf.mp returned).1

theorem ensures_itemsOf {x : Value} : (itemsOf x).Ensures fun items => x.items? = some items :=
  fun _ _ _ returned => (returns_itemsOf.mp returned).1

section Single

variable (same : ∀ x, related x x)
include same

theorem relates_leaf (l : Leaf) : Relates related (leaf l) := fun x =>
    ensures_provided fun _ => same x

theorem relates_oneOf (values : List Value) : Relates related (oneOf values) :=
  fun x => ensures_provided fun _ => same x

theorem relates_check (test : Check) (message : String) : Relates related (check test message) :=
  fun x => ensures_after fun _ => ensures_provided fun _ => same x

end Single

theorem relates_literal {value : Value} (literal : ∀ x, x.sameAs value → related x value) :
    Relates related (SafeForm.literal value) :=
  fun x => ensures_provided (literal x)

theorem relates_accepting {absence : Absence} (absent : ∀ x, absence.covers x → related x x)
    (relates : form.Relates related) : (accepting absence form).Relates related := by
  intro x
  unfold accepting
  split
  · next covered => exact ensures_pure (absent x covered)
  · exact relates x

/-- Later steps lead from what the first one relates to what is related. -/
theorem relates_pipe {steps : List SafeForm} (first : form.Relates related)
    (rest : ∀ step ∈ steps, step.Relates through)
    (composes : ∀ x y z, related x y → through y z → related x z) :
    (pipe (form :: steps)).Relates related := by
  intro x
  refine (first x).bind fun y reached => ?_
  clear first
  induction steps generalizing y with
  | nil => exact ensures_pure reached
  | cons step steps ih =>
    obtain ⟨here, later⟩ := List.forall_mem_cons.mp rest
    exact (here y).bind fun z onward => ih later z (composes x y z reached onward)

/-- Every output of a choice is related to its input if the outputs of all options are. -/
theorem relates_union {options : List SafeForm}
    (relates : ∀ option ∈ options, option.Relates related) :
    (union options).Relates related := by
  intro x
  unfold union
  induction options with
  | nil => exact ensures_reject
  | cons option rest ih =>
    obtain ⟨here, later⟩ := List.forall_mem_cons.mp relates
    exact (here x).attempt_bind (fun y holds => ensures_pure holds) fun _ => ih later

theorem relates_refine (relates : form.Relates related) (test : Callable) (message : String) :
    (refine form test message).Relates related :=
  fun x => (relates x).bind fun _ holds => ensures_after fun _ => ensures_provided fun _ => holds

section Containers

/-- Each output comes from an item that it is related to. -/
def Stems (related : Value → Value → Prop) (items outputs : List Value) : Prop :=
  ∀ y ∈ outputs, ∃ x ∈ items, related x y

private theorem Stems.cons {x y : Value} {xs ys : List Value} (first : related x y)
    (rest : Stems related xs ys) : Stems related (x :: xs) (y :: ys) := by
  refine List.forall_mem_cons.mpr ⟨⟨x, List.mem_cons_self, first⟩, fun z inside => ?_⟩
  obtain ⟨item, member, holds⟩ := rest z inside
  exact ⟨item, List.mem_cons_of_mem _ member, holds⟩

theorem ensures_eachItem (relates : form.Relates related) (i : Nat) (xs : List Value) :
    (eachItem form i xs).Ensures (Stems related xs) := by
  induction xs generalizing i with
  | nil => exact ensures_pure nofun
  | cons x rest ih =>
    refine (relates x).reword.bind fun y holds => ?_
    exact (ih (i + 1)).bind fun ys others => ensures_pure (.cons holds others)

theorem ensures_eachElement (relates : form.Relates related) (i : Nat) (xs : List Value) :
    (eachElement form i xs).Ensures (Stems related xs) := by
  induction xs generalizing i with
  | nil => exact ensures_pure nofun
  | cons x rest ih =>
    refine (relates x).reword.bind fun y holds => ensures_after fun _ => ?_
    exact (ih (i + 1)).bind fun ys others => ensures_pure (.cons holds others)

theorem relates_array (relates : form.Relates related)
    (list : ∀ x items outputs, x.items? = some items → Stems related items outputs →
      through x (.list outputs)) : (array form).Relates through :=
  fun x => ensures_itemsOf.bind fun items held =>
    (ensures_eachItem relates 0 items).bind fun outputs stems =>
      ensures_pure (list x items outputs held stems)

/-- Sets are related through their items, each of which stems from an item of the input. -/
theorem relates_set (relates : form.Relates related)
    (set : ∀ x items outputs, x.elements? = some items → Stems related items outputs →
      through x (.set outputs)) : (SafeForm.set form).Relates through := by
  intro x
  unfold SafeForm.set
  split
  · next items held =>
    refine (ensures_eachElement relates 0 items).bind fun outputs stems => ensures_pure ?_
    exact set x items _ held fun y inside => stems y (Value.mem_of_mem_distinct inside)
  · exact ensures_reject

variable {keys values : Value → Value → Prop} {keyForm valueForm : SafeForm}

/-- Each key and each value comes from that of an entry that it is related to. -/
def EntriesStem (keys values : Value → Value → Prop)
    (entries outputs : List (Value × Value)) : Prop :=
  ∀ output ∈ outputs, (∃ entry ∈ entries, keys entry.1 output.1) ∧ ∃ entry ∈ entries,
    values entry.2 output.2

/-- An entry that is stored over others stems from the entry it was made of. -/
private theorem EntriesStem.insert {entries out : List (Value × Value)}
    {entry : Value × Value} {k y : Value}
    (stem : EntriesStem keys values entries out) (member : entry ∈ entries) (key : keys entry.1 k)
    (value : values entry.2 y) : EntriesStem keys values entries (Entries.insert out k y) := by
  intro output inside
  rcases Entries.mem_insert inside with old | rfl | ⟨first, old, -, rfl⟩
  · exact stem output old
  · exact ⟨⟨entry, member, key⟩, ⟨entry, member, value⟩⟩
  · exact ⟨(stem first old).1, ⟨entry, member, value⟩⟩

/-- What is stored for entries stems from them: each key from a key and each value from its value.
-/
theorem ensures_eachEntry {onKey : Value → Failure → Option Failure} {onValue : Value → Place}
    (onKeys : keyForm.Relates keys) (onValues : valueForm.Relates values)
    (entries : List (Value × Value)) :
    (eachEntry onKey onValue keyForm valueForm entries []).Ensures
      (EntriesStem keys values entries) := by
  have onward : ∀ rest out, rest ⊆ entries → EntriesStem keys values entries out →
      (eachEntry onKey onValue keyForm valueForm rest out).Ensures
        (EntriesStem keys values entries) := by
    intro rest
    induction rest with
    | nil => exact fun out _ stem => ensures_pure stem
    | cons entry rest ih =>
      intro out within stem
      obtain ⟨member, later⟩ := List.cons_subset.mp within
      refine (onKeys entry.1).reword.bind fun k key => ?_
      refine (onValues entry.2).reword.bind fun y value => ensures_after fun _ => ?_
      exact ih _ later (stem.insert member key value)
  exact onward entries [] (List.Subset.refl entries) nofun

section Dictionaries

variable (onKeys : keyForm.Relates keys) (onValues : valueForm.Relates values)
  (dict : ∀ x entries outputs, x.entries? = some entries → EntriesStem keys values entries outputs →
    related x (.dict outputs))
include onKeys onValues dict

theorem relates_record : (record keyForm valueForm).Relates related :=
  fun x => ensures_entriesOf.bind fun entries held =>
    (ensures_eachEntry onKeys onValues entries).bind fun out stem =>
      ensures_pure (dict x entries out held stem)

theorem relates_map : (map keyForm valueForm).Relates related :=
  fun x => ensures_entriesOf.bind fun entries held =>
    (ensures_eachEntry onKeys onValues entries).bind fun out stem =>
      ensures_pure (dict x entries out held stem)

end Dictionaries

end Containers

end SafeForm

end Conform
