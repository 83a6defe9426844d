import Conform.Proofs.Validation.EntryOrder

/-!
Rules that do not depend on the order of entries: they have no callbacks, replace no failures by
values and have no lazy parts, the keys that they give to dictionaries can be keys, and what they
put into messages can be written.
-/
namespace Conform

namespace Rule

open SafeForm
open Value (Disclosure)

/-- Rules for keys, which give a key back or another spelling of it that can be a key as well. -/
def NamesKeys : Rule → Prop
  | .leaf _ | .instanceOf _ | .oneOf _ | .keyName _ => True
  | .check test _ => test.pieces = []
  | .literal value => value.unhashable? = none ∧ value.isWritable
  | _ => False

/-- Names of fields, which can be keys and be written. -/
def Names (fields : List (Value × Rule)) : Prop :=
  ∀ field ∈ fields, field.1.unhashable? = none ∧ field.1.isWritable

/-- What a rule has to look like itself, whatever its parts are, not to depend on the order of
entries. Dictionaries of any keys disclose the keys of their inputs, variants a value too. -/
def LocallyOrderly (told : Disclosure) : Rule → Prop
  | .leaf _ | .instanceOf _ | .oneOf _ | .keyName _ | .pipe _ | .accepting .. | .rejecting ..
  | .union _ | .discriminatedUnion _ | .intersect _ | .forward .. | .array _ | .tuple _
  | .looseTuple _ | .tupleWithRest .. | .passthrough _ | .lenient _ => True
  | .check test _ => test.pieces = []
  | .literal value | .withDefault _ value => value.Proper told
  | .retitle _ source => ∃ message, source = .given message ∧ message.isWritable
  | .variant key _ => (key.unhashable? = none ∧ key.isWritable) ∧ told = .everything
  | .object fields | .looseObject fields => Names fields
  | .objectWithRest fields _ => Names fields ∧ told ≠ .nothing
  | .required declared _ => (∀ key ∈ declared, key.isWritable) ∧ told ≠ .nothing
  | .record key _ | .map key _ => key.NamesKeys ∧ told ≠ .nothing
  | _ => False

/-- A rule that does not depend on the order of entries, and neither do its parts. -/
inductive Orderly (told : Disclosure) : Rule → Prop
  | intro {rule : Rule} (own : rule.LocallyOrderly told)
      (parts : ∀ part ∈ rule.parts, Orderly told part) : Orderly told rule

variable {told : Disclosure} {rule : Rule} (onLazy : Nat → SafeForm)

theorem Orderly.eager (orderly : rule.Orderly told) : rule.Eager := by
  induction orderly with
  | intro own _ ih =>
    refine .intro ?_ ih
    rintro id rfl
    exact own

/-- A rule that names its keys has a form that does. -/
theorem NamesKeys.namesKeys (names : rule.NamesKeys) : (rule.safe onLazy).NamesKeys := by
  cases rule with
  | leaf l => exact namesKeys_of_provided (Failure.legible_expecting _ _) fun _ => rfl
  | instanceOf cls => exact namesKeys_of_provided (Failure.legible_expecting _ _) fun _ => rfl
  | oneOf values => exact namesKeys_of_provided (Failure.legible_plain _) fun _ => rfl
  | keyName keys => exact namesKeys_of_provided (Failure.legible_plain _) fun _ => rfl
  | check test message => exact namesKeys_check names message
  | literal value => exact namesKeys_literal names.1 names.2
  | _ => exact names.elim

theorem orderless_all {parts : List Rule}
    (each : ∀ part ∈ parts, (part.safe onLazy).Orderless told) :
    ∀ form ∈ safeAll onLazy parts, form.Orderless told := by
  rw [safeAll_eq_map]
  exact List.forall_mem_map.mpr each

theorem orderless_fields {fields : List (Value × Rule)}
    (each : ∀ part ∈ fields.map (·.2), (part.safe onLazy).Orderless told) (names : Names fields) :
    OrderlessFields told (safeFields onLazy fields) := by
  rw [safeFields_eq_map]
  exact ⟨List.forall_mem_map.mpr fun field inside => each field.2 (List.mem_map_of_mem inside),
    List.forall_mem_map.mpr names⟩

/-- By induction on the rule: every construction keeps what its parts have. -/
theorem Orderly.orderless (orderly : rule.Orderly told) :
    (rule.safe onLazy).Orderless told := by
  induction orderly with
  | @intro rule own parts ih =>
    cases rule with
    | leaf l => exact orderless_leaf l
    | instanceOf cls => exact orderless_instanceOf cls
    | literal value => exact orderless_literal own
    | oneOf values => exact orderless_oneOf values
    | keyName keys => exact orderless_keyName keys
    | check test message => exact orderless_check own message
    | pipe steps => exact orderless_pipe (orderless_all onLazy ih)
    | union options => exact orderless_union (orderless_all onLazy ih)
    | discriminatedUnion options => exact orderless_discriminatedUnion (orderless_all onLazy ih)
    | variant key options =>
      obtain ⟨⟨hashable, writable⟩, tells⟩ := own
      exact orderless_variant hashable writable tells (orderless_all onLazy ih)
    | intersect members => exact orderless_intersect (orderless_all onLazy ih)
    | tuple positions => exact orderless_tuple (orderless_all onLazy ih)
    | looseTuple positions => exact orderless_looseTuple (orderless_all onLazy ih)
    | tupleWithRest positions rest =>
      obtain ⟨leading, further⟩ := List.forall_mem_append.mp ih
      exact orderless_tupleWithRest (orderless_all onLazy leading)
        (further rest (List.mem_singleton_self _))
    | object fields => exact orderless_object (orderless_fields onLazy ih own)
    | looseObject fields => exact orderless_looseObject (orderless_fields onLazy ih own)
    | objectWithRest fields rest =>
      obtain ⟨declared, further⟩ := List.forall_mem_append.mp ih
      exact orderless_objectWithRest (orderless_fields onLazy declared own.1) own.2
        (further rest (List.mem_singleton_self _))
    | record key value =>
      obtain ⟨-, values⟩ := List.forall_mem_cons.mp ih
      exact orderless_record own.2 (own.1.namesKeys onLazy)
        (values value (List.mem_singleton_self _))
    | map key value =>
      obtain ⟨-, values⟩ := List.forall_mem_cons.mp ih
      exact orderless_map own.2 (own.1.namesKeys onLazy)
        (values value (List.mem_singleton_self _))
    | retitle inner source =>
      obtain ⟨message, rfl, writable⟩ := own
      exact orderless_retitle writable (ih inner (List.mem_singleton_self _))
    | withDefault inner value =>
      exact orderless_withDefault (ih inner (List.mem_singleton_self _)) own
    | accepting absence inner =>
      exact orderless_accepting absence (ih inner (List.mem_singleton_self _))
    | rejecting absence inner =>
      exact orderless_rejecting absence (ih inner (List.mem_singleton_self _))
    | forward inner path => exact orderless_forward path (ih inner (List.mem_singleton_self _))
    | array item => exact orderless_array (ih item (List.mem_singleton_self _))
    | passthrough inner => exact orderless_passthrough (ih inner (List.mem_singleton_self _))
    | lenient inner => exact orderless_lenient (ih inner (List.mem_singleton_self _))
    | required declared inner =>
      exact orderless_required own.1 own.2 (ih inner (List.mem_singleton_self _))
    | _ => exact own.elim

end Rule

namespace Validator

open Checked

/-- Of two inputs that differ at most in the order of entries, one is accepted just if the other is,
and then the outputs differ no more than that. -/
theorem order_of_entries_immaterial (v : Validator) (told : Value.Disclosure) {x y : Value}
    (orderly : v.rule.Orderly told) (proper : x.Proper told) (permuted : x.Permuted y)
    (world world' : World) :
    ((∃ out after, (v.safe x).Returns world out after) ↔
        ∃ out after, (v.safe y).Returns world' out after) ∧
      ∀ out after out' after', (v.safe x).Returns world out after →
        (v.safe y).Returns world' out' after' → out.Permuted out' := by
  have tandem := orderly.orderless (Rule.lazySafe (world.budget x)) x y ⟨proper, permuted⟩
  simp only [returns_safe]
  rw [orderly.eager.safe_eq (Rule.lazySafe (world'.budget y)) (Rule.lazySafe (world.budget x))]
  obtain ⟨accepted, related⟩ := tandem.returns world world'
  refine ⟨accepted, fun out after out' after' returned returned' => ?_⟩
  exact (related out after out' after' returned returned').rearranged.permuted

private theorem reordered_of_perm {xs ys : List (Value × Value)} (permuted : xs.Perm ys) :
    Entries.Reordered Value.Permuted xs ys :=
  ⟨ys, permuted, List.forall₂_same.mpr fun entry _ => ⟨rfl, .same entry.2⟩⟩

/-- Books on shelves, each with a title and whatever else is known about it. -/
private def shelves : Validator :=
  .record (.leaf .string) (.looseObject [(.str "title", .leaf .string)])

private def emma : List (Value × Value) := [(.str "title", .str "Emma"), (.str "lent", .bool true)]

private def persuasion : List (Value × Value) := [(.str "title", .str "Persuasion")]

/-- Two shelves. -/
private def shelved : Value := .dict [(.str "left", .dict emma), (.str "right", .dict persuasion)]

/-- The two shelves the other way round, and what is known about one book too. -/
private def turned : Value :=
  .dict [(.str "right", .dict persuasion), (.str "left", .dict emma.reverse)]

private theorem shelves_orderly : shelves.rule.Orderly .keys := by
  have text : (Rule.leaf .string).Orderly .keys := .intro trivial nofun
  have book : (Rule.looseObject [(.str "title", .leaf .string)]).Orderly .keys :=
    .intro (List.forall_mem_singleton.mpr ⟨rfl, rfl⟩) (List.forall_mem_singleton.mpr text)
  exact .intro ⟨trivial, by decide⟩
    (List.forall_mem_cons.mpr ⟨text, List.forall_mem_singleton.mpr book⟩)

private theorem shelved_proper : shelved.Proper .keys := by
  have first : (Value.dict emma).Proper .keys := by
    refine Value.proper_dict ⟨by decide, by decide, fun _ => by decide, ?_⟩
    exact List.forall_mem_cons.mpr ⟨Value.proper_str _,
      List.forall_mem_singleton.mpr (Value.proper_plain (fun _ => rfl) rfl rfl)⟩
  have second : (Value.dict persuasion).Proper .keys := by
    refine Value.proper_dict ⟨by decide, by decide, fun _ => by decide, ?_⟩
    exact List.forall_mem_singleton.mpr (Value.proper_str _)
  refine Value.proper_dict ⟨by decide, by decide, fun _ => by decide, ?_⟩
  exact List.forall_mem_cons.mpr ⟨first, List.forall_mem_singleton.mpr second⟩

private theorem shelved_permuted : shelved.Permuted turned := by
  have book : (Value.dict emma).Permuted (.dict emma.reverse) :=
    Value.permuted_dict (reordered_of_perm emma.reverse_perm.symm)
  exact Value.permuted_dict ⟨_, .swap .., .cons ⟨rfl, .same _⟩ (.cons ⟨rfl, book⟩ .nil)⟩

/-- Shelves the other way round are as good as before. -/
theorem shelves_order_immaterial :
    (shelves.rule.Orderly .keys ∧ shelved.Proper .keys ∧ shelved.Permuted turned) ∧
      ∃ out out' after after', (shelves.safe shelved).Returns (World.initial "a") out after ∧
        (shelves.safe turned).Returns (World.initial "b") out' after' ∧ out.Permuted out' := by
  have immaterial := order_of_entries_immaterial shelves .keys shelves_orderly shelved_proper
    shelved_permuted (World.initial "a") (World.initial "b")
  obtain ⟨accepted, related⟩ := immaterial
  have first : (shelves.safe shelved).Returns (World.initial "a") shelved (World.initial "a") := rfl
  obtain ⟨out', after', second⟩ := accepted.mp ⟨_, _, first⟩
  exact ⟨⟨shelves_orderly, shelved_proper, shelved_permuted⟩, shelved, out', _, after',
    first, second, related _ _ _ _ first second⟩

/-- A dictionary with at most one key, which is given a spelling that cannot be a key. -/
private def pinned : Validator := .record (.literal (.tuple [.set []])) (.leaf .any)

/-- The entry whose key is spelled anew. -/
private def odd : Value × Value := (.tuple [.frozenset []], .null)

/-- An entry whose key is refused. -/
private def even : Value × Value := (.str "a", .null)

/-- Where an entry is met first whose key is given a spelling that cannot be a key, the evaluation
ends with a fault; where another entry is refused before, the next option is tried. -/
theorem not_all_orders_immaterial :
    ∃ v after, Validator.union [pinned, .leaf .any] = .ok v ∧
      (Value.dict [odd, even]).Proper .everything ∧
      (Value.dict [odd, even]).Permuted (.dict [even, odd]) ∧
      (v.safe (.dict [odd, even])).Faults (World.initial "a") (.misuse (.unhashable "set")) after ∧
      (v.safe (.dict [even, odd])).Returns (World.initial "a") (.dict [even, odd]) after := by
  refine ⟨_, _, rfl, ?_, Value.permuted_dict (reordered_of_perm (.swap ..)), rfl, rfl⟩
  have plain : Value.null.Proper .everything := Value.proper_plain (fun _ => rfl) rfl rfl
  refine Value.proper_dict ⟨by decide, by decide, fun _ => by decide, ?_⟩
  exact List.forall_mem_cons.mpr ⟨plain, List.forall_mem_singleton.mpr plain⟩

end Validator

end Conform
