import Conform.Value.Display
import Conform.Value.Order
import Conform.Proofs.Value.Equivalence
import Conform.Proofs.Value.Reordering

/-!
Values that differ in the order in which their dictionaries were filled. Such values are equal and
of one type, have the same length and order among others, and hold parts that differ no more than
they do.
-/
namespace Conform

open Entries (Reordered Distinct)

namespace Value

/-- The values differ at most in the order of the entries of dictionaries, at any depth. -/
inductive Permuted : Value → Value → Prop where
  | same (x : Value) : Permuted x x
  | list {xs ys : List Value} (length : xs.length = ys.length)
      (each : ∀ pair ∈ xs.zip ys, Permuted pair.1 pair.2) : Permuted (.list xs) (.list ys)
  | tuple {xs ys : List Value} (length : xs.length = ys.length)
      (each : ∀ pair ∈ xs.zip ys, Permuted pair.1 pair.2) : Permuted (.tuple xs) (.tuple ys)
  | dict {xs zs ys : List (Value × Value)} (permuted : xs.Perm zs) (length : zs.length = ys.length)
      (keys : ∀ pair ∈ zs.zip ys, pair.1.1 = pair.2.1)
      (values : ∀ pair ∈ zs.zip ys, Permuted pair.1.2 pair.2.2) : Permuted (.dict xs) (.dict ys)
  | mapping {xs zs ys : List (Value × Value)} (permuted : xs.Perm zs)
      (length : zs.length = ys.length)
      (keys : ∀ pair ∈ zs.zip ys, pair.1.1 = pair.2.1)
      (values : ∀ pair ∈ zs.zip ys, Permuted pair.1.2 pair.2.2) :
        Permuted (.mapping xs) (.mapping ys)

section Parts

variable {related : Value → Value → Prop} {x y : Value}

theorem forall₂_of_zip {xs ys : List Value} (length : xs.length = ys.length)
    (each : ∀ pair ∈ xs.zip ys, related pair.1 pair.2) : List.Forall₂ related xs ys :=
  List.forall₂_iff_zip.mpr ⟨length, fun {first second} inside => each (first, second) inside⟩

theorem reordered_of_zip {xs zs ys : List (Value × Value)} (permuted : xs.Perm zs)
    (length : zs.length = ys.length) (keys : ∀ pair ∈ zs.zip ys, pair.1.1 = pair.2.1)
    (values : ∀ pair ∈ zs.zip ys, related pair.1.2 pair.2.2) : Reordered related xs ys :=
  ⟨zs, permuted, List.forall₂_iff_zip.mpr
    ⟨length, fun {first second} inside =>
      ⟨keys (first, second) inside, values (first, second) inside⟩⟩⟩

theorem permuted_list {xs ys : List Value} (each : List.Forall₂ Permuted xs ys) :
    Permuted (.list xs) (.list ys) := by
  obtain ⟨length, holds⟩ := List.forall₂_iff_zip.mp each
  exact .list length fun pair inside => holds inside

theorem permuted_dict {xs ys : List (Value × Value)} (reordered : Reordered Permuted xs ys) :
    Permuted (.dict xs) (.dict ys) := by
  obtain ⟨zs, permuted, each⟩ := reordered
  obtain ⟨length, holds⟩ := List.forall₂_iff_zip.mp each
  exact .dict permuted length (fun pair inside => (holds inside).1) fun pair inside =>
    (holds inside).2

theorem Permuted.items (permuted : Permuted x y) :
    Option.Rel (List.Forall₂ Permuted) x.items? y.items? := by
  cases permuted with
  | same => exact Entries.rel_refl (fun items => List.forall₂_same.mpr fun item _ => .same item) _
  | list length each | tuple length each => exact .some (forall₂_of_zip length each)
  | dict | mapping => exact .none

theorem Permuted.entries (permuted : Permuted x y) :
    Option.Rel (Reordered Permuted) x.entries? y.entries? := by
  cases permuted with
  | same =>
    exact Entries.rel_refl (fun entries => Entries.reordered_refl fun entry _ => .same entry.2) _
  | list | tuple => exact .none
  | dict permuted length keys values | mapping permuted length keys values =>
    exact .some (reordered_of_zip permuted length keys values)

end Parts

section Answers

variable {x y : Value}

/-- Reordered dictionaries cover each other. -/
theorem cover_of_reordered {related : Value → Value → Prop} {xs ys : List (Value × Value)}
    (reordered : Reordered related xs ys) :
    Cover (fun x y => equiv x.1 y.1 ∧ related x.2 y.2) xs ys := by
  constructor
  · intro entry inside
    obtain ⟨other, member, key, holds⟩ := reordered.covers entry inside
    exact ⟨other, member, key ▸ equiv_refl _, holds⟩
  · intro other inside
    obtain ⟨entry, member, key, holds⟩ := reordered.covered other inside
    exact ⟨entry, member, key ▸ equiv_refl _, holds⟩

/-- Dictionaries are equal if equal values, or none, are found in them under each key. -/
theorem equiv_dict_of_get? {xs ys : List (Value × Value)} (distinct : Distinct xs)
    (also : Distinct ys)
    (found : ∀ key, Option.Rel (fun x y => Value.equiv x y) (Entries.get? xs key)
      (Entries.get? ys key)) :
    (Value.dict xs).equiv (.dict ys) := by
  refine (equiv_of_entries rfl).mpr ⟨ys, rfl, ?_, ?_⟩
  · intro entry inside
    obtain ⟨other, member, same, equal⟩ :=
      Entries.exists_related_of_get? distinct found entry inside
    exact ⟨other, member, BEq.symm same, equal⟩
  · intro other inside
    have flipped := fun key => Entries.rel_flip (found key)
    exact Entries.exists_related_of_get? also flipped other inside

/-- The order of entries makes no difference to equality. -/
theorem Permuted.equiv (permuted : Permuted x y) : x.equiv y := by
  induction permuted with
  | same x => exact equiv_refl x
  | list length _ ih | tuple length _ ih => exact (equivEach_iff _ _).mpr (forall₂_of_zip length ih)
  | dict permuted length keys _ ih | mapping permuted length keys _ ih =>
    have reordered : Reordered (fun x y => Value.equiv x y) _ _ :=
      reordered_of_zip permuted length keys ih
    exact (equiv_of_entries rfl).mpr ⟨_, rfl, cover_of_reordered reordered⟩

theorem Permuted.typeName_eq (permuted : Permuted x y) : x.typeName = y.typeName := by
  cases permuted <;> rfl

theorem Permuted.isMissing_eq (permuted : Permuted x y) : x.isMissing = y.isMissing := by
  cases permuted <;> rfl

theorem Permuted.isNull_eq (permuted : Permuted x y) : x.isNull = y.isNull := by
  cases permuted <;> rfl

theorem Permuted.isInstance_eq (permuted : Permuted x y) (cls : Class) :
    x.isInstance cls = y.isInstance cls := by
  cases permuted <;> cases cls <;> rfl

theorem Permuted.length?_eq (permuted : Permuted x y) : x.length? = y.length? := by
  cases permuted with
  | same => rfl
  | list length | tuple length => exact congrArg some length
  | dict permuted length | mapping permuted length =>
    exact congrArg some (permuted.length_eq.trans length)

/-- A permuted value is the same as whatever the value is the same as. -/
theorem Permuted.sameAs_eq (permuted : Permuted x y) (value : Value) :
    x.sameAs value = y.sameAs value := by
  have equal := permuted.equiv
  rw [Bool.eq_iff_iff, sameAs_iff, sameAs_iff, permuted.typeName_eq]
  constructor
  · rintro ⟨proper, same, named⟩
    exact ⟨proper_of_equiv equal proper, equiv_trans (equiv_symm equal) same, named⟩
  · rintro ⟨proper, same, named⟩
    exact ⟨proper_of_equiv (equiv_symm equal) proper, equiv_trans equal same, named⟩

/-- Rows compare alike if their members do. -/
theorem compareEach?_eq {comparison : Comparison} {xs ys : List Value}
    (each : List.Forall₂ (fun x y => x.equiv y ∧ ∀ bound, compare? comparison x bound =
      compare? comparison y bound) xs ys) (bounds : List Value) :
    compareEach? comparison xs bounds = compareEach? comparison ys bounds := by
  induction each generalizing bounds with
  | nil => rfl
  | @cons x y _ _ first _ ih =>
    cases bounds with
    | nil => rfl
    | cons bound bounds =>
      have same : x.equiv bound = y.equiv bound :=
        Bool.eq_iff_iff.mpr ⟨equiv_trans (equiv_symm first.1), equiv_trans first.1⟩
      simp only [compareEach?, same, ih, first.2]

/-- A permuted value compares with a bound as the value does. -/
theorem Permuted.compare?_eq (permuted : Permuted x y) (comparison : Comparison) (bound : Value) :
    compare? comparison x bound = compare? comparison y bound := by
  induction permuted generalizing bound with
  | same => rfl
  | list length each ih | tuple length each ih =>
    have related : List.Forall₂ (fun x y => x.equiv y ∧ ∀ bound, compare? comparison x bound =
        compare? comparison y bound) _ _ :=
      forall₂_of_zip length fun pair inside => ⟨(each pair inside).equiv, ih pair inside⟩
    cases bound <;> first | rfl | exact compareEach?_eq related _
  | dict | mapping => rfl

theorem entriesAreWritable_eq_of_reordered {xs ys : List (Value × Value)}
    (reordered : Reordered (fun x y => x.isWritable = y.isWritable) xs ys) :
    entriesAreWritable xs = entriesAreWritable ys := by
  rw [Bool.eq_iff_iff, entriesAreWritable_iff, entriesAreWritable_iff]
  constructor
  · intro each other inside
    obtain ⟨entry, member, key, value⟩ := reordered.covered other inside
    rw [← key, ← value]
    exact each entry member
  · intro each entry inside
    obtain ⟨other, member, key, value⟩ := reordered.covers entry inside
    rw [key, value]
    exact each other member

theorem areWritable_eq_of_forall₂ {xs ys : List Value}
    (each : List.Forall₂ (fun x y => x.isWritable = y.isWritable) xs ys) :
    areWritable xs = areWritable ys := by
  induction each with
  | nil => rfl
  | cons here _ ih => simp only [areWritable, here, ih]

/-- The order of entries makes no difference to what can be written. -/
theorem Permuted.isWritable_eq (permuted : Permuted x y) : x.isWritable = y.isWritable := by
  induction permuted with
  | same => rfl
  | list length _ ih | tuple length _ ih =>
    exact areWritable_eq_of_forall₂ (forall₂_of_zip length ih)
  | dict permuted length keys _ ih | mapping permuted length keys _ ih =>
    exact entriesAreWritable_eq_of_reordered (reordered_of_zip permuted length keys ih)

end Answers

/-- What of the values that it meets a validation puts into messages: nothing, keys of dictionaries,
or keys and values. -/
inductive Disclosure where
  | nothing
  | keys
  | everything
  deriving DecidableEq

/-- The keys of the entries are different and can serve as keys, and their values are proper; what
is disclosed can be written. -/
inductive Proper (told : Disclosure) : Value → Prop where
  | intro {x : Value} (written : told = .everything → x.isWritable)
      (items : ∀ items, x.items? = some items → ∀ item ∈ items, Proper told item)
      (distinct : ∀ entries, x.entries? = some entries → Distinct entries)
      (hashable : ∀ entries, x.entries? = some entries →
        ∀ entry ∈ entries, entry.1.unhashable? = none)
      (named : told ≠ .nothing → ∀ entries, x.entries? = some entries →
        ∀ entry ∈ entries, entry.1.isWritable)
      (values : ∀ entries, x.entries? = some entries → ∀ entry ∈ entries, Proper told entry.2) :
      Proper told x

/-- The entries of a proper dictionary. -/
structure ProperEntries (told : Disclosure) (entries : List (Value × Value)) : Prop where
  distinct : Distinct entries
  hashable : ∀ entry ∈ entries, entry.1.unhashable? = none
  named : told ≠ .nothing → ∀ entry ∈ entries, entry.1.isWritable
  values : ∀ entry ∈ entries, entry.2.Proper told

section Proper

variable {told : Disclosure} {x : Value}

theorem Proper.written (proper : x.Proper told) (all : told = .everything) : x.isWritable := by
  cases proper with
  | intro written => exact written all

theorem Proper.items (proper : x.Proper told) {items : List Value} (held : x.items? = some items) :
    ∀ item ∈ items, item.Proper told := by
  cases proper with
  | intro _ each => exact each items held

theorem Proper.entries (proper : x.Proper told) {entries : List (Value × Value)}
    (held : x.entries? = some entries) : ProperEntries told entries := by
  cases proper with
  | intro _ _ distinct hashable named values =>
    exact ⟨distinct entries held, hashable entries held, fun tells => named tells entries held,
      values entries held⟩

/-- A value without items and entries is proper if it can be written where everything is told. -/
theorem proper_plain (written : told = .everything → x.isWritable) (noItems : x.items? = none)
    (noEntries : x.entries? = none) : x.Proper told := by
  refine .intro written ?_ ?_ ?_ ?_ ?_
  · intro items held
    rw [noItems] at held
    cases held
  case refine_4 =>
    intro _ entries held
    rw [noEntries] at held
    cases held
  all_goals
    intro entries held
    rw [noEntries] at held
    cases held

theorem proper_str (text : String) : (Value.str text).Proper told :=
  proper_plain (fun _ => rfl) rfl rfl

theorem proper_missing : Value.missing.Proper told := proper_plain (fun _ => rfl) rfl rfl

theorem proper_list {items : List Value} (each : ∀ item ∈ items, item.Proper told) :
    (Value.list items).Proper told :=
  .intro (fun all => areWritable_iff.mpr fun item inside => (each item inside).written all)
    (fun _ held => Option.some.inj held ▸ each) nofun nofun nofun nofun

theorem ProperEntries.written {entries : List (Value × Value)} (proper : ProperEntries told entries)
    (all : told = .everything) : (Value.dict entries).isWritable := by
  refine entriesAreWritable_iff.mpr fun entry inside => ⟨proper.named ?_ entry inside, ?_⟩
  · rw [all]
    exact nofun
  · exact (proper.values entry inside).written all

theorem proper_dict {entries : List (Value × Value)} (proper : ProperEntries told entries) :
    (Value.dict entries).Proper told :=
  .intro proper.written nofun (fun _ held => Option.some.inj held ▸ proper.distinct)
    (fun _ held => Option.some.inj held ▸ proper.hashable)
    (fun tells _ held => Option.some.inj held ▸ proper.named tells)
    fun _ held => Option.some.inj held ▸ proper.values

theorem properEntries_nil : ProperEntries told [] := ⟨.nil, nofun, nofun, nofun⟩

variable {first second : List (Value × Value)}

/-- Proper entries overlaid with proper ones are proper. -/
theorem ProperEntries.merge (one : ProperEntries told first) (two : ProperEntries told second) :
    ProperEntries told (Entries.merge first second) where
  distinct := one.distinct.merge second
  hashable entry inside := by
    obtain ⟨⟨source, member, key⟩, -⟩ := Entries.mem_merge inside
    rw [key]
    exact (List.mem_append.mp member).elim (one.hashable source) (two.hashable source)
  named tells entry inside := by
    obtain ⟨⟨source, member, key⟩, -⟩ := Entries.mem_merge inside
    rw [key]
    exact (List.mem_append.mp member).elim (one.named tells source) (two.named tells source)
  values entry inside := by
    obtain ⟨-, source, member, value⟩ := Entries.mem_merge inside
    rw [value]
    exact (List.mem_append.mp member).elim (one.values source) (two.values source)

theorem ProperEntries.filter (proper : ProperEntries told first) (keeps : Value × Value → Bool) :
    ProperEntries told (first.filter keeps) where
  distinct := List.Pairwise.filter _ proper.distinct
  hashable entry inside := proper.hashable entry (List.mem_filter.mp inside).1
  named tells entry inside := proper.named tells entry (List.mem_filter.mp inside).1
  values entry inside := proper.values entry (List.mem_filter.mp inside).1

end Proper

/-- A proper value, and one that differs from it at most in the order of entries. -/
structure Rearranged (told : Disclosure) (x y : Value) : Prop where
  proper : x.Proper told
  permuted : Permuted x y

/-- The entries of a proper dictionary, and those of one that differs at most in the order of
entries. -/
structure RearrangedEntries (told : Disclosure) (xs ys : List (Value × Value)) : Prop where
  proper : ProperEntries told xs
  reordered : Reordered Permuted xs ys

/-- Entries under one key that can be a key, with values that differ at most in the order of
entries. -/
structure RearrangedEntry (told : Disclosure) (entry other : Value × Value) : Prop where
  key : entry.1 = other.1
  hashable : entry.1.unhashable? = none
  named : told ≠ .nothing → entry.1.isWritable
  value : Rearranged told entry.2 other.2

section Rearranged

variable {told : Disclosure} {x y : Value} {xs ys : List (Value × Value)}

theorem Proper.rearranged (proper : x.Proper told) : Rearranged told x x := ⟨proper, .same x⟩

theorem Rearranged.items (rearranged : Rearranged told x y) :
    Option.Rel (List.Forall₂ (Rearranged told)) x.items? y.items? := by
  refine Entries.rel_imp rearranged.permuted.items fun items others left each => ?_
  have both := (List.forall₂_and_left items others).mpr ⟨rearranged.proper.items left, each⟩
  exact both.imp fun _ _ holds => ⟨holds.1, holds.2⟩

theorem Rearranged.entries (rearranged : Rearranged told x y) :
    Option.Rel (RearrangedEntries told) x.entries? y.entries? :=
  Entries.rel_imp rearranged.permuted.entries fun _ _ left reordered =>
    ⟨rearranged.proper.entries left, reordered⟩

theorem rearranged_list {xs ys : List Value} (each : List.Forall₂ (Rearranged told) xs ys) :
    Rearranged told (.list xs) (.list ys) := by
  have split := each.imp fun _ _ holds => And.intro holds.proper holds.permuted
  obtain ⟨proper, permuted⟩ := (List.forall₂_and_left xs ys).mp split
  exact ⟨proper_list proper, permuted_list permuted⟩

theorem RearrangedEntries.dict (rearranged : RearrangedEntries told xs ys) :
    Rearranged told (.dict xs) (.dict ys) :=
  ⟨proper_dict rearranged.proper, permuted_dict rearranged.reordered⟩

theorem ProperEntries.rearranged (proper : ProperEntries told xs) :
    ∀ entry ∈ xs, RearrangedEntry told entry entry :=
  fun entry inside =>
    ⟨rfl, proper.hashable entry inside, fun tells => proper.named tells entry inside,
    (proper.values entry inside).rearranged⟩

/-- In the order of the one dictionary, the entries of the other differ from them in their values
only. -/
theorem RearrangedEntries.aligned (rearranged : RearrangedEntries told xs ys) :
    ∃ zs, xs.Perm zs ∧ List.Forall₂ (RearrangedEntry told) zs ys := by
  obtain ⟨proper, zs, permuted, each⟩ := rearranged
  have inside := (List.forall₂_and_left zs ys).mpr ⟨fun entry => permuted.mem_iff.mpr, each⟩
  refine ⟨zs, permuted, inside.imp fun entry other pair => ?_⟩
  obtain ⟨member, key, values⟩ := pair
  exact ⟨key, proper.hashable entry member, fun tells => proper.named tells entry member,
    proper.values entry member, values⟩

/-- Entries that are aligned by some order are rearranged. -/
theorem rearrangedEntries_of_aligned {zs : List (Value × Value)} (distinct : Distinct xs)
    (permuted : xs.Perm zs) (each : List.Forall₂ (RearrangedEntry told) zs ys) :
    RearrangedEntries told xs ys := by
  have paired : ∀ entry ∈ xs, ∃ other, RearrangedEntry told entry other := by
    intro entry inside
    obtain ⟨other, -, pair⟩ := exists_right_of_forall₂ each entry (permuted.mem_iff.mp inside)
    exact ⟨other, pair⟩
  have proper : ProperEntries told xs := {
    distinct := distinct
    hashable := fun entry inside => (paired entry inside).choose_spec.hashable
    named := fun tells entry inside => (paired entry inside).choose_spec.named tells
    values := fun entry inside => (paired entry inside).choose_spec.value.proper }
  exact ⟨proper, zs, permuted, each.imp fun _ _ pair => ⟨pair.key, pair.value.permuted⟩⟩

theorem rearrangedEntries_nil : RearrangedEntries told [] [] :=
  ⟨properEntries_nil, ⟨[], .nil, .nil⟩⟩

theorem RearrangedEntries.get? (rearranged : RearrangedEntries told xs ys) (key : Value) :
    Option.Rel (Rearranged told) (Entries.get? xs key) (Entries.get? ys key) := by
  have held := rearranged.reordered.get? rearranged.proper.distinct key
  refine Entries.rel_imp held fun value other left permuted => ?_
  obtain ⟨entry, inside, -, rfl⟩ := Entries.exists_of_get?_eq_some left
  exact ⟨rearranged.proper.values entry inside, permuted⟩

/-- The keys of the other dictionary are the keys of the first. -/
theorem RearrangedEntries.named (rearranged : RearrangedEntries told xs ys)
    (tells : told ≠ .nothing) :
    ∀ entry ∈ ys, entry.1.isWritable := by
  intro other inside
  obtain ⟨entry, member, key, -⟩ := rearranged.reordered.covered other inside
  exact key ▸ rearranged.proper.named tells entry member

/-- What is found under a key, or else the mark of what is absent. -/
theorem RearrangedEntries.getD (rearranged : RearrangedEntries told xs ys) (key : Value) :
    Rearranged told ((Entries.get? xs key).getD .missing)
      ((Entries.get? ys key).getD .missing) := by
  have held := rearranged.get? key
  generalize Entries.get? xs key = one at held
  generalize Entries.get? ys key = two at held
  cases held with
  | some holds => exact holds
  | none => exact proper_missing.rearranged

theorem RearrangedEntries.merge {more others : List (Value × Value)}
    (first : RearrangedEntries told xs ys) (second : RearrangedEntries told more others) :
    RearrangedEntries told (Entries.merge xs more) (Entries.merge ys others) :=
  ⟨first.proper.merge second.proper,
    first.reordered.merge second.reordered first.proper.distinct second.proper.distinct⟩

/-- Storing rearranged values under one key leaves entries rearranged. -/
theorem RearrangedEntries.insert (rearranged : RearrangedEntries told xs ys) {key : Value}
    (hashable : key.unhashable? = none) (named : told ≠ .nothing → key.isWritable)
    (value : Rearranged told x y) :
    RearrangedEntries told (Entries.insert xs key x) (Entries.insert ys key y) := by
  have proper : ProperEntries told [(key, x)] := ⟨List.pairwise_singleton ..,
    List.forall_mem_singleton.mpr hashable, fun tells =>
      List.forall_mem_singleton.mpr (named tells),
    List.forall_mem_singleton.mpr value.proper⟩
  exact ⟨rearranged.proper.merge proper,
    rearranged.reordered.insert rearranged.proper.distinct key value.permuted⟩

theorem RearrangedEntries.filter (rearranged : RearrangedEntries told xs ys)
    (keeps : Value → Bool) :
    RearrangedEntries told (xs.filter fun entry => keeps entry.1)
      (ys.filter fun entry => keeps entry.1) :=
  ⟨rearranged.proper.filter _, rearranged.reordered.filter keeps⟩

theorem RearrangedEntries.erase (rearranged : RearrangedEntries told xs ys) (key : Value) :
    RearrangedEntries told (Entries.erase xs key) (Entries.erase ys key) :=
  rearranged.filter fun other => !(other == key)

end Rearranged

end Value

end Conform
