import Conform.Proofs.Validator.Constructions
import Mathlib.Data.List.Forall2

/-!
Schemas in nested groups. A constructor of several parts may be applied to all of them at once, or
group by group from the inside out; `Grouping.exists_both` says what it takes for the two to come to
the same.
-/
namespace Conform

/-- Schemas in groups inside one another. No group is empty. -/
inductive Grouping where
  | single (schema : Schema)
  | group (first : Grouping) (others : List Grouping)

theorem Validator.rules_append (vs others : List Validator) :
    rules (vs ++ others) = rules vs ++ rules others := List.map_append

namespace Schema

theorem toValidators_cons {schema : Schema} {rest : List Schema} {vs : List Validator}
    (read : toValidators (schema :: rest) = .ok vs) :
    ∃ v others, schema.toValidator = .ok v ∧ toValidators rest = .ok others ∧ v :: others = vs := by
  rw [toValidators] at read
  obtain ⟨v, given, read⟩ := bind_ok read
  obtain ⟨others, further, read⟩ := bind_ok read
  cases read
  exact ⟨v, others, given, further, rfl⟩

/-- Schemas are read as validators one after the other. -/
theorem toValidators_append {schemas others : List Schema} {vs : List Validator}
    (read : toValidators (schemas ++ others) = .ok vs) :
    ∃ first second, toValidators schemas = .ok first ∧ toValidators others = .ok second ∧
      first ++ second = vs := by
  induction schemas generalizing vs with
  | nil => exact ⟨[], vs, rfl, read, rfl⟩
  | cons schema rest ih =>
    obtain ⟨v, behind, given, further, rfl⟩ := toValidators_cons read
    obtain ⟨first, second, reads, also, rfl⟩ := ih further
    refine ⟨v :: first, second, ?_, also, rfl⟩
    rw [toValidators, given, reads]
    rfl

end Schema

namespace Grouping

mutual

def schemas : Grouping → List Schema
  | .single schema => [schema]
  | .group first others => schemas first ++ schemasOf others

def schemasOf : List Grouping → List Schema
  | [] => []
  | part :: rest => schemas part ++ schemasOf rest

end

theorem schemas_ne_nil : ∀ grouping : Grouping, grouping.schemas ≠ []
  | .single schema => List.cons_ne_nil schema []
  | .group first others =>
    List.append_ne_nil_of_left_ne_nil (schemas_ne_nil first) (schemasOf others)

mutual

/-- The schema that a constructor makes of every group, those inside before those around them. -/
def build (make : List Validator → Except Misuse Validator) : Grouping → Except Misuse Schema
  | .single schema => .ok schema
  | .group first others => do
    let part ← build make first
    let parts ← buildAll make others
    let vs ← Schema.toValidators (part :: parts)
    let made ← make vs
    return .validator made

/-- The schemas that a constructor makes of several groups. -/
def buildAll (make : List Validator → Except Misuse Validator) :
    List Grouping → Except Misuse (List Schema)
  | [] => .ok []
  | part :: rest => do
    let schema ← build make part
    let schemas ← buildAll make rest
    return schema :: schemas

end

/-- A relation between rows of validators that the constructor respects: a row stays the same when a
part of it is put in place of the same, or when validators in it are made into one. -/
structure Respected (make : List Validator → Except Misuse Validator)
    (Same : List Validator → List Validator → Prop) : Prop where
  refl : ∀ vs, Same vs vs
  trans : ∀ {vs ws us}, Same vs ws → Same ws us → Same vs us
  append : ∀ {vs ws others more}, Same vs ws → Same others more → Same (vs ++ others) (ws ++ more)
  makes : ∀ {vs}, vs ≠ [] → ∃ v, make vs = .ok v
  made : ∀ {vs v}, make vs = .ok v → Same [v] vs

variable {make : List Validator → Except Misuse Validator}
  {Same : List Validator → List Validator → Prop}
  {first : Grouping} {others : List Grouping} {vs behind : List Validator}

/-- What is made of several groups is the same as validators in a row. -/
def Stand (make : List Validator → Except Misuse Validator)
    (Same : List Validator → List Validator → Prop)
    (groupings : List Grouping) (vs : List Validator) : Prop :=
  ∃ schemas given, buildAll make groupings = .ok schemas ∧ Schema.toValidators schemas = .ok given ∧
    Same given vs

/-- A row stands if its first part and the rest do. -/
theorem Stand.cons (respected : Respected make Same) {schema : Schema} {v : Validator}
    (built : first.build make = .ok schema) (given : schema.toValidator = .ok v)
    (same : Same [v] vs)
    (further : Stand make Same others behind) :
      Stand make Same (first :: others) (vs ++ behind) := by
  obtain ⟨schemas, more, all, turned, also⟩ := further
  refine ⟨schema :: schemas, v :: more, ?_, ?_, respected.append same also⟩
  · rw [buildAll, built, all]
    rfl
  · rw [Schema.toValidators, given, turned]
    rfl

/-- A group is made into one validator, of validators that are the same as those in a row. -/
theorem Stand.group (respected : Respected make Same)
    (stand : Stand make Same (first :: others) vs) :
    ∃ given v, (Grouping.group first others).build make = .ok (.validator v) ∧ make given = .ok v ∧
      Same given vs := by
  obtain ⟨schemas, given, built, turned, same⟩ := stand
  rw [buildAll] at built
  obtain ⟨schema, one, built⟩ := bind_ok built
  obtain ⟨further, more, built⟩ := bind_ok built
  cases built
  obtain ⟨v, rest, -, -, rfl⟩ := Schema.toValidators_cons turned
  obtain ⟨made, making⟩ := respected.makes (List.cons_ne_nil v rest)
  refine ⟨v :: rest, made, ?_, making, same⟩
  have step : (Grouping.group first others).build make =
      Schema.toValidators (schema :: further) >>= fun vs => make vs >>= fun made =>
        .ok (.validator made) := by
    rw [build, one, more]
    rfl
  rw [step, turned]
  exact congrArg (· >>= fun made => Except.ok (Schema.validator made)) making

mutual

/-- What is made of nested groups is the same as the validators in a row. -/
theorem exists_built (respected : Respected make Same) :
    ∀ (grouping : Grouping) {vs : List Validator}, Schema.toValidators grouping.schemas = .ok vs →
      ∃ schema v, grouping.build make = .ok schema ∧ schema.toValidator = .ok v ∧ Same [v] vs
  | .single schema, vs, read => by
    obtain ⟨v, others, given, none, rfl⟩ := Schema.toValidators_cons read
    cases none
    exact ⟨schema, v, rfl, given, respected.refl [v]⟩
  | .group first others, vs, read => by
    obtain ⟨here, behind, reads, also, rfl⟩ := Schema.toValidators_append read
    obtain ⟨schema, v, one, given, same⟩ := exists_built respected first reads
    have stand := Stand.cons respected one given same (stand_of_read respected others also)
    obtain ⟨given, v, built, made, same⟩ := stand.group respected
    exact ⟨.validator v, v, built, rfl, respected.trans (respected.made made) same⟩

/-- Every grouping stands for the row of validators that it is read as. -/
theorem stand_of_read (respected : Respected make Same) :
    ∀ (groupings : List Grouping) {vs : List Validator},
      Schema.toValidators (schemasOf groupings) = .ok vs →
      Stand make Same groupings vs
  | [], vs, read => by
    cases read
    exact ⟨[], [], rfl, rfl, respected.refl []⟩
  | part :: rest, vs, read => by
    obtain ⟨here, behind, reads, also, rfl⟩ := Schema.toValidators_append read
    obtain ⟨schema, v, built, given, same⟩ := exists_built respected part reads
    exact .cons respected built given same (stand_of_read respected rest also)

end

/-- The constructor makes one validator of everything in a group at once and another one group by
group, of validators that are the same as those in the group. -/
theorem exists_both (respected : Respected make Same)
    (read : Schema.toValidators (group first others).schemas = .ok vs) :
    ∃ given nested flat, (group first others).build make = .ok (.validator nested) ∧
      make vs = .ok flat ∧
      make given = .ok nested ∧ Same given vs := by
  obtain ⟨given, nested, built, made, same⟩ :=
    (stand_of_read respected (first :: others) read).group respected
  have some : vs ≠ [] := by
    obtain ⟨schema, rest, split⟩ := List.exists_cons_of_ne_nil (schemas_ne_nil (group first others))
    rw [split] at read
    obtain ⟨v, behind, -, -, rfl⟩ := Schema.toValidators_cons read
    exact List.cons_ne_nil v behind
  obtain ⟨flat, whole⟩ := respected.makes some
  exact ⟨given, nested, flat, built, whole, made, same⟩

end Grouping

end Conform
