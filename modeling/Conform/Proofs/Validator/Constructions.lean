import Conform.Schema.Shape

/-!
Compositions of validators, as data, and what becomes of them when descriptions of parts are changed
before they are put together. Constructors pass on the rules of their parts and never look at their
descriptions, save for `required`, which asks the description which fields are declared
(`Construction.Alike.sameRule`).
-/
namespace Conform

/-- A construction in steps goes well when each step does. -/
theorem bind_ok {α β : Type} {made : Except Misuse α} {next : α → Except Misuse β} {value : β}
    (ok : (made >>= next) = .ok value) : ∃ first, made = .ok first ∧ next first = .ok value := by
  cases made with
  | error cause => cases ok
  | ok first => exact ⟨first, rfl, ok⟩

/-- Constructors of one part. -/
inductive Wrapper where
  | accepting (kind : Kind) (absence : Absence)
  | withDefault (value : Value)
  | fallback (value : Value)
  | catching (value : Value)
  | rejecting (kind : Kind) (absence : Absence)
  | refine (test : Callable) (message : String)
  | transform (function : Callable)
  | preprocess (function : Callable)
  | bidirectional (decode encode : Callable)
  | retitled (source : MessageSource)
  | forward (path : List Value)
  | array
  | set
  | passthrough

/-- The validator that a constructor makes of its part. -/
def Wrapper.apply (v : Validator) : Wrapper → Validator
  | .accepting kind absence => .accepting kind absence v
  | .withDefault value => v.withDefault value
  | .fallback value => v.fallback value
  | .catching value => v.catching value
  | .rejecting kind absence => .rejecting kind absence v
  | .refine test message => v.refine test message
  | .transform function => v.transform function
  | .preprocess function => .preprocess function v
  | .bidirectional decode encode => v.bidirectional decode encode
  | .retitled source => v.retitled source
  | .forward path => v.forward path
  | .array => .array v
  | .set => .set v
  | .passthrough => .passthrough v

/-- Constructors of any number of parts. -/
inductive Joining where
  | pipe
  | union
  | discriminatedUnion (key : Value)
  | variant (key : Value)
  | intersect
  | tuple
  | looseTuple

/-- The validator that a constructor makes of its parts. -/
def Joining.apply (vs : List Validator) : Joining → Except Misuse Validator
  | .pipe => Validator.pipe vs
  | .union => Validator.union vs
  | .discriminatedUnion key => Validator.discriminatedUnion key vs
  | .variant key => Validator.variant key vs
  | .intersect => Validator.intersect vs
  | .tuple => Validator.tuple vs
  | .looseTuple => Validator.looseTuple vs

namespace Validator

/-- A constructor that needs parts makes its validator of some. -/
theorem nonempty_of_made {constructor needed : String} {vs : List Validator} {make v : Validator}
    (made : nonemptyParts constructor needed vs make = .ok v) : vs ≠ [] ∧ v = make := by
  unfold nonemptyParts at made
  split at made
  · cases made
  · rename_i some
    cases made
    exact ⟨fun none => some (List.isEmpty_iff.mpr none), rfl⟩

/-- A choice between values is made of some, all of which can be written. -/
theorem eq_of_oneOf {values : List Value} {v : Validator} (made : oneOf values = .ok v) :
    values ≠ [] ∧ Value.areWritable values ∧
      v = described (.oneOf values) (.withParameters .enum [("values", .list values)]) := by
  unfold oneOf Value.showing at made
  split at made
  · cases made
  · next some =>
    split at made
    · next written =>
      cases made
      exact ⟨fun none => some (List.isEmpty_iff.mpr none), written, rfl⟩
    · cases made

theorem made_of_nonempty {constructor needed : String} {vs : List Validator} (some : vs ≠ [])
    (make : Validator) : nonemptyParts constructor needed vs make = .ok make :=
  if_neg fun none => some (List.isEmpty_iff.mp none)

end Validator

/-- A composition of validators: given ones, parts with another description, and constructors. -/
inductive Construction where
  | given (v : Validator)
  | redescribed (change : Option Metadata → Option Metadata) (part : Construction)
  | wrapped (wrapper : Wrapper) (part : Construction)
  | lenient (part : Construction)
  | required (part : Construction)
  | joined (joining : Joining) (parts : List Construction)
  | tupleWithRest (parts : List Construction) (rest : Construction)
  | object (fields : List (Value × Construction))
  | looseObject (fields : List (Value × Construction))
  | objectWithRest (fields : List (Value × Construction)) (rest : Construction)
  | record (key value : Construction)
  | map (key value : Construction)

namespace Construction

mutual

/-- The validator that a composition makes, its parts made from left to right. -/
def build : Construction → Except Misuse Validator
  | .given v => .ok v
  | .redescribed change part => do
    let v ← build part
    return v.withMetadata (change v.metadata)
  | .wrapped wrapper part => do
    let v ← build part
    return wrapper.apply v
  | .lenient part => do
    let v ← build part
    Schema.lenient (.validator v)
  | .required part => do
    let v ← build part
    Schema.required (.validator v)
  | .joined joining parts => do
    let vs ← buildAll parts
    joining.apply vs
  | .tupleWithRest parts rest => do
    let vs ← buildAll parts
    let v ← build rest
    Validator.tupleWithRest vs v
  | .object fields => do
    let vs ← buildFields fields
    return .object vs
  | .looseObject fields => do
    let vs ← buildFields fields
    return .looseObject vs
  | .objectWithRest fields rest => do
    let vs ← buildFields fields
    let v ← build rest
    return .objectWithRest vs v
  | .record key value => do
    let k ← build key
    let v ← build value
    return .record k v
  | .map key value => do
    let k ← build key
    let v ← build value
    return .map k v

def buildAll : List Construction → Except Misuse (List Validator)
  | [] => return []
  | part :: rest => do
    let v ← build part
    let vs ← buildAll rest
    return v :: vs

/-- The validators that named compositions make. -/
def buildFields : List (Value × Construction) → Except Misuse (List (Value × Validator))
  | [] => return []
  | (key, part) :: rest => do
    let v ← build part
    let vs ← buildFields rest
    return (key, v) :: vs

end

end Construction

/-- The fields that the description of a validator declares. -/
def Validator.declared (v : Validator) : List Value :=
  ((v.metadata.bind fun metadata =>
    if metadata.kind.hasFields then metadata.children.fields? else none).getD []).map (·.1)

namespace Construction

mutual

/-- Compositions that differ in the descriptions of their parts only. Where `required` is applied,
the parts declare the same fields. -/
inductive Alike : Construction → Construction → Prop
  | given (v : Validator) : Alike (.given v) (.given v)
  | left {c d : Construction} (change : Option Metadata → Option Metadata) (part : Alike c d) :
      Alike (.redescribed change c) d
  | right {c d : Construction} (change : Option Metadata → Option Metadata) (part : Alike c d) :
      Alike c (.redescribed change d)
  | wrapped {c d : Construction} (wrapper : Wrapper) (part : Alike c d) :
      Alike (.wrapped wrapper c) (.wrapped wrapper d)
  | lenient {c d : Construction} (part : Alike c d) : Alike (.lenient c) (.lenient d)
  | required {c d : Construction} (part : Alike c d)
      (declared : ∀ v w, c.build = .ok v → d.build = .ok w → v.declared = w.declared) :
      Alike (.required c) (.required d)
  | joined {cs ds : List Construction} (joining : Joining) (parts : AllAlike cs ds) :
      Alike (.joined joining cs) (.joined joining ds)
  | tupleWithRest {cs ds : List Construction} {c d : Construction} (parts : AllAlike cs ds)
      (rest : Alike c d) : Alike (.tupleWithRest cs c) (.tupleWithRest ds d)
  | object {cs ds : List (Value × Construction)} (fields : FieldsAlike cs ds) :
      Alike (.object cs) (.object ds)
  | looseObject {cs ds : List (Value × Construction)} (fields : FieldsAlike cs ds) :
      Alike (.looseObject cs) (.looseObject ds)
  | objectWithRest {cs ds : List (Value × Construction)} {c d : Construction}
      (fields : FieldsAlike cs ds)
      (rest : Alike c d) : Alike (.objectWithRest cs c) (.objectWithRest ds d)
  | record {c d c' d' : Construction} (key : Alike c d) (value : Alike c' d') :
      Alike (.record c c') (.record d d')
  | map {c d c' d' : Construction} (key : Alike c d) (value : Alike c' d') :
      Alike (.map c c') (.map d d')

/-- Several compositions, alike one by one. -/
inductive AllAlike : List Construction → List Construction → Prop
  | nil : AllAlike [] []
  | cons {c d : Construction} {cs ds : List Construction} (first : Alike c d)
      (rest : AllAlike cs ds) :
      AllAlike (c :: cs) (d :: ds)

/-- Compositions under the same names, alike one by one. -/
inductive FieldsAlike : List (Value × Construction) → List (Value × Construction) → Prop
  | nil : FieldsAlike [] []
  | cons {key : Value} {c d : Construction} {cs ds : List (Value × Construction)}
      (first : Alike c d)
      (rest : FieldsAlike cs ds) : FieldsAlike ((key, c) :: cs) ((key, d) :: ds)

end

/-- Two constructions end in the same misuse or succeed with the same view of what they make. -/
def Agree {α β : Type} (view : α → β) (first second : Except Misuse α) : Prop :=
  first.map view = second.map view

section Agreeing

variable {α β γ δ : Type} {view : α → β} {further : γ → δ} {first second : Except Misuse α}
  {next other : α → Except Misuse γ}

theorem agree_ok {v w : α} : Agree view (.ok v) (.ok w) ↔ view v = view w :=
  Except.ok.injEq .. ▸ Iff.rfl

theorem agree_showing {shown shown' : List Value} {v w : α} (same : shown = shown')
    (agree : view v = view w) : Agree view (Value.showing shown v) (Value.showing shown' w) := by
  subst same
  unfold Value.showing
  split
  · exact agree_ok.mpr agree
  · rfl

/-- Compositions that agree fail with the same fault or make validators that look the same. -/
theorem Agree.cases (agree : Agree view first second) :
    (∃ cause, first = .error cause ∧ second = .error cause) ∨
      ∃ v w, first = .ok v ∧ second = .ok w ∧ view v = view w := by
  rcases first with cause | v <;> rcases second with cause' | w
  · cases agree
    exact .inl ⟨_, rfl, rfl⟩
  · cases agree
  · cases agree
  · exact .inr ⟨v, w, rfl, rfl, agree_ok.mp agree⟩

theorem Agree.bind (agree : Agree view first second)
    (rest : ∀ v w, first = .ok v → second = .ok w → view v = view w →
      Agree further (next v) (other w)) :
    Agree further (first >>= next) (second >>= other) := by
  rcases agree.cases with ⟨cause, rfl, rfl⟩ | ⟨v, w, rfl, rfl, same⟩
  · rfl
  · exact rest v w rfl rfl same

end Agreeing

/-- The same rule, whatever is said about it. -/
abbrev SameRule (first second : Except Misuse Validator) : Prop := Agree (·.rule) first second

/-- A constructor of one part passes on its rule. -/
theorem rule_apply_congr {v w : Validator} (same : v.rule = w.rule) (wrapper : Wrapper) :
    (wrapper.apply v).rule = (wrapper.apply w).rule := by
  cases wrapper with
  | accepting kind absence => exact congrArg (Rule.accepting absence) same
  | withDefault value => exact congrArg (Rule.withDefault · value) same
  | fallback value | catching value => exact congrArg (Rule.recovering · value) same
  | rejecting kind absence => exact congrArg (Rule.rejecting absence) same
  | refine test message => exact congrArg (Rule.refine · test message) same
  | transform function => exact congrArg (Rule.transform · function "Transform failed") same
  | preprocess function => exact congrArg (Rule.preprocess function) same
  | bidirectional decode encode => exact congrArg (Rule.transform · decode "Decode failed") same
  | retitled source => exact congrArg (Rule.retitle · source) same
  | forward path => exact congrArg (Rule.forward · path) same
  | array => exact congrArg Rule.array same
  | set => exact congrArg Rule.set same
  | passthrough => exact congrArg Rule.passthrough same

/-- Parts that are the same in rule make rows that are the same in rule. -/
theorem sameRule_nonemptyParts {constructor needed : String} {vs ws : List Validator}
    {made other : Validator} (same : Validator.rules vs = Validator.rules ws)
    (rule : made.rule = other.rule) :
    SameRule (Validator.nonemptyParts constructor needed vs made)
      (Validator.nonemptyParts constructor needed ws other) := by
  have length : vs.length = ws.length := by
    simpa only [Validator.rules, List.length_map] using congrArg List.length same
  cases vs with
  | nil =>
    cases List.eq_nil_of_length_eq_zero length.symm
    rfl
  | cons v vs =>
    cases ws with
    | nil => cases length
    | cons w ws => exact agree_ok.mpr rule

/-- The rule of a sequence depends on the rules of its steps. -/
private theorem sameRule_pipe {vs ws : List Validator}
    (same : Validator.rules vs = Validator.rules ws) :
    SameRule (Validator.pipe vs) (Validator.pipe ws) := by
  unfold Validator.pipe
  refine sameRule_nonemptyParts same ?_
  have length : vs.length = ws.length := by
    simpa only [Validator.rules, List.length_map] using congrArg List.length same
  rcases vs with _ | ⟨v, _ | ⟨v', vs⟩⟩ <;> rcases ws with _ | ⟨w, _ | ⟨w', ws⟩⟩ <;>
    first
      | rfl
      | exact (List.cons.inj same).1
      | exact congrArg Rule.pipe same
      | simp at length

/-- A constructor of several parts passes on their rules. -/
theorem sameRule_apply {vs ws : List Validator} (same : Validator.rules vs = Validator.rules ws)
    (joining : Joining) : SameRule (joining.apply vs) (joining.apply ws) := by
  cases joining with
  | pipe => exact sameRule_pipe same
  | union =>
    refine sameRule_nonemptyParts same ?_
    exact congrArg Rule.union same
  | discriminatedUnion key =>
    refine sameRule_nonemptyParts same ?_
    exact congrArg Rule.discriminatedUnion same
  | variant key =>
    refine sameRule_nonemptyParts same ?_
    exact congrArg (Rule.variant key) same
  | intersect =>
    refine sameRule_nonemptyParts same ?_
    exact congrArg Rule.intersect same
  | tuple =>
    refine sameRule_nonemptyParts same ?_
    exact congrArg Rule.tuple same
  | looseTuple =>
    refine sameRule_nonemptyParts same ?_
    exact congrArg Rule.looseTuple same

mutual

/-- Compositions that differ in descriptions only make the same rule, or fail alike. -/
theorem Alike.sameRule : ∀ {c d : Construction}, Alike c d → SameRule c.build d.build
  | _, _, .given v => rfl
  | .redescribed change c, d, .left _ part => by
    have inner := part.sameRule
    rcases inner.cases with ⟨cause, failed, failed'⟩ | ⟨v, w, made, made', same⟩
    · rw [build, failed, failed']
      rfl
    · rw [build, made, made']
      exact agree_ok.mpr same
  | c, .redescribed change d, .right _ part => by
    have inner := part.sameRule
    rcases inner.cases with ⟨cause, failed, failed'⟩ | ⟨v, w, made, made', same⟩
    · rw [build, failed, failed']
      rfl
    · rw [build, made, made']
      exact agree_ok.mpr same
  | _, _, .wrapped wrapper part => by
    rw [build, build]
    exact part.sameRule.bind fun v w _ _ same => agree_ok.mpr (rule_apply_congr same wrapper)
  | _, _, .lenient part => by
    rw [build, build]
    exact part.sameRule.bind fun v w _ _ same => agree_ok.mpr (congrArg Rule.lenient same)
  | _, _, .required part declared => by
    rw [build, build]
    refine part.sameRule.bind fun v w made made' same => ?_
    have names := declared v w made made'
    refine agree_showing names ?_
    change Rule.required v.declared v.rule = Rule.required w.declared w.rule
    rw [names, same]
  | _, _, .joined joining parts => by
    rw [build, build]
    exact parts.sameRules.bind fun vs ws _ _ same => sameRule_apply same joining
  | _, _, .tupleWithRest parts rest => by
    rw [build, build]
    refine parts.sameRules.bind fun vs ws _ _ positions =>
      rest.sameRule.bind fun v w _ _ further => ?_
    have rule : Rule.tupleWithRest (Validator.rules vs) v.rule =
        Rule.tupleWithRest (Validator.rules ws) w.rule := by rw [positions, further]
    exact sameRule_nonemptyParts positions rule
  | _, _, .object fields => by
    rw [build, build]
    exact fields.sameRules.bind fun vs ws _ _ same => agree_ok.mpr (congrArg Rule.object same)
  | _, _, .looseObject fields => by
    rw [build, build]
    exact fields.sameRules.bind fun vs ws _ _ same => agree_ok.mpr (congrArg Rule.looseObject same)
  | _, _, .objectWithRest fields rest => by
    rw [build, build]
    refine fields.sameRules.bind fun vs ws _ _ named => rest.sameRule.bind fun v w _ _ further =>
      agree_ok.mpr ?_
    change Rule.objectWithRest (Validator.fieldRules vs) v.rule =
      Rule.objectWithRest (Validator.fieldRules ws) w.rule
    rw [named, further]
  | _, _, .record key value => by
    rw [build, build]
    refine key.sameRule.bind fun k l _ _ keys => value.sameRule.bind fun v w _ _ values =>
      agree_ok.mpr ?_
    change Rule.record k.rule v.rule = Rule.record l.rule w.rule
    rw [keys, values]
  | _, _, .map key value => by
    rw [build, build]
    refine key.sameRule.bind fun k l _ _ keys => value.sameRule.bind fun v w _ _ values =>
      agree_ok.mpr ?_
    change Rule.map k.rule v.rule = Rule.map l.rule w.rule
    rw [keys, values]

/-- Compositions that are alike one by one make rows that are the same in rule. -/
theorem AllAlike.sameRules : ∀ {cs ds : List Construction}, AllAlike cs ds →
    Agree Validator.rules (buildAll cs) (buildAll ds)
  | _, _, .nil => rfl
  | _, _, .cons first rest => by
    rw [buildAll, buildAll]
    refine first.sameRule.bind fun v w _ _ same => rest.sameRules.bind fun vs ws _ _ others =>
      agree_ok.mpr ?_
    change v.rule :: Validator.rules vs = w.rule :: Validator.rules ws
    rw [same, others]

theorem FieldsAlike.sameRules : ∀ {cs ds : List (Value × Construction)}, FieldsAlike cs ds →
    Agree Validator.fieldRules (buildFields cs) (buildFields ds)
  | _, _, .nil => rfl
  | _, _, @FieldsAlike.cons key _ _ _ _ first rest => by
    rw [buildFields, buildFields]
    refine first.sameRule.bind fun v w _ _ same => rest.sameRules.bind fun vs ws _ _ others =>
      agree_ok.mpr ?_
    change (key, v.rule) :: Validator.fieldRules vs = (key, w.rule) :: Validator.fieldRules ws
    rw [same, others]

end

end Construction

end Conform
