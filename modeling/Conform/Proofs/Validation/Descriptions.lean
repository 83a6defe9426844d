import Conform.Proofs.Evaluation.Composed
import Conform.Proofs.Evaluation.Worlds
import Conform.Proofs.Validator.Constructions
import Mathlib.Data.List.Forall2

/-!
Descriptions take no part in validation. Two worlds whose lazy schemas differ in descriptions only
are told apart by no evaluation, so that compositions of validators whose parts are described in
different ways give every input the same answer (`Construction.answers_alike`). The exception is
`required`, which reads the declared fields off the description of its part
(`Construction.not_all_answer_alike`).
-/
namespace Conform

/-- Recipes for schemas of one rule: the same recipe, or compositions that are alike. -/
inductive Recipe.Alike : Recipe → Recipe → Prop
  | same (body : Recipe) : Alike body body
  | compositions {c d : Construction} (alike : c.Alike d) :
      Alike (.attempt c.build) (.attempt d.build)

/-- Lazy schemas that differ in descriptions only. -/
structure LazyCell.Alike (first second : LazyCell) : Prop where
  label : first.label = second.label
  body : Recipe.Alike first.body second.body
  built : first.built.map (·.rule) = second.built.map (·.rule)

/-- Worlds whose lazy schemas differ in descriptions only. -/
structure World.Alike (first second : World) : Prop where
  names : first.names = second.names
  trace : first.trace = second.trace
  lazies : List.Forall₂ LazyCell.Alike first.lazies second.lazies

theorem World.Alike.traced {world world' : World} (alike : world.Alike world') (trace : Trace) :
    (world.traced trace).Alike (world'.traced trace) := ⟨alike.names, rfl, alike.lazies⟩

theorem Recipe.Alike.lazyCount {first second : Recipe} (alike : Recipe.Alike first second) :
    first.lazyCount = second.lazyCount := by
  cases alike <;> rfl

/-- Worlds that are alike give an input the same budget. -/
theorem World.Alike.budget {world world' : World} (alike : world.Alike world') (x : Value) :
    world.budget x = world'.budget x := by
  have counted : ∀ {cells cells' : List LazyCell}, List.Forall₂ LazyCell.Alike cells cells' →
      ∀ total, cells.foldl (fun total cell => total + cell.body.lazyCount + 1) total =
        cells'.foldl (fun total cell => total + cell.body.lazyCount + 1) total := by
    intro cells cells' each
    induction each with
    | nil => exact fun _ => rfl
    | cons first _ ih =>
      intro total
      rw [List.foldl_cons, List.foldl_cons, first.body.lazyCount, ih]
  unfold World.budget World.lazyBound
  rw [counted alike.lazies 0]

variable {α β γ δ : Type}

/-- Endings in the same fault or in related values, the worlds left being alike. -/
inductive EndAlike (related : α → β → Prop) : Except Fault α × World → Except Fault β × World → Prop
  | faults {fault : Fault} {after after' : World} (worlds : after.Alike after') :
      EndAlike related (.error fault, after) (.error fault, after')
  | returns {a : α} {b : β} {after after' : World} (values : related a b)
      (worlds : after.Alike after') :
      EndAlike related (.ok a, after) (.ok b, after')

theorem EndAlike.worlds {related : α → β → Prop} {first : Except Fault α × World}
    {second : Except Fault β × World} (ends : EndAlike related first second) :
    first.2.Alike second.2 := by
  cases ends with
  | faults worlds | returns _ worlds => exact worlds

theorem EndAlike.mono {related further : α → β → Prop} {first : Except Fault α × World}
    {second : Except Fault β × World} (ends : EndAlike related first second)
    (turn : ∀ a b, related a b → further a b) : EndAlike further first second := by
  cases ends with
  | faults worlds => exact .faults worlds
  | returns values worlds => exact .returns (turn _ _ values) worlds

theorem EndAlike.answer {first second : Except Fault α × World} (ends : EndAlike Eq first second) :
    first.1 = second.1 := by
  cases ends with
  | faults => rfl
  | returns values => rw [values]

namespace Eval

/-- Evaluations that end alike in worlds that are alike. -/
def Matches (related : α → β → Prop) (first : Eval α) (second : Eval β) : Prop :=
  ∀ world world' : World, world.Alike world' →
    EndAlike related (first.ending world) (second.ending world')

variable {related : α → β → Prop} {further : γ → δ → Prop}

theorem matches_pure {a : α} {b : β} (values : related a b) : Matches related (pure a) (pure b) :=
  fun _ _ worlds => .returns values worlds

theorem matches_raise (fault : Fault) : Matches related (raise fault) (raise fault) :=
  fun _ _ worlds => .faults worlds

/-- Evaluations match in sequence when they match one by one. -/
theorem Matches.bind {first : Eval α} {second : Eval β} {next : α → Eval γ} {other : β → Eval δ}
    (early : Matches related first second) (late : ∀ a b, related a b →
      Matches further (next a) (other b)) :
    Matches further (first >>= next) (second >>= other) := by
  intro world world' worlds
  have ends := early world world' worlds
  rw [ending_bind, ending_bind]
  generalize first.ending world = ending at ends ⊢
  generalize second.ending world' = ending' at ends ⊢
  cases ends with
  | faults left => exact .faults left
  | returns values left => exact late _ _ values _ _ left

theorem matches_ofConstruction {view : α → β} {made made' : Except Misuse α}
    (agree : Construction.Agree view made made') :
    Matches (fun a b => view a = view b) (ofConstruction made) (ofConstruction made') := by
  rcases agree.cases with ⟨cause, rfl, rfl⟩ | ⟨v, w, rfl, rfl, same⟩
  · exact matches_raise _
  · exact matches_pure same

/-- A callback finds the same trace in both worlds. -/
theorem matches_perform (run : Traced α) : Matches Eq (perform run) (perform run) := by
  intro world world' worlds
  rw [ending_perform, ending_perform, ← worlds.trace]
  rcases run.ending world.trace with ⟨fault | value, trace⟩
  · exact .faults (worlds.traced trace)
  · exact .returns rfl (worlds.traced trace)

theorem matches_newLazy (label : Option String) (body : Recipe) :
    Matches Eq (newLazy label body) (newLazy label body) := by
  intro world world' worlds
  have cell : LazyCell.Alike ⟨label, body, none⟩ ⟨label, body, none⟩ := ⟨rfl, .same body, rfl⟩
  have lazies := List.rel_append worlds.lazies (.cons cell .nil)
  have id : world.lazies.length = world'.lazies.length := worlds.lazies.length_eq
  exact .returns id ⟨worlds.names, worlds.trace, lazies⟩

/-- A name leads to the same schema in worlds that are alike. -/
theorem matches_lookup (name : String) : Matches Eq (lookup name) (lookup name) := by
  intro world world' worlds
  have same := worlds.names
  cases found : world.names.get? name with
  | some schema =>
    have returned : (lookup name).Returns world schema world := by simp [lookup, found]
    have returned' : (lookup name).Returns world' schema world' := by simp [lookup, ← same, found]
    rw [returned, returned']
    exact .returns rfl worlds
  | none =>
    have faulted : (lookup name).Faults world (.misuse (.absentKey (.str name))) world := by
      simp [lookup, found]
    have faulted' : (lookup name).Faults world' (.misuse (.absentKey (.str name))) world' := by
      simp [lookup, ← same, found]
    rw [faulted, faulted']
    exact .faults worlds

/-- Keeping what a lazy schema was built to. -/
theorem matches_remember (id : Nat) {v w : Validator} (same : v.rule = w.rule) :
    Matches Eq (remember id v) (remember id w) := by
  intro world world' worlds
  have kept : ∀ {cells cells' : List LazyCell}, List.Forall₂ LazyCell.Alike cells cells' → ∀ id,
      List.Forall₂ LazyCell.Alike (cells.modify id fun cell => { cell with built := some v })
        (cells'.modify id fun cell => { cell with built := some w }) := by
    intro cells cells' each
    induction each with
    | nil => exact fun id => by cases id <;> exact .nil
    | cons first rest ih =>
      intro id
      cases id with
      | zero => exact .cons ⟨first.label, first.body, congrArg some same⟩ rest
      | succ id => exact .cons first (ih id)
  exact .returns rfl ⟨worlds.names, worlds.trace, kept worlds.lazies id⟩

mutual

/-- One recipe builds one schema in worlds that are alike. -/
theorem matches_build : ∀ recipe : Recipe, Matches Eq recipe.build recipe.build
  | .calling run => by
    rw [Recipe.build]
    exact matches_perform run
  | .reference name => by
    rw [Recipe.build]
    exact matches_lookup name
  | .lazy label body => by
    rw [Recipe.build]
    exact (matches_newLazy label body).bind fun id id' same => matches_pure (by rw [same])
  | .combine construction parts => by
    rw [Recipe.build]
    refine (matches_buildAll parts).bind fun schemas schemas' same => ?_
    cases same
    cases construction schemas with
    | error cause => exact matches_raise _
    | ok schema => exact matches_pure rfl

/-- Several recipes make the same schemas in worlds that are alike. -/
theorem matches_buildAll : ∀ parts : List Recipe,
    Matches Eq (Recipe.buildAll parts) (Recipe.buildAll parts)
  | [] => by
    rw [Recipe.buildAll]
    exact matches_pure rfl
  | part :: rest => by
    rw [Recipe.buildAll]
    refine (matches_build part).bind fun schema schema' first => ?_
    refine (matches_buildAll rest).bind fun schemas schemas' others => ?_
    exact matches_pure (by rw [first, others])

end

/-- Recipes that are alike build schemas that are read as the same rule. -/
theorem matches_body {body body' : Recipe} (alike : Recipe.Alike body body') :
    Matches (fun s t => Construction.SameRule s.toValidator t.toValidator) body.build
      body'.build := by
  cases alike with
  | same =>
    intro world world' worlds
    refine (matches_build body world world' worlds).mono fun schema schema' same => ?_
    rw [same]
    rfl
  | compositions alike =>
    unfold Recipe.attempt
    rw [Recipe.build_given, Recipe.build_given]
    rcases alike.sameRule.cases with ⟨cause, failed, failed'⟩ | ⟨v, w, made, made', same⟩
    · rw [failed, failed']
      exact matches_raise _
    · rw [made, made']
      exact matches_pure (Construction.agree_ok.mpr same)

/-- The factories of lazy schemas that are alike give the same rule. -/
theorem matches_run {cell cell' : LazyCell} (alike : cell.Alike cell') :
    Matches (fun v w : Validator => v.rule = w.rule) cell.run cell'.run := by
  obtain ⟨label, body, built⟩ := cell
  obtain ⟨label', body', built'⟩ := cell'
  cases alike.label
  have rest : Matches (fun v w : Validator => v.rule = w.rule)
      (do
        let schema ← body.build
        ofConstruction schema.toValidator)
      (do
        let schema ← body'.build
        ofConstruction schema.toValidator) :=
    (matches_body alike.body).bind fun schema schema' read => matches_ofConstruction read
  cases label with
  | none => exact rest
  | some label => exact (matches_perform _).bind fun _ _ _ => rest

/-- Lazy schemas that are alike and not built yet are built to the same rule. -/
theorem matches_buildCell (id : Nat) {cell cell' : LazyCell} (alike : cell.Alike cell') :
    Matches (fun v w : Validator => v.rule = w.rule) (World.buildCell id cell)
      (World.buildCell id cell') :=
  (matches_run alike).bind fun _ _ same =>
    (matches_remember id same).bind fun _ _ _ => matches_pure same

/-- What a lazy schema stands for has one rule in worlds that are alike. -/
theorem matches_resolve (id : Nat) :
    Matches (fun v w : Validator => v.rule = w.rule) (resolve id) (resolve id) := by
  intro world world' worlds
  rw [World.ending_resolve, World.ending_resolve]
  have cells := List.forall₂_iff_get.mp worlds.lazies
  cases found : world.lazies[id]? with
  | none =>
    have absent : world'.lazies[id]? = none := by
      rw [List.getElem?_eq_none_iff] at found ⊢
      exact cells.1 ▸ found
    rw [absent]
    exact .faults worlds
  | some cell =>
    obtain ⟨inside, rfl⟩ := List.getElem?_eq_some_iff.mp found
    have inside' : id < world'.lazies.length := cells.1 ▸ inside
    have alike : LazyCell.Alike world.lazies[id] world'.lazies[id] := cells.2 id inside inside'
    rw [List.getElem?_eq_getElem inside']
    generalize world.lazies[id] = cell at alike ⊢
    generalize world'.lazies[id] = cell' at alike ⊢
    obtain ⟨label, body, built⟩ := cell
    obtain ⟨label', body', built'⟩ := cell'
    -- a lazy schema is built in both worlds or in neither
    cases built with
    | some v =>
      cases built' with
      | none => cases alike.built
      | some w => exact .returns (Option.some.inj alike.built) worlds
    | none =>
      cases built' with
      | some w => cases alike.built
      | none => exact matches_buildCell id alike world world' worlds

end Eval

namespace Checked

/-- Worlds that are alike are not told apart: the answer is one and the worlds left are alike. -/
def Indifferent (computation : Checked α) : Prop :=
  ∀ world world' : World, world.Alike world' →
    EndAlike Eq (computation.ending world) (computation.ending world')

variable {computation : Checked α} {next : α → Checked β}

/-- What is indifferent to descriptions in each half is so in sequence. -/
theorem Indifferent.bind (first : computation.Indifferent)
    (rest : ∀ value, (next value).Indifferent) :
    (computation >>= next).Indifferent := by
  intro world world' worlds
  have ends := first world world' worlds
  rw [ending_bind, ending_bind]
  generalize computation.ending world = ending at ends ⊢
  generalize computation.ending world' = ending' at ends ⊢
  cases ends with
  | faults left => exact .faults left
  | @returns result _ _ _ same left =>
    cases same
    cases result with
    | error failure => exact .returns rfl left
    | ok value => exact rest value _ _ left

theorem Indifferent.attempt (inner : computation.Indifferent) :
    (attempt computation).Indifferent := by
  intro world world' worlds
  have ends := inner world world' worlds
  rw [ending_attempt, ending_attempt]
  generalize computation.ending world = ending at ends ⊢
  generalize computation.ending world' = ending' at ends ⊢
  cases ends with
  | faults left => exact .faults left
  | returns same left => exact .returns (congrArg Except.ok same) left

/-- An evaluation without failures, as a computation. -/
theorem indifferent_lift {evaluation : Eval α} (agree : Eval.Matches Eq evaluation evaluation) :
    Indifferent (ExceptT.lift evaluation) := by
  intro world world' worlds
  have ends := agree world world' worlds
  rw [ending_lift, ending_lift]
  generalize evaluation.ending world = ending at ends ⊢
  generalize evaluation.ending world' = ending' at ends ⊢
  cases ends with
  | faults left => exact .faults left
  | returns same left => exact .returns (congrArg Except.ok same) left

theorem indifferent_pure (value : α) : Indifferent (pure value) := fun _ _ worlds =>
    .returns rfl worlds

theorem indifferent_reject (failure : Failure) : Indifferent (reject failure : Checked α) :=
  fun _ _ worlds => .returns rfl worlds

theorem indifferent_guarded (default : Value) (run : Traced α) :
    Indifferent (guarded default run) := by
  refine (indifferent_lift (Eval.matches_perform _)).bind fun result => ?_
  cases result with
  | ok value => exact indifferent_pure value
  | error fault =>
    cases caught : fault.caught? default with
    | some failure =>
      simp only [caught]
      exact indifferent_reject failure
    | none =>
      simp only [caught]
      exact indifferent_lift (Eval.matches_raise fault.passed)

/-- Whatever is composed of callbacks and indifferent parts is indifferent. -/
theorem Composed.indifferent {allowed : Piece → Prop} {part : Checked Value → Prop}
    (parts : ∀ given, part given → given.Indifferent)
    (composed : computation.Composed allowed part) :
    computation.Indifferent := by
  induction composed with
  | pure value => exact indifferent_pure value
  | reject failure => exact indifferent_reject failure
  | misuse cause => exact indifferent_lift (Eval.matches_raise _)
  | bind _ _ first rest => exact first.bind rest
  | attempt _ inner => exact inner.attempt
  | guarded default _ => exact indifferent_guarded default _
  | reporter _ x | result _ x => exact indifferent_lift (Eval.matches_perform _)
  | part given => exact parts _ given

theorem Indifferent.raising {computation : Checked Value} (inner : computation.Indifferent) :
    Eval.Matches Eq (raising computation) (raising computation) := by
  intro world world' worlds
  have ends := inner world world' worlds
  rw [ending_raising, ending_raising]
  generalize computation.ending world = ending at ends ⊢
  generalize computation.ending world' = ending' at ends ⊢
  cases ends with
  | faults left => exact .faults left
  | @returns result _ _ _ same left =>
    cases same
    cases result with
    | error failure => exact .faults left
    | ok value => exact .returns rfl left

end Checked

/-- An evaluation matches itself in worlds that are alike if the computations in it do. -/
theorem Eval.Composed.matches {allowed : Piece → Prop} {checked : Checked Value → Prop}
    {part : Eval Value → Prop} {evaluation : Eval Value}
    (checks : ∀ given, checked given → given.Indifferent)
    (parts : ∀ given, part given → Eval.Matches Eq given given)
    (composed : evaluation.Composed allowed checked part) :
      Eval.Matches Eq evaluation evaluation := by
  induction composed with
  | pure value => exact matches_pure rfl
  | bind _ _ first rest =>
    refine first.bind fun value value' same => ?_
    cases same
    exact rest value
  | callback _ x | function _ x => exact matches_perform _
  | raising inner => exact (inner.indifferent checks).raising
  | part given => exact parts _ given

namespace Rule

theorem indifferent_safe {onLazy : Nat → SafeForm} (lazies : ∀ id x, (onLazy id x).Indifferent)
    (rule : Rule) (x : Value) : (rule.safe onLazy x).Indifferent :=
  (composed_safe (fun id x => .part (lazies id x)) rule rule.suppliedBy_anything x).indifferent
    fun _ indifferent => indifferent

/-- Lazy rules are indifferent to descriptions, at any budget. -/
theorem indifferent_lazySafe (budget : Nat) : ∀ id x, (lazySafe budget id x).Indifferent := by
  induction budget with
  | zero => exact fun id x => Checked.indifferent_lift (Eval.matches_raise _)
  | succ budget ih =>
    intro id x world world' worlds
    have ends := Eval.matches_resolve id world world' worlds
    unfold lazySafe
    rw [Checked.ending_bind, Checked.ending_bind, Checked.ending_lift, Checked.ending_lift]
    generalize (Eval.resolve id).ending world = ending at ends ⊢
    generalize (Eval.resolve id).ending world' = ending' at ends ⊢
    cases ends with
    | faults left => exact .faults left
    | @returns v w _ _ same left =>
      simp only [same]
      exact indifferent_safe ih w.rule x _ _ left

theorem matches_call {onLazy : Nat → SafeForm} {onLazyCall : Nat → CallForm}
    (lazies : ∀ id x, (onLazy id x).Indifferent)
    (lazyCalls : ∀ id x, Eval.Matches Eq (onLazyCall id x) (onLazyCall id x))
    (rule : Rule) (x : Value) :
    Eval.Matches Eq (rule.call onLazy onLazyCall x) (rule.call onLazy onLazyCall x) :=
  (composed_call (fun id x => .part (lazies id x)) (fun id x => .part (lazyCalls id x)) rule
    rule.suppliedBy_anything x).matches (fun _ indifferent => indifferent) fun _ agree => agree

theorem matches_lazyCall (budget : Nat) :
    ∀ id x, Eval.Matches Eq (lazyCall budget id x) (lazyCall budget id x) := by
  induction budget with
  | zero => exact fun id x => Eval.matches_raise _
  | succ budget ih =>
    intro id x
    refine (Eval.matches_resolve id).bind fun v w same => ?_
    rw [same]
    exact matches_call (indifferent_lazySafe budget) ih w.rule x

end Rule

namespace Construction

/-- Compositions that differ in descriptions only fail alike or make validators that give every
input one answer in both forms, whatever the descriptions within lazy schemas are; the traces left
are the same. -/
theorem answers_alike {c d : Construction} (alike : c.Alike d) {world world' : World}
    (worlds : world.Alike world') :
    (∃ cause, c.build = .error cause ∧ d.build = .error cause) ∨
      ∃ v w, c.build = .ok v ∧ d.build = .ok w ∧ ∀ x,
        ((v.safe x).ending world).1 = ((w.safe x).ending world').1 ∧
        ((v.safe x).ending world).2.trace = ((w.safe x).ending world').2.trace ∧
        ((v.call x).ending world).1 = ((w.call x).ending world').1 ∧
        ((v.call x).ending world).2.trace = ((w.call x).ending world').2.trace := by
  rcases alike.sameRule.cases with failed | ⟨v, w, made, made', same⟩
  · exact .inl failed
  · refine .inr ⟨v, w, made, made', fun x => ?_⟩
    rw [Validator.ending_safe, Validator.ending_safe, Validator.ending_call,
      Validator.ending_call, same, worlds.budget x]
    have safely :=
      Rule.indifferent_safe (Rule.indifferent_lazySafe (world'.budget x)) w.rule x world
      world' worlds
    have calling := Rule.matches_call (Rule.indifferent_lazySafe (world'.budget x))
      (Rule.matches_lazyCall (world'.budget x)) w.rule x world world' worlds
    exact ⟨safely.answer, safely.worlds.trace, calling.answer, calling.worlds.trace⟩

/-- A node of a list, its link to the next node described in some way. -/
private def node (change : Option Metadata → Option Metadata) : Construction :=
  .object
    [(.str "next", .wrapped (.accepting .optional .missing)
      (.redescribed change (.given (.lazy 0))))]

/-- A world with the node as its lazy schema. -/
private def nodes (change : Option Metadata → Option Metadata) : World :=
  { World.initial "nodes" with lazies := [⟨some "node", .attempt (node change).build, none⟩] }

private theorem node_alike (change other : Option Metadata → Option Metadata) :
    (node change).Alike (node other) := by
  have link : Construction.Alike (.redescribed change (.given (.lazy 0)))
      (.redescribed other (.given (.lazy 0))) := .left change (.right other (.given (.lazy 0)))
  exact .object (.cons (.wrapped _ link) .nil)

private theorem nodes_alike (change other : Option Metadata → Option Metadata) :
    (nodes change).Alike (nodes other) := by
  have cell : LazyCell.Alike ⟨some "node", .attempt (node change).build, none⟩
      ⟨some "node", .attempt (node other).build, none⟩ :=
        ⟨rfl, .compositions (node_alike change other), rfl⟩
  exact ⟨rfl, rfl, .cons cell .nil⟩

/-- Without descriptions, in the node as in the world, a bad link is refused with the same
failure. -/
theorem node_answers_alike :
    (node id).Alike (node fun _ => none) ∧ (nodes id).Alike (nodes fun _ => none) ∧
    ∃ v w failure, (node id).build = .ok v ∧ (node fun _ => none).build = .ok w ∧
      ((v.safe (.dict [(.str "next", .int 1)])).ending (nodes id)).1 = .ok (.error failure) ∧
      ((w.safe (.dict [(.str "next", .int 1)])).ending (nodes fun _ => none)).1 =
        .ok (.error failure) := by
  have alike := node_alike id fun _ => none
  have worlds := nodes_alike id fun _ => none
  refine ⟨alike, worlds, ?_⟩
  rcases answers_alike alike worlds with ⟨cause, failed, -⟩ | ⟨v, w, made, made', answers⟩
  · cases failed
  · obtain ⟨same, -⟩ := answers (.dict [(.str "next", .int 1)])
    cases made
    exact ⟨_, w, _, rfl, made', rfl, same.symm.trans rfl⟩

/-- An object with a field that may be absent. -/
private def card : Validator := .object [(.str "name", .optional (.leaf .string))]

/-- Requiring all fields of an object that has lost its description requires none. -/
theorem not_all_answer_alike :
    ∃ v w failure, Construction.build (.required (.given card)) = .ok v ∧
      Construction.build (.required (.redescribed (fun _ => none) (.given card))) = .ok w ∧
      (v.safe (.dict [])).Reports (World.initial "card") failure (World.initial "card") ∧
      (w.safe (.dict [])).Returns (World.initial "card") (.dict []) (World.initial "card") :=
  ⟨_, _, _, rfl, rfl, rfl, rfl⟩

end Construction

end Conform
