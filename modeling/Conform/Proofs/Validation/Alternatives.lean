import Conform.Proofs.Evaluation.Reaches
import Conform.Proofs.Validation.RoundTrip
import Conform.Proofs.Validator.Constructions

/-!
Alternatives and conjunctions of rules that give their outputs back. A choice gives an output back
unless an earlier option, which refused the input, accepts the output as something else; a
conjunction gives the joined output back exactly when the members whose own output it is not accept
it too, and what all of them then give joins to it again. Without these conditions neither does
(`Validator.not_all_alternatives_give_back`).
-/
namespace Conform

namespace Rule

open Checked SafeForm

/-- What the rule gives with one budget it gives back, in any world, with another. -/
def Idempotent (first second : Nat) (rule : Rule) : Prop :=
  ∀ x y world after, (rule.safe (lazySafe first) x).Returns world y after →
    ∀ later, ∃ finish, (rule.safe (lazySafe second) y).Returns later y finish

theorem Normalises.idempotent {rule : Rule} (normalises : rule.Normalises) (first second : Nat) :
    rule.Idempotent first second := by
  intro x y world after accepted later
  have settles : Settles (rule.safe (lazySafe first)) := normalises.settles
  have gives := ((settles.steady x).returns_iff.mp accepted).1
  refine ⟨later, ?_⟩
  rw [normalises.eager.safe_eq (lazySafe second) (lazySafe first)]
  exact settles.again gives later

variable (onLazy : Nat → SafeForm)

/-- Rules tried in turn refuse the value until one gives it back or none is left. -/
inductive NoneDiverts (y : Value) : List Rule → World → Prop
  | nil {world : World} : NoneDiverts y [] world
  | keeps {rule : Rule} {rest : List Rule} {world after : World}
      (returned : (rule.safe onLazy y).Returns world y after) : NoneDiverts y (rule :: rest) world
  | refuses {rule : Rule} {rest : List Rule} {failure : Failure} {world between : World}
      (reported : (rule.safe onLazy y).Reports world failure between)
      (others : NoneDiverts y rest between) : NoneDiverts y (rule :: rest) world

/-- Each of several rules in turn accepts the input, with the outputs listed. -/
inductive AllAccept (x : Value) : List Rule → List Value → World → World → Prop
  | nil {world : World} : AllAccept x [] [] world world
  | cons {rule : Rule} {rest : List Rule} {y : Value} {ys : List Value}
      {world between after : World}
      (returned : (rule.safe onLazy x).Returns world y between)
      (others : AllAccept x rest ys between after) :
        AllAccept x (rule :: rest) (y :: ys) world after

/-- Members answer a joined value in turn. One whose own output it is needs no look: what it gives
back it gives back again. Each of the others accepts the value, with the answer listed. -/
inductive AnswerInTurn (y : Value) : List Rule → List Value → List Value → World → Prop
  | nil {world : World} : AnswerInTurn y [] [] [] world
  | own {rule : Rule} {rest : List Rule} {outs answers : List Value} {world : World}
      (others : ∀ between, (rule.safe onLazy y).Returns world y between →
        AnswerInTurn y rest outs answers between) :
      AnswerInTurn y (rule :: rest) (y :: outs) (y :: answers) world
  | other {rule : Rule} {rest : List Rule} {out answer : Value} {outs answers : List Value}
      {world between : World} (returned : (rule.safe onLazy y).Returns world answer between)
      (others : AnswerInTurn y rest outs answers between) :
      AnswerInTurn y (rule :: rest) (out :: outs) (answer :: answers) world

/-- Where the rule gives an output of its own back, it gives that output for another value too. -/
def TakesFor (y : Value) (rule : Rule) (out : Value) : Prop :=
  ∀ now finish, (rule.safe onLazy out).Returns now out finish →
    ∃ finish, (rule.safe onLazy y).Returns now out finish

variable {onLazy} {x y : Value} {world after later : World}

/-- A choice gives what its first accepting option gives, all before it having refused. -/
theorem returns_firstMatch {failure : Failure} {options : List Rule} :
    (firstMatch (reject failure) (safeAll onLazy options) x).Returns world y after ↔
      ∃ before option others reached, options = before ++ option :: others ∧
        AllRefuse onLazy x before world reached ∧
          (option.safe onLazy x).Returns reached y after := by
  induction options generalizing world with
  | nil =>
    constructor
    · intro returned
      exact absurd returned returns_reject
    · rintro ⟨before, option, others, reached, split, -⟩
      cases before <;> cases split
  | cons option rest ih =>
    simp only [safeAll, firstMatch, returns_attempt_bind, returns_pure, ih]
    constructor
    · rintro (⟨given, between, returned, rfl, rfl⟩ | ⟨failure, between, refused, before,
        other, others, reached, rfl, refuse, returned⟩)
      · exact ⟨[], option, rest, world, rfl, .nil, returned⟩
      · exact ⟨option :: before, other, others, reached, rfl, .cons refused refuse, returned⟩
    · rintro ⟨before, other, others, reached, split, refuse, returned⟩
      cases refuse with
      | nil =>
        obtain ⟨rfl, rfl⟩ := List.cons.inj split
        exact .inl ⟨y, after, returned, rfl, rfl⟩
      | cons refused refuse =>
        obtain ⟨rfl, rfl⟩ := List.cons.inj split
        exact .inr ⟨_, _, refused, _, other, others, reached, rfl, refuse, returned⟩

/-- With an option that gives a value back, a choice does so exactly when no option before it
diverts. -/
theorem gives_back_iff_noneDiverts {failure : Failure} {before others : List Rule} {option : Rule}
    (back : ∀ later, ∃ finish, (option.safe onLazy y).Returns later y finish) :
    (∃ finish, (firstMatch (reject failure) (safeAll onLazy (before ++ option :: others)) y).Returns
        later y finish) ↔ NoneDiverts onLazy y before later := by
  induction before generalizing later with
  | nil =>
    obtain ⟨finish, returned⟩ := back later
    have accepted :
      (firstMatch (reject failure) (safeAll onLazy (option :: others)) y).Returns later y
        finish := returns_firstMatch.mpr ⟨[], option, others, later, rfl, .nil, returned⟩
    exact iff_of_true ⟨finish, accepted⟩ .nil
  | cons first rest ih =>
    simp only [List.cons_append, safeAll, firstMatch, returns_attempt_bind, returns_pure]
    constructor
    · rintro ⟨finish, ⟨given, between, returned, rfl, rfl⟩ | ⟨refusal, between, refused, accepted⟩⟩
      · exact .keeps returned
      · exact .refuses refused (ih.mp ⟨finish, accepted⟩)
    · intro none
      cases none with
      | keeps returned => exact ⟨_, .inl ⟨y, _, returned, rfl, rfl⟩⟩
      | refuses reported none =>
        obtain ⟨finish, accepted⟩ := ih.mpr none
        exact ⟨finish, .inr ⟨_, _, reported, accepted⟩⟩

/-- All members at once give their outputs joined, if every member accepts. -/
theorem returns_intersectFrom {members : List Rule} {merged : Value} :
    (intersectFrom x (safeAll onLazy members) merged).Returns world y after ↔
      ∃ outputs, AllAccept onLazy x members outputs world after ∧
        outputs.foldl joinOutput merged = y := by
  induction members generalizing merged world with
  | nil =>
    simp only [safeAll, intersectFrom, returns_pure]
    constructor
    · rintro ⟨rfl, rfl⟩
      exact ⟨[], .nil, rfl⟩
    · rintro ⟨outputs, accept, rfl⟩
      cases accept
      exact ⟨rfl, rfl⟩
  | cons member rest ih =>
    simp only [safeAll, intersectFrom, returns_bind, ih]
    constructor
    · rintro ⟨out, between, returned, outputs, accept, rfl⟩
      exact ⟨out :: outputs, .cons returned accept, rfl⟩
    · rintro ⟨outputs, accept, rfl⟩
      cases accept with
      | cons returned accept => exact ⟨_, _, returned, _, accept, rfl⟩

/-- What members accept in turn they answer in turn, whatever their own outputs are. -/
theorem AllAccept.answerInTurn {members : List Rule} {outs answers : List Value}
    (accept : AllAccept onLazy y members answers world after)
    (matched : outs.length = members.length) :
    AnswerInTurn onLazy y members outs answers world := by
  induction accept generalizing outs with
  | nil =>
    obtain rfl := List.eq_nil_of_length_eq_zero matched
    exact .nil
  | cons returned _ ih =>
    cases outs with
    | nil => cases matched
    | cons out outs => exact .other returned (ih (Nat.succ.inj matched))

theorem AllAccept.length_eq {members : List Rule} {outputs : List Value}
    (accept : AllAccept onLazy x members outputs world after) :
      outputs.length = members.length := by
  induction accept with
  | nil => rfl
  | cons _ _ ih => exact congrArg Nat.succ ih

/-- Members that give their outputs back accept the joined output when they answer it in turn. -/
theorem AllAccept.of_answerInTurn {first second : Nat} {members : List Rule}
    {outputs answers : List Value}
    (accept : AllAccept (lazySafe first) x members outputs world after)
    (idempotent : ∀ member ∈ members, member.Idempotent first second)
    (answer : AnswerInTurn (lazySafe second) y members outputs answers later) :
    ∃ finish, AllAccept (lazySafe second) y members answers later finish := by
  induction accept generalizing answers later with
  | nil =>
    cases answer
    exact ⟨later, .nil⟩
  | cons returned _ ih =>
    obtain ⟨back, others⟩ := List.forall_mem_cons.mp idempotent
    cases answer with
    | own answer =>
      obtain ⟨between, again⟩ := back _ _ _ _ returned later
      obtain ⟨finish, further⟩ := ih others (answer between again)
      exact ⟨finish, .cons again further⟩
    | other given answer =>
      obtain ⟨finish, further⟩ := ih others answer
      exact ⟨finish, .cons given further⟩

/-- Members that give their outputs back, and take the joined output for them, give them for it
too. -/
theorem AllAccept.again {first second : Nat} {members : List Rule} {outputs : List Value}
    (accept : AllAccept (lazySafe first) x members outputs world after)
    (idempotent : ∀ member ∈ members, member.Idempotent first second)
    (takes : List.Forall₂ (TakesFor (lazySafe second) y) members outputs) :
    ∃ finish, AllAccept (lazySafe second) y members outputs later finish := by
  induction accept generalizing later with
  | nil => exact ⟨later, .nil⟩
  | cons returned _ ih =>
    obtain ⟨back, others⟩ := List.forall_mem_cons.mp idempotent
    cases takes with
    | cons taken takes =>
      obtain ⟨_, again⟩ := back _ _ _ _ returned later
      obtain ⟨between, given⟩ := taken _ _ again
      obtain ⟨finish, further⟩ := ih others takes
      exact ⟨finish, .cons given further⟩

end Rule

namespace Validator

open Rule SafeForm

/-- Parts that give their outputs back make a choice that does, unless an option that refused the
input diverts the output. They make a conjunction that does exactly when the members answer the
joined output in turn with answers that join to it again; so it does whenever the members take the
joined output for their own. -/
theorem alternatives_give_back (parts : List Validator) (x y : Value) (world later : World)
    (idempotent : ∀ part ∈ parts, part.rule.Idempotent (world.budget x) (later.budget y)) :
    (∀ v after, union parts = .ok v → (v.safe x).Returns world y after →
      ∃ before option others reached, rules parts = before ++ option :: others ∧
        AllRefuse (lazySafe (world.budget x)) x before world reached ∧
        (option.safe (lazySafe (world.budget x)) x).Returns reached y after ∧
        ((∃ finish, (v.safe y).Returns later y finish) ↔
          NoneDiverts (lazySafe (later.budget y)) y before later)) ∧
    (∀ v after, intersect parts = .ok v → (v.safe x).Returns world y after →
      ∃ outputs, AllAccept (lazySafe (world.budget x)) x (rules parts) outputs world after ∧
        outputs.foldl joinOutput (.dict []) = y ∧
        ((∃ finish, (v.safe y).Returns later y finish) ↔
          ∃ answers,
            AnswerInTurn (lazySafe (later.budget y)) y (rules parts) outputs answers later ∧
            answers.foldl joinOutput (.dict []) = y) ∧
        (List.Forall₂ (TakesFor (lazySafe (later.budget y)) y) (rules parts) outputs →
          ∃ finish, (v.safe y).Returns later y finish)) := by
  have ofRules : ∀ rule ∈ rules parts, rule.Idempotent (world.budget x) (later.budget y) := by
    intro rule inside
    obtain ⟨part, member, rfl⟩ := List.mem_map.mp inside
    exact idempotent part member
  constructor
  · intro v after built accepted
    obtain ⟨-, rfl⟩ := nonempty_of_made built
    simp only [returns_safe] at accepted ⊢
    obtain ⟨before, option, others, reached, split, refuse, returned⟩ :=
      returns_firstMatch.mp accepted
    have member : option ∈ rules parts := by
      rw [split]
      exact List.mem_append_right _ (List.mem_cons_self ..)
    have back := ofRules option member x y reached after returned
    refine ⟨before, option, others, reached, split, refuse, returned, ?_⟩
    have diverts : (∃ finish, (SafeForm.union (safeAll (lazySafe (later.budget y))
        (before ++ option :: others)) y).Returns later y finish) ↔
          NoneDiverts (lazySafe (later.budget y)) y before later := gives_back_iff_noneDiverts back
    rw [← split] at diverts
    exact diverts
  · intro v after built accepted
    obtain ⟨-, rfl⟩ := nonempty_of_made built
    simp only [returns_safe] at accepted ⊢
    obtain ⟨outputs, accept, joined⟩ := returns_intersectFrom.mp accepted
    have accepts :
      (∃ finish, (SafeForm.intersect (safeAll (lazySafe (later.budget y)) (rules parts)) y).Returns
        later y finish) ↔ ∃ answers finish,
          AllAccept (lazySafe (later.budget y)) y (rules parts) answers later finish ∧
            answers.foldl joinOutput (.dict []) = y := by
      simp only [SafeForm.intersect, returns_intersectFrom]
      exact exists_comm
    refine ⟨outputs, accept, joined, accepts.trans ⟨?_, ?_⟩, fun takes => accepts.mpr ?_⟩
    · rintro ⟨answers, finish, again, rejoined⟩
      exact ⟨answers, again.answerInTurn accept.length_eq, rejoined⟩
    · rintro ⟨answers, inTurn, rejoined⟩
      obtain ⟨finish, again⟩ := accept.of_answerInTurn ofRules inTurn
      exact ⟨answers, finish, again, rejoined⟩
    · obtain ⟨finish, again⟩ := accept.again ofRules takes
      exact ⟨outputs, finish, again, joined⟩

/-- An object with an optional name. -/
private def named : Validator := .object [(.str "a", .optional (.leaf .string))]

/-- An object with a count. -/
private def counted : Validator := .object [(.str "b", .leaf .integer)]

/-- An object with a count in an object of its own. -/
private def within (key : String) : Validator :=
  .object [(.str "n", .object [(.str key, .leaf .integer)])]

private theorem normalises_field {key : Value} {rule : Rule} (part : rule.Normalises) :
    Rule.Normalises (.object [(key, rule)]) :=
  .object (List.pairwise_singleton ..) (List.forall_mem_singleton.mpr part)

private theorem named_normalises : named.rule.Normalises :=
  normalises_field (.accepting (.leaf .string))

private theorem counted_normalises : counted.rule.Normalises := normalises_field (.leaf .integer)

private theorem within_normalises (key : String) : (within key).rule.Normalises :=
  normalises_field (normalises_field (.leaf .integer))

private theorem mapping_of_object {fields : List (Value × Rule)}
    {onLazy : Nat → SafeForm} {x y : Value}
    {world after : World} (returned : ((Rule.object fields).safe onLazy x).Returns world y after) :
    y.entries?.isSome := by
  simp only [Rule.safe, SafeForm.object, Checked.returns_bind, Checked.returns_pure] at returned
  obtain ⟨entries, between, -, out, reached, -, rfl, -⟩ := returned
  rfl

/-- Objects that give their outputs back, all of them dictionaries. An object without a name takes
the output of one with a count, and drops the count; joined to an object under the same key, an
output loses what it needs there. -/
theorem not_all_alternatives_give_back :
    (∀ part ∈ [named, counted, within "a", within "b"],
      (∀ first second, part.rule.Idempotent first second) ∧
        ∀ budget x y world after, (part.rule.safe (lazySafe budget) x).Returns world y after →
          y.entries?.isSome) ∧
    (∃ v, union [named, counted] = .ok v ∧
      (v.safe (.dict [(.str "a", .int 1), (.str "b", .int 2)])).Returns (World.initial "")
        (.dict [(.str "b", .int 2)]) (World.initial "") ∧
      (v.safe (.dict [(.str "b", .int 2)])).Returns (World.initial "") (.dict [])
        (World.initial "")) ∧
    ∃ v failure, intersect [within "a", within "b"] = .ok v ∧
      (v.safe (.dict [(.str "n", .dict [(.str "a", .int 1), (.str "b", .int 2)])])).Returns
        (World.initial "") (.dict [(.str "n", .dict [(.str "b", .int 2)])]) (World.initial "") ∧
      (v.safe (.dict [(.str "n", .dict [(.str "b", .int 2)])])).Reports (World.initial "") failure
        (World.initial "") := by
  refine ⟨?_, ⟨_, rfl, rfl, rfl⟩, ⟨_, _, rfl, rfl, rfl⟩⟩
  intro part inside
  have objects : part.rule.Normalises ∧ ∃ fields, part.rule = .object fields := by
    simp only [List.mem_cons, List.not_mem_nil, or_false] at inside
    rcases inside with rfl | rfl | rfl | rfl
    · exact ⟨named_normalises, _, rfl⟩
    · exact ⟨counted_normalises, _, rfl⟩
    · exact ⟨within_normalises "a", _, rfl⟩
    · exact ⟨within_normalises "b", _, rfl⟩
  obtain ⟨normalises, fields, object⟩ := objects
  refine ⟨normalises.idempotent, fun budget x y world after returned => ?_⟩
  rw [object] at returned
  exact mapping_of_object returned

private theorem both_idempotent :
    ∀ part ∈ [counted, named], ∀ first second, part.rule.Idempotent first second := by
  intro part inside
  simp only [List.mem_cons, List.not_mem_nil, or_false] at inside
  rcases inside with rfl | rfl
  · exact counted_normalises.idempotent
  · exact named_normalises.idempotent

/-- Tried with the count first, the choice between the two gives a name back; joined, both fields
are. -/
theorem named_and_counted_give_back :
    (∀ part ∈ [counted, named], ∀ first second, part.rule.Idempotent first second) ∧
    (∃ v, union [counted, named] = .ok v ∧
      (v.safe (.dict [(.str "a", .str "s"), (.str "c", .null)])).Returns (World.initial "")
        (.dict [(.str "a", .str "s")]) (World.initial "") ∧
      ∃ finish, (v.safe (.dict [(.str "a", .str "s")])).Returns (World.initial "")
        (.dict [(.str "a", .str "s")]) finish) ∧
    ∃ v, intersect [counted, named] = .ok v ∧
      (v.safe (.dict [(.str "a", .str "s"), (.str "b", .int 2)])).Returns (World.initial "")
        (.dict [(.str "b", .int 2), (.str "a", .str "s")]) (World.initial "") ∧
      (∀ budget,
        List.Forall₂ (TakesFor (lazySafe budget) (.dict [(.str "b", .int 2), (.str "a", .str "s")]))
        (rules [counted, named]) [.dict [(.str "b", .int 2)], .dict [(.str "a", .str "s")]]) ∧
      ∃ finish,
        (v.safe (.dict [(.str "b", .int 2), (.str "a", .str "s")])).Returns (World.initial "")
        (.dict [(.str "b", .int 2), (.str "a", .str "s")]) finish := by
  have takes : ∀ budget, List.Forall₂
      (TakesFor (lazySafe budget) (.dict [(.str "b", .int 2), (.str "a", .str "s")]))
      (rules [counted, named]) [.dict [(.str "b", .int 2)], .dict [(.str "a", .str "s")]] :=
        fun budget =>
    .cons (fun now _ _ => ⟨now, rfl⟩) (.cons (fun now _ _ => ⟨now, rfl⟩) .nil)
  refine ⟨both_idempotent, ⟨_, rfl, rfl, ?_⟩, ⟨_, rfl, rfl, takes, ?_⟩⟩
  · obtain ⟨before, option, others, reached, split, refuse, returned, back⟩ :=
      (alternatives_give_back [counted, named] (.dict [(.str "a", .str "s"), (.str "c", .null)])
        (.dict [(.str "a", .str "s")]) (World.initial "") (World.initial "")
        fun part inside => both_idempotent part inside _ _).1 _ _ rfl rfl
    have refused :
      (counted.rule.safe (lazySafe ((World.initial "").budget (.dict [(.str "a", .str "s"),
        (.str "c", .null)]))) (.dict [(.str "a", .str "s"), (.str "c", .null)])).Reports
          (World.initial "")
          ⟨.str "b: Expected integer",
            ⟨.str "Expected integer", [.str "b"], .missing, some "integer",
            none⟩, []⟩ (World.initial "") := rfl
    rcases before with _ | ⟨first, _ | ⟨second, further⟩⟩
    · obtain ⟨rfl, -⟩ := List.cons.inj split
      cases refuse
      cases refused.symm.trans returned
    · obtain ⟨rfl, -⟩ := List.cons.inj split
      exact back.mpr (.refuses rfl .nil)
    · simp [rules] at split
  · obtain ⟨outputs, accept, -, -, back⟩ :=
      (alternatives_give_back [counted, named] (.dict [(.str "a", .str "s"), (.str "b", .int 2)])
        (.dict [(.str "b", .int 2), (.str "a", .str "s")]) (World.initial "") (World.initial "")
        fun part inside => both_idempotent part inside _ _).2 _ _ rfl rfl
    have first :
      (counted.rule.safe (lazySafe ((World.initial "").budget (.dict [(.str "a", .str "s"),
        (.str "b", .int 2)]))) (.dict [(.str "a", .str "s"), (.str "b", .int 2)])).Returns
          (World.initial "") (.dict [(.str "b", .int 2)]) (World.initial "") := rfl
    have second :
      (named.rule.safe (lazySafe ((World.initial "").budget (.dict [(.str "a", .str "s"),
        (.str "b", .int 2)]))) (.dict [(.str "a", .str "s"), (.str "b", .int 2)])).Returns
          (World.initial "") (.dict [(.str "a", .str "s")]) (World.initial "") := rfl
    cases accept with
    | cons returned accept =>
      cases first.symm.trans returned
      cases accept with
      | cons returned accept =>
        cases second.symm.trans returned
        cases accept
        exact back (takes _)

end Validator

end Conform
