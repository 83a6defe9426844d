import Conform.Proofs.Evaluation.Reaches

/-!
What breaks the evaluation of a rule off. A guard around a callback lets some faults through, and
what a construction does with the outputs and the failures of its parts is not guarded at all: an
output that cannot be a key or an item of a set, one that is no dictionary where its entries are
needed, and a message about a value that cannot be written. `Rule.Jams` lists all of it: a rule that
ends in a fault jams, or a part does that its evaluation comes to (`Rule.jams_or_runs`).
-/
namespace Conform

namespace Fault

/-- No guard reports the fault as a failure. -/
def Uncaught (fault : Fault) : Prop := ∀ default, fault.caught? default = none

theorem uncaught_of_caught? {fault : Fault} {default : Value}
    (escaped : fault.caught? default = none) :
    fault.Uncaught := by
  intro other
  cases fault with
  | invalid => cases escaped
  | leaving => rfl
  | misuse | ordinary => simpa [caught?] using escaped

/-- What is not caught is a request to leave, or it has no text. -/
theorem Uncaught.passed_eq {fault : Fault} (uncaught : fault.Uncaught) :
    (∃ kind text, fault = .leaving kind text) ∨ fault.passed = .misuse .unwritableInteger := by
  have escaped := uncaught .null
  cases fault with
  | leaving kind text => exact .inl ⟨kind, text, rfl⟩
  | invalid => cases escaped
  | misuse | ordinary =>
    refine .inr (if_neg ?_)
    simpa [caught?] using escaped

end Fault

namespace Rule

open Checked SafeForm

variable (onLazy : Nat → SafeForm)

/-- A callback that a rule guards ends in a fault when the evaluation of the rule has come to it. -/
inductive Errs : Rule → Value → World → Fault → World → Prop where
  | check {test : Check} {message : String} {x : Value} {world : World} {raised : Fault}
      {trace : Trace} :
      (answer test x).Faults world.trace raised trace →
      Errs (.check test message) x world raised (world.traced trace)
  | plain {function : Callable} {x : Value} {world : World} {raised : Fault} {trace : Trace} :
      (function.run x).Faults world.trace raised trace →
      Errs (.plain function) x world raised (world.traced trace)
  | convert {function : Callable} {failure : String} {x : Value} {world : World} {raised : Fault}
      {trace : Trace} :
      (function.run x).Faults world.trace raised trace →
      Errs (.convert function failure) x world raised (world.traced trace)
  | tryConvert {program : List FailStep} {x : Value} {world : World} {raised : Fault}
      {trace : Trace} :
      (FailStep.run program x).Faults world.trace raised trace →
      Errs (.tryConvert program) x world raised (world.traced trace)
  | rawCheck {program : List IssueStep} {x : Value} {world : World} {raised : Fault}
      {trace : Trace} :
      (IssueStep.run program x).Faults world.trace raised trace →
      Errs (.rawCheck program) x world raised (world.traced trace)
  | rawConvert {program : List IssueStep} {x : Value} {world : World} {raised : Fault}
      {trace : Trace} :
      (IssueStep.run program x).Faults world.trace raised trace →
      Errs (.rawConvert program) x world raised (world.traced trace)
  | crossCheck {paths : List (List Value)} {test : Callable} {message : String} {x : Value}
      {world : World} {raised : Fault} {trace : Trace} :
      (test.run x).Faults world.trace raised trace →
      Errs (.crossCheck paths test message) x world raised (world.traced trace)
  | items {quantifier : Quantifier} {test : Callable} {message : String} {x : Value}
      {items : List Value} {world : World} {raised : Fault} {trace : Trace} :
      x.items? = some items → (quantify quantifier test items).Faults world.trace raised trace →
      Errs (.items quantifier test message) x world raised (world.traced trace)
  | refine {inner : Rule} {test : Callable} {message : String} {x y : Value} {world reached : World}
      {raised : Fault} {trace : Trace} :
      (inner.safe onLazy x).Returns world y reached →
      (test.run y).Faults reached.trace raised trace →
      Errs (.refine inner test message) x world raised (reached.traced trace)
  | transform {inner : Rule} {function : Callable} {failure : String} {x y : Value}
      {world reached : World} {raised : Fault} {trace : Trace} :
      (inner.safe onLazy x).Returns world y reached →
      (function.run y).Faults reached.trace raised trace →
      Errs (.transform inner function failure) x world raised (reached.traced trace)
  | preprocess {function : Callable} {inner : Rule} {x : Value} {world : World} {raised : Fault}
      {trace : Trace} :
      (function.run x).Faults world.trace raised trace →
      Errs (.preprocess function inner) x world raised (world.traced trace)
  | retitle {inner : Rule} {render : Callable} {x : Value} {failure : Failure}
      {world reached : World}
      {raised : Fault} {trace : Trace} :
      (inner.safe onLazy x).Reports world failure reached →
      (render.run x).Faults reached.trace raised trace →
      Errs (.retitle inner (.computed render)) x world raised (reached.traced trace)

variable {onLazy} {world after : World} {fault : Fault}

/-- A fault that is not caught leaves the rule. -/
theorem Errs.faults {rule : Rule} {x : Value} {raised : Fault}
    (errs : rule.Errs onLazy x world raised after) (uncaught : raised.Uncaught) :
    (rule.safe onLazy x).Faults world raised.passed after := by
  have guards : ∀ {α : Type} {run : Traced α} {reached : World} {trace : Trace} (default : Value),
      run.Faults reached.trace raised trace →
      (guarded default run).Faults reached raised.passed (reached.traced trace) :=
    fun default ran => faults_guarded.mpr ⟨raised, _, ran, uncaught default, rfl, rfl⟩
  cases errs with
  | plain ran | convert ran => exact guards _ ran
  | check ran | tryConvert ran | rawCheck ran | rawConvert ran | crossCheck ran | preprocess ran =>
    exact faults_bind.mpr (.inl (guards _ ran))
  | items listed ran =>
    refine faults_bind.mpr (.inr ⟨_, world, returns_itemsOf.mpr ⟨listed, rfl⟩, ?_⟩)
    exact faults_bind.mpr (.inl (guards _ ran))
  | refine returned ran =>
    exact faults_bind.mpr (.inr ⟨_, _, returned, faults_bind.mpr (.inl (guards _ ran))⟩)
  | transform returned ran => exact faults_bind.mpr (.inr ⟨_, _, returned, guards _ ran⟩)
  | retitle reported ran =>
    refine faults_attempt_bind.mpr (.inr (.inr ⟨_, _, reported, ?_⟩))
    exact faults_bind.mpr (.inl (guards _ ran))

/-- A form refuses an input, and there are no words to report that in. -/
def Unsaid (form : SafeForm) (x : Value) (wording : Failure → Option Failure)
    (world after : World) : Prop :=
  ∃ failure, (form x).Reports world failure after ∧ wording failure = none

/-- Put into words, a form faults as it did before, or because it cannot be put into words. -/
private theorem faults_reworded {form : SafeForm} {x : Value} {wording : Failure → Option Failure} :
    (reword wording (form x)).Faults world fault after ↔
      (form x).Faults world fault after ∨
        Unsaid form x wording world after ∧ .misuse .unwritableInteger = fault := by
  rw [faults_reword]
  unfold Unsaid
  constructor
  · rintro (early | ⟨failure, reported, unworded, rfl⟩)
    · exact .inl early
    · exact .inr ⟨⟨failure, reported, unworded⟩, rfl⟩
  · rintro (early | ⟨⟨failure, reported, unworded⟩, rfl⟩)
    · exact .inl early
    · exact .inr ⟨failure, reported, unworded, rfl⟩

/-- Steps fault where the one that they come to faults. -/
private theorem faults_pipe {parts : List Rule} {x : Value} :
    (SafeForm.pipe (safeAll onLazy parts) x).Faults world fault after ↔
      ∃ before part others y reached, parts = before ++ part :: others ∧
        (SafeForm.pipe (safeAll onLazy before) x).Returns world y reached ∧
        (part.safe onLazy y).Faults reached fault after := by
  induction parts generalizing x world with
  | nil => simp [safeAll, SafeForm.pipe]
  | cons first rest ih =>
    simp only [safeAll, SafeForm.pipe, faults_bind, ih]
    constructor
    · rintro (faulted | ⟨y, between, returned, before, part, others, z, reached, rfl, ran, faulted⟩)
      · exact ⟨[], first, rest, x, world, rfl, by simp [safeAll, SafeForm.pipe], faulted⟩
      · refine ⟨first :: before, part, others, z, reached, rfl, ?_, faulted⟩
        exact returns_bind.mpr ⟨y, between, returned, ran⟩
    · rintro ⟨before, part, others, z, reached, split, ran, faulted⟩
      cases before with
      | nil =>
        obtain ⟨rfl, rfl⟩ := List.cons.inj split
        obtain ⟨rfl, rfl⟩ := returns_pure.mp ran
        exact .inl faulted
      | cons head before =>
        obtain ⟨rfl, rfl⟩ := List.cons.inj split
        obtain ⟨y, between, returned, ran⟩ := returns_bind.mp ran
        exact .inr ⟨y, between, returned, before, part, others, z, reached, rfl, ran, faulted⟩

/-- A choice faults at an option after refusals, or where none accepts and it cannot say so. -/
private theorem faults_firstMatch {otherwise : Checked Value} {options : List Rule} {x : Value} :
    (firstMatch otherwise (safeAll onLazy options) x).Faults world fault after ↔
      (∃ before part others reached, options = before ++ part :: others ∧
        AllRefuse onLazy x before world reached ∧ (part.safe onLazy x).Faults reached fault after) ∨
      ∃ reached, AllRefuse onLazy x options world reached ∧
        otherwise.Faults reached fault after := by
  induction options generalizing world with
  | nil =>
    simp only [safeAll, firstMatch]
    constructor
    · exact fun faulted => .inr ⟨world, .nil, faulted⟩
    · rintro (⟨before, part, others, reached, split, -, -⟩ | ⟨reached, refuse, faulted⟩)
      · cases before <;> cases split
      · cases refuse
        exact faulted
  | cons first rest ih =>
    simp only [safeAll, firstMatch, faults_attempt_bind, faults_pure, and_false, exists_false,
      false_or, ih]
    constructor
    · rintro (faulted | ⟨refused, between, reported, ⟨before, part, others, reached, rfl, refuse,
        faulted⟩ | ⟨reached, refuse, faulted⟩⟩)
      · exact .inl ⟨[], first, rest, world, rfl, .nil, faulted⟩
      · exact .inl ⟨first :: before, part, others, reached, rfl, .cons reported refuse, faulted⟩
      · exact .inr ⟨reached, .cons reported refuse, faulted⟩
    · rintro (⟨before, part, others, reached, split, refuse, faulted⟩ | ⟨reached, refuse, faulted⟩)
      · cases refuse with
        | nil =>
          obtain ⟨rfl, rfl⟩ := List.cons.inj split
          exact .inl faulted
        | cons reported refuse =>
          obtain ⟨rfl, rfl⟩ := List.cons.inj split
          exact .inr ⟨_, _, reported, .inl ⟨_, part, others, reached, rfl, refuse, faulted⟩⟩
      · cases refuse with
        | cons reported refuse => exact .inr ⟨_, _, reported, .inr ⟨reached, refuse, faulted⟩⟩

/-- Items of a set fault where one does, cannot say what is wrong, or cannot be an item. -/
private theorem faults_eachElement {item : Rule} {i : Nat} {xs : List Value} :
    (eachElement (item.safe onLazy) i xs).Faults world fault after ↔
      ∃ before y others reached, xs = before ++ y :: others ∧
        ItemsPass onLazy item before world reached ∧
        ((item.safe onLazy y).Faults reached fault after ∨
          Unsaid (item.safe onLazy) y (Failure.placed? (.element (i + before.length)))
            reached after ∧
            .misuse .unwritableInteger = fault ∨
          ∃ out found, (item.safe onLazy y).Returns reached out after ∧
            out.unhashable? = some found ∧ .misuse (.unhashable found) = fault) := by
  induction xs generalizing i world with
  | nil => simp [eachElement]
  | cons x rest ih =>
    have next : ∀ before : List Value, i + 1 + before.length = i + (x :: before).length := by
      intro before
      rw [List.length_cons, Nat.add_assoc, Nat.add_comm 1]
    simp only [eachElement, Checked.within, faults_bind, faults_reworded, returns_reword,
      faults_requireHashable, returns_requireHashable, faults_pure, and_false,
        exists_false, or_false,
      ih]
    constructor
    · rintro ((faulted | unsaid) | ⟨out, between, returned,
        ⟨found, unhashable, rfl, rfl⟩ | ⟨done, last,
        ⟨hashable, rfl⟩, before, y, others, reached, rfl, pass, ending⟩⟩)
      · exact ⟨[], x, rest, world, rfl, .nil, .inl faulted⟩
      · exact ⟨[], x, rest, world, rfl, .nil, .inr (.inl unsaid)⟩
      · exact ⟨[], x, rest, world, rfl, .nil, .inr (.inr ⟨out, found, returned, unhashable, rfl⟩)⟩
      · rw [next] at ending
        exact ⟨x :: before, y, others, reached, rfl, .cons returned hashable pass, ending⟩
    · rintro ⟨before, y, others, reached, split, pass, ending⟩
      cases pass with
      | nil =>
        obtain ⟨rfl, rfl⟩ := List.cons.inj split
        rcases ending with faulted | unsaid | ⟨out, found, returned, unhashable, rfl⟩
        · exact .inl (.inl faulted)
        · exact .inl (.inr unsaid)
        · exact .inr ⟨out, after, returned, .inl ⟨found, unhashable, rfl, rfl⟩⟩
      | cons returned hashable pass =>
        obtain ⟨rfl, rfl⟩ := List.cons.inj split
        rw [← next] at ending
        exact .inr ⟨_, _, returned,
          .inr ⟨(), _, ⟨hashable, rfl⟩, _, y, others, reached, rfl, pass, ending⟩⟩

/-- Entries fault where a key or a value does, cannot say what is wrong, or cannot be stored. -/
private theorem faults_eachEntry {onKey : Value → Failure → Option Failure}
    {onValue : Value → Place} {keys values : Rule} {entries out : List (Value × Value)} :
    (eachEntry onKey onValue (keys.safe onLazy) (values.safe onLazy) entries out).Faults world fault
        after ↔
      ∃ before key item others reached, entries = before ++ (key, item) :: others ∧
        EntriesPass onLazy keys values before world reached ∧
        ((keys.safe onLazy key).Faults reached fault after ∨
          Unsaid (keys.safe onLazy) key (onKey key) reached after ∧
            .misuse .unwritableInteger = fault ∨
          ∃ k between, (keys.safe onLazy key).Returns reached k between ∧
            ((values.safe onLazy item).Faults between fault after ∨
              Unsaid (values.safe onLazy) item (Failure.placed? (onValue key)) between after ∧
                .misuse .unwritableInteger = fault ∨
              ∃ y found, (values.safe onLazy item).Returns between y after ∧
                k.unhashable? = some found ∧ .misuse (.unhashable found) = fault)) := by
  induction entries generalizing out world with
  | nil => simp [eachEntry]
  | cons entry rest ih =>
    simp only [eachEntry, Checked.within, faults_bind, faults_reworded, returns_reword,
      faults_requireHashable, returns_requireHashable, ih]
    constructor
    · rintro ((faulted | unsaid) | ⟨k, between, returned, (faulted | unsaid) | ⟨y, later, output,
        ⟨found, unhashable, rfl, rfl⟩ | ⟨done, next, ⟨hashable, rfl⟩, before, key, item, others,
          reached, rfl, pass, ending⟩⟩⟩)
      · exact ⟨[], entry.1, entry.2, rest, world, rfl, .nil, .inl faulted⟩
      · exact ⟨[], entry.1, entry.2, rest, world, rfl, .nil, .inr (.inl unsaid)⟩
      · exact ⟨[], entry.1, entry.2, rest, world, rfl, .nil,
          .inr (.inr ⟨k, between, returned, .inl faulted⟩)⟩
      · exact ⟨[], entry.1, entry.2, rest, world, rfl, .nil,
          .inr (.inr ⟨k, between, returned, .inr (.inl unsaid)⟩)⟩
      · exact ⟨[], entry.1, entry.2, rest, world, rfl, .nil,
          .inr (.inr ⟨k, between, returned, .inr (.inr ⟨y, found, output, unhashable, rfl⟩)⟩)⟩
      · exact ⟨entry :: before, key, item, others, reached, rfl,
          .cons returned output hashable pass, ending⟩
    · rintro ⟨before, key, item, others, reached, split, pass, ending⟩
      cases pass with
      | nil =>
        obtain ⟨rfl, rfl⟩ := List.cons.inj split
        rcases ending with faulted | unsaid | ⟨k, between, returned, faulted | unsaid |
          ⟨y, found, output, unhashable, rfl⟩⟩
        · exact .inl (.inl faulted)
        · exact .inl (.inr unsaid)
        · exact .inr ⟨k, between, returned, .inl (.inl faulted)⟩
        · exact .inr ⟨k, between, returned, .inl (.inr unsaid)⟩
        · exact .inr ⟨k, between, returned,
            .inr ⟨y, after, output, .inl ⟨found, unhashable, rfl, rfl⟩⟩⟩
      | cons returned output hashable pass =>
        obtain ⟨rfl, rfl⟩ := List.cons.inj split
        exact .inr ⟨_, _, returned, .inr ⟨_, _, output,
          .inr ⟨(), _, ⟨hashable, rfl⟩, _, key, item, others, reached, rfl, pass, ending⟩⟩⟩

/-- How a rule for the entries of a dictionary reports the failure of a key. -/
def keyWords : Rule → Value → Failure → Option Failure
  | .record _ _, key => invalidKey? key
  | _, key => Failure.placed? (.mapKey key)

/-- Where a rule for the entries of a dictionary reports the failure of a value from. -/
def valuePlace : Rule → Value → Place
  | .record _ _, key => .recordEntry key
  | _, key => .mapEntry key

private theorem faults_set {item : Rule} {x : Value} {xs : List Value}
    (held : x.elements? = some xs) :
    ((Rule.set item).safe onLazy x).Faults world fault after ↔
      (eachElement (item.safe onLazy) 0 xs).Faults world fault after := by
  simp only [safe, SafeForm.set, held, faults_bind, faults_pure, and_false, exists_false, or_false]

/-- Dictionaries fault as the walk over their entries does. -/
private theorem faults_entries {rule keys values : Rule} {x : Value}
    {entries : List (Value × Value)}
    (parts : rule.entryParts? = some (keys, values)) (held : x.entries? = some entries) :
    (rule.safe onLazy x).Faults world fault after ↔
      (eachEntry rule.keyWords rule.valuePlace (keys.safe onLazy) (values.safe onLazy) entries
        []).Faults world fault after := by
  have traversal : ∀ (refused : Failure) (build : List (Value × Value) →
      Checked (List (Value × Value))),
        (entriesOf refused x >>= fun entries => do
          let out ← build entries
          pure (Value.dict out)).Faults world fault after ↔
        (build entries).Faults world fault after := by
    intro refused build
    rw [faults_entriesOf_bind]
    simp only [held, Option.some.injEq, exists_eq_left', faults_bind, faults_pure, and_false,
      exists_false, or_false]
  cases rule with
  | record =>
    cases parts
    exact traversal _ _
  | map =>
    cases parts
    exact traversal _ _
  | _ => cases parts

variable (onLazy) in
/-- The evaluation of a rule breaks off of its own accord, and not because that of a part does. -/
inductive Jams : Rule → Value → World → Fault → World → Prop where
  | callback {rule : Rule} {x : Value} {raised : Fault} {world after : World} :
      rule.Errs onLazy x world raised after → raised.Uncaught →
      Jams rule x world raised.passed after
  | resulting {function : ResultCallable} {x : Value} {fault : Fault} {world : World}
      {trace : Trace} :
      (function.run x).Faults world.trace fault trace →
      Jams (.resulting function) x world fault (world.traced trace)
  | paired {function : Callable} {result : ResultCallable} {x : Value} {fault : Fault}
      {world : World}
      {trace : Trace} :
      (result.run x).Faults world.trace fault trace →
      Jams (.paired function result) x world fault (world.traced trace)
  | visit {rule : Rule} {x : Value} {before others : List Visit} {visit : Visit} {ys : List Value}
      {world reached after : World} :
      rule.visits? x = some (before ++ visit :: others) →
      (runVisits onLazy before).Returns world ys reached →
      Unsaid (visit.rule.safe onLazy) visit.value (Failure.visited? visit.place) reached after →
      Jams rule x world (.misuse .unwritableInteger) after
  | element {item : Rule} {x y : Value} {before others : List Value} {world reached after : World} :
      x.elements? = some (before ++ y :: others) → ItemsPass onLazy item before world reached →
      Unsaid (item.safe onLazy) y (Failure.placed? (.element before.length)) reached after →
      Jams (.set item) x world (.misuse .unwritableInteger) after
  | item {item : Rule} {x y out : Value} {found : String} {before others : List Value}
      {world reached after : World} :
      x.elements? = some (before ++ y :: others) → ItemsPass onLazy item before world reached →
      (item.safe onLazy y).Returns reached out after → out.unhashable? = some found →
      Jams (.set item) x world (.misuse (.unhashable found)) after
  | key {rule keys values : Rule} {x key item : Value} {before others : List (Value × Value)}
      {world reached after : World} :
      rule.entryParts? = some (keys, values) → x.entries? = some (before ++ (key, item) :: others) →
      EntriesPass onLazy keys values before world reached →
      Unsaid (keys.safe onLazy) key (rule.keyWords key) reached after →
      Jams rule x world (.misuse .unwritableInteger) after
  | value {rule keys values : Rule} {x key item k : Value} {before others : List (Value × Value)}
      {world reached between after : World} :
      rule.entryParts? = some (keys, values) → x.entries? = some (before ++ (key, item) :: others) →
      EntriesPass onLazy keys values before world reached →
      (keys.safe onLazy key).Returns reached k between →
      Unsaid (values.safe onLazy) item (Failure.placed? (rule.valuePlace key)) between after →
      Jams rule x world (.misuse .unwritableInteger) after
  | entry {rule keys values : Rule} {x key item k y : Value} {found : String}
      {before others : List (Value × Value)} {world reached between after : World} :
      rule.entryParts? = some (keys, values) → x.entries? = some (before ++ (key, item) :: others) →
      EntriesPass onLazy keys values before world reached →
      (keys.safe onLazy key).Returns reached k between →
      (values.safe onLazy item).Returns between y after → k.unhashable? = some found →
      Jams rule x world (.misuse (.unhashable found)) after
  | output {inner : Rule} {x out : Value} {entries : List (Value × Value)} {world after : World} :
      x.entries? = some entries → (inner.safe onLazy x).Returns world out after →
      out.entries? = none → Jams (.passthrough inner) x world
        (.misuse (.notMapping out.typeName)) after
  | absent {declared : List Value} {inner : Rule} {x y key : Value}
      {entries out : List (Value × Value)} {world after : World} :
      x.entries? = some entries → (inner.safe onLazy x).Returns world y after →
      y.entries? = some out → firstAbsent? declared out = some key → key.isWritable = false →
      Jams (.required declared inner) x world (.misuse .unwritableInteger) after
  | discriminator {options : List Rule} {x key : Value} {found : String}
      {entries : List (Value × Value)} {world after : World} :
      x.entries? = some entries → AllRefuse onLazy x options world after →
      key.unhashable? = some found →
      Jams (.variant key options) x world (.misuse (.unhashable found)) after
  | variant {options : List Rule} {x key : Value} {entries : List (Value × Value)}
      {world after : World} :
      x.entries? = some entries → AllRefuse onLazy x options world after →
      key.unhashable? = none →
      (key.isWritable && ((Entries.get? entries key).getD .missing).isWritable) = false →
      Jams (.variant key options) x world (.misuse .unwritableInteger) after

/-- A required key faults where its name cannot be written. -/
private theorem faults_absent {declared : List Value} {out : List (Value × Value)} {y : Value} :
    (match firstAbsent? declared out with
      | some key => report (absentField.placed? (.key key))
      | none => pure y : Checked Value).Faults world fault after ↔
      ∃ key, firstAbsent? declared out = some key ∧ key.isWritable = false ∧
        .misuse .unwritableInteger = fault ∧ world = after := by
  have said : absentField.line.isWritable = true := rfl
  cases firstAbsent? declared out with
  | none => simp
  | some key =>
    simp [Failure.placed?_eq_none, Value.areWritable, Place.key, said]

/-- A discriminator faults where it cannot be looked up or what it shows cannot be written. -/
private theorem faults_noVariant {key : Value} {entries : List (Value × Value)} :
    (noVariant key entries).Faults world fault after ↔
      (∃ found, key.unhashable? = some found ∧ .misuse (.unhashable found) = fault ∧
        world = after) ∨
        key.unhashable? = none ∧
          (key.isWritable && ((Entries.get? entries key).getD .missing).isWritable) = false ∧
          .misuse .unwritableInteger = fault ∧ world = after := by
  simp only [noVariant, faults_bind, faults_requireHashable, returns_requireHashable]
  refine or_congr_right ?_
  generalize (key.isWritable && _) = shown
  cases shown with
  | true => simp
  | false =>
    constructor
    · rintro ⟨_, _, ⟨hashable, rfl⟩, late⟩
      exact ⟨hashable, rfl, faults_misuse.mp late⟩
    · rintro ⟨hashable, -, late⟩
      exact ⟨(), world, ⟨hashable, rfl⟩, faults_misuse.mpr late⟩

/-- What jams a rule ends it in a fault. -/
theorem Jams.faults {rule : Rule} {x : Value} (jams : rule.Jams onLazy x world fault after) :
    (rule.safe onLazy x).Faults world fault after := by
  cases jams with
  | callback errs uncaught => exact errs.faults uncaught
  | resulting ran => exact faults_bind.mpr (.inl (faults_perform.mpr ⟨_, ran, rfl⟩))
  | paired ran => exact faults_bind.mpr (.inl (faults_perform.mpr ⟨_, ran, rfl⟩))
  | visit given ran unsaid =>
    refine (faults_of_visits given).mpr (faults_runVisits.mpr ⟨_, _, _, _, _, rfl, ran, ?_⟩)
    exact faults_reworded.mpr (.inr ⟨unsaid, rfl⟩)
  | element elements pass unsaid =>
    refine (faults_set elements).mpr
      (faults_eachElement.mpr ⟨_, _, _, _, rfl, pass, .inr (.inl ?_)⟩)
    rw [Nat.zero_add]
    exact ⟨unsaid, rfl⟩
  | item elements pass returned unhashable =>
    exact (faults_set elements).mpr (faults_eachElement.mpr
      ⟨_, _, _, _, rfl, pass, .inr (.inr ⟨_, _, returned, unhashable, rfl⟩)⟩)
  | key parts entries pass unsaid =>
    exact (faults_entries parts entries).mpr (faults_eachEntry.mpr
      ⟨_, _, _, _, _, rfl, pass, .inr (.inl ⟨unsaid, rfl⟩)⟩)
  | value parts entries pass returned unsaid =>
    exact (faults_entries parts entries).mpr (faults_eachEntry.mpr
      ⟨_, _, _, _, _, rfl, pass, .inr (.inr ⟨_, _, returned, .inr (.inl ⟨unsaid, rfl⟩)⟩)⟩)
  | entry parts entries pass returned output unhashable =>
    exact (faults_entries parts entries).mpr (faults_eachEntry.mpr
      ⟨_, _, _, _, _, rfl, pass,
        .inr (.inr ⟨_, _, returned, .inr (.inr ⟨_, _, output, unhashable, rfl⟩)⟩)⟩)
  | output entries returned unfit =>
    refine faults_entriesOf_bind.mpr ⟨_, entries, ?_⟩
    refine faults_bind.mpr (.inr ⟨_, after, returned, ?_⟩)
    simp only [unfit, faults_misuse, and_self]
  | absent entries returned held absent unwritable =>
    refine faults_entriesOf_bind.mpr ⟨_, entries, ?_⟩
    refine faults_bind.mpr (.inr ⟨_, after, returned, ?_⟩)
    exact faults_entriesOf_bind.mpr
      ⟨_, held, faults_absent.mpr ⟨_, absent, unwritable, rfl, rfl⟩⟩
  | discriminator entries refuse unhashable =>
    refine faults_entriesOf_bind.mpr ⟨_, entries, faults_firstMatch.mpr (.inr ⟨after, refuse, ?_⟩)⟩
    exact faults_noVariant.mpr (.inl ⟨_, unhashable, rfl, rfl⟩)
  | variant entries refuse hashable unwritable =>
    refine faults_entriesOf_bind.mpr ⟨_, entries, faults_firstMatch.mpr (.inr ⟨after, refuse, ?_⟩)⟩
    exact faults_noVariant.mpr (.inr ⟨hashable, unwritable, rfl, rfl⟩)

/-- A fault of the one part that a rule runs first is a fault of the rule. -/
private theorem faults_inner {rule part : Rule} {x : Value} (runs : rule.inner? x = some part)
    (faulted : (part.safe onLazy x).Faults world fault after) :
    (rule.safe onLazy x).Faults world fault after := by
  cases rule with
  | accepting absence inner =>
    simp only [inner?] at runs
    split at runs <;> cases runs
    rename_i uncovered
    simp only [safe, SafeForm.accepting]
    rwa [if_neg uncovered]
  | withDefault inner value =>
    simp only [inner?] at runs
    split at runs <;> cases runs
    rename_i present
    simp only [safe, SafeForm.withDefault]
    rwa [if_neg present]
  | recovering inner value =>
    cases runs
    exact faults_attempt_bind.mpr (.inl faulted)
  | retitle inner source =>
    cases runs
    exact faults_attempt_bind.mpr (.inl faulted)
  | forward inner path =>
    cases runs
    exact faults_reword.mpr (.inl faulted)
  | rejecting absence inner =>
    cases runs
    exact faults_bind.mpr (.inl faulted)
  | refine inner test message =>
    cases runs
    exact faults_bind.mpr (.inl faulted)
  | transform inner function failure =>
    cases runs
    exact faults_bind.mpr (.inl faulted)
  | passthrough inner =>
    obtain ⟨entries, found, rfl⟩ := Option.map_eq_some_iff.mp runs
    refine faults_entriesOf_bind.mpr ⟨entries, found, ?_⟩
    exact faults_bind.mpr (.inl faulted)
  | lenient inner =>
    obtain ⟨entries, found, rfl⟩ := Option.map_eq_some_iff.mp runs
    refine faults_entriesOf_bind.mpr ⟨entries, found, ?_⟩
    exact faults_attempt_bind.mpr (.inl faulted)
  | required declared inner =>
    obtain ⟨entries, found, rfl⟩ := Option.map_eq_some_iff.mp runs
    refine faults_entriesOf_bind.mpr ⟨entries, found, ?_⟩
    exact faults_bind.mpr (.inl faulted)
  | _ => cases runs

/-- A fault of an option that a rule comes to is a fault of the rule. -/
private theorem faults_option {rule part : Rule} {before others : List Rule} {x : Value}
    {reached : World} (tries : rule.options x = before ++ part :: others)
    (refuse : AllRefuse onLazy x before world reached)
    (faulted : (part.safe onLazy x).Faults reached fault after) :
    (rule.safe onLazy x).Faults world fault after := by
  have impossible : ([] : List Rule) ≠ before ++ part :: others := by simp
  cases rule with
  | union options =>
    refine faults_firstMatch.mpr (.inl ⟨before, part, others, reached, ?_, refuse, faulted⟩)
    exact tries
  | discriminatedUnion options =>
    cases found : x.entries? with
    | none =>
      simp only [Rule.options, found, Option.elim_none] at tries
      exact absurd tries impossible
    | some entries =>
      simp only [Rule.options, found, Option.elim_some] at tries
      refine faults_entriesOf_bind.mpr ⟨entries, found, ?_⟩
      exact faults_firstMatch.mpr (.inl ⟨before, part, others, reached, tries, refuse, faulted⟩)
  | variant key options =>
    cases found : x.entries? with
    | none =>
      simp only [Rule.options, found, Option.elim_none] at tries
      exact absurd tries impossible
    | some entries =>
      simp only [Rule.options, found, Option.elim_some] at tries
      refine faults_entriesOf_bind.mpr ⟨entries, found, ?_⟩
      exact faults_firstMatch.mpr (.inl ⟨before, part, others, reached, tries, refuse, faulted⟩)
  | _ => exact absurd tries impossible

/-- A fault of a part that the evaluation comes to is a fault of the rule. -/
theorem Runs.faults {rule part : Rule} {x y : Value} {reached : World}
    (runs : Runs onLazy rule x world part y reached)
    (faulted : (part.safe onLazy y).Faults reached fault after) :
    (rule.safe onLazy x).Faults world fault after := by
  cases runs with
  | visit given ran =>
    exact (faults_of_visits given).mpr
      (faults_runVisits.mpr ⟨_, _, _, _, reached, rfl, ran, faults_reword.mpr (.inl faulted)⟩)
  | step ran => exact faults_pipe.mpr ⟨_, _, _, _, reached, rfl, ran, faulted⟩
  | inner runs => exact faults_inner runs faulted
  | input ran => exact faults_bind.mpr (.inr ⟨_, reached, ran, faulted⟩)
  | option tries refuse => exact faults_option tries refuse faulted
  | element elements pass =>
    exact (faults_set elements).mpr (faults_eachElement.mpr ⟨_, _, _, _, rfl, pass, .inl faulted⟩)
  | key parts entries pass =>
    exact (faults_entries parts entries).mpr (faults_eachEntry.mpr
      ⟨_, _, _, _, _, rfl, pass, .inl faulted⟩)
  | value parts entries pass returned =>
    exact (faults_entries parts entries).mpr (faults_eachEntry.mpr
      ⟨_, _, _, _, _, rfl, pass, .inr (.inr ⟨_, _, returned, .inl faulted⟩)⟩)

section Causes

variable {rule : Rule} {x : Value}

/-- What a guard lets through comes from the callback. -/
private theorem jams_of_guarded {α : Type} {run : Traced α} {default : Value} {reached : World}
    (errs : ∀ raised trace, run.Faults reached.trace raised trace →
      rule.Errs onLazy x world raised (reached.traced trace))
    (faulted : (guarded default run).Faults reached fault after) :
    rule.Jams onLazy x world fault after := by
  obtain ⟨raised, trace, ran, escaped, rfl, rfl⟩ := faults_guarded.mp faulted
  exact .callback (errs raised trace ran) (Fault.uncaught_of_caught? escaped)

private theorem not_faults_unlessIssues {issues : List Issue} {y : Value} :
    ¬(unlessIssues issues y).Faults world fault after := by
  cases issues with
  | nil => exact faults_pure
  | cons first others => exact faults_reject

/-- A rule that runs a callback jams with the faults of the callback. -/
private theorem jams_of_perform {run : Traced Outcome}
    (faulted : (perform run >>= ofOutcome).Faults world fault after)
    (jams : ∀ trace, run.Faults world.trace fault trace →
      rule.Jams onLazy x world fault (world.traced trace)) : rule.Jams onLazy x world
        fault after := by
  rcases faults_bind.mp faulted with early | ⟨outcome, _, _, late⟩
  · obtain ⟨trace, ran, rfl⟩ := faults_perform.mp early
    exact jams trace ran
  · cases outcome with
    | ok value => exact absurd late faults_pure
    | err failure => exact absurd late faults_reject

/-- A rule that has no parts jams by its callback. -/
private theorem jams_alone
    (alone : match rule with
      | .leaf _ | .instanceOf _ | .literal _ | .oneOf _ | .keyName _ | .check _ _ | .plain _
      | .resulting _ | .paired _ _ | .convert _ _ | .tryConvert _ | .rawCheck _ | .rawConvert _
      | .crossCheck _ _ _ | .items _ _ _ => True
      | _ => False)
    (faulted : (rule.safe onLazy x).Faults world fault after) :
    rule.Jams onLazy x world fault after := by
  cases rule with
  | leaf | instanceOf | literal | oneOf | keyName => exact absurd faulted faults_provided
  | plain => exact jams_of_guarded (fun _ _ => .plain) faulted
  | convert => exact jams_of_guarded (fun _ _ => .convert) faulted
  | resulting => exact jams_of_perform faulted fun _ => .resulting
  | paired => exact jams_of_perform faulted fun _ => .paired
  | check =>
    rcases faults_bind.mp faulted with early | ⟨_, _, _, late⟩
    · exact jams_of_guarded (fun _ _ => .check) early
    · exact absurd late faults_provided
  | crossCheck =>
    rcases faults_bind.mp faulted with early | ⟨_, _, _, late⟩
    · exact jams_of_guarded (fun _ _ => .crossCheck) early
    · exact absurd late faults_provided
  | rawCheck =>
    rcases faults_bind.mp faulted with early | ⟨_, _, _, late⟩
    · exact jams_of_guarded (fun _ _ => .rawCheck) early
    · exact absurd late not_faults_unlessIssues
  | rawConvert =>
    rcases faults_bind.mp faulted with early | ⟨_, _, _, late⟩
    · exact jams_of_guarded (fun _ _ => .rawConvert) early
    · exact absurd late not_faults_unlessIssues
  | tryConvert program =>
    rcases faults_bind.mp faulted with early | ⟨⟨message, y⟩, _, _, late⟩
    · exact jams_of_guarded (fun _ _ => .tryConvert) early
    · cases message with
      | none => exact absurd late faults_pure
      | some message =>
        simp only at late
        split at late
        · exact absurd late faults_reject
        · exact absurd late faults_pure
  | items quantifier test message =>
    rcases faults_bind.mp faulted with early | ⟨_, _, listed, late⟩
    · exact absurd early faults_itemsOf
    · obtain ⟨held, rfl⟩ := returns_itemsOf.mp listed
      rcases faults_bind.mp late with early | ⟨_, _, _, late⟩
      · exact jams_of_guarded (fun _ _ => .items held) early
      · exact absurd late faults_provided
  | _ => exact alone.elim

/-- Visits end in a fault at one of them, by its rule or for want of words. -/
private theorem visit_jams_or_runs (structural : rule.isStructural = true)
    (faulted : (rule.safe onLazy x).Faults world fault after) :
    rule.Jams onLazy x world fault after ∨
      ∃ part y reached, Runs onLazy rule x world part y reached ∧
        (part.safe onLazy y).Faults reached fault after := by
  cases given : rule.visits? x with
  | none =>
    rw [safe_eq_reject onLazy structural given] at faulted
    exact absurd faulted faults_reject
  | some visits =>
    obtain ⟨before, visit, others, ys, reached, rfl, ran, faulted⟩ :=
      faults_runVisits.mp ((faults_of_visits given).mp faulted)
    rcases faults_reworded.mp faulted with faulted | ⟨unsaid, rfl⟩
    · exact .inr ⟨visit.rule, visit.value, reached, .visit given ran, faulted⟩
    · exact .inl (.visit given ran unsaid)

/-- Entries end in a fault at a key or a value, by its rule, for want of words, or with an output
that cannot be a key. -/
private theorem entry_jams_or_runs {keys values : Rule} {entries : List (Value × Value)}
    (parts : rule.entryParts? = some (keys, values)) (found : x.entries? = some entries)
    (faulted : (rule.safe onLazy x).Faults world fault after) :
    rule.Jams onLazy x world fault after ∨
      ∃ part y reached, Runs onLazy rule x world part y reached ∧
        (part.safe onLazy y).Faults reached fault after := by
  obtain ⟨before, key, item, others, reached, rfl, pass, ending⟩ :=
    faults_eachEntry.mp ((faults_entries parts found).mp faulted)
  rcases ending with faulted | ⟨unsaid, rfl⟩ | ⟨k, between, returned, faulted | ⟨unsaid, rfl⟩ |
    ⟨y, type, output, unhashable, rfl⟩⟩
  · exact .inr ⟨keys, key, reached, .key parts found pass, faulted⟩
  · exact .inl (.key parts found pass unsaid)
  · exact .inr ⟨values, item, between, .value parts found pass returned, faulted⟩
  · exact .inl (.value parts found pass returned unsaid)
  · exact .inl (.entry parts found pass returned output unhashable)

/-- A rule that answers with what its part answered, and runs no callback on it, faults where the
part does. -/
private theorem inner_faults
    (quiet : match rule with
      | .accepting _ _ | .withDefault _ _ | .recovering _ _ | .forward _ _ | .rejecting _ _
      | .lenient _ => True
      | _ => False)
    (faulted : (rule.safe onLazy x).Faults world fault after) :
    ∃ part, rule.inner? x = some part ∧ (part.safe onLazy x).Faults world fault after := by
  cases rule with
  | accepting absence inner =>
    simp only [safe, SafeForm.accepting] at faulted
    split at faulted
    · exact absurd faulted faults_pure
    · rename_i uncovered
      exact ⟨inner, if_neg uncovered, faulted⟩
  | withDefault inner value =>
    simp only [safe, SafeForm.withDefault] at faulted
    split at faulted
    · exact absurd faulted faults_pure
    · rename_i present
      exact ⟨inner, if_neg present, faulted⟩
  | recovering inner value =>
    rcases faults_attempt_bind.mp faulted with early | ⟨_, _, _, late⟩ | ⟨_, _, _, late⟩
    · exact ⟨inner, rfl, early⟩
    · exact absurd late faults_pure
    · exact absurd late faults_pure
  | forward inner path =>
    rcases faults_reword.mp faulted with early | ⟨_, _, worded, _⟩
    · exact ⟨inner, rfl, early⟩
    · cases worded
  | rejecting absence inner =>
    rcases faults_bind.mp faulted with early | ⟨_, _, _, late⟩
    · exact ⟨inner, rfl, early⟩
    · exact absurd late faults_provided
  | lenient inner =>
    obtain ⟨entries, found, late⟩ := faults_entriesOf_bind.mp faulted
    rcases faults_attempt_bind.mp late with early | ⟨_, _, _, late⟩ | ⟨_, _, _, late⟩
    · exact ⟨inner, by simp only [inner?, found, Option.map_some], early⟩
    · exact absurd late faults_pure
    · exact absurd late faults_pure
  | _ => exact quiet.elim

/-- A rule that does something with the answer of its part jams there, or faults where the part
does. -/
private theorem jams_or_inner_faults
    (busy : match rule with
      | .retitle _ _ | .refine _ _ _ | .transform _ _ _ | .passthrough _ | .required _ _ => True
      | _ => False)
    (faulted : (rule.safe onLazy x).Faults world fault after) :
    rule.Jams onLazy x world fault after ∨
      ∃ part, rule.inner? x = some part ∧ (part.safe onLazy x).Faults world fault after := by
  cases rule with
  | retitle inner source =>
    rcases faults_attempt_bind.mp faulted with early | ⟨_, _, _, late⟩ | ⟨_, _, reported, late⟩
    · exact .inr ⟨inner, rfl, early⟩
    · exact absurd late faults_pure
    · cases source with
      | given message => exact absurd late faults_reject
      | computed render =>
        rcases faults_bind.mp late with early | ⟨_, _, _, late⟩
        · exact .inl (jams_of_guarded (fun _ _ => .retitle reported) early)
        · exact absurd late faults_reject
  | refine inner test message =>
    rcases faults_bind.mp faulted with early | ⟨_, _, returned, late⟩
    · exact .inr ⟨inner, rfl, early⟩
    · rcases faults_bind.mp late with early | ⟨_, _, _, late⟩
      · exact .inl (jams_of_guarded (fun _ _ => .refine returned) early)
      · exact absurd late faults_provided
  | transform inner function failure =>
    rcases faults_bind.mp faulted with early | ⟨_, _, returned, late⟩
    · exact .inr ⟨inner, rfl, early⟩
    · exact .inl (jams_of_guarded (fun _ _ => .transform returned) late)
  | passthrough inner =>
    obtain ⟨entries, found, late⟩ := faults_entriesOf_bind.mp faulted
    rcases faults_bind.mp late with early | ⟨out, between, returned, late⟩
    · exact .inr ⟨inner, by simp only [inner?, found, Option.map_some], early⟩
    · cases unfit : out.entries? with
      | some further =>
        simp only [unfit] at late
        exact absurd late faults_pure
      | none =>
        simp only [unfit] at late
        obtain ⟨rfl, rfl⟩ := faults_misuse.mp late
        exact .inl (.output found returned unfit)
  | required declared inner =>
    obtain ⟨entries, found, late⟩ := faults_entriesOf_bind.mp faulted
    rcases faults_bind.mp late with early | ⟨y, between, returned, late⟩
    · exact .inr ⟨inner, by simp only [inner?, found, Option.map_some], early⟩
    · obtain ⟨out, held, late⟩ := faults_entriesOf_bind.mp late
      obtain ⟨key, absent, unwritable, rfl, rfl⟩ := faults_absent.mp late
      exact .inl (.absent found returned held absent unwritable)
  | _ => exact busy.elim

/-- A choice ends in a fault at an option, or because it cannot say that none accepts. -/
private theorem option_jams_or_runs
    (choice : match rule with
      | .union _ | .discriminatedUnion _ | .variant _ _ => True
      | _ => False)
    (faulted : (rule.safe onLazy x).Faults world fault after) :
    rule.Jams onLazy x world fault after ∨
      ∃ part y reached, Runs onLazy rule x world part y reached ∧
        (part.safe onLazy y).Faults reached fault after := by
  cases rule with
  | union options =>
    rcases faults_firstMatch.mp faulted with
      ⟨before, part, others, reached, rfl, refuse, faulted⟩ | ⟨reached, refuse, faulted⟩
    · exact .inr ⟨part, x, reached, .option rfl refuse, faulted⟩
    · exact absurd faulted faults_reject
  | discriminatedUnion options =>
    obtain ⟨entries, found, late⟩ := faults_entriesOf_bind.mp faulted
    rcases faults_firstMatch.mp late with
      ⟨before, part, others, reached, listed, refuse, faulted⟩ | ⟨reached, refuse, faulted⟩
    · have tries : (Rule.discriminatedUnion options).options x = before ++ part :: others := by
        simp only [Rule.options, found, Option.elim_some, listed]
      exact .inr ⟨part, x, reached, .option tries refuse, faulted⟩
    · exact absurd faulted faults_reject
  | variant key options =>
    obtain ⟨entries, found, late⟩ := faults_entriesOf_bind.mp faulted
    rcases faults_firstMatch.mp late with
      ⟨before, part, others, reached, listed, refuse, faulted⟩ | ⟨reached, refuse, faulted⟩
    · have tries : (Rule.variant key options).options x = before ++ part :: others := by
        simp only [Rule.options, found, Option.elim_some, listed]
      exact .inr ⟨part, x, reached, .option tries refuse, faulted⟩
    · rcases faults_noVariant.mp faulted with
        ⟨type, unhashable, rfl, rfl⟩ | ⟨hashable, unwritable, rfl, rfl⟩
      · exact .inl (.discriminator found refuse unhashable)
      · exact .inl (.variant found refuse hashable unwritable)
  | _ => exact choice.elim

/-- A set ends in a fault at an item, by its rule, for want of words, or with an output that cannot
be an item. -/
private theorem element_jams_or_runs {item : Rule}
    (faulted : ((Rule.set item).safe onLazy x).Faults world fault after) :
    (Rule.set item).Jams onLazy x world fault after ∨
      ∃ part y reached, Runs onLazy (.set item) x world part y reached ∧
        (part.safe onLazy y).Faults reached fault after := by
  cases elements : x.elements? with
  | none =>
    simp only [safe, SafeForm.set, elements] at faulted
    exact absurd faulted faults_reject
  | some xs =>
    obtain ⟨before, y, others, reached, rfl, pass, ending⟩ :=
      faults_eachElement.mp ((faults_set elements).mp faulted)
    rcases ending with faulted | ⟨unsaid, rfl⟩ | ⟨out, found, returned, unhashable, rfl⟩
    · exact .inr ⟨item, y, reached, .element elements pass, faulted⟩
    · rw [Nat.zero_add] at unsaid
      exact .inl (.element elements pass unsaid)
    · exact .inl (.item elements pass returned unhashable)

/-- A fault that the evaluation of a rule ends in is a jam, or that of a part, unless the rule is
lazy. -/
theorem jams_or_runs (evident : ∀ id, rule ≠ .lazy id)
    (faulted : (rule.safe onLazy x).Faults world fault after) :
    rule.Jams onLazy x world fault after ∨
      ∃ part y reached, Runs onLazy rule x world part y reached ∧
        (part.safe onLazy y).Faults reached fault after := by
  cases rule with
  | lazy id => exact absurd rfl (evident id)
  | leaf | instanceOf | literal | oneOf | keyName | check | plain | resulting | paired | convert
  | tryConvert | rawCheck | rawConvert | crossCheck | items =>
    exact .inl (jams_alone trivial faulted)
  | array | tuple | looseTuple | tupleWithRest | object | looseObject | objectWithRest
  | intersect =>
    exact visit_jams_or_runs rfl faulted
  | accepting | withDefault | recovering | forward | rejecting | lenient =>
    obtain ⟨part, runs, faulted⟩ := inner_faults trivial faulted
    exact .inr ⟨part, x, world, .inner runs, faulted⟩
  | retitle | refine | transform | passthrough | required =>
    refine (jams_or_inner_faults trivial faulted).imp_right ?_
    rintro ⟨part, runs, faulted⟩
    exact ⟨part, x, world, .inner runs, faulted⟩
  | union | discriminatedUnion | variant => exact option_jams_or_runs trivial faulted
  | set => exact element_jams_or_runs faulted
  | pipe steps =>
    obtain ⟨before, part, others, y, reached, rfl, ran, faulted⟩ := faults_pipe.mp faulted
    exact .inr ⟨part, y, reached, .step ran, faulted⟩
  | preprocess function inner =>
    rcases faults_bind.mp faulted with early | ⟨y, between, ran, late⟩
    · exact .inl (jams_of_guarded (fun _ _ => .preprocess) early)
    · exact .inr ⟨inner, y, between, .input ran, late⟩
  | record | map =>
    obtain ⟨entries, found, -⟩ := faults_entriesOf_bind.mp faulted
    exact entry_jams_or_runs rfl found faulted

end Causes

end Rule

end Conform
