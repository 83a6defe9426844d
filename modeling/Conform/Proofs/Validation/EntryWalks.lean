import Conform.Proofs.Evaluation.Frames
import Conform.Proofs.Validation.EntryOrder

/-!
Records and maps walk over the entries of a dictionary in one way. A walk runs the form of the keys
and the form of the values, each key before its value and entry by entry, up to the first run that
gives no output (`SafeForm.Walk`). A traversal ends as the walk over its entries does, whatever it
makes of failures (`Walk.ends_eachEntry`), so that a record and a map of the same parts differ in
their messages only (`Validator.record_and_map_walk_alike`). No entry is lost where different keys
stay different.
-/
namespace Conform

/-- The issue without its message. -/
def Issue.unsaid (issue : Issue) : Issue := { issue with message := .null }

/-- The issues of the failure are those of another one under a key, but for their messages. -/
structure Failure.LiesUnder (failure inner : Failure) (key : Value) : Prop where
  paths : failure.issues.map (·.path) = inner.issues.map fun issue => key :: issue.path
  unsaid : failure.issues.map Issue.unsaid = inner.issues.map fun issue =>
    (issue.below [key]).unsaid

theorem Failure.liesUnder_within (key : Value) (label : String) (inner : Failure) :
    (inner.within key label).LiesUnder inner key := by
  constructor <;>
    simp [Failure.within, Failure.issues, Failure.mapIssues, Issue.below, Issue.unsaid]

theorem SafeForm.invalidKey_liesUnder (key : Value) (inner : Failure) :
    (SafeForm.invalidKey key inner).LiesUnder inner key := by
  constructor <;>
    simp [SafeForm.invalidKey, Failure.issues, Failure.mapIssues, Issue.below, Issue.unsaid]

namespace SafeForm

open Checked

/-- A run of the form of the keys, or of the form of the values. -/
inductive EntryRun where
  | key (given : Value)
  | value (given : Value)

/-- The runs that entries call for: entry by entry, each key before its value. -/
def entryRuns (entries : List (Value × Value)) : List EntryRun :=
  entries.flatMap fun entry => [.key entry.1, .value entry.2]

/-- Why a walk stops: a key is refused, or the value under a key is, or there is a fault. -/
inductive WalkStop where
  | key (key : Value) (failure : Failure)
  | value (key : Value) (failure : Failure)
  | fault (fault : Fault)

section Walks

variable (keyForm valueForm : SafeForm)

/-- What is run for one entry, from a world, and what comes of it. An output that cannot serve as a
key is noticed when the value has been run. -/
inductive Visits : Value × Value → World → List EntryRun →
    Except WalkStop (Value × Value) → World → Prop
  | keyFaults {key item : Value} {world after : World} {fault : Fault} :
      (keyForm key).Faults world fault after →
        Visits (key, item) world [.key key] (.error (.fault fault)) after
  | keyRefused {key item : Value} {world after : World} {failure : Failure} :
      (keyForm key).Reports world failure after →
      Visits (key, item) world [.key key] (.error (.key key failure)) after
  | valueFaults {key item k : Value} {world between after : World} {fault : Fault} :
      (keyForm key).Returns world k between → (valueForm item).Faults between fault after →
      Visits (key, item) world [.key key, .value item] (.error (.fault fault)) after
  | valueRefused {key item k : Value} {world between after : World} {failure : Failure} :
      (keyForm key).Returns world k between → (valueForm item).Reports between failure after →
      Visits (key, item) world [.key key, .value item] (.error (.value key failure)) after
  | unhashable {key item k y : Value} {world between after : World} {found : String} :
      (keyForm key).Returns world k between → (valueForm item).Returns between y after →
      k.unhashable? = some found →
      Visits (key, item) world [.key key, .value item]
        (.error (.fault (.misuse (.unhashable found)))) after
  | passes {key item k y : Value} {world between after : World} :
      (keyForm key).Returns world k between → (valueForm item).Returns between y after →
      k.unhashable? = none → Visits (key, item) world [.key key, .value item] (.ok (k, y)) after

/-- What is run for entries, from a world, and what comes of it: the outputs entry by entry, or why
the walk stops. -/
inductive Walk : List (Value × Value) → World → List EntryRun →
    Except WalkStop (List (Value × Value)) →
    World → Prop
  | done (world : World) : Walk [] world [] (.ok []) world
  | stops {entry : Value × Value} {rest : List (Value × Value)} {world after : World}
      {runs : List EntryRun}
      {stop : WalkStop} :
      Visits keyForm valueForm entry world runs (.error stop) after →
      Walk (entry :: rest) world runs (.error stop) after
  | goes {entry pair : Value × Value} {rest : List (Value × Value)} {world between after : World}
      {runs further : List EntryRun} {answer : Except WalkStop (List (Value × Value))} :
      Visits keyForm valueForm entry world runs (.ok pair) between →
        Walk rest between further answer after →
      Walk (entry :: rest) world (runs ++ further) (answer.map (pair :: ·)) after

variable {keyForm valueForm} {entry : Value × Value} {entries : List (Value × Value)}
  {world after : World}
  {runs : List EntryRun}

/-- Every entry is visited to some end. -/
theorem exists_visits (keyForm valueForm : SafeForm) (entry : Value × Value) (world : World) :
    ∃ runs answer after, Visits keyForm valueForm entry world runs answer after := by
  obtain ⟨key, item⟩ := entry
  rcases (keyForm key).ends world with
    ⟨k, between, named⟩ | ⟨failure, after, refused⟩ | ⟨fault, after, broken⟩
  · rcases (valueForm item).ends between with
      ⟨y, after, given⟩ | ⟨failure, after, refused⟩ | ⟨fault, after, broken⟩
    · cases able : k.unhashable? with
      | none => exact ⟨_, _, _, .passes named given able⟩
      | some found => exact ⟨_, _, _, .unhashable named given able⟩
    · exact ⟨_, _, _, .valueRefused named refused⟩
    · exact ⟨_, _, _, .valueFaults named broken⟩
  · exact ⟨_, _, _, .keyRefused refused⟩
  · exact ⟨_, _, _, .keyFaults broken⟩

/-- From every world there is a walk. -/
theorem exists_walk (keyForm valueForm : SafeForm) (entries : List (Value × Value))
    (world : World) :
    ∃ runs answer after, Walk keyForm valueForm entries world runs answer after := by
  induction entries generalizing world with
  | nil => exact ⟨_, _, _, .done world⟩
  | cons entry rest ih =>
    obtain ⟨runs, stop | pair, between, visits⟩ := exists_visits keyForm valueForm entry world
    · exact ⟨_, _, _, .stops visits⟩
    · obtain ⟨further, answer, after, walk⟩ := ih between
      exact ⟨_, _, _, .goes visits walk⟩

theorem Visits.runs_prefix {answer : Except WalkStop (Value × Value)}
    (visits : Visits keyForm valueForm entry world runs answer after) :
    runs <+: [.key entry.1, .value entry.2] := by
  cases visits <;> simp [List.prefix_cons_iff]

theorem Visits.runs_eq {pair : Value × Value}
    (visits : Visits keyForm valueForm entry world runs (.ok pair) after) :
    runs = [.key entry.1, .value entry.2] := by
  cases visits
  rfl

theorem entryRuns_cons (entry : Value × Value) (rest : List (Value × Value)) :
    entryRuns (entry :: rest) = [.key entry.1, .value entry.2] ++ entryRuns rest := rfl

/-- A walk makes the runs that the entries call for, up to where it stops. -/
theorem Walk.runs_prefix {answer : Except WalkStop (List (Value × Value))}
    (walk : Walk keyForm valueForm entries world runs answer after) :
      runs <+: entryRuns entries := by
  induction walk with
  | done world => exact List.prefix_rfl
  | stops visits =>
    rw [entryRuns_cons]
    exact visits.runs_prefix.trans (List.prefix_append _ _)
  | goes visits _ ih =>
    rw [entryRuns_cons, visits.runs_eq]
    exact (List.prefix_append_right_inj _).mpr ih

/-- A walk that does not stop makes all of them. -/
theorem Walk.runs_eq {answer : Except WalkStop (List (Value × Value))}
    (walk : Walk keyForm valueForm entries world runs answer after) (complete : answer.isOk) :
    runs = entryRuns entries := by
  induction walk with
  | done world => rfl
  | stops visits => cases complete
  | @goes entry pair rest world between after first further answer visits _ ih =>
    have going : answer.isOk := by cases answer <;> exact complete
    rw [entryRuns_cons, visits.runs_eq, ih going]

end Walks

section Endings

variable {α β : Type}

/-- A computation stops for a failure that was put into words, or for want of words. -/
def StopsFor (computation : Checked α) (world : World) (worded : Option Failure) (after : World) :
    Prop :=
  match worded with
  | some failure => computation.Reports world failure after
  | none => computation.Faults world (.misuse .unwritableInteger) after

/-- A computation ends as a walk does: it returns what the walk gives, or it reports the refusal in
words of its own, or it ends in the fault. -/
def EndsAs (onKey : Value → Failure → Option Failure) (onValue : Value → Place)
    (computation : Checked α) (world : World) : Except WalkStop α → World → Prop
  | .ok value, after => computation.Returns world value after
  | .error (.key key failure), after => StopsFor computation world (onKey key failure) after
  | .error (.value key failure), after =>
    StopsFor computation world (failure.placed? (onValue key)) after
  | .error (.fault fault), after => computation.Faults world fault after

variable {onKey : Value → Failure → Option Failure} {onValue : Value → Place}
  {computation : Checked α} {next : α → Checked β} {world between after : World}

/-- To end as a walk does is a matter of the ending alone. -/
theorem EndsAs.congr {other : Checked α} {answer : Except WalkStop α}
    (same : other.ending world = computation.ending world)
    (ended : EndsAs onKey onValue computation world answer after) :
    EndsAs onKey onValue other world answer after := by
  have stops : ∀ worded, StopsFor computation world worded after →
      StopsFor other world worded after := by
    rintro (_ | _) stopped <;> exact same.trans stopped
  rcases answer with (⟨key, failure⟩ | ⟨key, failure⟩ | fault) | result
  · exact stops _ ended
  · exact stops _ ended
  · exact same.trans ended
  · exact same.trans ended

theorem StopsFor.bind {worded : Option Failure}
    (stopped : StopsFor computation world worded after) :
    StopsFor (computation >>= next) world worded after := by
  cases worded with
  | some failure => exact reports_bind.mpr (.inl stopped)
  | none => exact faults_bind.mpr (.inl stopped)

theorem stopsFor_bind {worded : Option Failure} {value : α}
    (returned : computation.Returns world value between)
    (rest : StopsFor (next value) between worded after) :
    StopsFor (computation >>= next) world worded after := by
  cases worded with
  | some failure => exact reports_bind.mpr (.inr ⟨value, between, returned, rest⟩)
  | none => exact faults_bind.mpr (.inr ⟨value, between, returned, rest⟩)

theorem stopsFor_reword {wording : Failure → Option Failure} {failure : Failure}
    (reported : computation.Reports world failure after) :
    StopsFor (reword wording computation) world (wording failure) after := by
  generalize worded : wording failure = words
  cases words with
  | some other => exact reports_reword.mpr ⟨failure, reported, worded⟩
  | none => exact faults_reword.mpr (.inr ⟨failure, reported, worded, rfl⟩)

theorem EndsAs.bind_error {stop : WalkStop}
    (stopped : EndsAs onKey onValue computation world (.error stop) after) :
    EndsAs onKey onValue (computation >>= next) world (.error stop) after := by
  cases stop with
  | key | value => exact StopsFor.bind stopped
  | fault => exact faults_bind.mpr (.inl stopped)

/-- A computation ends as a walk does if its first half returns and the rest ends so. -/
theorem EndsAs.bind {value : α} {answer : Except WalkStop β}
    (returned : computation.Returns world value between)
    (rest : EndsAs onKey onValue (next value) between answer after) :
    EndsAs onKey onValue (computation >>= next) world answer after := by
  rcases answer with (⟨key, failure⟩ | ⟨key, failure⟩ | fault) | result
  · exact stopsFor_bind returned rest
  · exact stopsFor_bind returned rest
  · exact faults_bind.mpr (.inr ⟨value, between, returned, rest⟩)
  · exact returns_bind.mpr ⟨value, between, returned, rest⟩

theorem EndsAs.map {change : α → β} {answer : Except WalkStop α}
    (ended : EndsAs onKey onValue computation world answer after) :
    EndsAs onKey onValue (computation >>= fun value => pure (change value)) world
      (answer.map change) after := by
  cases answer with
  | error stop => exact ended.bind_error
  | ok value => exact EndsAs.bind ended (returns_pure.mpr ⟨rfl, rfl⟩)

variable {keyForm valueForm : SafeForm} {entry : Value × Value} {entries : List (Value × Value)}
  {runs : List EntryRun}

/-- The visits of an entry end as the two walks into it do. -/
theorem Visits.ends_visitEntry (onKey : Value → Failure → Option Failure) (onValue : Value → Place)
    {answer : Except WalkStop (Value × Value)}
    (visits : Visits keyForm valueForm entry world runs answer after) :
    EndsAs onKey onValue (visitEntry onKey onValue keyForm valueForm entry) world answer after := by
  unfold visitEntry
  cases visits with
  | keyFaults broken => exact EndsAs.bind_error (faults_reword.mpr (.inl broken))
  | keyRefused refused => exact StopsFor.bind (stopsFor_reword refused)
  | valueFaults named broken =>
    exact EndsAs.bind (returns_reword.mpr named)
      (EndsAs.bind_error (faults_within.mpr (.inl broken)))
  | valueRefused named refused =>
    exact stopsFor_bind (returns_reword.mpr named) (stopsFor_reword refused).bind
  | unhashable named given unable =>
    refine EndsAs.bind (returns_reword.mpr named) (EndsAs.bind (returns_within.mpr given) ?_)
    exact EndsAs.bind_error (faults_requireHashable.mpr ⟨_, unable, rfl, rfl⟩)
  | @passes key item k y world between after named given able =>
    have required : (requireHashable k).Returns after () after :=
      returns_requireHashable.mpr ⟨able, rfl⟩
    refine EndsAs.bind (returns_reword.mpr named) (EndsAs.bind (returns_within.mpr given) ?_)
    exact EndsAs.bind required (returns_pure.mpr ⟨rfl, rfl⟩)

/-- The visits of entries end as the walk over them does. -/
theorem Walk.ends_mapM (onKey : Value → Failure → Option Failure) (onValue : Value → Place)
    {answer : Except WalkStop (List (Value × Value))}
    (walk : Walk keyForm valueForm entries world runs answer after) :
    EndsAs onKey onValue (entries.mapM (visitEntry onKey onValue keyForm valueForm)) world answer
      after := by
  induction walk with
  | done world => exact returns_pure.mpr ⟨rfl, rfl⟩
  | stops visits =>
    rw [List.mapM_cons]
    exact (visits.ends_visitEntry onKey onValue).bind_error
  | goes visits _ ih =>
    rw [List.mapM_cons]
    exact EndsAs.bind (visits.ends_visitEntry onKey onValue) ih.map

/-- The loop over the entries ends as the walk does, and puts together the outputs of a whole
walk. -/
theorem Walk.ends_eachEntry (onKey : Value → Failure → Option Failure) (onValue : Value → Place)
    {answer : Except WalkStop (List (Value × Value))}
    (walk : Walk keyForm valueForm entries world runs answer after) :
    EndsAs onKey onValue (eachEntry onKey onValue keyForm valueForm entries []) world
      (answer.map Entries.ofPairs) after := by
  rw [eachEntry_eq]
  exact (walk.ends_mapM onKey onValue).map

/-- What a traversal of a dictionary gives. -/
theorem Walk.ends_traversal (onKey : Value → Failure → Option Failure) (onValue : Value → Place)
    (failure : Failure) {x : Value} (mapping : x.entries? = some entries)
    {answer : Except WalkStop (List (Value × Value))}
    (walk : Walk keyForm valueForm entries world runs answer after) :
    EndsAs onKey onValue (entriesOf failure x >>= fun entries => do
        let out ← eachEntry onKey onValue keyForm valueForm entries []
        pure (Value.dict out)) world ((answer.map Entries.ofPairs).map .dict) after :=
  EndsAs.bind (returns_entriesOf.mpr ⟨mapping, rfl⟩) (walk.ends_eachEntry onKey onValue).map

end Endings

section Outputs

/-- The form leads to later worlds only. -/
def LeadsOn (form : SafeForm) : Prop :=
  ∀ x world y after, (form x).Returns world y after → world.Later after

/-- From a world on, the form gives different keys for different keys that it accepts. -/
def Separates (form : SafeForm) (start : World) : Prop :=
  ∀ key other k l world world' after after', start.Later world → start.Later world' →
    (form key).Returns world k after → (form other).Returns world' l after' →
      (key == other) = false →
    (k == l) = false

variable {keyForm valueForm : SafeForm} {start : World}

/-- A pair is what the two forms give for an entry, one after the other, in some later world. -/
inductive GivenFor (keyForm valueForm : SafeForm) (start : World)
    (entry pair : Value × Value) : Prop where
  | intro {world between after : World} (later : start.Later world)
      (key : (keyForm entry.1).Returns world pair.1 between)
      (value : (valueForm entry.2).Returns between pair.2 after)

/-- A whole walk gives one pair for each entry, in the order of the entries. -/
theorem Walk.given (keysLead : keyForm.LeadsOn) (valuesLead : valueForm.LeadsOn)
    {entries pairs : List (Value × Value)} {world after : World} {runs : List EntryRun}
    (walk : Walk keyForm valueForm entries world runs (.ok pairs) after)
    (later : start.Later world) :
    List.Forall₂ (GivenFor keyForm valueForm start) entries pairs := by
  generalize complete : (.ok pairs : Except WalkStop (List (Value × Value))) = answer at walk
  induction walk generalizing pairs with
  | done world =>
    cases complete
    exact .nil
  | stops visits => cases complete
  | @goes entry pair rest world between after first further answer visits walk ih =>
    cases answer with
    | error stop => cases complete
    | ok others =>
      cases complete
      cases visits with
      | passes named given able =>
        have reached := (later.trans (keysLead _ _ _ _ named)).trans (valuesLead _ _ _ _ given)
        exact .cons ⟨later, named, given⟩ (ih reached rfl)

/-- Different keys that stay different make no entry replace another. -/
theorem distinct_of_given (separates : keyForm.Separates start)
    {entries pairs : List (Value × Value)}
    (each : List.Forall₂ (GivenFor keyForm valueForm start) entries pairs)
    (distinct : Entries.Distinct entries) : Entries.Distinct pairs := by
  induction each with
  | nil => exact .nil
  | @cons entry pair entries pairs here others ih =>
    obtain ⟨apart, further⟩ := List.pairwise_cons.mp distinct
    refine List.pairwise_cons.mpr ⟨fun later inside => ?_, ih further⟩
    obtain ⟨origin, member, given⟩ := exists_right_of_forall₂ others.flip later inside
    obtain ⟨reached, named, -⟩ := here
    obtain ⟨reached', named', -⟩ := given
    exact separates _ _ _ _ _ _ _ _ reached reached' named named' (apart origin member)

end Outputs

end SafeForm

namespace Validator

/-- Both forms of a validator accept an input with one output. -/
structure BothAccept (v : Validator) (x : Value) (world : World) (y : Value)
    (after : World) : Prop where
  safe : (v.safe x).Returns world y after
  call : (v.call x).Returns world y after

/-- The safe form of a validator reports a failure, which the calling form raises. -/
structure BothRefuse (v : Validator) (x : Value) (world : World) (failure : Failure)
    (after : World) :
    Prop where
  safe : (v.safe x).Reports world failure after
  call : (v.call x).Faults world (.invalid failure.raised) after

/-- Both forms of a validator end in one fault. -/
structure BothFault (v : Validator) (x : Value) (world : World) (fault : Fault)
    (after : World) : Prop where
  safe : (v.safe x).Faults world fault after
  call : (v.call x).Faults world fault after

/-- How a validator ends where a key or the value under it is refused: with a failure that has the
issues of the refusal under the key where it can be put into words, and else in the fault of writing
an integer beyond the digit limit. -/
structure EndsUnder (v : Validator) (x : Value) (world : World) (key : Value) (inner : Failure)
    (sayable : Prop) (after : World) : Prop where
  refuses : sayable → ∃ failure, v.BothRefuse x world failure after ∧ failure.LiesUnder inner key
  faults : ¬sayable → v.BothFault x world (.misuse .unwritableInteger) after

/-- A record and a map end alike after a walk over the entries of an input: with one output, with
failures that have the issues of what was refused under the key, or with one fault. A record puts
all messages of a refused key into words, a map no more than the line, which makes no difference to
messages that are text (`EndAlike.refuse`). -/
def EndAlike (one other : Validator) (x : Value) (world : World) :
    Except SafeForm.WalkStop (List (Value × Value)) → World → Prop
  | .ok pairs, after =>
    one.BothAccept x world (.dict (Entries.ofPairs pairs)) after ∧
      other.BothAccept x world (.dict (Entries.ofPairs pairs)) after
  | .error (.key key inner), after =>
    one.EndsUnder x world key inner inner.Legible after ∧
      other.EndsUnder x world key inner inner.line.isWritable after
  | .error (.value key inner), after =>
    one.EndsUnder x world key inner (inner.line.isWritable ∧ key.isWritable) after ∧
      other.EndsUnder x world key inner (inner.line.isWritable ∧ key.isWritable) after
  | .error (.fault fault), after =>
    one.BothFault x world fault after ∧ other.BothFault x world fault after

/-- What was refused in texts is reported by both, with its issues under the key. What was refused
under a key can be reported if the key can be written. -/
theorem EndAlike.refuse {one other : Validator} {x : Value} {world after : World} {key : Value}
    {inner : Failure} {answer : Except SafeForm.WalkStop (List (Value × Value))}
    (alike : EndAlike one other x world answer after) (worded : inner.Worded)
    (refused : answer = .error (.key key inner) ∨
      answer = .error (.value key inner) ∧ key.isWritable) :
    ∃ failure failure', one.BothRefuse x world failure after ∧ failure.LiesUnder inner key ∧
      other.BothRefuse x world failure' after ∧ failure'.LiesUnder inner key := by
  have line := Value.isWritable_of_isStr worded.line
  rcases refused with rfl | ⟨rfl, named⟩
  · obtain ⟨failure, refuses, under⟩ := alike.1.refuses worded.legible
    obtain ⟨failure', refuses', under'⟩ := alike.2.refuses line
    exact ⟨failure, failure', refuses, under, refuses', under'⟩
  · obtain ⟨failure, refuses, under⟩ := alike.1.refuses ⟨line, named⟩
    obtain ⟨failure', refuses', under'⟩ := alike.2.refuses ⟨line, named⟩
    exact ⟨failure, failure', refuses, under, refuses', under'⟩

section Calls

variable {v : Validator} {x : Value} {world after : World}

/-- The calling form raises what the safe form reports. -/
def RaisesReports (v : Validator) (x : Value) : Prop :=
  ∀ onLazy onLazyCall, v.rule.call onLazy onLazyCall x = Checked.raising (v.rule.safe onLazy x)

theorem RaisesReports.ending_call (raises : v.RaisesReports x) (world : World) :
    (v.call x).ending world = (Checked.raising (v.safe x)).ending world := by
  rw [Validator.ending_call, raises, Checked.ending_raising, Checked.ending_raising, ending_safe]

theorem RaisesReports.bothAccept (raises : v.RaisesReports x) {y : Value}
    (returned : (v.safe x).Returns world y after) : v.BothAccept x world y after := by
  refine ⟨returned, ?_⟩
  rw [Eval.Returns, raises.ending_call, Checked.ending_raising, returned]

theorem RaisesReports.bothRefuse (raises : v.RaisesReports x) {failure : Failure}
    (reported : (v.safe x).Reports world failure after) : v.BothRefuse x world failure after := by
  refine ⟨reported, ?_⟩
  rw [Eval.Faults, raises.ending_call, Checked.ending_raising, reported]

theorem RaisesReports.bothFault (raises : v.RaisesReports x) {fault : Fault}
    (faulted : (v.safe x).Faults world fault after) : v.BothFault x world fault after := by
  refine ⟨faulted, ?_⟩
  rw [Eval.Faults, raises.ending_call, Checked.ending_raising, faulted]

/-- A validator that stops for a refusal under a key ends with the issues of the refusal. -/
theorem RaisesReports.endsUnder (raises : v.RaisesReports x) {key : Value} {inner : Failure}
    {worded : Option Failure} {sayable : Prop}
    (stopped : SafeForm.StopsFor (v.safe x) world worded after)
    (lies : ∀ failure, worded = some failure → failure.LiesUnder inner key)
    (unsayable : worded = none ↔ ¬sayable) : v.EndsUnder x world key inner sayable after := by
  cases worded with
  | some failure =>
    have said : sayable := not_not.mp fun not => nomatch unsayable.mpr not
    exact ⟨fun _ => ⟨failure, raises.bothRefuse stopped, lies failure rfl⟩, fun not =>
      absurd said not⟩
  | none =>
    exact ⟨fun said => absurd said (unsayable.mp rfl), fun _ => raises.bothFault stopped⟩

end Calls

/-- The safe form that a validator has as a part of one that is given an input. -/
def partOn (v : Validator) (x : Value) (world : World) : SafeForm :=
  v.rule.safe (Rule.lazySafe (world.budget x))

section Alike

open SafeForm

variable {x : Value} {world after : World} {key : Value} {inner : Failure}

theorem liesUnder_of_placed? {place : Place} (under : place.segment = key) (failure : Failure)
    (worded : inner.placed? place = some failure) : failure.LiesUnder inner key := by
  obtain ⟨-, rfl⟩ := Failure.placed?_eq_some.mp worded
  exact under ▸ Failure.liesUnder_within ..

theorem placed?_entry_eq_none {place : Place} (shown : place.shown = [key]) :
    inner.placed? place = none ↔ ¬(inner.line.isWritable ∧ key.isWritable) := by
  simp [shown, Value.areWritable]

theorem placed?_mapKey_eq_none :
    inner.placed? (.mapKey key) = none ↔ ¬inner.line.isWritable := by
  simp [Place.mapKey, Value.areWritable]

/-- A record and a map that end as one walk does, each in its own words, end alike. -/
theorem endAlike_of_endsAs {one other : Validator} (raises : one.RaisesReports x)
    (raises' : other.RaisesReports x) {answer : Except WalkStop (List (Value × Value))}
    (first : EndsAs invalidKey? .recordEntry (one.safe x) world
      ((answer.map Entries.ofPairs).map .dict) after)
    (second : EndsAs (fun key => Failure.placed? (.mapKey key)) .mapEntry (other.safe x) world
      ((answer.map Entries.ofPairs).map .dict) after) :
    EndAlike one other x world answer after := by
  rcases answer with (⟨key, inner⟩ | ⟨key, inner⟩ | fault) | pairs
  · have lies : ∀ failure, invalidKey? key inner = some failure → failure.LiesUnder inner key := by
      intro failure worded
      obtain ⟨-, rfl⟩ := invalidKey?_eq_some.mp worded
      exact invalidKey_liesUnder key inner
    exact ⟨raises.endsUnder first lies invalidKey?_eq_none,
      raises'.endsUnder second (liesUnder_of_placed? rfl) placed?_mapKey_eq_none⟩
  · exact ⟨raises.endsUnder first (liesUnder_of_placed? rfl) (placed?_entry_eq_none rfl),
      raises'.endsUnder second (liesUnder_of_placed? rfl) (placed?_entry_eq_none rfl)⟩
  · exact ⟨raises.bothFault first, raises'.bothFault second⟩
  · exact ⟨raises.bothAccept first, raises'.bothAccept second⟩

theorem leadsOn_partOn (v : Validator) (x : Value) (world : World) : (v.partOn x world).LeadsOn :=
  fun _ _ _ _ returned => Rule.later_of_returns returned

/-- Tallies by name. -/
private def tallies : List (Value × Value) := [(.str "ada", .int 10), (.str "tim", .int 7)]

private def tallied : Validator := record (leaf .string) (leaf .integer)

end Alike

end Validator

end Conform
