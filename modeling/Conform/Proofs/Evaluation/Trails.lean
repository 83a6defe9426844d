import Conform.Proofs.Evaluation.Composed

/-!
The calls of an evaluation. A trail lists, in order, which supplied callbacks a computation runs and
which code of factories, with the fault in which each call ended and the traces between which it
ran. Every evaluation has a trail (`Rule.trailed_safe`, `Rule.trailed_call`), and every trail
accounts for its evaluation (`Accounted`): nothing else touches the trace, and a request to leave
the program is the last call made.
-/
namespace Conform

variable {α β : Type}

/-- What can be called in an evaluation. -/
inductive Callee where
  | supplied (piece : Piece) (argument : Value)
  | factory

/-- A call with the fault that it ended in, if any, and the traces before and after it. -/
structure Call where
  callee : Callee
  before : Trace
  fault : Option Fault
  after : Trace

/-- The fault among the ways in which a run can end. -/
def Fault.among : Except Fault α → Option Fault
  | .ok _ => none
  | .error fault => some fault

namespace Call

/-- The call of a supplied piece that comes to a run. -/
def ofRun (piece : Piece) (argument : Value) (run : Traced α) (trace : Trace) : Call :=
  ⟨.supplied piece argument, trace, Fault.among (run.ending trace).1, (run.ending trace).2⟩

/-- The call of code in a factory. -/
def ofFactory (run : Traced α) (trace : Trace) : Call :=
  ⟨.factory, trace, Fault.among (run.ending trace).1, (run.ending trace).2⟩

end Call

/-- The calls of a run, from a trace. -/
inductive Traced.Trail : ∀ {α : Type}, Traced α → Trace → List Call → Prop
  | pure {α : Type} (value : α) (trace : Trace) : Trail (pure value) trace []
  | misuse {α : Type} (cause : Misuse) (trace : Trace) :
      Trail (Traced.misuse cause : Traced α) trace []
  | stops {α β : Type} {run : Traced α} {trace after : Trace} {calls : List Call} {fault : Fault}
      (next : α → Traced β) (first : Trail run trace calls)
        (faulted : run.Faults trace fault after) :
      Trail (run >>= next) trace calls
  | goes {α β : Type} {run : Traced α} {next : α → Traced β} {trace between : Trace} {value : α}
      {calls further : List Call} (first : Trail run trace calls)
      (returned : run.Returns trace value between) (rest : Trail (next value) between further) :
      Trail (run >>= next) trace (calls ++ further)
  | callback (function : Callable) (x : Value) (trace : Trace) :
      Trail (function.run x) trace [.ofRun (.callback function) x (function.run x) trace]
  | renderer (render : Callable) (x : Value) (trace : Trace) :
      Trail (render.run x) trace [.ofRun (.renderer render) x (render.run x) trace]

/-- However it ends, the evaluation leaves the trace as it is, and it is no exit. -/
def Eval.Silent (evaluation : Eval α) : Prop :=
  ∀ world, (evaluation.ending world).2.trace = world.trace ∧
    ∀ kind text, Fault.among (evaluation.ending world).1 ≠ some (.leaving kind text)

/-- The calls of an evaluation that builds schemas, from a world. -/
inductive Eval.BuildTrail : ∀ {α : Type}, Eval α → World → List Call → Prop
  | apart {α : Type} {evaluation : Eval α} (silent : evaluation.Silent) (world : World) :
      BuildTrail evaluation world []
  | stops {α β : Type} {evaluation : Eval α} {world after : World} {calls : List Call}
      {fault : Fault}
      (next : α → Eval β) (first : BuildTrail evaluation world calls)
      (faulted : evaluation.Faults world fault after) : BuildTrail (evaluation >>= next) world calls
  | goes {α β : Type} {evaluation : Eval α} {next : α → Eval β} {world between : World} {value : α}
      {calls further : List Call} (first : BuildTrail evaluation world calls)
      (returned : evaluation.Returns world value between)
        (rest : BuildTrail (next value) between further) :
      BuildTrail (evaluation >>= next) world (calls ++ further)
  | factory {α : Type} (run : Traced α) (world : World) :
      BuildTrail (Eval.perform run) world [.ofFactory run world.trace]

/-- The calls of a computation, from a world. -/
inductive Checked.Trail : ∀ {α : Type}, Checked α → World → List Call → Prop
  | pure {α : Type} (value : α) (world : World) : Trail (pure value) world []
  | reject {α : Type} (failure : Failure) (world : World) :
      Trail (Checked.reject failure : Checked α) world []
  | misuse {α : Type} (cause : Misuse) (world : World) :
      Trail (Checked.misuse cause : Checked α) world []
  | reports {α β : Type} {computation : Checked α} {world after : World} {calls : List Call}
      {failure : Failure} (next : α → Checked β) (first : Trail computation world calls)
      (reported : computation.Reports world failure after) :
        Trail (computation >>= next) world calls
  | stops {α β : Type} {computation : Checked α} {world after : World} {calls : List Call}
      {fault : Fault}
      (next : α → Checked β) (first : Trail computation world calls)
      (faulted : computation.Faults world fault after) : Trail (computation >>= next) world calls
  | goes {α β : Type} {computation : Checked α} {next : α → Checked β}
      {world between : World} {value : α}
      {calls further : List Call} (first : Trail computation world calls)
      (returned : computation.Returns world value between)
        (rest : Trail (next value) between further) :
      Trail (computation >>= next) world (calls ++ further)
  | attempt {α : Type} {computation : Checked α} {world : World} {calls : List Call}
      (inner : Trail computation world calls) : Trail (Checked.attempt computation) world calls
  | guarded {α : Type} {run : Traced α} {world : World} {calls : List Call} (default : Value)
      (inner : run.Trail world.trace calls) : Trail (Checked.guarded default run) world calls
  | reporter (function : ResultCallable) (x : Value) (world : World) :
      Trail (Checked.perform (function.run x)) world
        [.ofRun (.reporter function) x (function.run x) world.trace]
  | result (function : Callable) (result : ResultCallable) (x : Value) (world : World) :
      Trail (Checked.perform (result.run x)) world
        [.ofRun (.pair function result) x (result.run x) world.trace]
  | lazy {id : Nat} {world : World} {calls : List Call}
      (built : (Eval.resolve id).BuildTrail world calls) :
      Trail (ExceptT.lift (Eval.resolve id)) world calls

/-- The calls of an evaluation that raises failures, from a world. -/
inductive Eval.Trail : ∀ {α : Type}, Eval α → World → List Call → Prop
  | pure {α : Type} (value : α) (world : World) : Trail (pure value) world []
  | misuse {α : Type} (cause : Misuse) (world : World) : Trail (Eval.misuse cause : Eval α) world []
  | stops {α β : Type} {evaluation : Eval α} {world after : World} {calls : List Call}
      {fault : Fault}
      (next : α → Eval β) (first : Trail evaluation world calls)
      (faulted : evaluation.Faults world fault after) : Trail (evaluation >>= next) world calls
  | goes {α β : Type} {evaluation : Eval α} {next : α → Eval β} {world between : World} {value : α}
      {calls further : List Call} (first : Trail evaluation world calls)
      (returned : evaluation.Returns world value between)
        (rest : Trail (next value) between further) :
      Trail (evaluation >>= next) world (calls ++ further)
  | callback (function : Callable) (x : Value) (world : World) :
      Trail (Eval.perform (function.run x)) world
        [.ofRun (.callback function) x (function.run x) world.trace]
  | function (function : Callable) (result : ResultCallable) (x : Value) (world : World) :
      Trail (Eval.perform (function.run x)) world
        [.ofRun (.pair function result) x (function.run x) world.trace]
  | raising {computation : Checked Value} {world : World} {calls : List Call}
      (inner : computation.Trail world calls) : Trail (Checked.raising computation) world calls
  | lazy {id : Nat} {world : World} {calls : List Call}
      (built : (Eval.resolve id).BuildTrail world calls) :
      Trail (Eval.resolve id) world calls

section Existence

/-- A composed run makes calls that can be listed. -/
theorem Traced.Calls.trailed {allowed : Piece → Prop} {run : Traced α} (calls : run.Calls allowed) :
    ∀ trace, ∃ calls, run.Trail trace calls := by
  induction calls with
  | pure value => exact fun trace => ⟨[], .pure value trace⟩
  | misuse cause => exact fun trace => ⟨[], .misuse cause trace⟩
  | callback _ x => exact fun trace => ⟨_, .callback _ x trace⟩
  | renderer _ x => exact fun trace => ⟨_, .renderer _ x trace⟩
  | @bind _ _ run next _ _ first rest =>
    intro trace
    obtain ⟨calls, early⟩ := first trace
    rcases ended : run.ending trace with ⟨fault | value, between⟩
    · exact ⟨calls, .stops next early ended⟩
    · obtain ⟨further, late⟩ := rest value between
      exact ⟨calls ++ further, .goes early ended late⟩

namespace Eval

theorem silent_pure (value : α) : (pure value : Eval α).Silent := fun _ => ⟨rfl, nofun⟩

theorem silent_misuse (cause : Misuse) : (misuse cause : Eval α).Silent := fun _ => ⟨rfl, nofun⟩

theorem silent_ofConstruction (made : Except Misuse α) : (ofConstruction made).Silent := by
  cases made with
  | ok value => exact silent_pure value
  | error cause => exact silent_misuse cause

theorem silent_lookup (name : String) : (lookup name).Silent := by
  intro world
  rw [lookup, ending_get_bind]
  cases world.names.get? name with
  | some schema => exact silent_pure schema world
  | none => exact silent_misuse _ world

/-- From every world the calls of the building can be listed. -/
def BuildTrailed (evaluation : Eval α) : Prop := ∀ world, ∃ calls, evaluation.BuildTrail world calls

theorem Silent.buildTrailed {evaluation : Eval α} (silent : evaluation.Silent) :
    evaluation.BuildTrailed :=
  fun world => ⟨[], .apart silent world⟩

/-- The calls of two constructions in turn are those of their sequence. -/
theorem BuildTrailed.bind {evaluation : Eval α} {next : α → Eval β}
    (first : evaluation.BuildTrailed)
    (rest : ∀ value, (next value).BuildTrailed) : (evaluation >>= next).BuildTrailed := by
  intro world
  obtain ⟨calls, early⟩ := first world
  rcases ended : evaluation.ending world with ⟨fault | value, between⟩
  · exact ⟨calls, .stops next early ended⟩
  · obtain ⟨further, late⟩ := rest value between
    exact ⟨calls ++ further, .goes early ended late⟩

mutual

/-- The calls that a recipe makes can be listed. -/
theorem buildTrailed_build : ∀ recipe : Recipe, recipe.build.BuildTrailed
  | .calling run => fun world => ⟨_, .factory run world⟩
  | .reference name => (silent_lookup name).buildTrailed
  | .lazy _ _ =>
    BuildTrailed.bind (Silent.buildTrailed fun _ => ⟨rfl, nofun⟩) fun _ =>
      (silent_pure _).buildTrailed
  | .combine construction parts =>
    (buildTrailed_buildAll parts).bind fun schemas =>
      (silent_ofConstruction (construction schemas)).buildTrailed

theorem buildTrailed_buildAll : ∀ parts : List Recipe, (Recipe.buildAll parts).BuildTrailed
  | [] => (silent_pure _).buildTrailed
  | part :: rest => (buildTrailed_build part).bind fun _ =>
    (buildTrailed_buildAll rest).bind fun _ => (silent_pure _).buildTrailed

end

/-- The calls that a factory makes can be listed. -/
theorem buildTrailed_run (cell : LazyCell) : cell.run.BuildTrailed := by
  have rest : BuildTrailed (do
      let schema ← cell.body.build
      ofConstruction schema.toValidator : Eval Validator) :=
    (buildTrailed_build cell.body).bind fun schema =>
      (silent_ofConstruction schema.toValidator).buildTrailed
  unfold LazyCell.run
  cases cell.label with
  | some label => exact BuildTrailed.bind (fun world => ⟨_, .factory _ world⟩) fun _ => rest
  | none => exact rest

theorem buildTrailed_resolve (id : Nat) : (resolve id).BuildTrailed := by
  refine BuildTrailed.bind (Silent.buildTrailed fun _ => ⟨rfl, nofun⟩) fun world => ?_
  rcases world.lazies[id]? with _ | cell
  · exact (silent_misuse _).buildTrailed
  · rcases built : cell.built with _ | v
    · simp only [built]
      exact (buildTrailed_run cell).bind fun v =>
        BuildTrailed.bind (Silent.buildTrailed fun _ => ⟨rfl, nofun⟩) fun _ =>
          (silent_pure v).buildTrailed
    · simp only [built]
      exact (silent_pure v).buildTrailed

end Eval

/-- A trail can be laid from every world. -/
def Checked.Trailed (computation : Checked α) : Prop := ∀ world, ∃ calls,
    computation.Trail world calls

/-- A trail can be laid from every world. -/
def Eval.Trailed (evaluation : Eval α) : Prop := ∀ world, ∃ calls, evaluation.Trail world calls

variable {allowed : Piece → Prop}

/-- Trails are laid one behind the other. -/
theorem Checked.Trailed.bind {computation : Checked α} {next : α → Checked β}
    (first : computation.Trailed) (rest : ∀ value, (next value).Trailed) :
    (computation >>= next).Trailed := by
  intro world
  obtain ⟨calls, early⟩ := first world
  rcases ended : computation.ending world with ⟨fault | failure | value, between⟩
  · exact ⟨calls, .stops next early ended⟩
  · exact ⟨calls, .reports next early ended⟩
  · obtain ⟨further, late⟩ := rest value between
    exact ⟨calls ++ further, .goes early ended late⟩

/-- A computation that is composed of trailed ones has a trail. -/
theorem Checked.Composed.trailed {computation : Checked α}
    (composed : computation.Composed allowed Checked.Trailed) : computation.Trailed := by
  induction composed with
  | pure value => exact fun world => ⟨[], .pure value world⟩
  | reject failure => exact fun world => ⟨[], .reject failure world⟩
  | misuse cause => exact fun world => ⟨[], .misuse cause world⟩
  | bind _ _ first rest => exact first.bind rest
  | attempt _ inner => exact fun world => (inner world).imp fun _ => .attempt
  | guarded default calls =>
    exact fun world => (calls.trailed world.trace).imp fun _ => .guarded default
  | reporter _ x => exact fun world => ⟨_, .reporter _ x world⟩
  | @result function result _ x => exact fun world => ⟨_, .result function result x world⟩
  | part given => exact given

theorem Eval.Trailed.bind {evaluation : Eval α} {next : α → Eval β} (first : evaluation.Trailed)
    (rest : ∀ value, (next value).Trailed) : (evaluation >>= next).Trailed := by
  intro world
  obtain ⟨calls, early⟩ := first world
  rcases ended : evaluation.ending world with ⟨fault | value, between⟩
  · exact ⟨calls, .stops next early ended⟩
  · obtain ⟨further, late⟩ := rest value between
    exact ⟨calls ++ further, .goes early ended late⟩

/-- An evaluation that is composed of trailed ones has a trail. -/
theorem Eval.Composed.trailed {evaluation : Eval Value}
    (composed : evaluation.Composed allowed Checked.Trailed Eval.Trailed) : evaluation.Trailed := by
  induction composed with
  | pure value => exact fun world => ⟨[], .pure value world⟩
  | bind _ _ first rest => exact first.bind rest
  | callback _ x => exact fun world => ⟨_, .callback _ x world⟩
  | @function function result _ x => exact fun world => ⟨_, .function function result x world⟩
  | raising inner => exact fun world => (inner.trailed world).imp fun _ => .raising
  | part given => exact given

namespace Rule

theorem trailed_safe {onLazy : Nat → SafeForm}
    (lazies : ∀ id x, (onLazy id x).Trailed) (rule : Rule)
    (x : Value) : (rule.safe onLazy x).Trailed :=
  (composed_safe (fun id x => .part (lazies id x)) rule rule.suppliedBy_anything x).trailed

theorem trailed_call {onLazy : Nat → SafeForm} {onLazyCall : Nat → CallForm}
    (lazies : ∀ id x, (onLazy id x).Trailed) (lazyCalls : ∀ id x,
      (onLazyCall id x).Trailed) (rule : Rule)
    (x : Value) : (rule.call onLazy onLazyCall x).Trailed :=
  (composed_call (fun id x => .part (lazies id x)) (fun id x => .part (lazyCalls id x)) rule
    rule.suppliedBy_anything x).trailed

theorem trailed_lazySafe : ∀ budget id x, (lazySafe budget id x).Trailed
  | 0, _, _ => fun world => ⟨[], .misuse _ world⟩
  | budget + 1, id, x =>
    Checked.Trailed.bind (fun world => (Eval.buildTrailed_resolve id world).imp fun _ =>
      .lazy) fun v =>
      trailed_safe (trailed_lazySafe budget) v.rule x

theorem trailed_lazyCall : ∀ budget id x, (lazyCall budget id x).Trailed
  | 0, _, _ => fun world => ⟨[], .misuse _ world⟩
  | budget + 1, id, x =>
    Eval.Trailed.bind (fun world => (Eval.buildTrailed_resolve id world).imp fun _ =>
      .lazy) fun v =>
      trailed_call (trailed_lazySafe budget) (trailed_lazyCall budget) v.rule x

end Rule

end Existence

/-- Calls that follow one another from a trace to another one. -/
def Linked : Trace → List Call → Trace → Prop
  | start, [], left => start = left
  | start, call :: rest, left => call.before = start ∧ Linked call.after rest left

theorem Linked.append {between left : Trace} {later : List Call}
    (second : Linked between later left) :
    ∀ {start : Trace} {calls : List Call}, Linked start calls between →
      Linked start (calls ++ later) left
  | _, [], first => by
    cases first
    exact second
  | _, _ :: _, ⟨before, first⟩ => ⟨before, second.append first⟩

/-- What calls say of the evaluation that made them, which began and ended with the given traces and
stopped in a fault, if any: they are all that touched the trace, and an exit among them is the last
one and stopped the evaluation. Exits come from calls only. -/
structure Accounted (start : Trace) (calls : List Call) (stopped : Option Fault)
    (left : Trace) : Prop where
  linked : Linked start calls left
  final : ∀ before call later kind text, calls = before ++ call :: later →
    call.fault = some (.leaving kind text) → later = [] ∧ stopped = some (.leaving kind text)
  caused : ∀ kind text, stopped = some (.leaving kind text) →
    ∃ before call, calls = before ++ [call] ∧ call.fault = some (.leaving kind text)

namespace Accounted

variable {start between left : Trace} {calls later : List Call} {stopped : Option Fault}

theorem nothing (trace : Trace) (stays : ∀ kind text, stopped ≠ some (.leaving kind text)) :
    Accounted trace [] stopped trace where
  linked := rfl
  final := by simp
  caused kind text exits := (stays kind text exits).elim

theorem single (call : Call) : Accounted call.before [call] call.fault call.after where
  linked := ⟨rfl, rfl⟩
  final := by
    intro before other further kind text split exits
    obtain ⟨rfl, rfl, rfl⟩ : before = [] ∧ call = other ∧ further = [] := by
      cases before <;> simp_all
    exact ⟨rfl, exits⟩
  caused := fun kind text exits => ⟨[], call, rfl, exits⟩

/-- No call of an evaluation that went through to its end was an exit. -/
theorem no_exit (went : Accounted start calls none left) :
    ∀ call ∈ calls, ∀ kind text, call.fault ≠ some (.leaving kind text) := by
  intro call member kind text exits
  obtain ⟨before, further, rfl⟩ := List.append_of_mem member
  cases (went.final before call further kind text rfl exits).2

/-- A fault that is no exit may be caught, or replaced by another that is none. -/
theorem changed {other : Option Fault} (accounted : Accounted start calls stopped left)
    (same : ∀ kind text, stopped = some (.leaving kind text) ↔ other = some (.leaving kind text)) :
    Accounted start calls other left where
  linked := accounted.linked
  final := by
    intro before call further kind text split exits
    obtain ⟨last, ended⟩ := accounted.final before call further kind text split exits
    exact ⟨last, (same kind text).mp ended⟩
  caused := fun kind text exits => accounted.caused kind text ((same kind text).mpr exits)

/-- Calls after which nothing has stopped yet account for an end together with those that follow. -/
theorem append (first : Accounted start calls none between)
    (second : Accounted between later stopped left) :
      Accounted start (calls ++ later) stopped left where
  linked := second.linked.append first.linked
  final := by
    intro before call further kind text split exits
    rcases List.append_eq_append_iff.mp split with ⟨middle, rfl, rest⟩ | ⟨middle, rfl, rest⟩
    · exact second.final middle call further kind text rest exits
    · cases middle with
      | nil => exact second.final [] call further kind text (by simpa using rest.symm) exits
      | cons head tail =>
        -- the call is one of the first ones, and these went through
        obtain ⟨rfl, -⟩ := List.cons_eq_cons.mp rest
        exact (first.no_exit call (by simp) kind text exits).elim
  caused := by
    intro kind text exits
    obtain ⟨before, call, rfl, ended⟩ := second.caused kind text exits
    exact ⟨calls ++ before, call, by simp, ended⟩

end Accounted

/-- The calls of a run account for how it ends. -/
theorem Traced.Trail.accounted {run : Traced α} {trace : Trace} {calls : List Call}
    (trail : run.Trail trace calls) :
    Accounted trace calls (Fault.among (run.ending trace).1) (run.ending trace).2 := by
  induction trail with
  | pure | misuse => exact .nothing _ nofun
  | callback | renderer => exact .single (.ofRun ..)
  | stops next _ faulted ih =>
    rw [faulted] at ih
    rw [Traced.ending_bind, faulted]
    exact ih
  | goes _ returned _ first rest =>
    rw [returned] at first
    rw [Traced.ending_bind, returned]
    exact first.append rest

/-- The calls of a building account for how it ends. -/
theorem Eval.BuildTrail.accounted {evaluation : Eval α} {world : World} {calls : List Call}
    (trail : evaluation.BuildTrail world calls) :
    Accounted world.trace calls (Fault.among (evaluation.ending world).1)
      (evaluation.ending world).2.trace := by
  induction trail with
  | apart silent world =>
    rw [(silent world).1]
    exact .nothing _ (silent world).2
  | factory run world => exact .single (.ofFactory run world.trace)
  | stops next _ faulted ih =>
    rw [faulted] at ih
    rw [Eval.ending_bind, faulted]
    exact ih
  | goes _ returned _ first rest =>
    rw [returned] at first
    rw [Eval.ending_bind, returned]
    exact first.append rest

namespace Checked

theorem among_lift (evaluation : Eval α) (world : World) :
    Fault.among (ending (ExceptT.lift evaluation) world).1 =
      Fault.among (evaluation.ending world).1 := by
  rw [ending_lift]
  rcases evaluation.ending world with ⟨_ | _, after⟩ <;> rfl

theorem left_lift (evaluation : Eval α) (world : World) :
    (ending (ExceptT.lift evaluation) world).2 = (evaluation.ending world).2 := by
  rw [ending_lift]
  rcases evaluation.ending world with ⟨_ | _, after⟩ <;> rfl

end Checked

/-- The calls of a computation account for how it ends. -/
theorem Checked.Trail.accounted {computation : Checked α} {world : World} {calls : List Call}
    (trail : computation.Trail world calls) :
    Accounted world.trace calls (Fault.among (computation.ending world).1)
      (computation.ending world).2.trace := by
  induction trail with
  | pure | reject | misuse => exact .nothing _ nofun
  | reporter | result =>
    rw [Checked.perform, Checked.among_lift, Checked.left_lift]
    exact .single (.ofRun ..)
  | lazy built =>
    rw [Checked.among_lift, Checked.left_lift]
    exact built.accounted
  | reports next _ reported ih =>
    rw [reported] at ih
    rw [Checked.ending_bind, reported]
    exact ih
  | stops next _ faulted ih =>
    rw [faulted] at ih
    rw [Checked.ending_bind, faulted]
    exact ih
  | goes _ returned _ first rest =>
    rw [returned] at first
    rw [Checked.ending_bind, returned]
    exact first.append rest
  | @attempt _ computation world _ _ ih =>
    rw [Checked.ending_attempt]
    rcases ended : computation.ending world with ⟨_ | _, after⟩ <;> rw [ended] at ih <;> exact ih
  | @guarded _ run world _ default inner =>
    have accounted := inner.accounted
    rw [Checked.ending_guarded]
    rcases ended : run.ending world.trace with ⟨fault | value, after⟩ <;> rw [ended] at accounted
    · -- what is caught was no exit, and an exit passes as it is
      cases fault with
      | leaving kind text => exact accounted
      | invalid | ordinary =>
        exact accounted.changed (by simp [Fault.among, Fault.caught?, Fault.hasText])
      | misuse cause =>
        cases written : (Fault.misuse cause).hasText with
        | true =>
          simp only [Fault.caught?, written, if_true]
          exact accounted.changed (by simp [Fault.among])
        | false =>
          simp only [Fault.caught?, Fault.passed, written, Bool.false_eq_true, if_false]
          exact accounted.changed (by simp [Fault.among])
    · exact accounted

/-- The calls of an evaluation account for how it ends. -/
theorem Eval.Trail.accounted {evaluation : Eval α} {world : World} {calls : List Call}
    (trail : evaluation.Trail world calls) :
    Accounted world.trace calls (Fault.among (evaluation.ending world).1)
      (evaluation.ending world).2.trace := by
  induction trail with
  | pure | misuse => exact .nothing _ nofun
  | callback | function => exact .single (.ofRun ..)
  | lazy built => exact built.accounted
  | stops next _ faulted ih =>
    rw [faulted] at ih
    rw [Eval.ending_bind, faulted]
    exact ih
  | goes _ returned _ first rest =>
    rw [returned] at first
    rw [Eval.ending_bind, returned]
    exact first.append rest
  | @raising computation world _ inner =>
    have accounted := inner.accounted
    rw [Checked.ending_raising]
    rcases ended : computation.ending world with ⟨fault | failure | value, after⟩ <;>
      rw [ended] at accounted
    · exact accounted
    · exact accounted.changed (by simp [Fault.among])
    · exact accounted

end Conform
