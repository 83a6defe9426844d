import Conform.JsonSchema.Converter
import Conform.Proofs.Evaluation.Composed
import Conform.Proofs.Evaluation.Lazies

/-!
What happens in an evaluation: requests for what lazy schemas stand for, runs of supplied callbacks,
and lazy schemas coming into being. An account lists these occurrences in order with the worlds that
they happen in (`Eval.Involves`), and however it is given, nothing else touches the trace or a lazy
schema (`Eval.Involves.linked`). So the first request runs the factory, and every later one recalls
what that run gave (`Occurrence.Linked.runs_once`).
-/
namespace Conform

variable {α β : Type}

/-- A run of supplied callbacks, of one that reports results, of the renderer of a configured
message, or of user code in a recipe. -/
inductive Traced.Supplied : ∀ {α : Type}, Traced α → Prop
  | calls {α : Type} {run : Traced α} (calls : run.Calls fun _ => True) : Supplied run
  | attempt {α : Type} {run : Traced α} (calls : run.Calls fun _ => True) :
      Supplied (Traced.attempt run)
  | reporter (function : ResultCallable) (x : Value) : Supplied (function.run x)
  | message (render : Issue → Traced Value) (issue : Issue) : Supplied (render issue)
  | factory (run : Traced Schema) : Supplied run

theorem Traced.supplied_callback (function : Callable) (x : Value) : (function.run x).Supplied :=
  .calls (.callback trivial x)

/-- Nothing was logged or built, and no lazy schema came. -/
structure World.Still (before after : World) : Prop where
  trace : after.trace = before.trace
  lazies : after.lazies = before.lazies

theorem World.Still.refl (world : World) : world.Still world := ⟨rfl, rfl⟩

theorem World.Still.trans {first second third : World} (early : first.Still second)
    (late : second.Still third) :
    first.Still third := ⟨late.trace.trans early.trace, late.lazies.trans early.lazies⟩

/-- Something that happens in an evaluation, with the world that it happens in. -/
inductive Occurrence where
  /-- It is asked what a lazy schema stands for. -/
  | request (id : Nat) (before : World)
  /-- Callbacks run, and leave a trace. -/
  | callback (before : World) (left : Trace)
  /-- A lazy schema comes into being. -/
  | creation (label : Option String) (body : Recipe) (before : World)

namespace Occurrence

/-- The world before it. -/
def before : Occurrence → World
  | request _ before | callback before _ | creation _ _ before => before

def after : Occurrence → World
  | request id before => ((Eval.resolve id).ending before).2
  | callback before left => before.traced left
  | creation label body before => ((Eval.newLazy label body).ending before).2

/-- The occurrences follow one another from a world to another one, and between them nothing
happens. -/
def Linked : World → List Occurrence → World → Prop
  | start, [], last => start.Still last
  | start, occurrence :: rest, last =>
    start.Still occurrence.before ∧ Linked occurrence.after rest last

variable {start between last : World} {account further : List Occurrence}

theorem Linked.after_still (still : start.Still between) (linked : Linked between account last) :
    Linked start account last := by
  cases account with
  | nil => exact still.trans linked
  | cons occurrence rest => exact ⟨still.trans linked.1, linked.2⟩

theorem Linked.append (first : Linked start account between)
    (second : Linked between further last) :
    Linked start (account ++ further) last := by
  induction account generalizing start with
  | nil => exact second.after_still first
  | cons occurrence rest ih => exact ⟨first.1, ih first.2⟩

theorem Linked.before_still (linked : Linked start account between) (still : between.Still last) :
    Linked start account last := by
  rw [← List.append_nil account]
  exact linked.append still

end Occurrence

namespace Eval

/-- An account of what happens in an evaluation, from a world. What in no world touches the trace or
a lazy schema has nothing to account for. -/
inductive Involves : ∀ {α : Type}, Eval α → World → List Occurrence → Prop
  | apart {α : Type} {evaluation : Eval α} (still : evaluation.Moves World.Still) (world : World) :
      Involves evaluation world []
  | callback {α : Type} {run : Traced α} (supplied : run.Supplied) (world : World) :
      Involves (perform run) world [.callback world (run.ending world.trace).2]
  | creation (label : Option String) (body : Recipe) (world : World) :
      Involves (newLazy label body) world [.creation label body world]
  | request (id : Nat) (world : World) : Involves (resolve id) world [.request id world]
  | stops {α β : Type} {evaluation : Eval α} {world after : World} {account : List Occurrence}
      {fault : Fault}
      (next : α → Eval β) (first : Involves evaluation world account)
      (faulted : evaluation.Faults world fault after) : Involves (evaluation >>= next) world account
  | goes {α β : Type} {evaluation : Eval α} {next : α → Eval β} {world between : World} {value : α}
      {account further : List Occurrence} (first : Involves evaluation world account)
      (returned : evaluation.Returns world value between)
        (rest : Involves (next value) between further) :
      Involves (evaluation >>= next) world (account ++ further)
  | ensuring {α : Type} {evaluation : Eval α} {world : World} {account : List Occurrence}
      {change : World → World} (still : ∀ world : World, world.Still (change world))
      (inner : Involves evaluation world account) :
        Involves (evaluation.ensuring change) world account

/-- An account tells everything that touches the trace or a lazy schema. -/
theorem Involves.linked {evaluation : Eval α} {world : World} {account : List Occurrence}
    (involves : evaluation.Involves world account) :
    Occurrence.Linked world account (evaluation.ending world).2 := by
  induction involves with
  | apart still world => exact still world
  | callback supplied world => exact ⟨.refl world, .refl _⟩
  | creation label body world => exact ⟨.refl world, .refl _⟩
  | request id world => exact ⟨.refl world, .refl _⟩
  | stops next _ faulted ih =>
    rw [ending_bind, faulted]
    rwa [show _ = _ from faulted] at ih
  | goes _ returned _ ihFirst ihRest =>
    rw [ending_bind, returned]
    rw [show _ = _ from returned] at ihFirst
    exact ihFirst.append ihRest
  | ensuring still _ ih => exact ih.before_still (still _)

/-- From every world there is an account. -/
def Accountable (evaluation : Eval α) : Prop := ∀ world, ∃ account,
    evaluation.Involves world account

theorem accountable_of_still {evaluation : Eval α} (still : evaluation.Moves World.Still) :
    evaluation.Accountable := fun world => ⟨[], .apart still world⟩

theorem accountable_pure (value : α) : (pure value : Eval α).Accountable :=
  accountable_of_still .refl

theorem accountable_raise (fault : Fault) : (raise fault : Eval α).Accountable :=
  accountable_of_still .refl

theorem accountable_get : (get : Eval World).Accountable := accountable_of_still .refl

theorem accountable_ofConstruction (made : Except Misuse α) :
    (ofConstruction made).Accountable := by
  cases made with
  | ok value => exact accountable_pure value
  | error cause => exact accountable_raise _

theorem accountable_perform {run : Traced α} (supplied : run.Supplied) :
    (perform run).Accountable :=
  fun world => ⟨_, .callback supplied world⟩

theorem accountable_resolve (id : Nat) : (resolve id).Accountable := fun world =>
    ⟨_, .request id world⟩

theorem Accountable.bind {evaluation : Eval α} {next : α → Eval β} (first : evaluation.Accountable)
    (rest : ∀ value, (next value).Accountable) : (evaluation >>= next).Accountable := by
  intro world
  obtain ⟨account, early⟩ := first world
  rcases ended : evaluation.ending world with ⟨fault | value, between⟩
  · exact ⟨account, .stops next early ended⟩
  · obtain ⟨further, late⟩ := rest value between
    exact ⟨account ++ further, .goes early ended late⟩

theorem Accountable.ensuring {evaluation : Eval α} {change : World → World}
    (inner : evaluation.Accountable)
    (still : ∀ world : World, world.Still (change world)) :
      (evaluation.ensuring change).Accountable :=
  fun world => (inner world).imp fun _ => .ensuring still

end Eval

namespace Checked

/-- From every world there is an account. -/
def Accountable (computation : Checked α) : Prop := Eval.Accountable computation.run

theorem accountable_pure (value : α) : (pure value : Checked α).Accountable :=
  Eval.accountable_pure (Except.ok value)

theorem accountable_reject (failure : Failure) : (reject failure : Checked α).Accountable :=
  Eval.accountable_pure (Except.error failure)

theorem Accountable.bind {computation : Checked α} {next : α → Checked β}
    (first : computation.Accountable)
    (rest : ∀ value, (next value).Accountable) : (computation >>= next).Accountable := by
  refine Eval.Accountable.bind first fun result => ?_
  cases result with
  | ok value => exact rest value
  | error failure => exact accountable_reject failure

/-- Handing a failure over as a value makes nothing happen. -/
theorem Accountable.attempt {computation : Checked α} (inner : computation.Accountable) :
    (attempt computation).Accountable := by
  have equal : (Checked.attempt computation).run =
      (computation.run >>= fun result => pure (.ok result) :
        Eval (Except Failure (Except Failure α))) := by
    funext world
    have sequenced := Eval.ending_bind computation.run
      (fun result => pure (Except.ok result : Except Failure (Except Failure α))) world
    refine (ending_attempt computation world).trans (Eq.trans ?_ sequenced.symm)
    unfold ending Eval.ending ExceptT.run
    rcases computation world with ⟨_ | _, after⟩ <;> rfl
  rw [Accountable, equal]
  exact Eval.Accountable.bind inner fun _ => Eval.accountable_pure _

theorem accountable_lift {evaluation : Eval α} (inner : evaluation.Accountable) :
    Accountable (ExceptT.lift evaluation) := by
  have equal : ExceptT.run (ExceptT.lift evaluation) =
      (evaluation >>= fun value => pure (.ok value) : Eval (Except Failure α)) := by
    funext world
    have sequenced :=
      Eval.ending_bind evaluation (fun value => pure (Except.ok value : Except Failure α)) world
    refine (ending_lift evaluation world).trans (Eq.trans ?_ sequenced.symm)
    rcases evaluation.ending world with ⟨_ | _, after⟩ <;> rfl
  rw [Accountable, equal]
  exact inner.bind fun _ => Eval.accountable_pure _

theorem accountable_perform {run : Traced α} (supplied : run.Supplied) :
    (perform run).Accountable :=
  accountable_lift (Eval.accountable_perform supplied)

theorem accountable_misuse (cause : Misuse) : (misuse cause : Checked α).Accountable :=
  accountable_lift (Eval.accountable_raise _)

theorem accountable_guarded (default : Value) {run : Traced α} (calls : run.Calls fun _ => True) :
    (guarded default run).Accountable := by
  refine (accountable_perform (.attempt calls)).bind fun result => ?_
  cases result with
  | ok value => exact accountable_pure value
  | error fault =>
    cases caught : fault.caught? default with
    | some failure => simpa only [caught] using accountable_reject failure
    | none => simpa only [caught] using accountable_lift (Eval.accountable_raise fault.passed)

/-- A composed computation has an account as soon as its parts have one. -/
theorem Composed.accountable {computation : Checked α}
    (composed : computation.Composed (fun _ => True) Accountable) : computation.Accountable := by
  induction composed with
  | pure value => exact accountable_pure value
  | reject failure => exact accountable_reject failure
  | misuse cause => exact accountable_misuse cause
  | bind _ _ first rest => exact first.bind rest
  | attempt _ inner => exact inner.attempt
  | guarded default calls => exact accountable_guarded default calls
  | reporter _ x => exact accountable_perform (.reporter _ x)
  | result _ x => exact accountable_perform (.reporter _ x)
  | part given => exact given

/-- Raising a failure makes nothing happen, and neither does handing it over. -/
theorem Accountable.raising {computation : Checked Value} (inner : computation.Accountable) :
    (raising computation).Accountable := by
  refine Eval.Accountable.bind inner fun result => ?_
  cases result with
  | ok value => exact Eval.accountable_pure value
  | error failure => exact Eval.accountable_raise _

theorem Accountable.outcome {computation : Checked Value} (inner : computation.Accountable) :
    (outcome computation).Accountable := by
  refine Eval.Accountable.bind inner fun result => ?_
  cases result with
  | ok value => exact Eval.accountable_pure _
  | error failure => exact Eval.accountable_pure _

end Checked

/-- A composed evaluation has an account as soon as its computations have one. -/
theorem Eval.Composed.accountable {evaluation : Eval Value}
    (composed : evaluation.Composed (fun _ => True) Checked.Accountable Eval.Accountable) :
    evaluation.Accountable := by
  induction composed with
  | pure value => exact accountable_pure value
  | bind _ _ first rest => exact first.bind rest
  | callback _ x => exact accountable_perform (Traced.supplied_callback _ x)
  | function _ x => exact accountable_perform (Traced.supplied_callback _ x)
  | raising inner => exact inner.accountable.raising
  | part given => exact given

namespace Rule

theorem accountable_safe {onLazy : Nat → SafeForm}
    (lazies : ∀ id x, (onLazy id x).Accountable) (rule : Rule)
    (x : Value) : (rule.safe onLazy x).Accountable :=
  (composed_safe (fun id x => .part (lazies id x)) rule rule.suppliedBy_anything x).accountable

theorem accountable_call {onLazy : Nat → SafeForm} {onLazyCall : Nat → CallForm}
    (lazies : ∀ id x, (onLazy id x).Accountable) (lazyCalls : ∀ id x, (onLazyCall id x).Accountable)
    (rule : Rule) (x : Value) : (rule.call onLazy onLazyCall x).Accountable :=
  (composed_call (fun id x => .part (lazies id x)) (fun id x => .part (lazyCalls id x)) rule
    rule.suppliedBy_anything x).accountable

theorem accountable_lazySafe : ∀ budget id x, (lazySafe budget id x).Accountable
  | 0, _, _ => Checked.accountable_misuse .tooDeep
  | budget + 1, id, x =>
    (Checked.accountable_lift (Eval.accountable_resolve id)).bind fun v =>
      accountable_safe (accountable_lazySafe budget) v.rule x

theorem accountable_lazyCall : ∀ budget id x, (lazyCall budget id x).Accountable
  | 0, _, _ => Eval.accountable_raise _
  | budget + 1, id, x =>
    (Eval.accountable_resolve id).bind fun v =>
      accountable_call (accountable_lazySafe budget) (accountable_lazyCall budget) v.rule x

end Rule

namespace Validator

theorem accountable_safe (v : Validator) (x : Value) : (v.safe x).Accountable :=
  (Checked.accountable_lift Eval.accountable_get).bind fun world =>
    Rule.accountable_safe (Rule.accountable_lazySafe (world.budget x)) v.rule x

theorem accountable_call (v : Validator) (x : Value) : (v.call x).Accountable :=
  Eval.accountable_get.bind fun world =>
    Rule.accountable_call (Rule.accountable_lazySafe (world.budget x))
      (Rule.accountable_lazyCall (world.budget x))
      v.rule x

theorem accountable_run (v : Validator) (x : Value) : (v.run x).Accountable :=
  (v.accountable_safe x).outcome

end Validator

namespace World

/-- The lazy schemas there are stay what they are, with what they were built to. -/
def Grows (before after : World) : Prop :=
  ∀ (id : Nat) (cell : LazyCell), before.lazies[id]? = some cell →
    ∃ built, after.lazies[id]? = some { cell with built := built } ∧ ∀ v,
      cell.built = some v → built = some v

variable {first second third : World} {id : Nat} {v : Validator}

theorem Grows.refl (world : World) : world.Grows world := fun _ cell found =>
    ⟨cell.built, found, fun _ held => held⟩

theorem Grows.trans (early : first.Grows second) (late : second.Grows third) :
    first.Grows third := by
  intro id cell found
  obtain ⟨built, there, kept⟩ := early id cell found
  obtain ⟨last, later, still⟩ := late id _ there
  exact ⟨last, later, fun v held => still v (kept v held)⟩

theorem grows_of_append {further : List LazyCell}
    (appended : second.lazies = first.lazies ++ further) :
    first.Grows second := by
  intro id cell found
  have inside : id < first.lazies.length := (List.getElem?_eq_some_iff.mp found).1
  refine ⟨cell.built, ?_, fun _ held => held⟩
  rw [appended, List.getElem?_append_left inside, found]

theorem Still.grows (still : first.Still second) : first.Grows second :=
  grows_of_append (still.lazies.trans (List.append_nil _).symm)

theorem Still.awaits (still : first.Still second) : first.Awaits second :=
  awaits_of_same still.lazies

theorem HasBuilt.grows (built : first.HasBuilt id v) (grows : first.Grows second) :
    second.HasBuilt id v := by
  obtain ⟨cell, found, held⟩ := built
  obtain ⟨later, there, kept⟩ := grows id cell found
  exact ⟨_, there, kept v held⟩

/-- What is built where nothing has been was built before. -/
theorem Awaits.hasBuilt (awaits : first.Awaits second) (built : second.HasBuilt id v) :
    first.HasBuilt id v := by
  obtain ⟨further, appended, unbuilt⟩ := awaits
  obtain ⟨cell, found, held⟩ := built
  rw [appended, List.getElem?_append] at found
  split at found
  · exact ⟨cell, found, held⟩
  · rw [unbuilt cell (List.mem_of_getElem? found)] at held
    cases held

end World

/-- A request lets the cells grow: they stay what they are, with what they were built to. -/
theorem Eval.grows_resolve (id : Nat) (world : World) :
    world.Grows ((resolve id).ending world).2 := by
  rcases ends (resolve id) world with ⟨v, after, resolved⟩ | ⟨fault, after, faulted⟩
  · rw [show (resolve id).ending world = _ from resolved]
    obtain ⟨cell, found, ⟨-, rfl⟩ | ⟨further, unbuilt, -, kept⟩⟩ := returns_resolve_cases resolved
    · exact .refl _
    · intro other held there
      have inside : other < world.lazies.length := (List.getElem?_eq_some_iff.mp there).1
      have before : (world.lazies ++ further)[other]? = some held := by
        rw [List.getElem?_append_left inside, there]
      rw [kept]
      by_cases same : id = other
      · subst same
        cases found.symm.trans there
        refine ⟨some v, ?_, fun w built => ?_⟩
        · rw [List.getElem?_modify_eq, before]
          rfl
        · rw [unbuilt] at built
          cases built
      · refine ⟨held.built, ?_, fun _ built => built⟩
        rw [List.getElem?_modify_ne _ _ same, before]
  · rw [show (resolve id).ending world = _ from faulted]
    obtain ⟨further, kept⟩ := faults_resolve_cases faulted
    exact World.grows_of_append kept

/-- A request for one lazy schema builds no other. -/
theorem Eval.hasBuilt_of_resolve_other {world : World} {id other : Nat} {v : Validator}
    (apart : other ≠ id)
    (built : ((resolve other).ending world).2.HasBuilt id v) : world.HasBuilt id v := by
  rw [World.ending_resolve] at built
  cases found : world.lazies[other]? with
  | none => simpa only [found] using built
  | some cell =>
    cases held : cell.built with
    | some w => simpa only [found, held] using built
    | none =>
      simp only [found, held, World.buildCell, ending_bind] at built
      have awaits := awaits_run cell world
      rcases ran : cell.run.ending world with ⟨fault | w, between⟩
      · rw [ran] at built awaits
        exact awaits.hasBuilt built
      · rw [ran] at built awaits
        obtain ⟨last, there, kept⟩ := built
        refine awaits.hasBuilt ⟨last, ?_, kept⟩
        change (between.lazies.modify other _)[id]? = some last at there
        rwa [List.getElem?_modify_ne _ _ apart] at there

namespace Occurrence

/-- It is asked what some lazy schema stands for. -/
def isRequest : Occurrence → Bool
  | .request _ _ => true
  | .callback _ _ | .creation _ _ _ => false

/-- It is asked what the lazy schema stands for, which there is. -/
def asks (id : Nat) : Occurrence → Bool
  | .request other before => other == id && before.lazies[id]?.isSome
  | .callback _ _ | .creation _ _ _ => false

/-- The factory of the lazy schema runs and gives the validator, which is kept and is the answer. -/
def Runs (id : Nat) (v : Validator) : Occurrence → Prop
  | .request other before => other = id ∧ ∃ cell between after, before.lazies[id]? = some cell ∧
      cell.run.Returns before v between ∧ (Eval.remember id v).Returns between () after ∧
      (Eval.resolve id).Returns before v after
  | .callback _ _ | .creation _ _ _ => False

/-- The answer is the validator, and nothing else happens. -/
def Recalls (id : Nat) (v : Validator) : Occurrence → Prop
  | .request other before => other = id ∧ (Eval.resolve id).Returns before v before
  | .callback _ _ | .creation _ _ _ => False

/-- The factory of the lazy schema succeeds if it has not been built when the occurrence begins. -/
def Allows (id : Nat) (occurrence : Occurrence) : Prop :=
  ∀ cell, occurrence.before.lazies[id]? = some cell → cell.built = none →
    ∃ v between, cell.run.Returns occurrence.before v between

variable {id : Nat} {v : Validator} {occurrence : Occurrence} {account : List Occurrence}
  {start last : World}

theorem grows (occurrence : Occurrence) : occurrence.before.Grows occurrence.after := by
  cases occurrence with
  | request id before => exact Eval.grows_resolve id before
  | callback before left => exact World.grows_of_append (List.append_nil _).symm
  | creation label body before => exact World.grows_of_append rfl

/-- What has been built is recalled. -/
theorem recalls_of_hasBuilt (built : occurrence.before.HasBuilt id v) (asks : occurrence.asks id) :
    occurrence.Recalls id v := by
  cases occurrence with
  | callback | creation => cases asks
  | request other before =>
    cases eq_of_beq (Bool.and_eq_true_iff.mp asks).1
    exact ⟨rfl, Eval.resolve_of_hasBuilt built⟩

/-- A factory that succeeds is run by a request for what has not been built. -/
theorem runs_of_not_hasBuilt (asks : occurrence.asks id)
    (unbuilt : ∀ v, ¬occurrence.before.HasBuilt id v)
    (allows : occurrence.Allows id) : ∃ v, occurrence.Runs id v := by
  cases occurrence with
  | callback | creation => cases asks
  | request other before =>
    obtain ⟨same, present⟩ := Bool.and_eq_true_iff.mp asks
    cases eq_of_beq same
    obtain ⟨cell, found⟩ := Option.isSome_iff_exists.mp present
    have empty : cell.built = none := by
      cases held : cell.built with
      | none => rfl
      | some v => exact absurd ⟨cell, found, held⟩ (unbuilt v)
    obtain ⟨v, between, ran⟩ := allows cell found empty
    have kept : (Eval.remember id v).Returns between ()
      ((Eval.remember id v).ending between).2 := rfl
    refine ⟨v, rfl, cell, between, _, found, ran, kept, ?_⟩
    rw [Eval.Returns, World.ending_resolve]
    simp only [found, empty]
    exact Eval.returns_bind.mpr ⟨v, between, ran, Eval.returns_bind.mpr ⟨(), _, kept, rfl⟩⟩

/-- Only a request for a lazy schema builds it. -/
theorem hasBuilt_of_not_asks (asks : occurrence.asks id = false)
    (built : occurrence.after.HasBuilt id v) :
    occurrence.before.HasBuilt id v := by
  cases occurrence with
  | callback before left => exact built
  | creation label body before =>
    have awaits : before.Awaits ((Eval.newLazy label body).ending before).2 :=
      ⟨[⟨label, body, none⟩], rfl, List.forall_mem_singleton.mpr rfl⟩
    exact awaits.hasBuilt built
  | request other before =>
    by_cases same : other = id
    · -- There is no such lazy schema, and the request comes to nothing.
      subst same
      cases found : before.lazies[other]? with
      | none =>
        have left : ((Eval.resolve other).ending before).2 = before := by
          rw [World.ending_resolve]
          simp only [found]
        rwa [after, left] at built
      | some cell =>
        rw [Occurrence.asks, found, beq_self_eq_true] at asks
        cases asks
    · exact Eval.hasBuilt_of_resolve_other same built

/-- What its factory gave a lazy schema stands for from then on. -/
theorem hasBuilt_of_runs (runs : occurrence.Runs id v) : occurrence.after.HasBuilt id v := by
  cases occurrence with
  | callback | creation => cases runs
  | request other before =>
    obtain ⟨rfl, cell, between, after, found, ran, kept, resolved⟩ := runs
    have built := Eval.hasBuilt_of_resolve resolved
    rwa [show after = _ from congrArg Prod.snd resolved.symm] at built

/-- Along an account cells only grow: from the start to each occurrence and from there to the end.
-/
theorem Linked.grows (linked : Linked start account last) :
    start.Grows last ∧ ∀ occurrence ∈ account,
      start.Grows occurrence.before ∧ occurrence.after.Grows last := by
  induction account generalizing start with
  | nil => exact ⟨linked.grows, fun _ inside => nomatch inside⟩
  | cons first rest ih =>
    obtain ⟨still, linked⟩ := linked
    obtain ⟨whole, each⟩ := ih linked
    have passed := still.grows.trans first.grows
    refine ⟨passed.trans whole, List.forall_mem_cons.mpr
      ⟨⟨still.grows, whole⟩, fun later inside => ?_⟩⟩
    exact ⟨passed.trans (each later inside).1, (each later inside).2⟩

/-- What was built at the start every request recalls. -/
theorem Linked.recalls (linked : Linked start account last) (built : start.HasBuilt id v) :
    ∀ occurrence ∈ account, occurrence.asks id → occurrence.Recalls id v :=
  fun occurrence inside => recalls_of_hasBuilt (built.grows (linked.grows.2 occurrence inside).1)

/-- The first request for what has not been built runs the factory, and every later request recalls
what that one run gave. -/
theorem Linked.runs_once (linked : Linked start account last) (unbuilt : ∀ v, ¬start.HasBuilt id v)
    (allows : ∀ occurrence ∈ account, occurrence.Allows id) :
    (∀ occurrence ∈ account, occurrence.asks id = false) ∨
    ∃ early first late v, account = early ++ first :: late ∧
      (∀ occurrence ∈ early, occurrence.asks id = false) ∧ first.Runs id v ∧
      ∀ occurrence ∈ late, occurrence.asks id → occurrence.Recalls id v := by
  induction account generalizing start with
  | nil => exact .inl fun _ inside => nomatch inside
  | cons first rest ih =>
    obtain ⟨still, linked⟩ := linked
    obtain ⟨here, later⟩ := List.forall_mem_cons.mp allows
    have waiting : ∀ v, ¬first.before.HasBuilt id v := fun v built =>
      unbuilt v (still.awaits.hasBuilt built)
    cases asks : first.asks id with
    | true =>
      obtain ⟨v, runs⟩ := runs_of_not_hasBuilt asks waiting here
      have quiet : ∀ occurrence ∈ ([] : List Occurrence), occurrence.asks id = false :=
        fun _ inside => nomatch inside
      exact .inr ⟨[], first, rest, v, rfl, quiet, runs, linked.recalls (hasBuilt_of_runs runs)⟩
    | false =>
      have left : ∀ v, ¬first.after.HasBuilt id v := fun v built =>
        waiting v (hasBuilt_of_not_asks asks built)
      rcases ih linked left later with none | ⟨early, next, late, v, rfl, quiet, runs, recalls⟩
      · exact .inl (List.forall_mem_cons.mpr ⟨asks, none⟩)
      · exact .inr ⟨first :: early, next, late, v, rfl, List.forall_mem_cons.mpr ⟨asks, quiet⟩,
          runs, recalls⟩

/-- Where nothing is built, no factory gives anything. -/
theorem Linked.not_runs (linked : Linked start account last) (awaits : start.Awaits last) :
    ∀ occurrence ∈ account, (∀ v, ¬start.HasBuilt id v) → ∀ v, ¬occurrence.Runs id v := by
  intro occurrence inside unbuilt v runs
  obtain ⟨-, late⟩ := linked.grows.2 occurrence inside
  exact unbuilt v (awaits.hasBuilt ((hasBuilt_of_runs runs).grows late))

end Occurrence

namespace Eval

/-- What happens is that lazy schemas come into being and that callbacks run. -/
def Foregoes (evaluation : Eval α) : Prop :=
  ∀ world, ∃ account, evaluation.Involves world account ∧
    ∀ occurrence ∈ account, occurrence.isRequest = false

theorem foregoes_of_still {evaluation : Eval α} (still : evaluation.Moves World.Still) :
    evaluation.Foregoes :=
  fun world => ⟨[], .apart still world, fun _ inside => nomatch inside⟩

theorem Foregoes.bind {evaluation : Eval α} {next : α → Eval β} (first : evaluation.Foregoes)
    (rest : ∀ value, (next value).Foregoes) : (evaluation >>= next).Foregoes := by
  intro world
  obtain ⟨account, early, none⟩ := first world
  rcases ended : evaluation.ending world with ⟨fault | value, between⟩
  · exact ⟨account, .stops next early ended, none⟩
  · obtain ⟨further, late, also⟩ := rest value between
    exact ⟨account ++ further, .goes early ended late, List.forall_mem_append.mpr ⟨none, also⟩⟩

theorem Foregoes.accountable {evaluation : Eval α} (foregoes : evaluation.Foregoes) :
    evaluation.Accountable :=
  fun world => (foregoes world).imp fun _ => And.left

theorem still_ofConstruction (made : Except Misuse α) : (ofConstruction made).Moves World.Still :=
  moves_ofConstruction .refl made

mutual

/-- Building a schema runs the user code in its recipe and creates the lazy schemas in it, and
nothing else happens. -/
theorem foregoes_build : ∀ recipe : Recipe, recipe.build.Foregoes
  | .calling run => fun world =>
    ⟨_, .callback (.factory run) world, List.forall_mem_singleton.mpr rfl⟩
  | .reference name => foregoes_of_still (moves_lookup .refl (fun _ _ _ => .trans) name)
  | .lazy label body =>
    Foregoes.bind
      (fun world => ⟨_, .creation label body world, List.forall_mem_singleton.mpr rfl⟩) fun _ =>
      foregoes_of_still (moves_pure .refl _)
  | .combine construction parts =>
    (foregoes_buildAll parts).bind fun schemas =>
      foregoes_of_still (still_ofConstruction (construction schemas))

theorem foregoes_buildAll : ∀ parts : List Recipe, (Recipe.buildAll parts).Foregoes
  | [] => foregoes_of_still (moves_pure .refl _)
  | part :: rest => (foregoes_build part).bind fun _ =>
    (foregoes_buildAll rest).bind fun _ => foregoes_of_still (moves_pure .refl _)

end

end Eval

end Conform
