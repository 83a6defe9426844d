import Conform.Proofs.Parsing.ConfiguredMessages

/-!
Blocks of configuration. A program nests blocks, each of which gives a vendor, a dialect, both or
neither and closes however its body ends, among changes of the configured messages and anything else
that leaves the configuration alone or ends in a fault, which may be handled further out. Two
equations carry everything: at the end of a run the settings are those at its start with the message
changes made, and at each moment within it, these under the blocks that are open
(`Statement.settings_of_comes`).
-/
namespace Conform

namespace Eval

variable {α β : Type}

/-- What is protected is closed however it ends, and closing it may end in a fault of its own. -/
theorem ending_tryFinally (body : Eval α) (closing : Eval β) (world : World) :
    (tryFinally body closing).ending world = match closing.ending (body.ending world).2 with
      | (.ok _, after) => ((body.ending world).1, after)
      | (.error fault, after) => (.error fault, after) := by
  simp only [ending, tryFinally, tryFinally', Functor.map, ExceptT.map, ExceptT.mk,
    bind, StateT.bind]
  rcases body world with ⟨_ | _, left⟩
  · dsimp only
    rcases closing left with ⟨_ | _, after⟩ <;> rfl
  · dsimp only
    rcases closing left with ⟨_ | _, after⟩ <;> rfl

/-- A fault is handled in the world that it leaves. -/
theorem ending_tryCatch (body : Eval α) (handle : Fault → Eval α) (world : World) :
    (tryCatch body handle).ending world = match body.ending world with
      | (.ok value, after) => (.ok value, after)
      | (.error fault, after) => (handle fault).ending after := by
  simp only [ending, tryCatch, tryCatchThe, MonadExceptOf.tryCatch, ExceptT.tryCatch,
    ExceptT.mk, bind, StateT.bind]
  rcases body world with ⟨_ | _, left⟩ <;> rfl

end Eval

/-- The configuration is as it was, and so are the open contexts. -/
structure World.SameConfiguration (before after : World) : Prop where
  settings : after.settings = before.settings
  contexts : after.contexts = before.contexts

/-- A program with blocks of configuration. -/
inductive Statement where
  /-- What leaves the configuration alone, such as validating, converting or raising. -/
  | apart (evaluation : Eval Unit) (same : evaluation.Moves World.SameConfiguration)
  /-- A change of the configured messages. -/
  | message (change : MessageChange)
  /-- One after the other. -/
  | sequence (first second : Statement)
  /-- A block with settings of its own. -/
  | block (given : ContextSettings) (body : Statement)
  /-- A body some of whose faults are handled. -/
  | handling (body : Statement) (handles : Fault → Bool) (handler : Statement)

namespace Settings

/-- The settings under blocks, the innermost first: of each setting the innermost value given, else
the one outside. -/
def under (settings : Settings) (blocks : List ContextSettings) : Settings :=
  { settings with
    vendor := (blocks.findSome? (·.vendor)).getD settings.vendor
    draft := (blocks.findSome? (·.draft)).getD settings.draft }

theorem under_under (settings : Settings) (inner outer : List ContextSettings) :
    (settings.under outer).under inner = settings.under (inner ++ outer) := by
  unfold under
  simp only [List.findSome?_append, Option.getD_or]

/-- Every dialect that the context gives is known. -/
def Knows (given : ContextSettings) : Prop :=
  ∀ draft, given.draft = some draft → (draftAddress? draft).isSome

/-- Entering a context with a known dialect, or with none, puts the settings under it. -/
theorem enter_of_knows {given : ContextSettings} (knows : Knows given) (settings : Settings) :
    settings.enter given = .ok (settings.under [given]) := by
  obtain ⟨vendor, draft⟩ := given
  cases draft with
  | none => cases vendor <;> rfl
  | some draft =>
    have known := knows draft rfl
    unfold enter
    dsimp only
    rw [if_pos known]
    cases vendor <;> rfl

/-- A context with an unknown dialect cannot be entered. -/
theorem enter_of_unknown {given : ContextSettings} {draft : String}
    (gives : given.draft = some draft)
    (unknown : draftAddress? draft = none) (settings : Settings) :
    settings.enter given = .error (.unknownDraft draft) := by
  unfold enter
  rw [gives]
  dsimp only
  rw [unknown]
  rfl

/-- What a context gave is taken back, whatever else has changed since it opened. -/
theorem leave_under {opening settings : Settings} (given : ContextSettings)
    (vendor : settings.vendor = opening.vendor) (draft : settings.draft = opening.draft) :
    (settings.under [given]).leave ⟨given, opening.vendor, opening.draft⟩ = settings := by
  obtain ⟨givenVendor, givenDraft⟩ := given
  cases settings
  cases vendor
  cases draft
  cases givenVendor <;> cases givenDraft <;> rfl

/-- The settings with vendor and dialect as they are in others. -/
def returnedTo (settings opening : Settings) : Settings :=
  { settings with vendor := opening.vendor, draft := opening.draft }

theorem returnedTo_under {opening settings : Settings} (blocks : List ContextSettings)
    (vendor : settings.vendor = opening.vendor) (draft : settings.draft = opening.draft) :
    (settings.under blocks).returnedTo opening = settings := by
  cases settings
  cases vendor
  cases draft
  rfl

end Settings

namespace MessageChange

/-- A change of a message changes neither vendor nor dialect. -/
theorem vendor_applied (settings : Settings) (change : MessageChange) :
    (applied settings change).vendor = settings.vendor := by
  rcases change with ⟨scope, message⟩ | scope <;> cases scope <;> rfl

theorem draft_applied (settings : Settings) (change : MessageChange) :
    (applied settings change).draft = settings.draft := by
  rcases change with ⟨scope, message⟩ | scope <;> cases scope <;> rfl

theorem vendor_foldl (changes : List MessageChange) (settings : Settings) :
    (changes.foldl applied settings).vendor = settings.vendor := by
  induction changes generalizing settings with
  | nil => rfl
  | cons change rest ih => exact (ih _).trans (vendor_applied settings change)

theorem draft_foldl (changes : List MessageChange) (settings : Settings) :
    (changes.foldl applied settings).draft = settings.draft := by
  induction changes generalizing settings with
  | nil => rfl
  | cons change rest ih => exact (ih _).trans (draft_applied settings change)

theorem applied_under (settings : Settings) (blocks : List ContextSettings)
    (change : MessageChange) :
    applied (settings.under blocks) change = (applied settings change).under blocks := by
  rcases change with ⟨scope, message⟩ | scope <;> cases scope <;> rfl

/-- Blocks and changes of messages do not touch each other. -/
theorem foldl_under (changes : List MessageChange) (settings : Settings)
    (blocks : List ContextSettings) :
    changes.foldl applied (settings.under blocks) =
      (changes.foldl applied settings).under blocks := by
  induction changes generalizing settings with
  | nil => rfl
  | cons change rest ih =>
    rw [List.foldl_cons, List.foldl_cons, applied_under, ih]

end MessageChange

namespace Statement

/-- Runs the program. A block that cannot open does not run its body; one that is open closes
however its body ends. -/
def run : Statement → Eval Unit
  | apart evaluation _ => evaluation
  | message change => change.perform
  | sequence first second => do
    run first
    run second
  | block given body => do
    Eval.enterContext given
    tryFinally (run body) Eval.leaveContext
  | handling body handles handler =>
    tryCatch (run body) fun fault => if handles fault then run handler else Eval.raise fault

/-- The changes of messages that a run makes from a world, in order. -/
def changes : Statement → World → List MessageChange
  | apart _ _, _ => []
  | message change, _ => [change]
  | sequence first second, world => changes first world ++
    match (run first).ending world with
    | (.ok _, between) => changes second between
    | (.error _, _) => []
  | block given body, world =>
    match (Eval.enterContext given).ending world with
    | (.ok _, opened) => changes body opened
    | (.error _, _) => []
  | handling body handles handler, world => changes body world ++
    match (run body).ending world with
    | (.ok _, _) => []
    | (.error fault, between) => if handles fault then changes handler between else []

/-- The run of a program comes to a part of it, under blocks that it has opened, the innermost
first, and after changes of messages. -/
inductive Comes : Statement → World → List ContextSettings → List MessageChange →
    Statement → World → Prop
  | here (program : Statement) (world : World) : Comes program world [] [] program world
  | first {first part : Statement} {world there : World} {blocks : List ContextSettings}
      {made : List MessageChange} (second : Statement) :
      Comes first world blocks made part there →
        Comes (sequence first second) world blocks made part there
  | second {first second part : Statement} {world between there : World}
      {blocks : List ContextSettings}
      {made : List MessageChange} :
      (run first).Returns world () between → Comes second between blocks made part there →
      Comes (sequence first second) world blocks (changes first world ++ made) part there
  | inside {given : ContextSettings} {body part : Statement} {world opened there : World}
      {blocks : List ContextSettings} {made : List MessageChange} :
      (Eval.enterContext given).Returns world () opened → Comes body opened blocks made part there →
      Comes (block given body) world (blocks ++ [given]) made part there
  | handled {body part : Statement} {world there : World} {blocks : List ContextSettings}
      {made : List MessageChange} (handles : Fault → Bool) (handler : Statement) :
      Comes body world blocks made part there →
      Comes (handling body handles handler) world blocks made part there
  | handler {body handler part : Statement} {handles : Fault → Bool} {world between there : World}
      {fault : Fault} {blocks : List ContextSettings} {made : List MessageChange} :
      (run body).Faults world fault between → handles fault →
        Comes handler between blocks made part there →
      Comes (handling body handles handler) world blocks (changes body world ++ made) part there

section Blocks

variable {given : ContextSettings} {world : World}

/-- The world in a block that opens. -/
def opened (given : ContextSettings) (world : World) : World :=
  { world with
    settings := world.settings.under [given]
    contexts := ⟨given, world.settings.vendor, world.settings.draft⟩ :: world.contexts }

theorem ending_enterContext (knows : Settings.Knows given) (world : World) :
    (Eval.enterContext given).ending world = (.ok (), opened given world) := by
  rw [Eval.enterContext, Eval.ending_get_bind, Settings.enter_of_knows knows]
  rfl

theorem faults_enterContext {draft : String} (gives : given.draft = some draft)
    (unknown : Settings.draftAddress? draft = none) (world : World) :
    (Eval.enterContext given).Faults world (.misuse (.unknownDraft draft)) world := by
  rw [Eval.Faults, Eval.enterContext, Eval.ending_get_bind, Settings.enter_of_unknown gives unknown]
  rfl

/-- A context names no unknown dialect, or there is an unknown one that it names. -/
theorem knows_or_unknown (given : ContextSettings) :
    Settings.Knows given ∨
      ∃ draft, given.draft = some draft ∧ Settings.draftAddress? draft = none := by
  cases gives : given.draft with
  | none => exact .inl fun draft stated => by rw [gives] at stated; cases stated
  | some draft =>
    cases known : Settings.draftAddress? draft with
    | none => exact .inr ⟨draft, rfl, known⟩
    | some address =>
      refine .inl fun other stated => ?_
      rw [gives] at stated
      cases stated
      rw [known]
      rfl

/-- The world after a block whose body leaves a world. -/
def closed (given : ContextSettings) (world left : World) : World :=
  { left with
    settings := left.settings.leave ⟨given, world.settings.vendor, world.settings.draft⟩
    contexts := world.contexts }

/-- A block that opens ends as its body does, and closes. -/
theorem ending_block (knows : Settings.Knows given) {body : Statement}
    (kept : (body.run.ending (opened given world)).2.contexts = (opened given world).contexts) :
    (block given body).run.ending world =
      ((body.run.ending (opened given world)).1,
        closed given world (body.run.ending (opened given world)).2) := by
  rw [run, Eval.ending_bind, ending_enterContext knows]
  dsimp only
  rw [Eval.ending_tryFinally, Eval.leaveContext, Eval.ending_get_bind, kept]
  rfl

end Blocks

/-- At the end of a run the settings are those at its start with the changes of messages made, and
the same contexts are open. -/
theorem settings_of_run (program : Statement) (world : World) :
    (program.run.ending world).2.settings =
      (program.changes world).foldl MessageChange.applied world.settings ∧
      (program.run.ending world).2.contexts = world.contexts := by
  induction program generalizing world with
  | apart evaluation same => exact ⟨(same world).settings, (same world).contexts⟩
  | message change =>
    rw [run, MessageChange.returns_perform]
    exact ⟨rfl, rfl⟩
  | sequence first second ihFirst ihSecond =>
    obtain ⟨settings, contexts⟩ := ihFirst world
    rw [run, Eval.ending_bind, changes]
    rcases ended : first.run.ending world with ⟨fault | _, between⟩
    · rw [ended] at settings contexts
      exact ⟨by rw [List.append_nil]; exact settings, contexts⟩
    · rw [ended] at settings contexts
      obtain ⟨later, same⟩ := ihSecond between
      dsimp only
      rw [List.foldl_append, ← settings]
      exact ⟨later, same.trans contexts⟩
  | block given body ih =>
    rcases knows_or_unknown given with knows | ⟨draft, gives, unknown⟩
    · obtain ⟨settings, contexts⟩ := ih (opened given world)
      rw [ending_block knows contexts, changes, ending_enterContext knows]
      refine ⟨?_, rfl⟩
      change (body.run.ending (opened given world)).2.settings.leave _ = _
      rw [settings]
      change ((body.changes _).foldl MessageChange.applied
        (world.settings.under [given])).leave _ = _
      -- The body's changes are pulled out of the block, so that leaving takes back what was given
      -- and no more.
      rw [MessageChange.foldl_under]
      exact Settings.leave_under given (MessageChange.vendor_foldl ..)
        (MessageChange.draft_foldl ..)
    · have refused := faults_enterContext gives unknown world
      rw [run, Eval.ending_bind, changes, refused]
      exact ⟨rfl, rfl⟩
  | handling body handles handler ihBody ihHandler =>
    obtain ⟨settings, contexts⟩ := ihBody world
    rw [run, Eval.ending_tryCatch, changes]
    rcases ended : body.run.ending world with ⟨fault | _, between⟩
    · rw [ended] at settings contexts
      obtain ⟨later, same⟩ := ihHandler between
      dsimp only
      split
      · rw [List.foldl_append, ← settings]
        exact ⟨later, same.trans contexts⟩
      · rw [List.append_nil]
        exact ⟨settings, contexts⟩
    · rw [ended] at settings contexts
      exact ⟨by rw [List.append_nil]; exact settings, contexts⟩

/-- At each moment of a run the settings are those at its start with the changes of messages made so
far, under the blocks that are open. -/
theorem settings_of_comes {program part : Statement} {world there : World}
    {blocks : List ContextSettings}
    {made : List MessageChange} (comes : program.Comes world blocks made part there) :
    there.settings = (made.foldl MessageChange.applied world.settings).under blocks := by
  induction comes with
  | here program world => rfl
  | first second _ ih => exact ih
  | handled handles handler _ ih => exact ih
  | @second first second part world between there blocks made returned _ ih =>
    have settings := (settings_of_run first world).1
    rw [returned] at settings
    rw [ih, settings, List.foldl_append]
  | @inside given body part world inside there blocks made entered _ ih =>
    -- The block that was entered is the outermost of those that are open in its body.
    rcases knows_or_unknown given with knows | ⟨draft, gives, unknown⟩
    · cases (ending_enterContext knows world).symm.trans entered
      rw [ih, opened, MessageChange.foldl_under, Settings.under_under]
    · cases (faults_enterContext gives unknown world).symm.trans entered
  | @handler body handler part handles world between there fault blocks made faulted _ _ ih =>
    have settings := (settings_of_run body world).1
    rw [faulted] at settings
    rw [ih, settings, List.foldl_append]

/-- What a block does from a world. With an unknown dialect it ends in a fault and changes nothing.
Otherwise its body runs under the settings that it gives, it ends as its body does, and it leaves
the settings that its body leaves, with vendor and dialect as they were when it opened. -/
structure Restores (given : ContextSettings) (body : Statement) (world : World) : Prop where
  refused : ∀ draft, given.draft = some draft → Settings.draftAddress? draft = none →
    (block given body).run.Faults world (.misuse (.unknownDraft draft)) world
  ended : Settings.Knows given → ∃ inside answer left after,
    (Eval.enterContext given).Returns world () inside ∧
      inside.settings = world.settings.under [given] ∧
    body.run.ending inside = (answer, left) ∧
      (block given body).run.ending world = (answer, after) ∧
    after.settings = left.settings.returnedTo world.settings

theorem restores (given : ContextSettings) (body : Statement) (world : World) :
    Restores given body world := by
  constructor
  · intro draft gives unknown
    exact Eval.faults_bind.mpr (.inl (faults_enterContext gives unknown world))
  · intro knows
    obtain ⟨settings, contexts⟩ := settings_of_run body (opened given world)
    refine ⟨opened given world, _, (body.run.ending (opened given world)).2, _,
      ending_enterContext knows world, rfl, rfl, ending_block knows contexts, ?_⟩
    have held : (body.run.ending (opened given world)).2.settings =
        ((body.changes (opened given world)).foldl MessageChange.applied world.settings).under
          [given] :=
      settings.trans (MessageChange.foldl_under ..)
    have vendor := MessageChange.vendor_foldl (body.changes (opened given world)) world.settings
    have draft := MessageChange.draft_foldl (body.changes (opened given world)) world.settings
    rw [closed, held, Settings.leave_under given vendor draft,
      Settings.returnedTo_under [given] vendor draft]

/-- Blocks restore what they change, and nothing else. After a run the settings are those before it
with the changes of messages made. At each moment within it, vendor and dialect are those of the
innermost open block that gives one, the messages those that the changes so far leave; whatever part
of the program is run from there, vendor and dialect are the same again when it ends, and a block
does no more to the settings than its body. -/
theorem blocks_restore_settings (program : Statement) (world : World) :
    (program.run.ending world).2.settings =
        (program.changes world).foldl MessageChange.applied world.settings ∧
      ∀ blocks made part there, program.Comes world blocks made part there →
        there.settings = (made.foldl MessageChange.applied world.settings).under blocks ∧
        (part.run.ending there).2.settings.vendor = there.settings.vendor ∧
        (part.run.ending there).2.settings.draft = there.settings.draft ∧
        ∀ given body, part = block given body → Restores given body there := by
  refine ⟨(settings_of_run program world).1, fun blocks made part there comes => ?_⟩
  have left := (settings_of_run part there).1
  refine ⟨settings_of_comes comes, ?_, ?_, fun given body _ => restores given body there⟩
  · rw [left, MessageChange.vendor_foldl]
  · rw [left, MessageChange.draft_foldl]

/-- Raises a fault. -/
private def raising : Statement :=
  .apart (Eval.raise (.ordinary .value "no")) fun _ => ⟨rfl, rfl⟩

/-- A message is set in a block that gives a vendor, and in a block within it that gives a dialect
there is a fault. When that is handled, a block with an unknown dialect ends the program. -/
private def shop : Statement :=
  .handling
    (.block ⟨some "shop", none⟩ (.sequence (.message (.set .everything (.text "Please check")))
      (.block ⟨none, some "draft-2020-12"⟩ raising)))
    (fun _ => true) (.block ⟨none, some "draft-3"⟩ raising)

/-- Both settings are in force where the fault arises, and neither is afterwards; the message
stays. -/
theorem shop_restores :
    (∃ there, shop.Comes (World.initial "") [⟨none, some "draft-2020-12"⟩, ⟨some "shop", none⟩]
        [.set .everything (.text "Please check")] raising there ∧
      there.settings.vendor = "shop" ∧ there.settings.draft = "draft-2020-12") ∧
    (shop.run.ending (World.initial "")).2.settings =
      (Settings.initial "").setMessage .everything (.text "Please check") := by
  obtain ⟨left, moments⟩ := blocks_restore_settings shop (World.initial "")
  have vendor : (Eval.enterContext ⟨some "shop", none⟩).Returns (World.initial "") ()
    (opened ⟨some "shop", none⟩ (World.initial "")) :=
      ending_enterContext (fun _ stated => by cases stated) _
  have message : (Statement.message (.set .everything (.text "Please check"))).run.Returns
    (opened ⟨some "shop", none⟩ (World.initial "")) () _ := MessageChange.returns_perform _ _
  have draft (world : World) : (Eval.enterContext ⟨none, some "draft-2020-12"⟩).Returns world ()
      (opened ⟨none, some "draft-2020-12"⟩ world) :=
    ending_enterContext (fun _ stated => by cases stated; rfl) world
  obtain ⟨there, reached⟩ : ∃ there, shop.Comes (World.initial "")
      [⟨none, some "draft-2020-12"⟩, ⟨some "shop", none⟩]
        [.set .everything (.text "Please check")] raising there :=
    ⟨_, .handled _ _ (.inside vendor (.second message (.inside (draft _) (.here raising _))))⟩
  have settings := (moments _ _ _ there reached).1
  refine ⟨⟨there, reached, ?_, ?_⟩, left⟩
  · rw [settings]
    rfl
  · rw [settings]
    rfl

end Statement

end Conform
