import Conform.JsonSchema.Converter
import Conform.Proofs.JsonSchema.Expansion

/-!
The memory of the document converter. Neither building a schema nor projecting it looks at what is
being expanded or at what is registered (`Eval.Disregards`). The converter marks what it expands and
unmarks it however the expansion ends, so it does what the projection does that is handed what is
being expanded (`Converter.ending_convert`), and it leaves its memory as it found it. A new
converter does not look at the memory of the one around it, either (`Schema.fresh_assembled`).
-/
namespace Conform

/-- The world with other lazy schemas being expanded and other definitions registered. -/
def World.aside (world : World) (expanding : List Nat)
    (definitions : Entries String Schema) : World :=
  { world with expanding := expanding, definitions := definitions }

namespace Eval

variable {α β : Type}

/-- What is being expanded and what is registered make no difference to the evaluation, and it
changes neither. -/
def Disregards (evaluation : Eval α) : Prop :=
  ∀ world expanding definitions, evaluation.ending (world.aside expanding definitions) =
    ((evaluation.ending world).1, (evaluation.ending world).2.aside expanding definitions)

theorem Disregards.aside_kept {evaluation : Eval α} (disregards : evaluation.Disregards)
    (world : World) :
    (evaluation.ending world).2.aside world.expanding world.definitions =
      (evaluation.ending world).2 :=
  (congrArg Prod.snd (disregards world world.expanding world.definitions)).symm

theorem Disregards.expanding_kept {evaluation : Eval α} (disregards : evaluation.Disregards)
    (world : World) :
    (evaluation.ending world).2.expanding = world.expanding :=
  (congrArg World.expanding (disregards.aside_kept world)).symm

theorem Disregards.definitions_kept {evaluation : Eval α} (disregards : evaluation.Disregards)
    (world : World) :
    (evaluation.ending world).2.definitions = world.definitions :=
  (congrArg World.definitions (disregards.aside_kept world)).symm

theorem disregards_pure (value : α) : (pure value : Eval α).Disregards := fun _ _ _ => rfl

theorem disregards_misuse (cause : Misuse) : (misuse cause : Eval α).Disregards := fun _ _ _ => rfl

theorem disregards_ofConstruction (made : Except Misuse α) : (ofConstruction made).Disregards := by
  cases made with
  | ok value => exact disregards_pure value
  | error cause => exact disregards_misuse cause

theorem Disregards.bind {evaluation : Eval α} {next : α → Eval β} (first : evaluation.Disregards)
    (rest : ∀ value, (next value).Disregards) : (evaluation >>= next).Disregards := by
  intro world expanding definitions
  rw [ending_bind, ending_bind, first]
  rcases evaluation.ending world with ⟨fault | value, between⟩
  · rfl
  · exact rest value between expanding definitions

/-- Looking at the world, but not at what is being expanded and not at what is registered. -/
theorem disregards_get {next : World → Eval α}
    (blind : ∀ world expanding definitions, next (world.aside expanding definitions) = next world)
    (rest : ∀ world, (next world).Disregards) : (get >>= next).Disregards := by
  intro world expanding definitions
  rw [ending_get_bind, ending_get_bind, blind]
  exact rest world world expanding definitions

theorem disregards_lookup (name : String) : (lookup name).Disregards := by
  refine disregards_get (fun _ _ _ => rfl) fun world => ?_
  cases world.names.get? name with
  | some schema => exact disregards_pure schema
  | none => exact disregards_misuse _

mutual

theorem disregards_build : ∀ recipe : Recipe, recipe.build.Disregards
  | .calling _ => fun _ _ _ => rfl
  | .reference name => disregards_lookup name
  | .lazy _ _ => fun _ _ _ => rfl
  | .combine construction parts =>
    (disregards_buildAll parts).bind fun schemas => disregards_ofConstruction (construction schemas)

theorem disregards_buildAll : ∀ parts : List Recipe, (Recipe.buildAll parts).Disregards
  | [] => disregards_pure []
  | part :: rest => (disregards_build part).bind fun _ =>
    (disregards_buildAll rest).bind fun _ => disregards_pure _

end

/-- A factory runs alike whatever is being expanded and registered. -/
theorem disregards_run (cell : LazyCell) : cell.run.Disregards := by
  have rest : Disregards (do
      let schema ← cell.body.build
      ofConstruction schema.toValidator : Eval Validator) :=
    (disregards_build cell.body).bind fun schema => disregards_ofConstruction schema.toValidator
  unfold LazyCell.run
  cases cell.label with
  | some label => exact Disregards.bind (fun _ _ _ => rfl) fun _ => rest
  | none => exact rest

theorem disregards_buildCell (id : Nat) (cell : LazyCell) : (World.buildCell id cell).Disregards :=
  (disregards_run cell).bind fun v => Disregards.bind (fun _ _ _ => rfl) fun _ => disregards_pure v

theorem disregards_resolve (id : Nat) : (resolve id).Disregards := by
  refine disregards_get (fun _ _ _ => rfl) fun world => ?_
  rcases world.lazies[id]? with _ | ⟨label, body, _ | v⟩
  · exact disregards_misuse _
  · exact disregards_buildCell id ⟨label, body, none⟩
  · exact disregards_pure v

end Eval

namespace Projection

open Eval

variable {draft : String}

theorem disregards_ofSchema {onLazy : Nat → Eval Keywords} (lazies : ∀ id, (onLazy id).Disregards)
    (schema : Schema) : (ofSchema draft onLazy schema).Disregards := by
  have congruence : Congruence (fun run _ => run.Disregards) True := {
    pure := disregards_pure
    bind := fun first rest => first.bind rest
    misuse := fun _ _ cause _ => disregards_misuse cause }
  exact @related_everywhere (fun run _ => run.Disregards) draft onLazy onLazy
    congruence lazies schema

/-- Lazy schemas are projected whatever is registered, and independently of what another converter
expands. -/
theorem disregards_ofLazy (budget : Nat) (expanding : List Nat) (id : Nat) :
    (ofLazy draft budget expanding id).Disregards := by
  induction budget generalizing expanding id with
  | zero => exact disregards_misuse .tooDeep
  | succ budget ih =>
    by_cases inside : id ∈ expanding
    · rw [ofLazy_cut inside]
      exact disregards_pure []
    · rw [ofLazy_expanded inside]
      exact (disregards_resolve id).bind fun v =>
        disregards_ofSchema (ih (id :: expanding)) (.validator v)

end Projection

namespace Eval

/-- What is being expanded makes no difference to the evaluation, and it does not change it. -/
def Heedless (evaluation : Eval α) : Prop :=
  ∀ world expanding, evaluation.ending (world.aside expanding world.definitions) =
    ((evaluation.ending world).1,
      (evaluation.ending world).2.aside expanding (evaluation.ending world).2.definitions)

theorem Disregards.heedless {evaluation : Eval α} (disregards : evaluation.Disregards) :
    evaluation.Heedless := by
  intro world expanding
  rw [disregards, disregards.definitions_kept]

theorem Heedless.bind {evaluation : Eval α} {next : α → Eval β} (first : evaluation.Heedless)
    (rest : ∀ value, (next value).Heedless) : (evaluation >>= next).Heedless := by
  intro world expanding
  rw [ending_bind, ending_bind, first]
  rcases evaluation.ending world with ⟨fault | value, between⟩
  · rfl
  · exact rest value between expanding

theorem Heedless.expanding_kept {evaluation : Eval α} (heedless : evaluation.Heedless)
    (world : World) : (evaluation.ending world).2.expanding = world.expanding :=
  congrArg (fun ending => ending.2.expanding) (heedless world world.expanding)

end Eval

namespace Schema

open Eval

variable {draft address : String}

theorem disregards_project (draft : String) (expanding : List Nat) (schema : Schema) :
    (schema.project draft expanding).Disregards := by
  intro world other definitions
  rw [ending_project, ending_project]
  exact Projection.disregards_ofSchema (Projection.disregards_ofLazy _ expanding) schema world other
    definitions

theorem disregards_projectAll (draft : String) (expanding : List Nat)
    (definitions : List (String × Schema)) :
      (projectAll draft expanding definitions).Disregards := by
  induction definitions with
  | nil => exact disregards_pure []
  | cons definition rest ih =>
    exact (disregards_project draft expanding definition.2).bind fun _ =>
      ih.bind fun _ => disregards_pure _

theorem disregards_chosenDraft (draft : Option String) : (chosenDraft draft).Disregards :=
  fun _ _ _ => rfl

namespace DocumentOptions

variable (options : DocumentOptions)

def addressed (address : String) (body : Keywords) : Keywords :=
  if options.includeAddress then body.putValue "$schema" (.str address) else body

/-- The definitions beside a schema: the registered ones if they are asked for, overlaid with the
given ones. -/
def gathered (world : World) : Entries String Schema :=
  Entries.merge (if options.useRegistered then world.definitions else []) options.definitions

/-- How a document schema is put together from what converts a schema and what converts
definitions. -/
def assembled (address : String) (convert : Eval Keywords)
    (convertAll : List (String × Schema) → Eval Keywords) :
    Eval Keywords := do
  let body ← convert
  let world ← get
  if (options.gathered world).isEmpty then return options.addressed address body
  else
    let projected ← convertAll (options.gathered world)
    return (options.addressed address body).put "$defs" (.object projected)

variable {options} {convert : Eval Keywords} {convertAll : List (String × Schema) → Eval Keywords}

/-- Without the registry, nothing registered is looked at if converting does not look at it. -/
theorem disregards_assembled (unregistered : options.useRegistered = false)
    (one : convert.Disregards) (all : ∀ definitions, (convertAll definitions).Disregards) :
    (options.assembled address convert convertAll).Disregards := by
  have given : ∀ world, options.gathered world = Entries.merge [] options.definitions :=
    fun world => by
    rw [gathered, unregistered]
    rfl
  refine one.bind fun body => disregards_get (fun world expanding definitions => ?_) fun world => ?_
  · rw [given, given]
  · split
    · exact disregards_pure _
    · exact (all _).bind fun _ => disregards_pure _

/-- With the registry or without, only converting could look at what is being expanded. -/
theorem heedless_assembled (one : convert.Disregards)
    (all : ∀ definitions, (convertAll definitions).Disregards) :
    (options.assembled address convert convertAll).Heedless := by
  intro world expanding
  have kept := one.definitions_kept world
  rw [assembled, ending_bind, ending_bind, one]
  rcases ended : convert.ending world with ⟨fault | body, between⟩
  · rw [ended] at kept
    exact congrArg (fun definitions => (Except.error fault, between.aside expanding definitions))
      kept.symm
  · rw [ended] at kept
    dsimp only at kept ⊢
    rw [← kept, ending_get_bind, ending_get_bind]
    change ((if (options.gathered between).isEmpty then _ else _ : Eval Keywords)).ending _ = _
    split
    · rfl
    · exact Disregards.heedless ((all _).bind fun _ => disregards_pure _) between expanding

end DocumentOptions

end Schema

namespace Converter

open Eval Projection

variable {α β : Type} {draft : String} {expanding : List Nat}

/-- Where just these lazy schemas are being expanded, the two evaluations end alike, and the same
are being expanded afterwards. -/
def EndAlike (expanding : List Nat) (first second : Eval α) : Prop :=
  ∀ world, world.expanding = expanding →
    first.ending world = second.ending world ∧ (first.ending world).2.expanding = expanding

theorem endAlike_of_disregards {evaluation : Eval α} (disregards : evaluation.Disregards) :
    EndAlike expanding evaluation evaluation :=
  fun world same => ⟨rfl, (disregards.expanding_kept world).trans same⟩

/-- Two evaluations that end alike under the marks of one converter do so in sequence. -/
theorem EndAlike.bind {first second : Eval α} {next further : α → Eval β}
    (early : EndAlike expanding first second)
    (late : ∀ value, EndAlike expanding (next value) (further value)) :
    EndAlike expanding (first >>= next) (second >>= further) := by
  intro world same
  obtain ⟨alike, kept⟩ := early world same
  rw [ending_bind, ending_bind, ← alike]
  rcases ended : first.ending world with ⟨fault | value, between⟩
  · rw [ended] at kept
    exact ⟨rfl, kept⟩
  · rw [ended] at kept
    exact late value between kept

theorem endAlike_ofSchema {onLazy onLazy' : Nat → Eval Keywords}
    (lazies : ∀ id, EndAlike expanding (onLazy id) (onLazy' id)) (schema : Schema) :
    EndAlike expanding (ofSchema draft onLazy schema) (ofSchema draft onLazy' schema) := by
  have congruence : Congruence (EndAlike expanding) True := {
    pure := fun value => endAlike_of_disregards (disregards_pure value)
    bind := fun early late => early.bind late
    misuse := fun _ _ cause _ => endAlike_of_disregards (disregards_misuse cause) }
  exact related_everywhere congruence lazies schema

theorem ending_ensuring (evaluation : Eval α) (change : World → World) (world : World) :
    (ensuring evaluation change).ending world =
      ((evaluation.ending world).1, change (evaluation.ending world).2) := rfl

/-- With a lazy schema marked before it and unmarked after it, what disregards the marks does what
it does without. -/
theorem ending_ensuring_unmarked {evaluation : Eval α}
    (disregards : evaluation.Disregards) (id : Nat)
    (world : World) : (ensuring evaluation (unmarked id)).ending (marked id world) =
      evaluation.ending world := by
  have marking : marked id world = world.aside (id :: world.expanding) world.definitions := rfl
  rw [ending_ensuring, marking, disregards]
  refine Prod.ext rfl ?_
  change World.aside _ ((id :: world.expanding).erase id) world.definitions = _
  rw [List.erase_cons_head]
  exact disregards.aside_kept world

/-- The converter does with a lazy schema what the projection does that is handed what is being
expanded. -/
theorem endAlike_ofLazy (budget : Nat) (expanding : List Nat) (id : Nat) :
    EndAlike expanding (ofLazy draft budget id) (Projection.ofLazy draft budget expanding id) := by
  induction budget generalizing expanding id with
  | zero => exact endAlike_of_disregards (disregards_misuse .tooDeep)
  | succ budget ih =>
    rintro world rfl
    have looked : (ofLazy draft (budget + 1) id).ending world =
        (if world.expanding.contains id then pure [] else do
          modify (marked id)
          ensuring (do
            let v ← resolve id
            ofSchema draft (ofLazy draft budget) (.validator v))
              (unmarked id) : Eval Keywords).ending world := rfl
    by_cases inside : id ∈ world.expanding
    · rw [looked, if_pos (List.contains_iff_mem.mpr inside), ofLazy_cut inside]
      exact ⟨rfl, rfl⟩
    · rw [looked, if_neg fun found => inside (List.contains_iff_mem.mp found),
        ofLazy_expanded inside]
      -- What is inside the marks is handed them by the projection, and the projection does not look
      -- for them.
      have alike : EndAlike (id :: world.expanding)
          (resolve id >>= fun v => ofSchema draft (ofLazy draft budget) (.validator v))
          (resolve id >>= fun v =>
            ofSchema draft (Projection.ofLazy draft budget (id :: world.expanding))
              (.validator v)) :=
        (endAlike_of_disregards (disregards_resolve id)).bind fun v =>
          endAlike_ofSchema (ih (id :: world.expanding)) (.validator v)
      have disregards : (resolve id >>= fun v =>
          ofSchema draft (Projection.ofLazy draft budget (id :: world.expanding))
            (.validator v)).Disregards :=
        (disregards_resolve id).bind fun v =>
          disregards_ofSchema (disregards_ofLazy budget _) (.validator v)
      have unwound := ending_ensuring_unmarked disregards id world
      rw [ending_ensuring, ← (alike (marked id world) rfl).1, ← ending_ensuring] at unwound
      have kept := congrArg (fun ended => ended.2.expanding) unwound
      exact ⟨unwound, kept.trans (disregards.expanding_kept world)⟩

/-- However the conversion of a lazy schema ends, the lazy schemas that were being expanded around
it are being expanded afterwards, and no others. -/
theorem expanding_ofLazy (draft : String) (budget id : Nat) (world : World) :
    ((ofLazy draft budget id).ending world).2.expanding = world.expanding :=
  (endAlike_ofLazy budget world.expanding id world rfl).2

/-- The converter does with a schema what the projection does that is handed what is being
expanded. -/
theorem endAlike_convert (draft : String) (expanding : List Nat) (schema : Schema) :
    EndAlike expanding (convert draft schema) (schema.project draft expanding) := by
  intro world same
  rw [convert, ending_get_bind, ending_project]
  exact endAlike_ofSchema (endAlike_ofLazy _ expanding) schema world same

theorem ending_convert (draft : String) (schema : Schema) (world : World) :
    (convert draft schema).ending world = (schema.project draft world.expanding).ending world :=
  (endAlike_convert draft world.expanding schema world rfl).1

theorem expanding_convert (draft : String) (schema : Schema) (world : World) :
    ((convert draft schema).ending world).2.expanding = world.expanding :=
  (endAlike_convert draft world.expanding schema world rfl).2

/-- Definitions are converted as they are projected, one after the other under the same marks. -/
theorem endAlike_convertAll (draft : String) (expanding : List Nat)
    (definitions : List (String × Schema)) :
    EndAlike expanding (convertAll draft definitions)
      (Schema.projectAll draft expanding definitions) := by
  induction definitions with
  | nil => exact endAlike_of_disregards (disregards_pure [])
  | cons definition rest ih =>
    exact (endAlike_convert draft expanding definition.2).bind fun keywords =>
      ih.bind fun further => endAlike_of_disregards (disregards_pure _)

theorem ending_convertAll (draft : String) (definitions : List (String × Schema)) (world : World) :
    (convertAll draft definitions).ending world =
      (Schema.projectAll draft world.expanding definitions).ending world :=
  (endAlike_convertAll draft world.expanding definitions world rfl).1

theorem expanding_convertAll (draft : String) (definitions : List (String × Schema))
    (world : World) : ((convertAll draft definitions).ending world).2.expanding = world.expanding :=
  (endAlike_convertAll draft world.expanding definitions world rfl).2

/-- The converter assembles a document as the projection assembles it. -/
theorem endAlike_assembled (options : Schema.DocumentOptions) (draft address : String)
    (schema : Schema) :
    EndAlike [] (options.assembled address (convert draft schema) (convertAll draft))
      (options.assembled address (schema.project draft []) (Schema.projectAll draft [])) := by
  have current : EndAlike [] (get : Eval World) get := fun _ same => ⟨rfl, same⟩
  refine (endAlike_convert draft [] schema).bind fun body => current.bind fun between => ?_
  split
  · exact endAlike_of_disregards (disregards_pure _)
  · exact (endAlike_convertAll draft [] _).bind fun _ => endAlike_of_disregards (disregards_pure _)

/-- A new converter does what is done alike where nothing is being expanded, if what is being
expanded makes no difference to that. -/
theorem fresh_eq {first second : Eval α} (alike : EndAlike [] first second)
    (heedless : second.Heedless) : fresh first = second := by
  funext world
  have begun : (fresh first).ending world =
      ((first.ending (world.aside [] world.definitions)).1,
        { (first.ending (world.aside [] world.definitions)).2 with
          expanding := world.expanding }) := rfl
  have kept := heedless.expanding_kept world
  change (fresh first).ending world = second.ending world
  rw [begun, (alike _ rfl).1, heedless]
  refine Prod.ext rfl ?_
  change { (second.ending world).2 with expanding := world.expanding } = _
  rw [← kept]

end Converter

namespace Schema

open Eval

variable {draft address : String} {options : DocumentOptions} {world : World}

/-- A schema and the definitions beside it are projected each for itself. -/
theorem fresh_assembled (options : DocumentOptions) (draft address : String) (schema : Schema) :
    Converter.fresh
        (options.assembled address (Converter.convert draft schema) (Converter.convertAll draft)) =
      options.assembled address (schema.project draft []) (projectAll draft []) :=
  Converter.fresh_eq (Converter.endAlike_assembled options draft address schema)
    (DocumentOptions.heedless_assembled (disregards_project draft [] schema)
      (disregards_projectAll draft []))

/-- What another converter is expanding makes no difference to a document schema. -/
theorem heedless_toDocument (options : DocumentOptions) (schema : Schema) :
    (schema.toDocument options).Heedless := by
  refine (disregards_chosenDraft options.draft).heedless.bind fun draft => ?_
  cases Settings.draftAddress? draft with
  | none => exact (disregards_misuse _).heedless
  | some address =>
    have heedless :
        (options.assembled address (schema.project draft []) (projectAll draft [])).Heedless :=
      DocumentOptions.heedless_assembled (disregards_project draft [] schema)
        (disregards_projectAll draft [])
    rw [← fresh_assembled] at heedless
    exact heedless

/-- Without the registry, a document schema does not depend on it. -/
theorem disregards_toDocument (schema : Schema) (unregistered : options.useRegistered = false) :
    (schema.toDocument options).Disregards := by
  refine (disregards_chosenDraft options.draft).bind fun draft => ?_
  cases Settings.draftAddress? draft with
  | none => exact disregards_misuse _
  | some address =>
    have assembled :
        (options.assembled address (schema.project draft []) (projectAll draft [])).Disregards :=
      DocumentOptions.disregards_assembled unregistered (disregards_project draft [] schema)
        (disregards_projectAll draft [])
    rw [← fresh_assembled] at assembled
    exact assembled

theorem ending_toDocument_of_chosen (chosen : (chosenDraft options.draft).Returns world draft world)
    (known : Settings.draftAddress? draft = some address) (schema : Schema) :
    (schema.toDocument options).ending world =
      (options.assembled address (schema.project draft []) (projectAll draft [])).ending world := by
  rw [toDocument, ending_bind, chosen, ← fresh_assembled]
  simp only [known]
  rfl

end Schema

end Conform
