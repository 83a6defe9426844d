import Conform.Configuration
import Conform.Proofs.JsonSchema.Converting
import Conform.Proofs.JsonSchema.Outlines
import Conform.Proofs.JsonSchema.Repetition
import Conform.Proofs.Value.Entries

/-!
Definitions beside a schema. The registry holds the definition last added under each name since it
was last cleared (`DefinitionChange.standing?`), and is looked at only where that is asked for. One
converter serves a schema and all definitions, and yet it gives each of them what a call for it
alone gives (`Schema.GivesAlone`), whichever lazy schemas they share.
-/
namespace Conform

/-- A change of the registered definitions. -/
inductive DefinitionChange where
  | add (definitions : List (String × Schema))
  | clear

namespace DefinitionChange

def applied (definitions : Entries String Schema) : DefinitionChange → Entries String Schema
  | .add given => Entries.merge definitions given
  | .clear => []

def perform : DefinitionChange → Eval Unit
  | .add definitions => Eval.register definitions
  | .clear => Eval.clearDefinitions

def performAll : List DefinitionChange → Eval Unit
  | [] => pure ()
  | change :: rest => do
    change.perform
    performAll rest

/-- The definition that changes leave under a name, where the first of them was made last. -/
def lastAdded? (initial : Entries String Schema) : List DefinitionChange → String → Option Schema
  | [], name => initial.get? name
  | .clear :: _, _ => none
  | .add definitions :: earlier, name =>
    (Entries.get? definitions.reverse name).or (lastAdded? initial earlier name)

/-- The definition that stands under a name after a history of changes: the one last added and not
cleared since. -/
def standing? (initial : Entries String Schema) (history : List DefinitionChange) (name : String) :
    Option Schema :=
  lastAdded? initial history.reverse name

end DefinitionChange

/-- The world after changes of its registered definitions. -/
def World.redefined (world : World) (history : List DefinitionChange) : World :=
  { world with definitions := history.foldl DefinitionChange.applied world.definitions }

namespace DefinitionChange

theorem returns_performAll (history : List DefinitionChange) (world : World) :
    (performAll history).Returns world () (world.redefined history) := by
  induction history generalizing world with
  | nil => exact Eval.returns_pure.mpr ⟨rfl, rfl⟩
  | cons change rest ih =>
    have performed : change.perform.Returns world () (world.redefined [change]) := by
      cases change <;> rfl
    exact Eval.returns_bind.mpr ⟨(), _, performed, ih _⟩

/-- The registry finds under a name what stands there. -/
theorem get?_applied (initial : Entries String Schema) (history : List DefinitionChange)
    (name : String) :
    (history.foldl applied initial).get? name = standing? initial history name := by
  unfold standing?
  induction history using List.reverseRecOn with
  | nil => rfl
  | append_singleton earlier change ih =>
    rw [List.foldl_append, List.reverse_append]
    cases change with
    | add definitions => exact (Entries.get?_merge_reverse _ definitions name).trans (congrArg _ ih)
    | clear => rfl

theorem distinct_applied {initial : Entries String Schema} (distinct : initial.Distinct)
    (history : List DefinitionChange) : (history.foldl applied initial).Distinct := by
  induction history generalizing initial with
  | nil => exact distinct
  | cons change rest ih =>
    cases change with
    | add definitions => exact ih (distinct.merge definitions)
    | clear => exact ih .nil

end DefinitionChange

namespace Schema

open Eval

/-- What is asked for when a schema alone is converted, without an address. -/
abbrev DocumentOptions.alone (draft : String) : DocumentOptions := ⟨false, some draft, false, []⟩

/-- From a world on, a separate call gives the schema just this document schema and leaves the world
as it is, whatever happens in between to all but what has been built; and so did every call that led
there. -/
def GivesAlone (draft : String) (schema : Schema) (start : World) (keywords : Keywords) : Prop :=
  ∀ final, start.Retains final →
    (toDocument (.alone draft) schema).Returns final keywords final ∧
    ∀ before further between, (toDocument (.alone draft) schema).Returns before further between →
      between.Retains final → further = keywords

variable {draft address : String} {schema : Schema} {world after start : World}
  {keywords projected : Keywords}
  {options : DocumentOptions}

theorem GivesAlone.retained (gives : schema.GivesAlone draft world keywords)
    (retains : world.Retains after) :
    schema.GivesAlone draft after keywords :=
  fun final onwards => gives final (retains.trans onwards)

theorem givesAlone_of_returns (known : (Settings.draftAddress? draft).isSome)
    (returned : (schema.project draft []).Returns world keywords after) :
      schema.GivesAlone draft after keywords := by
  intro final retains
  simp only [Returns, ending_toDocument known]
  exact ⟨returns_again returned retains, fun before further between also kept =>
    keywords_unique returned retains also kept⟩

/-- Of definitions that are projected one after the other, each is given what it is given alone. -/
theorem each_of_projectAll (known : (Settings.draftAddress? draft).isSome)
    {definitions : List (String × Schema)}
    (returned : (projectAll draft [] definitions).Returns world projected after) :
    world.Later after ∧ List.Forall₂ (fun definition entry => ∃ keywords,
      entry = (.str definition.1, .object keywords) ∧ definition.2.GivesAlone draft after keywords)
      definitions projected := by
  induction definitions generalizing world projected after with
  | nil =>
    obtain ⟨rfl, rfl⟩ := returns_pure.mp returned
    exact ⟨.refl, .nil⟩
  | cons definition rest ih =>
    obtain ⟨keywords, between, first, returned⟩ := returns_bind.mp returned
    obtain ⟨further, last, others, done⟩ := returns_bind.mp returned
    obtain ⟨rfl, rfl⟩ := returns_pure.mp done
    obtain ⟨later, each⟩ := ih others
    exact ⟨(later_of_project first).trans later, .cons ⟨keywords, rfl,
      (givesAlone_of_returns known first).retained later.retains⟩ each⟩

/-- What stops the projection of definitions stops that of one of them alone. -/
theorem exists_of_faults_projectAll {definitions : List (String × Schema)} {fault : Fault}
    (faulted : (projectAll draft [] definitions).Faults world fault after) :
    ∃ definition ∈ definitions, ∃ between, world.Later between ∧
      (definition.2.project draft []).Faults between fault after := by
  induction definitions generalizing world with
  | nil => exact absurd faulted faults_pure
  | cons definition rest ih =>
    rcases faults_bind.mp faulted with stopped | ⟨keywords, between, first, faulted⟩
    · exact ⟨definition, List.mem_cons_self, world, .refl, stopped⟩
    · rcases faults_bind.mp faulted with stopped | ⟨further, last, others, done⟩
      · obtain ⟨found, member, reached, later, faulted⟩ := ih stopped
        exact ⟨found, List.mem_cons_of_mem _ member, reached,
          (later_of_project first).trans later, faulted⟩
      · exact absurd done faults_pure

/-- How a document schema comes about from what separate calls give the schema and the definitions
beside it. -/
structure ConvertedApart (options : DocumentOptions) (draft address : String)
    (definitions : Entries String Schema) (schema : Schema) (world : World) : Prop where
  /-- The schema and the definitions have what they are given alone. -/
  returns : ∀ document after, (schema.toDocument options).Returns world document after →
    ∃ body between projected, (toDocument (.alone draft) schema).Returns world body between ∧
      between.Later after ∧ schema.GivesAlone draft after body ∧
      List.Forall₂ (fun definition entry => ∃ keywords,
        entry = (.str definition.1, .object keywords) ∧
        definition.2.GivesAlone draft after keywords) definitions projected ∧
      document = if definitions.isEmpty then options.addressed address body
        else (options.addressed address body).put "$defs" (.object projected)
  /-- A fault is that of a separate call: a lazy schema could not be built, or a description does
  not suit its kind. -/
  faults : ∀ fault after, (schema.toDocument options).Faults world fault after →
    (toDocument (.alone draft) schema).Faults world fault after ∧ world.Blames schema fault after ∨
      ∃ definition ∈ definitions, ∃ between, world.Later between ∧
        (toDocument (.alone draft) definition.2).Faults between fault after ∧
          between.Blames definition.2 fault after

/-- A document schema and its definitions come from separate conversions, and so do their faults. -/
theorem convertedApart (chosen : (chosenDraft options.draft).Returns world draft world)
    (known : Settings.draftAddress? draft = some address) (schema : Schema) :
    ConvertedApart options draft address (options.gathered world) schema world := by
  have recognized : (Settings.draftAddress? draft).isSome := by rw [known, Option.isSome_some]
  have gathered : ∀ body between, (schema.project draft []).Returns world body between →
      options.gathered between = options.gathered world := fun body between returned => by
    have kept := (disregards_project draft [] schema).definitions_kept world
    rw [returned] at kept
    rw [DocumentOptions.gathered, kept, DocumentOptions.gathered]
  constructor
  · intro document after returned
    rw [Returns, ending_toDocument_of_chosen chosen known] at returned
    obtain ⟨body, between, main, returned⟩ := returns_bind.mp returned
    obtain ⟨_, _, looked, returned⟩ := returns_bind.mp returned
    obtain ⟨rfl, rfl⟩ := returns_get.mp looked
    have alone : (toDocument (.alone draft) schema).Returns world body between := by
      rwa [Returns, ending_toDocument recognized]
    have gives := givesAlone_of_returns recognized main
    rw [gathered body between main] at returned
    split at returned
    · next empty =>
      obtain ⟨rfl, rfl⟩ := returns_pure.mp returned
      have nothing := List.isEmpty_iff.mp empty
      exact ⟨body, between, [], alone, .refl, gives, nothing ▸ .nil, (if_pos empty).symm⟩
    · next filled =>
      obtain ⟨projected, last, others, done⟩ := returns_bind.mp returned
      obtain ⟨rfl, rfl⟩ := returns_pure.mp done
      obtain ⟨later, each⟩ := each_of_projectAll recognized others
      exact ⟨body, between, projected, alone, later, gives.retained later.retains, each,
        (if_neg filled).symm⟩
  · intro fault after faulted
    rw [Faults, ending_toDocument_of_chosen chosen known] at faulted
    simp only [Faults, ending_toDocument recognized]
    rcases faults_bind.mp faulted with stopped | ⟨body, between, main, faulted⟩
    · exact .inl ⟨stopped, blames_of_project stopped⟩
    · rcases faults_bind.mp faulted with stopped | ⟨_, _, looked, faulted⟩
      · exact absurd stopped faults_get
      · obtain ⟨rfl, rfl⟩ := returns_get.mp looked
        rw [gathered body between main] at faulted
        split at faulted
        · exact absurd faulted faults_pure
        · rcases faults_bind.mp faulted with stopped | ⟨projected, last, others, done⟩
          · obtain ⟨definition, member, reached, later, failed⟩ :=
              exists_of_faults_projectAll stopped
            exact .inr ⟨definition, member, reached, (later_of_project main).trans later, failed,
              blames_of_project failed⟩
          · exact absurd done faults_pure

/-- Definitions are converted apart from each other and from the schema, and the registry is looked
at only where that is asked for. The converter forgets whatever it was expanding, also where it
stops, and a new converter leaves what the one around it is expanding as it was. -/
theorem definitions_apart {initial : World} (history : List DefinitionChange)
    (distinct : initial.definitions.Distinct)
    (chosen : (chosenDraft options.draft).Returns initial draft initial)
    (known : Settings.draftAddress? draft = some address) (schema : Schema) :
    (DefinitionChange.performAll history).Returns initial () (initial.redefined history) ∧
    (options.useRegistered = false → (schema.toDocument options).Disregards) ∧
    (∃ definitions : Entries String Schema, definitions.Distinct ∧
      (∀ name, definitions.get? name = (Entries.get? options.definitions.reverse name).or
        (if options.useRegistered then DefinitionChange.standing? initial.definitions history name
          else none)) ∧
      ConvertedApart options draft address definitions schema (initial.redefined history)) ∧
    (schema.toDocument options).Heedless ∧
    (∀ part world, ((Converter.convert draft part).ending world).2.expanding = world.expanding) ∧
    ∀ budget id world,
      ((Converter.ofLazy draft budget id).ending world).2.expanding = world.expanding := by
  have still : (chosenDraft options.draft).Returns (initial.redefined history) draft
      (initial.redefined history) := by
    have redefined : initial.redefined history =
        initial.aside initial.expanding
          (history.foldl DefinitionChange.applied initial.definitions) := rfl
    rw [redefined, Returns, disregards_chosenDraft, chosen]
  refine ⟨DefinitionChange.returns_performAll history initial, disregards_toDocument schema,
    ⟨options.gathered (initial.redefined history), ?_, fun name => ?_,
      convertedApart still known schema⟩,
    heedless_toDocument options schema, Converter.expanding_convert draft,
      Converter.expanding_ofLazy draft⟩
  · refine Entries.Distinct.merge ?_ options.definitions
    split
    · exact DefinitionChange.distinct_applied distinct history
    · exact .nil
  · rw [DocumentOptions.gathered, Entries.get?_merge_reverse]
    split
    · exact congrArg _ (DefinitionChange.get?_applied initial.definitions history name)
    · rfl

/-- A person has a home, and a home has an owner. -/
private def parish : World :=
  { World.initial "parish" with lazies := [
    ⟨none, .ofValidator (.object [(.str "home", .lazy 1)]), none⟩,
    ⟨none, .ofValidator (.object [(.str "owner", .lazy 0)]), none⟩] }

/-- Homes are registered before the registry is cleared and again after it, with persons. -/
private def registrations : List DefinitionChange :=
  [.add [("Home", .null)], .clear, .add [("Person", .validator (.lazy 0)), ("Home", .null)]]

/-- Homes are given, and the registered definitions are asked for. -/
private def census : DocumentOptions :=
  ⟨false, some "draft-07", true, [("Home", .validator (.lazy 1))]⟩

private def dwelling : Schema := .validator (.object [(.str "resident", .lazy 0)])

/-- An object with one field. -/
private def having (field : String) (fragment : Keywords) : Keywords :=
  Projection.objectOf [(.str field, .object fragment)] [.str field]

/-- The document schema of the dwelling with both definitions, in which each is cut in itself. -/
private def register : Keywords :=
  (having "resident" (having "home" (having "owner" []))).put "$defs" (.object [
    (.str "Person", .object (having "home" (having "owner" []))),
    (.str "Home", .object (having "owner" (having "home" [])))])

/-- The schema and both definitions refer to the same two lazy schemas, and each has what it is
given alone. -/
theorem shared_definitions_apart :
    parish.definitions.Distinct ∧ (chosenDraft census.draft).Returns parish "draft-07" parish ∧
    Settings.draftAddress? "draft-07" = some "http://json-schema.org/draft-07/schema#" ∧
    ∃ definitions : Entries String Schema, ∃ after body projected,
      definitions.get? "Person" = some (.validator (.lazy 0)) ∧
      definitions.get? "Home" = some (.validator (.lazy 1)) ∧
      (toDocument census dwelling).Returns (parish.redefined registrations) register after ∧
      dwelling.GivesAlone "draft-07" after body ∧
      List.Forall₂ (fun definition entry => ∃ keywords,
        entry = (.str definition.1, .object keywords) ∧
        definition.2.GivesAlone "draft-07" after keywords) definitions projected ∧
      register = body.put "$defs" (.object projected) := by
  have distinct : parish.definitions.Distinct := .nil
  have chosen : (chosenDraft census.draft).Returns parish "draft-07" parish := rfl
  have known : Settings.draftAddress? "draft-07" =
    some "http://json-schema.org/draft-07/schema#" := by decide
  obtain ⟨-, -, ⟨definitions, -, named, apart⟩, -⟩ :=
    definitions_apart registrations distinct chosen known dwelling
  have person : definitions.get? "Person" = some (.validator (.lazy 0)) := named "Person"
  have home : definitions.get? "Home" = some (.validator (.lazy 1)) := named "Home"
  have returned : ∃ after,
      (toDocument census dwelling).Returns (parish.redefined registrations) register after :=
    ⟨_, rfl⟩
  obtain ⟨after, returned⟩ := returned
  obtain ⟨body, between, projected, -, -, gives, each, document⟩ :=
    apart.returns register after returned
  have filled : ¬ definitions.isEmpty = true := by
    intro empty
    rw [List.isEmpty_iff.mp empty] at home
    cases home
  rw [if_neg filled] at document
  exact ⟨distinct, chosen, known, definitions, after, body, projected, person, home, returned,
    gives, each, document⟩

end Schema

end Conform
