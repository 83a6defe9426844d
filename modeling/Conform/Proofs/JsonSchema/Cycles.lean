import Conform.Proofs.JsonSchema.Converting
import Conform.Proofs.JsonSchema.Repetition

/-!
Cycles of lazy schemas. Where every lazy schema that a conversion reaches can be built, the
conversion ends, and with a document schema unless it meets a schema whose description does not suit
its kind. A lazy schema is cut in its own expansion only (`Converter.cycles_cut`).
-/
namespace Conform

open Eval

variable {draft : String} {world after : World} {expanding : List Nat} {id : Nat}
  {keywords : Keywords}
  {schema : Schema} {fault : Fault}

namespace World

/-- The factories of the lazy schemas that are reached succeed, whenever they are asked. -/
def Buildable (start : World) (schema : Schema) : Prop :=
  ∀ base id, start.Reaches schema base id → ∀ between, base.Later between →
    ∃ v after, (resolve id).Returns between v after

/-- A fault because a schema that is met does not suit. -/
def Unsuited (start : World) (schema : Schema) (fault : Fault) : Prop :=
  ∃ cause part, fault = .misuse cause ∧ cause ≠ .tooDeep ∧ start.Meets schema part ∧
    part.suits = false

theorem Blames.unsuited_of_buildable (blames : world.Blames schema fault after)
    (buildable : world.Buildable schema) : world.Unsuited schema fault := by
  cases blames with
  | unbuilt reached later failed =>
    obtain ⟨v, last, resolved⟩ := buildable _ _ reached _ later
    rw [Faults, resolved] at failed
    cases failed
  | unsuited budgeted met odd => exact ⟨_, _, rfl, budgeted, met, odd⟩

end World

namespace Converter

/-- Where a lazy schema occurs, it is cut inside its own expansion. Otherwise it stands as what it
was built to, converted with the lazy schema marked. -/
theorem returns_convert_lazy {rule : Rule} {parameters : List (String × Parameter)}
    {docs : Documentation} {default : Value} {codec : Option Codec}
    (returned : (convert draft
      (.validator ⟨rule, some ⟨.lazy, parameters, .deferred id, docs, default⟩, codec⟩)).Returns
        world keywords after) :
    if id ∈ world.expanding then keywords = Keywords.document [] docs default
    else ∃ v inner, after.HasBuilt id v ∧
      (convert draft (.validator v)).Returns (marked id after) inner (marked id after) ∧
        keywords = inner.document docs default := by
  have same := expanding_convert draft
    (.validator ⟨rule, some ⟨.lazy, parameters, .deferred id, docs, default⟩, codec⟩) world
  rw [returned] at same
  rw [Returns, ending_convert] at returned
  obtain ⟨inner, expands, rfl⟩ := Schema.projects_lazy.mp
    ((Schema.projects_of_returns returned .refl keywords).mpr rfl)
  have cases := Schema.expands_iff.mp expands
  split at cases
  · next inside => rw [if_pos inside, cases]
  · next outside =>
    obtain ⟨v, built, projects⟩ := cases
    rw [if_neg outside]
    refine ⟨v, inner, built, ?_, rfl⟩
    have projected := Schema.returns_of_projects projects
    have marking : marked id after = after.aside (id :: world.expanding) after.definitions := by
      rw [← same]
      rfl
    rw [Returns, ending_convert, marking]
    change (Schema.project draft (id :: world.expanding) _).ending _ = _
    rw [Schema.disregards_project, projected]

/-- The conversion of schemas ends and cuts exactly the cycles. Where the lazy schemas that are
reached can be built, every schema has one document schema, the same whatever is converted beside
it, unless a schema that is met does not suit; and a lazy schema is cut inside its own expansion,
and otherwise stands as what it was built to, with it among those being expanded. -/
theorem cycles_cut (draft : String) (schema : Schema) (definitions : List (String × Schema))
    (world : World) (buildable : ∀ given ∈ schema :: definitions.map (·.2), world.Buildable given) :
    ((∃ keywords after, (convert draft schema).Returns world keywords after ∧
        after.expanding = world.expanding ∧
        ∀ other, schema.Projects draft after world.expanding other ↔ other = keywords) ∨
      ∃ fault after, (convert draft schema).Faults world fault after ∧
        world.Unsuited schema fault) ∧
    ((∃ converted after, (convertAll draft definitions).Returns world converted after ∧
        after.expanding = world.expanding ∧ List.Forall₂ (fun definition entry =>
          ∃ keywords, entry = (.str definition.1, .object keywords) ∧ ∀ other,
            definition.2.Projects draft after world.expanding other ↔ other = keywords)
          definitions converted) ∨
      ∃ fault after, (convertAll draft definitions).Faults world fault after ∧
        ∃ definition ∈ definitions, world.Unsuited definition.2 fault) ∧
    ∀ met rule parameters id docs default codec keywords after,
      (convert draft
        (.validator ⟨rule, some ⟨.lazy, parameters, .deferred id, docs, default⟩, codec⟩)).Returns
          met keywords after →
        if id ∈ met.expanding then keywords = Keywords.document [] docs default
        else ∃ v inner, after.HasBuilt id v ∧
          (convert draft (.validator v)).Returns (marked id after) inner (marked id after) ∧
            keywords = inner.document docs default := by
  refine ⟨?_, ?_, fun _ _ _ _ _ _ _ _ _ => returns_convert_lazy⟩
  · have same := expanding_convert draft schema world
    rcases ends (convert draft schema) world with ⟨keywords, after, returned⟩ | ⟨fault,
      after, faulted⟩
    · rw [returned] at same
      have projected := returned
      rw [Returns, ending_convert] at projected
      exact .inl ⟨keywords, after, returned, same, Schema.projects_of_returns projected .refl⟩
    · have stopped := faulted
      rw [Faults, ending_convert] at stopped
      exact .inr ⟨fault, after, faulted, (Schema.blames_of_project stopped).unsuited_of_buildable
        (buildable schema List.mem_cons_self)⟩
  · have same := expanding_convertAll draft definitions world
    simp only [Returns, Faults, ending_convertAll] at same ⊢
    rcases Schema.projectAll_ends draft world.expanding definitions world with
      ⟨converted, after, returned, -, each⟩ | ⟨fault, after, faulted, definition, member, blames⟩
    · rw [returned] at same
      exact .inl ⟨converted, after, returned, same, each after .refl⟩
    · exact .inr ⟨fault, after, faulted, definition, member, blames.unsuited_of_buildable
        (buildable definition.2 (List.mem_cons_of_mem _ (List.mem_map_of_mem member)))⟩

end Converter

namespace Schema

/-- The lazy schemas in a schema are among the first ones. -/
def Within (count : Nat) (schema : Schema) : Prop :=
  ∀ part, schema.Contains part → ∀ id, part.lazy? = some id → id < count

variable {count : Nat}

theorem within_lazy (below : id < count) : Within count (.validator (.lazy id)) := by
  intro part inside other found
  cases inside with
  | self =>
    cases found
    exact below
  | part described member =>
    cases described
    cases member

theorem within_object {fields : List (Value × Validator)}
    (within : ∀ field ∈ fields, Within count (.validator field.2)) :
    Within count (.validator (.object fields)) := by
  intro part inside id found
  cases inside with
  | self => cases found
  | @part _ child _ _ described member inside =>
    cases described
    have listed : child ∈ (Children.ofFields fields).schemas ++ [] := member
    rw [List.append_nil] at listed
    simp only [Children.ofFields, Children.schemas, List.map_map] at listed
    obtain ⟨field, given, rfl⟩ := List.mem_map.mp listed
    exact within field given part inside id found

end Schema

namespace World

variable {vs : List Validator}

/-- The lazy schemas are given, each by its validator, and some of them have been built. -/
def Furnished (vs : List Validator) (world : World) : Prop :=
  world.lazies.length = vs.length ∧ ∀ (id : Nat) (v : Validator), vs[id]? = some v → ∃ built,
    world.lazies[id]? = some (⟨none, .ofValidator v, built⟩ : LazyCell) ∧
      (built = none ∨ built = some v)

/-- In a world that is furnished a request gives the validator listed and leaves it furnished. -/
theorem Furnished.resolved (furnished : world.Furnished vs) {v : Validator}
    (given : vs[id]? = some v) :
    ∃ after, (resolve id).Returns world v after ∧ after.Furnished vs := by
  obtain ⟨counted, each⟩ := furnished
  obtain ⟨built, found, rfl | rfl⟩ := each id v given
  · have resolved : (resolve id).Returns world v
        { world with lazies := world.lazies.modify id (.keeping v) } := by
      rw [Returns, World.ending_resolve]
      simp only [found]
      rfl
    refine ⟨_, resolved, (List.length_modify ..).trans counted, fun other w known => ?_⟩
    obtain ⟨built, had, kept⟩ := each other w known
    by_cases same : id = other
    · subst same
      cases given.symm.trans known
      exact ⟨some v, by rw [List.getElem?_modify_eq, had]; rfl, .inr rfl⟩
    · exact ⟨built, by rw [List.getElem?_modify_ne _ _ same, had], kept⟩
  · exact ⟨world, resolve_of_hasBuilt ⟨_, found, rfl⟩, counted, each⟩

/-- A furnished world stays so whatever happens. -/
theorem Furnished.later (furnished : world.Furnished vs) (later : world.Later after) :
    after.Furnished vs := by
  refine later.induct furnished (fun _ _ kept => kept) fun world (id : Nat) kept => ?_
  cases given : vs[id]? with
  | some v =>
    obtain ⟨after, resolved, kept⟩ := kept.resolved given
    rwa [resolved]
  | none =>
    have outside : world.lazies[id]? = none := by
      rw [List.getElem?_eq_none_iff, kept.1]
      exact List.getElem?_eq_none_iff.mp given
    rw [World.ending_resolve]
    simp only [outside]
    exact kept

/-- Given validators that refer to nothing but each other can be built, whatever refers to them. -/
theorem Furnished.buildable (furnished : world.Furnished vs) (within : schema.Within vs.length)
    (closed : ∀ v ∈ vs, Schema.Within vs.length (.validator v)) : world.Buildable schema := by
  have reachable : ∀ {base id}, world.Reaches schema base id → base.Furnished vs ∧
      id < vs.length := by
    intro base id reached
    induction reached with
    | held inside found => exact ⟨furnished, within _ inside _ found⟩
    | through _ later built inside found ih =>
      have given := List.getElem?_eq_getElem ih.2
      obtain ⟨after, resolved, kept⟩ := (ih.1.later later).resolved given
      cases built.symm.trans resolved
      exact ⟨kept, closed _ (List.getElem_mem ih.2) _ inside _ found⟩
  intro base id reached between later
  obtain ⟨kept, below⟩ := reachable reached
  obtain ⟨after, resolved, -⟩ := (kept.later later).resolved (List.getElem?_eq_getElem below)
  exact ⟨_, after, resolved⟩

end World

namespace Converter

/-- A person lives in a household, and a household has an owner and a tenant. -/
private def residents : List Validator :=
  [.object [(.str "home", .lazy 1)], .object [(.str "owner", .lazy 0), (.str "tenant", .lazy 0)]]

private def town : World :=
  { World.initial "town" with lazies := residents.map fun v => ⟨none, .ofValidator v, none⟩ }

/-- Two persons beside each other. -/
private def couple : Schema := .validator (.object [(.str "one", .lazy 0), (.str "two", .lazy 0)])

/-- An object with all of its fields required. -/
private def objectOfFields (fields : List (String × Keywords)) : Keywords :=
  Projection.objectOf (fields.map fun field => (.str field.1, .object field.2))
    (fields.map fun field => .str field.1)

/-- A person is cut in the household of a person. -/
private def householder : Keywords :=
  objectOfFields [("home", objectOfFields [("owner", []), ("tenant", [])])]

/-- Persons beside each other are expanded alike, and nothing else is their document schema. -/
theorem cycles_cut_in_town :
    (∀ given ∈ couple :: ([] : List (String × Schema)).map (·.2), town.Buildable given) ∧
      ∃ after, (convert "draft-07" couple).Returns town
          (objectOfFields [("one", householder), ("two", householder)]) after ∧
        ∀ other, couple.Projects "draft-07" after [] other ↔
          other = objectOfFields [("one", householder), ("two", householder)] := by
  have furnished : town.Furnished residents := by
    refine ⟨rfl, fun id v given => ⟨none, ?_, .inl rfl⟩⟩
    have mapped : town.lazies = residents.map fun v => ⟨none, .ofValidator v, none⟩ := rfl
    rw [mapped, List.getElem?_map, given]
    rfl
  have person : Schema.Within 2 (.validator (.lazy 0)) := Schema.within_lazy (by decide)
  have household : Schema.Within 2 (.validator (.lazy 1)) := Schema.within_lazy (by decide)
  have closed : ∀ v ∈ residents, Schema.Within 2 (.validator v) := by
    refine List.forall_mem_cons.mpr ⟨Schema.within_object ?_, List.forall_mem_singleton.mpr
      (Schema.within_object ?_)⟩
    · exact List.forall_mem_singleton.mpr household
    · exact List.forall_mem_cons.mpr ⟨person, List.forall_mem_singleton.mpr person⟩
  have within : couple.Within 2 :=
    Schema.within_object (List.forall_mem_cons.mpr ⟨person, List.forall_mem_singleton.mpr person⟩)
  have buildable : ∀ given ∈ couple :: ([] : List (String × Schema)).map (·.2),
      town.Buildable given := List.forall_mem_singleton.mpr (furnished.buildable within closed)
  have computed : ∃ after, (convert "draft-07" couple).Returns town
      (objectOfFields [("one", householder), ("two", householder)]) after := ⟨_, rfl⟩
  obtain ⟨after, computed⟩ := computed
  obtain ⟨⟨keywords, last, returned, -, projects⟩ | ⟨fault, last, faulted, -⟩, -, -⟩ :=
    cycles_cut "draft-07" couple [] town buildable
  · cases computed.symm.trans returned
    exact ⟨buildable, after, computed, projects⟩
  · cases computed.symm.trans faulted

end Converter

end Conform
