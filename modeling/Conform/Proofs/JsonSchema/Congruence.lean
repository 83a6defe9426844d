import Conform.JsonSchema.Projection
import Conform.Proofs.Evaluation.Endings

/-!
Projections of one schema that get the fragments of lazy schemas in two ways. They are put together
from those fragments by `pure` and `>>=` alone, so whatever relates the two ways and is kept by
sequencing relates the two projections; only a description that does not suit its kind is refused.
-/
namespace Conform

namespace Inference

/-- What is shown can be written, so that a type can be guessed from it. -/
def tells (shown : List Shown) : Bool := shown.all (·.isWritable)

/-- The text of a value can be written. -/
def tellsValue (v : Value) : Bool := tells (schemaShown (.ofValue v))

end Inference

namespace Children

open Inference

def schemas : Children → List Schema
  | .one schema => [schema]
  | .many schemas => schemas
  | .fields entries => entries.map (·.2)
  | .absent | .deferred _ => []

def isChild : Children → Bool
  | .many schemas => tells (schemasShown schemas)
  | .fields entries => tells (entriesShown entries)
  | .absent | .one _ | .deferred _ => true

def isRun : Children → Bool
  | .absent | .many _ => true
  | .fields entries => entries.all fun entry => tellsValue entry.1
  | .one _ | .deferred _ => false

def areTwo : Children → Bool
  | .many [_, _] | .fields [_, _] => true
  | _ => false

def isPair : Children → Bool
  | .many [_, _] => true
  | .fields [key, value] => tellsValue value.1 && tellsValue key.1
  | _ => false

def hasSecond : Children → Bool
  | .many [_, _] => true
  | .fields [_, value] => tellsValue value.1
  | _ => false

def isSteps : Children → Bool
  | .absent | .many _ | .fields [] => true
  | _ => false

/-- The children are what can be called without an argument, or nothing. -/
def isDeferred : Children → Bool
  | .absent | .deferred _ | .one (.cls _) => true
  | _ => false

end Children

namespace Metadata

def listsValues (metadata : Metadata) : Bool :=
  match Entries.get? metadata.parameters "values" with
  | some parameter => (Keywords.listed parameter).isOk
  | none => true

/-- What a description gives for further fields or items can be told. -/
def tellsRest (metadata : Metadata) : Bool :=
  match Entries.get? metadata.parameters "rest" with
  | some (.value v) => v.isNull || Inference.tellsValue v
  | _ => true

/-- The children and parameters of a description suit its kind. -/
def fits (metadata : Metadata) : Bool :=
  match metadata.kind with
  | .string | .number | .integer | .boolean | .null | .any | .unknown | .never | .instanceOf
  | .literal | .check | .object | .looseObject | .partialObject | .required => true
  | .enum | .keyof => metadata.listsValues
  | .objectWithRest => metadata.tellsRest
  | .tuple => metadata.children.isRun && metadata.tellsRest
  | .union | .discriminatedUnion | .variant | .intersect => metadata.children.isRun
  | .record => metadata.children.isPair
  | .map => metadata.children.hasSecond
  | .pipe => metadata.children.isSteps
  | .lazy => metadata.children.isDeferred
  | _ => metadata.children.isChild

def lazy? : Metadata → Option Nat
  | ⟨.lazy, _, .deferred id, _, _⟩ => some id
  | _ => none

def rest? (metadata : Metadata) : Option Schema :=
  match Entries.get? metadata.parameters "rest" with
  | some (.schema schema) => some schema
  | _ => none

def parts (metadata : Metadata) : List Schema := metadata.children.schemas ++ metadata.rest?.toList

end Metadata

namespace Schema

/-- The description of a schema suits its kind; without one, what the schema shows can be
written. -/
def suits (schema : Schema) : Bool :=
  match schema.metadata? with
  | some metadata => metadata.fits
  | none => Inference.tells (Inference.schemaShown schema)

/-- A schema contains itself and what it is made of. What lazy schemas are built to is not among
it. -/
inductive Contains : Schema → Schema → Prop where
  | self (schema : Schema) : Contains schema schema
  | part {schema part inner : Schema} {metadata : Metadata}
      (described : schema.metadata? = some metadata) (member : part ∈ metadata.parts)
      (inside : Contains part inner) : Contains schema inner

def lazy? (schema : Schema) : Option Nat := schema.metadata?.bind (·.lazy?)

end Schema

/-- A relation of evaluations that sequencing keeps. Refusals are related if something is amiss. -/
structure Eval.Congruence (related : ∀ {α : Type}, Eval α → Eval α → Prop)
    (amiss : Prop) : Prop where
  pure : ∀ {α : Type} (value : α), related (Pure.pure value) (Pure.pure value)
  bind : ∀ {α β : Type} {first second : Eval α} {next further : α → Eval β}, related first second →
    (∀ value, related (next value) (further value)) → related (first >>= next) (second >>= further)
  misuse : amiss → ∀ {α : Type} (cause : Misuse), cause ≠ .tooDeep →
    related (Eval.misuse cause : Eval α) (Eval.misuse cause)

/-- Two ways of getting the fragments of lazy schemas, in a relation that sequencing keeps, for
those that are asked for. -/
structure Projection.Parallel (related : ∀ {α : Type}, Eval α → Eval α → Prop) (amiss : Prop)
    (asked : Nat → Prop) (onLazy onLazy' : Nat → Eval Keywords) : Prop
    extends Eval.Congruence related amiss where
  lazies : ∀ id, asked id → related (onLazy id) (onLazy' id)

namespace Projection

open Eval

variable {related : ∀ {α : Type}, Eval α → Eval α → Prop} {amiss : Prop} {asked : Nat → Prop}
  {draft : String} {onLazy onLazy' : Nat → Eval Keywords}

/-- Something is amiss if a schema that the schema contains does not suit, and the lazy schemas in
it are asked for. -/
def Blames (amiss : Prop) (asked : Nat → Prop) (schema : Schema) : Prop :=
  ∀ part, schema.Contains part → (part.suits = false → amiss) ∧ ∀ id,
    part.lazy? = some id → asked id

section Leaves

variable (congruence : Eval.Congruence related amiss)
include congruence

private theorem related_ofConstruction {α : Type} {made : Except Misuse α}
    (blamed : made.isOk = false → amiss)
    (shallow : ∀ cause, made = .error cause → cause ≠ .tooDeep) :
    related (ofConstruction made) (ofConstruction made) := by
  cases made with
  | ok value => exact congruence.pure value
  | error cause => exact congruence.misuse (blamed rfl) cause (shallow cause rfl)

/-- A guess is related to itself, as what cannot be told is amiss. -/
theorem related_guess {shown : List Inference.Shown}
    (blamed : Inference.tells shown = false → amiss) :
    related (guess shown) (guess shown) := by
  unfold guess Keywords.guessed
  cases told : Inference.tells shown with
  | true =>
    rw [Inference.tells] at told
    rw [if_pos told]
    exact congruence.pure _
  | false =>
    have silent := told
    rw [Inference.tells] at told
    rw [told]
    exact congruence.misuse (blamed silent) _ (by simp)

private theorem related_guessAll {values : List Value}
    (blamed : (values.all Inference.tellsValue) = false → amiss) :
    related (guessAll values) (guessAll values) := by
  induction values with
  | nil => exact congruence.pure _
  | cons v rest ih =>
    refine congruence.bind (related_guess congruence fun silent => blamed ?_) fun _ =>
      congruence.bind (ih fun silent => blamed ?_) fun _ => congruence.pure _
    · rw [List.all_cons, Inference.tellsValue, silent, Bool.false_and]
    · rw [List.all_cons, silent, Bool.and_false]

omit congruence in
private theorem listed_shallow {parameter : Parameter} {cause : Misuse}
    (refused : Keywords.listed parameter = .error cause) : cause ≠ .tooDeep := by
  rintro rfl
  cases parameter with
  | value v =>
    unfold Keywords.listed at refused
    cases found : v.iterate? <;> simp [found] at refused
  | schema s => cases s <;> cases refused

private theorem related_noPair {α : Type} {children : Children} (blamed : amiss) :
    related (noPair children : Eval α) (noPair children) := by
  have counted : ∀ n, related (noPair.count n : Eval α) (noPair.count n) := fun n =>
    congruence.misuse blamed _ (by split <;> simp)
  cases children with
  | absent | one | deferred => exact congruence.misuse blamed _ (by simp)
  | many schemas => exact counted schemas.length
  | fields entries => exact counted entries.length

omit congruence in
private theorem ofPair_eq_noPair {children : Children} (odd : children.areTwo = false) :
    ofPair draft onLazy children = noPair children := by
  rcases children with _ | _ | (_ | ⟨_, _ | ⟨_, _ | _⟩⟩) | (_ | ⟨_, _ | ⟨_, _ | _⟩⟩) | _
  all_goals first | rfl | cases odd

omit congruence in
private theorem ofSecond_eq_noPair {children : Children} (odd : children.areTwo = false) :
    ofSecond draft onLazy children = noPair children := by
  rcases children with _ | _ | (_ | ⟨_, _ | ⟨_, _ | _⟩⟩) | (_ | ⟨_, _ | ⟨_, _ | _⟩⟩) | _
  all_goals first | rfl | cases odd

private theorem related_ofDeferred {children : Children}
    (blamed : children.isDeferred = false → amiss)
    (lazies : ∀ id, children = .deferred id → related (onLazy id) (onLazy' id)) :
    related (ofDeferred onLazy children) (ofDeferred onLazy' children) := by
  cases children with
  | absent => exact congruence.pure _
  | deferred id => exact lazies id rfl
  | many | fields => exact congruence.misuse (blamed rfl) _ (by simp)
  | one schema =>
    cases schema with
    | cls c => exact congruence.pure _
    | _ => exact congruence.misuse (blamed rfl) _ (by simp)

end Leaves

section Projections

variable (ways : Parallel related amiss asked onLazy onLazy')
include ways

mutual

/-- Ways that are related give related projections. -/
theorem related_ofSchema : ∀ schema : Schema, Blames amiss asked schema →
    related (ofSchema draft onLazy schema) (ofSchema draft onLazy' schema)
  | .validator ⟨_, some metadata, _⟩, blames | .foreign ⟨_, _, _, some metadata⟩, blames =>
    related_ofMetadata metadata (blames _ (.self _)).1 (blames _ (.self _)).2
      fun _ member inner inside => blames inner (.part rfl member inside)
  | .validator ⟨_, none, _⟩, blames | .foreign ⟨_, _, _, none⟩, blames | .cls _, blames
  | .choice _, blames | .null, blames | .dict _, blames | .mapping _, blames | .list _, blames
  | .tuple _, blames | .value _, blames | .function _, blames =>
    related_guess ways.toCongruence (blames _ (.self _)).1
termination_by structural schema => schema

/-- Descriptions are projected alike where those of their parts and of their lazy schema are. -/
private theorem related_ofMetadata : ∀ metadata : Metadata, (metadata.fits = false → amiss) →
    (∀ id, metadata.lazy? = some id → asked id) →
    (∀ part ∈ metadata.parts, Blames amiss asked part) →
    related (ofMetadata draft onLazy metadata) (ofMetadata draft onLazy' metadata)
  | ⟨kind, parameters, children, docs, default⟩, blamed, asks, parts => by
    have inChildren : ∀ part ∈ children.schemas, Blames amiss asked part := fun part member =>
      parts part (List.mem_append_left _ member)
    have inRest : ∀ schema, Entries.get? parameters "rest" = some (.schema schema) →
        Blames amiss asked schema := fun schema given => parts schema
      (List.mem_append_right _ (by simp [Metadata.rest?, given]))
    have child := related_ofChild children
    have rest := related_ofRest parameters
    refine ways.bind ?_ fun _ => ways.pure _
    cases kind with
    | string | number | integer | boolean | null | any | unknown | never | instanceOf | literal
    | check =>
      exact ways.pure _
    | enum =>
      cases given : Entries.get? parameters "values" with
      | none => exact ways.pure _
      | some parameter =>
        have listing : Metadata.fits ⟨.enum, parameters, children, docs, default⟩ =
            (Keywords.listed parameter).isOk := by
          simp only [Metadata.fits, Metadata.listsValues, given]
        exact ways.bind (related_ofConstruction ways.toCongruence
          (fun refused => blamed (listing.trans refused)) fun _ => listed_shallow) fun _ =>
            ways.pure _
    | keyof =>
      refine ways.bind (related_ofConstruction ways.toCongruence ?_ fun _ =>
        listed_shallow) fun _ =>
        ways.pure _
      intro refused
      cases given : Entries.get? parameters "values" with
      | none => simp [given, Keywords.listed, Value.iterate?, Except.isOk, Except.toBool] at refused
      | some parameter =>
        have listing : Metadata.fits ⟨.keyof, parameters, children, docs, default⟩ =
            (Keywords.listed parameter).isOk := by
          simp only [Metadata.fits, Metadata.listsValues, given]
        rw [given] at refused
        exact blamed (listing.trans refused)
    | object => exact related_ofShape _ children inChildren
    | partialObject => exact related_ofShape _ children inChildren
    | required => exact related_ofShape _ children inChildren
    | looseObject =>
      exact ways.bind (related_ofShape _ children inChildren) fun _ => ways.pure _
    | objectWithRest =>
      refine ways.bind (rest inRest fun v given told => blamed ?_) fun _ =>
        ways.bind (related_ofShape _ children inChildren) fun _ => ways.pure _
      simpa only [Metadata.fits, Metadata.tellsRest, given] using told
    | array | set => exact ways.bind (child blamed inChildren) fun _ => ways.pure _
    | tuple =>
      refine ways.bind (related_ofPositions children (fun odd => blamed ?_) inChildren) fun _ =>
        ways.bind (rest inRest fun v given told => blamed ?_) fun _ => ways.pure _
      · simp only [Metadata.fits, odd, Bool.false_and]
      · simp only [Metadata.fits, Metadata.tellsRest, given, told, Bool.and_false]
    | record =>
      refine ways.bind (related_ofPair children blamed inChildren) fun pair => ?_
      exact ways.pure _
    | map =>
      exact ways.bind (related_ofSecond children blamed inChildren) fun _ => ways.pure _
    | lazy =>
      refine related_ofDeferred ways.toCongruence blamed ?_
      rintro id rfl
      exact ways.lazies id (asks id rfl)
    | pipe => exact related_ofSteps children blamed inChildren
    | union | discriminatedUnion | variant | intersect =>
      exact ways.bind (related_ofPositions children blamed inChildren) fun _ =>
        ways.pure _
    | nullable | nullish => exact ways.bind (child blamed inChildren) fun _ => ways.pure _
    | optional | exactOptional | default | fallback | nonNullable | nonNullish | nonOptional
    | refine | transform | «catch» | codec =>
      exact ways.bind (child blamed inChildren) fun _ => ways.pure _
termination_by structural metadata => metadata

/-- Children that stand for one schema are projected alike. -/
private theorem related_ofChild : ∀ children : Children, (children.isChild = false → amiss) →
    (∀ part ∈ children.schemas, Blames amiss asked part) →
    related (ofChild draft onLazy children) (ofChild draft onLazy' children)
  | .one schema, _, parts =>
    ways.bind (related_ofSchema schema (parts schema (List.mem_singleton.mpr rfl)))
      fun _ => ways.pure _
  | .many _, blamed, _ | .fields _, blamed, _ =>
    ways.bind (related_guess ways.toCongruence blamed) fun _ => ways.pure _
  | .absent, _, _ | .deferred _, _, _ => ways.pure _
termination_by structural children => children

/-- Children in order are projected alike. -/
private theorem related_ofPositions : ∀ children : Children, (children.isRun = false → amiss) →
    (∀ part ∈ children.schemas, Blames amiss asked part) →
    related (ofPositions draft onLazy children) (ofPositions draft onLazy' children)
  | .absent, _, _ => ways.pure _
  | .fields entries, blamed, _ => by
    refine related_guessAll ways.toCongruence fun silent => blamed ?_
    rwa [List.all_map] at silent
  | .many schemas, _, parts => related_ofSchemas schemas parts
  | .one _, blamed, _ | .deferred _, blamed, _ => ways.misuse (blamed rfl) _ (by simp)
termination_by structural children => children

private theorem related_ofPair : ∀ children : Children, (children.isPair = false → amiss) →
    (∀ part ∈ children.schemas, Blames amiss asked part) →
    related (ofPair draft onLazy children) (ofPair draft onLazy' children)
  | .many [key, value], _, parts =>
    ways.bind (related_ofSchema value (parts value (by simp [Children.schemas]))) fun _ =>
      ways.bind (related_ofSchema key (parts key (by simp [Children.schemas]))) fun _ =>
        ways.pure _
  | .fields [key, value], blamed, _ => by
    have either : ∀ {one other : Bool}, one = false ∨ other = false → (one && other) = false := by
      simp
    exact ways.bind (related_guess ways.toCongruence fun silent => blamed (either (.inl silent)))
      fun _ => ways.bind (related_guess ways.toCongruence fun silent =>
        blamed (either (.inr silent))) fun _ => ways.pure _
  | .absent, blamed, _ | .one _, blamed, _ | .deferred _, blamed, _ | .many [], blamed, _
  | .many [_], blamed, _ | .many (_ :: _ :: _ :: _), blamed, _ | .fields [], blamed, _
  | .fields [_], blamed, _ | .fields (_ :: _ :: _ :: _), blamed, _ => by
    rw [ofPair_eq_noPair rfl, ofPair_eq_noPair rfl]
    exact related_noPair ways.toCongruence (blamed rfl)
termination_by structural children => children

private theorem related_ofSecond : ∀ children : Children, (children.hasSecond = false → amiss) →
    (∀ part ∈ children.schemas, Blames amiss asked part) →
    related (ofSecond draft onLazy children) (ofSecond draft onLazy' children)
  | .many [_, value], _, parts => related_ofSchema value (parts value (by simp [Children.schemas]))
  | .fields [_, _], blamed, _ => related_guess ways.toCongruence blamed
  | .absent, blamed, _ | .one _, blamed, _ | .deferred _, blamed, _ | .many [], blamed, _
  | .many [_], blamed, _ | .many (_ :: _ :: _ :: _), blamed, _ | .fields [], blamed, _
  | .fields [_], blamed, _ | .fields (_ :: _ :: _ :: _), blamed, _ => by
    rw [ofSecond_eq_noPair rfl, ofSecond_eq_noPair rfl]
    exact related_noPair ways.toCongruence (blamed rfl)
termination_by structural children => children

/-- Steps are projected alike: the first one, and what the checks behind it add. -/
private theorem related_ofSteps : ∀ children : Children, (children.isSteps = false → amiss) →
    (∀ part ∈ children.schemas, Blames amiss asked part) →
    related (ofSteps draft onLazy children) (ofSteps draft onLazy' children)
  | .absent, _, _ | .many [], _, _ | .fields [], _, _ => ways.pure _
  | .many (first :: _), _, parts =>
    ways.bind (related_ofSchema first (parts first List.mem_cons_self)) fun _ =>
      ways.pure _
  | .fields (entry :: rest), blamed, parts => related_ofZero (entry :: rest) (blamed rfl) parts
  | .one _, blamed, _ | .deferred _, blamed, _ => ways.misuse (blamed rfl) _ (by simp)
termination_by structural children => children

private theorem related_ofZero : ∀ entries : List (Value × Schema), amiss →
    (∀ part ∈ entries.map (·.2), Blames amiss asked part) →
    related (ofZero draft onLazy entries) (ofZero draft onLazy' entries)
  | [], blamed, _ => ways.misuse blamed _ (by simp)
  | (key, schema) :: rest, blamed, parts => by
    change related (if key == .int 0 then _ else _) (if key == .int 0 then _ else _)
    split
    · exact ways.bind (related_ofSchema schema (parts schema List.mem_cons_self)) fun _ =>
        ways.misuse blamed _ (by simp)
    · exact related_ofZero rest blamed fun part member => parts part (List.mem_cons_of_mem _ member)
termination_by structural entries => entries

private theorem related_ofShape (listing : Listing) : ∀ children : Children,
    (∀ part ∈ children.schemas, Blames amiss asked part) →
    related (ofShape draft onLazy listing children) (ofShape draft onLazy' listing children)
  | .fields entries, parts =>
    ways.bind (related_ofFields entries parts) fun _ => ways.pure _
  | .absent, _ | .one _, _ | .many _, _ | .deferred _, _ => ways.pure _
termination_by structural children => children

/-- The schema of what may follow is projected alike, be it given or guessed. -/
private theorem related_ofRest : ∀ parameters : List (String × Parameter),
    (∀ schema, Entries.get? parameters "rest" = some (.schema schema) → Blames amiss asked schema) →
    (∀ v, Entries.get? parameters "rest" = some (.value v) →
      (v.isNull || Inference.tellsValue v) = false → amiss) →
    related (ofRest draft onLazy parameters) (ofRest draft onLazy' parameters)
  | [], _, _ => ways.pure _
  | (key, parameter) :: further, blames, told => by
    change related (if key == "rest" then _ else _) (if key == "rest" then _ else _)
    cases named : key == "rest" with
    | true =>
      exact related_ofParameter parameter
        (fun schema given => blames schema (by simp [Entries.get?, named, given]))
        fun v given => told v (by simp [Entries.get?, named, given])
    | false =>
      exact related_ofRest further
        (fun schema given => blames schema (by simpa [Entries.get?, named] using given))
        fun v given => told v (by simpa [Entries.get?, named] using given)
termination_by structural parameters => parameters

private theorem related_ofParameter : ∀ parameter : Parameter,
    (∀ schema, parameter = .schema schema → Blames amiss asked schema) →
    (∀ v, parameter = .value v → (v.isNull || Inference.tellsValue v) = false → amiss) →
    related (ofParameter draft onLazy parameter) (ofParameter draft onLazy' parameter)
  | .value v, _, told => by
    change related (if v.isNull then _ else _) (if v.isNull then _ else _)
    cases null : v.isNull with
    | true => exact ways.pure _
    | false =>
      refine ways.bind (related_guess ways.toCongruence fun silent => told v rfl ?_) fun _ =>
        ways.pure _
      rw [null, Inference.tellsValue, silent, Bool.false_or]
  | .schema schema, blames, _ =>
    ways.bind (related_ofSchema schema (blames schema rfl)) fun _ => ways.pure _
termination_by structural parameter => parameter

private theorem related_ofSchemas : ∀ schemas : List Schema,
    (∀ part ∈ schemas, Blames amiss asked part) →
    related (ofSchemas draft onLazy schemas) (ofSchemas draft onLazy' schemas)
  | [], _ => ways.pure _
  | schema :: rest, parts =>
    ways.bind (related_ofSchema schema (parts schema List.mem_cons_self)) fun _ =>
      ways.bind (related_ofSchemas rest fun part member =>
        parts part (List.mem_cons_of_mem _ member)) fun _ => ways.pure _
termination_by structural schemas => schemas

private theorem related_ofFields : ∀ entries : List (Value × Schema),
    (∀ part ∈ entries.map (·.2), Blames amiss asked part) →
    related (ofFields draft onLazy entries) (ofFields draft onLazy' entries)
  | [], _ => ways.pure _
  | (_, schema) :: rest, parts =>
    ways.bind (related_ofSchema schema (parts schema List.mem_cons_self)) fun _ =>
      ways.bind (related_ofFields rest fun part member =>
        parts part (List.mem_cons_of_mem _ member)) fun _ => ways.pure _
termination_by structural entries => entries

end

end Projections

/-- Ways that are always related give related projections, whatever may be amiss. -/
theorem related_everywhere (congruence : Eval.Congruence related True)
    (lazies : ∀ id, related (onLazy id) (onLazy' id)) (schema : Schema) :
    related (ofSchema draft onLazy schema) (ofSchema draft onLazy' schema) :=
  related_ofSchema { congruence with lazies := fun id (_ : True) => lazies id } schema
    fun _ _ => ⟨fun _ => trivial, fun _ _ => trivial⟩

end Projection

end Conform
