import Conform.Proofs.JsonSchema.Meaning
import Conform.Proofs.Value.Entries
import Conform.Proofs.Value.Equivalence

/-!
How the meaning of keywords follows the ways in which they are put together: annotations say
nothing, a keyword sees three of its siblings only, and the fragment that also admits null does just
that (`Keywords.admits_orNull`).
-/
namespace Conform

namespace Entries

variable {α : Type}

/-- Giving a value to one name leaves the others as they are. -/
theorem get?_insert_of_ne {name other : String} (different : name ≠ other)
    (entries : Entries Value α) (value : α) :
    get? (insert entries (.str name) value) (.str other) = get? entries (.str other) := by
  have apart : (Value.str name == Value.str other) = false :=
    (Value.beq_str name other).trans (beq_false_of_ne different)
  rw [get?_insert, apart, if_neg Bool.false_ne_true]

end Entries

namespace Keyword

def name (keyword : Keyword) : String :=
  ((names.find? fun entry => entry.2 == keyword).map (·.1)).getD ""

@[simp] theorem ofName?_name (keyword : Keyword) : ofName? (.str keyword.name) = some keyword := by
  cases keyword <;> rfl

/-- The name of the sibling that a keyword looks at. -/
def beside : Keyword → Option String
  | .additionalProperties => some "properties"
  | .items => some "prefixItems"
  | .additionalItems => some "items"
  | _ => none

/-- Whether a keyword speaks only of values of some types, and null is not of them. -/
def conditional : Keyword → Bool
  | .type | .const | .enum | .not | .anyOf | .allOf => false
  | _ => true

variable {draft : String} {siblings others : List (Value × Meaning)} {meaning : Meaning} {x : Value}

/-- A keyword admits alike among siblings that agree on the one it looks at. -/
theorem admits_congr {keyword : Keyword}
    (same : ∀ name, keyword.beside = some name → meaningOf siblings name = meaningOf others name) :
    keyword.admits draft siblings meaning x = keyword.admits draft others meaning x := by
  cases keyword with
  | additionalProperties => simp only [admits, same _ rfl]
  | items => simp only [admits, same _ rfl]
  | additionalItems => simp only [admits, same _ rfl]
  | _ => rfl

theorem beside_ne_name (keyword : Keyword) : keyword.beside ≠ some keyword.name := by
  cases keyword <;> decide

/-- A keyword that speaks of one type only admits null. -/
theorem admits_null {keyword : Keyword} (conditional : keyword.conditional = true) :
    keyword.admits draft siblings meaning .null = true := by
  cases keyword with
  | type | const | enum | not | anyOf | allOf => cases conditional
  | items =>
    cases meaning <;> simp [admits, Value.elements, admitsEach]
  | additionalItems =>
    simp only [admits, Value.elements, List.drop_nil, List.all_nil]
    cases meaningOf siblings "items" <;> simp
  | _ =>
    simp [admits, Value.members, Value.elements, Value.hasType, Meaning.bounds, admitsEach,
      Value.arraySize?, Value.textSize?, Value.number?, Entries.get?]

end Keyword

namespace Meaning

variable {draft : String} {siblings others : List (Value × Meaning)} {x : Value}

def admitsEntry (draft : String) (siblings : List (Value × Meaning)) (x : Value)
    (entry : Value × Meaning) : Bool :=
  (Keyword.ofName? entry.1).all (Keyword.admits draft siblings entry.2 x)

theorem admitAll_eq (draft : String) (meanings : List (Value × Meaning)) (x : Value) :
    admitAll draft meanings x = meanings.all (admitsEntry draft meanings x) := rfl

/-- The name of the sibling that the keyword of a name looks at. -/
def besideName? (name : Value) : Option String := (Keyword.ofName? name).bind Keyword.beside

/-- A keyword admits a value whatever is beside it, apart from the sibling that it looks at. -/
theorem admitsEntry_congr {entry : Value × Meaning}
    (same : ∀ name, besideName? entry.1 = some name →
    Keyword.meaningOf siblings name = Keyword.meaningOf others name) :
    admitsEntry draft siblings x entry = admitsEntry draft others x entry := by
  unfold admitsEntry
  unfold besideName? at same
  cases found : Keyword.ofName? entry.1 with
  | none => rfl
  | some keyword =>
    rw [found] at same
    exact Keyword.admits_congr same

theorem admitsEntry_unread {name : Value} (unread : Keyword.ofName? name = none)
    (meaning : Meaning) : admitsEntry draft siblings x (name, meaning) = true := by
  simp only [admitsEntry, unread, Option.all_none]

end Meaning

namespace Keywords

open Meaning

variable {draft : String} {keywords : Keywords} {x : Value}

/-- Nothing is found under a name that is not among the given ones. -/
theorem get?_eq_none_of_others {name : String}
    (others : ∀ entry ∈ keywords, ∃ other, entry.1 = .str other ∧ other ≠ name) :
    Entries.get? keywords (.str name) = none := by
  refine Entries.get?_eq_none_iff.mpr fun entry inside => ?_
  obtain ⟨other, spelt, different⟩ := others entry inside
  rw [spelt, Value.beq_str]
  exact beq_false_of_ne different

/-- Parameters become keywords under the names of constraints. -/
theorem spelt_of_mem_ofParameters {parameters : List (String × Parameter)}
    {entry : Value × Fragment}
    (inside : entry ∈ ofParameters parameters) : ∃ name ∈ copied, entry.1 = .str name := by
  obtain ⟨parameter, kept, rfl⟩ := List.mem_map.mp inside
  exact ⟨parameter.1, List.contains_iff_mem.mp (List.mem_filter.mp kept).2, rfl⟩

/-- The names of the keywords that documentation adds. -/
def documented : List String :=
  ["description", "title", "examples", "default", "deprecated", "readOnly"]

/-- What is kept when a keyword of documentation is given a value is kept by all documentation. -/
theorem keeps_document {kept : Keywords → Prop}
    (putting : ∀ name ∈ documented, ∀ keywords value, kept keywords →
      kept (keywords.putValue name value))
    (docs : Documentation) (default : Value) (given : kept keywords) :
    kept (keywords.document docs default) := by
  have annotated : ∀ {keywords : Keywords} (name : String) (value : Option Value),
      name ∈ documented →
        kept keywords → kept (value.elim keywords (keywords.putValue name)) := by
    intro keywords name value member given
    cases value with
    | none => exact given
    | some value => exact putting name member keywords value given
  refine annotated "readOnly" _ (by decide) ?_
  refine annotated "deprecated" _ (by decide) ?_
  refine annotated "default" _ (by decide) ?_
  refine annotated "examples" _ (by decide) ?_
  refine annotated "title" _ (by decide) ?_
  exact annotated "description" _ (by decide) given

theorem meanings_put (name : String) (fragment : Fragment) :
    (keywords.put name fragment).meanings draft =
      Entries.insert (keywords.meanings draft) (.str name) (fragment.meaning draft) :=
  Entries.map_insert _ keywords _ fragment

def looksAt (keywords : Keywords) (name : String) : Bool :=
  keywords.any fun entry => besideName? entry.1 == some name

theorem meaningOf_put {name other : String} (different : name ≠ other) (fragment : Fragment) :
    Keyword.meaningOf ((keywords.put name fragment).meanings draft) other =
      Keyword.meaningOf (keywords.meanings draft) other := by
  rw [Keyword.meaningOf, meanings_put, Entries.get?_insert_of_ne different, Keyword.meaningOf]

/-- Keywords that do not look at a further one admit as before. -/
private theorem admitsEntry_put {name : String} {entry : Value × Fragment}
    (unseen : besideName? entry.1 ≠ some name) (fragment : Fragment) :
    admitsEntry draft ((keywords.put name fragment).meanings draft) x
      (entry.1, entry.2.meaning draft) =
      admitsEntry draft (keywords.meanings draft) x (entry.1, entry.2.meaning draft) := by
  refine admitsEntry_congr fun other found => meaningOf_put ?_ fragment
  rintro rfl
  exact unseen found

private theorem put_fresh {name : String} (fresh : Entries.get? keywords (.str name) = none)
    (fragment : Fragment) : keywords.put name fragment = keywords ++ [(.str name, fragment)] := by
  induction keywords with
  | nil => rfl
  | cons entry rest ih =>
    rw [Entries.get?_cons] at fresh
    split at fresh
    · cases fresh
    · rename_i different
      simp only [put, Entries.insert, different, Bool.false_eq_true, if_false, List.cons_append]
      exact congrArg _ (ih fresh)

/-- A further keyword that no other looks at admits by itself. -/
theorem admits_put (keyword : Keyword) (unseen : keywords.looksAt keyword.name = false)
    (fresh : Entries.get? keywords (.str keyword.name) = none) (fragment : Fragment) :
    (keywords.put keyword.name fragment).admits draft x = (keywords.admits draft x &&
      keyword.admits draft (keywords.meanings draft) (fragment.meaning draft) x) := by
  have before : (keywords.meanings draft).all
      (admitsEntry draft ((keywords.put keyword.name fragment).meanings draft) x) =
        keywords.admits draft x := by
    rw [admits, admitAll_eq, meanings, List.all_map, List.all_map, Bool.eq_iff_iff]
    simp only [List.all_eq_true]
    refine forall₂_congr fun entry member => ?_
    have unseen := List.any_eq_false.mp unseen entry member
    exact iff_of_eq (congrArg (· = true)
      (admitsEntry_put (fun seen => unseen (beq_iff_eq.mpr seen)) fragment))
  have further : admitsEntry draft ((keywords.put keyword.name fragment).meanings draft) x
      (.str keyword.name, fragment.meaning draft) =
        keyword.admits draft (keywords.meanings draft) (fragment.meaning draft) x := by
    rw [admitsEntry, Keyword.ofName?_name, Option.all_some]
    refine Keyword.admits_congr fun other found => meaningOf_put ?_ fragment
    rintro rfl
    exact keyword.beside_ne_name found
  have split : (keywords.put keyword.name fragment).meanings draft =
      keywords.meanings draft ++ [(.str keyword.name, fragment.meaning draft)] := by
    rw [put_fresh fresh, meanings, List.map_append]
    rfl
  calc (keywords.put keyword.name fragment).admits draft x
      = (keywords.meanings draft ++ [(Value.str keyword.name, fragment.meaning draft)]).all
          (admitsEntry draft ((keywords.put keyword.name fragment).meanings draft) x) := by
        rw [← split]
        rfl
    _ = _ := by
        rw [List.all_append, List.all_cons, List.all_nil, Bool.and_true, before, further]

/-- No keyword looks at a name that is no keyword. -/
private theorem besideName?_ne {name : String} (unread : Keyword.ofName? (.str name) = none)
    (other : Value) : besideName? other ≠ some name := by
  rintro seen
  obtain ⟨keyword, -, found⟩ := Option.bind_eq_some_iff.mp seen
  cases keyword <;> cases found <;> cases unread

/-- A name that is no keyword changes nothing. -/
theorem admits_putValue_unread {name : String} (unread : Keyword.ofName? (.str name) = none)
    (value : Value) : (keywords.putValue name value).admits draft x = keywords.admits draft x := by
  have each : ∀ entries : List (Value × Meaning),
      (Entries.insert entries (.str name) (.plain value)).all
        (admitsEntry draft (keywords.meanings draft) x)
        = entries.all (admitsEntry draft (keywords.meanings draft) x) := by
    intro entries
    induction entries with
    | nil => simp only [Entries.insert, List.all_cons, admitsEntry_unread unread, Bool.true_and]
    | cons entry rest ih =>
      simp only [Entries.insert]
      split
      · rename_i equal
        have silent : Keyword.ofName? entry.1 = none := by
          rw [Value.eq_str_of_beq equal]
          exact unread
        simp only [List.all_cons, admitsEntry, silent, Option.all_none]
      · simp only [List.all_cons, ih]
  have same : admitsEntry draft ((keywords.putValue name value).meanings draft) x =
      admitsEntry draft (keywords.meanings draft) x := by
    funext entry
    refine admitsEntry_congr fun other found => meaningOf_put ?_ (.value value)
    rintro rfl
    exact besideName?_ne unread _ found
  simp only [admits, admitAll_eq]
  rw [same, putValue, meanings_put]
  exact each _

/-- The type comes first, and all else is conditional on types other than null. -/
def Typed (keywords : Keywords) : Prop :=
  ∃ types rest, keywords = (.str "type", .value types) :: rest ∧
    ∀ entry ∈ rest, ∃ keyword, Keyword.ofName? entry.1 = some keyword ∧ keyword.conditional

theorem typed_ofType (name : String) : (ofType name).Typed := ⟨.str name, [], rfl, by simp⟩

private theorem name_of_mem_insert {entries : Keywords} {key : Value} {fragment : Fragment}
    {entry : Value × Fragment} (member : entry ∈ Entries.insert entries key fragment) :
    entry.1 = key ∨ ∃ other ∈ entries, entry.1 = other.1 := by
  induction entries with
  | nil => exact .inl (congrArg Prod.fst (List.mem_singleton.mp member))
  | cons first rest ih =>
    simp only [Entries.insert] at member
    split at member
    · rcases List.mem_cons.mp member with rfl | member
      · exact .inr ⟨first, List.mem_cons_self, rfl⟩
      · exact .inr ⟨entry, List.mem_cons_of_mem _ member, rfl⟩
    · rcases List.mem_cons.mp member with rfl | member
      · exact .inr ⟨entry, List.mem_cons_self, rfl⟩
      · rcases ih member with named | ⟨other, inside, named⟩
        · exact .inl named
        · exact .inr ⟨other, List.mem_cons_of_mem _ inside, named⟩

/-- A keyword for one type may be added to a document schema that has a type. -/
theorem typed_put (keyword : Keyword) (conditional : keyword.conditional) (typed : keywords.Typed)
    (fragment : Fragment) : (keywords.put keyword.name fragment).Typed := by
  obtain ⟨types, rest, rfl, silent⟩ := typed
  have apart : (Value.str "type" == .str keyword.name) = false := by
    cases keyword <;> first | rfl | cases conditional
  refine ⟨types, Entries.insert rest (.str keyword.name) fragment, ?_, fun entry member => ?_⟩
  · simp only [put, Entries.insert, apart, Bool.false_eq_true, if_false]
  · rcases name_of_mem_insert member with named | ⟨other, inside, named⟩
    · exact ⟨keyword, by rw [named, Keyword.ofName?_name], conditional⟩
    · rw [named]
      exact silent other inside

/-- Keywords that the fragment admitting null as well can be made of. -/
def Extensible (keywords : Keywords) : Prop :=
  keywords.Typed ∨ Entries.get? keywords (.str "type") = none

/-- Whether a value is of one of the named types. -/
def anyType (names : List Value) (x : Value) : Bool :=
  names.any fun name => match name with
    | .str name => x.hasType name
    | _ => false

/-- A document schema with a type admits what is of the type and passes the other keywords. -/
theorem admits_typed (types : Value) (rest : Keywords) :
    admits draft ((.str "type", .value types) :: rest) x =
      (anyType (Meaning.plain types).types x &&
        (meanings draft rest).all (admitsEntry draft (meanings draft rest) x)) := by
  have same : admitsEntry draft (meanings draft ((.str "type", .value types) :: rest)) x =
      admitsEntry draft (meanings draft rest) x := by
    funext entry
    refine admitsEntry_congr fun name found => ?_
    obtain ⟨keyword, -, beside⟩ := Option.bind_eq_some_iff.mp found
    cases keyword <;> cases beside <;> rfl
  rw [admits, admitAll_eq, same]
  rfl

/-- The fragment of a schema admits what its keywords do. -/
theorem admits_object (keywords : Keywords) (x : Value) :
    ((Fragment.object keywords).meaning draft).admits x = keywords.admits draft x := by
  simp only [Fragment.meaning, Fragment.meaningEntries_eq_map]
  rfl

theorem admits_ofType (name : String) : (ofType name).admits draft x = x.hasType name := by
  rw [ofType, admits_typed]
  simp [anyType, Meaning.types, meanings]

theorem schemas_of_list (items : List Keywords) :
    ((Fragment.list (items.map .object)).meaning draft).schemas =
      items.map fun keywords => keywords.admits draft := by
  simp only [Fragment.meaning, Meaning.schemas, Fragment.meanings_eq_map, List.map_map]
  refine List.map_congr_left fun keywords _ => ?_
  exact funext (admits_object keywords)

theorem admits_anyOf (options : List Keywords) :
    (ofList "anyOf" options).admits draft x = options.any (·.admits draft x) := by
  change (((Fragment.list (options.map .object)).meaning draft).schemas.any (· x) && true) = _
  rw [schemas_of_list, List.any_map, Bool.and_true]
  rfl

theorem admits_allOf (members : List Keywords) :
    (ofList "allOf" members).admits draft x = members.all (·.admits draft x) := by
  change (((Fragment.list (members.map .object)).meaning draft).schemas.all (· x) && true) = _
  rw [schemas_of_list, List.all_map, Bool.and_true]
  rfl

theorem hasType_null (x : Value) : x.hasType "null" = x.isNull := by
  cases x <;> rfl

/-- The types of the fragment that admits null as well. -/
private def widened : Value → List Value
  | .list types => if types.any (· == .str "null") then types else types ++ [.str "null"]
  | name => [name, .str "null"]

private theorem orNull_typed (types : Value) (rest : Keywords) :
    orNull ((.str "type", .value types) :: rest) =
      (.str "type", .value (.list (widened types))) :: rest := by
  cases types <;> rfl

/-- The widened types hold of null and of what the types hold of. -/
private theorem anyType_widened (types x : Value) :
    anyType (widened types) x = (x.isNull || anyType (Meaning.plain types).types x) := by
  have two : ∀ name : Value, anyType [name, .str "null"] x = (x.isNull || anyType [name] x) := by
    intro name
    simp only [anyType, List.any_cons, List.any_nil, Bool.or_false, hasType_null]
    exact Bool.or_comm _ _
  cases types with
  | list types =>
    simp only [widened, Meaning.types]
    split
    · rename_i included
      cases isNull : x.isNull with
      | false => rfl
      | true =>
        obtain ⟨name, member, equal⟩ := List.any_eq_true.mp included
        refine List.any_eq_true.mpr ⟨name, member, ?_⟩
        rw [Value.eq_str_of_beq equal]
        exact (hasType_null x).trans isNull
    · simp only [anyType, List.any_append, List.any_cons, List.any_nil, Bool.or_false, hasType_null]
      exact Bool.or_comm _ _
  | _ => exact two _

theorem typed_orNull (typed : keywords.Typed) : keywords.orNull.Typed := by
  obtain ⟨types, rest, rfl, conditional⟩ := typed
  exact ⟨_, rest, orNull_typed types rest, conditional⟩

private theorem orNull_untyped (untyped : Entries.get? keywords (.str "type") = none) :
    keywords.orNull = ofList "anyOf" [keywords, ofType "null"] := by
  simp only [orNull, untyped]

theorem extensible_orNull (extensible : keywords.Extensible) : keywords.orNull.Extensible := by
  rcases extensible with typed | untyped
  · exact .inl (typed_orNull typed)
  · rw [orNull_untyped untyped]
    exact .inr rfl

/-- Beside null the fragment that admits null as well admits what the given one does. -/
theorem admits_orNull (extensible : keywords.Extensible) :
    keywords.orNull.admits draft x = (x.isNull || keywords.admits draft x) := by
  rcases extensible with ⟨types, rest, rfl, conditional⟩ | untyped
  · rw [orNull_typed, admits_typed, admits_typed]
    simp only [Meaning.types]
    rw [anyType_widened]
    cases isNull : x.isNull with
    | false => rfl
    | true =>
      have null : x = .null := by cases x <;> first | rfl | cases isNull
      subst null
      simp only [Bool.true_or, Bool.true_and, List.all_eq_true]
      intro entry member
      obtain ⟨keyword, inside, rfl⟩ := List.mem_map.mp member
      obtain ⟨named, found, silent⟩ := conditional keyword inside
      simp only [admitsEntry, found, Option.all_some]
      exact Keyword.admits_null silent
  · rw [orNull_untyped untyped]
    rw [admits_anyOf]
    simp only [List.any_cons, List.any_nil, Bool.or_false, admits_ofType, hasType_null]
    exact Bool.or_comm _ _

end Keywords

end Conform
