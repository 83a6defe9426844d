import Conform.Path
import Mathlib.Data.List.TakeWhile

/-!
The grammar of written paths. A path is spelt segment by segment: keys as they are, positions by
their sign and digits in brackets. One dot may stand between two segments and has to stand between
two keys (`Spelt`). The reader goes on by rounds, each of which leaves a shorter text
(`round_shorter`), so that every text is read to an end (`ends_parse`), and it reads the spelt texts
and no others (`parse_of_spelt`, `exists_spelt_of_parse`).
-/
namespace Conform

namespace Path

/-- How a segment is written: a key by its characters, a position by its sign and its digits. -/
inductive Spelling where
  | key (name : List Char) (named : name ≠ []) (plain : ∀ c ∈ name, c ≠ '.' ∧ c ≠ '[' ∧ c ≠ ']')
  | index (negative : Bool) (digits : List Char) (counted : digits ≠ [])
      (decimal : ∀ c ∈ digits, Text.isDigit c)

namespace Spelling

def isIndex : Spelling → Bool
  | .key .. => false
  | .index .. => true

def sign (negative : Bool) : List Char := if negative then ['-'] else []

def text : Spelling → List Char
  | .key name .. => name
  | .index negative digits .. => '[' :: (sign negative ++ (digits ++ [']']))

/-- The segment that is written, unless there are too many digits to be read at once. -/
def read : Spelling → Except PathError Segment
  | .key name .. => .ok (.key (String.ofList name))
  | .index negative digits .. =>
    if DigitLimit.digits < digits.length then .error (.longIndex digits.length)
    else
      .ok (.index (if negative then -(Text.digitsValue digits : Int) else Text.digitsValue digits))

end Spelling

/-- A text spells several segments, of which there is at least one: a single dot may stand between
two of them, and does so between two keys. -/
inductive Spelt : List Char → List Spelling → Prop
  | last (only : Spelling) : Spelt only.text [only]
  | dotted (first : Spelling) {rest : List Char} {others : List Spelling}
      (further : Spelt rest others) :
      Spelt (first.text ++ '.' :: rest) (first :: others)
  | joined (first : Spelling) {next : Spelling} {rest : List Char} {others : List Spelling}
      (position : first.isIndex ∨ next.isIndex) (further : Spelt rest (next :: others)) :
      Spelt (first.text ++ rest) (first :: next :: others)

/-- One round of reading: a segment and the dot after it are taken off the text. -/
def round (whole : String) (s : List Char) : Except PathError (Segment × List Char) :=
  match takeSegment s with
  | .error error => .error error
  | .ok (_, '.' :: []) => .error (.trailingDot whole)
  | .ok (segment, '.' :: rest) => .ok (segment, rest)
  | .ok (segment, rest) => .ok (segment, rest)

/-- Rounds of reading, one after the other, come to an end with a result. -/
inductive Ends (whole : String) : List Char → Except PathError (List Segment) → Prop
  | done : Ends whole [] (.ok [])
  | refused {s : List Char} {error : PathError} (unread : s ≠ [])
      (failed : round whole s = .error error) :
      Ends whole s (.error error)
  | next {s rest : List Char} {segment : Segment} {result : Except PathError (List Segment)}
      (unread : s ≠ []) (taken : round whole s = .ok (segment, rest))
        (further : Ends whole rest result) :
      Ends whole s (result.map (segment :: ·))

theorem isKeyChar_iff {c : Char} : isKeyChar c ↔ c ≠ '.' ∧ c ≠ '[' ∧ c ≠ ']' := by
  simp [isKeyChar, and_assoc]

/-- A text parts after its longest beginning with a property: what is taken, and what is left. -/
theorem parted_takeWhile {α : Type} (p : α → Bool) (s : List α) :
    s = s.takeWhile p ++ s.drop (s.takeWhile p).length ∧ (∀ c ∈ s.takeWhile p, p c) ∧
      ∀ c ∈ (s.drop (s.takeWhile p).length).head?, p c = false := by
  have whole : s.takeWhile p ++ s.dropWhile p = s := List.takeWhile_append_dropWhile
  have left : s.drop (s.takeWhile p).length = s.dropWhile p :=
    (congrArg (List.drop (s.takeWhile p).length) whole.symm).trans List.drop_left
  rw [left]
  refine ⟨whole.symm, fun c inside => List.mem_takeWhile_imp inside, fun c first => ?_⟩
  have stops := List.head?_dropWhile_not p s
  rw [Option.mem_def.mp first] at stops
  exact stops

/-- What has a property throughout and is followed by something without it is the longest such
beginning. -/
theorem takeWhile_append_stop {α : Type} {p : α → Bool} {taken rest : List α}
    (inside : ∀ c ∈ taken, p c)
    (stop : ∀ c ∈ rest.head?, p c = false) : (taken ++ rest).takeWhile p = taken := by
  rw [List.takeWhile_append_of_pos inside]
  cases rest with
  | nil => rw [List.takeWhile_nil, List.append_nil]
  | cons c rest => rw [List.takeWhile_cons, stop c rfl, if_neg Bool.false_ne_true, List.append_nil]

theorem isDigit_minus : Text.isDigit '-' = false := by decide

theorem isDigit_bracket : Text.isDigit ']' = false := by decide

/-- What stands between the bracket and the digits is the sign. -/
theorem sign_append_unsigned (inside : List Char) :
    Spelling.sign (inside.head? == some '-') ++
      (if inside.head? == some '-' then inside.drop 1 else inside) = inside := by
  cases signed : inside.head? == some '-' with
  | false => rfl
  | true =>
    obtain ⟨rest, rfl⟩ := List.head?_eq_some_iff.mp (beq_iff_eq.mp signed)
    rfl

/-- A position at the start of a text is its sign and its digits between brackets. -/
theorem takeIndex?_eq_some_iff {s rest digits : List Char} {negative : Bool} :
    takeIndex? s = some (negative, digits, rest) ↔
      s = '[' :: (Spelling.sign negative ++ (digits ++ ']' :: rest)) ∧ digits ≠ [] ∧
        ∀ c ∈ digits, Text.isDigit c := by
  constructor
  · intro found
    unfold takeIndex? at found
    split at found
    · rename_i inside
      have unsigned := sign_append_unsigned inside
      obtain ⟨parted, decimal, -⟩ := parted_takeWhile Text.isDigit
        (if inside.head? == some '-' then inside.drop 1 else inside)
      dsimp only at found
      split at found
      · rename_i d ds after taken left
        cases found
        rw [left] at parted
        rw [← parted, unsigned]
        rw [taken] at decimal ⊢
        exact ⟨rfl, List.cons_ne_nil d ds, decimal⟩
      · cases found
    · cases found
  · rintro ⟨rfl, counted, decimal⟩
    have stop : ∀ c ∈ (']' :: rest).head?, Text.isDigit c = false := by
      rintro c ⟨⟩
      exact isDigit_bracket
    have taken : (digits ++ ']' :: rest).takeWhile Text.isDigit = digits :=
      takeWhile_append_stop decimal stop
    have signed : ((Spelling.sign negative ++ (digits ++ ']' :: rest)).head? == some '-') =
        negative := by
      cases negative with
      | true => rfl
      | false =>
        obtain ⟨d, ds, rfl⟩ := List.exists_cons_of_ne_nil counted
        have digit : d ≠ '-' := by
          rintro rfl
          exact absurd (decimal '-' List.mem_cons_self)
            (by rw [isDigit_minus]; exact Bool.false_ne_true)
        simpa [Spelling.sign] using digit
    have unsigned : (if negative then (Spelling.sign negative ++ (digits ++ ']' :: rest)).drop 1
        else Spelling.sign negative ++ (digits ++ ']' :: rest)) = digits ++ ']' :: rest := by
      cases negative <;> rfl
    unfold takeIndex?
    simp only [signed, unsigned, taken, List.drop_left]
    cases digits with
    | nil => exact absurd rfl counted
    | cons d ds => rfl

/-- What is taken off a text is a segment as it is written; a key is taken whole. -/
theorem takeSegment_eq_ok {s rest : List Char} {segment : Segment}
    (taken : takeSegment s = .ok (segment, rest)) :
    ∃ spelling : Spelling, s = spelling.text ++ rest ∧ spelling.read = .ok segment ∧
      (spelling.isIndex ∨ ∀ c ∈ rest.head?, isKeyChar c = false) := by
  unfold takeSegment at taken
  cases found : takeIndex? s with
  | some position =>
    obtain ⟨negative, digits, after⟩ := position
    obtain ⟨rfl, counted, decimal⟩ := takeIndex?_eq_some_iff.mp found
    simp only [found, DigitLimit.read] at taken
    split at taken
    · rename_i n within
      cases taken
      refine ⟨.index negative digits counted decimal, ?_, ?_, .inl rfl⟩
      · simp [Spelling.text]
      · split at within
        · cases within
        · rename_i short
          cases within
          rw [Spelling.read, if_neg short]
    · cases taken
  | none =>
    simp only [found] at taken
    split at taken
    · cases taken
    · rename_i named
      cases taken
      obtain ⟨parted, plain, stop⟩ := parted_takeWhile isKeyChar s
      refine ⟨.key (s.takeWhile isKeyChar) (fun none => named (List.isEmpty_iff.mpr none))
        (fun c inside => isKeyChar_iff.mp (plain c inside)), parted, rfl, .inr stop⟩

/-- A written segment is taken off as it is read, unless the text goes on with a key. -/
theorem takeSegment_text (spelling : Spelling) {rest : List Char}
    (apart : spelling.isIndex ∨ ∀ c ∈ rest.head?, isKeyChar c = false) :
    takeSegment (spelling.text ++ rest) = spelling.read.map fun segment => (segment, rest) := by
  cases spelling with
  | index negative digits counted decimal =>
    have found : takeIndex? ((Spelling.index negative digits counted decimal).text ++ rest) =
        some (negative, digits, rest) :=
      takeIndex?_eq_some_iff.mpr ⟨by simp [Spelling.text], counted, decimal⟩
    simp only [takeSegment, found, DigitLimit.read, Spelling.read]
    by_cases long : DigitLimit.digits < digits.length
    · rw [if_pos long, if_pos long]
      rfl
    · rw [if_neg long, if_neg long]
      rfl
  | key name named plain =>
    have keyed : ∀ c ∈ name, isKeyChar c := fun c inside => isKeyChar_iff.mpr (plain c inside)
    have taken : (name ++ rest).takeWhile isKeyChar = name :=
      takeWhile_append_stop keyed (apart.resolve_left Bool.false_ne_true)
    have found : takeIndex? (name ++ rest) = none := by
      obtain ⟨c, others, rfl⟩ := List.exists_cons_of_ne_nil named
      have opening : c ≠ '[' := (plain c List.mem_cons_self).2.1
      unfold takeIndex?
      split
      · rename_i same
        exact absurd (List.cons.inj same).1 opening
      · rfl
    have some : name.isEmpty = false := by
      rw [List.isEmpty_eq_false_iff]
      exact named
    simp only [takeSegment, Spelling.text, found, taken, some, List.drop_left,
      Bool.false_eq_true, if_false]
    rfl

theorem Spelling.text_ne_nil (spelling : Spelling) : spelling.text ≠ [] := by
  cases spelling with
  | key name named plain => exact named
  | index negative digits counted decimal => exact List.cons_ne_nil _ _

theorem takeSegment_shorter {s rest : List Char} {segment : Segment}
    (taken : takeSegment s = .ok (segment, rest)) : rest.length < s.length := by
  obtain ⟨spelling, rfl, -, -⟩ := takeSegment_eq_ok taken
  have some := List.length_pos_iff.mpr spelling.text_ne_nil
  rw [List.length_append]
  omega

/-- Every round leaves a shorter text. -/
theorem round_shorter {whole : String} {s rest : List Char} {segment : Segment}
    (taken : round whole s = .ok (segment, rest)) : rest.length < s.length := by
  unfold round at taken
  split at taken
  · cases taken
  · cases taken
  · rename_i first after _ found
    cases taken
    have shorter := takeSegment_shorter found
    rw [List.length_cons] at shorter
    omega
  · rename_i found
    cases taken
    exact takeSegment_shorter found

/-- A budget for a round and what follows it reads on from where the round ends. -/
theorem parseFrom_succ (whole : String) (budget : Nat) {s : List Char} (unread : s ≠ []) :
    parseFrom whole (budget + 1) s = (round whole s).bind fun taken =>
      (parseFrom whole budget taken.2).map (taken.1 :: ·) := by
  obtain ⟨c, others, rfl⟩ := List.exists_cons_of_ne_nil unread
  rw [parseFrom]
  · unfold round
    rcases takeSegment (c :: others) with error | ⟨segment, _ | ⟨d, rest⟩⟩
    · rfl
    · rfl
    · by_cases dot : d = '.'
      · subst dot
        cases rest <;> rfl
      · simp [dot, Except.bind]
  · exact unread

/-- A budget of the length of the text is enough for all rounds. -/
theorem ends_parseFrom (whole : String) {budget : Nat} {s : List Char}
    (enough : s.length ≤ budget) :
    Ends whole s (parseFrom whole budget s) := by
  induction budget generalizing s with
  | zero =>
    rw [List.eq_nil_of_length_eq_zero (Nat.le_zero.mp enough)]
    exact .done
  | succ budget ih =>
    by_cases unread : s = []
    · rw [unread]
      exact .done
    · rw [parseFrom_succ whole budget unread]
      cases taken : round whole s with
      | error error => exact .refused unread taken
      | ok step =>
        have shorter := round_shorter taken
        exact .next unread taken (ih (by omega))

/-- Rounds end in one way. -/
theorem Ends.unique {whole : String} {s : List Char} {one other : Except PathError (List Segment)}
    (first : Ends whole s one) (second : Ends whole s other) : one = other := by
  induction first generalizing other with
  | done =>
    cases second with
    | done => rfl
    | refused unread _ | next unread _ _ => exact absurd rfl unread
  | refused unread failed =>
    cases second with
    | done => exact absurd rfl unread
    | refused _ failed' =>
      cases failed.symm.trans failed'
      rfl
    | next _ taken _ => cases failed.symm.trans taken
  | next unread taken _ ih =>
    cases second with
    | done => exact absurd rfl unread
    | refused _ failed => cases taken.symm.trans failed
    | next _ taken' further =>
      cases taken.symm.trans taken'
      rw [ih further]

theorem Spelt.ne_nil {s : List Char} {spellings : List Spelling}
    (spelt : Spelt s spellings) : s ≠ [] := by
  cases spelt with
  | last only => exact only.text_ne_nil
  | dotted first _ | joined first _ _ =>
    intro none
    exact first.text_ne_nil (List.append_eq_nil_iff.mp none).1

/-- A written segment begins with a bracket or with a character of a key, as the case may be. -/
theorem Spelling.exists_text_eq_cons (spelling : Spelling) :
    ∃ c others, spelling.text = c :: others ∧ c ≠ '.' ∧
      if spelling.isIndex then c = '[' else isKeyChar c := by
  cases spelling with
  | key name named plain =>
    obtain ⟨c, others, rfl⟩ := List.exists_cons_of_ne_nil named
    have keyed := plain c List.mem_cons_self
    exact ⟨c, others, rfl, keyed.1, isKeyChar_iff.mpr keyed⟩
  | index negative digits counted decimal => exact ⟨'[', _, rfl, by decide, rfl⟩

/-- A spelt text begins with its first segment. -/
theorem Spelt.exists_eq_append {s : List Char} {spellings : List Spelling}
    (spelt : Spelt s spellings) :
    ∃ first others rest, spellings = first :: others ∧ s = first.text ++ rest := by
  cases spelt with
  | last only => exact ⟨only, [], [], rfl, (List.append_nil _).symm⟩
  | dotted first _ => exact ⟨first, _, _, rfl, rfl⟩
  | joined first _ _ => exact ⟨first, _, _, rfl, rfl⟩

/-- A round over a segment that a dot parts from more. -/
theorem round_dotted (whole : String) (first : Spelling) {rest : List Char} (more : rest ≠ []) :
    round whole (first.text ++ '.' :: rest) = first.read.map fun segment => (segment, rest) := by
  have apart : first.isIndex ∨ ∀ c ∈ ('.' :: rest).head?, isKeyChar c = false := by
    refine .inr ?_
    rintro c ⟨⟩
    rfl
  obtain ⟨c, others, rfl⟩ := List.exists_cons_of_ne_nil more
  unfold round
  rw [takeSegment_text first apart]
  cases first.read <;> rfl

/-- A round over a segment that no dot follows. -/
theorem round_joined (whole : String) (first : Spelling) {rest : List Char}
    (apart : first.isIndex ∨ ∀ c ∈ rest.head?, isKeyChar c = false)
    (undotted : rest.head? ≠ some '.') :
    round whole (first.text ++ rest) = first.read.map fun segment => (segment, rest) := by
  unfold round
  rw [takeSegment_text first apart]
  cases first.read with
  | error error => rfl
  | ok segment =>
    cases rest with
    | nil => rfl
    | cons c rest =>
      have other : c ≠ '.' := fun same => undotted (congrArg some same)
      simp [Except.map, other]

/-- What a round takes is a segment as it is written, and a dot when there is one. -/
theorem round_eq_ok {whole : String} {s rest : List Char} {segment : Segment}
    (taken : round whole s = .ok (segment, rest)) :
    ∃ first : Spelling, first.read = .ok segment ∧
      (s = first.text ++ '.' :: rest ∧ rest ≠ [] ∨
        s = first.text ++ rest ∧ (first.isIndex ∨ ∀ c ∈ rest.head?, isKeyChar c = false)) := by
  unfold round at taken
  split at taken
  · cases taken
  · cases taken
  · rename_i more found
    cases taken
    obtain ⟨first, split, read, -⟩ := takeSegment_eq_ok found
    refine ⟨first, read, .inl ⟨split, ?_⟩⟩
    rintro rfl
    exact more rfl
  · rename_i found
    cases taken
    obtain ⟨first, split, read, apart⟩ := takeSegment_eq_ok found
    exact ⟨first, read, .inr ⟨split, apart⟩⟩

theorem mapM_read_cons (first : Spelling) (others : List Spelling) :
    (first :: others).mapM Spelling.read = first.read.bind fun segment =>
      (others.mapM Spelling.read).map (segment :: ·) := by
  rw [List.mapM_cons]
  cases first.read with
  | error error => rfl
  | ok segment => cases others.mapM Spelling.read <;> rfl

/-- Rounds that begin with a written segment. -/
theorem Ends.cons {whole : String} {s rest : List Char} {first : Spelling} {others : List Spelling}
    (unread : s ≠ []) (taken : round whole s = first.read.map fun segment => (segment, rest))
    (further : Ends whole rest (others.mapM Spelling.read)) :
    Ends whole s ((first :: others).mapM Spelling.read) := by
  rw [mapM_read_cons]
  cases given : first.read with
  | error error =>
    rw [given] at taken
    exact .refused unread taken
  | ok segment =>
    rw [given] at taken
    exact .next unread taken further

/-- The rounds take a spelt text apart into what its segments are read as. -/
theorem Spelt.ends (whole : String) {s : List Char} {spellings : List Spelling}
    (spelt : Spelt s spellings) :
    Ends whole s (spellings.mapM Spelling.read) := by
  have unread := spelt.ne_nil
  induction spelt with
  | last only =>
    have taken : round whole (only.text ++ []) = only.read.map fun segment => (segment, []) :=
      round_joined whole only (.inr nofun) nofun
    rw [List.append_nil] at taken
    exact .cons unread taken .done
  | dotted first further ih =>
    exact .cons unread (round_dotted whole first further.ne_nil) (ih further.ne_nil)
  | @joined first next rest others position further ih =>
    obtain ⟨_, _, tail, split, rfl⟩ := further.exists_eq_append
    obtain ⟨rfl, -⟩ := List.cons.inj split
    obtain ⟨c, characters, text, undotted, begins⟩ := next.exists_text_eq_cons
    have head : (next.text ++ tail).head? = some c := by rw [text]; rfl
    refine .cons unread (round_joined whole first ?_ ?_) (ih further.ne_nil)
    · refine position.imp_right fun index d first => ?_
      rw [if_pos index] at begins
      cases head.symm.trans first
      rw [begins]
      rfl
    · rw [head]
      exact fun same => undotted (Option.some.inj same)

/-- A text that is read to its end is spelt. -/
theorem Ends.exists_spelt {whole : String} {s : List Char}
    {result : Except PathError (List Segment)}
    (ends : Ends whole s result) {segments : List Segment} (read : result = .ok segments)
    (unread : s ≠ []) :
    ∃ spellings, Spelt s spellings ∧ spellings.mapM Spelling.read = .ok segments := by
  induction ends generalizing segments with
  | done => exact absurd rfl unread
  | refused => cases read
  | @next s rest segment result unread taken further ih =>
    cases result with
    | error error => cases read
    | ok others =>
      cases read
      obtain ⟨first, given, shape⟩ := round_eq_ok taken
      by_cases more : rest = []
      · rcases shape with ⟨-, some⟩ | ⟨split, -⟩
        · exact absurd more some
        · rw [more, List.append_nil] at split
          rw [more] at further
          cases further.unique .done
          refine ⟨[first], split ▸ .last first, ?_⟩
          rw [mapM_read_cons, given]
          rfl
      · obtain ⟨spellings, spelt, reads⟩ := ih rfl more
        refine ⟨first :: spellings, ?_, ?_⟩
        · rcases shape with ⟨split, -⟩ | ⟨split, apart⟩
          · exact split ▸ .dotted first spelt
          · obtain ⟨next, following, after, rfl, rfl⟩ := spelt.exists_eq_append
            refine split ▸ .joined first (apart.imp_right fun stops => ?_) spelt
            -- a key cannot follow a key outright, or the first one would have gone on
            obtain ⟨c, characters, text, -, begins⟩ := next.exists_text_eq_cons
            have stopped := stops c (by rw [text]; rfl)
            split at begins
            · assumption
            · rw [stopped] at begins
              cases begins
        · rw [mapM_read_cons, given, reads]
          rfl

/-- Every text is read to an end. -/
theorem ends_parse {s : String} (some : s ≠ "") : Ends s s.toList (parse s) := by
  have characters : s.isEmpty = false := by
    rw [Bool.eq_false_iff]
    exact fun none => some (String.isEmpty_iff.mp none)
  rw [parse, characters, if_neg Bool.false_ne_true]
  exact ends_parseFrom s (Nat.le_of_eq String.length_toList)

/-- A spelt text is read as its segments are. -/
theorem parse_of_spelt {s : String} {spellings : List Spelling} (spelt : Spelt s.toList spellings) :
    parse s = spellings.mapM Spelling.read := by
  have some : s ≠ "" := by
    rintro rfl
    exact spelt.ne_nil rfl
  exact (ends_parse some).unique (spelt.ends s)

/-- A text that is read as a path is spelt. -/
theorem exists_spelt_of_parse {s : String} {segments : List Segment}
    (read : parse s = .ok segments) :
    ∃ spellings, Spelt s.toList spellings ∧ spellings.mapM Spelling.read = .ok segments := by
  have some : s ≠ "" := by
    rintro rfl
    cases read
  refine (ends_parse some).exists_spelt read fun none => some ?_
  exact String.toList_eq_nil_iff.mp none

end Path

end Conform
