import Conform.Proofs.Path.Grammar
import Mathlib.Data.List.Basic

/-!
Writing paths and reading them back. What `Path.format` writes of keys without dots and brackets and
of positions is spelt as the grammar has it, so that it is read as the same path; and a path that
was read from any spelling is one of these. `Path.parse_reads_grammar_and_format` joins this to what
texts are read at all.
-/
namespace Conform

namespace Text

/-- A decimal digit of the common script stands for its distance from zero. -/
theorem digitValue?_of_isDigit {c : Char} (digit : c.isDigit) :
    digitValue? c = some (c.toNat - '0'.toNat) := by
  have range : 48 ≤ c.toNat ∧ c.toNat < 48 + 10 := by
    simp only [Char.isDigit, Bool.and_eq_true, decide_eq_true_eq, ge_iff_le,
      UInt32.le_iff_toNat_le] at digit
    exact ⟨digit.1, Nat.lt_succ_of_le digit.2⟩
  unfold digitValue? zeroDigits
  rw [List.find?_cons_of_pos]
  · rfl
  · simp [range.1, range.2]

/-- The digits of a number are read as the number. -/
theorem digitsValue_toDigits (n : Nat) : digitsValue (Nat.toDigits 10 n) = n := by
  have ten : 1 < 10 := by decide
  calc digitsValue (Nat.toDigits 10 n) = Nat.ofDigitChars 10 (Nat.toDigits 10 n) 0 := by
        rw [Nat.ofDigitChars_eq_foldl]
        refine List.foldl_ext _ _ _ fun total c inside => ?_
        have digit : c.isDigit := Nat.isDigit_of_mem_toDigits (by decide) (by decide) inside
        rw [digitValue?_of_isDigit digit]
        rfl
    _ = n := Nat.ofDigitChars_toDigits ten (Nat.le_refl 10)

theorem digitValue?_le {c : Char} : (digitValue? c).getD 0 ≤ 9 := by
  unfold digitValue?
  cases found : zeroDigits.find? fun base => base ≤ c.toNat && c.toNat < base + 10 with
  | none => exact Nat.zero_le 9
  | some base =>
    have range := List.find?_some found
    simp only [Bool.and_eq_true, decide_eq_true_eq] at range
    change c.toNat - base ≤ 9
    omega

/-- A number is less than the power of ten that has more digits. -/
theorem digitsValue_lt (digits : List Char) : digitsValue digits < Nat.pow 10 digits.length := by
  have further : ∀ total, digits.foldl (fun total c => 10 * total + (digitValue? c).getD 0) total <
      (total + 1) * Nat.pow 10 digits.length := by
    induction digits with
    | nil => intro total; exact Nat.lt_of_lt_of_eq (Nat.lt_succ_self total) (Nat.mul_one _).symm
    | cons c rest ih =>
      intro total
      have least := digitValue?_le (c := c)
      have step : (10 * total + (digitValue? c).getD 0 + 1) * Nat.pow 10 rest.length ≤
          (total + 1) * 10 * Nat.pow 10 rest.length := Nat.mul_le_mul_right _ (by omega)
      have power : Nat.pow 10 (c :: rest).length = 10 * Nat.pow 10 rest.length := Nat.pow_succ'
      rw [power, ← Nat.mul_assoc]
      exact Nat.lt_of_lt_of_le (ih _) step
  exact Nat.lt_of_lt_of_eq (further 0) (Nat.one_mul _)

/-- A number below a power of ten has no more digits than the power has zeros. -/
theorem length_toDigits_le {n count : Nat} (positive : 0 < count) (below : n < Nat.pow 10 count) :
    (Nat.toDigits 10 n).length ≤ count :=
  (Nat.length_toDigits_le_iff (by decide) positive).mpr below

/-- So many digits stand for a number below the power of ten with as many zeros. -/
theorem digitsValue_lt_of_length_le {digits : List Char} {count : Nat}
    (short : digits.length ≤ count) :
    digitsValue digits < Nat.pow 10 count :=
  Nat.lt_of_lt_of_le (digitsValue_lt digits) (Nat.pow_le_pow_right (by decide) short)

end Text

theorem DigitLimit.admits_iff {n : Int} : admits n ↔ n.natAbs < Nat.pow 10 digits :=
  decide_eq_true_iff

/-- The text of an integer is its sign and the digits of its distance from zero. -/
theorem toList_toString_int (n : Int) :
    (toString n).toList = Path.Spelling.sign (decide (n < 0)) ++ Nat.toDigits 10 n.natAbs := by
  cases n with
  | ofNat m =>
    have natural : ¬Int.ofNat m < 0 := Int.not_lt.mpr (Int.natCast_nonneg m)
    rw [decide_eq_false natural]
    exact String.toList_ofList
  | negSucc m =>
    rw [decide_eq_true (Int.negSucc_lt_zero m)]
    have digits : (String.ofList (Nat.toDigits 10 (m + 1))).toList = Nat.toDigits 10 (m + 1) :=
      String.toList_ofList
    change ("-" ++ String.ofList (Nat.toDigits 10 (m + 1))).toList = _
    rw [String.toList_append, digits]
    rfl

/-- A segment that has a spelling: a key without dots and brackets that is not empty, or a position
with no more digits than can be written. -/
def Segment.Writable : Segment → Prop
  | .key name => name ≠ "" ∧ ∀ c ∈ name.toList, c ≠ '.' ∧ c ≠ '[' ∧ c ≠ ']'
  | .index position => DigitLimit.admits position

namespace Path

theorem Spelling.isIndex_of_read {spelling : Spelling} {position : Int}
    (read : spelling.read = .ok (.index position)) : spelling.isIndex := by
  cases spelling with
  | key name named plain => cases read
  | index negative digits counted decimal => rfl

/-- What is read of a spelling can be written. -/
theorem Spelling.writable {spelling : Spelling} {segment : Segment}
    (read : spelling.read = .ok segment) :
    segment.Writable := by
  cases spelling with
  | key name named plain =>
    cases read
    refine ⟨fun empty => named ?_, by rwa [String.toList_ofList]⟩
    rw [← String.toList_ofList (l := name), empty]
    rfl
  | index negative digits counted decimal =>
    rw [Spelling.read] at read
    split at read
    · cases read
    · rename_i short
      cases read
      have bounded := Text.digitsValue_lt_of_length_le (Nat.le_of_not_lt short)
      refine DigitLimit.admits_iff.mpr ?_
      have size : (if negative then -(Text.digitsValue digits : Int)
          else Text.digitsValue digits).natAbs =
            Text.digitsValue digits := by
        cases negative with
        | false => exact Int.natAbs_natCast _
        | true => exact (Int.natAbs_neg _).trans (Int.natAbs_natCast _)
      rw [size]
      exact bounded

/-- A segment that can be written is spelt out by its text. -/
theorem exists_spelling {segment : Segment} (writable : segment.Writable) :
    ∃ spelling : Spelling, spelling.read = .ok segment ∧
      (piece true segment.value).toList = spelling.text := by
  cases segment with
  | key name =>
    obtain ⟨named, plain⟩ := writable
    refine ⟨.key name.toList (fun empty => named (String.toList_eq_nil_iff.mp empty)) plain, ?_, ?_⟩
    · rw [Spelling.read, String.ofList_toList]
    · exact String.toList_append
  | index position =>
    have decimal : ∀ c ∈ Nat.toDigits 10 position.natAbs, Text.isDigit c := by
      intro c inside
      have digit := Nat.isDigit_of_mem_toDigits (by decide) (by decide) inside
      rw [Text.isDigit, Text.digitValue?_of_isDigit digit]
      rfl
    have short : (Nat.toDigits 10 position.natAbs).length ≤ DigitLimit.digits :=
      Text.length_toDigits_le (by decide) (DigitLimit.admits_iff.mp writable)
    have signed : (if decide (position < 0) then -(position.natAbs : Int) else position.natAbs) =
        position := by
      by_cases negative : position < 0
      · rw [decide_eq_true negative, if_pos rfl, Int.ofNat_natAbs_of_nonpos (Int.le_of_lt negative),
          Int.neg_neg]
      · rw [decide_eq_false negative, if_neg Bool.false_ne_true,
          Int.natAbs_of_nonneg (Int.not_lt.mp negative)]
    refine ⟨.index (decide (position < 0)) _ Nat.toDigits_ne_nil decimal, ?_, ?_⟩
    · rw [Spelling.read, if_neg (Nat.not_lt.mpr short), Text.digitsValue_toDigits, signed]
    · change ("[" ++ toString position ++ "]").toList = _
      rw [String.toList_append, String.toList_append, toList_toString_int]
      simp [Spelling.text]

/-- The text of a path that can be written is spelt. -/
theorem exists_spelt_format (segment : Segment) (rest : List Segment)
    (writable : ∀ other ∈ segment :: rest, other.Writable) :
    ∃ first others, Spelt (format ((segment :: rest).map Segment.value)).toList (first :: others) ∧
      first.read = .ok segment ∧ others.mapM Spelling.read = .ok rest := by
  induction rest generalizing segment with
  | nil =>
    obtain ⟨first, read, text⟩ := exists_spelling (writable segment List.mem_cons_self)
    refine ⟨first, [], ?_, read, rfl⟩
    have whole : (format [segment.value]).toList = first.text := by
      rw [format, List.map_nil, String.join_nil, String.append_empty, text]
    rw [List.map_cons, List.map_nil, whole]
    exact .last first
  | cons next rest ih =>
    obtain ⟨here, later⟩ := List.forall_mem_cons.mp writable
    obtain ⟨first, read, text⟩ := exists_spelling here
    obtain ⟨second, others, spelt, reads, further⟩ := ih next later
    refine ⟨first, second :: others, ?_, read, ?_⟩
    · have whole : (format ((segment :: next :: rest).map Segment.value)).toList = first.text ++
          ((piece false next.value).toList ++
            (String.join ((rest.map Segment.value).map (piece false))).toList) := by
        rw [List.map_cons, List.map_cons, format, List.map_cons, String.join_cons,
          String.toList_append, String.toList_append, text]
      have behind : (format ((next :: rest).map Segment.value)).toList =
          (piece true next.value).toList ++
            (String.join ((rest.map Segment.value).map (piece false))).toList :=
              String.toList_append
      rw [behind] at spelt
      rw [whole]
      cases next with
      | key name =>
        have dot : (piece false (Segment.key name).value).toList =
            '.' :: (piece true (Segment.key name).value).toList := by
          change ("." ++ name).toList = '.' :: ("" ++ name).toList
          rw [String.toList_append, String.toList_append]
          rfl
        rw [dot]
        exact .dotted first spelt
      | index position => exact .joined first (.inr (Spelling.isIndex_of_read reads)) spelt
    · rw [mapM_read_cons, reads, further]
      rfl

/-- A path that can be written is read back from its text. -/
theorem parse_format {path : List Segment} (some : path ≠ [])
    (writable : ∀ segment ∈ path, segment.Writable) :
    parse (format (path.map Segment.value)) = .ok path := by
  obtain ⟨segment, rest, rfl⟩ := List.exists_cons_of_ne_nil some
  obtain ⟨first, others, spelt, read, further⟩ := exists_spelt_format segment rest writable
  rw [parse_of_spelt spelt, mapM_read_cons, read, further]
  rfl

/-- Spellings that are read as segments are as many, and each segment can be written. -/
theorem writable_of_mapM_read {spellings : List Spelling} {segments : List Segment}
    (read : spellings.mapM Spelling.read = .ok segments) :
    segments.length = spellings.length ∧ ∀ segment ∈ segments, segment.Writable := by
  induction spellings generalizing segments with
  | nil =>
    cases read
    exact ⟨rfl, nofun⟩
  | cons first others ih =>
    rw [mapM_read_cons] at read
    cases given : first.read with
    | error error =>
      rw [given] at read
      cases read
    | ok segment =>
      rw [given] at read
      cases further : others.mapM Spelling.read with
      | error error =>
        rw [further] at read
        cases read
      | ok rest =>
        rw [further] at read
        cases read
        obtain ⟨length, writable⟩ := ih further
        exact ⟨congrArg (· + 1) length, List.forall_mem_cons.mpr ⟨first.writable given, writable⟩⟩

/-- A path that was read can be written. -/
theorem writable_of_parse {s : String} {segments : List Segment} (read : parse s = .ok segments) :
    segments ≠ [] ∧ ∀ segment ∈ segments, segment.Writable := by
  obtain ⟨spellings, spelt, reads⟩ := exists_spelt_of_parse read
  obtain ⟨length, writable⟩ := writable_of_mapM_read reads
  obtain ⟨first, others, rest, rfl, -⟩ := spelt.exists_eq_append
  exact ⟨List.ne_nil_of_length_eq_add_one length, writable⟩

/-- A text is read as a path exactly when it is spelt as the grammar has it, each position within
the limit on digits, and then as its segments are; reading comes to an end on every text; and the
text of a path is read as the path, whether the path is given or was read from another text. -/
theorem parse_reads_grammar_and_format :
    (∀ s segments, parse s = .ok segments ↔
      ∃ spellings, Spelt s.toList spellings ∧ spellings.mapM Spelling.read = .ok segments) ∧
    (∀ s spellings, Spelt s.toList spellings → parse s = spellings.mapM Spelling.read) ∧
    (∀ s, s ≠ "" → Ends s s.toList (parse s)) ∧
    (∀ path, path ≠ [] → (∀ segment ∈ path, segment.Writable) →
      parse (format (path.map Segment.value)) = .ok path) ∧
    ∀ s segments, parse s = .ok segments →
      parse (format (segments.map Segment.value)) = .ok segments := by
  refine ⟨?_, fun s spellings => parse_of_spelt, fun s => ends_parse, fun path => parse_format, ?_⟩
  · intro s segments
    constructor
    · exact exists_spelt_of_parse
    · rintro ⟨spellings, spelt, read⟩
      rw [parse_of_spelt spelt, read]
  · intro s segments read
    obtain ⟨some, writable⟩ := writable_of_parse read
    exact parse_format some writable

/-- A place in a list of lists: the last position counts from the end. -/
private def place : List Segment := [.key "items", .index 0, .key "id", .index (-7)]

/-- A spelling with a dot that may be left out, a key right after a position and zeros in front is
read as the place, and the place is written without them. -/
theorem place_parsed_and_formatted :
    parse "items.[0]id[-007]" = .ok place ∧
    (∃ spellings, Spelt "items.[0]id[-007]".toList spellings ∧
      spellings.mapM Spelling.read = .ok place) ∧
    Ends "items.[0]id[-007]" "items.[0]id[-007]".toList (parse "items.[0]id[-007]") ∧
    format (place.map Segment.value) = "items[0].id[-7]" ∧
    parse (format (place.map Segment.value)) = .ok place ∧
    (place.drop 1 ≠ [] ∧ ∀ segment ∈ place.drop 1, segment.Writable) ∧
    parse (format ((place.drop 1).map Segment.value)) = .ok (place.drop 1) := by
  have read : parse "items.[0]id[-007]" = .ok place := by rfl
  have inner : parse "[0].id[-7]" = .ok (place.drop 1) := by rfl
  have writable := writable_of_parse inner
  obtain ⟨accepts, reads, ends, back, again⟩ := parse_reads_grammar_and_format
  obtain ⟨spellings, spelt, -⟩ := (accepts _ _).mp read
  have given := (reads _ _ spelt).symm.trans read
  exact ⟨read, ⟨spellings, spelt, given⟩, ends _ (by decide), by rfl, again _ _ read, writable,
    back _ writable.1 writable.2⟩

end Path

end Conform
