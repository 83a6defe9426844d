import Conform.JsonSchema.Projection
import Conform.Proofs.Evaluation.Decides
import Conform.Proofs.JsonSchema.Admission

/-!
Sequences of a schema and tests of its output against whole bounds: lengths of text, numbers, and
lengths of arrays. A test accepts what the keyword that describes it admits.
-/
namespace Conform

/-- The answer to an order question about two integers. -/
def Comparison.relates : Comparison → Int → Int → Bool
  | .less, n, m => n < m
  | .atMost, n, m => n ≤ m
  | .greater, n, m => m < n
  | .atLeast, n, m => m ≤ n

theorem Magnitude.compare_ofInt (n m : Int) :
    (ofInt n).compare (ofInt m) = if n < m then .lt else if m < n then .gt else .eq := by
  have scale : ∀ a b : Int, (ofInt a).lt (ofInt b) = decide (a < b) := by
    intro a b
    exact decide_eq_decide.mpr (Int.mul_lt_mul_right scale_pos)
  simp only [compare, scale, decide_eq_true_eq]

theorem Value.compare?_int (comparison : Comparison) (n m : Int) :
    compare? comparison (.int n) (.int m) = some (comparison.relates n m) := by
  refine congrArg some ?_
  simp only [compareNumbers, magnitude?, Magnitude.compare_ofInt]
  rcases Int.lt_trichotomy n m with smaller | rfl | larger
  · have bounded := Int.le_of_lt smaller
    rw [if_pos smaller]
    cases comparison <;> simp [Comparison.holds, Comparison.relates, smaller, bounded]
  · rw [if_neg (Int.lt_irrefl n), if_neg (Int.lt_irrefl n)]
    cases comparison <;> simp [Comparison.holds, Comparison.relates]
  · have bounded := Int.le_of_lt larger
    rw [if_neg (Int.not_lt.mpr bounded), if_pos larger]
    cases comparison <;> simp [Comparison.holds, Comparison.relates, larger, bounded]

/-- What a bound is compared with: the length of text, a number, or the length of an array. -/
inductive Measure where
  | text | number | array

def Measure.of : Measure → Value → Option Int
  | .text, x => x.textSize?
  | .number, x => x.number?
  | .array, x => x.arraySize?

/-- The tests against a bound. -/
inductive Limit where
  | minLength | maxLength | minItems | maxItems | atLeast | atMost | greater | less
  deriving DecidableEq

namespace Limit

def measure : Limit → Measure
  | .minLength | .maxLength => .text
  | .minItems | .maxItems => .array
  | .atLeast | .atMost | .greater | .less => .number

def comparison : Limit → Comparison
  | .minLength | .minItems | .atLeast => .atLeast
  | .maxLength | .maxItems | .atMost => .atMost
  | .greater => .greater
  | .less => .less

def keyword : Limit → Keyword
  | .minLength => .minLength
  | .maxLength => .maxLength
  | .minItems => .minItems
  | .maxItems => .maxItems
  | .atLeast => .minimum
  | .atMost => .maximum
  | .greater => .exclusiveMinimum
  | .less => .exclusiveMaximum

def test (limit : Limit) (bound : Value) : Validator :=
  match limit with
  | .minLength => .minLength bound
  | .maxLength => .maxLength bound
  | .minItems => .minItems bound
  | .maxItems => .maxItems bound
  | .atLeast => .atLeast bound
  | .atMost => .atMost bound
  | .greater => .greater bound
  | .less => .less bound

/-- Whether a value keeps to a bound; one that has no size does. -/
def holds (limit : Limit) (bound : Int) (x : Value) : Bool :=
  (limit.measure.of x).all fun n => limit.comparison.relates n bound

variable {limit : Limit} {bound : Int} {onLazy : Nat → SafeForm} {x y : Value}

/-- The test of a value with a size decides by the bound. -/
theorem decides_test (sized : (limit.measure.of y).isSome) :
    ((limit.test (.int bound)).rule.safe onLazy y).Decides (limit.holds bound y) := by
  obtain ⟨n, sized⟩ := Option.isSome_iff_exists.mp sized
  have related := Value.compare?_int limit.comparison n bound
  unfold holds
  rw [sized, Option.all_some]
  cases limit with
  | minLength | maxLength =>
    cases y <;> cases sized
    refine Rule.decides_check (congrArg pure ?_)
    simp only [SafeForm.lengthRelates, Value.length?]
    exact congrArg (·.getD false) related
  | minItems | maxItems =>
    cases y <;> cases sized
    refine Rule.decides_check (congrArg pure ?_)
    simp only [SafeForm.lengthRelates, Value.length?]
    exact congrArg (·.getD false) related
  | atLeast | atMost | greater | less =>
    cases y <;> cases sized
    exact Rule.decides_check (congrArg pure (congrArg (·.getD false) related))

/-- A test leaves its input as it is. -/
theorem returns_test {world after : World} {z : Value}
    (returned : ((limit.test (.int bound)).rule.safe onLazy y).Returns world z after) : z = y := by
  have checked : ∃ check message, (limit.test (.int bound)).rule = .check check message := by
    cases limit <;> exact ⟨_, _, rfl⟩
  obtain ⟨check, message, checked⟩ := checked
  rw [checked] at returned
  simp only [Rule.safe, SafeForm.check, Checked.returns_bind, SafeForm.returns_provided] at returned
  obtain ⟨passed, between, -, -, rfl, -⟩ := returned
  rfl

/-- The keyword of a test admits the values that keep to the bound. -/
theorem admits_keyword {draft : String} {siblings : List (Value × Meaning)} :
    limit.keyword.admits draft siblings (.plain (.int bound)) x = limit.holds bound x := by
  have compared : ∀ (size : Option Int) (relates : Int → Int → Bool),
      (Meaning.plain (.int bound)).bounds relates size = size.all fun n => relates n bound := by
    intro size relates
    cases size <;> rfl
  cases limit <;> exact compared _ _

private theorem beside_ne_name (keyword : Keyword) (limit : Limit) :
    keyword.beside ≠ some limit.keyword.name := by
  cases keyword with
  | additionalProperties | items | additionalItems => cases limit <;> decide
  | _ => exact nofun

theorem looksAt_keyword (keywords : Keywords) : keywords.looksAt limit.keyword.name = false := by
  refine List.any_eq_false.mpr fun entry _ seen => ?_
  obtain ⟨keyword, -, beside⟩ := Option.bind_eq_some_iff.mp (beq_iff_eq.mp seen)
  exact beside_ne_name keyword limit beside

theorem conditional_keyword (limit : Limit) : limit.keyword.conditional := by
  cases limit <;> rfl

theorem name_keyword_injective {other : Limit} (same : limit.keyword.name = other.keyword.name) :
    limit = other := by
  revert same
  cases limit <;> cases other <;> decide

end Limit

/-- Tests with their bounds, in the order in which they are made. -/
abbrev Limits := List (Limit × Int)

namespace Limits

variable {limits : Limits} {onLazy : Nat → SafeForm} {x y : Value} {keywords : Keywords}

def tests (limits : Limits) : List Validator :=
  limits.map fun limit => limit.1.test (.int limit.2)

def hold (limits : Limits) (x : Value) : Bool := limits.all fun limit => limit.1.holds limit.2 x

def describe (limits : Limits) (keywords : Keywords) : Keywords :=
  limits.foldl (fun keywords limit =>
    keywords.putValue limit.1.keyword.name (.int limit.2)) keywords

/-- Bounds decide a value whose size they speak of. -/
theorem decides_tests (sized : ∀ limit ∈ limits, (limit.1.measure.of y).isSome) :
    (SafeForm.pipe (Rule.safeAll onLazy (Validator.rules limits.tests)) y).Decides
      (limits.hold y) := by
  induction limits with
  | nil => exact Checked.decides_pure y
  | cons limit rest ih =>
    have first : ((limit.1.test (.int limit.2)).rule.safe onLazy y).Decides
        (limit.1.holds limit.2 y) := Limit.decides_test (sized limit List.mem_cons_self)
    refine first.bind fun _ world z returned => ?_
    rw [Limit.returns_test returned]
    exact ih fun other member => sized other (List.mem_cons_of_mem _ member)

/-- The checks of bounds add the keywords of the bounds. -/
theorem withChecks_tests :
    Projection.withChecks keywords (limits.tests.map .validator) = limits.describe keywords := by
  induction limits generalizing keywords with
  | nil => rfl
  | cons limit rest ih =>
    have described : ∀ others, Projection.withChecks keywords
        (.validator (limit.1.test (.int limit.2)) :: others) =
          Projection.withChecks (keywords.putValue limit.1.keyword.name (.int limit.2)) others := by
      intro others
      cases limit with
      | mk limit bound => cases limit <;> rfl
    exact (described _).trans ih

theorem typed_describe (typed : keywords.Typed) : (limits.describe keywords).Typed := by
  induction limits generalizing keywords with
  | nil => exact typed
  | cons limit rest ih =>
    exact ih (Keywords.typed_put limit.1.keyword limit.1.conditional_keyword typed _)

/-- Keywords with those of several tests admit what keeps to the bounds besides. -/
theorem admits_describe {draft : String} (once : (limits.map (·.1)).Nodup)
    (fresh : ∀ limit ∈ limits, Entries.get? keywords (.str limit.1.keyword.name) = none) :
    (limits.describe keywords).admits draft x = (keywords.admits draft x && limits.hold x) := by
  induction limits generalizing keywords with
  | nil => exact (Bool.and_true _).symm
  | cons limit rest ih =>
    obtain ⟨apart, once⟩ := List.nodup_cons.mp once
    have still : ∀ other ∈ rest, Entries.get?
        (keywords.putValue limit.1.keyword.name (.int limit.2))
          (.str other.1.keyword.name) = none := by
      intro other member
      rw [Keywords.putValue, Keywords.put, Entries.get?_insert_of_ne]
      · exact fresh other (List.mem_cons_of_mem _ member)
      · intro same
        exact apart (List.mem_map.mpr ⟨other, member, (Limit.name_keyword_injective same).symm⟩)
    have first : (keywords.putValue limit.1.keyword.name (.int limit.2)).admits draft x =
        (keywords.admits draft x && limit.1.holds limit.2 x) :=
      (Keywords.admits_put limit.1.keyword (Limit.looksAt_keyword keywords)
        (fresh limit List.mem_cons_self) _).trans (congrArg _ Limit.admits_keyword)
    have later := ih once still
    rw [first, Bool.and_assoc] at later
    exact later

end Limits

end Conform
