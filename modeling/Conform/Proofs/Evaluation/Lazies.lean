import Conform.Proofs.Evaluation.Frames

/-!
How the lazy schemas of a world grow. Building a schema brings forth no more of them than its recipe
holds, so a resolution that succeeds leaves no more to come than there was before it; and what a
lazy schema was built to, it stands for in every later world.
-/
namespace Conform

/-- The lazy schemas that a cell accounts for: itself, and until it is built those in its recipe. -/
def LazyCell.weight (cell : LazyCell) : Nat :=
  match cell.built with
  | some _ => 1
  | none => cell.body.lazyCount + 1

/-- The lazy schemas that cells account for. -/
def LazyCell.weightOf : List LazyCell → Nat
  | [] => 0
  | cell :: rest => cell.weight + weightOf rest

namespace LazyCell

@[simp] theorem weightOf_nil : weightOf [] = 0 := rfl

@[simp] theorem weightOf_cons (cell : LazyCell) (rest : List LazyCell) :
    weightOf (cell :: rest) = cell.weight + weightOf rest := rfl

@[simp] theorem weightOf_append (first second : List LazyCell) :
    weightOf (first ++ second) = weightOf first + weightOf second := by
  induction first with
  | nil => simp
  | cons cell rest ih => simp [ih, Nat.add_assoc]

theorem weight_pos (cell : LazyCell) : 0 < cell.weight := by
  unfold weight
  cases cell.built <;> simp

theorem length_le_weightOf (cells : List LazyCell) : cells.length ≤ weightOf cells := by
  induction cells with
  | nil => exact Nat.le_refl 0
  | cons cell rest ih =>
    have positive := cell.weight_pos
    simp only [List.length_cons, weightOf_cons]
    omega

/-- The cell once it is built. -/
def keeping (v : Validator) (cell : LazyCell) : LazyCell := { cell with built := some v }

/-- Keeping what was built in an unbuilt cell takes the lazy schemas of its recipe off the
account. -/
theorem weightOf_modify {cells : List LazyCell} {id : Nat} {cell : LazyCell} (v : Validator)
    (found : cells[id]? = some cell) (unbuilt : cell.built = none) :
    weightOf (cells.modify id (keeping v)) + cell.body.lazyCount = weightOf cells := by
  induction cells generalizing id with
  | nil => simp at found
  | cons first rest ih =>
    cases id with
    | zero =>
      have same : first = cell := by simpa using found
      have before : first.weight = cell.body.lazyCount + 1 := by simp [weight, same, unbuilt]
      have after : (keeping v first).weight = 1 := rfl
      rw [List.modify_zero_cons, weightOf_cons, weightOf_cons, before, after]
      omega
    | succ id =>
      have inside : rest[id]? = some cell := by simpa using found
      have kept := ih inside
      rw [List.modify_succ_cons, weightOf_cons, weightOf_cons]
      omega

end LazyCell

namespace World

/-- The number of lazy schemas that there are or can still come. -/
def potential (world : World) : Nat := LazyCell.weightOf world.lazies

/-- The lazy schemas that cells account for are no more than the bound on all there can ever be. -/
theorem potential_le_lazyBound (world : World) : world.potential ≤ world.lazyBound := by
  have folded : ∀ (cells : List LazyCell) (total : Nat), total + LazyCell.weightOf cells ≤
      cells.foldl (fun total cell => total + cell.body.lazyCount + 1) total := by
    intro cells
    induction cells with
    | nil => exact fun total => Nat.le_refl total
    | cons cell rest ih =>
      intro total
      have light : cell.weight ≤ cell.body.lazyCount + 1 := by
        unfold LazyCell.weight
        cases cell.built <;> simp
      refine Nat.le_trans ?_ (ih (total + cell.body.lazyCount + 1))
      rw [LazyCell.weightOf_cons]
      omega
  have bounded := folded world.lazies 0
  rwa [Nat.zero_add] at bounded

/-- The lazy schema has been built, to a validator. -/
def HasBuilt (world : World) (id : Nat) (v : Validator) : Prop :=
  ∃ cell, world.lazies[id]? = some cell ∧ cell.built = some v

end World

namespace Eval

variable {α β : Type}

/-- However it ends, the evaluation adds lazy schemas behind those there are, and they account for
no more than a number. -/
def Adds (bound : Nat) (evaluation : Eval α) : Prop :=
  ∀ world, ∃ further, (evaluation.ending world).2.lazies = world.lazies ++ further ∧
    LazyCell.weightOf further ≤ bound

/-- What two evaluations add to the cells, their sequence adds. -/
theorem Adds.bind {first second : Nat} {evaluation : Eval α} {next : α → Eval β}
    (early : evaluation.Adds first) (late : ∀ value, (next value).Adds second) :
    (evaluation >>= next).Adds (first + second) := by
  intro world
  obtain ⟨further, appended, bounded⟩ := early world
  rw [ending_bind]
  rcases ended : evaluation.ending world with ⟨fault | value, between⟩
  · rw [ended] at appended
    exact ⟨further, appended, Nat.le_add_right_of_le bounded⟩
  · rw [ended] at appended
    obtain ⟨others, behind, within⟩ := late value between
    refine ⟨further ++ others, ?_, ?_⟩
    · rw [behind, appended, List.append_assoc]
    · rw [LazyCell.weightOf_append]
      omega

theorem adds_of_still {evaluation : Eval α}
    (still : ∀ world, (evaluation.ending world).2.lazies = world.lazies) : evaluation.Adds 0 :=
  fun world => ⟨[], by rw [still, List.append_nil], Nat.le_refl 0⟩

theorem adds_ofConstruction (made : Except Misuse α) : (ofConstruction made).Adds 0 :=
  adds_of_still fun _ => by cases made <;> rfl

theorem adds_perform (run : Traced α) : (perform run).Adds 0 :=
  adds_of_still fun world => by rw [ending_perform]; rfl

theorem adds_lookup (name : String) : (lookup name).Adds 0 := by
  have current : (get : Eval World).Adds 0 := adds_of_still fun _ => rfl
  change (lookup name).Adds (0 + 0)
  refine current.bind fun known => ?_
  cases known.names.get? name <;> exact adds_of_still fun _ => rfl

mutual

/-- Building a recipe adds no more lazy schemas than are in it. -/
theorem adds_build : ∀ recipe : Recipe, recipe.build.Adds recipe.lazyCount
  | .calling run => adds_perform run
  | .reference name => adds_lookup name
  | .lazy label body => fun _ => ⟨[⟨label, body, none⟩], rfl, Nat.le_refl _⟩
  | .combine construction parts =>
    (adds_buildAll parts).bind fun schemas => adds_ofConstruction (construction schemas)

theorem adds_buildAll : ∀ parts : List Recipe,
    (Recipe.buildAll parts).Adds (Recipe.lazyCountIn parts)
  | [] => adds_of_still fun _ => rfl
  | part :: rest => (adds_build part).bind fun _ =>
    (adds_buildAll rest).bind fun _ => adds_of_still fun _ => rfl

end

variable {world after : World} {id : Nat} {v : Validator} {fault : Fault} {cell : LazyCell}

/-- Running a factory adds no more lazy schemas than are in it. -/
theorem adds_run (cell : LazyCell) : cell.run.Adds cell.body.lazyCount := by
  have rest : Adds cell.body.lazyCount (do
      let schema ← cell.body.build
      ofConstruction schema.toValidator : Eval Validator) :=
    (adds_build cell.body).bind fun schema => adds_ofConstruction schema.toValidator
  unfold LazyCell.run
  cases cell.label with
  | some label =>
    rw [← Nat.zero_add cell.body.lazyCount]
    exact (adds_perform _).bind fun _ => rest
  | none => exact rest

/-- What a construction of a lazy schema does to the cells: others come behind them, and the schema
is kept in its cell if it succeeds. -/
private theorem buildCell_cases (id : Nat) (cell : LazyCell) (world : World) :
    ∃ further, LazyCell.weightOf further ≤ cell.body.lazyCount ∧
      (∀ v after, (World.buildCell id cell).Returns world v after →
        after.lazies = (world.lazies ++ further).modify id (.keeping v)) ∧
      ∀ fault after, (World.buildCell id cell).Faults world fault after →
        after.lazies = world.lazies ++ further := by
  obtain ⟨further, appended, bounded⟩ := adds_run cell world
  refine ⟨further, bounded, ?_, ?_⟩
  · intro v after returned
    obtain ⟨w, between, made, later⟩ := returns_bind.mp returned
    rw [show cell.run.ending world = _ from made] at appended
    obtain ⟨_, last, remembered, done⟩ := returns_bind.mp later
    obtain ⟨rfl, rfl⟩ := returns_pure.mp done
    cases remembered
    exact congrArg (·.modify id (.keeping w)) appended
  · intro fault after faulted
    rcases faults_bind.mp faulted with early | ⟨w, between, _, late⟩
    · rwa [show cell.run.ending world = _ from early] at appended
    · rcases faults_bind.mp late with early | ⟨_, _, _, done⟩
      · cases early
      · exact absurd done faults_pure

/-- A resolution that succeeds finds what was built, or builds it and keeps it. -/
theorem returns_resolve_cases (resolved : (resolve id).Returns world v after) :
    ∃ cell, world.lazies[id]? = some cell ∧
      ((cell.built = some v ∧ after = world) ∨
        ∃ further, cell.built = none ∧ LazyCell.weightOf further ≤ cell.body.lazyCount ∧
          after.lazies = (world.lazies ++ further).modify id (.keeping v)) := by
  have ending := World.ending_resolve world id
  rw [show (resolve id).ending world = _ from resolved] at ending
  cases found : world.lazies[id]? with
  | none =>
    simp only [found] at ending
    cases ending
  | some cell =>
    cases built : cell.built with
    | some w =>
      simp only [found, built] at ending
      cases ending
      exact ⟨cell, rfl, .inl ⟨built, rfl⟩⟩
    | none =>
      simp only [found, built] at ending
      obtain ⟨further, bounded, kept, -⟩ := buildCell_cases id cell world
      exact ⟨cell, rfl, .inr ⟨further, built, bounded, kept v after ending.symm⟩⟩

/-- A resolution that fails keeps what was built before it. -/
theorem faults_resolve_cases (faulted : (resolve id).Faults world fault after) :
    ∃ further, after.lazies = world.lazies ++ further := by
  have ending := World.ending_resolve world id
  rw [show (resolve id).ending world = _ from faulted] at ending
  cases found : world.lazies[id]? with
  | none =>
    simp only [found] at ending
    cases ending
    exact ⟨[], (List.append_nil _).symm⟩
  | some cell =>
    cases built : cell.built with
    | some w =>
      simp only [found, built] at ending
      cases ending
    | none =>
      simp only [found, built] at ending
      obtain ⟨further, -, -, left⟩ := buildCell_cases id cell world
      exact ⟨further, left fault after ending.symm⟩

/-- A lazy schema that is resolved is one of those that there can ever be. -/
theorem lt_potential_of_resolve (resolved : (resolve id).Returns world v after) :
    id < world.potential := by
  obtain ⟨cell, found, -⟩ := returns_resolve_cases resolved
  have inside : id < world.lazies.length := (List.getElem?_eq_some_iff.mp found).1
  exact Nat.lt_of_lt_of_le inside (LazyCell.length_le_weightOf _)

/-- A resolution that succeeds leaves no more lazy schemas to come than there were before it. -/
theorem potential_resolve_le (resolved : (resolve id).Returns world v after) :
    after.potential ≤ world.potential := by
  obtain ⟨cell, found, ⟨-, rfl⟩ | ⟨further, unbuilt, bounded, kept⟩⟩ :=
    returns_resolve_cases resolved
  · exact Nat.le_refl _
  · have inside : id < world.lazies.length := (List.getElem?_eq_some_iff.mp found).1
    have still : (world.lazies ++ further)[id]? = some cell := by
      rw [List.getElem?_append_left inside, found]
    have weighed := LazyCell.weightOf_modify v still unbuilt
    rw [LazyCell.weightOf_append] at weighed
    unfold World.potential
    rw [kept]
    omega

/-- What a lazy schema is resolved to has been built for it. -/
theorem hasBuilt_of_resolve (resolved : (resolve id).Returns world v after) :
    after.HasBuilt id v := by
  obtain ⟨cell, found, ⟨built, rfl⟩ | ⟨further, -, -, kept⟩⟩ := returns_resolve_cases resolved
  · exact ⟨cell, found, built⟩
  · have inside : id < world.lazies.length := (List.getElem?_eq_some_iff.mp found).1
    refine ⟨.keeping v cell, ?_, rfl⟩
    rw [kept, List.getElem?_modify_eq, List.getElem?_append_left inside, found]
    rfl

theorem resolve_of_hasBuilt (built : world.HasBuilt id v) : (resolve id).Returns world v world := by
  obtain ⟨cell, found, built⟩ := built
  rw [Returns, World.ending_resolve]
  simp only [found, built]

/-- Resolving another lazy schema, successfully or not, changes nothing of one that was built. -/
theorem hasBuilt_resolve (other : Nat) (built : world.HasBuilt id v) :
    ((resolve other).ending world).2.HasBuilt id v := by
  obtain ⟨cell, found, built⟩ := built
  have inside : id < world.lazies.length := (List.getElem?_eq_some_iff.mp found).1
  have still : ∀ further, (world.lazies ++ further)[id]? = some cell := fun further => by
    rw [List.getElem?_append_left inside, found]
  rcases ends (resolve other) world with ⟨w, after, resolved⟩ | ⟨fault, after, faulted⟩
  · rw [show (resolve other).ending world = _ from resolved]
    obtain ⟨before, had, ⟨-, rfl⟩ | ⟨further, unbuilt, -, kept⟩⟩ := returns_resolve_cases resolved
    · exact ⟨cell, found, built⟩
    · have apart : other ≠ id := by
        rintro rfl
        rw [had] at found
        cases found
        rw [unbuilt] at built
        cases built
      refine ⟨cell, ?_, built⟩
      rw [kept, List.getElem?_modify_ne _ _ apart, still further]
  · rw [show (resolve other).ending world = _ from faulted]
    obtain ⟨further, kept⟩ := faults_resolve_cases faulted
    exact ⟨cell, by rw [kept, still further], built⟩

end Eval

/-- What a lazy schema was built to, it stands for in every later world. -/
theorem World.HasBuilt.later {world after : World} {id : Nat} {v : Validator}
    (built : world.HasBuilt id v) (later : world.Later after) : after.HasBuilt id v := by
  induction later with
  | refl => exact built
  | traced trace _ ih => exact ih
  | resolved other _ ih => exact Eval.hasBuilt_resolve other ih

end Conform
