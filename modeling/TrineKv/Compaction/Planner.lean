import TrineKv.Lib.ByteCodec
import TrineKv.Lib.Closure
import TrineKv.Lsm.Version

/-!
# Planning a compaction

A compaction merges tables of one level, and those of the next level that they overlap. The planner
sees the level, the size and the recorded span of a table; the pair of empty keys overlaps
everything, but does not widen the span of the inputs. Tables of level 0 come first, from the
requested range or from one seed if that saves enough work, closed under overlap. Otherwise a level
that is too large, has range deletions above other data, or has many tables is chosen. The targets
of levels do not saturate here.

## Main results

* `mem_closeOverlappingL0Inputs_of_overlaps`, `mem_includeOverlappingLevel_of_overlaps`,
  `plannedFrom_of_planCompaction`.
-/

namespace TrineKv

open List ByteCodec

/-! ## What the planner sees -/

/-- Why a compaction runs. -/
inductive CompactionTrigger where
  | l0Overlap
  | levelSize
  | tombstoneDebt
  | multiTableLevel
  deriving DecidableEq, Repr

/-- Why no compaction runs. -/
inductive CompactionSkip where
  | lowerLevelLazy
  deriving DecidableEq, Repr

/-- Settings of the planner. -/
structure CompactionOptions where
  targetTableBytes : ℕ
  levelSizeMultiplier : ℕ
  localL0Compaction : Bool
  deriving DecidableEq, Repr

/-- What the planner sees of a table. -/
structure CompactionTable where
  id : ℕ
  level : ℕ
  bytes : ℕ
  hasRangeTombstones : Bool
  smallestUserKey : Key
  largestUserKey : Key
  deriving DecidableEq, Repr

structure KeySpan where
  smallest : Key
  largest : Key
  deriving DecidableEq, Repr

structure CompactionPlan where
  bucket : String
  inputTables : List ℕ
  outputLevel : ℕ
  oldestActiveSnapshot : ℕ
  keyRange : KeyRange
  trigger : CompactionTrigger
  deriving DecidableEq, Repr

/-- The outcome of planning. -/
structure CompactionDecision where
  plan : Option CompactionPlan
  skip : Option CompactionSkip
  deriving DecidableEq, Repr

def isAllRange (range : KeyRange) : Bool :=
  match range.start, range.end_ with
  | .unbounded, .unbounded => true
  | _, _ => false

namespace CompactionTable

/-- The recorded span is not the pair of empty keys. -/
def hasKeyBounds (table : CompactionTable) : Bool :=
  !(table.smallestUserKey.isEmpty && table.largestUserKey.isEmpty)

def overlapsKeySpan (table : CompactionTable) (span : KeySpan) : Bool :=
  if !table.hasKeyBounds then true
  else decide (table.smallestUserKey ≤ span.largest) &&
    decide (span.smallest ≤ table.largestUserKey)

def overlapsRange (table : CompactionTable) (range : KeyRange) : Bool :=
  if isAllRange range || !table.hasKeyBounds then true
  else !keyIsAfterEnd table.smallestUserKey range.end_ &&
    !keyIsBeforeStart table.largestUserKey range.start

def isInLevel (table : CompactionTable) (level : ℕ) (range : KeyRange) : Bool :=
  decide (table.level = level) && table.overlapsRange range

end CompactionTable

/-- The greatest element of a list, the last one of several. -/
def maxBy {α : Type*} (compare : α → α → Ordering) : List α → Option α
  | [] => none
  | first :: rest => some (rest.foldl (fun best a => if compare best a = .gt then best else a) first)

/-! ## Spans -/

section Spans

variable (tables : List CompactionTable)

def extendSpan (span : Option KeySpan) (table : CompactionTable) : Option KeySpan :=
  match span with
  | some current =>
    some ⟨min current.smallest table.smallestUserKey, max current.largest table.largestUserKey⟩
  | none => some ⟨table.smallestUserKey, table.largestUserKey⟩

def keySpanForInputs (inputTables : List ℕ) : Option KeySpan :=
  (tables.filter fun table => decide (table.id ∈ inputTables) && table.hasKeyBounds).foldl
    extendSpan none

def keyRangeForInputs (inputTables : List ℕ) : KeyRange :=
  match keySpanForInputs tables inputTables with
  | some span => ⟨.included span.smallest, .included span.largest⟩
  | none => .all

def levelBytes (level : ℕ) : ℕ :=
  ((tables.filter fun table => decide (table.level = level)).map CompactionTable.bytes).sum

def overlappingLevelBytes (candidate : CompactionTable) (level : ℕ) : ℕ :=
  match keySpanForInputs tables [candidate.id] with
  | some span =>
    ((tables.filter fun table => decide (table.level = level) &&
      table.overlapsKeySpan span).map CompactionTable.bytes).sum
  | none => levelBytes tables level

/-! ## Level 0 -/

def overlappingL0 (inputs : List ℕ) : List ℕ :=
  match keySpanForInputs tables inputs with
  | some span =>
    (tables.filter fun table => decide (table.level = 0) &&
      table.overlapsKeySpan span).map CompactionTable.id
  | none => []

def closeOverlappingL0Inputs (inputs : List ℕ) : List ℕ :=
  Closure.saturate (overlappingL0 tables) (tables.length + 1) inputs

def broadL0Inputs (range : KeyRange) : List ℕ :=
  (tables.filter fun table => table.isInLevel 0 range).map CompactionTable.id

/-- Seeds that rewrite less of the next level are greater, then larger ones, then older ones. -/
def compareL0SeedCandidates (left right : CompactionTable) : Ordering :=
  (compare (overlappingLevelBytes tables right 1) (overlappingLevelBytes tables left 1)).then <|
    (compare left.bytes right.bytes).then (compare right.id left.id)

def pickL0SeedTable (range : KeyRange) : Option CompactionTable :=
  maxBy (compareL0SeedCandidates tables) (tables.filter fun table => table.isInLevel 0 range)

def localL0Inputs (range : KeyRange) : List ℕ :=
  closeOverlappingL0Inputs tables ((pickL0SeedTable tables range).elim [] fun seed => [seed.id])

def compactionInputBytes (inputTables : List ℕ) : ℕ :=
  ((tables.filter fun table => decide (table.id ∈ inputTables)).map CompactionTable.bytes).sum

/-- The selection around one seed is worth taking. -/
def localL0InputsSaveRewrite (localInputs broadInputs : List ℕ) : Bool :=
  if localInputs.isEmpty || decide (broadInputs.length ≤ localInputs.length) then false
  else if compactionInputBytes tables broadInputs = 0 then
    decide (localInputs.length * 2 < broadInputs.length)
  else
    decide (compactionInputBytes tables localInputs * 2 < compactionInputBytes tables broadInputs)

/-- The selection of level 0, before it is closed. -/
def l0Seeds (range : KeyRange) (options : CompactionOptions) : List ℕ :=
  if options.localL0Compaction &&
      localL0InputsSaveRewrite tables (localL0Inputs tables range) (broadL0Inputs tables range) then
    localL0Inputs tables range
  else broadL0Inputs tables range

def l0InputsWithOverlap (range : KeyRange) (options : CompactionOptions) : List ℕ :=
  closeOverlappingL0Inputs tables (l0Seeds tables range options)

/-! ## The next level -/

def overlappingLevel (level : ℕ) (inputs : List ℕ) : List ℕ :=
  (tables.filter fun table => decide (table.level = level) &&
    match keySpanForInputs tables inputs with
    | some span => table.overlapsKeySpan span
    | none => table.overlapsRange .all).map CompactionTable.id

def includeOverlappingLevel (level : ℕ) (inputs : List ℕ) : List ℕ :=
  Closure.saturate (overlappingLevel tables level) (tables.length + 1) inputs

def l0CompactionInputs (range : KeyRange) (options : CompactionOptions) : Option (List ℕ) :=
  let inputs := l0InputsWithOverlap tables range options
  if inputs.isEmpty then none else some (includeOverlappingLevel tables 1 inputs)

/-! ## Other levels -/

def levelSet (range : KeyRange) : List ℕ :=
  (((tables.filter fun table => decide (table.level ≠ 0) && table.overlapsRange range).map
    CompactionTable.level).dedup).insertionSort (· ≤ ·)

def overlappingTableCount (range : KeyRange) (level : ℕ) : ℕ :=
  (tables.filter fun table => table.isInLevel level range).length

def deepestNonzeroLevel : Option ℕ :=
  ((tables.filter fun table => decide (table.level ≠ 0)).map CompactionTable.level).max?

def levelTargetBytes (level : ℕ) (options : CompactionOptions) : ℕ :=
  max options.targetTableBytes 1 * max options.levelSizeMultiplier 2 ^ (level - 1)

def compareLevelScores (options : CompactionOptions) (left right : ℕ) : Ordering :=
  compare (levelBytes tables left * levelTargetBytes right options)
    (levelBytes tables right * levelTargetBytes left options)

def highestScoredLevel (range : KeyRange) (options : CompactionOptions) : Option ℕ :=
  maxBy (compareLevelScores tables options) ((levelSet tables range).filter fun level =>
    decide (levelTargetBytes level options < levelBytes tables level))

/-- Tables compare by size, then older ones are greater. -/
def compareInputCandidates (left right : CompactionTable) : Ordering :=
  (compare left.bytes right.bytes).then (compare right.id left.id)

def pickLeveledInputTable (range : KeyRange) (level : ℕ) : Option CompactionTable :=
  maxBy compareInputCandidates (tables.filter fun table => table.isInLevel level range)

def withOverlap (table : Option CompactionTable) (outputLevel : ℕ) : List ℕ :=
  match table with
  | some table => includeOverlappingLevel tables outputLevel [table.id]
  | none => []

def narrowLeveledInputs (range : KeyRange) (inputLevel outputLevel : ℕ) : List ℕ :=
  withOverlap tables (pickLeveledInputTable tables range inputLevel) outputLevel

def hasTombstoneDebt (range : KeyRange) (level : ℕ) (table : CompactionTable) : Bool :=
  decide (table.level = level) && table.hasRangeTombstones && table.overlapsRange range

/-- The inputs of a compaction that pushes range deletions down. -/
def narrowTombstoneInputs (range : KeyRange) (inputLevel outputLevel : ℕ) : List ℕ :=
  withOverlap tables (tables.find? (hasTombstoneDebt range inputLevel)) outputLevel

/-- The number of tables at which a level without pressure is compacted. -/
def multiTableFallbackThreshold (level : ℕ) : ℕ := 1 + level

def shallowestMultiTableLevel (range : KeyRange) : Option ℕ :=
  (levelSet tables range).find? fun level =>
    decide (multiTableFallbackThreshold level ≤ overlappingTableCount tables range level)

/-- A level is left alone although it has several tables. -/
def lowerLevelLazySkip (range : KeyRange) : Option CompactionSkip :=
  if (levelSet tables range).any fun level =>
      decide (2 ≤ overlappingTableCount tables range level) &&
        decide (overlappingTableCount tables range level < multiTableFallbackThreshold level) then
    some .lowerLevelLazy
  else none

/-! ## The plan -/

/-- The greatest level number. -/
def maxTableLevel : ℕ := 2 ^ 32 - 1

def nextLevel (level : ℕ) : Except Error ℕ :=
  if level < maxTableLevel then .ok (level + 1)
  else .error (.corruption "table level counter overflow")

variable (bucket : String) (range : KeyRange) (oldestActiveSnapshot : ℕ)

def planFor (inputTables : List ℕ) (outputLevel : ℕ) (trigger : CompactionTrigger) :
    CompactionPlan where
  bucket := bucket
  inputTables := inputTables
  outputLevel := outputLevel
  oldestActiveSnapshot := oldestActiveSnapshot
  keyRange := keyRangeForInputs tables inputTables
  trigger := trigger

/-- A plan that pushes range deletions to the data below them. -/
def tombstoneDebtPlan : Except Error (Option CompactionPlan) :=
  match (levelSet tables range).find? fun level =>
      decide (some level ≠ deepestNonzeroLevel tables) &&
        tables.any (hasTombstoneDebt range level) with
  | none => .ok none
  | some level => do
    let outputLevel ← nextLevel level
    let inputTables := narrowTombstoneInputs tables range level outputLevel
    if inputTables.length < 2 then return none
    return some (planFor tables bucket oldestActiveSnapshot inputTables outputLevel .tombstoneDebt)

def levelSizePlan (options : CompactionOptions) : Except Error (Option CompactionPlan) :=
  match highestScoredLevel tables range options with
  | none => .ok none
  | some level => do
    let outputLevel ← nextLevel level
    let inputTables := narrowLeveledInputs tables range level outputLevel
    if inputTables.isEmpty then return none
    return some (planFor tables bucket oldestActiveSnapshot inputTables outputLevel .levelSize)

def multiTablePlan : Except Error (Option CompactionPlan) :=
  match shallowestMultiTableLevel tables range with
  | none => .ok none
  | some level => do
    let outputLevel ← nextLevel level
    let inputTables := narrowLeveledInputs tables range level outputLevel
    if inputTables.isEmpty then return none
    return some (planFor tables bucket oldestActiveSnapshot inputTables outputLevel .multiTableLevel)

/-- Choose the next compaction. -/
def planCompaction (options : CompactionOptions) : Except Error CompactionDecision :=
  match l0CompactionInputs tables range options with
  | some inputTables =>
    .ok ⟨some (planFor tables bucket oldestActiveSnapshot inputTables 1 .l0Overlap), none⟩
  | none => do
    if let some plan ← levelSizePlan tables bucket range oldestActiveSnapshot options then
      return ⟨some plan, none⟩
    if let some plan ← tombstoneDebtPlan tables bucket range oldestActiveSnapshot then
      return ⟨some plan, none⟩
    if let some plan ← multiTablePlan tables bucket range oldestActiveSnapshot then
      return ⟨some plan, none⟩
    return ⟨none, lowerLevelLazySkip tables range⟩

end Spans

/-! ## Closed selections -/

section Closed

variable {tables : List CompactionTable} {inputs : List ℕ} {level : ℕ} {range : KeyRange}

lemma mem_overlappingL0 {id : ℕ} :
    id ∈ overlappingL0 tables inputs ↔ ∃ span, keySpanForInputs tables inputs = some span ∧
      ∃ table ∈ tables, table.level = 0 ∧ table.overlapsKeySpan span = true ∧ table.id = id := by
  unfold overlappingL0
  cases keySpanForInputs tables inputs with
  | none => simp
  | some span => simp [and_assoc]

lemma overlappingL0_subset (inputs : List ℕ) :
    overlappingL0 tables inputs ⊆ tables.map CompactionTable.id := by
  intro id hid
  obtain ⟨span, -, table, htable, -, -, rfl⟩ := mem_overlappingL0.mp hid
  exact mem_map_of_mem htable

lemma mem_overlappingLevel {id : ℕ} :
    id ∈ overlappingLevel tables level inputs ↔ ∃ table ∈ tables, table.level = level ∧
      (∀ span, keySpanForInputs tables inputs = some span →
        table.overlapsKeySpan span = true) ∧ table.id = id := by
  unfold overlappingLevel
  cases keySpanForInputs tables inputs with
  | none => simp [CompactionTable.overlapsRange, isAllRange, KeyRange.all, and_assoc]
  | some span => simp [and_assoc]

lemma overlappingLevel_subset (level : ℕ) (inputs : List ℕ) :
    overlappingLevel tables level inputs ⊆ tables.map CompactionTable.id := by
  intro id hid
  obtain ⟨table, htable, -, -, rfl⟩ := mem_overlappingLevel.mp hid
  exact mem_map_of_mem htable

lemma mem_closeOverlappingL0Inputs_of_overlaps {span : KeySpan} {table : CompactionTable}
    (hspan : keySpanForInputs tables (closeOverlappingL0Inputs tables inputs) = some span)
    (htable : table ∈ tables) (hlevel : table.level = 0)
    (hoverlaps : table.overlapsKeySpan span = true) :
    table.id ∈ closeOverlappingL0Inputs tables inputs :=
  Closure.candidates_subset_saturate overlappingL0_subset (by simp)
    (mem_overlappingL0.mpr ⟨span, hspan, table, htable, hlevel, hoverlaps, rfl⟩)

lemma mem_includeOverlappingLevel_of_overlaps {table : CompactionTable}
    (htable : table ∈ tables) (hlevel : table.level = level)
    (hoverlaps : ∀ span, keySpanForInputs tables (includeOverlappingLevel tables level inputs) =
      some span → table.overlapsKeySpan span = true) :
    table.id ∈ includeOverlappingLevel tables level inputs :=
  Closure.candidates_subset_saturate (overlappingLevel_subset level) (by simp)
    (mem_overlappingLevel.mpr ⟨table, htable, hlevel, hoverlaps, rfl⟩)

/-! ## What a plan is -/

/-- The closed tables of level 0 that touch the range, or one of a level below if none does; and
what they overlap in the next level. -/
def PlannedFrom (tables : List CompactionTable) (range : KeyRange) (plan : CompactionPlan) : Prop :=
  plan.keyRange = keyRangeForInputs tables plan.inputTables ∧
  ((plan.outputLevel = 1 ∧ ∃ seeds, closeOverlappingL0Inputs tables seeds ≠ [] ∧
      (∀ id ∈ closeOverlappingL0Inputs tables seeds,
        ∃ table ∈ tables, table.level = 0 ∧ table.id = id) ∧
      plan.inputTables =
        includeOverlappingLevel tables 1 (closeOverlappingL0Inputs tables seeds)) ∨
    ∃ seed ∈ tables, seed.level ≠ 0 ∧ plan.outputLevel = seed.level + 1 ∧
      (∀ table ∈ tables, table.level = 0 → table.overlapsRange range = false) ∧
      plan.inputTables = includeOverlappingLevel tables plan.outputLevel [seed.id])

lemma PlannedFrom.exists_includeOverlappingLevel {tables : List CompactionTable} {range : KeyRange}
    {plan : CompactionPlan} (h : PlannedFrom tables range plan) :
    ∃ inputs, plan.inputTables = includeOverlappingLevel tables plan.outputLevel inputs := by
  rcases h.2 with ⟨hone, seeds, -, -, heq⟩ | ⟨seed, -, -, -, -, heq⟩
  · exact ⟨_, by rw [hone]; exact heq⟩
  · exact ⟨_, heq⟩

lemma mem_of_maxBy {α : Type*} {compare : α → α → Ordering} {l : List α} {a : α}
    (h : maxBy compare l = some a) : a ∈ l := by
  cases l with
  | nil => cases h
  | cons first rest =>
    rw [maxBy, Option.some.injEq] at h
    rw [← h]
    clear h
    induction rest generalizing first with
    | nil => exact mem_cons_self
    | cons next rest ih =>
      rw [foldl_cons]
      rcases mem_cons.mp (ih (if compare first next = .gt then first else next)) with heq | hmem
      · rw [heq]
        split_ifs <;> simp
      · exact mem_cons_of_mem _ (mem_cons_of_mem _ hmem)

lemma level_of_mem_closeOverlappingL0Inputs
    (h : ∀ id ∈ inputs, ∃ table ∈ tables, table.level = 0 ∧ table.id = id) :
    ∀ id ∈ closeOverlappingL0Inputs tables inputs,
      ∃ table ∈ tables, table.level = 0 ∧ table.id = id := by
  refine Closure.forall_mem_saturate h fun l id hid => ?_
  obtain ⟨span, -, table, htable, hlevel, -, hid⟩ := mem_overlappingL0.mp hid
  exact ⟨table, htable, hlevel, hid⟩

lemma level_of_mem_broadL0Inputs :
    ∀ id ∈ broadL0Inputs tables range, ∃ table ∈ tables, table.level = 0 ∧ table.id = id := by
  intro id hid
  obtain ⟨table, htable, rfl⟩ := mem_map.mp hid
  rw [mem_filter, CompactionTable.isInLevel, Bool.and_eq_true, decide_eq_true_eq] at htable
  exact ⟨table, htable.1, htable.2.1, rfl⟩

lemma level_of_mem_l0Seeds {options : CompactionOptions} :
    ∀ id ∈ l0Seeds tables range options, ∃ table ∈ tables, table.level = 0 ∧ table.id = id := by
  unfold l0Seeds
  split_ifs
  · refine level_of_mem_closeOverlappingL0Inputs fun id hid => ?_
    cases hseed : pickL0SeedTable tables range with
    | none => simp [hseed] at hid
    | some seed =>
      have hmem := mem_of_maxBy hseed
      rw [mem_filter, CompactionTable.isInLevel, Bool.and_eq_true, decide_eq_true_eq] at hmem
      simp only [hseed, Option.elim_some, mem_singleton] at hid
      exact ⟨seed, hmem.1, hmem.2.1, hid.symm⟩
  · exact level_of_mem_broadL0Inputs

lemma overlapsRange_eq_false_of_l0Seeds {options : CompactionOptions}
    (h : l0Seeds tables range options = []) :
    ∀ table ∈ tables, table.level = 0 → table.overlapsRange range = false := by
  have hbroad : broadL0Inputs tables range = [] := by
    unfold l0Seeds at h
    split_ifs at h with hlocal
    · simp [localL0InputsSaveRewrite, h] at hlocal
    · exact h
  intro table htable hlevel
  by_contra hoverlaps
  have : table.id ∈ broadL0Inputs tables range := by
    refine mem_map_of_mem (mem_filter.mpr ⟨htable, ?_⟩)
    simpa [CompactionTable.isInLevel, hlevel] using hoverlaps
  simp [hbroad] at this

lemma ne_zero_of_mem_levelSet (h : level ∈ levelSet tables range) :
    level ≠ 0 := by
  rw [levelSet, (perm_insertionSort _ _).mem_iff, mem_dedup] at h
  obtain ⟨table, htable, rfl⟩ := mem_map.mp h
  simp only [mem_filter, Bool.and_eq_true, decide_eq_true_eq] at htable
  exact htable.2.1

lemma nextLevel_eq_ok {next : ℕ} (h : nextLevel level = .ok next) : next = level + 1 := by
  unfold nextLevel at h
  split_ifs at h
  exact (Except.ok.inj h).symm

section Plan

variable {bucket : String} {range : KeyRange} {oldestActiveSnapshot : ℕ} {plan : CompactionPlan}

lemma plannedFrom_withOverlap
    (hclear : ∀ table ∈ tables, table.level = 0 → table.overlapsRange range = false)
    {picked : Option CompactionTable} {level : ℕ} {trigger : CompactionTrigger}
    (hpicked : ∀ table ∈ picked, table ∈ tables ∧ table.level = level) (hlevel : level ≠ 0)
    (hinputs : withOverlap tables picked (level + 1) ≠ []) :
    PlannedFrom tables range (planFor tables bucket oldestActiveSnapshot
      (withOverlap tables picked (level + 1)) (level + 1) trigger) := by
  refine ⟨rfl, Or.inr ?_⟩
  cases picked with
  | none => exact absurd rfl hinputs
  | some seed =>
    obtain ⟨hseed, rfl⟩ := hpicked seed rfl
    exact ⟨seed, hseed, hlevel, rfl, hclear, rfl⟩

lemma pickLeveledInputTable_spec {level : ℕ} :
    ∀ table ∈ pickLeveledInputTable tables range level, table ∈ tables ∧ table.level = level := by
  intro table htable
  have hmem := mem_of_maxBy htable
  rw [mem_filter, CompactionTable.isInLevel, Bool.and_eq_true, decide_eq_true_eq] at hmem
  exact ⟨hmem.1, hmem.2.1⟩

lemma plannedFrom_levelSizePlan {options : CompactionOptions}
    (hclear : ∀ table ∈ tables, table.level = 0 → table.overlapsRange range = false)
    (h : levelSizePlan tables bucket range oldestActiveSnapshot options = .ok (some plan)) :
    PlannedFrom tables range plan := by
  unfold levelSizePlan at h
  split at h
  · cases h
  · next level hlevel =>
    obtain ⟨outputLevel, hnext, h⟩ := bind_eq_ok.mp h
    obtain rfl := nextLevel_eq_ok hnext
    dsimp only at h
    split_ifs at h with hempty
    · cases h
    · obtain rfl := Option.some.inj (Except.ok.inj h)
      refine plannedFrom_withOverlap hclear pickLeveledInputTable_spec
        (ne_zero_of_mem_levelSet (mem_of_mem_filter (mem_of_maxBy hlevel))) fun hnil => ?_
      rw [narrowLeveledInputs, hnil] at hempty
      exact hempty rfl

lemma plannedFrom_tombstoneDebtPlan
    (hclear : ∀ table ∈ tables, table.level = 0 → table.overlapsRange range = false)
    (h : tombstoneDebtPlan tables bucket range oldestActiveSnapshot = .ok (some plan)) :
    PlannedFrom tables range plan := by
  unfold tombstoneDebtPlan at h
  split at h
  · cases h
  · next level hlevel =>
    obtain ⟨outputLevel, hnext, h⟩ := bind_eq_ok.mp h
    obtain rfl := nextLevel_eq_ok hnext
    dsimp only at h
    split_ifs at h with hshort
    · cases h
    · obtain rfl := Option.some.inj (Except.ok.inj h)
      refine plannedFrom_withOverlap hclear (fun table htable => ?_)
        (ne_zero_of_mem_levelSet (mem_of_find?_eq_some hlevel)) fun hnil => ?_
      · have hdebt := List.find?_some htable
        simp only [hasTombstoneDebt, Bool.and_eq_true, decide_eq_true_eq] at hdebt
        exact ⟨mem_of_find?_eq_some htable, hdebt.1.1⟩
      · rw [narrowTombstoneInputs, hnil] at hshort
        exact hshort (by decide)

lemma plannedFrom_multiTablePlan
    (hclear : ∀ table ∈ tables, table.level = 0 → table.overlapsRange range = false)
    (h : multiTablePlan tables bucket range oldestActiveSnapshot = .ok (some plan)) :
    PlannedFrom tables range plan := by
  unfold multiTablePlan at h
  split at h
  · cases h
  · next level hlevel =>
    obtain ⟨outputLevel, hnext, h⟩ := bind_eq_ok.mp h
    obtain rfl := nextLevel_eq_ok hnext
    dsimp only at h
    split_ifs at h with hempty
    · cases h
    · obtain rfl := Option.some.inj (Except.ok.inj h)
      refine plannedFrom_withOverlap hclear pickLeveledInputTable_spec
        (ne_zero_of_mem_levelSet (mem_of_find?_eq_some hlevel)) fun hnil => ?_
      rw [narrowLeveledInputs, hnil] at hempty
      exact hempty rfl

theorem plannedFrom_of_planCompaction {options : CompactionOptions}
    {skip : Option CompactionSkip}
    (h : planCompaction tables bucket range oldestActiveSnapshot options = .ok ⟨some plan, skip⟩) :
    PlannedFrom tables range plan := by
  unfold planCompaction at h
  split at h
  · next inputTables hinputs =>
    obtain ⟨hplan, -⟩ := CompactionDecision.mk.inj (Except.ok.inj h)
    obtain rfl := Option.some.inj hplan
    simp only [l0CompactionInputs] at hinputs
    split_ifs at hinputs with hempty
    obtain rfl := Option.some.inj hinputs
    refine ⟨rfl, Or.inl ⟨rfl, l0Seeds tables range options, ?_, ?_, rfl⟩⟩
    · exact fun hnil => hempty (by rw [l0InputsWithOverlap, hnil]; rfl)
    · exact level_of_mem_closeOverlappingL0Inputs level_of_mem_l0Seeds
  · next hnone =>
    have hseeds : l0Seeds tables range options = [] := by
      simp only [l0CompactionInputs] at hnone
      split_ifs at hnone with hempty
      rw [List.isEmpty_iff] at hempty
      refine eq_nil_iff_forall_not_mem.mpr fun id hid => ?_
      have : id ∈ l0InputsWithOverlap tables range options := Closure.mem_saturate_of_mem hid
      simp [hempty] at this
    have hclear := overlapsRange_eq_false_of_l0Seeds hseeds
    obtain ⟨sized, hsized, h⟩ := bind_eq_ok.mp h
    cases sized with
    | some planned =>
      obtain rfl : planned = plan := Option.some.inj (CompactionDecision.mk.inj (Except.ok.inj h)).1
      exact plannedFrom_levelSizePlan hclear hsized
    | none =>
      obtain ⟨debt, hdebt, h⟩ := bind_eq_ok.mp h
      cases debt with
      | some planned =>
        obtain rfl : planned = plan :=
          Option.some.inj (CompactionDecision.mk.inj (Except.ok.inj h)).1
        exact plannedFrom_tombstoneDebtPlan hclear hdebt
      | none =>
        obtain ⟨many, hmany, h⟩ := bind_eq_ok.mp h
        cases many with
        | some planned =>
          obtain rfl : planned = plan :=
            Option.some.inj (CompactionDecision.mk.inj (Except.ok.inj h)).1
          exact plannedFrom_multiTablePlan hclear hmany
        | none => cases h

end Plan

end Closed

end TrineKv
