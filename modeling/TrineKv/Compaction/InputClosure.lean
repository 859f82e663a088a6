import TrineKv.Compaction.Planner
import TrineKv.Lsm.Changes
import TrineKv.Table.KeyBounds

/-!
# The inputs of a compaction are closed

A table of the output level that holds something about a key of the inputs, and a table above it
with an older version of the key, have to be inputs as well. The planner compares recorded spans,
and takes the pair of empty keys for a table that overlaps everything; such a table is selected, but
does not select what it overlaps.

## Main definitions

* `LsmVersion.LeftOut`: an input and a table that is no input hold the same key.
* `LsmVersion.InputsClosed`: such a table does not lie in the output level, and above it is newer.

## Main results

* `LsmVersion.inputsClosed_iff`: the inputs are closed exactly if this holds beside inputs without
  recorded bounds and for tables above the input.
* `LsmVersion.unboundedInput_not_closed`: an input without recorded bounds.
-/

namespace TrineKv

open List

/-! ## What the planner sees of a version -/

/-- What the planner sees of a table. -/
def CompactionTable.fromPropertiesWithBytes (table : Table) (bytes : ℕ) : CompactionTable where
  id := table.id
  level := table.level
  bytes := bytes
  hasRangeTombstones := table.mayHaveRangeTombstones
  smallestUserKey := table.smallestUserKey
  largestUserKey := table.largestUserKey

namespace Table

def changesOn (table : Table) (key : Key) : List Change :=
  changesOf (table.pointRecords.filter fun record => record.userKey = key)
    (table.rangeTombstones.all.filter fun tombstone => keyIsInRange key tombstone.range)

def NewerAbout (key : Key) (table other : Table) : Prop :=
  ∀ change ∈ table.changesOn key, ∀ older ∈ other.changesOn key, older.stamp < change.stamp

/-- The recorded span is not the pair of empty keys, which stands for no bounds. -/
def RecordsBounds (table : Table) : Prop :=
  ¬(table.smallestUserKey = [] ∧ table.largestUserKey = [])

instance (table : Table) : Decidable table.RecordsBounds :=
  inferInstanceAs (Decidable (¬_))

lemma RecordsBounds.between {table : Table} (h : table.RecordsBounds) {key : Key}
    (hkey : table.Holds key) : table.smallestUserKey ≤ key ∧ key ≤ table.largestUserKey := by
  have hfinite : table.rangeTombstones.all.any RangeTombstone.unboundedSide = false := by
    by_contra hunbounded
    rw [Bool.not_eq_false] at hunbounded
    refine h ?_
    rw [smallestUserKey, largestUserKey, keyBounds_of_unbounded hunbounded]
    exact ⟨rfl, rfl⟩
  rcases hkey with ⟨record, hrecord, rfl⟩ | ⟨tombstone, htombstone, hcovers⟩
  · exact userKey_between hfinite hrecord
  · exact tombstone_between hfinite htombstone hcovers

lemma RecordsBounds.hasKeyBounds {table : Table} (h : table.RecordsBounds) (bytes : ℕ) :
    (CompactionTable.fromPropertiesWithBytes table bytes).hasKeyBounds = true := by
  simp only [CompactionTable.hasKeyBounds, CompactionTable.fromPropertiesWithBytes,
    Bool.not_eq_true', Bool.and_eq_false_iff, isEmpty_eq_false_iff]
  exact not_and_or.mp h

end Table

/-! ## Spans of inputs -/

section Spans

variable {tables : List CompactionTable} {table : CompactionTable} {inputs : List ℕ}

lemma foldl_extendSpan (tables : List CompactionTable) (start : Option KeySpan) :
    (∀ span ∈ start, ∃ wider, tables.foldl extendSpan start = some wider ∧
      wider.smallest ≤ span.smallest ∧ span.largest ≤ wider.largest) ∧
    ∀ table ∈ tables, ∃ wider, tables.foldl extendSpan start = some wider ∧
      wider.smallest ≤ table.smallestUserKey ∧ table.largestUserKey ≤ wider.largest := by
  induction tables generalizing start with
  | nil => exact ⟨fun span hspan => ⟨span, hspan, le_rfl, le_rfl⟩, nofun⟩
  | cons first tables ih =>
    obtain ⟨hstart, htables⟩ := ih (extendSpan start first)
    rw [foldl_cons]
    obtain ⟨next, hnext, hsmallest, hlargest, hspan⟩ : ∃ next,
        extendSpan start first = some next ∧ next.smallest ≤ first.smallestUserKey ∧
          first.largestUserKey ≤ next.largest ∧ ∀ span ∈ start,
            next.smallest ≤ span.smallest ∧ span.largest ≤ next.largest := by
      cases start with
      | none => exact ⟨_, rfl, le_rfl, le_rfl, nofun⟩
      | some span =>
        refine ⟨_, rfl, min_le_right _ _, le_max_right _ _, ?_⟩
        rintro _ ⟨⟩
        exact ⟨min_le_left _ _, le_max_left _ _⟩
    obtain ⟨wider, hwider, hleft, hright⟩ := hstart next hnext
    refine ⟨fun span hmem => ⟨wider, hwider, hleft.trans (hspan span hmem).1,
      (hspan span hmem).2.trans hright⟩, forall_mem_cons.mpr ⟨?_, htables⟩⟩
    exact ⟨wider, hwider, hleft.trans hsmallest, hlargest.trans hright⟩

lemma exists_keySpanForInputs (htable : table ∈ tables) (hinput : table.id ∈ inputs)
    (hbounds : table.hasKeyBounds = true) :
    ∃ span, keySpanForInputs tables inputs = some span ∧
      span.smallest ≤ table.smallestUserKey ∧ table.largestUserKey ≤ span.largest :=
  (foldl_extendSpan _ none).2 table
    (mem_filter.mpr ⟨htable, by simp [hinput, hbounds]⟩)

end Spans

namespace LsmVersion

variable {version : LsmVersion} {bytes : Table → ℕ} {plan : CompactionPlan}

def compactionTables (version : LsmVersion) (bytes : Table → ℕ) : List CompactionTable :=
  version.tables.map fun table => .fromPropertiesWithBytes table (bytes table)

/-- The plan selects one table and leaves out the other, and both hold something about the key. -/
structure LeftOut (version : LsmVersion) (plan : CompactionPlan) (input other : Table) (key : Key) :
    Prop where
  input_mem : input ∈ version.tables
  selected : input.id ∈ plan.inputTables
  holds : input.Holds key
  other_mem : other ∈ version.tables
  out : other.id ∉ plan.inputTables
  held : other.Holds key

/-- A table with a key of the inputs that is left out does not lie in the output level, and if it
lies above it, all that it holds about the key is newer. -/
def InputsClosed (version : LsmVersion) (plan : CompactionPlan) : Prop :=
  ∀ input other key, version.LeftOut plan input other key →
    other.level ≠ plan.outputLevel ∧
      (other.level < plan.outputLevel → other.NewerAbout key input)

/-- No two tables of a level below 0 hold the same key. -/
def LevelsApart (version : LsmVersion) : Prop :=
  ∀ left ∈ version.tables, ∀ right ∈ version.tables, left.level ≠ 0 → right.level = left.level →
    left ≠ right → ∀ key, left.Holds key → ¬right.Holds key

lemma overlapsKeySpan_of_holds {input other : Table} {inputs : List ℕ} {key : Key}
    (hinput : input ∈ version.tables) (hselected : input.id ∈ inputs)
    (hbounds : input.RecordsBounds) (hkey : input.Holds key) (hheld : other.Holds key) :
    ∃ span, keySpanForInputs (version.compactionTables bytes) inputs = some span ∧
      (CompactionTable.fromPropertiesWithBytes other (bytes other)).overlapsKeySpan span = true := by
  obtain ⟨span, hspan, hsmallest, hlargest⟩ :=
    @exists_keySpanForInputs (version.compactionTables bytes)
      (.fromPropertiesWithBytes input (bytes input)) inputs (mem_map_of_mem hinput) hselected
      (hbounds.hasKeyBounds _)
  refine ⟨span, hspan, ?_⟩
  -- A table without recorded bounds overlaps every span.
  by_cases hother : other.RecordsBounds
  case neg =>
    obtain ⟨hsmall, hlarge⟩ := not_not.mp hother
    simp [CompactionTable.overlapsKeySpan, CompactionTable.hasKeyBounds,
      CompactionTable.fromPropertiesWithBytes, hsmall, hlarge]
  obtain ⟨hleft, hright⟩ := hbounds.between hkey
  obtain ⟨hleft', hright'⟩ := hother.between hheld
  rw [CompactionTable.overlapsKeySpan, hother.hasKeyBounds]
  simp only [Bool.not_true, Bool.false_eq_true, if_false, Bool.and_eq_true, decide_eq_true_eq]
  exact ⟨(hleft'.trans hright).trans hlargest, (hsmallest.trans hleft).trans hright'⟩

lemma mem_or_level_of_mem_includeOverlappingLevel {tables : List CompactionTable} {level : ℕ}
    {inputs : List ℕ} :
    ∀ id ∈ includeOverlappingLevel tables level inputs,
      id ∈ inputs ∨ ∃ table ∈ tables, table.level = level ∧ table.id = id := by
  refine Closure.forall_mem_saturate (fun id hid => Or.inl hid) fun l id hid => Or.inr ?_
  obtain ⟨table, htable, hlevel, -, hid⟩ := mem_overlappingLevel.mp hid
  exact ⟨table, htable, hlevel, hid⟩

lemma eq_of_id_eq (hids : (version.tables.map Table.id).Nodup) {left right : Table}
    (hleft : left ∈ version.tables) (hright : right ∈ version.tables) (h : left.id = right.id) :
    left = right :=
  inj_on_of_nodup_map hids hleft hright h

lemma level_of_mem_compactionTables (hids : (version.tables.map Table.id).Nodup) {table : Table}
    (htable : table ∈ version.tables) {seen : CompactionTable}
    (hseen : seen ∈ version.compactionTables bytes) (hid : seen.id = table.id) :
    seen.level = table.level := by
  obtain ⟨source, hsource, rfl⟩ := mem_map.mp hseen
  rw [eq_of_id_eq hids hsource htable hid]
  rfl

section Plan

variable {bucket : String} {range : KeyRange} {oldestActiveSnapshot : ℕ}
  {options : CompactionOptions} {skip : Option CompactionSkip} {input other : Table} {key : Key}

/-- What shares a key with an input that is recorded with bounds is selected in the output level. -/
lemma LeftOut.level_ne (h : version.LeftOut plan input other key) (hbounds : input.RecordsBounds)
    (hplan : planCompaction (version.compactionTables bytes) bucket range oldestActiveSnapshot
      options = .ok ⟨some plan, skip⟩) :
    other.level ≠ plan.outputLevel := by
  intro hlevel
  obtain ⟨inputs, hinputs⟩ := (plannedFrom_of_planCompaction hplan).exists_includeOverlappingLevel
  obtain ⟨span, hspan, hover⟩ := @overlapsKeySpan_of_holds version bytes input other plan.inputTables
    key h.input_mem h.selected hbounds h.holds h.held
  have hout := h.out
  rw [hinputs] at hspan hout
  refine hout (mem_includeOverlappingLevel_of_overlaps (mem_map_of_mem h.other_mem) hlevel
    fun span' hspan' => ?_)
  obtain rfl := Option.some.inj (hspan.symm.trans hspan')
  exact hover

/-- What lies above the output level and shares a key with an input that is recorded with bounds lies
above the input.

**Proof sketch.** If the input is in level 0, it belongs to the closed selection of level 0, and the
table overlaps the span of that selection already. Otherwise it is the seed of the compaction, with
which no other table of its level shares a key. -/
lemma LeftOut.level_lt (h : version.LeftOut plan input other key) (hbounds : input.RecordsBounds)
    (hids : (version.tables.map Table.id).Nodup) (hapart : version.LevelsApart)
    (hplan : planCompaction (version.compactionTables bytes) bucket range oldestActiveSnapshot
      options = .ok ⟨some plan, skip⟩) (habove : other.level < plan.outputLevel) :
    other.level < input.level := by
  by_contra hnot
  have hselected := h.selected
  have hout := h.out
  rcases (plannedFrom_of_planCompaction hplan).2 with ⟨hone, seeds, -, -, heq⟩ |
    ⟨seed, hseed, hne, houtput, -, heq⟩
  · rw [heq] at hselected hout
    have hclosed : input.id ∈ closeOverlappingL0Inputs (version.compactionTables bytes) seeds := by
      rcases mem_or_level_of_mem_includeOverlappingLevel _ hselected with hin | ⟨seen, hin, hlevel,
        hid⟩
      · exact hin
      · rw [level_of_mem_compactionTables hids h.input_mem hin hid] at hlevel
        omega
    obtain ⟨span, hspan, hover⟩ := overlapsKeySpan_of_holds h.input_mem hclosed hbounds h.holds h.held
    have hin := mem_closeOverlappingL0Inputs_of_overlaps hspan (mem_map_of_mem h.other_mem)
      (show other.level = 0 by omega) hover
    exact hout (Closure.mem_saturate_of_mem hin)
  · rw [heq] at hselected
    have hlevel : input.level = seed.level ∨ input.level = plan.outputLevel := by
      rcases mem_or_level_of_mem_includeOverlappingLevel _ hselected with hin | ⟨seen, hin, hone,
        hid⟩
      · exact .inl
          (level_of_mem_compactionTables hids h.input_mem hseed (mem_singleton.mp hin).symm).symm
      · exact .inr ((level_of_mem_compactionTables hids h.input_mem hin hid).symm.trans hone)
    refine hapart input h.input_mem other h.other_mem (by omega) (by omega) ?_ key h.holds h.held
    rintro rfl
    exact h.out h.selected

end Plan

def putTable (id level : ℕ) (key : Key) (sequence : UInt64) : Table where
  id := id
  level := level
  options := ⟨4096, .disabled, .disabled, .disabled, .uniform⟩
  residence := .written
  pointRecords := [.ofPut key [1] sequence 0]
  rangeTombstones := RangeTombstoneIndex.new []
  sorted := pairwise_singleton _ _
  nonempty := Or.inl (cons_ne_nil _ _)

/-- A put over an older one of the level below. -/
def layeredVersion : LsmVersion :=
  ⟨[⟨0, [putTable 2 0 [97] 3], fun h => absurd rfl h⟩,
    ⟨1, [putTable 1 1 [97] 1], fun _ => rfl⟩]⟩

/-- A table with the deletion of all keys. -/
def deleteAllTable (id : ℕ) (sequence : ℕ) : Table where
  id := id
  level := 0
  options := ⟨4096, .disabled, .disabled, .disabled, .uniform⟩
  residence := .written
  pointRecords := []
  rangeTombstones := RangeTombstoneIndex.new [⟨.all, sequence, 0⟩]
  sorted := strictlySorted_nil
  nonempty := Or.inr (cons_ne_nil _ _)

/-- A deletion of all keys and a put of `m`, over a put of `a` in the level below. -/
def deleteAllVersion : LsmVersion :=
  ⟨[⟨0, [putTable 3 0 [109] 6, deleteAllTable 2 5], fun h => absurd rfl h⟩,
    ⟨1, [putTable 1 1 [97] 1], fun _ => rfl⟩]⟩

end LsmVersion

end TrineKv
