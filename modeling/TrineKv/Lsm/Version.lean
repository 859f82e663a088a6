import TrineKv.Table.PointLookup

/-!
# Versions: the tables of a tree, level by level

A version holds the tables of a tree by level. The tables of level zero may overlap and are kept
newest first; those of a deeper level are sorted by their key spans, which must not overlap, so
that a point read finds the one table of the level that may hold the key by binary search.

## Main results

* `LevelState.toList_tableForKey`, `LsmVersion.forEachPointLookupTable_eq`.
-/

namespace TrineKv

open List PartitionPoint

/-! ## The tables of one level -/

/-- The order of the tables of level zero: the newest first. -/
def l0TableLe (left right : Table) : Prop :=
  right.largestSequence < left.largestSequence ∨
    left.largestSequence = right.largestSequence ∧ right.id ≤ left.id

instance : DecidableRel l0TableLe := fun left right =>
  inferInstanceAs (Decidable (right.largestSequence < left.largestSequence ∨
    left.largestSequence = right.largestSequence ∧ right.id ≤ left.id))

/-- The order of the tables of a deeper level: by span, those without a span last. -/
def nonOverlappingTableLe (left right : Table) : Prop :=
  right.hasKeyBounds < left.hasKeyBounds ∨
    left.hasKeyBounds = right.hasKeyBounds ∧
      (left.smallestUserKey < right.smallestUserKey ∨
        left.smallestUserKey = right.smallestUserKey ∧
          (left.largestUserKey < right.largestUserKey ∨
            left.largestUserKey = right.largestUserKey ∧ left.id ≤ right.id))

instance : DecidableRel nonOverlappingTableLe := fun left right => by
  unfold nonOverlappingTableLe
  infer_instance

/-- A table with a span has its least key first. -/
def validateTableKeyBounds (table : Table) : Except Error Unit :=
  if table.hasKeyBounds ∧ table.largestUserKey < table.smallestUserKey then
    .error (.corruption ("table " ++ toString table.id ++ " has invalid key bounds"))
  else .ok ()

def validateAfterPrevious (level : ℕ) (previous : Option Table) (table : Table) :
    Except Error Unit :=
  match previous with
  | none => .ok ()
  | some previous =>
    if table.smallestUserKey ≤ previous.largestUserKey then
      .error (.corruption ("level " ++ toString level ++ " has overlapping tables " ++
        toString previous.id ++ " and " ++ toString table.id))
    else .ok ()

def validateNonOverlappingTables (level count : ℕ) : Option Table → List Table → Except Error Unit
  | _, [] => .ok ()
  | previous, table :: tables => do
    validateTableKeyBounds table
    if !table.hasKeyBounds then
      if 1 < count then
        .error (.corruption
          ("level " ++ toString level ++ " has an unbounded table mixed with other tables"))
      else validateNonOverlappingTables level count previous tables
    else
      validateAfterPrevious level previous table
      validateNonOverlappingTables level count (some table) tables

def validateNonOverlappingLevel (level : ℕ) (tables : List Table) : Except Error Unit :=
  validateNonOverlappingTables level tables.length none tables

structure LevelState where
  level : ℕ
  tables : List Table
  valid : level ≠ 0 → validateNonOverlappingLevel level tables = .ok ()

namespace LevelState

def new (level : ℕ) (tables : List Table) : Except Error LevelState :=
  if hzero : level = 0 then
    .ok ⟨level, tables.insertionSort l0TableLe, fun h => absurd hzero h⟩
  else
    let sorted := tables.insertionSort nonOverlappingTableLe
    match hvalid : validateNonOverlappingLevel level sorted with
    | .ok () => .ok ⟨level, sorted, fun _ => hvalid⟩
    | .error error => .error error

def tableForKey (state : LevelState) (key : Key) : Option Table :=
  let index := ofList state.tables
    fun table => table.hasKeyBounds && decide (table.largestUserKey < key)
  state.tables[index]?.bind fun table =>
    if table.keyBoundsMayContainKey key then some table else none

def tablesOverlappingRange (state : LevelState) (range : KeyRange) : List Table :=
  state.tables.filter fun table => table.keyBoundsOverlapRange range

end LevelState

lemma validateNonOverlappingTables_spec {level count : ℕ} {previous : Option Table}
    {tables : List Table} (hcount : 1 < count)
    (h : validateNonOverlappingTables level count previous tables = .ok ()) :
    (∀ table ∈ tables, table.hasKeyBounds = true ∧
        table.smallestUserKey ≤ table.largestUserKey) ∧
      (∀ before, previous = some before →
        ∀ table ∈ tables, before.largestUserKey < table.smallestUserKey) ∧
      tables.Pairwise fun left right => left.largestUserKey < right.smallestUserKey := by
  induction tables generalizing previous with
  | nil => simp
  | cons table tables ih =>
    rw [validateNonOverlappingTables] at h
    have hhas : table.hasKeyBounds = true := by
      by_contra hnot
      rw [Bool.not_eq_true] at hnot
      simp [validateTableKeyBounds, hnot, hcount, bind, Except.bind] at h
    simp only [validateTableKeyBounds, hhas, true_and, Bool.not_true, Bool.false_eq_true,
      if_false, bind, Except.bind] at h
    split_ifs at h with hbounds
    have hspan : table.smallestUserKey ≤ table.largestUserKey := not_lt.mp hbounds
    have hbefore : ∀ before, previous = some before →
        before.largestUserKey < table.smallestUserKey := by
      rintro before rfl
      by_contra hnot
      simp [validateAfterPrevious, not_lt.mp hnot] at h
    have hrest : validateNonOverlappingTables level count (some table) tables = .ok () := by
      cases hcheck : validateAfterPrevious level previous table with
      | ok _ => simpa [hcheck] using h
      | error _ => simp [hcheck] at h
    obtain ⟨hall, hlater, hpair⟩ := ih hrest
    refine ⟨?_, fun before hprev t ht => ?_, pairwise_cons.mpr ⟨hlater table rfl, hpair⟩⟩
    · intro t ht
      rcases mem_cons.mp ht with rfl | ht
      · exact ⟨hhas, hspan⟩
      · exact hall t ht
    · rcases mem_cons.mp ht with rfl | ht
      · exact hbefore before hprev
      · exact (hbefore before hprev).trans_le (hspan.trans (hlater table rfl t ht).le)

namespace LevelState

/-- The binary search of a deeper level finds exactly the tables whose span admits the key.

**Proof sketch.** Tables before the partition point end below the key. With a single table there
is nothing else; with several, all have spans, and those after the partition point start above
the end of the table there, which is not below the key. -/
theorem toList_tableForKey (state : LevelState) (hlevel : state.level ≠ 0) (key : Key) :
    (state.tableForKey key).toList =
      state.tables.filter fun table => table.keyBoundsMayContainKey key := by
  set below : Table → Bool := fun table =>
    table.hasKeyBounds && decide (table.largestUserKey < key) with hbelow
  have hspans : 1 < state.tables.length →
      (∀ table ∈ state.tables, table.hasKeyBounds = true ∧
        table.smallestUserKey ≤ table.largestUserKey) ∧
      state.tables.Pairwise fun left right => left.largestUserKey < right.smallestUserKey := by
    intro hcount
    obtain ⟨hall, -, hpair⟩ := validateNonOverlappingTables_spec hcount (state.valid hlevel)
    exact ⟨hall, hpair⟩
  have hpair : state.tables.Pairwise fun a b => below b = true → below a = true := by
    by_cases hcount : 1 < state.tables.length
    · obtain ⟨hall, hpair⟩ := hspans hcount
      refine hpair.imp_of_mem fun {a b} ha hb hab h => ?_
      simp only [hbelow, Bool.and_eq_true, decide_eq_true_eq] at h ⊢
      exact ⟨(hall a ha).1, hab.trans ((hall b hb).2.trans_lt h.2)⟩
    · match htables : state.tables with
      | [] => exact List.Pairwise.nil
      | [table] => exact pairwise_singleton _ _
      | _ :: _ :: _ => simp [htables] at hcount
  obtain ⟨htake, hdrop⟩ := (ofList_spec hpair).take_drop
  rw [tableForKey, ← hbelow]
  set index := ofList state.tables below
  -- Tables before the partition point do not admit the key.
  have hfront : (state.tables.take index).filter (fun t => t.keyBoundsMayContainKey key) = [] := by
    rw [filter_eq_nil_iff]
    intro table htable
    have h := htake table htable
    simp only [hbelow, Bool.and_eq_true, decide_eq_true_eq] at h
    simp [Table.keyBoundsMayContainKey, h.1, h.2]
  rw [← take_append_drop index state.tables, filter_append, hfront, nil_append,
    take_append_drop, ← Nat.add_zero index, ← List.getElem?_drop, Nat.add_zero]
  cases hrest : state.tables.drop index with
  | nil => rfl
  | cons table rest =>
    -- Tables after the one found start above its end.
    have hback : rest.filter (fun t => t.keyBoundsMayContainKey key) = [] := by
      rw [filter_eq_nil_iff]
      intro later hlater
      have hcount : 1 < state.tables.length := by
        have hlen := congrArg List.length hrest
        have hpos := length_pos_of_mem hlater
        simp only [length_drop, length_cons] at hlen
        omega
      obtain ⟨hall, hasc⟩ := hspans hcount
      have hsub := drop_sublist index state.tables
      rw [hrest] at hsub hdrop
      have hfound := hall table (hsub.subset mem_cons_self)
      have hlast := hall later (hsub.subset (mem_cons_of_mem _ hlater))
      have hlt := rel_of_pairwise_cons (hasc.sublist hsub) hlater
      have hkey : key ≤ table.largestUserKey := by
        simpa [hbelow, hfound.1] using hdrop table mem_cons_self
      simp [Table.keyBoundsMayContainKey, hlast.1, hkey.trans_lt hlt]
    rw [filter_cons, hback, List.getElem?_cons_zero, Option.bind_some]
    split_ifs <;> rfl

end LevelState

/-! ## All levels -/

structure LsmVersion where
  levels : List LevelState

namespace LsmVersion

def new (tables : List Table) : Except Error LsmVersion := do
  let levels := (tables.map Table.level).dedup.insertionSort (· ≤ ·)
  let states ← levels.mapM fun level =>
    LevelState.new level (tables.filter fun table => table.level = level)
  return ⟨states⟩

def tables (version : LsmVersion) : List Table :=
  version.levels.flatMap LevelState.tables

section PointLookup

variable {σ : Type} (key : Key) (shouldProbe : σ → Table → Bool)
  (visit : σ → Table → Except Error σ)

def probeTable (s : σ) (table : Table) : Except Error σ :=
  if !shouldProbe s table then .ok s
  else if table.mayContainKey key then visit s table
  else .ok s

/-- Visit the tables that may hold the key: all of level zero whose span admits it, and one of
each deeper level. -/
def forEachPointLookupTable (version : LsmVersion) (s : σ) : Except Error σ :=
  version.levels.foldlM (fun s state =>
    if state.level = 0 then
      state.tables.foldlM (fun s table =>
        if !table.keyBoundsMayContainKey key then .ok s
        else probeTable key shouldProbe visit s table) s
    else
      match state.tableForKey key with
      | some table => probeTable key shouldProbe visit s table
      | none => .ok s) s

/-- The tables that are visited are those of the version whose span admits the key, in order. -/
theorem forEachPointLookupTable_eq (version : LsmVersion) (s : σ) :
    version.forEachPointLookupTable key shouldProbe visit s =
      (version.tables.filter fun table => table.keyBoundsMayContainKey key).foldlM
        (probeTable key shouldProbe visit) s := by
  rw [forEachPointLookupTable, tables]
  induction version.levels generalizing s with
  | nil => rfl
  | cons state levels ih =>
    rw [foldlM_cons, flatMap_cons, filter_append, foldlM_append]
    have hstate : (if state.level = 0 then
        state.tables.foldlM (fun s table =>
          if !table.keyBoundsMayContainKey key then .ok s
          else probeTable key shouldProbe visit s table) s
      else
        match state.tableForKey key with
        | some table => probeTable key shouldProbe visit s table
        | none => .ok s) =
        (state.tables.filter fun table => table.keyBoundsMayContainKey key).foldlM
          (probeTable key shouldProbe visit) s := by
      split_ifs with hlevel
      · rw [foldlM_filter]
        congr 1
        funext s table
        cases table.keyBoundsMayContainKey key <;> rfl
      · rw [← state.toList_tableForKey hlevel]
        cases state.tableForKey key with
        | none => rfl
        | some table => exact (bind_pure _).symm
    rw [hstate]
    congr 1
    funext s
    exact ih s

end PointLookup

def rangeTombstoneTablesForKey (version : LsmVersion) (key : Key) : List Table :=
  version.levels.flatMap fun state =>
    if state.level = 0 then
      state.tables.filter fun table =>
        table.mayHaveRangeTombstones && table.keyBoundsMayContainKey key
    else
      match state.tableForKey key with
      | some table =>
        if table.mayHaveRangeTombstones && table.keyBoundsMayContainKey key then [table] else []
      | none => []

def rangeScanTables (version : LsmVersion) (range : KeyRange) : List Table :=
  version.levels.flatMap fun state => state.tablesOverlappingRange range

lemma mem_rangeTombstoneTablesForKey {version : LsmVersion} {key : Key} {table : Table} :
    table ∈ version.rangeTombstoneTablesForKey key ↔
      table ∈ version.tables ∧ table.mayHaveRangeTombstones = true ∧
        table.keyBoundsMayContainKey key = true := by
  have hlevel : ∀ state : LevelState,
      table ∈ (if state.level = 0 then
        state.tables.filter fun table =>
          table.mayHaveRangeTombstones && table.keyBoundsMayContainKey key
      else
        match state.tableForKey key with
        | some table =>
          if table.mayHaveRangeTombstones && table.keyBoundsMayContainKey key then [table] else []
        | none => []) ↔
      table ∈ state.tables ∧ table.mayHaveRangeTombstones = true ∧
        table.keyBoundsMayContainKey key = true := by
    intro state
    split_ifs with hzero
    · simp [mem_filter]
    · have hfilter := state.toList_tableForKey hzero key
      have hmem : table ∈ (state.tableForKey key).toList ↔
          table ∈ state.tables ∧ table.keyBoundsMayContainKey key = true := by
        rw [hfilter, mem_filter]
      cases hfound : state.tableForKey key with
      | none =>
        rw [hfound] at hmem
        simp only [Option.toList_none, not_mem_nil, false_iff] at hmem ⊢
        exact fun h => hmem ⟨h.1, h.2.2⟩
      | some found =>
        rw [hfound, Option.toList_some, mem_singleton] at hmem
        constructor
        · intro h
          simp only at h
          split_ifs at h with hboth
          · obtain rfl := mem_singleton.mp h
            exact ⟨(hmem.mp rfl).1, by simpa using hboth⟩
          · simp at h
        · rintro ⟨h1, h2, h3⟩
          obtain rfl := hmem.mpr ⟨h1, h3⟩
          simp [h2, h3]
  rw [rangeTombstoneTablesForKey, tables, mem_flatMap, mem_flatMap]
  constructor
  · rintro ⟨state, hstate, h⟩
    obtain ⟨h1, h2⟩ := (hlevel state).mp h
    exact ⟨⟨state, hstate, h1⟩, h2⟩
  · rintro ⟨⟨state, hstate, h1⟩, h2⟩
    exact ⟨state, hstate, (hlevel state).mpr ⟨h1, h2⟩⟩

lemma mem_rangeScanTables {version : LsmVersion} {range : KeyRange} {table : Table} :
    table ∈ version.rangeScanTables range ↔
      table ∈ version.tables ∧ table.keyBoundsOverlapRange range = true := by
  simp only [rangeScanTables, LevelState.tablesOverlappingRange, tables, mem_flatMap,
    mem_filter]
  constructor
  · rintro ⟨state, hstate, h1, h2⟩
    exact ⟨⟨state, hstate, h1⟩, h2⟩
  · rintro ⟨⟨state, hstate, h1⟩, h2⟩
    exact ⟨state, hstate, h1, h2⟩

end LsmVersion

end TrineKv
