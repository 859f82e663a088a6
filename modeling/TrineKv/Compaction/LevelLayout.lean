import Mathlib.Data.List.Pairwise
import Mathlib.Data.Prod.Lex
import TrineKv.Compaction.Install
import TrineKv.Lib.Runs

/-!
# When the levels of a version are accepted

Tables make a level below 0 if their bounds are in order and, when there are several, all are
recorded with bounds and no two overlap. This does not depend on the order in which the tables are
given, as they are sorted before they are checked.

## Main results

* `exists_levelState_new_iff`, `LsmVersion.levelsOk_of_new`, `LsmVersion.exists_new_iff`,
  `LsmVersion.lookups_of_run`.
-/

namespace TrineKv

open List ByteCodec

def Table.DisjointBounds (left right : Table) : Prop :=
  left.largestUserKey < right.smallestUserKey ∨ right.largestUserKey < left.smallestUserKey

instance : Std.Symm Table.DisjointBounds := ⟨fun _ _ => Or.symm⟩

/-- The tables can make a level below 0. -/
structure LevelOk (tables : List Table) : Prop where
  ordered : ∀ table ∈ tables, table.hasKeyBounds = true →
    table.smallestUserKey ≤ table.largestUserKey
  bounded : 1 < tables.length → ∀ table ∈ tables, table.hasKeyBounds = true
  disjoint : tables.Pairwise fun left right =>
    left.hasKeyBounds = true → right.hasKeyBounds = true → left.DisjointBounds right

namespace LevelOk

variable {tables others : List Table}

lemma sublist (h : LevelOk tables) (hsub : others.Sublist tables) : LevelOk others :=
  ⟨fun table htable => h.ordered table (hsub.subset htable),
    fun hcount table htable => h.bounded (hcount.trans_le hsub.length_le) table
      (hsub.subset htable), h.disjoint.sublist hsub⟩

end LevelOk

section Check

variable {level count : ℕ} {tables : List Table}

def Table.levelRank (table : Table) : Bool ×ₗ Key ×ₗ Key ×ₗ ℕ :=
  toLex (!table.hasKeyBounds, toLex (table.smallestUserKey, toLex (table.largestUserKey, table.id)))

lemma nonOverlappingTableLe_iff {left right : Table} :
    nonOverlappingTableLe left right ↔ left.levelRank ≤ right.levelRank := by
  simp only [nonOverlappingTableLe, Table.levelRank, Prod.Lex.toLex_le_toLex]
  cases left.hasKeyBounds <;> cases right.hasKeyBounds <;> simp

instance : IsTrans Table nonOverlappingTableLe where
  trans _ _ _ hab hbc := nonOverlappingTableLe_iff.mpr
    ((nonOverlappingTableLe_iff.mp hab).trans (nonOverlappingTableLe_iff.mp hbc))

instance : Std.Total nonOverlappingTableLe where
  total a b := by
    rw [nonOverlappingTableLe_iff, nonOverlappingTableLe_iff]
    exact le_total _ _

lemma validateAfterPrevious_iff {previous : Option Table} {table : Table} :
    validateAfterPrevious level previous table = .ok () ↔
      ∀ before ∈ previous, before.largestUserKey < table.smallestUserKey := by
  cases previous with
  | none => simp [validateAfterPrevious]
  | some before => simp [validateAfterPrevious]

/-- A sorted level passes the check exactly if the bounds are in order, all tables of several have
bounds, and the bounds ascend without overlap.

**Proof sketch.** Induction on the tables. The check compares neighbours only, but bounds that are in
order carry the comparison on. -/
lemma validateNonOverlappingTables_iff {previous : Option Table} :
    validateNonOverlappingTables level count previous tables = .ok () ↔
      (∀ table ∈ tables, table.hasKeyBounds = true →
        table.smallestUserKey ≤ table.largestUserKey) ∧
      (1 < count → ∀ table ∈ tables, table.hasKeyBounds = true) ∧
      (previous.toList ++ tables.filter Table.hasKeyBounds).Pairwise fun left right =>
        left.largestUserKey < right.smallestUserKey := by
  induction tables generalizing previous with
  | nil => cases previous <;> simp [validateNonOverlappingTables]
  | cons table tables ih =>
    rw [validateNonOverlappingTables]
    cases hhas : table.hasKeyBounds with
    | false =>
      have hkey : validateTableKeyBounds table = .ok () := by simp [validateTableKeyBounds, hhas]
      rw [hkey, ok_bind]
      by_cases hcount : 1 < count
      · simp [hcount, hhas]
      · simp [hcount, ih, hhas]
    | true =>
      have hfilter : (table :: tables).filter Table.hasKeyBounds =
          table :: tables.filter Table.hasKeyBounds := by simp [hhas]
      by_cases hspan : table.smallestUserKey ≤ table.largestUserKey
      · have hkey : validateTableKeyBounds table = .ok () := by
          simp [validateTableKeyBounds, hspan]
        rw [hkey, ok_bind, hfilter]
        simp only [Bool.not_true, Bool.false_eq_true, if_false, bind_eq_ok, ih,
          Option.toList_some, singleton_append, forall_mem_cons, hhas, hspan, true_and,
          forall_const]
        have hcarry : (previous.toList ++ table :: tables.filter Table.hasKeyBounds).Pairwise
            (fun left right => left.largestUserKey < right.smallestUserKey) ↔
            (∀ before ∈ previous, before.largestUserKey < table.smallestUserKey) ∧
              (table :: tables.filter Table.hasKeyBounds).Pairwise fun left right =>
                left.largestUserKey < right.smallestUserKey := by
          cases previous with
          | none => simp
          | some before =>
            rw [Option.toList_some, singleton_append, pairwise_cons,
              forall_mem_cons]
            simp only [Option.mem_some_iff, forall_eq']
            refine ⟨fun h => ⟨h.1.1, h.2⟩, fun h => ⟨⟨h.1, fun other hother => ?_⟩, h.2⟩⟩
            exact h.1.trans_le (hspan.trans (rel_of_pairwise_cons h.2 hother).le)
        rw [hcarry]
        constructor
        · rintro ⟨⟨⟩, hbefore, hordered, hbounded, hpair⟩
          exact ⟨hordered, hbounded, validateAfterPrevious_iff.mp hbefore, hpair⟩
        · rintro ⟨hordered, hbounded, hbefore, hpair⟩
          exact ⟨(), validateAfterPrevious_iff.mpr hbefore, hordered, hbounded, hpair⟩
      · have hkey : ∃ error, validateTableKeyBounds table = .error error := by
          simp [validateTableKeyBounds, hhas, not_le.mp hspan]
        obtain ⟨error, hkey⟩ := hkey
        rw [hkey]
        constructor
        · intro h
          cases h
        · intro h
          exact absurd (h.1 table mem_cons_self hhas) hspan

/-- Tables are accepted as a level below 0 exactly if they can make one.

**Proof sketch.** Sorting changes neither the tables nor their number. In a sorted list of tables
with bounds in order, tables that do not overlap ascend. -/
lemma validate_insertionSort_iff :
    validateNonOverlappingLevel level (tables.insertionSort nonOverlappingTableLe) = .ok () ↔
      LevelOk tables := by
  set sorted := tables.insertionSort nonOverlappingTableLe with hsorted
  have hperm : sorted.Perm tables := perm_insertionSort _ _
  have hpair : sorted.Pairwise nonOverlappingTableLe := pairwise_insertionSort _ _
  have hsymm : ∀ {left right : Table}, (left.hasKeyBounds = true → right.hasKeyBounds = true →
      left.DisjointBounds right) → right.hasKeyBounds = true → left.hasKeyBounds = true →
        right.DisjointBounds left := fun h hright hleft => (h hleft hright).symm
  rw [validateNonOverlappingLevel, validateNonOverlappingTables_iff, Option.toList_none,
    nil_append, pairwise_filter, hperm.length_eq]
  constructor
  · rintro ⟨hordered, hbounded, hascend⟩
    refine ⟨fun table htable => hordered table (hperm.mem_iff.mpr htable),
      fun hcount table htable => hbounded hcount table (hperm.mem_iff.mpr htable), ?_⟩
    rw [← hperm.pairwise_iff hsymm]
    exact hascend.imp fun h hleft hright => Or.inl (h hleft hright)
  · rintro ⟨hordered, hbounded, hdisjoint⟩
    refine ⟨fun table htable => hordered table (hperm.mem_iff.mp htable),
      fun hcount table htable => hbounded hcount table (hperm.mem_iff.mp htable), ?_⟩
    rw [← hperm.pairwise_iff hsymm] at hdisjoint
    refine List.Pairwise.imp_of_mem (fun {left right} hl hr h hleft hright => ?_)
      (hpair.and hdisjoint)
    rcases h.2 hleft hright with hlt | hlt
    · exact hlt
    · -- The second table would start before the first one.
      have hle : left.smallestUserKey ≤ right.smallestUserKey := by
        rcases h.1 with hbool | ⟨-, hlt | ⟨heq, -⟩⟩
        · simp [hleft, hright] at hbool
        · exact hlt.le
        · exact heq.le
      have hspan := hordered right (hperm.mem_iff.mp hr) hright
      exact absurd (hspan.trans_lt hlt) (not_lt_of_ge hle)

lemma exists_levelState_new_iff :
    (∃ state, LevelState.new level tables = .ok state) ↔ level = 0 ∨ LevelOk tables := by
  unfold LevelState.new
  split_ifs with hzero
  · simp [hzero]
  · rw [← @validate_insertionSort_iff level tables]
    dsimp only
    split
    · next hvalid => simp [hvalid]
    · next error hvalid => simp [hvalid, hzero]

lemma LevelState.levelOk (state : LevelState) (hlevel : state.level ≠ 0) :
    LevelOk state.tables := by
  obtain ⟨hordered, hbounded, hascend⟩ := validateNonOverlappingTables_iff.mp (state.valid hlevel)
  rw [Option.toList_none, nil_append, pairwise_filter] at hascend
  exact ⟨hordered, hbounded, hascend.imp fun h hleft hright => Or.inl (h hleft hright)⟩

lemma LevelState.pairwise_tables (state : LevelState) (hlevel : state.level ≠ 0) :
    state.tables.Pairwise fun left right => left.largestUserKey < right.smallestUserKey := by
  obtain ⟨-, hbounded, hascend⟩ := validateNonOverlappingTables_iff.mp (state.valid hlevel)
  rw [Option.toList_none, nil_append, pairwise_filter] at hascend
  by_cases hcount : 1 < state.tables.length
  · exact hascend.imp_of_mem fun hleft hright h =>
      h (hbounded hcount _ hleft) (hbounded hcount _ hright)
  · match htables : state.tables with
    | [] => exact List.Pairwise.nil
    | [table] => exact pairwise_singleton _ _
    | _ :: _ :: _ => simp [htables] at hcount

end Check

/-! ## All levels -/

namespace LsmVersion

variable {version : LsmVersion} {tables : List Table}

def LevelsOk (tables : List Table) : Prop :=
  ∀ level, level ≠ 0 → LevelOk (tables.filter fun table => decide (table.level = level))

/-- Tables make a version exactly if those of every level below 0 can make a level. -/
lemma exists_new_iff : (∃ version, new tables = .ok version) ↔ LevelsOk tables := by
  constructor
  · rintro ⟨version, h⟩ level hne
    obtain ⟨states, hstates, -⟩ := bind_eq_ok.mp h
    by_cases hmem : level ∈ tables.map Table.level
    · have hin : level ∈ (tables.map Table.level).dedup.insertionSort (· ≤ ·) :=
        (mem_insertionSort _).mpr (mem_dedup.mpr hmem)
      obtain ⟨state, -, hstate⟩ :=
        exists_of_mem_right (forall₂_of_mapM_eq_ok hstates) hin
      exact (exists_levelState_new_iff.mp ⟨state, hstate⟩).resolve_left hne
    · rw [filter_eq_nil_iff.mpr fun table htable heq => hmem (mem_map.mpr
        ⟨table, htable, by simpa using heq⟩)]
      exact ⟨by simp, by simp, List.Pairwise.nil⟩
  · intro h
    have hmap : ∀ levels : List ℕ, ∃ states, (levels.mapM fun level =>
        LevelState.new level (tables.filter fun table => decide (table.level = level))) =
          .ok states := by
      intro levels
      induction levels with
      | nil => exact ⟨[], rfl⟩
      | cons level levels ih =>
        obtain ⟨states, hstates⟩ := ih
        obtain ⟨state, hstate⟩ := (@exists_levelState_new_iff level
          (tables.filter fun table => decide (table.level = level))).mpr
          (or_iff_not_imp_left.mpr (h level))
        exact ⟨state :: states, by rw [mapM_cons, hstate, hstates]; rfl⟩
    obtain ⟨states, hstates⟩ := hmap ((tables.map Table.level).dedup.insertionSort (· ≤ ·))
    exact ⟨⟨states⟩, by rw [new, hstates]; rfl⟩

lemma level_of_levelState_new {level : ℕ} {state : LevelState}
    (h : LevelState.new level tables = .ok state) : state.level = level := by
  unfold LevelState.new at h
  split_ifs at h
  · rw [← Except.ok.inj h]
  · dsimp only at h
    split at h
    · rw [← Except.ok.inj h]
    · cases h

/-- The tables of a level of a new version are all its tables of that level.

**Proof sketch.** Induction on the levels. The tables of a state have its level, and the levels are
distinct. -/
lemma filter_level_eq (h : new tables = .ok version) {state : LevelState}
    (hstate : state ∈ version.levels) :
    version.tables.filter (fun table => decide (table.level = state.level)) = state.tables := by
  obtain ⟨states, hstates, heq⟩ := bind_eq_ok.mp h
  obtain rfl := Except.ok.inj heq
  have hforall := forall₂_of_mapM_eq_ok hstates
  have hnodup : ((tables.map Table.level).dedup.insertionSort (· ≤ ·)).Nodup :=
    (perm_insertionSort _ _).nodup_iff.mpr (nodup_dedup _)
  have hlevelOf : ∀ {state : LevelState} {level : ℕ},
      LevelState.new level (tables.filter fun table => table.level = level) = .ok state →
        state.level = level ∧ ∀ table ∈ state.tables, table.level = level := fun hnew =>
    ⟨level_of_levelState_new hnew, fun table htable => by
      simpa using (mem_filter.mp ((perm_of_levelState_new hnew).mem_iff.mp htable)).2⟩
  show (states.flatMap LevelState.tables).filter _ = state.tables
  clear hstates h heq
  generalize (tables.map Table.level).dedup.insertionSort (· ≤ ·) = levels at hforall hnodup
  have hother : ∀ {rest : List LevelState}, (∀ other ∈ rest, other.level ≠ state.level ∧
      ∀ table ∈ other.tables, table.level = other.level) →
      (rest.flatMap LevelState.tables).filter (fun table => decide (table.level = state.level)) =
        [] := by
    intro rest hrest
    refine filter_eq_nil_iff.mpr fun table htable => ?_
    obtain ⟨other, hmem, hin⟩ := mem_flatMap.mp htable
    simpa [(hrest other hmem).2 table hin] using (hrest other hmem).1
  induction hforall with
  | nil => cases hstate
  | @cons first level rest levels hnew hrest ih =>
    obtain ⟨hfresh, hnodup⟩ := nodup_cons.mp hnodup
    rw [flatMap_cons, filter_append]
    have hlater : ∀ other ∈ rest, other.level ≠ level ∧
        ∀ table ∈ other.tables, table.level = other.level := by
      intro other hmem
      obtain ⟨otherLevel, hin, hotherNew⟩ := exists_of_mem_left hrest hmem
      obtain ⟨hlevel, hall⟩ := hlevelOf hotherNew
      exact ⟨fun heq => hfresh (heq ▸ hlevel ▸ hin), fun table htable => hlevel ▸ hall table htable⟩
    obtain ⟨hfirst, hall⟩ := hlevelOf hnew
    rcases mem_cons.mp hstate with rfl | hin
    · rw [hother (hfirst ▸ hlater), append_nil]
      exact filter_eq_self.mpr fun table htable => by simp [hall table htable, hfirst]
    · have hnone := @hother [first] (by
        simpa [hfirst] using ⟨(hlater state hin).1.symm, hall⟩)
      rw [flatMap_cons, flatMap_nil, append_nil] at hnone
      rw [hnone, nil_append]
      exact ih hin hnodup

lemma levelsOk_of_new (h : new tables = .ok version) : LevelsOk version.tables := by
  intro level hlevel
  by_cases hstate : ∃ state ∈ version.levels, state.level = level
  · obtain ⟨state, hmem, rfl⟩ := hstate
    rw [filter_level_eq h hmem]
    exact state.levelOk hlevel
  · have hnone : version.tables.filter (fun table => decide (table.level = level)) = [] := by
      refine filter_eq_nil_iff.mpr fun table htable heq => hstate ?_
      obtain ⟨state, hmem, hin⟩ := mem_flatMap.mp htable
      rw [← filter_level_eq h hmem, mem_filter] at hin
      exact ⟨state, hmem, (of_decide_eq_true hin.2).symm.trans (of_decide_eq_true heq)⟩
    rw [hnone]
    exact ⟨by simp, by simp, List.Pairwise.nil⟩

/-! ## Lookups by key -/

def withAddedL0Table (version : LsmVersion) (table : Table) : Except Error LsmVersion :=
  if table.level ≠ 0 then
    .error (.corruption ("flush table " ++ toString table.id ++ " was not written to L0"))
  else new (version.tables ++ [table])

inductive Call where
  | addL0Table (table : Table)
  | replaceTables (inputTableIds : List ℕ) (outputTables : List Table)

def step (version : LsmVersion) : Call → Option LsmVersion
  | .addL0Table table => (version.withAddedL0Table table).toOption
  | .replaceTables inputTableIds outputTables =>
    ((version.withReplacedTables inputTableIds outputTables).map Prod.fst).toOption

lemma exists_new_of_step {after : LsmVersion} {call : Call} (h : version.step call = some after) :
    ∃ tables, new tables = .ok after := by
  cases call with
  | addL0Table table =>
    have hadd := toOption_eq_some.mp h
    unfold withAddedL0Table at hadd
    split_ifs at hadd
    exact ⟨_, hadd⟩
  | replaceTables inputTableIds outputTables =>
    have hmap := toOption_eq_some.mp h
    cases hreplaced : version.withReplacedTables inputTableIds outputTables with
    | error error => simp [hreplaced, Except.map] at hmap
    | ok result =>
      obtain rfl : result.1 = after := by simpa [hreplaced, Except.map] using hmap
      unfold withReplacedTables at hreplaced
      dsimp only at hreplaced
      split_ifs at hreplaced
      obtain ⟨replaced, hnew, heq⟩ := bind_eq_ok.mp hreplaced
      obtain rfl := Except.ok.inj heq
      exact ⟨_, hnew⟩

/-- In every version that calls lead to, the tables of a level below 0 are those of the version with
that level, their recorded spans ascend without overlap, and the lookup of a key finds exactly the
table whose span admits the key. It finds every table that holds something about the key exactly if
no table of the level has both records and a half-infinite range deletion, unless it holds nothing but
the empty key. -/
theorem lookups_of_run {tables : List Table} {created version : LsmVersion} {calls : List Call}
    (hnew : new tables = .ok created) (hrun : Runs.run step created calls = some version) :
    ∀ state ∈ version.levels, state.level ≠ 0 →
      version.tables.filter (fun table => decide (table.level = state.level)) = state.tables ∧
      state.tables.Pairwise (fun left right => left.largestUserKey < right.smallestUserKey) ∧
      (∀ key table, state.tableForKey key = some table ↔
        table ∈ state.tables ∧ table.keyBoundsMayContainKey key = true) ∧
      ((∀ table ∈ state.tables, table.misbounded = false ∨ ∀ key, table.Holds key → key = []) ↔
        ∀ key, ∀ table ∈ state.tables, table.Holds key → state.tableForKey key = some table) := by
  obtain ⟨tables', hnew'⟩ : ∃ tables, new tables = .ok version :=
    Runs.invariant_of_step (fun _ _ _ _ _ hstep => exists_new_of_step hstep) ⟨tables, hnew⟩ hrun
      (Runs.meets_of_forall (fun _ _ => trivial) _ _)
  intro state hstate hlevel
  have hfound : ∀ key table, state.tableForKey key = some table ↔
      table ∈ state.tables ∧ table.keyBoundsMayContainKey key = true := by
    intro key table
    rw [← Option.mem_toList, state.toList_tableForKey hlevel, mem_filter]
  refine ⟨filter_level_eq hnew' hstate, state.pairwise_tables hlevel, hfound,
    (forall₂_congr fun table _ => Table.neverSkipped_iff.symm).trans ?_⟩
  constructor
  · intro hskip key table htable hholds
    exact (hfound key table).mpr ⟨htable, (hskip table htable).1 key hholds⟩
  · intro hfinds table htable
    have hkeys : ∀ key, table.Holds key → table.keyBoundsMayContainKey key = true :=
      fun key hholds => ((hfound key table).mp (hfinds key table htable hholds)).2
    exact ⟨hkeys, fun range key hin hholds =>
      Table.keyBoundsOverlapRange_of_mayContainKey hin (hkeys key hholds)⟩

def afterMove (table : Table) : Option LsmVersion :=
  Runs.run step ⟨[]⟩ [.addL0Table table, .replaceTables [table.id] [{ table with level := 1 }]]

def recordTable : Table :=
  { Table.mixedTable with rangeTombstones := RangeTombstoneIndex.new [], nonempty := by decide }

theorem lookups_of_run_record : ∃ version, afterMove recordTable = some version ∧
    ∃ state ∈ version.levels, state.level = 1 ∧
      ∀ key, ∀ table ∈ state.tables, table.Holds key → state.tableForKey key = some table := by
  have hmoved : (afterMove recordTable).map (fun version =>
      version.levels.map fun state => (state.level, state.tables.map Table.misbounded)) =
      some [(1, [false])] := by decide +kernel
  obtain ⟨version, hrun, hlevels⟩ := Option.map_eq_some_iff.mp hmoved
  obtain ⟨state, rest, hstates, hstate, -⟩ := map_eq_cons_iff.mp hlevels
  have hmem : state ∈ version.levels := hstates ▸ mem_cons_self
  obtain ⟨hlevel, hbounds⟩ := Prod.mk.inj hstate
  exact ⟨version, hrun, state, hmem, hlevel,
    (lookups_of_run (rfl : new [] = .ok ⟨[]⟩) hrun state hmem (by simp [hlevel])).2.2.2.mp
      fun table htable => Or.inl (mem_singleton.mp (hbounds ▸ mem_map_of_mem htable))⟩

theorem afterMove_mixedTable :
    Table.mixedTable.Holds [97] ∧
      (afterMove Table.mixedTable).map (fun version => version.levels.map fun state =>
        (state.level, state.tables.map Table.pointRecords, (state.tableForKey [97]).map Table.id)) =
      some [(1, [Table.mixedTable.pointRecords], none)] :=
  ⟨Or.inl ⟨_, mem_cons_self, rfl⟩, by decide +kernel⟩

end LsmVersion

end TrineKv
