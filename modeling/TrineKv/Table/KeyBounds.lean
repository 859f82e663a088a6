import TrineKv.Table.Layout

/-!
# What the recorded key bounds of a table say

Readers skip a table whose recorded bounds miss a key or a range. The pair of empty keys stands for
a table without usable bounds if it has no data blocks; otherwise it is taken literally, as the
bounds of a table with the empty key only.

## Main results

* `boundsSound_iff`: when the bounds are sound.
* `mixedTable_not_boundsSound`: a table whose bounds are not.
-/

namespace TrineKv.Table

open List

variable {table : Table}

def Holds (table : Table) (key : Key) : Prop :=
  (∃ record ∈ table.pointRecords, record.userKey = key) ∨
    ∃ tombstone ∈ table.rangeTombstones.all, keyIsInRange key tombstone.range = true

def NeverSkipped (table : Table) : Prop :=
  (∀ key, table.Holds key → table.keyBoundsMayContainKey key = true) ∧
    ∀ range key, keyIsInRange key range = true → table.Holds key →
      table.keyBoundsOverlapRange range = true

/-- The bounds are answered with yes, by each of the three questions, for everything that the table
holds. -/
def BoundsSound (table : Table) : Prop :=
  (∀ key, table.Holds key →
    table.hasKeyBounds = true ∧ table.keyBoundsMayContainKey key = true) ∧
  ∀ range key, keyIsInRange key range = true → table.Holds key →
    table.hasKeyBounds = true ∧ table.keyBoundsOverlapRange range = true

/-- One of the tombstones has no finite span. -/
def hasUnboundedTombstone (table : Table) : Bool :=
  table.rangeTombstones.all.any RangeTombstone.unboundedSide

def endsAboveEmptyKey (table : Table) : Bool :=
  table.rangeTombstones.all.any fun tombstone =>
    decide (finiteBoundBytes tombstone.range.end_ ≠ some [])

/-! ## Bounds in use -/

lemma hasKeyBounds_of_records (h : table.pointRecords ≠ []) : table.hasKeyBounds = true := by
  have hcount : table.dataBlockCount ≠ 0 := fun hzero => h (dataBlockCount_eq_zero.mp hzero)
  simp [hasKeyBounds, hcount]

lemma hasKeyBounds_of_no_records (h : table.pointRecords = []) :
    table.hasKeyBounds = true ↔ ¬(table.smallestUserKey = [] ∧ table.largestUserKey = []) := by
  simp [hasKeyBounds, dataBlockCount_eq_zero.mpr h]
  tauto

lemma eq_nil_of_le_nil {key : Key} (h : key ≤ []) : key = [] := by
  cases key with
  | nil => rfl
  | cons byte rest => exact absurd h (ByteOrder.not_cons_le_nil byte rest)

lemma extendKeyBounds_largest {tombstones : List RangeTombstone} {smallest largest s l : Option Key}
    (hends : ∀ t ∈ tombstones, finiteBoundBytes t.range.end_ = some [])
    (hlargest : ∀ key ∈ largest, key = [])
    (h : extendKeyBounds smallest largest tombstones = some (s, l)) : ∀ key ∈ l, key = [] := by
  induction tombstones generalizing smallest largest with
  | nil =>
    obtain ⟨-, rfl⟩ := Prod.mk.inj (Option.some.inj h)
    exact hlargest
  | cons tombstone tombstones ih =>
    rw [extendKeyBounds, hends tombstone mem_cons_self] at h
    split at h
    · next start end_ _ hend =>
      cases hend
      refine ih (fun t ht => hends t (mem_cons_of_mem _ ht)) (fun key hkey => ?_) h
      cases largest with
      | none => simpa [updateLargest] using hkey.symm
      | some old =>
        obtain rfl : old = [] := hlargest old rfl
        simpa [updateLargest] using hkey.symm
    · cases h

lemma forall_not_unboundedSide (h : table.hasUnboundedTombstone = false) :
    ∀ t ∈ table.rangeTombstones.all, t.unboundedSide = false := by
  simpa [hasUnboundedTombstone, any_eq_false] using h

lemma largestUserKey_eq_nil (hrecords : table.pointRecords = [])
    (hfinite : table.hasUnboundedTombstone = false) (hends : table.endsAboveEmptyKey = false) :
    table.largestUserKey = [] := by
  have hall : ∀ t ∈ table.rangeTombstones.all, finiteBoundBytes t.range.end_ = some [] := by
    simpa [endsAboveEmptyKey, any_eq_false] using hends
  obtain ⟨s, l, heq, -⟩ := extendKeyBounds_spec (forall_not_unboundedSide hfinite) none none
  have hlargest := extendKeyBounds_largest hall (by simp) heq
  have hbounds : table.keyBounds = tableKeyBounds [] table.rangeTombstones.all := by
    rw [keyBounds, hrecords]
  rw [largestUserKey, hbounds, tableKeyBounds, List.head?_nil, List.getLast?_nil, Option.map_none,
    heq]
  cases s with
  | none => rfl
  | some low =>
    cases l with
    | none => rfl
    | some high => exact hlargest high rfl

lemma largestUserKey_ne_nil (hfinite : table.hasUnboundedTombstone = false)
    (hends : table.endsAboveEmptyKey = true) : table.largestUserKey ≠ [] := by
  obtain ⟨tombstone, hmem, hend⟩ := any_eq_true.mp hends
  obtain ⟨s, l, heq, -, -, hall⟩ := extendKeyBounds_spec (forall_not_unboundedSide hfinite)
    (table.pointRecords.head?.map PointRecord.userKey)
    (table.pointRecords.getLast?.map PointRecord.userKey)
  obtain ⟨start, end_, low, high, -, he, rfl, rfl, -, hhigh⟩ := hall tombstone hmem
  have hlargest : table.largestUserKey = high := by
    rw [largestUserKey, keyBounds, tableKeyBounds, heq]
  rw [hlargest]
  rintro rfl
  rw [he, eq_nil_of_le_nil hhigh] at hend
  simp at hend

lemma hasKeyBounds_iff {key : Key} (hkey : table.Holds key) :
    table.hasKeyBounds = true ↔ table.pointRecords ≠ [] ∨
      table.hasUnboundedTombstone = false ∧ table.endsAboveEmptyKey = true := by
  by_cases hrecords : table.pointRecords = []
  · rw [hasKeyBounds_of_no_records hrecords]
    obtain ⟨tombstone, hmem, hcovers⟩ : ∃ t ∈ table.rangeTombstones.all,
        keyIsInRange key t.range = true := by simpa [Holds, hrecords] using hkey
    cases hfinite : table.hasUnboundedTombstone with
    | true =>
      have hbounds := keyBounds_of_unbounded hfinite
      simp [smallestUserKey, largestUserKey, hbounds, hrecords]
    | false =>
      cases hends : table.endsAboveEmptyKey with
      | true => simp [largestUserKey_ne_nil hfinite hends]
      | false =>
        have hlargest := largestUserKey_eq_nil hrecords hfinite hends
        obtain ⟨hlow, hhigh⟩ := tombstone_between hfinite hmem hcovers
        rw [hlargest] at hhigh
        have hsmallest := eq_nil_of_le_nil (hlow.trans hhigh)
        simp [hsmallest, hlargest, hrecords]
  · simp [hasKeyBounds_of_records hrecords, hrecords]

/-! ## Skipping -/

lemma keyBoundsMayContainKey_of_holds {key : Key} (h : table.misbounded = false)
    (hkey : table.Holds key) : table.keyBoundsMayContainKey key = true := by
  rcases hkey with ⟨record, hmem, rfl⟩ | ⟨tombstone, hmem, hcovers⟩
  · exact keyBoundsMayContainKey_of_record h hmem
  · exact keyBoundsMayContainKey_of_tombstone h hmem hcovers

lemma neverSkipped_iff :
    table.NeverSkipped ↔ table.misbounded = false ∨ ∀ key, table.Holds key → key = [] := by
  constructor
  · rintro ⟨hkeys, -⟩
    cases h : table.misbounded with
    | false => exact .inl rfl
    | true =>
      refine .inr fun key hkey => ?_
      have hmay := hkeys key hkey
      rw [keyBoundsMayContainKey_of_misbounded h] at hmay
      exact of_decide_eq_true hmay
  · intro h
    have hkeys : ∀ key, table.Holds key → table.keyBoundsMayContainKey key = true := by
      intro key hkey
      cases hbounded : table.misbounded with
      | false => exact keyBoundsMayContainKey_of_holds hbounded hkey
      | true =>
        rw [hbounded] at h
        rw [keyBoundsMayContainKey_of_misbounded hbounded]
        exact decide_eq_true (h.resolve_left (by decide) key hkey)
    exact ⟨hkeys, fun range key hrange hkey =>
      keyBoundsOverlapRange_of_mayContainKey hrange (hkeys key hkey)⟩

/-- For every table, with or without records, half-infinite tombstones and empty keys: readers do not
skip it wrongly exactly when it does not have both records and a half-infinite tombstone, or holds
nothing but the empty key; and all three questions about its bounds are answered with yes for
everything that it holds exactly when, moreover, a table without records has finite tombstones only
and one of them ends at another key than the empty one. -/
theorem boundsSound_iff (table : Table) :
    (table.NeverSkipped ↔ table.misbounded = false ∨ ∀ key, table.Holds key → key = []) ∧
      (table.BoundsSound ↔ table.NeverSkipped ∧ ∀ key, table.Holds key →
        table.pointRecords ≠ [] ∨
          table.hasUnboundedTombstone = false ∧ table.endsAboveEmptyKey = true) := by
  refine ⟨neverSkipped_iff, ?_⟩
  constructor
  · rintro ⟨hkeys, hranges⟩
    exact ⟨⟨fun key hkey => (hkeys key hkey).2, fun range key hrange hkey =>
      (hranges range key hrange hkey).2⟩, fun key hkey => (hasKeyBounds_iff hkey).mp (hkeys key hkey).1⟩
  · rintro ⟨⟨hkeys, hranges⟩, hhas⟩
    exact ⟨fun key hkey => ⟨(hasKeyBounds_iff hkey).mpr (hhas key hkey), hkeys key hkey⟩,
      fun range key hrange hkey =>
        ⟨(hasKeyBounds_iff hkey).mpr (hhas key hkey), hranges range key hrange hkey⟩⟩

def mixedTable : Table where
  id := 1
  level := 0
  options := ⟨4096, .disabled, .disabled, .disabled, .uniform⟩
  residence := .written
  pointRecords :=
    [{ internalKey :=
        { userKey := [97], sequence := 1, kind := .pointDelete, batchIndex := 0
          sequence_le := one_le_maxSequence }
       value := none }]
  rangeTombstones := RangeTombstoneIndex.new [⟨⟨.included [120], .unbounded⟩, 2, 0⟩]
  sorted := by decide
  nonempty := by decide

/-- Readers skip the table for the key `a`, of which it has a record, and for the key `x`, which its
tombstone covers. -/
theorem mixedTable_not_boundsSound :
    (mixedTable.Holds [97] ∧ mixedTable.keyBoundsMayContainKey [97] = false) ∧
      (mixedTable.Holds [120] ∧ mixedTable.keyBoundsMayContainKey [120] = false) ∧
        ¬mixedTable.NeverSkipped ∧ ¬mixedTable.BoundsSound := by
  have hholds : mixedTable.Holds [97] := Or.inl ⟨_, mem_cons_self, rfl⟩
  have hskipped : mixedTable.keyBoundsMayContainKey [97] = false := by decide +kernel
  have hcovers : mixedTable.Holds [120] :=
    Or.inr ⟨_, mem_cons_self, by decide⟩
  refine ⟨⟨hholds, hskipped⟩, ⟨hcovers, by decide +kernel⟩, fun h => ?_, fun h => ?_⟩
  · simpa [hskipped] using h.1 _ hholds
  · simpa [hskipped] using (h.1 _ hholds).2

end TrineKv.Table
