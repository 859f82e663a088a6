import TrineKv.Lib.Newest
import TrineKv.Lsm.PointRead

/-!
# What a point read should return

A version of a key and a range deletion over it are changes of the key. What a reader should get
is the value of the newest version it sees, if that is a put and no newer range deletion that it
sees covers the key. Equivalently, the newest change decides: a put gives its value, anything else
gives nothing.

## Main results

* `Replaceable.survives_iff`: replacing changes keeps the answer.
-/

namespace TrineKv

open List

variable {record : PointRecord}

/-- The value of the newest of the versions if it is a put and no range deletion is newer. -/
def expectedPointValue (blobs : Option BlobReader) (versions : List PointRecord)
    (tombstones : List RangeTombstone) : Except Error (Option (List UInt8)) :=
  match versions.argmax PointRecord.stamp with
  | none => .ok none
  | some newest =>
    if newest.kind = .put ∧ ∀ tombstone ∈ tombstones, ¬newest.stamp < tombstone.stamp then
      (pointValue blobs newest).map some
    else .ok none

/-- What a reader gets from a version, unless one of the range deletions is newer. -/
def candidateValue (blobs : Option BlobReader) (tombstones : List RangeTombstone)
    (record : PointRecord) : Except Error (Option (List UInt8)) :=
  if record.kind = .put ∧ ∀ tombstone ∈ tombstones, ¬record.stamp < tombstone.stamp then
    (pointValue blobs record).map some
  else .ok none

inductive Change where
  | version (record : PointRecord)
  | deletion (tombstone : RangeTombstone)
  deriving DecidableEq, Repr

namespace Change

def stamp : Change → Stamp
  | .version record => record.stamp
  | .deletion tombstone => tombstone.stamp

def outcome (blobs : Option BlobReader) : Change → Except Error (Option (List UInt8))
  | .version record => if record.kind = .put then (pointValue blobs record).map some else .ok none
  | .deletion _ => .ok none

def answer (blobs : Option BlobReader) : Option Change → Except Error (Option (List UInt8))
  | none => .ok none
  | some change => change.outcome blobs

end Change

def changesOf (versions : List PointRecord) (tombstones : List RangeTombstone) : List Change :=
  versions.map .version ++ tombstones.map .deletion

@[simp]
lemma version_mem_changesOf {versions : List PointRecord} {tombstones : List RangeTombstone}
    : .version record ∈ changesOf versions tombstones ↔ record ∈ versions := by
  simp [changesOf]

@[simp]
lemma deletion_mem_changesOf {versions : List PointRecord} {tombstones : List RangeTombstone}
    {tombstone : RangeTombstone} :
    .deletion tombstone ∈ changesOf versions tombstones ↔ tombstone ∈ tombstones := by
  simp [changesOf]

/-- No two of the changes have the same age. -/
def DistinctStamps (changes : List Change) : Prop :=
  ∀ left ∈ changes, ∀ right ∈ changes, left.stamp = right.stamp → left = right

instance (changes : List Change) : Decidable (DistinctStamps changes) :=
  inferInstanceAs (Decidable (∀ left ∈ changes, ∀ right ∈ changes,
    left.stamp = right.stamp → left = right))

lemma DistinctStamps.mono {changes more : List Change} (h : DistinctStamps more)
    (hsub : changes ⊆ more) : DistinctStamps changes :=
  fun left hl right hr heq => h left (hsub hl) right (hsub hr) heq

section Expected

variable {versions : List PointRecord} {tombstones : List RangeTombstone}

lemma argmax_versions (h : DistinctStamps (changesOf versions tombstones))
    (hmem : record ∈ versions) (hmax : ∀ other ∈ versions, other.stamp ≤ record.stamp) :
    versions.argmax PointRecord.stamp = some record := by
  refine Newest.argmax_eq_some hmem hmax fun other hother heq => ?_
  have := h (.version other) (by simpa using hother) (.version record) (by simpa using hmem) heq
  exact Change.version.inj this

theorem expectedPointValue_eq_answer (blobs : Option BlobReader)
    (h : DistinctStamps (changesOf versions tombstones)) :
    expectedPointValue blobs versions tombstones =
      Change.answer blobs ((changesOf versions tombstones).argmax Change.stamp) := by
  cases hnewest : (changesOf versions tombstones).argmax Change.stamp with
  | none =>
    have hnil : changesOf versions tombstones = [] := argmax_eq_none.mp hnewest
    have hversions : versions = [] := by
      simpa using (append_eq_nil_iff.mp hnil).1
    rw [hversions]
    rfl
  | some change =>
    obtain ⟨hmem, hmax⟩ := Newest.le_of_argmax_eq_some hnewest
    have hversion : ∀ record ∈ versions, record.stamp ≤ change.stamp := fun record hrecord =>
      hmax (.version record) (by simpa using hrecord)
    cases change with
    | version record =>
      rw [version_mem_changesOf] at hmem
      rw [expectedPointValue, argmax_versions h hmem hversion]
      have hnone : ∀ tombstone ∈ tombstones, ¬record.stamp < tombstone.stamp :=
        fun tombstone ht => not_lt_of_ge (hmax (.deletion tombstone) (by simpa using ht))
      exact if_congr (and_iff_left hnone) rfl rfl
    | deletion tombstone =>
      rw [deletion_mem_changesOf] at hmem
      rw [expectedPointValue]
      cases hpoint : versions.argmax PointRecord.stamp with
      | none => rfl
      | some record =>
        -- The deletion is newer than the newest version: their ages differ.
        have hrecord := argmax_mem hpoint
        have hle := hversion record hrecord
        have hlt : record.stamp < tombstone.stamp := by
          refine lt_of_le_of_ne hle fun heq => ?_
          have := h (.version record) (by simpa using hrecord) (.deletion tombstone)
            (by simpa using hmem) heq
          cases this
        show (if record.kind = .put ∧ _ then _ else _) = Except.ok none
        rw [if_neg]
        exact fun hput => hput.2 tombstone hmem hlt

end Expected

/-! ## Replacing a part of the changes -/

section Replacement

/-- The put is what a reader gets: it is the newest version, and no range deletion is newer. -/
structure Survives (versions : List PointRecord) (tombstones : List RangeTombstone)
    (record : PointRecord) : Prop where
  mem : record ∈ versions
  put : record.kind = .put
  newest : ∀ other ∈ versions, other.stamp ≤ record.stamp
  not_deleted : ∀ tombstone ∈ tombstones, ¬record.stamp < tombstone.stamp

/-- What a reader should get depends on the surviving put only.

**Proof sketch.** If a put survives on both sides, it is the newest version on both sides. If none
does, the newest version of each side is no put or is deleted. -/
lemma expectedPointValue_eq_of_survives_iff (blobs : Option BlobReader)
    {versions versions' : List PointRecord} {tombstones tombstones' : List RangeTombstone}
    (hdistinct : DistinctStamps (changesOf versions []))
    (hdistinct' : DistinctStamps (changesOf versions' []))
    (h : ∀ record, Survives versions tombstones record ↔ Survives versions' tombstones' record) :
    expectedPointValue blobs versions tombstones =
      expectedPointValue blobs versions' tombstones' := by
  have hvalue : ∀ {versions tombstones record}, DistinctStamps (changesOf versions []) →
      Survives versions tombstones record →
      expectedPointValue blobs versions tombstones = (pointValue blobs record).map some := by
    intro versions tombstones record hdistinct hrecord
    rw [expectedPointValue, argmax_versions hdistinct hrecord.mem hrecord.newest]
    exact if_pos ⟨hrecord.put, hrecord.not_deleted⟩
  have hnone : ∀ {versions tombstones}, (¬∃ record, Survives versions tombstones record) →
      expectedPointValue blobs versions tombstones = .ok none := by
    intro versions tombstones hnot
    rw [expectedPointValue]
    cases hnewest : versions.argmax PointRecord.stamp with
    | none => rfl
    | some newest =>
      obtain ⟨hmem, hmax⟩ := Newest.le_of_argmax_eq_some hnewest
      exact if_neg fun hput => hnot ⟨newest, hmem, hput.1, hmax, hput.2⟩
  by_cases hsome : ∃ record, Survives versions tombstones record
  · obtain ⟨record, hrecord⟩ := hsome
    rw [hvalue hdistinct hrecord, hvalue hdistinct' ((h record).mp hrecord)]
  · have hsome' : ¬∃ record, Survives versions' tombstones' record := fun ⟨record, hrecord⟩ =>
      hsome ⟨record, (h record).mpr hrecord⟩
    rw [hnone hsome, hnone hsome']

lemma survives_congr {versions versions' : List PointRecord}
    {tombstones tombstones' : List RangeTombstone}
    (hversions : ∀ other, other ∈ versions ↔ other ∈ versions')
    (htombstones : ∀ tombstone, tombstone ∈ tombstones ↔ tombstone ∈ tombstones') :
    Survives versions tombstones record ↔ Survives versions' tombstones' record := by
  constructor
  · rintro ⟨hmem, hput, hnewest, halive⟩
    exact ⟨(hversions record).mp hmem, hput, fun other h => hnewest other ((hversions other).mpr h),
      fun tombstone h => halive tombstone ((htombstones tombstone).mpr h)⟩
  · rintro ⟨hmem, hput, hnewest, halive⟩
    exact ⟨(hversions record).mpr hmem, hput, fun other h => hnewest other ((hversions other).mp h),
      fun tombstone h => halive tombstone ((htombstones tombstone).mp h)⟩

variable {rest old new : List PointRecord} {restTombstones oldTombstones newTombstones :
  List RangeTombstone}

structure Replaceable (rest old new : List PointRecord)
    (oldTombstones newTombstones : List RangeTombstone) : Prop where
  subset : new ⊆ old
  tombstone_of_new : ∀ tombstone ∈ newTombstones, ∃ other ∈ oldTombstones,
    other.stamp = tombstone.stamp
  kept : ∀ record ∈ old, record ∈ new ∨ (∃ other ∈ old, record.stamp < other.stamp) ∨
    (∃ tombstone ∈ oldTombstones, record.stamp < tombstone.stamp) ∨
      record.kind ≠ .put ∧ ∀ put ∈ rest ++ new, put.kind = .put → record.stamp ≤ put.stamp
  still_deleted : ∀ tombstone ∈ oldTombstones, ∀ put ∈ rest ++ new, put.kind = .put →
    put.stamp < tombstone.stamp → ∃ other ∈ newTombstones, put.stamp < other.stamp

/-- A put survives the old changes if and only if it survives the new ones.

**Proof sketch.** A put that survives the old changes has not been dropped: it is neither
superseded nor deleted. Conversely, suppose that a put survives the new changes, but an old change
is newer. Then take the newest change of all. It is not among the rest or the new changes. If it is
a dropped version, it is not superseded, so it is a deletion that is older than the put. If it is a
range deletion, a new range deletion is newer than the put. -/
lemma Replaceable.survives_iff (h : Replaceable rest old new oldTombstones newTombstones)
    :
    Survives (rest ++ old) (restTombstones ++ oldTombstones) record ↔
      Survives (rest ++ new) (restTombstones ++ newTombstones) record := by
  constructor
  · rintro ⟨hmem, hput, hnewest, halive⟩
    refine ⟨?_, hput, fun other hother => ?_, fun tombstone htombstone hlt => ?_⟩
    · rcases mem_append.mp hmem with hmem | hmem
      · exact mem_append_left _ hmem
      · rcases h.kept record hmem with hkept | ⟨other, hother, hlt⟩ | ⟨t, ht, hlt⟩ | ⟨hkind, -⟩
        · exact mem_append_right _ hkept
        · exact absurd hlt (not_lt_of_ge (hnewest other (mem_append_right _ hother)))
        · exact absurd hlt (halive t (mem_append_right _ ht))
        · exact absurd hput hkind
    · rcases mem_append.mp hother with hother | hother
      · exact hnewest other (mem_append_left _ hother)
      · exact hnewest other (mem_append_right _ (h.subset hother))
    · rcases mem_append.mp htombstone with htombstone | htombstone
      · exact halive tombstone (mem_append_left _ htombstone) hlt
      · obtain ⟨other, hother, heq⟩ := h.tombstone_of_new tombstone htombstone
        exact halive other (mem_append_right _ hother) (heq ▸ hlt)
  · rintro ⟨hmem, hput, hnewest, halive⟩
    have hmem' : record ∈ rest ++ old := by
      rcases mem_append.mp hmem with hmem | hmem
      · exact mem_append_left _ hmem
      · exact mem_append_right _ (h.subset hmem)
    set changes := changesOf (rest ++ old) (restTombstones ++ oldTombstones) with hchanges
    -- No change is newer than the put.
    have hall : ∀ change ∈ changes, change.stamp ≤ record.stamp := by
      cases hmax : changes.argmax Change.stamp with
      | none => simp [argmax_eq_none.mp hmax]
      | some change =>
        obtain ⟨hchange, hle⟩ := Newest.le_of_argmax_eq_some hmax
        have hversion : ∀ other ∈ old, other.stamp ≤ change.stamp := fun other hother =>
          hle (.version other) (version_mem_changesOf.mpr (mem_append_right _ hother))
        have hdeletion : ∀ t ∈ oldTombstones, t.stamp ≤ change.stamp := fun t ht =>
          hle (.deletion t) (deletion_mem_changesOf.mpr (mem_append_right _ ht))
        suffices hbound : change.stamp ≤ record.stamp from
          fun other hother => (hle other hother).trans hbound
        by_contra hnot
        have hlt := not_le.mp hnot
        cases change with
        | version other =>
          rcases mem_append.mp (version_mem_changesOf.mp hchange) with hother | hother
          · exact hnot (hnewest other (mem_append_left _ hother))
          · rcases h.kept other hother with hkept | ⟨newer, hnewer, hlt'⟩ | ⟨t, ht, hlt'⟩ |
              ⟨-, holder⟩
            · exact hnot (hnewest other (mem_append_right _ hkept))
            · exact absurd hlt' (not_lt_of_ge (hversion newer hnewer))
            · exact absurd hlt' (not_lt_of_ge (hdeletion t ht))
            · exact hnot (holder record hmem hput)
        | deletion t =>
          rcases mem_append.mp (deletion_mem_changesOf.mp hchange) with ht | ht
          · exact halive t (mem_append_left _ ht) hlt
          · obtain ⟨other, hother, hlt'⟩ := h.still_deleted t ht record hmem hput hlt
            exact halive other (mem_append_right _ hother) hlt'
    refine ⟨hmem', hput, fun other hother => ?_, fun tombstone htombstone => ?_⟩
    · exact hall (.version other) (version_mem_changesOf.mpr hother)
    · exact not_lt_of_ge (hall (.deletion tombstone) (deletion_mem_changesOf.mpr htombstone))

end Replacement

end TrineKv
