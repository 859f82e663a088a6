import TrineKv.Keys.Range

/-!
# Internal keys and point records

A point record is one version of a user key: its internal key (user key, commit sequence, kind
and index in the batch) with the value a put stores. Internal keys are sorted by user key, and
among the versions of one user key the newest comes first.

## Main results

* `InternalKey.lt_iff`: the order of versions.
-/

namespace TrineKv

open List

/-- The durability that a commit asks for. -/
inductive DurabilityMode where
  | buffered
  | flush
  | syncData
  | syncAll
  | syncAllStrict
  deriving DecidableEq, Repr

/-- Errors of the storage engine, as far as the modelled code raises them. -/
inductive Error where
  | corruption (message : String)
  | invalidFormat (message : String)
  | unsupportedFormat (message : String)
  | invalidOptions (message : String)
  | conflict (message : String)
  | bucketMissing (name : String)
  | fenced (heldEpoch currentEpoch : UInt64)
  | leaseUnavailable (resource : String)
  | runtimeBusy (message : String)
  | readVersionTooNew (requested latest : ℕ)
  | readVersionExpired (requested oldestRetained : ℕ)
  | io (message : String)
  deriving DecidableEq, Repr

/-- The greatest commit sequence, `u64::MAX`. -/
def maxSequence : ℕ := 2 ^ 64 - 1

def maxBatchIndex : ℕ := 2 ^ 32 - 1

lemma one_le_maxSequence : 1 ≤ maxSequence := by decide

/-- What a version says about its key. -/
inductive ValueKind where
  | put
  | pointDelete
  | rangeDelete
  deriving DecidableEq, Repr

def ValueKind.rank : ValueKind → ℕ
  | .put => 0
  | .pointDelete => 1
  | .rangeDelete => 2

lemma ValueKind.rank_injective : Function.Injective ValueKind.rank := by
  intro a b h
  cases a <;> cases b <;> simp_all [ValueKind.rank]

/-- The key of a version. The sequence is a 64-bit and the batch index a 32-bit number. -/
structure InternalKey where
  userKey : Key
  sequence : ℕ
  kind : ValueKind
  batchIndex : ℕ
  sequence_le : sequence ≤ maxSequence := by decide
  batchIndex_le : batchIndex ≤ maxBatchIndex := by first | exact Nat.zero_le _ | decide
  deriving DecidableEq, Repr

/-- Sequences and batch indices descend. -/
def compareInternalKeys (left right : InternalKey) : Ordering :=
  (compareKeys left.userKey right.userKey).then <|
    (compare right.sequence left.sequence).then <|
      (compare right.batchIndex left.batchIndex).then
        (compare left.kind.rank right.kind.rank)

namespace InternalKey

def rank (key : InternalKey) : Key ×ₗ ℕᵒᵈ ×ₗ ℕᵒᵈ ×ₗ ℕ :=
  toLex (key.userKey, toLex (OrderDual.toDual key.sequence,
    toLex (OrderDual.toDual key.batchIndex, key.kind.rank)))

lemma rank_injective : Function.Injective rank := by
  intro a b h
  simp only [rank, EmbeddingLike.apply_eq_iff_eq, Prod.mk.injEq] at h
  obtain ⟨hkey, hseq, hbatch, hkind⟩ := h
  have hkind' := ValueKind.rank_injective hkind
  cases a
  cases b
  simp_all

lemma compareInternalKeys_eq (left right : InternalKey) :
    compareInternalKeys left right = cmp left.rank right.rank := by
  apply eq_cmp_of_iff
  · simp [compareInternalKeys, rank, Ordering.then_eq_lt, Prod.Lex.toLex_lt_toLex,
      Nat.compare_eq_lt, @eq_comm ℕ right.sequence, @eq_comm ℕ right.batchIndex]
  · simp [compareInternalKeys, rank, Ordering.then_eq_gt, Prod.Lex.toLex_lt_toLex,
      Nat.compare_eq_gt, @eq_comm Key right.userKey]

instance : LE InternalKey := ⟨fun left right => compareInternalKeys left right ≠ .gt⟩

instance : LT InternalKey := ⟨fun left right => compareInternalKeys left right = .lt⟩

lemma le_iff_rank {left right : InternalKey} : left ≤ right ↔ left.rank ≤ right.rank := by
  show compareInternalKeys left right ≠ .gt ↔ _
  rw [compareInternalKeys_eq, ne_eq, cmp_eq_gt_iff, not_lt]

lemma lt_iff_rank {left right : InternalKey} : left < right ↔ left.rank < right.rank := by
  show compareInternalKeys left right = .lt ↔ _
  rw [compareInternalKeys_eq, cmp_eq_lt_iff]

instance : DecidableLE InternalKey := fun left right =>
  inferInstanceAs (Decidable (compareInternalKeys left right ≠ .gt))

instance : DecidableLT InternalKey := fun left right =>
  inferInstanceAs (Decidable (compareInternalKeys left right = .lt))

instance : LinearOrder InternalKey where
  le_refl _ := by rw [le_iff_rank]
  le_trans _ _ _ hab hbc := by
    rw [le_iff_rank] at *
    exact hab.trans hbc
  lt_iff_le_not_ge _ _ := by rw [lt_iff_rank, le_iff_rank, le_iff_rank, lt_iff_le_not_ge]
  le_antisymm _ _ hab hba := by
    rw [le_iff_rank] at *
    exact rank_injective (le_antisymm hab hba)
  le_total _ _ := by
    rw [le_iff_rank, le_iff_rank]
    exact le_total _ _
  toDecidableLE := inferInstance
  toDecidableEq := inferInstance
  toDecidableLT := inferInstance

lemma lt_iff {left right : InternalKey} :
    left < right ↔ left.userKey < right.userKey ∨ left.userKey = right.userKey ∧
      (right.sequence < left.sequence ∨ left.sequence = right.sequence ∧
        (right.batchIndex < left.batchIndex ∨ left.batchIndex = right.batchIndex ∧
          left.kind.rank < right.kind.rank)) := by
  rw [lt_iff_rank]
  simp [rank, Prod.Lex.toLex_lt_toLex]

lemma userKey_le_of_le {left right : InternalKey} (h : left ≤ right) :
    left.userKey ≤ right.userKey := by
  rcases h.lt_or_eq with h | rfl
  · rw [lt_iff] at h
    rcases h with h | ⟨h, -⟩
    · exact h.le
    · exact h.le
  · exact le_rfl

lemma lt_of_userKey_lt {left right : InternalKey} (h : left.userKey < right.userKey) :
    left < right := by
  rw [lt_iff]
  exact .inl h

def firstForUser (userKey : Key) : InternalKey :=
  { userKey, sequence := maxSequence, kind := .put, batchIndex := maxBatchIndex
    sequence_le := le_rfl, batchIndex_le := le_rfl }

def lastForUser (userKey : Key) : InternalKey :=
  { userKey, sequence := 0, kind := .rangeDelete, batchIndex := 0 }

lemma firstForUser_le {userKey : Key} {key : InternalKey} :
    firstForUser userKey ≤ key ↔ userKey ≤ key.userKey := by
  refine ⟨userKey_le_of_le, fun h => ?_⟩
  rw [← not_lt, lt_iff]
  have hseq := key.sequence_le
  have hbatch := key.batchIndex_le
  simp only [firstForUser, ValueKind.rank]
  rintro (hlt | ⟨-, hlt | ⟨-, hlt | ⟨-, hlt⟩⟩⟩)
  · exact absurd hlt h.not_gt
  all_goals omega

lemma le_lastForUser {userKey : Key} {key : InternalKey} :
    key ≤ lastForUser userKey ↔ key.userKey ≤ userKey := by
  refine ⟨userKey_le_of_le, fun h => ?_⟩
  rw [← not_lt, lt_iff]
  simp only [lastForUser]
  rintro (hlt | ⟨-, hlt | ⟨-, hlt | ⟨-, hlt⟩⟩⟩)
  · exact absurd hlt h.not_gt
  · omega
  · omega
  · cases hk : key.kind <;> simp [hk, ValueKind.rank] at hlt

end InternalKey

/-! ## Values and point records -/

/-- Compression of a stored block or blob. -/
inductive CodecId where
  | none
  | fastLz4Block
  deriving DecidableEq, Repr

/-- Where a value that is stored outside its table lies, and what it must hash to. -/
structure BlobIndex where
  fileId : ℕ
  offset : ℕ
  encodedLen : ℕ
  valueLen : ℕ
  valueChecksum : ℕ
  recordChecksum : ℕ
  compression : CodecId
  deriving DecidableEq, Repr

inductive ValueRef where
  | inline (bytes : List UInt8)
  | blobIndex (index : BlobIndex)
  deriving DecidableEq, Repr

/-- A version of a user key. Every writer stores a value with a put. -/
structure PointRecord where
  internalKey : InternalKey
  value : Option ValueRef
  put_has_value : internalKey.kind = .put → value.isSome := by decide
  deriving DecidableEq, Repr

namespace PointRecord

def userKey (record : PointRecord) : Key := record.internalKey.userKey

/-- The commit sequence of a version. -/
def sequence (record : PointRecord) : ℕ := record.internalKey.sequence

def batchIndex (record : PointRecord) : ℕ := record.internalKey.batchIndex

def kind (record : PointRecord) : ValueKind := record.internalKey.kind

def isVisible (key : Key) (readSequence : ℕ) (record : PointRecord) : Bool :=
  decide (record.userKey = key) && decide (record.sequence ≤ readSequence)

lemma isVisible_iff {key : Key} {readSequence : ℕ} {record : PointRecord} :
    record.isVisible key readSequence = true ↔
      record.userKey = key ∧ record.sequence ≤ readSequence := by
  simp [isVisible]

end PointRecord

def StrictlySorted (records : List PointRecord) : Prop :=
  records.Pairwise fun left right => left.internalKey < right.internalKey

instance (records : List PointRecord) : Decidable (StrictlySorted records) :=
  inferInstanceAs (Decidable (records.Pairwise _))

lemma strictlySorted_nil : StrictlySorted [] := List.Pairwise.nil

lemma StrictlySorted.eq_of_internalKey_eq {records : List PointRecord} (h : StrictlySorted records)
    {left right : PointRecord} (hleft : left ∈ records) (hright : right ∈ records)
    (heq : left.internalKey = right.internalKey) : left = right := by
  have hnodup : (records.map PointRecord.internalKey).Nodup :=
    pairwise_map.mpr (h.imp fun hlt => hlt.ne)
  exact inj_on_of_nodup_map hnodup hleft hright heq

def KeysAscend (records : List PointRecord) : Prop :=
  records.Pairwise fun left right => left.userKey ≤ right.userKey

lemma StrictlySorted.keysAscend {records : List PointRecord} (h : StrictlySorted records) :
    KeysAscend records :=
  h.imp fun hab => InternalKey.userKey_le_of_le hab.le

lemma KeysAscend.between {records : List PointRecord} (h : KeysAscend records)
    {first last record : PointRecord} (hfirst : records.head? = some first)
    (hlast : records.getLast? = some last) (hmem : record ∈ records) :
    first.userKey ≤ record.userKey ∧ record.userKey ≤ last.userKey := by
  have hne : records ≠ [] := ne_nil_of_mem hmem
  rw [List.head?_eq_some_head hne, Option.some.injEq] at hfirst
  rw [List.getLast?_eq_some_getLast hne, Option.some.injEq] at hlast
  subst hfirst hlast
  constructor
  · rw [KeysAscend, ← cons_head_tail hne] at h
    rw [← cons_head_tail hne] at hmem
    rcases mem_cons.mp hmem with h1 | h1
    · exact h1 ▸ le_rfl
    · exact rel_of_pairwise_cons h h1
  · rw [KeysAscend, ← dropLast_append_getLast hne] at h
    rw [← dropLast_append_getLast hne] at hmem
    rcases mem_append.mp hmem with h1 | h1
    · exact (pairwise_append.mp h).2.2 _ h1 _ (by simp)
    · exact (mem_singleton.mp h1) ▸ le_rfl

/-! ## The age of a change -/

/-- The age of a change: its commit sequence, then its index in the batch. -/
abbrev Stamp := ℕ ×ₗ ℕ

/-- The age of a version. -/
def PointRecord.stamp (record : PointRecord) : Stamp :=
  toLex (record.sequence, record.batchIndex)

namespace RangeTombstone

/-- The age of a range deletion. -/
def stamp (tombstone : RangeTombstone) : Stamp :=
  toLex (tombstone.sequence, tombstone.batchIndex)

/-- The tombstone deletes the version of `key` for a reader at `readSequence`. -/
def coversVisiblePoint (tombstone : RangeTombstone) (key : Key)
    (pointSequence pointBatchIndex readSequence : ℕ) : Bool :=
  if readSequence < tombstone.sequence || !keyIsInRange key tombstone.range then false
  else
    decide (pointSequence < tombstone.sequence) ||
      (tombstone.sequence == pointSequence && decide (pointBatchIndex < tombstone.batchIndex))

lemma coversVisiblePoint_iff {tombstone : RangeTombstone} {key : Key} {record : PointRecord}
    {readSequence : ℕ} :
    tombstone.coversVisiblePoint key record.sequence record.batchIndex readSequence = true ↔
      tombstone.sequence ≤ readSequence ∧ keyIsInRange key tombstone.range = true ∧
        record.stamp < tombstone.stamp := by
  unfold coversVisiblePoint
  rw [PointRecord.stamp, stamp, Prod.Lex.toLex_lt_toLex]
  split_ifs with h
  · simp only [Bool.or_eq_true, decide_eq_true_eq, Bool.not_eq_true'] at h
    simp only [false_iff, not_and]
    intro hle hin
    rcases h with h | h
    · omega
    · simp [hin] at h
  · simp only [Bool.or_eq_true, decide_eq_true_eq, Bool.not_eq_true', not_or, not_lt,
      Bool.not_eq_false] at h
    simp [h.1, h.2, @eq_comm ℕ tombstone.sequence]

end RangeTombstone

lemma PointRecord.stamp_lt_of_internalKey_lt {left right : PointRecord}
    (hkey : left.userKey = right.userKey) (hne : left.stamp ≠ right.stamp) :
    left.internalKey < right.internalKey ↔ right.stamp < left.stamp := by
  have hkey' : left.internalKey.userKey = right.internalKey.userKey := hkey
  have hne' : ¬(left.internalKey.sequence = right.internalKey.sequence ∧
      left.internalKey.batchIndex = right.internalKey.batchIndex) := by
    simpa [PointRecord.stamp, PointRecord.sequence, PointRecord.batchIndex] using hne
  rw [InternalKey.lt_iff, PointRecord.stamp, PointRecord.stamp, Prod.Lex.toLex_lt_toLex]
  simp only [hkey', lt_irrefl, false_or, true_and, PointRecord.sequence, PointRecord.batchIndex]
  omega

/-! ## Operations -/

inductive BatchOperation where
  | put (bucket : String) (key value : List UInt8)
  | delete (bucket : String) (key : List UInt8)
  | deleteRange (bucket : String) (range : KeyRange)
  deriving DecidableEq, Repr

def BatchOperation.bucket : BatchOperation → String
  | .put bucket _ _ => bucket
  | .delete bucket _ => bucket
  | .deleteRange bucket _ => bucket

/-- The version that a put creates. -/
def PointRecord.ofPut (key value : List UInt8) (sequence : UInt64) (batchIndex : UInt32) :
    PointRecord where
  internalKey :=
    { userKey := key, sequence := sequence.toNat, kind := .put, batchIndex := batchIndex.toNat
      sequence_le := Nat.le_pred_of_lt sequence.toNat_lt
      batchIndex_le := Nat.le_pred_of_lt batchIndex.toNat_lt }
  value := some (.inline value)
  put_has_value _ := rfl

/-- The version that a deletion creates. -/
def PointRecord.ofDelete (key : List UInt8) (sequence : UInt64) (batchIndex : UInt32) :
    PointRecord where
  internalKey :=
    { userKey := key, sequence := sequence.toNat, kind := .pointDelete
      batchIndex := batchIndex.toNat
      sequence_le := Nat.le_pred_of_lt sequence.toNat_lt
      batchIndex_le := Nat.le_pred_of_lt batchIndex.toNat_lt }
  value := none
  put_has_value h := by cases h

namespace BatchOperation

/-- The version that the operation creates in a commit. -/
def toRecord (sequence : UInt64) (batchIndex : UInt32) : BatchOperation → Option PointRecord
  | .put _ key value => some (.ofPut key value sequence batchIndex)
  | .delete _ key => some (.ofDelete key sequence batchIndex)
  | .deleteRange _ _ => none

/-- The range deletion that the operation creates in a commit. -/
def toTombstone (sequence : UInt64) (batchIndex : UInt32) : BatchOperation → Option RangeTombstone
  | .put _ _ _ => none
  | .delete _ _ => none
  | .deleteRange _ range => some ⟨range, sequence.toNat, batchIndex.toNat⟩

variable {operation : BatchOperation} {sequence : UInt64} {batchIndex : UInt32}

lemma sequence_of_mem_toRecord {record : PointRecord}
    (h : record ∈ operation.toRecord sequence batchIndex) :
    record.sequence = sequence.toNat ∧ record.batchIndex = batchIndex.toNat := by
  cases operation with
  | put bucket key value =>
    obtain rfl := Option.some.inj h
    exact ⟨rfl, rfl⟩
  | delete bucket key =>
    obtain rfl := Option.some.inj h
    exact ⟨rfl, rfl⟩
  | deleteRange bucket range => cases h

lemma sequence_of_mem_toTombstone {tombstone : RangeTombstone}
    (h : tombstone ∈ operation.toTombstone sequence batchIndex) :
    tombstone.sequence = sequence.toNat := by
  cases operation with
  | put bucket key value => cases h
  | delete bucket key => cases h
  | deleteRange bucket range =>
    obtain rfl := Option.some.inj h
    rfl

end BatchOperation

def indexOperations (operations : List BatchOperation) : List (BatchOperation × UInt32) :=
  operations.zipIdx.map fun (operation, index) => (operation, UInt32.ofNat index)

lemma nodup_indexOperations {operations : List BatchOperation}
    (h : operations.length ≤ maxBatchIndex) : ((indexOperations operations).map Prod.snd).Nodup := by
  have hmap : (indexOperations operations).map Prod.snd =
      (List.range operations.length).map UInt32.ofNat := by
    rw [indexOperations, map_map, range_eq_range', ← zipIdx_map_snd 0 operations,
      map_map]
    rfl
  rw [hmap]
  refine List.Nodup.map_on (fun i hi j hj hij => ?_) nodup_range
  have hmod : ∀ k ∈ List.range operations.length, (UInt32.ofNat k).toNat = k := by
    intro k hk
    have := mem_range.mp hk
    have hmax : maxBatchIndex = 4294967295 := rfl
    rw [UInt32.toNat_ofNat', Nat.mod_eq_of_lt (by omega)]
  rw [← hmod i hi, ← hmod j hj, hij]

end TrineKv
