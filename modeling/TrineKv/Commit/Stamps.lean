import TrineKv.Commit.Tracker
import TrineKv.Lib.ByteCodec

/-!
# Commit sequences in values

A put may leave eight bytes of its value for the sequence of its commit. When it is known, every
stamp is resolved in the operations that are logged and in the deltas that are applied to the
memtables; a stamp that does not fit gives up the slot. Batches that were logged in advance, which
have no stamps, and failures of log and memtables are left out.

## Main results

* `WriteState.commit_stamps`: what is logged and applied.
-/

namespace TrineKv

open List

open ByteCodec

/-! ## Batches -/

structure CommitSequenceStamp where
  operationIndex : UInt32
  valueOffset : UInt32
  deriving DecidableEq, Repr

structure WriteBatch where
  operations : List BatchOperation
  commitSequenceStamps : List CommitSequenceStamp
  deriving DecidableEq, Repr

inductive BatchCall where
  | push (operation : BatchOperation)
  | putWithCommitSequence (bucket : String) (key front rest : List UInt8)

def BatchCall.operation (slot : List UInt8) : BatchCall → BatchOperation
  | .push operation => operation
  | .putWithCommitSequence bucket key front rest => .put bucket key (front ++ (slot ++ rest))

namespace WriteBatch

def putBucketWithCommitSequence (batch : WriteBatch) (bucket : String)
    (key front rest : List UInt8) : Except Error WriteBatch :=
  if 2 ^ 32 ≤ batch.operations.length then
    .error (.invalidOptions "write batch operation count exceeds u32::MAX")
  else if 2 ^ 32 ≤ front.length then
    .error (.invalidOptions "commit sequence value prefix is too large")
  else
    .ok ⟨batch.operations ++ [.put bucket key (front ++ (List.replicate 8 0 ++ rest))],
      batch.commitSequenceStamps ++
        [⟨.ofNat batch.operations.length, .ofNat front.length⟩]⟩

def call (batch : WriteBatch) : BatchCall → Except Error WriteBatch
  | .push operation => .ok { batch with operations := batch.operations ++ [operation] }
  | .putWithCommitSequence bucket key front rest =>
    batch.putBucketWithCommitSequence bucket key front rest

end WriteBatch

/-! ## Preparation -/

structure PreparedShardDelta where
  bucket : String
  operations : List (BatchOperation × UInt32)
  deriving DecidableEq, Repr

def pushOperation : List PreparedShardDelta → BatchOperation × UInt32 → List PreparedShardDelta
  | [], prepared => [⟨prepared.1.bucket, [prepared]⟩]
  | delta :: deltas, prepared =>
    if delta.bucket = prepared.1.bucket then
      { delta with operations := delta.operations ++ [prepared] } :: deltas
    else delta :: pushOperation deltas prepared

def groupDeltas (operations : List (BatchOperation × UInt32)) : List PreparedShardDelta :=
  operations.foldl pushOperation []

/-- The two copies of the operations, with the stamps to be resolved. -/
structure PreparedCommit where
  walOperations : List BatchOperation
  commitSequenceStamps : List CommitSequenceStamp
  deltas : List PreparedShardDelta
  deriving DecidableEq, Repr

def prepareWriterLocalCommit (batch : WriteBatch) : Except Error PreparedCommit :=
  if maxBatchIndex < batch.operations.length then
    .error (.invalidOptions "write batch operation count exceeds u32::MAX")
  else .ok ⟨batch.operations, batch.commitSequenceStamps,
    groupDeltas (indexOperations batch.operations)⟩

/-! ## Resolution -/

/-- The eight bytes of a sequence, the most significant one first. -/
def sequenceBytes (sequence : ℕ) : List UInt8 := (leBytes 8 sequence).reverse

/-- The number that big-endian bytes stand for. -/
def beValue (bytes : List UInt8) : ℕ :=
  bytes.foldl (fun value byte => value * 256 + byte.toNat) 0

lemma beValue_reverse (bytes : List UInt8) : beValue bytes.reverse = leValue bytes := by
  induction bytes with
  | nil => rfl
  | cons byte bytes ih =>
    rw [beValue] at ih
    rw [beValue, reverse_cons, foldl_append, ih, leValue]
    simp only [foldl_cons, foldl_nil]
    omega

lemma beValue_sequenceBytes {sequence : ℕ} (h : sequence ≤ maxSequence) :
    beValue (sequenceBytes sequence) = sequence := by
  rw [sequenceBytes, beValue_reverse, leValue_leBytes]
  exact Nat.lt_of_le_of_lt h (by decide)

def stampCommitSequence (operation : BatchOperation) (valueOffset : UInt32) (bytes : List UInt8) :
    Except Error BatchOperation :=
  match operation with
  | .put bucket key value =>
    let start := valueOffset.toNat
    if start + bytes.length ≤ value.length then
      .ok (.put bucket key (value.take start ++ (bytes ++ value.drop (start + bytes.length))))
    else .error (.corruption "commit sequence value slot is out of bounds")
  | .delete _ _ | .deleteRange _ _ =>
    .error (.corruption "commit sequence stamp targets a non-put operation")

def stampFirst (bytes : List UInt8) (stamp : CommitSequenceStamp) :
    List (BatchOperation × UInt32) → Option (Except Error (List (BatchOperation × UInt32)))
  | [] => none
  | prepared :: rest =>
    if prepared.2 = stamp.operationIndex then
      some ((stampCommitSequence prepared.1 stamp.valueOffset bytes).map fun operation =>
        (operation, prepared.2) :: rest)
    else (stampFirst bytes stamp rest).map fun result => result.map (prepared :: ·)

def stampDeltas (bytes : List UInt8) (stamp : CommitSequenceStamp) :
    List PreparedShardDelta → Except Error (List PreparedShardDelta)
  | [] => .error (.corruption "commit sequence operation is missing from prepared deltas")
  | delta :: deltas =>
    match stampFirst bytes stamp delta.operations with
    | some result => result.map fun operations => { delta with operations } :: deltas
    | none => (stampDeltas bytes stamp deltas).map (delta :: ·)

def stampOperations (bytes : List UInt8) (operations : List BatchOperation)
    (stamp : CommitSequenceStamp) : Except Error (List BatchOperation) :=
  match operations[stamp.operationIndex.toNat]? with
  | none => .error (.corruption "commit sequence operation index is out of bounds")
  | some operation =>
    (stampCommitSequence operation stamp.valueOffset bytes).map
      (operations.set stamp.operationIndex.toNat)

namespace PreparedCommit

def resolveStamp (bytes : List UInt8) (prepared : PreparedCommit) (stamp : CommitSequenceStamp) :
    Except Error PreparedCommit := do
  let walOperations ← stampOperations bytes prepared.walOperations stamp
  let deltas ← stampDeltas bytes stamp prepared.deltas
  return { prepared with walOperations, deltas }

def resolveCommitSequence (prepared : PreparedCommit) (sequence : ℕ) :
    Except Error PreparedCommit := do
  let resolved ←
    prepared.commitSequenceStamps.foldlM (resolveStamp (sequenceBytes sequence)) prepared
  return { resolved with commitSequenceStamps := [] }

end PreparedCommit

/-! ## The two copies stay equal -/

def replaceAt (index : UInt32) (operation : BatchOperation) (prepared : BatchOperation × UInt32) :
    BatchOperation × UInt32 :=
  if prepared.2 = index then (operation, index) else prepared

def PreparedShardDelta.mapOperations (f : BatchOperation × UInt32 → BatchOperation × UInt32)
    (delta : PreparedShardDelta) : PreparedShardDelta :=
  { delta with operations := delta.operations.map f }

variable {bytes : List UInt8} {stamp : CommitSequenceStamp} {operation : BatchOperation}
  {operations after : List BatchOperation} {indexed : List (BatchOperation × UInt32)}
  {deltas : List PreparedShardDelta}

lemma map_replaceAt_of_notMem {index : UInt32} (h : index ∉ indexed.map Prod.snd) :
    indexed.map (replaceAt index operation) = indexed := by
  refine (map_congr_left fun prepared hmem => if_neg fun heq => h ?_).trans indexed.map_id
  exact heq ▸ mem_map_of_mem hmem

lemma stampFirst_of_notMem (h : stamp.operationIndex ∉ indexed.map Prod.snd) :
    stampFirst bytes stamp indexed = none := by
  induction indexed with
  | nil => rfl
  | cons prepared rest ih =>
    rw [map_cons, mem_cons, not_or] at h
    rw [stampFirst, if_neg (Ne.symm h.1), ih h.2, Option.map_none]

lemma stampFirst_of_mem (hnodup : (indexed.map Prod.snd).Nodup)
    (hmem : (operation, stamp.operationIndex) ∈ indexed) :
    stampFirst bytes stamp indexed =
      some ((stampCommitSequence operation stamp.valueOffset bytes).map fun stamped =>
        indexed.map (replaceAt stamp.operationIndex stamped)) := by
  induction indexed with
  | nil => cases hmem
  | cons prepared rest ih =>
    obtain ⟨hfresh, hnodup⟩ := nodup_cons.mp hnodup
    rcases mem_cons.mp hmem with rfl | hmem
    · simp [stampFirst, replaceAt, map_replaceAt_of_notMem hfresh]
    · have hne : prepared.2 ≠ stamp.operationIndex := fun heq =>
        hfresh (mem_map.mpr ⟨_, hmem, heq.symm⟩)
      rw [stampFirst, if_neg hne, ih hnodup hmem]
      cases stampCommitSequence operation stamp.valueOffset bytes with
      | error error => rfl
      | ok stamped => simp [Except.map, replaceAt, hne]

lemma stampDeltas_of_mem
    (hnodup : ((deltas.flatMap PreparedShardDelta.operations).map Prod.snd).Nodup)
    (hmem : (operation, stamp.operationIndex) ∈ deltas.flatMap PreparedShardDelta.operations) :
    stampDeltas bytes stamp deltas = (stampCommitSequence operation stamp.valueOffset bytes).map
      fun stamped => deltas.map (.mapOperations (replaceAt stamp.operationIndex stamped)) := by
  induction deltas with
  | nil => cases hmem
  | cons delta deltas ih =>
    rw [flatMap_cons, map_append, nodup_append] at hnodup
    obtain ⟨hfirst, hrest, hdisjoint⟩ := hnodup
    rw [flatMap_cons, mem_append] at hmem
    rw [stampDeltas]
    rcases hmem with hmem | hmem
    · have hother : ∀ stamped,
          deltas.map (.mapOperations (replaceAt stamp.operationIndex stamped)) = deltas := by
        intro stamped
        refine (map_congr_left fun other hother => ?_).trans deltas.map_id
        have hnone : stamp.operationIndex ∉ other.operations.map Prod.snd := by
          intro hin
          obtain ⟨prepared, hprepared, heq⟩ := mem_map.mp hin
          exact hdisjoint _ (mem_map_of_mem hmem) _
            (mem_map_of_mem (mem_flatMap.mpr ⟨other, hother, hprepared⟩)) heq.symm
        rw [PreparedShardDelta.mapOperations, map_replaceAt_of_notMem hnone, id]
      rw [stampFirst_of_mem hfirst hmem]
      cases stampCommitSequence operation stamp.valueOffset bytes with
      | error error => rfl
      | ok stamped => simp [Except.map, hother, PreparedShardDelta.mapOperations]
    · have hnone : stamp.operationIndex ∉ delta.operations.map Prod.snd := fun hin =>
        hdisjoint _ hin _ (mem_map_of_mem hmem) rfl
      rw [stampFirst_of_notMem hnone, ih hrest hmem]
      cases stampCommitSequence operation stamp.valueOffset bytes with
      | error error => rfl
      | ok stamped =>
        simp [Except.map, PreparedShardDelta.mapOperations, map_replaceAt_of_notMem hnone]

lemma flatMap_pushOperation (deltas : List PreparedShardDelta)
    (prepared : BatchOperation × UInt32) :
    ((pushOperation deltas prepared).flatMap PreparedShardDelta.operations).Perm
      (deltas.flatMap PreparedShardDelta.operations ++ [prepared]) := by
  induction deltas with
  | nil => simp [pushOperation]
  | cons delta deltas ih =>
    rw [pushOperation]
    split_ifs
    · simp only [flatMap_cons, append_assoc]
      exact List.Perm.append_left _ perm_append_comm
    · rw [flatMap_cons, flatMap_cons, append_assoc]
      exact ih.append_left _

lemma flatMap_groupDeltas (indexed : List (BatchOperation × UInt32)) :
    ((groupDeltas indexed).flatMap PreparedShardDelta.operations).Perm indexed := by
  induction indexed using List.reverseRecOn with
  | nil => exact .nil
  | append_singleton indexed prepared ih =>
    rw [groupDeltas, foldl_append]
    exact (flatMap_pushOperation _ prepared).trans (ih.append_right _)

lemma groupDeltas_map {f : BatchOperation × UInt32 → BatchOperation × UInt32}
    (hf : ∀ prepared ∈ indexed, (f prepared).1.bucket = prepared.1.bucket) :
    groupDeltas (indexed.map f) = (groupDeltas indexed).map (.mapOperations f) := by
  have hpush : ∀ (deltas : List PreparedShardDelta) prepared,
      (f prepared).1.bucket = prepared.1.bucket →
        pushOperation (deltas.map (.mapOperations f)) (f prepared) =
          (pushOperation deltas prepared).map (.mapOperations f) := by
    intro deltas prepared hbucket
    induction deltas with
    | nil => simp [pushOperation, PreparedShardDelta.mapOperations, hbucket]
    | cons delta deltas ih =>
      by_cases heq : delta.bucket = prepared.1.bucket
      · simp [pushOperation, PreparedShardDelta.mapOperations, hbucket, heq]
      · simpa [pushOperation, PreparedShardDelta.mapOperations, hbucket, heq] using ih
  induction indexed using List.reverseRecOn with
  | nil => rfl
  | append_singleton indexed prepared ih =>
    rw [map_append, groupDeltas, foldl_append, groupDeltas, foldl_append]
    rw [groupDeltas, groupDeltas] at ih
    rw [ih fun other hother => hf other (mem_append_left _ hother)]
    exact hpush _ prepared (hf prepared (by simp))

lemma getElem?_indexOperations (operations : List BatchOperation) (i : ℕ) :
    (indexOperations operations)[i]? = operations[i]?.map (·, UInt32.ofNat i) := by
  simp [indexOperations, List.getElem?_zipIdx, Function.comp_def]

lemma ofNat_eq_iff (hlength : operations.length ≤ maxBatchIndex) {i : ℕ}
    (hi : i < operations.length) {index : UInt32} : UInt32.ofNat i = index ↔ i = index.toNat := by
  have hmax : maxBatchIndex = 4294967295 := rfl
  rw [← UInt32.toNat_inj, UInt32.toNat_ofNat', Nat.mod_eq_of_lt (by omega)]

lemma indexOperations_set (hlength : operations.length ≤ maxBatchIndex) (index : UInt32) :
    indexOperations (operations.set index.toNat operation) =
      (indexOperations operations).map (replaceAt index operation) := by
  refine ext_getElem? fun i => ?_
  rw [List.getElem?_map, getElem?_indexOperations, getElem?_indexOperations, List.getElem?_set]
  by_cases hi : i < operations.length
  · rw [List.getElem?_eq_getElem hi]
    by_cases heq : index.toNat = i
    · simp [heq, hi, replaceAt, (ofNat_eq_iff hlength hi).mpr heq.symm]
    · have hne : ¬UInt32.ofNat i = index := fun h => heq ((ofNat_eq_iff hlength hi).mp h).symm
      simp [heq, replaceAt, hne]
  · have hne : ¬index.toNat = i ∨ ¬index.toNat < operations.length := by omega
    rw [List.getElem?_eq_none (Nat.le_of_not_lt hi)]
    split_ifs with heq hlt
    · exact absurd hlt (hne.resolve_left (not_not_intro heq))
    · rfl
    · rfl

lemma bucket_of_stampCommitSequence {stamped : BatchOperation} {valueOffset : UInt32}
    (h : stampCommitSequence operation valueOffset bytes = .ok stamped) :
    stamped.bucket = operation.bucket := by
  cases operation with
  | put bucket key value =>
    simp only [stampCommitSequence] at h
    split_ifs at h
    rw [← Except.ok.inj h]
    rfl
  | delete bucket key => cases h
  | deleteRange bucket range => cases h

lemma length_of_stampOperations (h : stampOperations bytes operations stamp = .ok after) :
    after.length = operations.length := by
  unfold stampOperations at h
  split at h
  · cases h
  · rename_i found _
    cases hstamp : stampCommitSequence found stamp.valueOffset bytes with
    | error error => simp [hstamp, Except.map] at h
    | ok stamped =>
      rw [hstamp] at h
      rw [← Except.ok.inj h, length_set]

namespace PreparedCommit

variable {prepared : PreparedCommit}

/-- A stamp changes the deltas to those of the changed log record, and it fails only if it fails
there. -/
lemma resolveStamp_eq (hlength : prepared.walOperations.length ≤ maxBatchIndex)
    (hdeltas : prepared.deltas = groupDeltas (indexOperations prepared.walOperations)) :
    prepared.resolveStamp bytes stamp =
      (stampOperations bytes prepared.walOperations stamp).map fun operations =>
        { prepared with
          walOperations := operations, deltas := groupDeltas (indexOperations operations) } := by
  rw [resolveStamp, stampOperations]
  cases hfound : prepared.walOperations[stamp.operationIndex.toNat]? with
  | none => rfl
  | some operation =>
    have hmem : (operation, stamp.operationIndex) ∈ indexOperations prepared.walOperations := by
      refine mem_of_getElem? (i := stamp.operationIndex.toNat) ?_
      rw [getElem?_indexOperations, hfound, Option.map_some, UInt32.ofNat_toNat]
    have hnodup := nodup_indexOperations hlength
    have hperm := flatMap_groupDeltas (indexOperations prepared.walOperations)
    rw [hdeltas, stampDeltas_of_mem ((hperm.map _).nodup_iff.mpr hnodup) (hperm.mem_iff.mpr hmem)]
    dsimp only
    cases hstamped : stampCommitSequence operation stamp.valueOffset bytes with
    | error error => rfl
    | ok stamped =>
      have hbucket : ∀ other ∈ indexOperations prepared.walOperations,
          (replaceAt stamp.operationIndex stamped other).1.bucket = other.1.bucket := by
        intro other hother
        unfold replaceAt
        split_ifs with heq
        · rw [inj_on_of_nodup_map hnodup hother hmem heq]
          exact bucket_of_stampCommitSequence hstamped
        · rfl
      simp only [Except.map, ok_bind, ← groupDeltas_map hbucket, ← indexOperations_set hlength]
      rfl

lemma foldlM_resolveStamp (stamps : List CommitSequenceStamp)
    (hlength : prepared.walOperations.length ≤ maxBatchIndex)
    (hdeltas : prepared.deltas = groupDeltas (indexOperations prepared.walOperations)) :
    stamps.foldlM (resolveStamp bytes) prepared =
      (stamps.foldlM (stampOperations bytes) prepared.walOperations).map fun operations =>
        { prepared with
          walOperations := operations, deltas := groupDeltas (indexOperations operations) } := by
  induction stamps generalizing prepared with
  | nil =>
    have hself : prepared = { prepared with
        deltas := groupDeltas (indexOperations prepared.walOperations) } := by rw [← hdeltas]
    exact congrArg Except.ok hself
  | cons stamp stamps ih =>
    rw [foldlM_cons, foldlM_cons, resolveStamp_eq hlength hdeltas]
    cases hstamp : stampOperations bytes prepared.walOperations stamp with
    | error error => rfl
    | ok operations => exact ih ((length_of_stampOperations hstamp).trans_le hlength) rfl

end PreparedCommit

/-- The log record and the deltas of a prepared batch are resolved together: what is applied are the
deltas of the operations that are logged, and the batch fails exactly if a stamp fails in the log
record. -/
theorem resolveCommitSequence_eq {batch : WriteBatch} {prepared : PreparedCommit} (sequence : ℕ)
    (h : prepareWriterLocalCommit batch = .ok prepared) :
    prepared.resolveCommitSequence sequence =
      (batch.commitSequenceStamps.foldlM (stampOperations (sequenceBytes sequence))
        batch.operations).map fun written =>
          ⟨written, [], groupDeltas (indexOperations written)⟩ := by
  unfold prepareWriterLocalCommit at h
  split_ifs at h with hlength
  obtain rfl := Except.ok.inj h
  rw [PreparedCommit.resolveCommitSequence,
    PreparedCommit.foldlM_resolveStamp _ (Nat.le_of_not_lt hlength) rfl]
  cases List.foldlM (stampOperations (sequenceBytes sequence)) batch.operations
    batch.commitSequenceStamps with
  | error error => rfl
  | ok written => rfl

/-! ## Which stamps can be resolved -/

def BatchOperation.valueLength : BatchOperation → Option ℕ
  | .put _ _ value => some value.length
  | .delete _ _ | .deleteRange _ _ => none

/-- The stamp names eight bytes in the value of a put. -/
def CommitSequenceStamp.Fits (stamp : CommitSequenceStamp) (operations : List BatchOperation) :
    Prop :=
  ∃ length, (operations.map BatchOperation.valueLength)[stamp.operationIndex.toNat]? =
    some (some length) ∧ stamp.valueOffset.toNat + 8 ≤ length

section Bytes

variable (hbytes : bytes.length = 8)

include hbytes

lemma stampOperations_eq_ok_iff :
    stampOperations bytes operations stamp = .ok after ↔ ∃ bucket key value,
      operations[stamp.operationIndex.toNat]? = some (.put bucket key value) ∧
      stamp.valueOffset.toNat + 8 ≤ value.length ∧
      after = operations.set stamp.operationIndex.toNat (.put bucket key
        (value.take stamp.valueOffset.toNat ++
          (bytes ++ value.drop (stamp.valueOffset.toNat + 8)))) := by
  rw [stampOperations]
  cases operations[stamp.operationIndex.toNat]? with
  | none => simp
  | some operation =>
    cases operation with
    | put bucket key value =>
      simp only [stampCommitSequence, hbytes]
      split_ifs with hfits
      · simp [Except.map, hfits, eq_comm]
      · simp [Except.map, hfits]
    | delete bucket key => simp [stampCommitSequence, Except.map]
    | deleteRange bucket range => simp [stampCommitSequence, Except.map]

lemma fits_of_foldlM {stamps : List CommitSequenceStamp}
    (h : stamps.foldlM (stampOperations bytes) operations = .ok after) :
    ∀ stamp ∈ stamps, stamp.Fits operations := by
  induction stamps generalizing operations with
  | nil => simp
  | cons stamp stamps ih =>
    obtain ⟨first, hfirst, hrest⟩ := bind_eq_ok.mp h
    obtain ⟨bucket, key, value, hfound, hfits, rfl⟩ := (stampOperations_eq_ok_iff hbytes).mp hfirst
    have hlength : (value.take stamp.valueOffset.toNat ++
        (bytes ++ value.drop (stamp.valueOffset.toNat + 8))).length = value.length := by
      simp only [length_append, length_take, length_drop, hbytes]
      omega
    have hstamp : (operations.map BatchOperation.valueLength)[stamp.operationIndex.toNat]? =
        some (some value.length) := by simp [hfound, BatchOperation.valueLength]
    refine forall_mem_cons.mpr ⟨⟨value.length, hstamp, hfits⟩, fun other hother => ?_⟩
    have hother := ih hrest other hother
    obtain ⟨hlt, heq⟩ := List.getElem?_eq_some_iff.mp hstamp
    rwa [CommitSequenceStamp.Fits, map_set, BatchOperation.valueLength, hlength, ← heq,
      set_getElem_self] at hother

/-! ## Batches that calls make -/

lemma stampOperations_append (h : stampOperations bytes operations stamp = .ok after)
    (more : List BatchOperation) :
    stampOperations bytes (operations ++ more) stamp = .ok (after ++ more) := by
  obtain ⟨bucket, key, value, hfound, hfits, rfl⟩ := (stampOperations_eq_ok_iff hbytes).mp h
  obtain ⟨hlt, -⟩ := List.getElem?_eq_some_iff.mp hfound
  exact (stampOperations_eq_ok_iff hbytes).mpr ⟨bucket, key, value,
    (List.getElem?_append_left hlt).trans hfound, hfits, (set_append_left _ _ hlt).symm⟩

lemma foldlM_stampOperations_append {stamps : List CommitSequenceStamp}
    (h : stamps.foldlM (stampOperations bytes) operations = .ok after)
    (more : List BatchOperation) :
    stamps.foldlM (stampOperations bytes) (operations ++ more) = .ok (after ++ more) := by
  induction stamps generalizing operations with
  | nil => rw [← Except.ok.inj h]; rfl
  | cons stamp stamps ih =>
    obtain ⟨first, hfirst, hrest⟩ := bind_eq_ok.mp h
    exact bind_eq_ok.mpr ⟨_, stampOperations_append hbytes hfirst more, ih hrest⟩

lemma stampOperations_last {bucket : String} {key front rest : List UInt8}
    (hindex : stamp.operationIndex.toNat = operations.length)
    (hoffset : stamp.valueOffset.toNat = front.length) :
    stampOperations bytes (operations ++ [.put bucket key (front ++ (List.replicate 8 0 ++ rest))])
      stamp = .ok (operations ++ [.put bucket key (front ++ (bytes ++ rest))]) := by
  refine (stampOperations_eq_ok_iff hbytes).mpr ⟨bucket, key, front ++ (List.replicate 8 0 ++ rest),
    by rw [hindex, List.getElem?_concat_length], by simp [hoffset], ?_⟩
  simp [hindex, hoffset, drop_append]

/-- The stamps of a batch that calls make are resolved to the operations of the calls with the
sequence in its place.

**Proof sketch.** Induction on the calls, the last one first. The stamps of the calls before it do
not reach its operation, and its own stamp replaces the eight bytes between the two parts of its
value. -/
lemma foldlM_stampOperations_of_calls {calls : List BatchCall} {batch : WriteBatch}
    (h : calls.foldlM WriteBatch.call ⟨[], []⟩ = .ok batch) :
    batch.operations = calls.map (BatchCall.operation (List.replicate 8 0)) ∧
      batch.commitSequenceStamps.foldlM (stampOperations bytes) batch.operations =
        .ok (calls.map (BatchCall.operation bytes)) := by
  induction calls using List.reverseRecOn generalizing batch with
  | nil =>
    rw [← Except.ok.inj h]
    exact ⟨rfl, rfl⟩
  | append_singleton calls call ih =>
    rw [foldlM_append] at h
    obtain ⟨before, hbefore, h⟩ := bind_eq_ok.mp h
    obtain ⟨next, hcall, hnext⟩ := bind_eq_ok.mp h
    obtain rfl := Except.ok.inj hnext
    obtain ⟨hoperations, hstamps⟩ := ih hbefore
    cases call with
    | push operation =>
      obtain rfl := Except.ok.inj hcall
      refine ⟨by simp [hoperations, BatchCall.operation], ?_⟩
      rw [foldlM_stampOperations_append hbytes hstamps, map_append]
      rfl
    | putWithCommitSequence bucket key front rest =>
      simp only [WriteBatch.call, WriteBatch.putBucketWithCommitSequence] at hcall
      split_ifs at hcall with hcount hfront
      obtain rfl := Except.ok.inj hcall
      refine ⟨by simp [hoperations, BatchCall.operation], ?_⟩
      have hindex : (UInt32.ofNat before.operations.length).toNat = calls.length := by
        rw [UInt32.toNat_ofNat', Nat.mod_eq_of_lt (by omega), hoperations, length_map]
      have hoffset : (UInt32.ofNat front.length).toNat = front.length := by
        rw [UInt32.toNat_ofNat', Nat.mod_eq_of_lt (by omega)]
      have hlast := @stampOperations_last bytes
        ⟨.ofNat before.operations.length, .ofNat front.length⟩
        (calls.map (BatchCall.operation bytes)) hbytes bucket key front rest (by simp [hindex])
        hoffset
      rw [foldlM_append, foldlM_stampOperations_append hbytes hstamps, ok_bind,
        foldlM_cons, hlast, map_append]
      rfl

end Bytes

/-! ## Commits -/

lemma CommitTracker.exists_markSkipped {tracker : CommitTracker} {slot : ℕ}
    (h : tracker.IsOpen slot) : ∃ skipped, tracker.markSkipped slot = .ok skipped := by
  unfold markSkipped markTerminal
  unfold SlotTable.IsOpen at h
  split <;> simp_all

structure WriteState where
  tracker : CommitTracker
  logged : List (ℕ × List BatchOperation)
  applied : List (ℕ × List PreparedShardDelta)

def sequenceWriterLocalState (tracker : CommitTracker) (prepared : PreparedCommit) :
    Except Error (Option (PreparedCommit × ℕ)) × CommitTracker :=
  if prepared.walOperations = [] then (.ok none, tracker)
  else
    match tracker.reserveSlot with
    | .error error => (.error error, tracker)
    | .ok (slot, reserved) =>
      match prepared.resolveCommitSequence slot with
      | .ok resolved => (.ok (some (resolved, slot)), reserved)
      | .error error =>
        match reserved.markSkipped slot with
        | .ok skipped => (.error error, skipped)
        | .error failure => (.error failure, reserved)

namespace WriteState

def commit (state : WriteState) (batch : WriteBatch) : Except Error (Option ℕ) × WriteState :=
  match prepareWriterLocalCommit batch with
  | .error error => (.error error, state)
  | .ok prepared =>
    match sequenceWriterLocalState state.tracker prepared with
    | (.error error, tracker) => (.error error, { state with tracker })
    | (.ok none, tracker) => (.ok none, { state with tracker })
    | (.ok (some (resolved, slot)), tracker) =>
      (.ok (some slot), ⟨tracker, state.logged ++ [(slot, resolved.walOperations)],
        state.applied ++ [(slot, resolved.deltas)]⟩)

def wrote (state : WriteState) (tracker : CommitTracker) (slot : ℕ)
    (operations : List BatchOperation) : WriteState :=
  ⟨tracker, state.logged ++ [(slot, operations)],
    state.applied ++ [(slot, groupDeltas (indexOperations operations))]⟩

variable {state : WriteState} {slot : ℕ} {reserved : CommitTracker} {batch : WriteBatch}

lemma commit_of_reserveSlot (hreserve : state.tracker.reserveSlot = .ok (slot, reserved))
    (hne : batch.operations ≠ []) (hlength : batch.operations.length ≤ maxBatchIndex) :
    state.commit batch =
      match batch.commitSequenceStamps.foldlM (stampOperations (sequenceBytes slot))
        batch.operations with
      | .ok written => (.ok (some slot), state.wrote reserved slot written)
      | .error error =>
        match reserved.markSkipped slot with
        | .ok skipped => (.error error, { state with tracker := skipped })
        | .error failure => (.error failure, { state with tracker := reserved }) := by
  have hprepare : prepareWriterLocalCommit batch = .ok ⟨batch.operations,
      batch.commitSequenceStamps, groupDeltas (indexOperations batch.operations)⟩ :=
    if_neg (Nat.not_lt.mpr hlength)
  simp only [commit, hprepare, sequenceWriterLocalState, if_neg hne, hreserve,
    resolveCommitSequence_eq slot hprepare]
  cases batch.commitSequenceStamps.foldlM (stampOperations (sequenceBytes slot))
    batch.operations with
  | ok written => rfl
  | error error =>
    cases reserved.markSkipped slot with
    | ok skipped => rfl
    | error failure => rfl

/-- A batch that calls make is logged and applied with the sequence of its slot in the eight bytes
that were left for it, big-endian, and otherwise as it was made; the deltas that are applied have
exactly the operations that are logged. If a stamp does not fit, the slot is skipped and nothing is
logged or applied. -/
theorem commit_stamps (state : WriteState) {slot : ℕ} {reserved : CommitTracker}
    (hreserve : state.tracker.reserveSlot = .ok (slot, reserved)) :
    (sequenceBytes slot).length = 8 ∧ beValue (sequenceBytes slot) = slot ∧
    (∀ (calls : List BatchCall) (batch : WriteBatch), calls ≠ [] →
      batch.operations.length ≤ maxBatchIndex →
      calls.foldlM WriteBatch.call ⟨[], []⟩ = .ok batch →
        batch.operations = calls.map (BatchCall.operation (List.replicate 8 0)) ∧
        state.commit batch = (.ok (some slot), state.wrote reserved slot
          (calls.map (BatchCall.operation (sequenceBytes slot))))) ∧
    (∀ batch : WriteBatch, batch.operations ≠ [] → batch.operations.length ≤ maxBatchIndex →
      (∃ stamp ∈ batch.commitSequenceStamps, ¬stamp.Fits batch.operations) →
        ∃ error skipped, reserved.markSkipped slot = .ok skipped ∧
          state.commit batch = (.error error, { state with tracker := skipped })) ∧
    ∀ written : List BatchOperation,
      ((groupDeltas (indexOperations written)).flatMap PreparedShardDelta.operations).Perm
        (indexOperations written) := by
  have hbytes : (sequenceBytes slot).length = 8 := by simp [sequenceBytes]
  refine ⟨hbytes, ?_, fun calls batch hne hlength hcalls => ?_, fun batch hne hlength hmisfit => ?_,
    fun written => flatMap_groupDeltas _⟩
  · obtain ⟨hslot, hlast, -⟩ := CommitTracker.reserveSlot_eq_ok hreserve
    exact beValue_sequenceBytes (hlast ▸ reserved.last_le)
  · obtain ⟨hoperations, hstamps⟩ := foldlM_stampOperations_of_calls hbytes hcalls
    refine ⟨hoperations, ?_⟩
    rw [commit_of_reserveSlot hreserve (by simpa [hoperations] using hne) hlength, hstamps]
  · obtain ⟨stamp, hstamp, hnot⟩ := hmisfit
    obtain ⟨-, -, -, hopen⟩ := CommitTracker.reserveSlot_eq_ok hreserve
    obtain ⟨skipped, hskipped⟩ := CommitTracker.exists_markSkipped ((hopen slot).mpr (Or.inr rfl))
    cases hfold : batch.commitSequenceStamps.foldlM (stampOperations (sequenceBytes slot))
      batch.operations with
    | ok written =>
      exact absurd (fits_of_foldlM hbytes hfold stamp hstamp) hnot
    | error error =>
      refine ⟨error, skipped, hskipped, ?_⟩
      rw [commit_of_reserveSlot hreserve hne hlength, hfold, hskipped]

theorem commit_stamps_put :
    let state : WriteState := ⟨.new 4 (by decide), [], []⟩
    let calls := [BatchCall.push (.delete "a" [1]), .putWithCommitSequence "b" [2] [3] [4]]
    ∃ batch reserved, calls.foldlM WriteBatch.call ⟨[], []⟩ = .ok batch ∧
      state.commit batch = (.ok (some 5), state.wrote reserved 5
        [.delete "a" [1], .put "b" [2] [3, 0, 0, 0, 0, 0, 0, 0, 5, 4]]) := by
  intro state calls
  obtain ⟨reserved, hreserve⟩ : ∃ reserved, state.tracker.reserveSlot = .ok (5, reserved) :=
    ⟨_, rfl⟩
  obtain ⟨batch, hbatch⟩ : ∃ batch, calls.foldlM WriteBatch.call ⟨[], []⟩ = .ok batch := ⟨_, rfl⟩
  have hlength : batch.operations.length ≤ maxBatchIndex := by
    rw [← Except.ok.inj hbatch]
    decide
  obtain ⟨-, hcommit⟩ :=
    (commit_stamps state hreserve).2.2.1 calls batch (by simp [calls]) hlength hbatch
  exact ⟨batch, reserved, hbatch, hcommit⟩

end WriteState

end TrineKv
