import TrineKv.Commit.ReplayFloor
import TrineKv.Wal.LaneOrder

/-!
# Sequences after a crash

A crash keeps the frames of a lane up to the point to which its file was synced; manifest and tables
are synced before they count as published. On the next open the frames above the replay floor are
merged and replayed, and commits continue after the last of them. Lanes are synced at any time here,
and by rewrites.

A flush may publish records above its own floor. Only the log leads the next sequence past them, and
their frames need not be synced.

## Main results

* `LoggedState.fresh_of_run`: recovered sequences are fresh.
* `LoggedState.unsyncedFlush_not_fresh`: a lost frame.
-/

namespace TrineKv

open List ByteCodec Function

/-! ## Lanes -/

namespace Wal

structure Lane where
  frames : List WalBatch
  synced : ℕ
  deriving DecidableEq

namespace Lane

variable (lane : Lane)

/-- The frames that every crash keeps. -/
def syncedFrames : List WalBatch := lane.frames.take lane.synced

def append (batch : WalBatch) : Lane := { lane with frames := lane.frames ++ [batch] }

def sync : Lane := { lane with synced := lane.frames.length }

/-- Replace the file by a synced one with the frames above the floor. -/
def rewriteAfterReplayFloor (replayFloor : ℕ) : Lane :=
  let kept := lane.frames.filter fun batch => decide (replayFloor < batch.sequence.toNat)
  ⟨kept, kept.length⟩

/-- A crash that keeps some number of frames. -/
def crash (kept : ℕ) : Lane := { lane with frames := lane.frames.take kept }

variable {lane} {batch : WalBatch}

lemma mem_syncedFrames_append (h : batch ∈ lane.syncedFrames) (appended : WalBatch) :
    batch ∈ (lane.append appended).syncedFrames := by
  rw [syncedFrames, append, take_append]
  exact mem_append_left _ h

lemma mem_syncedFrames_sync (h : batch ∈ lane.syncedFrames) : batch ∈ lane.sync.syncedFrames := by
  rw [syncedFrames, sync, take_length]
  exact mem_of_mem_take h

lemma mem_syncedFrames_rewrite (h : batch ∈ lane.syncedFrames) {replayFloor : ℕ}
    (hfloor : replayFloor < batch.sequence.toNat) :
    batch ∈ (lane.rewriteAfterReplayFloor replayFloor).syncedFrames := by
  rw [syncedFrames, rewriteAfterReplayFloor, take_length]
  exact mem_filter.mpr ⟨mem_of_mem_take h, decide_eq_true hfloor⟩

lemma mem_syncedFrames_crash (h : batch ∈ lane.syncedFrames) {kept : ℕ}
    (hkept : lane.synced ≤ kept) : batch ∈ (lane.crash kept).syncedFrames := by
  rw [syncedFrames, crash, take_take, min_eq_left hkept]
  exact h

lemma mem_frames (h : batch ∈ lane.syncedFrames) : batch ∈ lane.frames := mem_of_mem_take h

end Lane

lemma mem_of_mergeBatchStreamsBySequence {streams : List (List WalBatch)} {merged : List WalBatch}
    (h : mergeBatchStreamsBySequence streams = .ok merged) {batch : WalBatch} :
    batch ∈ merged ↔ ∃ stream ∈ streams, batch ∈ stream := by
  simp only [mergeBatchStreamsBySequence, bind_eq_ok] at h
  obtain ⟨-, -, h⟩ := h
  split_ifs at h
  · obtain ⟨_, herror, -⟩ := bind_eq_ok.mp h
    cases herror
  · obtain rfl : sortBySequence streams.flatten = merged := Except.ok.inj h
    rw [(sortBySequence_perm _).mem_iff, mem_flatten]

end Wal

/-! ## Replay -/

section Replay

open Wal

/-- Write operations of a logged commit to the active memtables of their buckets. -/
def replayOperations (sequence : UInt64) :
    List (BatchOperation × UInt32) → (String → Option TreeState) →
      Except Error (String → Option TreeState)
  | [], buckets => .ok buckets
  | operation :: operations, buckets =>
    match buckets operation.1.bucket with
    | some tree => replayOperations sequence operations
        (update buckets operation.1.bucket
          (some (tree.applyOperation sequence operation)))
    | none => .error (.corruption
        ("WAL references bucket missing from manifest: " ++ operation.1.bucket))

def replayWalBatchesFrom (replayFloor : ℕ) :
    ℕ → ℕ → List WalBatch → (String → Option TreeState) →
      Except Error (ℕ × (String → Option TreeState))
  | _, lastCommitted, [], buckets => .ok (lastCommitted, buckets)
  | lastSeen, lastCommitted, batch :: batches, buckets =>
    if batch.sequence.toNat ≤ lastSeen then .error (.corruption "WAL sequence did not increase")
    else if maxBatchIndex < batch.operations.length then
      .error (.invalidOptions "write batch operation count exceeds u32::MAX")
    else if batch.sequence.toNat ≤ replayFloor then
      replayWalBatchesFrom replayFloor batch.sequence.toNat lastCommitted batches buckets
    else
      match replayOperations batch.sequence (indexOperations batch.operations) buckets with
      | .ok buckets =>
        replayWalBatchesFrom replayFloor batch.sequence.toNat batch.sequence.toNat batches buckets
      | .error error => .error error

/-- Replay the log above the floor. The result has the last committed sequence. -/
def replayWalBatchesIntoBuckets (buckets : String → Option TreeState) (batches : List WalBatch)
    (replayFloor : ℕ) : Except Error (ℕ × (String → Option TreeState)) :=
  replayWalBatchesFrom replayFloor 0 replayFloor batches buckets

variable {replayFloor : ℕ} {buckets replayed : String → Option TreeState}

def UnflushedWithin (replayFloor last : ℕ) (buckets : String → Option TreeState) : Prop :=
  ∀ bucket tree, buckets bucket = some tree → ∀ change ∈ tree.unflushedChanges,
    replayFloor < change.sequence ∧ change.sequence ≤ last

lemma TreeState.mem_unflushedChanges_applyOperation {tree : TreeState} {sequence : UInt64}
    {operation : BatchOperation × UInt32} {change : Change}
    (h : change ∈ (tree.applyOperation sequence operation).unflushedChanges) :
    change ∈ tree.unflushedChanges ∨ change.sequence = sequence.toNat := by
  rw [mem_unflushedChanges, immutableMemtables_applyOperation] at h
  rw [mem_unflushedChanges]
  rcases h with h | h
  · cases change with
    | version record =>
      rw [activeChanges, version_mem_changesOf] at h ⊢
      rcases mem_entries_applyOperation.mp h with hwritten | ⟨hkept, -⟩
      · exact .inr (BatchOperation.sequence_of_mem_toRecord hwritten).1
      · exact .inl (.inl hkept)
    | deletion tombstone =>
      rw [activeChanges, deletion_mem_changesOf] at h ⊢
      rcases mem_rangeTombstones_applyOperation.mp h with hkept | hwritten
      · exact .inl (.inl hkept)
      · exact .inr (BatchOperation.sequence_of_mem_toTombstone hwritten)
  · exact .inl (.inr h)

lemma replayOperations_spec {sequence : UInt64} {operations : List (BatchOperation × UInt32)}
    (h : replayOperations sequence operations buckets = .ok replayed) :
    (∀ bucket, (replayed bucket).isSome = (buckets bucket).isSome) ∧
      ∀ last, last ≤ sequence.toNat → replayFloor < sequence.toNat →
        UnflushedWithin replayFloor last buckets →
          UnflushedWithin replayFloor sequence.toNat replayed := by
  induction operations generalizing buckets with
  | nil =>
    obtain rfl : buckets = replayed := Except.ok.inj h
    exact ⟨fun _ => rfl, fun last hlast _ hwithin bucket tree htree change hchange =>
      (hwithin bucket tree htree change hchange).imp_right fun hle => hle.trans hlast⟩
  | cons operation operations ih =>
    simp only [replayOperations] at h
    split at h
    · next tree htree =>
      obtain ⟨hsome, hwithin⟩ := ih h
      constructor
      · intro bucket
        rw [hsome]
        by_cases heq : bucket = operation.1.bucket
        · subst heq
          simp [htree]
        · simp [heq]
      · intro last hlast hfloor hbuckets
        refine hwithin sequence.toNat le_rfl hfloor fun bucket other hother change hchange => ?_
        by_cases heq : bucket = operation.1.bucket
        · subst heq
          simp only [update_self, Option.some.injEq] at hother
          subst hother
          rcases TreeState.mem_unflushedChanges_applyOperation hchange with hkept | hnew
          · exact (hbuckets _ tree htree change hkept).imp_right fun hle => hle.trans hlast
          · omega
        · rw [update_of_ne heq] at hother
          exact (hbuckets bucket other hother change hchange).imp_right fun hle => hle.trans hlast
    · cases h

/-- The replay ends at a sequence that is not below the floor nor below any batch, and its changes
lie between them.

**Proof sketch.** Induction on the batches. The last sequence replayed is the floor or the last
sequence seen, so a batch that is replayed lies above it, and one that is left out lies below the
floor. -/
lemma replayWalBatchesFrom_spec {batches : List WalBatch} {lastSeen lastCommitted last : ℕ}
    (hfloor : replayFloor ≤ lastCommitted) (hseen : lastCommitted ≤ max replayFloor lastSeen)
    (h : replayWalBatchesFrom replayFloor lastSeen lastCommitted batches buckets =
      .ok (last, replayed)) :
    lastCommitted ≤ last ∧ (∀ batch ∈ batches, batch.sequence.toNat ≤ last) ∧
      (∀ bucket, (replayed bucket).isSome = (buckets bucket).isSome) ∧
      (UnflushedWithin replayFloor lastCommitted buckets →
        UnflushedWithin replayFloor last replayed) := by
  induction batches generalizing lastSeen lastCommitted buckets with
  | nil =>
    obtain ⟨rfl, rfl⟩ := Prod.mk.inj (Except.ok.inj h)
    exact ⟨le_rfl, nofun, fun _ => rfl, id⟩
  | cons batch batches ih =>
    simp only [replayWalBatchesFrom] at h
    split_ifs at h with hold hlength hskip
    · obtain ⟨hle, hbatches, hsome, hwithin⟩ := ih hfloor (by omega) h
      exact ⟨hle, forall_mem_cons.mpr ⟨by omega, hbatches⟩, hsome, hwithin⟩
    · split at h
      · next written hwritten =>
        obtain ⟨hsome', hwithin'⟩ := replayOperations_spec hwritten
        obtain ⟨hle, hbatches, hsome, hwithin⟩ := ih (by omega) (by omega) h
        refine ⟨by omega, forall_mem_cons.mpr ⟨hle, hbatches⟩,
          fun bucket => (hsome bucket).trans (hsome' bucket), fun hbuckets => ?_⟩
        exact hwithin (hwithin' lastCommitted (by omega) (by omega) hbuckets)
      · cases h

lemma replayWalBatchesIntoBuckets_spec {batches : List WalBatch} {last : ℕ}
    (h : replayWalBatchesIntoBuckets buckets batches replayFloor = .ok (last, replayed)) :
    replayFloor ≤ last ∧ (∀ batch ∈ batches, batch.sequence.toNat ≤ last) ∧
      (∀ bucket, (replayed bucket).isSome = (buckets bucket).isSome) ∧
      (UnflushedWithin replayFloor replayFloor buckets →
        UnflushedWithin replayFloor last replayed) :=
  replayWalBatchesFrom_spec le_rfl (le_max_left _ _) h

end Replay

/-! ## The system -/

def FlushState.StagedFloor (s : FlushState) : Prop :=
  match s.flush with
  | .manifested _ floor | .installed floor => floor = s.manifest.walReplayFloor
  | _ => True

lemma FlushState.StagedFloor.step {s s' : FlushState} (h : s.StagedFloor) {action : FlushAction}
    (hstep : s.step action = some s') : s'.StagedFloor := by
  cases action with
  | reserve write =>
    simp only [FlushState.step] at hstep
    split_ifs at hstep
    obtain ⟨after, -, rfl⟩ := Option.map_eq_some_iff.mp hstep
    exact h
  | acceptWal sequence | skip sequence | publish sequence =>
    obtain ⟨after, -, rfl⟩ := Option.map_eq_some_iff.mp hstep
    exact h
  | freezeAll =>
    obtain rfl := Option.some.inj hstep
    exact h
  | collect inputs =>
    simp only [FlushState.step] at hstep
    split_ifs at hstep
    obtain rfl := Option.some.inj hstep
    trivial
  | computeFloor | rewriteWal | abandon =>
    simp only [FlushState.step] at hstep
    split at hstep <;> cases hstep <;> trivial
  | publishManifest =>
    simp only [FlushState.step] at hstep
    split at hstep
    · split_ifs at hstep
      cases hstep
      exact rfl
    · cases hstep
  | install =>
    simp only [FlushState.step] at hstep
    split at hstep
    · next inputs floor hflush =>
      obtain rfl := Option.some.inj hstep
      rw [StagedFloor, hflush] at h
      exact h
    · cases hstep

/-- A tree as it is loaded from the manifest: the memtables are gone. -/
def TreeState.withoutMemtables (tree : TreeState) : TreeState :=
  { tree with
    deltaMirrorSequence := 0
    activeMemtable := .empty
    activeAddress := 0
    rangeTombstones := []
    immutableMemtables := [] }

structure LoggedState where
  base : FlushState
  frontDoor : Wal.FrontDoor
  lanes : ℕ → Wal.Lane
  /-- The sequences of the frames that have been appended since the database was opened. -/
  appended : List UInt64

namespace LoggedState

open Wal

inductive Action where
  /-- The worker of a lane appends the frame of a commit. -/
  | append (sequence : UInt64)
  /-- The log accepts a commit whose frame has been appended. -/
  | acceptWal (sequence : UInt64)
  /-- The worker of a lane syncs its file. -/
  | sync (shard : ℕ)
  /-- The worker of a lane removes the frames up to the floor of the flush. -/
  | rewriteLane (shard : ℕ)
  /-- Another step of a writer or of the flush. -/
  | take (action : FlushAction)
  /-- A crash that keeps some number of frames of each lane, after which the database is opened
  again. -/
  | crash (kept : ℕ → ℕ) (frontDoor : FrontDoor)

def survivors (state : LoggedState) (kept : ℕ → ℕ) : List (List WalBatch) :=
  state.frontDoor.shards.map fun shard =>
    ((state.lanes shard).crash (kept shard)).frames.filter fun batch =>
      decide (state.base.manifest.walReplayFloor < batch.sequence.toNat)

def recover (state : LoggedState) (kept : ℕ → ℕ) :
    Except Error (ℕ × (String → Option TreeState)) := do
  let batches ← mergeBatchStreamsBySequence (state.survivors kept)
  replayWalBatchesIntoBuckets
    (fun bucket => (state.base.db.buckets bucket).map TreeState.withoutMemtables) batches
    state.base.manifest.walReplayFloor

def KeepsSynced (state : LoggedState) (kept : ℕ → ℕ) : Prop :=
  ∀ shard ∈ state.frontDoor.shards, (state.lanes shard).synced ≤ kept shard

instance (state : LoggedState) (kept : ℕ → ℕ) : Decidable (state.KeepsSynced kept) :=
  inferInstanceAs (Decidable (∀ shard ∈ state.frontDoor.shards, _))

def setLane (state : LoggedState) (shard : ℕ) (lane : Lane) : LoggedState :=
  { state with lanes := update state.lanes shard lane }

def reopen (state : LoggedState) (kept : ℕ → ℕ) (frontDoor : FrontDoor) : Option LoggedState :=
  match state.recover kept with
  | .ok (visible, buckets) =>
    if h : visible ≤ maxSequence then
      some
        { base :=
            { state.base with
              db := .new .persistent state.base.db.writeBufferBytes buckets visible h
              wal := (state.survivors kept).flatten.map WalBatch.sequence
              flush := .idle }
          frontDoor
          lanes := fun shard => (state.lanes shard).crash (kept shard)
          appended := [] }
    else none
  | .error _ => none

def step (state : LoggedState) : Action → Option LoggedState
  | .append sequence =>
    match state.base.db.find sequence with
    | some commit =>
      if commit.phase = .reserved ∧ sequence ∉ state.appended then
        let shard := state.frontDoor.shardIndexForSequence sequence
        some { state.setLane shard ((state.lanes shard).append ⟨sequence, commit.operations⟩) with
          appended := sequence :: state.appended }
      else none
    | none => none
  | .acceptWal sequence =>
    if sequence ∈ state.appended then
      (state.base.step (.acceptWal sequence)).map fun base => { state with base }
    else none
  | .sync shard => some (state.setLane shard (state.lanes shard).sync)
  | .rewriteLane shard =>
    match state.base.flush with
    | .installed floor =>
      some (state.setLane shard ((state.lanes shard).rewriteAfterReplayFloor floor))
    | _ => none
  | .take (.acceptWal _) => none
  | .take action => (state.base.step action).map fun base => { state with base }
  | .crash kept frontDoor =>
    if state.KeepsSynced kept ∧ state.frontDoor.shards ⊆ frontDoor.shards then
      state.reopen kept frontDoor
    else none

/-! ## Freshness -/

/-- After every crash, the recovered sequence is not below any stored change, and the next commit
is above all of them. -/
def Fresh (state : LoggedState) : Prop :=
  ∀ kept visible buckets, state.KeepsSynced kept → state.recover kept = .ok (visible, buckets) →
    ∀ table ∈ state.base.manifest.tables, ∀ change ∈ table.changes,
      change.sequence ≤ visible ∧
        ∀ h sequence tracker,
          (CommitTracker.new visible h).reserveSlot = .ok (sequence, tracker) →
            change.sequence < sequence

def SyncedUpTo (state : LoggedState) (sequence : ℕ) : Prop :=
  ∃ shard ∈ state.frontDoor.shards, ∃ batch ∈ (state.lanes shard).syncedFrames,
    sequence ≤ batch.sequence.toNat

instance (state : LoggedState) (sequence : ℕ) : Decidable (state.SyncedUpTo sequence) :=
  inferInstanceAs (Decidable (∃ shard ∈ state.frontDoor.shards, _))

def PublishesSynced (state : LoggedState) : FlushAction → Prop
  | .publishManifest =>
    match state.base.flush with
    | .floored inputs floor =>
      ∀ table ∈ state.base.manifest.tables ++ inputs.map FlushInput.table,
        ∀ change ∈ table.changes, floor < change.sequence → state.SyncedUpTo change.sequence
    | _ => True
  | _ => True

/-- The condition on the steps of a run. -/
def Admits (state : LoggedState) : Action → Prop
  | .take action => state.PublishesSynced action
  | _ => True

/-- What holds in every state of a run that meets the condition. -/
structure Secured (state : LoggedState) : Prop where
  staged : state.base.StagedFloor
  stored : ∀ table ∈ state.base.manifest.tables, ∀ change ∈ table.changes,
    change.sequence ≤ state.base.manifest.walReplayFloor ∨ state.SyncedUpTo change.sequence

section Steps

variable {state after : LoggedState}

lemma Secured.of_synced (h : state.Secured) (hstaged : after.base.StagedFloor)
    (htables : after.base.manifest.tables = state.base.manifest.tables)
    (hfloor : state.base.manifest.walReplayFloor ≤ after.base.manifest.walReplayFloor)
    (hshards : state.frontDoor.shards ⊆ after.frontDoor.shards)
    (hsynced : ∀ shard ∈ state.frontDoor.shards, ∀ batch ∈ (state.lanes shard).syncedFrames,
      after.base.manifest.walReplayFloor < batch.sequence.toNat →
        batch ∈ (after.lanes shard).syncedFrames) : after.Secured := by
  refine ⟨hstaged, fun table htable change hchange => ?_⟩
  rw [htables] at htable
  rcases h.stored table htable change hchange with hle | ⟨shard, hshard, batch, hbatch, hle⟩
  · exact .inl (hle.trans hfloor)
  · by_cases habove : after.base.manifest.walReplayFloor < batch.sequence.toNat
    · exact .inr ⟨shard, hshards hshard, batch, hsynced shard hshard batch hbatch habove, hle⟩
    · exact .inl (hle.trans (not_lt.mp habove))

lemma Secured.setLane (h : state.Secured) {shard : ℕ} {lane : Lane}
    (hlane : ∀ batch ∈ (state.lanes shard).syncedFrames,
      state.base.manifest.walReplayFloor < batch.sequence.toNat → batch ∈ lane.syncedFrames) :
    (state.setLane shard lane).Secured := by
  refine h.of_synced h.staged rfl le_rfl (List.Subset.refl _) fun other _ batch hbatch habove => ?_
  by_cases heq : other = shard
  · subst heq
    simpa [LoggedState.setLane] using hlane batch hbatch habove
  · simpa [LoggedState.setLane, update_of_ne heq] using hbatch

lemma Secured.baseStep (h : state.Secured) {action : FlushAction} {base : FlushState}
    (hadmits : state.PublishesSynced action) (hstep : state.base.step action = some base) :
    Secured { state with base } := by
  have hstaged := h.staged.step hstep
  rcases FlushState.manifest_step hstep with hsame | ⟨inputs, floor, rfl, hflush, -, hmanifest⟩
  · exact h.of_synced hstaged (by rw [hsame]) (by rw [hsame]) (List.Subset.refl _)
      fun _ _ _ hbatch _ => hbatch
  · simp only [PublishesSynced, hflush] at hadmits
    refine ⟨hstaged, fun table htable change hchange => ?_⟩
    simp only [hmanifest] at htable ⊢
    by_cases hle : change.sequence ≤ floor
    · exact .inl hle
    · exact .inr (hadmits table htable change hchange (not_le.mp hle))

lemma recover_eq_ok {kept : ℕ → ℕ} {visible : ℕ} {buckets : String → Option TreeState}
    (h : state.recover kept = .ok (visible, buckets)) :
    state.base.manifest.walReplayFloor ≤ visible ∧
      (∀ shard ∈ state.frontDoor.shards, ∀ batch ∈ ((state.lanes shard).crash (kept shard)).frames,
        batch.sequence.toNat ≤ visible) ∧
      (∀ bucket, (buckets bucket).isSome = (state.base.db.buckets bucket).isSome) ∧
      UnflushedWithin state.base.manifest.walReplayFloor visible buckets := by
  obtain ⟨batches, hmerge, hreplay⟩ := bind_eq_ok.mp h
  obtain ⟨hfloor, hbatches, hsome, hwithin⟩ := replayWalBatchesIntoBuckets_spec hreplay
  refine ⟨hfloor, fun shard hshard batch hbatch => ?_, fun bucket => ?_, hwithin ?_⟩
  · by_cases habove : state.base.manifest.walReplayFloor < batch.sequence.toNat
    · refine hbatches batch ((mem_of_mergeBatchStreamsBySequence hmerge).mpr ?_)
      exact ⟨_, mem_map_of_mem hshard, mem_filter.mpr ⟨hbatch, decide_eq_true habove⟩⟩
    · exact (not_lt.mp habove).trans hfloor
  · rw [hsome, Option.isSome_map]
  · intro bucket tree htree change hchange
    obtain ⟨loaded, -, rfl⟩ := Option.map_eq_some_iff.mp htree
    exact absurd hchange not_mem_nil

lemma reopen_eq_some {kept : ℕ → ℕ} {frontDoor : FrontDoor}
    (h : state.reopen kept frontDoor = some after) :
    ∃ visible buckets, ∃ hmax : visible ≤ maxSequence,
      state.recover kept = .ok (visible, buckets) ∧
      after =
        { base :=
            { state.base with
              db := .new .persistent state.base.db.writeBufferBytes buckets visible hmax
              wal := (state.survivors kept).flatten.map WalBatch.sequence
              flush := .idle }
          frontDoor
          lanes := fun shard => (state.lanes shard).crash (kept shard)
          appended := [] } := by
  simp only [LoggedState.reopen] at h
  split at h
  · next visible buckets hrecover =>
    split_ifs at h with hmax
    exact ⟨visible, buckets, hmax, hrecover, (Option.some.inj h).symm⟩
  · cases h

lemma Secured.reopen (h : state.Secured) {kept : ℕ → ℕ} {frontDoor : FrontDoor}
    (hkept : state.KeepsSynced kept) (hshards : state.frontDoor.shards ⊆ frontDoor.shards)
    (hreopen : state.reopen kept frontDoor = some after) : after.Secured := by
  obtain ⟨visible, buckets, hmax, -, rfl⟩ := reopen_eq_some hreopen
  exact h.of_synced trivial rfl le_rfl hshards fun shard hshard batch hbatch _ =>
    Lane.mem_syncedFrames_crash hbatch (hkept shard hshard)

lemma Secured.step (h : state.Secured) {action : Action} (hadmits : state.Admits action)
    (hstep : state.step action = some after) : after.Secured := by
  cases action with
  | append sequence =>
    simp only [LoggedState.step] at hstep
    split at hstep
    · next commit _ =>
      split_ifs at hstep
      obtain rfl := Option.some.inj hstep
      have hlane := @Secured.setLane _ h (state.frontDoor.shardIndexForSequence sequence) _
        fun batch hbatch _ => Lane.mem_syncedFrames_append hbatch ⟨sequence, commit.operations⟩
      exact ⟨hlane.staged, hlane.stored⟩
    · cases hstep
  | acceptWal sequence =>
    simp only [LoggedState.step] at hstep
    split_ifs at hstep
    obtain ⟨base, hbase, rfl⟩ := Option.map_eq_some_iff.mp hstep
    exact @Secured.baseStep _ h (.acceptWal sequence) _ trivial hbase
  | sync shard =>
    obtain rfl := Option.some.inj hstep
    exact h.setLane fun batch hbatch _ => Lane.mem_syncedFrames_sync hbatch
  | rewriteLane shard =>
    simp only [LoggedState.step] at hstep
    split at hstep
    · next floor hflush =>
      obtain rfl := Option.some.inj hstep
      refine h.setLane fun batch hbatch habove => Lane.mem_syncedFrames_rewrite hbatch ?_
      have hfloor := h.staged
      rw [FlushState.StagedFloor, hflush] at hfloor
      rwa [hfloor]
    · cases hstep
  | take action =>
    have hbase : ∃ base, state.base.step action = some base ∧ { state with base } = after := by
      cases action with
      | acceptWal sequence => cases hstep
      | _ => exact Option.map_eq_some_iff.mp hstep
    obtain ⟨base, hbase, rfl⟩ := hbase
    exact h.baseStep hadmits hbase
  | crash kept frontDoor =>
    simp only [LoggedState.step] at hstep
    split_ifs at hstep with hkept
    exact h.reopen hkept.1 hkept.2 hstep

lemma Secured.fresh (h : state.Secured) : state.Fresh := by
  intro kept visible buckets hkept hrecover table htable change hchange
  obtain ⟨hfloor, hframes, -, -⟩ := recover_eq_ok hrecover
  have hle : change.sequence ≤ visible := by
    rcases h.stored table htable change hchange with hle | ⟨shard, hshard, batch, hbatch, hle⟩
    · exact hle.trans hfloor
    · have hkeep := Lane.mem_syncedFrames_crash hbatch (hkept shard hshard)
      exact hle.trans (hframes shard hshard batch (Lane.mem_frames hkeep))
  refine ⟨hle, fun hmax sequence tracker hreserve => ?_⟩
  rw [(CommitTracker.reserveSlot_eq_ok hreserve).1]
  exact Nat.lt_succ_of_le hle

end Steps

/-- In every run of commits, flushes, syncs, rewrites and crashes of a new database whose steps meet
the condition, the sequence that is recovered after the next crash is not below any stored
change. -/
theorem fresh_of_run {created state : LoggedState} (hidle : created.base.flush = .idle)
    (htables : created.base.manifest.tables = []) {actions : List Action}
    (hrun : Runs.run step created actions = some state)
    (hmeets : Runs.Meets step Admits created actions) : state.Fresh := by
  have hcreated : created.Secured := by
    refine ⟨by rw [FlushState.StagedFloor, hidle]; trivial, fun table htable => ?_⟩
    rw [htables] at htable
    exact absurd htable not_mem_nil
  exact (Runs.invariant_of_step (fun _ _ _ hsecured hadmits hstep => hsecured.step hadmits hstep)
    hcreated hrun hmeets).fresh

instance (state : LoggedState) : (action : FlushAction) → Decidable (state.PublishesSynced action)
  | .publishManifest =>
    match h : state.base.flush with
    | .floored inputs floor => decidable_of_iff
        (∀ table ∈ state.base.manifest.tables ++ inputs.map FlushInput.table,
          ∀ change ∈ table.changes, floor < change.sequence → state.SyncedUpTo change.sequence)
        (by simp only [PublishesSynced, h])
    | .idle | .collected _ | .manifested _ _ | .installed _ =>
      isTrue (by simp only [PublishesSynced, h])
  | .reserve _ | .acceptWal _ | .skip _ | .publish _ | .freezeAll | .collect _ | .computeFloor
  | .install | .rewriteWal | .abandon => isTrue trivial

instance (state : LoggedState) : (action : Action) → Decidable (state.Admits action)
  | .take action =>
    inferInstanceAs (Decidable (state.PublishesSynced action))
  | .append _ | .acceptWal _ | .sync _ | .rewriteLane _ | .crash _ _ => isTrue trivial

def oneLane : FrontDoor where
  activeShardCount := 1
  shards := [0]
  activeShardCount_pos := Nat.one_pos
  active_mem shard hshard := by simp [Nat.lt_one_iff.mp hshard]
  nodup := nodup_singleton 0

def emptyDatabase : LoggedState where
  base := FlushState.emptyDatabase
  frontDoor := oneLane
  lanes _ := ⟨[], 0⟩
  appended := []

/-- The log accepts commits 1 and 2. Commit 2 is published and its memtable is collected for a
flush, and the floor is computed while commit 1 is open. -/
def flushSecondCommit : List Action :=
  [.take (.reserve (CommitState.blindPut [97] [1])), .append 1, .acceptWal 1,
    .take (.reserve (CommitState.blindPut [98] [2])), .append 2, .acceptWal 2,
    .take (.publish 2), .take .freezeAll,
    .take (.collect [FlushState.frozenPut [98] [2] 2 0 0]), .take .computeFloor]

theorem syncedFlush_fresh :
    ∃ state, Runs.run step emptyDatabase (flushSecondCommit ++
        [.sync 0, .take .publishManifest, .crash (fun _ => 2) oneLane]) = some state ∧
      state.base.db.tracker.visibleSequence = 2 ∧ state.Fresh := by
  have hrun : (Runs.run step emptyDatabase (flushSecondCommit ++
      [.sync 0, .take .publishManifest, .crash (fun _ => 2) oneLane])).map
      (fun state => state.base.db.tracker.visibleSequence) = some 2 := by decide
  have hmeets : Runs.Meets step Admits emptyDatabase (flushSecondCommit ++
      [.sync 0, .take .publishManifest, .crash (fun _ => 2) oneLane]) := by decide
  obtain ⟨state, hrun, hvisible⟩ := Option.map_eq_some_iff.mp hrun
  exact ⟨state, hrun, hvisible,
    fresh_of_run rfl rfl hrun hmeets⟩

/-- The manifest is published while the log is not synced. A crash loses both frames, and the
recovered sequence is 0 although a record of commit 2 is stored. -/
theorem unsyncedFlush_not_fresh :
    ∃ state, Runs.run step emptyDatabase (flushSecondCommit ++ [.take .publishManifest]) =
        some state ∧ (∃ buckets, state.recover (fun _ => 0) = .ok (0, buckets)) ∧
      ¬state.Fresh := by
  have hrun : (Runs.run step emptyDatabase (flushSecondCommit ++ [.take .publishManifest])).map
      (fun state => (state.base.manifest, decide (state.KeepsSynced fun _ => 0),
        (state.recover fun _ => 0).map Prod.fst)) =
      some (⟨[(FlushState.frozenPut [98] [2] 2 0 0).table], 0⟩, true, .ok 0) := by decide
  obtain ⟨state, hrun, hstate⟩ := Option.map_eq_some_iff.mp hrun
  simp only [Prod.mk.injEq, decide_eq_true_eq] at hstate
  obtain ⟨hmanifest, hkept, hrecover⟩ := hstate
  obtain ⟨buckets, hrecover⟩ : ∃ buckets, state.recover (fun _ => 0) = .ok (0, buckets) := by
    cases hcase : state.recover fun _ => 0 with
    | error error =>
      rw [hcase] at hrecover
      cases hrecover
    | ok result =>
      rw [hcase] at hrecover
      exact ⟨result.2, by rw [← Except.ok.inj hrecover]⟩
  refine ⟨state, hrun, ⟨buckets, hrecover⟩, fun hfresh => ?_⟩
  have hle := (hfresh _ 0 buckets hkept hrecover (FlushState.frozenPut [98] [2] 2 0 0).table
    (by rw [hmanifest]; exact mem_cons_self) (.version (.ofPut [98] [2] 2 0)) (by decide)).1
  revert hle
  decide

end LoggedState

end TrineKv
