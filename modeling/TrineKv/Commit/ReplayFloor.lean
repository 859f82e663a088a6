import TrineKv.Commit.Isolation
import TrineKv.Lsm.Flush

/-!
# The replay floor

After a flush the manifest is published with its tables and a replay floor, above which the log is
kept and replayed: the oldest sequence in the memtables that are not flushed, minus one, or the
visible sequence when there are none. Commits and freezes go on between the parts of a flush.
Publication of a commit and the closing of its slot are one step, under the lock that the floor is
computed under.

The floor knows nothing of a commit that the log has accepted and that is in no memtable yet, and
can pass over it.

## Main results

* `FlushState.floorSafe_of_run`: the floor does not decrease, and is safe if no floor passes over
  an open commit.
* `FlushState.lostCommit_not_floorSafe`: a floor that passes over one.
-/

namespace TrineKv

open List
open Option (isSome_map map_eq_some_iff)

variable {bucket : String} {immutable : ImmutableMemtable} {write : PendingWrite}

/-! ## The system -/

structure FlushInput where
  bucket : String
  immutable : ImmutableMemtable
  deriving DecidableEq

structure ManifestTable where
  bucket : String
  records : List PointRecord
  rangeTombstones : List RangeTombstone
  deriving DecidableEq

def ManifestTable.changes (table : ManifestTable) : List Change :=
  changesOf table.records table.rangeTombstones

def FlushInput.table (input : FlushInput) : ManifestTable where
  bucket := input.bucket
  records := input.immutable.memtable.entries
  rangeTombstones := input.immutable.rangeTombstones

/-- The published tables and the sequence above which the log is replayed. -/
structure Manifest where
  tables : List ManifestTable
  walReplayFloor : ℕ
  deriving DecidableEq

/-- How far the running flush is. -/
inductive FlushStage where
  | idle
  | collected (inputs : List FlushInput)
  | floored (inputs : List FlushInput) (floor : ℕ)
  | manifested (inputs : List FlushInput) (floor : ℕ)
  | installed (floor : ℕ)
  deriving DecidableEq

structure FlushState where
  db : Database
  bucketNames : List String
  wal : List UInt64
  manifest : Manifest
  flush : FlushStage

/-- A step of a writer or of the flush. -/
inductive FlushAction where
  | reserve (write : PendingWrite)
  | acceptWal (sequence : UInt64)
  | skip (sequence : UInt64)
  | publish (sequence : UInt64)
  /-- Freeze all active memtables. -/
  | freezeAll
  /-- Start a flush of frozen memtables. -/
  | collect (inputs : List FlushInput)
  | computeFloor
  | publishManifest
  | install
  | rewriteWal
  /-- Give the flush up before the manifest has been published. -/
  | abandon

def flushedOf (inputs : List FlushInput) (bucket : String) : List ImmutableMemtable :=
  (inputs.filter fun input => input.bucket = bucket).map FlushInput.immutable

lemma mem_flushedOf {inputs : List FlushInput} :
    immutable ∈ flushedOf inputs bucket ↔ ⟨bucket, immutable⟩ ∈ inputs := by
  simp only [flushedOf, mem_map, mem_filter, decide_eq_true_eq]
  constructor
  · rintro ⟨⟨_, _⟩, ⟨hinput, rfl⟩, rfl⟩
    exact hinput
  · exact fun h => ⟨_, ⟨h, rfl⟩, rfl⟩

namespace FlushState

def oldestOf (s : FlushState) (inputs : List FlushInput) (bucket : String) : Option ℕ :=
  (s.db.buckets bucket).bind fun tree =>
    tree.oldestUnflushedSequenceExcluding (flushedOf inputs bucket)

def replayFloorAfterFlush (s : FlushState) (inputs : List FlushInput) : ℕ :=
  match (s.bucketNames.filterMap (s.oldestOf inputs)).min? with
  | some oldest => oldest - 1
  | none => s.db.tracker.visibleSequence

def mapTrees (s : FlushState) (f : String → TreeState → TreeState) : FlushState :=
  { s with db := { s.db with buckets := fun bucket => (s.db.buckets bucket).map (f bucket) } }

/-- Remove the flushed memtables from the queue of a bucket. A memtable is told apart from all
others by its address. -/
def installFlush (inputs : List FlushInput) (bucket : String) (tree : TreeState) : TreeState :=
  { tree with
    immutableMemtables := tree.immutableMemtables.filter fun immutable =>
      immutable ∉ flushedOf inputs bucket }

def isQueued (s : FlushState) (input : FlushInput) : Bool :=
  (s.db.buckets input.bucket).any fun tree => input.immutable ∈ tree.immutableMemtables

def step (s : FlushState) : FlushAction → Option FlushState
  | .reserve write =>
    if write.operations ≠ [] ∧ CommitState.resolvesBuckets s.db write.operations then
      (s.db.reserve write.operations write.length_le write.reads).map fun db => { s with db }
    else none
  | .acceptWal sequence =>
    (s.db.acceptWal sequence).map fun db => { s with db, wal := s.wal ++ [sequence] }
  | .skip sequence => (s.db.skip sequence).map fun db => { s with db }
  | .publish sequence =>
    ((s.db.publish sequence).bind fun db => db.markVisible sequence).map fun db => { s with db }
  | .freezeAll =>
    some (s.mapTrees fun _ tree => tree.freezeActiveMemtable s.db.tracker.visibleSequence)
  | .collect inputs =>
    if s.flush = .idle ∧ inputs ≠ [] ∧ inputs.all s.isQueued then
      some { s with flush := .collected inputs }
    else none
  | .computeFloor =>
    match s.flush with
    | .collected inputs => some { s with flush := .floored inputs (s.replayFloorAfterFlush inputs) }
    | _ => none
  | .publishManifest =>
    match s.flush with
    | .floored inputs floor =>
      -- The check of a successor of the manifest: its floor is not lower.
      if s.manifest.walReplayFloor ≤ floor then
        some { s with
          manifest := ⟨s.manifest.tables ++ inputs.map FlushInput.table, floor⟩
          flush := .manifested inputs floor }
      else none
    | _ => none
  | .install =>
    match s.flush with
    | .manifested inputs floor =>
      some { s.mapTrees (installFlush inputs) with flush := .installed floor }
    | _ => none
  | .rewriteWal =>
    match s.flush with
    | .installed floor =>
      some { s with
        wal := s.wal.filter fun sequence => floor < sequence.toNat
        flush := .idle }
    | _ => none
  | .abandon =>
    match s.flush with
    | .collected _ => some { s with flush := .idle }
    | .floored _ _ => some { s with flush := .idle }
    | _ => none

/-! ## What recovery relies on -/

def isAccepted (commit : Commit) : Bool :=
  match commit.phase with
  | .durable | .published | .visible => true
  | .reserved | .skipped => false

def InTables (tables : List ManifestTable) (commit : Commit) : Prop :=
  ∀ bucket, ∀ operation ∈ commit.operationsOn bucket, ∃ table ∈ tables,
    table.bucket = bucket ∧ operation.1.toChange commit.sequence operation.2 ∈ table.changes

def Flushed (s : FlushState) (commit : Commit) : Prop := InTables s.manifest.tables commit

def FloorSafe (s : FlushState) : Prop :=
  ∀ commit ∈ s.db.commits, isAccepted commit = true →
    commit.sequence.toNat ≤ s.manifest.walReplayFloor → s.Flushed commit

def Recoverable (s : FlushState) : Prop :=
  ∀ commit ∈ s.db.commits, isAccepted commit = true →
    commit.sequence ∈ s.wal ∨ s.Flushed commit

def unflushed (s : FlushState) (inputs : List FlushInput) : List Change :=
  s.bucketNames.flatMap fun bucket =>
    (s.db.buckets bucket).elim [] fun tree => tree.unflushedExcluding (flushedOf inputs bucket)

/-- If the flush leaves changes in the memtables, one is not newer than any given open commit. -/
def Admits (s : FlushState) : FlushAction → Prop
  | .computeFloor =>
    match s.flush with
    | .collected inputs =>
      s.unflushed inputs ≠ [] → ∀ commit ∈ s.db.commits, commit.phase.isOpen = true →
        ∃ change ∈ s.unflushed inputs, change.sequence ≤ commit.sequence.toNat
    | _ => True
  | _ => True

/-- A database that has just been opened: the log has been replayed above the floor. -/
structure Opened (s : FlushState) : Prop where
  mode_eq : s.db.mode = .persistent
  commits_eq : s.db.commits = []
  names : ∀ bucket, (s.db.buckets bucket).isSome → bucket ∈ s.bucketNames
  flush_eq : s.flush = .idle
  floor_le : s.manifest.walReplayFloor ≤ s.db.tracker.visibleSequence
  unflushed_bounds : ∀ bucket tree, s.db.buckets bucket = some tree →
    ∀ change ∈ tree.unflushedChanges, s.manifest.walReplayFloor < change.sequence ∧
      change.sequence ≤ s.db.tracker.visibleSequence

/-! ## Where commits are -/

structure Placed (db : Database) (tables : List ManifestTable) : Prop where
  mode_eq : db.mode = .persistent
  resolves : ∀ commit ∈ db.commits, ∀ operation ∈ commit.operations,
    (db.buckets operation.bucket).isSome
  bounded : ∀ bucket tree, db.buckets bucket = some tree → ∀ change ∈ tree.unflushedChanges,
    change.sequence ≤ db.tracker.lastReservedSequence
  phase_ne : ∀ commit ∈ db.commits, commit.phase ≠ .published
  stored : ∀ commit ∈ db.commits, commit.phase = .visible → ∀ bucket,
    ∀ operation ∈ commit.operationsOn bucket,
      (∃ tree, db.buckets bucket = some tree ∧
        operation.1.toChange commit.sequence operation.2 ∈ tree.unflushedChanges) ∨
      ∃ table ∈ tables, table.bucket = bucket ∧
        operation.1.toChange commit.sequence operation.2 ∈ table.changes

/-- The sequence is a safe floor once the memtables have been flushed to the tables: it lies below
all open commits and all other changes in memtables, and what is done up to it is in the tables. -/
structure Covered (db : Database) (inputs : List FlushInput) (tables : List ManifestTable)
    (floor : ℕ) : Prop where
  le_last : floor ≤ db.tracker.lastReservedSequence
  open_above : ∀ commit ∈ db.commits, commit.phase.isOpen = true → floor < commit.sequence.toNat
  unflushed_above : ∀ bucket tree, db.buckets bucket = some tree →
    ∀ change ∈ tree.unflushedExcluding (flushedOf inputs bucket), floor < change.sequence
  flushed : ∀ commit ∈ db.commits, commit.phase = .visible → commit.sequence.toNat ≤ floor →
    InTables tables commit

lemma Covered.inTables {db : Database} {inputs : List FlushInput} {tables : List ManifestTable}
    {floor : ℕ} (h : Covered db inputs tables floor) {commit : Commit}
    (hcommit : commit ∈ db.commits) (hphase : commit.phase ≠ .skipped)
    (hle : commit.sequence.toNat ≤ floor) : InTables tables commit := by
  cases hcase : commit.phase with
  | visible => exact h.flushed commit hcommit hcase hle
  | skipped => exact absurd hcase hphase
  | reserved | durable | published =>
    have := h.open_above commit hcommit (by rw [hcase]; rfl)
    omega

/-! ## Steps of commits -/

section CommitSteps

variable {db after : Database} {inputs : List FlushInput} {tables : List ManifestTable}
  {floor : ℕ} {sequence : UInt64} {old new : CommitPhase}

/-- A reservation keeps commits where they are. -/
lemma Placed.reserve (h : Placed db tables)
    (hresolves : CommitState.resolvesBuckets db write.operations = true)
    (hreserve : db.reserve write.operations write.length_le write.reads = some after) :
    Placed after tables := by
  obtain ⟨commit, hops, -, hphase, hseq, hcommits, hmode, -, hbuckets, hlast, -⟩ :=
    Database.reserve_eq_some hreserve
  constructor
  · rw [hmode, h.mode_eq]
  · intro other hother
    rw [hbuckets]
    rw [hcommits, mem_append, mem_singleton] at hother
    rcases hother with hother | rfl
    · exact h.resolves other hother
    · rw [hops]
      exact all_eq_true.mp hresolves
  · intro bucket tree htree change hchange
    rw [hbuckets] at htree
    rw [hlast]
    exact (h.bounded bucket tree htree change hchange).trans (Nat.le_succ _)
  · intro other hother
    rw [hcommits, mem_append, mem_singleton] at hother
    rcases hother with hother | rfl
    · exact h.phase_ne other hother
    · simp [hphase]
  · intro other hother hvisible
    rw [hbuckets]
    rw [hcommits, mem_append, mem_singleton] at hother
    rcases hother with hother | rfl
    · exact h.stored other hother hvisible
    · simp [hphase] at hvisible

lemma Covered.reserve (h : Covered db inputs tables floor)
    (hreserve : db.reserve write.operations write.length_le write.reads = some after) :
    Covered after inputs tables floor := by
  obtain ⟨commit, -, -, hphase, hseq, hcommits, -, -, hbuckets, hlast, -⟩ :=
    Database.reserve_eq_some hreserve
  have hle := h.le_last
  constructor
  · omega
  · intro other hother hopen
    rw [hcommits, mem_append, mem_singleton] at hother
    rcases hother with hother | rfl
    · exact h.open_above other hother hopen
    · omega
  · rw [hbuckets]
    exact h.unflushed_above
  · intro other hother hvisible
    rw [hcommits, mem_append, mem_singleton] at hother
    rcases hother with hother | rfl
    · exact h.flushed other hother hvisible
    · simp [hphase] at hvisible

/-- A step that leaves the trees alone and makes nothing visible keeps commits where they are. -/
lemma Placed.moves (h : Placed db tables) (hmoves : Database.Moves db after sequence old new)
    (hbuckets : after.buckets = db.buckets)
    (hlast : after.tracker.lastReservedSequence = db.tracker.lastReservedSequence)
    (hnew : new ≠ .published ∧ new ≠ .visible) : Placed after tables := by
  constructor
  · rw [hmoves.mode_eq, h.mode_eq]
  · intro commit hcommit
    obtain ⟨before, hbefore, -, hops, -⟩ := hmoves.mem hcommit
    rw [hbuckets, ← hops]
    exact h.resolves before hbefore
  · rw [hbuckets, hlast]
    exact h.bounded
  · intro commit hcommit
    obtain ⟨before, hbefore, -, -, -, hself, hother⟩ := hmoves.mem hcommit
    by_cases heq : before.sequence = sequence
    · rw [(hself heq).2]
      exact hnew.1
    · obtain rfl := hother heq
      exact h.phase_ne before hbefore
  · intro commit hcommit hvisible
    obtain ⟨before, hbefore, -, -, -, hself, hother⟩ := hmoves.mem hcommit
    rw [hbuckets]
    by_cases heq : before.sequence = sequence
    · exact absurd ((hself heq).2.symm.trans hvisible) hnew.2
    · obtain rfl := hother heq
      exact h.stored before hbefore hvisible

/-- A step that leaves the trees alone, opens no slot and makes nothing visible keeps the floor
safe. -/
lemma Covered.moves (h : Covered db inputs tables floor)
    (hmoves : Database.Moves db after sequence old new) (hbuckets : after.buckets = db.buckets)
    (hlast : after.tracker.lastReservedSequence = db.tracker.lastReservedSequence)
    (hold : old.isOpen = true) (hnew : new ≠ .visible) : Covered after inputs tables floor := by
  constructor
  · rw [hlast]
    exact h.le_last
  · intro commit hcommit hopen
    obtain ⟨before, hbefore, hseq, -, -, hself, hother⟩ := hmoves.mem hcommit
    rw [← hseq]
    refine h.open_above before hbefore ?_
    by_cases heq : before.sequence = sequence
    · rw [(hself heq).1, hold]
    · rw [hother heq, hopen]
  · rw [hbuckets]
    exact h.unflushed_above
  · intro commit hcommit hvisible
    obtain ⟨before, hbefore, -, -, -, hself, hother⟩ := hmoves.mem hcommit
    by_cases heq : before.sequence = sequence
    · exact absurd ((hself heq).2.symm.trans hvisible) hnew
    · obtain rfl := hother heq
      exact h.flushed before hbefore hvisible

lemma exists_tree_of_publishBuckets {commit : Commit} {tree : TreeState}
    (hmode : db.mode = .persistent) (h : db.publishBuckets commit bucket = some tree) :
    ∃ before, db.buckets bucket = some before ∧
      (∀ change : Change, change.sequence ≠ commit.sequence.toNat →
        (change ∈ tree.unflushedChanges ↔ change ∈ before.unflushedChanges)) ∧
      (∀ operation ∈ commit.operationsOn bucket,
        operation.1.toChange commit.sequence operation.2 ∈ tree.unflushedChanges) ∧
      ∀ flushed, ∀ change ∈ tree.unflushedExcluding flushed,
        change.sequence = commit.sequence.toNat ∨ change ∈ before.unflushedExcluding flushed := by
  obtain ⟨before, hbefore, rfl⟩ := map_eq_some_iff.mp h
  refine ⟨before, hbefore, ?_⟩
  rw [hmode]
  split_ifs with hnil
  · refine ⟨fun _ _ => Iff.rfl, fun operation hop => ?_, fun _ _ => Or.inr⟩
    rw [hnil] at hop
    exact absurd hop not_mem_nil
  · exact ⟨fun change hne => TreeState.mem_unflushedChanges_publishCommit hne,
      fun operation hop =>
        TreeState.toChange_mem_publishCommit (commit.nodup_operationsOn bucket) hop,
      fun _ _ => TreeState.mem_unflushedExcluding_publishCommit⟩

lemma Placed.publish (h : Placed db tables)
    (hpublish : ((db.publish sequence).bind fun mid => mid.markVisible sequence) = some after) :
    Placed after tables := by
  obtain ⟨commit, hcommit, hseq, hmoves, hbuckets, hlast⟩ :=
    Database.publish_markVisible_eq_some hpublish
  have hsome : ∀ bucket, (after.buckets bucket).isSome = (db.buckets bucket).isSome := by
    intro bucket
    rw [hbuckets, Database.publishBuckets, isSome_map]
  constructor
  · rw [hmoves.mode_eq, h.mode_eq]
  · intro other hother operation hop
    obtain ⟨before, hbefore, -, hops, -⟩ := hmoves.mem hother
    rw [hsome]
    exact h.resolves before hbefore operation (hops ▸ hop)
  · intro bucket tree htree change hchange
    rw [hbuckets] at htree
    obtain ⟨before, hbefore, hiff, -, -⟩ := exists_tree_of_publishBuckets h.mode_eq htree
    rw [hlast]
    by_cases heq : change.sequence = commit.sequence.toNat
    · rw [heq]
      exact db.sequence_le commit hcommit
    · exact h.bounded bucket before hbefore change ((hiff change heq).mp hchange)
  · intro other hother
    obtain ⟨before, hbefore, -, -, -, hself, hsame⟩ := hmoves.mem hother
    by_cases heq : before.sequence = sequence
    · simp [(hself heq).2]
    · obtain rfl := hsame heq
      exact h.phase_ne before hbefore
  · intro other hother hvisible bucket operation hop
    obtain ⟨before, hbefore, hbseq, hops, -, hself, hsame⟩ := hmoves.mem hother
    by_cases heq : before.sequence = sequence
    · -- The published commit: its buckets exist, and their memtables have its changes.
      left
      obtain rfl := db.sequence_injective hbefore hcommit (heq.trans hseq.symm)
      have hon : operation ∈ before.operationsOn bucket := by
        rwa [Commit.operationsOn, hops, ← Commit.operationsOn]
      obtain ⟨hmem, hbucket⟩ := mem_filter.mp hon
      obtain ⟨⟨inner, index⟩, hzip, hpair⟩ := mem_map.mp hmem
      have hinner : operation.1 ∈ before.operations := by
        rw [← hpair]
        exact fst_mem_of_mem_zipIdx hzip
      have hexists := h.resolves before hbefore operation.1 hinner
      rw [← hsome, of_decide_eq_true hbucket] at hexists
      obtain ⟨tree, htree⟩ := Option.isSome_iff_exists.mp hexists
      refine ⟨tree, htree, ?_⟩
      rw [hbuckets] at htree
      obtain ⟨-, -, -, hall, -⟩ := exists_tree_of_publishBuckets h.mode_eq htree
      rw [← hbseq]
      exact hall operation hon
    · obtain rfl := hsame heq
      have hne : (operation.1.toChange before.sequence operation.2).sequence ≠
          commit.sequence.toNat := by
        rw [BatchOperation.sequence_toChange, hseq]
        exact fun h => heq (UInt64.toNat_inj.mp h)
      refine (h.stored before hbefore hvisible bucket operation hop).imp_left ?_
      rintro ⟨old, hold, hin⟩
      have hnew : (after.buckets bucket).isSome := by rw [hsome, hold]; rfl
      obtain ⟨tree, htree⟩ := Option.isSome_iff_exists.mp hnew
      refine ⟨tree, htree, ?_⟩
      rw [hbuckets] at htree
      obtain ⟨before', hbefore', hiff, -, -⟩ := exists_tree_of_publishBuckets h.mode_eq htree
      obtain rfl : old = before' := Option.some.inj (hold.symm.trans hbefore')
      exact (hiff _ hne).mpr hin

/-- Publication of an open commit leaves every floor below it safe. -/
lemma Covered.publish (h : Covered db inputs tables floor) (hmode : db.mode = .persistent)
    (hpublish : ((db.publish sequence).bind fun mid => mid.markVisible sequence) = some after) :
    Covered after inputs tables floor := by
  obtain ⟨commit, hcommit, hseq, hmoves, hbuckets, hlast⟩ :=
    Database.publish_markVisible_eq_some hpublish
  have habove : floor < commit.sequence.toNat := by
    obtain ⟨found, hfound, hfseq, hphase⟩ := hmoves.exists_commit
    obtain rfl := db.sequence_injective hcommit hfound (hseq.trans hfseq.symm)
    exact h.open_above commit hcommit (by rw [hphase, hmode]; rfl)
  constructor
  · rw [hlast]
    exact h.le_last
  · intro other hother hopen
    obtain ⟨before, hbefore, hbseq, -, -, hself, hsame⟩ := hmoves.mem hother
    by_cases heq : before.sequence = sequence
    · rw [(hself heq).2] at hopen
      cases hopen
    · obtain rfl := hsame heq
      exact h.open_above before hbefore hopen
  · intro bucket tree htree change hchange
    rw [hbuckets] at htree
    obtain ⟨before, hbefore, -, -, hsub⟩ := exists_tree_of_publishBuckets hmode htree
    rcases hsub _ change hchange with heq | hin
    · rw [heq]
      exact habove
    · exact h.unflushed_above bucket before hbefore change hin
  · intro other hother hvisible hle
    obtain ⟨before, hbefore, hbseq, -, -, hself, hsame⟩ := hmoves.mem hother
    by_cases heq : before.sequence = sequence
    · rw [← hbseq, heq, ← hseq] at hle
      omega
    · obtain rfl := hsame heq
      exact h.flushed before hbefore hvisible hle

end CommitSteps

/-! ## Steps of the flush -/

section FlushSteps

variable {s : FlushState} {inputs : List FlushInput} {tables : List ManifestTable} {floor : ℕ}
  {change : Change}

/-- A step over all trees that drops nothing but what is in the tables. -/
lemma Placed.mapTrees (h : Placed s.db tables) {f : String → TreeState → TreeState}
    (hsub : ∀ bucket tree, s.db.buckets bucket = some tree →
      ∀ change ∈ (f bucket tree).unflushedChanges, change ∈ tree.unflushedChanges)
    (hkeep : ∀ bucket tree, s.db.buckets bucket = some tree → ∀ change ∈ tree.unflushedChanges,
      change ∈ (f bucket tree).unflushedChanges ∨
        ∃ table ∈ tables, table.bucket = bucket ∧ change ∈ table.changes) :
    Placed (s.mapTrees f).db tables := by
  constructor
  · exact h.mode_eq
  · intro commit hcommit operation hop
    show ((s.db.buckets operation.bucket).map _).isSome
    rw [isSome_map]
    exact h.resolves commit hcommit operation hop
  · intro bucket tree htree change hchange
    obtain ⟨before, hbefore, rfl⟩ := map_eq_some_iff.mp htree
    exact h.bounded bucket before hbefore change (hsub bucket before hbefore change hchange)
  · exact h.phase_ne
  · intro commit hcommit hvisible bucket operation hop
    rcases h.stored commit hcommit hvisible bucket operation hop with ⟨tree, htree, hin⟩ | htable
    · exact (hkeep bucket tree htree _ hin).imp_left fun hin =>
        ⟨f bucket tree, by rw [FlushState.mapTrees]; simp [htree], hin⟩
    · exact .inr htable

lemma Covered.mapTrees {outer : List FlushInput} (h : Covered s.db inputs tables floor)
    {f : String → TreeState → TreeState}
    (hsub : ∀ bucket tree, s.db.buckets bucket = some tree →
      ∀ change ∈ (f bucket tree).unflushedExcluding (flushedOf outer bucket),
        change ∈ tree.unflushedExcluding (flushedOf inputs bucket)) :
    Covered (s.mapTrees f).db outer tables floor := by
  refine ⟨h.le_last, h.open_above, fun bucket tree htree change hchange => ?_, h.flushed⟩
  obtain ⟨before, hbefore, rfl⟩ := map_eq_some_iff.mp htree
  exact h.unflushed_above bucket before hbefore change (hsub bucket before hbefore change hchange)

lemma Placed.mono {more : List ManifestTable} (h : Placed s.db tables) (hsub : tables ⊆ more) :
    Placed s.db more :=
  { h with
    stored := fun commit hcommit hvisible bucket operation hop =>
      (h.stored commit hcommit hvisible bucket operation hop).imp_right
        fun ⟨table, htable, hin⟩ => ⟨table, hsub htable, hin⟩ }

lemma mem_unflushedExcluding_installFlush {tree : TreeState} :
    change ∈ (installFlush inputs bucket tree).unflushedChanges ↔
      change ∈ tree.unflushedExcluding (flushedOf inputs bucket) := by
  rw [TreeState.mem_unflushedChanges, TreeState.mem_unflushedExcluding]
  simp only [installFlush, mem_filter, decide_eq_true_eq, and_assoc]
  rfl

lemma exists_table_of_flushedOf
    (h : immutable ∈ flushedOf inputs bucket) (hchange : change ∈ immutable.changes) :
    ∃ table ∈ inputs.map FlushInput.table, table.bucket = bucket ∧ change ∈ table.changes :=
  ⟨_, mem_map_of_mem (mem_flushedOf.mp h), rfl, hchange⟩

/-! ## The floor -/

lemma mem_unflushed (hnames : ∀ bucket, (s.db.buckets bucket).isSome → bucket ∈ s.bucketNames) :
    change ∈ s.unflushed inputs ↔ ∃ bucket tree, s.db.buckets bucket = some tree ∧
      change ∈ tree.unflushedExcluding (flushedOf inputs bucket) := by
  rw [unflushed, mem_flatMap]
  constructor
  · rintro ⟨bucket, -, h⟩
    cases htree : s.db.buckets bucket with
    | none => simp [htree] at h
    | some tree => exact ⟨bucket, tree, htree, by simpa [htree] using h⟩
  · rintro ⟨bucket, tree, htree, h⟩
    exact ⟨bucket, hnames bucket (by rw [htree]; rfl), by simpa [htree] using h⟩

lemma replayFloorAfterFlush_spec
    (hnames : ∀ bucket, (s.db.buckets bucket).isSome → bucket ∈ s.bucketNames) :
    s.unflushed inputs = [] ∧ s.replayFloorAfterFlush inputs = s.db.tracker.visibleSequence ∨
      ∃ oldest ∈ s.unflushed inputs, s.replayFloorAfterFlush inputs = oldest.sequence - 1 ∧
        ∀ change ∈ s.unflushed inputs, oldest.sequence ≤ change.sequence := by
  have hsome : ∀ bucket tree, s.db.buckets bucket = some tree → s.oldestOf inputs bucket =
      tree.oldestUnflushedSequenceExcluding (flushedOf inputs bucket) := by
    intro bucket tree htree
    rw [oldestOf, htree, Option.bind_some]
  rw [replayFloorAfterFlush]
  split
  · next oldest hmin =>
    right
    rw [List.min?_eq_some_iff] at hmin
    obtain ⟨hmem, hleast⟩ := hmin
    obtain ⟨bucket, hbucket, hof⟩ := mem_filterMap.mp hmem
    obtain ⟨tree, htree, holdest⟩ := Option.bind_eq_some_iff.mp hof
    obtain ⟨⟨first, hfirst, hseq⟩, -⟩ := TreeState.oldestUnflushedSequenceExcluding_eq_some holdest
    refine ⟨first, (mem_unflushed hnames).mpr ⟨bucket, tree, htree, hfirst⟩, by rw [hseq], ?_⟩
    intro change hchange
    obtain ⟨other, otree, hotree, hin⟩ := (mem_unflushed hnames).mp hchange
    cases hcase : otree.oldestUnflushedSequenceExcluding (flushedOf inputs other) with
    | none =>
      rw [TreeState.oldestUnflushedSequenceExcluding_eq_none] at hcase
      rw [hcase] at hin
      exact absurd hin not_mem_nil
    | some sequence =>
      have hle := (TreeState.oldestUnflushedSequenceExcluding_eq_some hcase).2 change hin
      have := hleast sequence (mem_filterMap.mpr
        ⟨other, hnames other (by rw [hotree]; rfl), by rw [hsome other otree hotree, hcase]⟩)
      omega
  · next hmin =>
    left
    rw [List.min?_eq_none_iff, filterMap_eq_nil_iff] at hmin
    refine ⟨eq_nil_iff_forall_not_mem.mpr fun change hchange => ?_, rfl⟩
    obtain ⟨bucket, tree, htree, hin⟩ := (mem_unflushed hnames).mp hchange
    have hnone := hmin bucket (hnames bucket (by rw [htree]; rfl))
    rw [hsome bucket tree htree, TreeState.oldestUnflushedSequenceExcluding_eq_none] at hnone
    rw [hnone] at hin
    exact absurd hin not_mem_nil

/-- A floor that passes over no open commit is safe and not below the old one.

**Proof sketch.** A change of a commit up to the floor that is still in a memtable is older than
everything that the flush leaves there, so its memtable is being flushed. Open commits lie above
the visible sequence, and above the oldest change by assumption. -/
lemma covered_replayFloorAfterFlush
    (hnames : ∀ bucket, (s.db.buckets bucket).isSome → bucket ∈ s.bucketNames)
    (hplaced : Placed s.db tables) (hcovered : Covered s.db [] tables floor)
    (hadmits : s.unflushed inputs ≠ [] → ∀ commit ∈ s.db.commits, commit.phase.isOpen = true →
      ∃ change ∈ s.unflushed inputs, change.sequence ≤ commit.sequence.toNat) :
    floor ≤ s.replayFloorAfterFlush inputs ∧
      Covered s.db inputs (tables ++ inputs.map FlushInput.table)
        (s.replayFloorAfterFlush inputs) := by
  have hspec := @replayFloorAfterFlush_spec s inputs hnames
  set newFloor := s.replayFloorAfterFlush inputs
  -- What is below the new floor and in a memtable is being flushed.
  have hflushed : (∀ change ∈ s.unflushed inputs, newFloor < change.sequence) →
      ∀ commit ∈ s.db.commits, commit.phase = .visible → commit.sequence.toNat ≤ newFloor →
        InTables (tables ++ inputs.map FlushInput.table) commit := by
    intro habove commit hcommit hvisible hle bucket operation hop
    rcases hplaced.stored commit hcommit hvisible bucket operation hop with
      ⟨tree, htree, hin⟩ | ⟨table, htable, hin⟩
    · rcases (@TreeState.mem_unflushedChanges_iff_excluding tree _
        (flushedOf inputs bucket)).mp hin with hin | ⟨immutable, -, hin, hchange⟩
      · have := habove _ ((mem_unflushed hnames).mpr ⟨bucket, tree, htree, hin⟩)
        rw [BatchOperation.sequence_toChange] at this
        omega
      · obtain ⟨table, htable, hbucket, h⟩ := exists_table_of_flushedOf hin hchange
        exact ⟨table, mem_append_right _ htable, hbucket, h⟩
    · exact ⟨table, mem_append_left _ htable, hin⟩
  have habove : ∀ change ∈ s.unflushed inputs, floor < change.sequence := by
    intro change hchange
    obtain ⟨bucket, tree, htree, hin⟩ := (mem_unflushed hnames).mp hchange
    refine hcovered.unflushed_above bucket tree htree change ?_
    rw [TreeState.mem_unflushedExcluding] at hin ⊢
    exact hin.imp_right fun ⟨immutable, himmutable, _, h⟩ =>
      ⟨immutable, himmutable, not_mem_nil, h⟩
  rcases hspec with ⟨hnil, hfloor⟩ | ⟨oldest, holdest, hfloor, hleast⟩
  · have hnone : ∀ change ∈ s.unflushed inputs, newFloor < change.sequence := by
      rw [hnil]
      exact fun _ h => absurd h not_mem_nil
    refine ⟨?_, ?_, fun commit hcommit hopen => ?_, fun bucket tree htree change hchange => ?_,
      hflushed hnone⟩
    · rw [hfloor]
      exact s.db.le_visible_of_forall hcovered.le_last hcovered.open_above
    · rw [hfloor]
      exact s.db.tracker.covers.visible_le
    · rw [hfloor]
      exact (CommitTracker.bounds_of_isOpen ((s.db.isOpen_iff commit hcommit).mpr hopen)).1
    · exact hnone change ((mem_unflushed hnames).mpr ⟨bucket, tree, htree, hchange⟩)
  · have hold := habove oldest holdest
    have hall : ∀ change ∈ s.unflushed inputs, newFloor < change.sequence := by
      intro change hchange
      have := hleast change hchange
      omega
    refine ⟨by omega, ?_, fun commit hcommit hopen => ?_,
      fun bucket tree htree change hchange => ?_, hflushed hall⟩
    · obtain ⟨bucket, tree, htree, hin⟩ := (mem_unflushed hnames).mp holdest
      have := hplaced.bounded bucket tree htree oldest
        (TreeState.mem_unflushedChanges_iff_excluding.mpr (Or.inl hin))
      omega
    · obtain ⟨change, hchange, hle⟩ := hadmits (ne_nil_of_mem holdest) commit hcommit hopen
      have := hleast change hchange
      omega
    · exact hall change ((mem_unflushed hnames).mpr ⟨bucket, tree, htree, hchange⟩)

end FlushSteps

/-! ## Runs -/

/-- The memtables whose tables are published and that are still queued. -/
def published (s : FlushState) : List FlushInput :=
  match s.flush with
  | .manifested inputs _ => inputs
  | _ => []

/-- What holds in every state of a run whose floors pass over no open commit. -/
structure Invariant (s : FlushState) : Prop where
  names : ∀ bucket, (s.db.buckets bucket).isSome → bucket ∈ s.bucketNames
  placed : Placed s.db s.manifest.tables
  recoverable : s.Recoverable
  covered : Covered s.db s.published s.manifest.tables s.manifest.walReplayFloor
  floored : ∀ inputs floor, s.flush = .floored inputs floor →
    s.manifest.walReplayFloor ≤ floor ∧
      Covered s.db inputs (s.manifest.tables ++ inputs.map FlushInput.table) floor
  manifested : ∀ inputs floor, s.flush = .manifested inputs floor →
    floor = s.manifest.walReplayFloor ∧ inputs.map FlushInput.table ⊆ s.manifest.tables
  installed : ∀ floor, s.flush = .installed floor → floor = s.manifest.walReplayFloor

lemma Invariant.floorSafe {s : FlushState} (h : s.Invariant) : s.FloorSafe := by
  intro commit hcommit haccepted hle
  refine h.covered.inTables hcommit (fun hphase => ?_) hle
  simp [isAccepted, hphase] at haccepted

section Steps

variable {s : FlushState} {after : Database} {action : FlushAction} {s' : FlushState}

lemma Invariant.commitStep (h : s.Invariant) {wal : List UInt64}
    (hbuckets : ∀ bucket, (after.buckets bucket).isSome = (s.db.buckets bucket).isSome)
    (hplaced : Placed after s.manifest.tables)
    (hcovered : ∀ inputs tables floor, Covered s.db inputs tables floor →
      Covered after inputs tables floor)
    (hrecoverable : Recoverable { s with db := after, wal := wal }) :
    Invariant { s with db := after, wal := wal } where
  names bucket hbucket := h.names bucket (by rwa [← hbuckets])
  placed := hplaced
  recoverable := hrecoverable
  covered := hcovered _ _ _ h.covered
  floored inputs floor hflush := (h.floored inputs floor hflush).imp_right (hcovered _ _ _)
  manifested := h.manifested
  installed := h.installed

/-- A step in which no commit becomes accepted loses none. -/
lemma Recoverable.moves (h : s.Recoverable) {sequence : UInt64} {old new : CommitPhase}
    (hmoves : Database.Moves s.db after sequence old new)
    (hnew : new = .visible → old = .durable) (hphase : new ≠ .durable ∧ new ≠ .published) :
    Recoverable { s with db := after } := by
  intro commit hcommit haccepted
  obtain ⟨before, hbefore, hseq, hops, -, hself, hother⟩ := hmoves.mem hcommit
  have hback : isAccepted before = true := by
    by_cases heq : before.sequence = sequence
    · obtain ⟨hold, hcase⟩ := hself heq
      rw [isAccepted, hcase] at haccepted
      have : old = .durable := by
        cases new <;> simp_all
      rw [isAccepted, hold, this]
    · rw [hother heq]
      exact haccepted
  have hflushed : s.Flushed before ↔ Flushed { s with db := after } commit := by
    simp only [Flushed, InTables, Commit.operationsOn, hops, hseq]
  rw [← hseq, ← hflushed]
  exact h before hbefore hback

lemma Invariant.reserveStep (h : s.Invariant)
    (hstep : s.step (.reserve write) = some s') : s'.Invariant := by
  simp only [FlushState.step] at hstep
  split_ifs at hstep with hwrite
  obtain ⟨after, hreserve, rfl⟩ := map_eq_some_iff.mp hstep
  obtain ⟨commit, -, -, hphase, -, hcommits, -, -, hbuckets, -⟩ :=
    Database.reserve_eq_some hreserve
  refine h.commitStep (fun bucket => by rw [hbuckets]) (h.placed.reserve hwrite.2 hreserve)
    (fun _ _ _ hcovered => hcovered.reserve hreserve) ?_
  intro other hother haccepted
  rw [hcommits, mem_append, mem_singleton] at hother
  rcases hother with hother | rfl
  · exact h.recoverable other hother haccepted
  · simp [isAccepted, hphase] at haccepted

lemma Invariant.acceptStep (h : s.Invariant) {sequence : UInt64}
    (hstep : s.step (.acceptWal sequence) = some s') : s'.Invariant := by
  obtain ⟨after, hafter, rfl⟩ := map_eq_some_iff.mp hstep
  obtain ⟨hmoves, hbuckets, htracker, -⟩ := Database.acceptWal_eq_some hafter
  refine h.commitStep (fun bucket => by rw [hbuckets])
    (h.placed.moves hmoves hbuckets (by rw [htracker]) (by decide))
    (fun _ _ _ hcovered => hcovered.moves hmoves hbuckets (by rw [htracker]) rfl (by decide)) ?_
  intro commit hcommit haccepted
  obtain ⟨before, hbefore, hseq, -, -, hself, hother⟩ := hmoves.mem hcommit
  by_cases heq : before.sequence = sequence
  · rw [← hseq, heq]
    exact .inl (mem_append_right _ mem_cons_self)
  · obtain rfl := hother heq
    exact (h.recoverable before hbefore haccepted).imp_left (mem_append_left _)

lemma Invariant.skipStep (h : s.Invariant) {sequence : UInt64}
    (hstep : s.step (.skip sequence) = some s') : s'.Invariant := by
  obtain ⟨after, hafter, rfl⟩ := map_eq_some_iff.mp hstep
  obtain ⟨hmoves, hbuckets, hmark⟩ := Database.skip_eq_some hafter
  have hlast := (CommitTracker.markTerminal_eq_ok (by decide) hmark).2.1
  exact h.commitStep (fun bucket => by rw [hbuckets])
    (h.placed.moves hmoves hbuckets hlast (by decide))
    (fun _ _ _ hcovered => hcovered.moves hmoves hbuckets hlast rfl (by decide))
    (Recoverable.moves h.recoverable hmoves (by decide) (by decide))

lemma Invariant.publishStep (h : s.Invariant) {sequence : UInt64}
    (hstep : s.step (.publish sequence) = some s') : s'.Invariant := by
  obtain ⟨after, hafter, rfl⟩ := map_eq_some_iff.mp hstep
  obtain ⟨commit, -, -, hmoves, hbuckets, -⟩ := Database.publish_markVisible_eq_some hafter
  have hold : Database.publishPhase s.db.mode = .durable := by
    rw [h.placed.mode_eq]
    rfl
  refine h.commitStep (fun bucket => ?_) (h.placed.publish hafter)
    (fun _ _ _ hcovered => hcovered.publish h.placed.mode_eq hafter)
    (Recoverable.moves h.recoverable hmoves (fun _ => hold) (by decide))
  rw [hbuckets, Database.publishBuckets, isSome_map]

lemma Invariant.freezeStep (h : s.Invariant)
    (hstep : s.step .freezeAll = some s') : s'.Invariant := by
  obtain rfl := Option.some.inj hstep
  have hkeep : ∀ bucket tree, s.db.buckets bucket = some tree → ∀ change : Change,
      change ∈ (tree.freezeActiveMemtable s.db.tracker.visibleSequence).unflushedChanges ↔
        change ∈ tree.unflushedChanges :=
    fun _ _ _ _ => TreeState.mem_unflushedChanges_freezeActiveMemtable
  have hcovered : ∀ inputs tables floor, Covered s.db inputs tables floor →
      Covered (s.mapTrees fun _ tree =>
        tree.freezeActiveMemtable s.db.tracker.visibleSequence).db inputs tables floor :=
    fun _ _ _ hcovered => hcovered.mapTrees fun _ _ _ _ hchange =>
      TreeState.mem_unflushedExcluding_freezeActiveMemtable hchange
  refine h.commitStep (fun bucket => isSome_map) (h.placed.mapTrees
    (fun bucket tree htree change hchange => (hkeep bucket tree htree change).mp hchange)
    fun bucket tree htree change hchange => Or.inl ((hkeep bucket tree htree change).mpr hchange))
    hcovered h.recoverable

lemma Invariant.collectStep (h : s.Invariant) {inputs : List FlushInput}
    (hstep : s.step (.collect inputs) = some s') : s'.Invariant := by
  simp only [FlushState.step] at hstep
  split_ifs at hstep with hidle
  obtain rfl := Option.some.inj hstep
  have hcovered : Covered s.db [] s.manifest.tables s.manifest.walReplayFloor := by
    have := h.covered
    rwa [published, hidle.1] at this
  exact ⟨h.names, h.placed, h.recoverable, hcovered, by simp, by simp, by simp⟩

lemma Invariant.floorStep (h : s.Invariant) (hadmits : s.Admits .computeFloor)
    (hstep : s.step .computeFloor = some s') : s'.Invariant := by
  simp only [FlushState.step] at hstep
  split at hstep
  · next inputs hflush =>
    obtain rfl := Option.some.inj hstep
    have hcovered : Covered s.db [] s.manifest.tables s.manifest.walReplayFloor := by
      have := h.covered
      rwa [published, hflush] at this
    simp only [Admits, hflush] at hadmits
    have hfloor := covered_replayFloorAfterFlush h.names h.placed hcovered hadmits
    refine ⟨h.names, h.placed, h.recoverable, hcovered, fun inputs' floor' heq => ?_, by simp,
      by simp⟩
    obtain ⟨rfl, rfl⟩ := FlushStage.floored.inj heq
    exact hfloor
  · cases hstep

lemma Invariant.manifestStep (h : s.Invariant)
    (hstep : s.step .publishManifest = some s') : s'.Invariant := by
  simp only [FlushState.step] at hstep
  split at hstep
  · next inputs floor hflush =>
    split_ifs at hstep
    obtain rfl := Option.some.inj hstep
    obtain ⟨-, hcovered⟩ := h.floored inputs floor hflush
    refine ⟨h.names, h.placed.mono (subset_append_left _ _), ?_, hcovered, by simp,
      fun inputs' floor' heq => ?_, by simp⟩
    · intro commit hcommit haccepted
      refine (h.recoverable commit hcommit haccepted).imp_right ?_
      intro hflushed bucket operation hop
      obtain ⟨table, htable, hin⟩ := hflushed bucket operation hop
      exact ⟨table, mem_append_left _ htable, hin⟩
    · obtain ⟨rfl, rfl⟩ := FlushStage.manifested.inj heq
      exact ⟨rfl, subset_append_right _ _⟩
  · cases hstep

lemma Invariant.installStep (h : s.Invariant)
    (hstep : s.step .install = some s') : s'.Invariant := by
  simp only [FlushState.step] at hstep
  split at hstep
  · next inputs floor hflush =>
    obtain rfl := Option.some.inj hstep
    obtain ⟨hfloor, htables⟩ := h.manifested inputs floor hflush
    have hcovered := h.covered
    rw [published, hflush] at hcovered
    refine ⟨fun bucket hbucket => h.names bucket (by simpa [mapTrees] using hbucket),
      h.placed.mapTrees (fun bucket tree htree change hchange => ?_)
        (fun bucket tree htree change hchange => ?_), h.recoverable,
      Covered.mapTrees hcovered (fun bucket tree htree change hchange => ?_), by simp, by simp,
      fun floor' heq => ?_⟩
    · exact TreeState.mem_unflushedChanges_iff_excluding.mpr
        (Or.inl (mem_unflushedExcluding_installFlush.mp hchange))
    · rcases (@TreeState.mem_unflushedChanges_iff_excluding tree _ (flushedOf inputs bucket)).mp
        hchange with hin | ⟨immutable, -, hin, hchange⟩
      · exact .inl (mem_unflushedExcluding_installFlush.mpr hin)
      · obtain ⟨table, htable, h⟩ := exists_table_of_flushedOf hin hchange
        exact .inr ⟨table, htables htable, h⟩
    · exact mem_unflushedExcluding_installFlush.mp
        (TreeState.mem_unflushedChanges_iff_excluding.mpr (Or.inl hchange))
    · obtain rfl := FlushStage.installed.inj heq
      exact hfloor
  · cases hstep

lemma Invariant.rewriteStep (h : s.Invariant)
    (hstep : s.step .rewriteWal = some s') : s'.Invariant := by
  simp only [FlushState.step] at hstep
  split at hstep
  · next floor hflush =>
    obtain rfl := Option.some.inj hstep
    have hcovered := h.covered
    rw [published, hflush] at hcovered
    refine ⟨h.names, h.placed, ?_, hcovered, by simp, by simp, by simp⟩
    intro commit hcommit haccepted
    by_cases hle : commit.sequence.toNat ≤ floor
    · rw [h.installed floor hflush] at hle
      exact .inr (h.floorSafe commit hcommit haccepted hle)
    · refine (h.recoverable commit hcommit haccepted).imp_left fun hwal => ?_
      exact mem_filter.mpr ⟨hwal, decide_eq_true (not_le.mp hle)⟩
  · cases hstep

lemma Invariant.abandonStep (h : s.Invariant)
    (hstep : s.step .abandon = some s') : s'.Invariant := by
  simp only [FlushState.step] at hstep
  split at hstep
  · next inputs hflush =>
    obtain rfl := Option.some.inj hstep
    have hcovered := h.covered
    rw [published, hflush] at hcovered
    exact ⟨h.names, h.placed, h.recoverable, hcovered, by simp, by simp, by simp⟩
  · next inputs floor hflush =>
    obtain rfl := Option.some.inj hstep
    have hcovered := h.covered
    rw [published, hflush] at hcovered
    exact ⟨h.names, h.placed, h.recoverable, hcovered, by simp, by simp, by simp⟩
  · cases hstep

lemma Invariant.step (h : s.Invariant) (hadmits : s.Admits action)
    (hstep : s.step action = some s') : s'.Invariant := by
  cases action with
  | reserve write => exact h.reserveStep hstep
  | acceptWal sequence => exact h.acceptStep hstep
  | skip sequence => exact h.skipStep hstep
  | publish sequence => exact h.publishStep hstep
  | freezeAll => exact h.freezeStep hstep
  | collect inputs => exact h.collectStep hstep
  | computeFloor => exact h.floorStep hadmits hstep
  | publishManifest => exact h.manifestStep hstep
  | install => exact h.installStep hstep
  | rewriteWal => exact h.rewriteStep hstep
  | abandon => exact h.abandonStep hstep

lemma manifest_step (hstep : s.step action = some s') :
    s'.manifest = s.manifest ∨
      ∃ inputs floor, action = .publishManifest ∧ s.flush = .floored inputs floor ∧
        s.manifest.walReplayFloor ≤ floor ∧
        s'.manifest = ⟨s.manifest.tables ++ inputs.map FlushInput.table, floor⟩ := by
  cases action with
  | publishManifest =>
    simp only [FlushState.step] at hstep
    split at hstep
    · next inputs floor hflush =>
      split_ifs at hstep with hle
      obtain rfl := Option.some.inj hstep
      exact .inr ⟨inputs, floor, rfl, hflush, hle, rfl⟩
    · cases hstep
  | reserve write =>
    simp only [FlushState.step] at hstep
    split_ifs at hstep
    obtain ⟨after, -, rfl⟩ := map_eq_some_iff.mp hstep
    exact .inl rfl
  | acceptWal sequence | skip sequence | publish sequence =>
    obtain ⟨after, -, rfl⟩ := map_eq_some_iff.mp hstep
    exact .inl rfl
  | freezeAll =>
    obtain rfl := Option.some.inj hstep
    exact .inl rfl
  | collect inputs =>
    simp only [FlushState.step] at hstep
    split_ifs at hstep
    obtain rfl := Option.some.inj hstep
    exact .inl rfl
  | computeFloor | install | rewriteWal | abandon =>
    simp only [FlushState.step] at hstep
    split at hstep <;> cases hstep <;> exact .inl rfl

/-- No step lowers the floor of the manifest. -/
lemma floor_le_step (hstep : s.step action = some s') :
    s.manifest.walReplayFloor ≤ s'.manifest.walReplayFloor := by
  rcases manifest_step hstep with hmanifest | ⟨inputs, floor, -, -, hle, hmanifest⟩
  · rw [hmanifest]
  · rwa [hmanifest]

end Steps

/-- A database that has just been opened meets the invariant. -/
lemma Opened.invariant {s : FlushState} (h : s.Opened) : s.Invariant := by
  have hnone : ∀ commit, commit ∉ s.db.commits := by
    rw [h.commits_eq]
    exact fun _ => not_mem_nil
  have hpublished : s.published = [] := by rw [published, h.flush_eq]
  have hle := s.db.tracker.covers.visible_le
  refine ⟨h.names, ⟨h.mode_eq, fun _ hcommit => absurd hcommit (hnone _), ?_,
    fun _ hcommit => absurd hcommit (hnone _), fun _ hcommit => absurd hcommit (hnone _)⟩,
    fun _ hcommit => absurd hcommit (hnone _), ?_, ?_, ?_, ?_⟩
  · exact fun bucket tree htree change hchange =>
      (h.unflushed_bounds bucket tree htree change hchange).2.trans hle
  · refine ⟨h.floor_le.trans hle, fun _ hcommit => absurd hcommit (hnone _), ?_,
      fun _ hcommit => absurd hcommit (hnone _)⟩
    exact fun bucket tree htree change hchange => (h.unflushed_bounds bucket tree htree change
      (TreeState.mem_unflushedChanges_iff_excluding.mpr (Or.inl hchange))).1
  all_goals
    rw [h.flush_eq]
    exact nofun

/-- The floor of the manifest never decreases. In every run whose floors pass over no open commit,
accepted commits up to the published floor are in the published tables, and no accepted commit is
lost from both the log and the tables. -/
theorem floorSafe_of_run {opened s t : FlushState} (hopened : opened.Opened)
    {first second : List FlushAction} (hfirst : Runs.run step opened first = some s)
    (hsecond : Runs.run step s second = some t) :
    s.manifest.walReplayFloor ≤ t.manifest.walReplayFloor ∧
      (Runs.Meets step Admits opened (first ++ second) → t.FloorSafe ∧ t.Recoverable) := by
  constructor
  · refine @Runs.invariant_of_step FlushState FlushAction step (fun _ _ => True) (fun u =>
      s.manifest.walReplayFloor ≤ u.manifest.walReplayFloor) ?_ s t second le_rfl hsecond
      (Runs.meets_of_forall (fun _ _ => trivial) _ _)
    exact fun _ _ _ hle _ hstep => hle.trans (floor_le_step hstep)
  · intro hmeets
    have ht : t.Invariant := Runs.invariant_of_step
      (fun _ _ _ hinv hadmits hstep => Invariant.step hinv hadmits hstep) hopened.invariant
      (Runs.run_append.mpr ⟨s, hfirst, hsecond⟩) hmeets
    exact ⟨ht.floorSafe, ht.recoverable⟩

instance (s : FlushState) : (action : FlushAction) → Decidable (s.Admits action)
  | .computeFloor =>
    match h : s.flush with
    | .collected inputs => decidable_of_iff (s.unflushed inputs ≠ [] →
        ∀ commit ∈ s.db.commits, commit.phase.isOpen = true →
          ∃ change ∈ s.unflushed inputs, change.sequence ≤ commit.sequence.toNat)
        (by simp only [Admits, h])
    | .idle | .floored _ _ | .manifested _ _ | .installed _ => isTrue (by simp only [Admits, h])
  | .reserve _ | .acceptWal _ | .skip _ | .publish _ | .freezeAll | .collect _ | .publishManifest
  | .install | .rewriteWal | .abandon => isTrue trivial

def emptyDatabase : FlushState where
  db := (CommitState.opened .persistent).db
  bucketNames := ["default"]
  wal := []
  manifest := ⟨[], 0⟩
  flush := .idle

lemma opened_emptyDatabase : emptyDatabase.Opened where
  mode_eq := rfl
  commits_eq := rfl
  names bucket hbucket := by
    by_cases h : bucket = "default"
    · rw [h]
      exact mem_cons_self
    · simp [emptyDatabase, CommitState.opened, CommitState.initial, Database.new, h] at hbucket
  flush_eq := rfl
  floor_le := le_rfl
  unflushed_bounds bucket tree htree change hchange := by
    obtain rfl : CommitState.emptyTree = tree := by
      by_cases h : bucket = "default"
      · simpa [emptyDatabase, CommitState.opened, CommitState.initial, Database.new, h] using htree
      · simp [emptyDatabase, CommitState.opened, CommitState.initial, Database.new, h] at htree
    exact absurd hchange not_mem_nil

def frozenPut (key value : Key) (sequence : UInt64) (freezeSequence address : ℕ) : FlushInput where
  bucket := "default"
  immutable :=
    { memtable := ⟨[.ofPut key value sequence 0], pairwise_singleton _ _⟩
      rangeTombstones := []
      freezeSequence := freezeSequence
      address := address }

/-- A commit is flushed while a newer one is in the active memtable. -/
def flushOneCommit : List FlushAction :=
  [.reserve (CommitState.blindPut [97] [1]), .acceptWal 1, .publish 1, .freezeAll,
    .collect [frozenPut [97] [1] 1 1 0], .reserve (CommitState.blindPut [98] [2]), .acceptWal 2,
    .publish 2, .computeFloor]

def finishFlush : List FlushAction := [.publishManifest, .install, .rewriteWal]

theorem flushOneCommit_floorSafe :
    ∃ s t, Runs.run step emptyDatabase flushOneCommit = some s ∧
      Runs.run step s finishFlush = some t ∧ s.manifest.walReplayFloor = 0 ∧
      t.manifest.walReplayFloor = 1 ∧ t.wal = [2] ∧ t.FloorSafe ∧ t.Recoverable := by
  have hfirst : (Runs.run step emptyDatabase flushOneCommit).map
      (fun s => s.manifest.walReplayFloor) = some 0 := by decide
  have hall : (Runs.run step emptyDatabase (flushOneCommit ++ finishFlush)).map
      (fun t => (t.manifest.walReplayFloor, t.wal)) = some (1, [2]) := by decide
  have hmeets : Runs.Meets step Admits emptyDatabase (flushOneCommit ++ finishFlush) := by decide
  obtain ⟨s, hs, hfloor⟩ := map_eq_some_iff.mp hfirst
  obtain ⟨t, hrun, htail⟩ := map_eq_some_iff.mp hall
  obtain ⟨s', hs', ht⟩ := Runs.run_append.mp hrun
  obtain rfl : s = s' := Option.some.inj (hs.symm.trans hs')
  exact ⟨s, t, hs, ht, hfloor, (Prod.mk.inj htail).1, (Prod.mk.inj htail).2,
    (floorSafe_of_run opened_emptyDatabase hs ht).2 hmeets⟩

/-- The log accepts commit 1, which is not published. Commit 2 is published and flushed, while
commit 3 is in the active memtable. -/
def lostCommit : List FlushAction :=
  [.reserve (CommitState.blindPut [97] [1]), .acceptWal 1,
    .reserve (CommitState.blindPut [98] [2]), .acceptWal 2, .publish 2, .freezeAll,
    .collect [frozenPut [98] [2] 2 0 0],
    .reserve (CommitState.blindPut [99] [3]), .acceptWal 3, .publish 3,
    .computeFloor, .publishManifest, .install, .rewriteWal]

theorem lostCommit_not_floorSafe :
    ∃ s, Runs.run step emptyDatabase lostCommit = some s ∧ s.manifest.walReplayFloor = 2 ∧
      s.wal = [3] ∧ ¬s.FloorSafe ∧ ¬s.Recoverable := by
  have hall : (Runs.run step emptyDatabase lostCommit).map
      (fun s => (s.manifest, s.wal, s.db.commits.head?)) =
      some (⟨[(frozenPut [98] [2] 2 0 0).table], 2⟩, [3],
        some ⟨1, [.put "default" [97] [1]], none, .durable, by decide⟩) := by decide
  obtain ⟨s, hrun, hs⟩ := map_eq_some_iff.mp hall
  obtain ⟨hmanifest, hwal, hhead⟩ : s.manifest = _ ∧ s.wal = _ ∧ s.db.commits.head? = _ := by
    simpa using hs
  have hmem := mem_of_mem_head? hhead
  have hlost : ¬s.Flushed ⟨1, [.put "default" [97] [1]], none, .durable, by decide⟩ := by
    intro hflushed
    obtain ⟨table, htable, -, hin⟩ := hflushed "default" (.put "default" [97] [1], 0) (by decide)
    rw [hmanifest, mem_singleton] at htable
    rw [htable] at hin
    revert hin
    decide
  refine ⟨s, hrun, by rw [hmanifest], hwal, fun hsafe => hlost ?_, fun hrecoverable => ?_⟩
  · exact hsafe _ hmem rfl (by rw [hmanifest]; decide)
  · rcases hrecoverable _ hmem rfl with hin | hflushed
    · rw [hwal] at hin
      revert hin
      decide
    · exact hlost hflushed

end FlushState

end TrineKv
