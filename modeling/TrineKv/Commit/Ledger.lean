import TrineKv.Commit.Tracker
import TrineKv.Lsm.Conflict

/-!
# The commits of a database

A commit reserves a sequence, is accepted by the log if there is storage, is published in the trees
of its buckets, and its slot is closed; a commit that the log refuses is skipped. Each step is one
call, and systems that are built on top say which calls follow on which. Operations are grouped by
bucket and taken in batch order. Failures that close the database are left out.

## Main results

* `Database.sequence_injective`: commits have distinct sequences.
-/

namespace TrineKv

open List
open CommitTracker (markTerminal_eq_ok reserveSlot_eq_ok)

/-! ## Commits -/

structure ReadKey where
  bucket : String
  key : Key
  deriving DecidableEq, Repr

structure ReadRange where
  bucket : String
  range : KeyRange
  deriving DecidableEq, Repr

structure TransactionReadSet where
  pointReads : List ReadKey
  rangeReads : List ReadRange
  deriving DecidableEq, Repr

structure TransactionReads where
  readSequence : ℕ
  readSet : TransactionReadSet
  deriving DecidableEq, Repr

/-- How far a commit is. -/
inductive CommitPhase where
  | reserved
  | durable
  | published
  | visible
  | skipped
  deriving DecidableEq, Repr

def CommitPhase.isOpen : CommitPhase → Bool
  | .reserved | .durable | .published => true
  | .visible | .skipped => false

structure Commit where
  sequence : UInt64
  operations : List BatchOperation
  reads : Option TransactionReads
  phase : CommitPhase
  length_le : operations.length ≤ maxBatchIndex
  deriving DecidableEq

namespace Commit

def setPhase (sequence : UInt64) (phase : CommitPhase) (commit : Commit) : Commit :=
  if commit.sequence = sequence then { commit with phase := phase } else commit

def operationsOn (commit : Commit) (bucket : String) : List (BatchOperation × UInt32) :=
  (indexOperations commit.operations).filter fun operation => operation.1.bucket = bucket

variable {commit : Commit} {sequence : UInt64} {phase : CommitPhase}

@[simp]
lemma sequence_setPhase : (commit.setPhase sequence phase).sequence = commit.sequence := by
  unfold setPhase
  split_ifs <;> rfl

@[simp]
lemma operations_setPhase : (commit.setPhase sequence phase).operations = commit.operations := by
  unfold setPhase
  split_ifs <;> rfl

@[simp]
lemma reads_setPhase : (commit.setPhase sequence phase).reads = commit.reads := by
  unfold setPhase
  split_ifs <;> rfl

lemma phase_setPhase_self (h : commit.sequence = sequence) :
    (commit.setPhase sequence phase).phase = phase := by
  rw [setPhase, if_pos h]

lemma setPhase_of_ne (h : commit.sequence ≠ sequence) :
    commit.setPhase sequence phase = commit := by
  rw [setPhase, if_neg h]

lemma setPhase_setPhase (other : CommitPhase) :
    (commit.setPhase sequence other).setPhase sequence phase = commit.setPhase sequence phase := by
  unfold setPhase
  split_ifs <;> rfl

lemma nodup_operationsOn (commit : Commit) (bucket : String) :
    ((commit.operationsOn bucket).map Prod.snd).Nodup :=
  (nodup_indexOperations commit.length_le).sublist (filter_sublist.map _)

end Commit

/-! ## The database -/

/-- Commits are listed oldest first; those that are not done have an open slot. -/
structure Database where
  mode : StorageMode
  writeBufferBytes : ℕ
  buckets : String → Option TreeState
  tracker : CommitTracker
  commits : List Commit
  ascending : commits.Pairwise fun left right => left.sequence.toNat < right.sequence.toNat
  sequence_le : ∀ commit ∈ commits, commit.sequence.toNat ≤ tracker.lastReservedSequence
  isOpen_iff : ∀ commit ∈ commits,
    tracker.IsOpen commit.sequence.toNat ↔ commit.phase.isOpen = true
  exists_commit : ∀ sequence, tracker.IsOpen sequence →
    ∃ commit ∈ commits, commit.sequence.toNat = sequence

namespace Database

def new (mode : StorageMode) (writeBufferBytes : ℕ) (buckets : String → Option TreeState)
    (visibleSequence : ℕ) (h : visibleSequence ≤ maxSequence) : Database where
  mode := mode
  writeBufferBytes := writeBufferBytes
  buckets := buckets
  tracker := .new visibleSequence h
  commits := []
  ascending := List.Pairwise.nil
  sequence_le _ h := absurd h not_mem_nil
  isOpen_iff _ h := absurd h not_mem_nil
  exists_commit _ h := by cases h

variable (db : Database)

def find (sequence : UInt64) : Option Commit :=
  db.commits.find? fun commit => commit.sequence = sequence

variable {db} in
lemma find_eq_some {sequence : UInt64} {commit : Commit} (h : db.find sequence = some commit) :
    commit ∈ db.commits ∧ commit.sequence = sequence :=
  ⟨mem_of_find?_eq_some h, by simpa using List.find?_some h⟩

lemma sequence_injective {left right : Commit} (hleft : left ∈ db.commits)
    (hright : right ∈ db.commits) (h : left.sequence = right.sequence) : left = right := by
  have hnodup : (db.commits.map fun commit => commit.sequence.toNat).Nodup :=
    pairwise_map.mpr (db.ascending.imp fun hlt => hlt.ne)
  exact inj_on_of_nodup_map hnodup hleft hright (congrArg UInt64.toNat h)

theorem le_visible_of_forall {sequence : ℕ} (hle : sequence ≤ db.tracker.lastReservedSequence)
    (h : ∀ commit ∈ db.commits, commit.phase.isOpen = true → sequence < commit.sequence.toNat) :
    sequence ≤ db.tracker.visibleSequence := by
  rw [CommitTracker.le_visibleSequence_iff hle]
  intro other hother hopen
  obtain ⟨commit, hcommit, rfl⟩ := db.exists_commit other hopen
  have := h commit hcommit ((db.isOpen_iff commit hcommit).mp hopen)
  omega

/-! ## Steps -/

def setPhase (sequence : UInt64) (phase : CommitPhase) (tracker : CommitTracker)
    (hlast : tracker.lastReservedSequence = db.tracker.lastReservedSequence)
    (hopen : ∀ commit ∈ db.commits, tracker.IsOpen commit.sequence.toNat ↔
      (commit.setPhase sequence phase).phase.isOpen = true)
    (hsub : ∀ other, tracker.IsOpen other → db.tracker.IsOpen other) : Database :=
  { db with
    tracker := tracker
    commits := db.commits.map (Commit.setPhase sequence phase)
    ascending := by
      rw [pairwise_map]
      simpa using db.ascending
    sequence_le := by
      rw [forall_mem_map]
      intro commit hcommit
      rw [hlast, Commit.sequence_setPhase]
      exact db.sequence_le commit hcommit
    isOpen_iff := by
      rw [forall_mem_map]
      intro commit hcommit
      rw [Commit.sequence_setPhase]
      exact hopen commit hcommit
    exists_commit := by
      intro other hother
      obtain ⟨commit, hcommit, hseq⟩ := db.exists_commit other (hsub other hother)
      exact ⟨_, mem_map_of_mem hcommit, by rw [Commit.sequence_setPhase, hseq]⟩ }

variable {db}

lemma isOpen_setPhase_of_open {sequence : UInt64} {commit : Commit} {phase : CommitPhase}
    (hfind : db.find sequence = some commit) (hbefore : commit.phase.isOpen = true)
    (hafter : phase.isOpen = true) :
    ∀ other ∈ db.commits, db.tracker.IsOpen other.sequence.toNat ↔
      (other.setPhase sequence phase).phase.isOpen = true := by
  intro other hother
  obtain ⟨hmem, hseq⟩ := find_eq_some hfind
  by_cases h : other.sequence = sequence
  · rw [Commit.phase_setPhase_self h, h, ← hseq, db.isOpen_iff commit hmem]
    exact iff_of_true hbefore hafter
  · rw [Commit.setPhase_of_ne h]
    exact db.isOpen_iff other hother

lemma isOpen_setPhase_of_closed {sequence : UInt64} {phase : CommitPhase}
    {state : CommitSlotState} {tracker : CommitTracker} (hstate : state ≠ .opened)
    (h : db.tracker.markTerminal sequence.toNat state = .ok tracker)
    (hafter : phase.isOpen = false) :
    ∀ other ∈ db.commits, tracker.IsOpen other.sequence.toNat ↔
      (other.setPhase sequence phase).phase.isOpen = true := by
  intro other hother
  rw [(markTerminal_eq_ok hstate h).2.2.2, db.isOpen_iff other hother]
  by_cases hseq : other.sequence = sequence
  · simp [Commit.phase_setPhase_self hseq, hafter, hseq]
  · rw [Commit.setPhase_of_ne hseq, and_iff_left]
    exact fun heq => hseq (UInt64.toNat_inj.mp heq)

lemma toNat_ofNat_reserveSlot {sequence : ℕ} {tracker after : CommitTracker}
    (h : tracker.reserveSlot = .ok (sequence, after)) :
    (UInt64.ofNat sequence).toNat = tracker.lastReservedSequence + 1 := by
  obtain ⟨hseq, hlast, -⟩ := reserveSlot_eq_ok h
  have hle := after.last_le
  have hmax : maxSequence = 2 ^ 64 - 1 := rfl
  rw [UInt64.toNat_ofNat', Nat.mod_eq_of_lt (by omega), hseq]

variable (db)

def reserve (operations : List BatchOperation) (hlength : operations.length ≤ maxBatchIndex)
    (reads : Option TransactionReads) : Option Database :=
  match h : db.tracker.reserveSlot with
  | .error _ => none
  | .ok (sequence, tracker) =>
    have hspec := reserveSlot_eq_ok h
    have hnat := toNat_ofNat_reserveSlot h
    some
      { db with
        tracker := tracker
        commits := db.commits ++
          [{ sequence := UInt64.ofNat sequence, operations, reads, phase := .reserved
             length_le := hlength }]
        ascending := by
          refine pairwise_append.mpr ⟨db.ascending, pairwise_singleton _ _, ?_⟩
          intro left hleft right hright
          rw [mem_singleton] at hright
          rw [hright]
          have := db.sequence_le left hleft
          simp only
          omega
        sequence_le := by
          intro commit hcommit
          rcases mem_append.mp hcommit with hcommit | hcommit
          · have := db.sequence_le commit hcommit
            omega
          · rw [mem_singleton.mp hcommit]
            simp only
            omega
        isOpen_iff := by
          intro commit hcommit
          rw [hspec.2.2.2]
          rcases mem_append.mp hcommit with hcommit | hcommit
          · have := db.sequence_le commit hcommit
            rw [or_iff_left (by omega), db.isOpen_iff commit hcommit]
          · rw [mem_singleton.mp hcommit]
            exact iff_of_true (Or.inr (by simp only; omega)) rfl
        exists_commit := by
          intro other hother
          rcases (hspec.2.2.2 other).mp hother with hother | rfl
          · obtain ⟨commit, hcommit, hseq⟩ := db.exists_commit other hother
            exact ⟨commit, mem_append_left _ hcommit, hseq⟩
          · refine ⟨_, mem_append_right _ mem_cons_self, ?_⟩
            rw [hnat, hspec.1] }

def acceptWal (sequence : UInt64) : Option Database :=
  match hfind : db.find sequence with
  | none => none
  | some commit =>
    if h : db.mode = .persistent ∧ commit.phase = .reserved then
      some (db.setPhase sequence .durable db.tracker rfl
        (isOpen_setPhase_of_open hfind (by rw [h.2]; rfl) rfl) fun _ hother => hother)
    else none

/-- A commit is given up before the log has accepted it. -/
def skip (sequence : UInt64) : Option Database :=
  match db.find sequence with
  | none => none
  | some commit =>
    if commit.phase = .reserved then
      match h : db.tracker.markSkipped sequence.toNat with
      | .error _ => none
      | .ok tracker =>
        some (db.setPhase sequence .skipped tracker
          (markTerminal_eq_ok (by decide) h).2.1
          (isOpen_setPhase_of_closed (by decide) h rfl)
          fun other hother =>
            (((markTerminal_eq_ok (by decide) h).2.2.2 other).mp hother).1)
    else none

def publishPhase : StorageMode → CommitPhase
  | .inMemory => .reserved
  | .persistent => .durable

def publishBuckets (commit : Commit) (bucket : String) : Option TreeState :=
  (db.buckets bucket).map fun tree =>
    if commit.operationsOn bucket = [] then tree
    else
      tree.publishCommit db.mode db.writeBufferBytes commit.sequence (commit.operationsOn bucket)

def publish (sequence : UInt64) : Option Database :=
  match hfind : db.find sequence with
  | none => none
  | some commit =>
    if h : commit.phase = publishPhase db.mode then
      some { db.setPhase sequence .published db.tracker rfl
        (isOpen_setPhase_of_open hfind (by rw [h]; cases db.mode <;> rfl) rfl)
        (fun _ hother => hother) with
        buckets := db.publishBuckets commit }
    else none

def markVisible (sequence : UInt64) : Option Database :=
  match db.find sequence with
  | none => none
  | some commit =>
    if commit.phase = .published then
      match h : db.tracker.markVisible sequence.toNat with
      | .error _ => none
      | .ok tracker =>
        some (db.setPhase sequence .visible tracker
          (markTerminal_eq_ok (by decide) h).2.1
          (isOpen_setPhase_of_closed (by decide) h rfl)
          fun other hother =>
            (((markTerminal_eq_ok (by decide) h).2.2.2 other).mp hother).1)
    else none

/-! ## What the steps do -/

variable {db} {after : Database} {sequence : UInt64}

structure Moves (db after : Database) (sequence : UInt64) (old new : CommitPhase) : Prop where
  exists_commit : ∃ commit ∈ db.commits, commit.sequence = sequence ∧ commit.phase = old
  commits_eq : after.commits = db.commits.map (Commit.setPhase sequence new)
  mode_eq : after.mode = db.mode
  writeBufferBytes_eq : after.writeBufferBytes = db.writeBufferBytes

lemma Moves.mem {old new : CommitPhase} (h : Moves db after sequence old new) {commit : Commit}
    (hcommit : commit ∈ after.commits) :
    ∃ before ∈ db.commits, before.sequence = commit.sequence ∧
      before.operations = commit.operations ∧ before.reads = commit.reads ∧
      (before.sequence = sequence → before.phase = old ∧ commit.phase = new) ∧
      (before.sequence ≠ sequence → before = commit) := by
  rw [h.commits_eq] at hcommit
  obtain ⟨before, hbefore, rfl⟩ := mem_map.mp hcommit
  refine ⟨before, hbefore, by simp, by simp, by simp, fun hseq => ⟨?_, ?_⟩, fun hne => ?_⟩
  · obtain ⟨found, hfound, hfseq, hphase⟩ := h.exists_commit
    rw [db.sequence_injective hbefore hfound (hseq.trans hfseq.symm), hphase]
  · exact Commit.phase_setPhase_self hseq
  · exact (Commit.setPhase_of_ne hne).symm

theorem reserve_eq_some {operations : List BatchOperation}
    {hlength : operations.length ≤ maxBatchIndex} {reads : Option TransactionReads}
    (h : db.reserve operations hlength reads = some after) :
    ∃ commit : Commit, commit.operations = operations ∧ commit.reads = reads ∧
      commit.phase = .reserved ∧
      commit.sequence.toNat = db.tracker.lastReservedSequence + 1 ∧
      after.commits = db.commits ++ [commit] ∧ after.mode = db.mode ∧
      after.writeBufferBytes = db.writeBufferBytes ∧ after.buckets = db.buckets ∧
      after.tracker.lastReservedSequence = db.tracker.lastReservedSequence + 1 ∧
      after.tracker.visibleSequence = db.tracker.visibleSequence := by
  rw [reserve] at h
  split at h
  · cases h
  · next reserved tracker hreserve =>
    obtain ⟨hseq, hlast, hvisible, -⟩ := reserveSlot_eq_ok hreserve
    obtain rfl := Option.some.inj h
    exact ⟨_, rfl, rfl, rfl, toNat_ofNat_reserveSlot hreserve, rfl, rfl, rfl, rfl,
      hlast.trans hseq, hvisible⟩

/-- Acceptance by the log changes nothing but the phase. -/
theorem acceptWal_eq_some (h : db.acceptWal sequence = some after) :
    Moves db after sequence .reserved .durable ∧ after.buckets = db.buckets ∧
      after.tracker = db.tracker ∧ db.mode = .persistent := by
  rw [acceptWal] at h
  split at h
  · cases h
  · next commit hfind =>
    split_ifs at h with hphase
    obtain rfl := Option.some.inj h
    exact ⟨⟨⟨commit, (find_eq_some hfind).1, (find_eq_some hfind).2, hphase.2⟩, rfl, rfl, rfl⟩,
      rfl, rfl, hphase.1⟩

theorem skip_eq_some (h : db.skip sequence = some after) :
    Moves db after sequence .reserved .skipped ∧ after.buckets = db.buckets ∧
      db.tracker.markSkipped sequence.toNat = .ok after.tracker := by
  rw [skip] at h
  split at h
  · cases h
  · next commit hfind =>
    split_ifs at h with hphase
    split at h
    · cases h
    · next tracker htracker =>
      obtain rfl := Option.some.inj h
      exact ⟨⟨⟨commit, (find_eq_some hfind).1, (find_eq_some hfind).2, hphase⟩, rfl, rfl, rfl⟩,
        rfl, htracker⟩

theorem publish_eq_some (h : db.publish sequence = some after) :
    ∃ commit ∈ db.commits, commit.sequence = sequence ∧
      Moves db after sequence (publishPhase db.mode) .published ∧
      after.buckets = db.publishBuckets commit ∧ after.tracker = db.tracker := by
  rw [publish] at h
  split at h
  · cases h
  · next commit hfind =>
    split_ifs at h with hphase
    obtain rfl := Option.some.inj h
    exact ⟨commit, (find_eq_some hfind).1, (find_eq_some hfind).2,
      ⟨⟨commit, (find_eq_some hfind).1, (find_eq_some hfind).2, hphase⟩, rfl, rfl, rfl⟩, rfl, rfl⟩

theorem markVisible_eq_some (h : db.markVisible sequence = some after) :
    Moves db after sequence .published .visible ∧ after.buckets = db.buckets ∧
      db.tracker.markVisible sequence.toNat = .ok after.tracker := by
  rw [markVisible] at h
  split at h
  · cases h
  · next commit hfind =>
    split_ifs at h with hphase
    split at h
    · cases h
    · next tracker htracker =>
      obtain rfl := Option.some.inj h
      exact ⟨⟨⟨commit, (find_eq_some hfind).1, (find_eq_some hfind).2, hphase⟩, rfl, rfl, rfl⟩,
        rfl, htracker⟩

/-- Publication of a commit together with the closing of its slot. -/
theorem publish_markVisible_eq_some
    (h : ((db.publish sequence).bind fun mid => mid.markVisible sequence) = some after) :
    ∃ commit ∈ db.commits, commit.sequence = sequence ∧
      Moves db after sequence (publishPhase db.mode) .visible ∧
      after.buckets = db.publishBuckets commit ∧
      after.tracker.lastReservedSequence = db.tracker.lastReservedSequence := by
  obtain ⟨mid, hmid, hafter⟩ := Option.bind_eq_some_iff.mp h
  obtain ⟨commit, hcommit, hseq, hmoves, hbuckets, htracker⟩ := publish_eq_some hmid
  obtain ⟨hvisible, hsame, hmark⟩ := markVisible_eq_some hafter
  refine ⟨commit, hcommit, hseq, ⟨hmoves.exists_commit, ?_, ?_, ?_⟩, ?_, ?_⟩
  · rw [hvisible.commits_eq, hmoves.commits_eq, map_map]
    exact map_congr_left fun other _ => Commit.setPhase_setPhase _
  · rw [hvisible.mode_eq, hmoves.mode_eq]
  · rw [hvisible.writeBufferBytes_eq, hmoves.writeBufferBytes_eq]
  · rw [hsame, hbuckets]
  · rw [(markTerminal_eq_ok (by decide) hmark).2.1, htracker]

end Database

end TrineKv
