import TrineKv.Commit.Ledger
import TrineKv.Lib.Runs

/-!
# Optimistic isolation

A transaction enters the sequence barrier, checks that nothing it has read was changed after its
read sequence, and reserves its sequence before it leaves the barrier; the log and the trees get its
operations afterwards. A blind batch may reserve its sequence outside the barrier. A run is any
interleaving of such steps; flush and compaction are left out. A check and a publication are one step
each: trees only grow then, so a check that takes longer finds no less.

The check knows nothing of a commit that has its sequence and is not yet published, so an update can
be lost.

## Main results

* `CommitState.isolated_of_run`: when no update is lost.
* `CommitState.lostUpdate_not_isolated`: a lost update.
-/

namespace TrineKv

open List
open Option (map_eq_some_iff)

variable {reads : Option TransactionReads} {operations : List BatchOperation}

/-! ## The check -/

namespace TransactionReadSet

def touchedBy (readSet : TransactionReadSet) (operation : BatchOperation) : Bool :=
  (readSet.pointReads.any fun read =>
      decide (read.bucket = operation.bucket) && operation.touchesKey read.key) ||
    readSet.rangeReads.any fun read =>
      decide (read.bucket = operation.bucket) && operation.touchesRange read.range

end TransactionReadSet

namespace Database

variable (db : Database)

def bucketState (bucket : String) : Except Error TreeState :=
  match db.buckets bucket with
  | some tree => .ok tree
  | none => .error (.bucketMissing bucket)

def validatePointRead (readSequence : ℕ) (read : ReadKey) : Except Error Unit := do
  let bucket := read.bucket
  let tree ← db.bucketState bucket
  if ← tree.pointKeyModifiedAfter read.key readSequence then
    .error (.conflict s!"point read conflict in bucket {bucket}")
  else .ok ()

def validateRangeRead (readSequence : ℕ) (read : ReadRange) : Except Error Unit := do
  let bucket := read.bucket
  let tree ← db.bucketState bucket
  if ← tree.keyRangeModifiedAfter read.range readSequence then
    .error (.conflict s!"range read conflict in bucket {bucket}")
  else .ok ()

def validateTransactionReads (reads : TransactionReads) : Except Error Unit := do
  reads.readSet.pointReads.forM (db.validatePointRead reads.readSequence)
  reads.readSet.rangeReads.forM (db.validateRangeRead reads.readSequence)

/-- Between the read sequence and the sequence of a transaction no other commit changes what the
transaction has read. -/
def Isolated : Prop :=
  ∀ transaction ∈ db.commits, ∀ reads ∈ transaction.reads, transaction.phase ≠ .skipped →
    ∀ other ∈ db.commits, other.phase ≠ .skipped →
      reads.readSequence < other.sequence.toNat →
      other.sequence.toNat < transaction.sequence.toNat →
      ∀ operation ∈ other.operations, reads.readSet.touchedBy operation = false

end Database

/-! ## The system -/

/-- A write that has no sequence yet. -/
@[ext]
structure PendingWrite where
  operations : List BatchOperation
  reads : Option TransactionReads
  length_le : operations.length ≤ maxBatchIndex

instance : DecidableEq PendingWrite := fun _ _ => decidable_of_iff _ PendingWrite.ext_iff.symm

/-- The database, and the write that holds the sequence barrier after its check. -/
structure CommitState where
  db : Database
  sequencing : Option PendingWrite

/-- A step of one of the writers. -/
inductive CommitAction where
  /-- A blind batch reserves its sequence outside the barrier. -/
  | preaccept (write : PendingWrite)
  /-- A write enters the barrier and is checked. -/
  | validate (write : PendingWrite)
  /-- The write in the barrier reserves its sequence and leaves the barrier. -/
  | reserve
  /-- The log accepts a commit. -/
  | acceptWal (sequence : UInt64)
  /-- The log refuses a commit, which is given up. -/
  | skip (sequence : UInt64)
  /-- A commit is published in the trees. -/
  | publish (sequence : UInt64)
  /-- The slot of a published commit is closed. -/
  | markVisible (sequence : UInt64)

namespace CommitState

def resolvesBuckets (db : Database) (operations : List BatchOperation) : Bool :=
  operations.all fun operation => (db.buckets operation.bucket).isSome

def step (s : CommitState) : CommitAction → Option CommitState
  | .preaccept write =>
    if write.operations ≠ [] ∧ write.reads = none ∧ s.db.mode = .persistent ∧
        resolvesBuckets s.db write.operations then
      (s.db.reserve write.operations write.length_le none).map fun db => { s with db }
    else none
  | .validate write =>
    if s.sequencing = none ∧ resolvesBuckets s.db write.operations then
      match write.reads with
      | none => some { s with sequencing := some write }
      | some reads =>
        match s.db.validateTransactionReads reads with
        | .ok () => some { s with sequencing := some write }
        | .error _ => none
    else none
  | .reserve =>
    match s.sequencing with
    | none => none
    | some write =>
      if write.operations = [] then some { s with sequencing := none }
      else
        (s.db.reserve write.operations write.length_le write.reads).map
          fun db => { db, sequencing := none }
  | .acceptWal sequence => (s.db.acceptWal sequence).map fun db => { s with db }
  | .skip sequence => (s.db.skip sequence).map fun db => { s with db }
  | .publish sequence => (s.db.publish sequence).map fun db => { s with db }
  | .markVisible sequence => (s.db.markVisible sequence).map fun db => { s with db }

/-- The state after a database has been opened. -/
def initial (mode : StorageMode) (writeBufferBytes : ℕ) (buckets : String → Option TreeState)
    (visibleSequence : ℕ) (h : visibleSequence ≤ maxSequence) : CommitState where
  db := .new mode writeBufferBytes buckets visibleSequence h
  sequencing := none

/-- When a transaction is checked, no unpublished commit above its read sequence changes what it has
read, and no blind batch that does takes a sequence between check and reservation. -/
def Admits (s : CommitState) : CommitAction → Prop
  | .validate write =>
    ∀ reads ∈ write.reads, ∀ other ∈ s.db.commits,
      other.phase = .reserved ∨ other.phase = .durable →
      reads.readSequence < other.sequence.toNat →
      ∀ operation ∈ other.operations, reads.readSet.touchedBy operation = false
  | .preaccept write =>
    ∀ waiting ∈ s.sequencing, ∀ reads ∈ waiting.reads,
      ∀ operation ∈ write.operations, reads.readSet.touchedBy operation = false
  | _ => True

instance (s : CommitState) : (action : CommitAction) → Decidable (s.Admits action)
  | .validate write =>
    inferInstanceAs (Decidable (∀ reads ∈ write.reads, ∀ other ∈ s.db.commits,
      other.phase = .reserved ∨ other.phase = .durable →
      reads.readSequence < other.sequence.toNat →
      ∀ operation ∈ other.operations, reads.readSet.touchedBy operation = false))
  | .preaccept write =>
    inferInstanceAs (Decidable (∀ waiting ∈ s.sequencing, ∀ reads ∈ waiting.reads,
      ∀ operation ∈ write.operations, reads.readSet.touchedBy operation = false))
  | .reserve | .acceptWal _ | .skip _ | .publish _ | .markVisible _ =>
    inferInstanceAs (Decidable True)

/-! ## What a check has seen -/

/-- Published commits are in the trees, and checks in memory look at all deltas. -/
structure Shown (db : Database) : Prop where
  shows_of_published : ∀ commit ∈ db.commits, commit.phase = .published ∨ commit.phase = .visible →
    ∀ bucket tree, db.buckets bucket = some tree → ∀ operation ∈ commit.operationsOn bucket,
      tree.Shows db.mode commit.sequence operation
  mirror_eq_zero : db.mode = .inMemory → ∀ bucket tree, db.buckets bucket = some tree →
    tree.deltaMirrorSequence = 0

lemma forM_eq_ok {α : Type} {f : α → Except Error Unit} {l : List α} (h : l.forM f = .ok ()) :
    ∀ x ∈ l, f x = .ok () := by
  induction l with
  | nil => simp
  | cons x l ih =>
    change (f x >>= fun _ => l.forM f) = .ok () at h
    cases hx : f x with
    | error error => simp [hx, bind, Except.bind] at h
    | ok done =>
      simp only [hx, bind, Except.bind] at h
      exact forall_mem_cons.mpr ⟨hx, ih h⟩

lemma exists_tree_of_validatePointRead {db : Database} {readSequence : ℕ} {read : ReadKey}
    (h : db.validatePointRead readSequence read = .ok ()) :
    ∃ tree, db.buckets read.bucket = some tree ∧
      tree.pointKeyModifiedAfter read.key readSequence = .ok false := by
  rw [Database.validatePointRead, Database.bucketState] at h
  cases htree : db.buckets read.bucket with
  | none => simp [htree, bind, Except.bind] at h
  | some tree =>
    cases hmodified : tree.pointKeyModifiedAfter read.key readSequence with
    | error error => simp [htree, hmodified, bind, Except.bind] at h
    | ok modified =>
      cases modified with
      | true => simp [htree, hmodified, bind, Except.bind] at h
      | false => exact ⟨tree, rfl, hmodified⟩

lemma exists_tree_of_validateRangeRead {db : Database} {readSequence : ℕ} {read : ReadRange}
    (h : db.validateRangeRead readSequence read = .ok ()) :
    ∃ tree, db.buckets read.bucket = some tree ∧
      tree.keyRangeModifiedAfter read.range readSequence = .ok false := by
  rw [Database.validateRangeRead, Database.bucketState] at h
  cases htree : db.buckets read.bucket with
  | none => simp [htree, bind, Except.bind] at h
  | some tree =>
    cases hmodified : tree.keyRangeModifiedAfter read.range readSequence with
    | error error => simp [htree, hmodified, bind, Except.bind] at h
    | ok modified =>
      cases modified with
      | true => simp [htree, hmodified, bind, Except.bind] at h
      | false => exact ⟨tree, rfl, hmodified⟩

lemma exists_mem_operationsOn {commit : Commit} {operation : BatchOperation}
    (h : operation ∈ commit.operations) :
    ∃ index, (operation, index) ∈ commit.operationsOn operation.bucket := by
  obtain ⟨i, hi, rfl⟩ := mem_iff_getElem.mp h
  refine ⟨UInt32.ofNat i, mem_filter.mpr ⟨mem_map.mpr ⟨(commit.operations[i], i), ?_, rfl⟩,
    by simp⟩⟩
  exact mk_mem_zipIdx_iff_getElem?.mpr (List.getElem?_eq_getElem hi)

/-- A transaction that passes its check is touched by no published commit above its read
sequence.

**Proof sketch.** A published change is found in the tree of its bucket, so the check of the read
that it touches would not have answered that nothing was changed. -/
lemma not_touched_of_validate {db : Database} (hshown : Shown db) {reads : TransactionReads}
    (hvalid : db.validateTransactionReads reads = .ok ()) {commit : Commit}
    (hcommit : commit ∈ db.commits) (hphase : commit.phase = .published ∨ commit.phase = .visible)
    (hnewer : reads.readSequence < commit.sequence.toNat) {operation : BatchOperation}
    (hop : operation ∈ commit.operations) : reads.readSet.touchedBy operation = false := by
  have hmirror : ∀ bucket tree, db.buckets bucket = some tree → db.mode = .inMemory →
      tree.deltaMirrorSequence = 0 :=
    fun bucket tree htree hmode => hshown.mirror_eq_zero hmode bucket tree htree
  obtain ⟨index, hindex⟩ := exists_mem_operationsOn hop
  rw [Database.validateTransactionReads] at hvalid
  cases hpoints : reads.readSet.pointReads.forM (db.validatePointRead reads.readSequence) with
  | error error => simp [hpoints, bind, Except.bind] at hvalid
  | ok done =>
    simp only [hpoints, bind, Except.bind] at hvalid
    rw [← Bool.not_eq_true, TransactionReadSet.touchedBy, Bool.or_eq_true, any_eq_true,
      any_eq_true]
    rintro (⟨read, hread, htouch⟩ | ⟨read, hread, htouch⟩)
    · rw [Bool.and_eq_true, decide_eq_true_eq] at htouch
      obtain ⟨tree, htree, hclean⟩ :=
        exists_tree_of_validatePointRead (forM_eq_ok hpoints read hread)
      rw [htouch.1] at htree
      exact (hshown.shows_of_published commit hcommit hphase _ tree htree _
        hindex).pointKeyModifiedAfter (hmirror _ tree htree) htouch.2 hnewer hclean
    · rw [Bool.and_eq_true, decide_eq_true_eq] at htouch
      obtain ⟨tree, htree, hclean⟩ :=
        exists_tree_of_validateRangeRead (forM_eq_ok hvalid read hread)
      rw [htouch.1] at htree
      exact (hshown.shows_of_published commit hcommit hphase _ tree htree _
        hindex).keyRangeModifiedAfter (hmirror _ tree htree) htouch.2 hnewer hclean

/-! ## Steps keep published commits visible to checks -/

section Shown

variable {db after : Database} {sequence : UInt64} {old new : CommitPhase}

lemma Shown.moves (h : Shown db) (hmoves : Database.Moves db after sequence old new)
    (hbuckets : after.buckets = db.buckets)
    (hphase : new = .published ∨ new = .visible → old = .published ∨ old = .visible) :
    Shown after := by
  refine ⟨fun commit hcommit hdone => ?_, ?_⟩
  · obtain ⟨before, hbefore, hseq, hops, -, hself, hother⟩ := hmoves.mem hcommit
    rw [hbuckets, hmoves.mode_eq]
    by_cases heq : before.sequence = sequence
    · obtain ⟨hold, hnew⟩ := hself heq
      have hshows := h.shows_of_published before hbefore
        (by rw [hold]; exact hphase (by rwa [hnew] at hdone))
      simp only [Commit.operationsOn, hops, hseq] at hshows
      exact hshows
    · obtain rfl := hother heq
      exact h.shows_of_published before hbefore hdone
  · rw [hbuckets, hmoves.mode_eq]
    exact h.mirror_eq_zero

lemma Shown.reserve (h : Shown db)
    {hlength : operations.length ≤ maxBatchIndex}
    (hreserve : db.reserve operations hlength reads = some after) : Shown after := by
  obtain ⟨commit, -, -, hphase, -, hcommits, hmode, -, hbuckets, -⟩ :=
    Database.reserve_eq_some hreserve
  refine ⟨fun other hother hdone => ?_, ?_⟩
  · rw [hcommits, mem_append, mem_singleton] at hother
    rw [hbuckets, hmode]
    rcases hother with hother | rfl
    · exact h.shows_of_published other hother hdone
    · rw [hphase] at hdone
      simp at hdone
  · rw [hbuckets, hmode]
    exact h.mirror_eq_zero

lemma deltaMirrorSequence_publishCommit {tree : TreeState} {writeBufferBytes : ℕ}
    {operations : List (BatchOperation × UInt32)} :
    (tree.publishCommit .inMemory writeBufferBytes sequence operations).deltaMirrorSequence =
      tree.deltaMirrorSequence := by
  simp [TreeState.publishCommit]

lemma Shown.publish (h : Shown db) (hpublish : db.publish sequence = some after) :
    Shown after := by
  obtain ⟨commit, hcommit, hseq, hmoves, hbuckets, -⟩ := Database.publish_eq_some hpublish
  refine ⟨fun other hother hdone bucket tree htree operation hop => ?_,
    fun hmode bucket tree htree => ?_⟩
  · obtain ⟨before, hbefore, hbseq, hops, -, hself, hsame⟩ := hmoves.mem hother
    rw [hbuckets, Database.publishBuckets, map_eq_some_iff] at htree
    obtain ⟨old, hold, rfl⟩ := htree
    rw [hmoves.mode_eq]
    by_cases heq : before.sequence = sequence
    · obtain rfl := db.sequence_injective hbefore hcommit (heq.trans hseq.symm)
      have hon : other.operationsOn bucket = before.operationsOn bucket := by
        rw [Commit.operationsOn, ← hops, Commit.operationsOn]
      rw [hon] at hop
      rw [if_neg (ne_nil_of_mem hop), ← hbseq]
      exact TreeState.shows_publishCommit (before.nodup_operationsOn bucket) hop
    · obtain rfl := hsame heq
      have hshows := h.shows_of_published before hbefore hdone bucket old hold operation hop
      split_ifs
      · exact hshows
      · exact hshows.publishCommit (by rw [hseq]; exact heq)
  · rw [hbuckets, Database.publishBuckets, map_eq_some_iff] at htree
    obtain ⟨old, hold, rfl⟩ := htree
    rw [hmoves.mode_eq] at hmode
    have hzero := h.mirror_eq_zero hmode bucket old hold
    split_ifs
    · exact hzero
    · rw [hmode, deltaMirrorSequence_publishCommit, hzero]

end Shown

/-! ## Runs -/

/-- A transaction in the barrier, like one that has its sequence, is touched by no commit above its
read sequence. -/
structure Invariant (s : CommitState) : Prop where
  shown : Shown s.db
  isolated : s.db.Isolated
  waiting : ∀ write ∈ s.sequencing, ∀ reads ∈ write.reads, ∀ other ∈ s.db.commits,
    other.phase ≠ .skipped → reads.readSequence < other.sequence.toNat →
    ∀ operation ∈ other.operations, reads.readSet.touchedBy operation = false

section Steps

variable {s : CommitState} {after : Database} {sequence : UInt64} {old new : CommitPhase}

lemma Invariant.moves (h : s.Invariant) (hmoves : Database.Moves s.db after sequence old new)
    (hold : old ≠ .skipped) (hshown : Shown after) : Invariant { s with db := after } := by
  have hback : ∀ commit ∈ after.commits, commit.phase ≠ .skipped →
      ∃ before ∈ s.db.commits, before.phase ≠ .skipped ∧ before.sequence = commit.sequence ∧
        before.operations = commit.operations ∧ before.reads = commit.reads := by
    intro commit hcommit hphase
    obtain ⟨before, hbefore, hseq, hops, hreads, hself, hother⟩ := hmoves.mem hcommit
    refine ⟨before, hbefore, ?_, hseq, hops, hreads⟩
    by_cases heq : before.sequence = sequence
    · rw [(hself heq).1]
      exact hold
    · rw [hother heq]
      exact hphase
  refine ⟨hshown, ?_, ?_⟩
  · intro transaction htransaction reads hreads hphase other hother hotherPhase
    obtain ⟨before, hbefore, hbphase, hseq, -, hbreads⟩ := hback transaction htransaction hphase
    obtain ⟨obefore, hobefore, hobphase, hoseq, hops, -⟩ := hback other hother hotherPhase
    rw [← hseq, ← hoseq, ← hops]
    exact h.isolated before hbefore reads (hbreads ▸ hreads) hbphase obefore hobefore hobphase
  · intro write hwrite reads hreads other hother hphase
    obtain ⟨before, hbefore, hbphase, hseq, hops, -⟩ := hback other hother hphase
    rw [← hseq, ← hops]
    exact h.waiting write hwrite reads hreads before hbefore hbphase

/-- Transactions stay isolated when a commit gets its sequence that is itself isolated.

**Proof sketch.** The new sequence is the greatest one, so the new commit lies between the read
sequence and the sequence of no other transaction. -/
lemma Isolated.reserve {db : Database} (h : db.Isolated)
    {hlength : operations.length ≤ maxBatchIndex}
    (hreserve : db.reserve operations hlength reads = some after)
    (hnew : ∀ r ∈ reads, ∀ other ∈ db.commits, other.phase ≠ .skipped →
      r.readSequence < other.sequence.toNat →
      ∀ operation ∈ other.operations, r.readSet.touchedBy operation = false) :
    after.Isolated := by
  obtain ⟨commit, -, hreads, -, hseq, hcommits, -⟩ := Database.reserve_eq_some hreserve
  intro transaction htransaction r hr hphase other hother hotherPhase hlow hhigh
  rw [hcommits, mem_append, mem_singleton] at htransaction hother
  have hmem : other ∈ db.commits := by
    rcases hother with hother | rfl
    · exact hother
    · exfalso
      rcases htransaction with htransaction | rfl
      · have := db.sequence_le transaction htransaction
        omega
      · omega
  rcases htransaction with htransaction | rfl
  · exact h transaction htransaction r hr hphase other hmem hotherPhase hlow hhigh
  · exact hnew r (hreads ▸ hr) other hmem hotherPhase hlow

/-- Every step that passes over no unpublished change keeps the invariant. -/
lemma Invariant.step (h : s.Invariant) {action : CommitAction} {s' : CommitState}
    (hadmits : s.Admits action) (hstep : s.step action = some s') : s'.Invariant := by
  cases action with
  | preaccept write =>
    simp only [CommitState.step] at hstep
    split_ifs at hstep
    obtain ⟨after, hreserve, rfl⟩ := map_eq_some_iff.mp hstep
    obtain ⟨commit, hops, -, -, -, hcommits, -⟩ := Database.reserve_eq_some hreserve
    refine ⟨h.shown.reserve hreserve, Isolated.reserve h.isolated hreserve (by simp), ?_⟩
    intro waiting hwaiting reads hreads other hother hphase hnewer
    rw [hcommits, mem_append, mem_singleton] at hother
    rcases hother with hother | rfl
    · exact h.waiting waiting hwaiting reads hreads other hother hphase hnewer
    · rw [hops]
      exact hadmits waiting hwaiting reads hreads
  | validate write =>
    simp only [CommitState.step] at hstep
    split_ifs at hstep
    cases hwrite : write.reads with
    | none =>
      simp only [hwrite, Option.some.injEq] at hstep
      obtain rfl := hstep
      refine ⟨h.shown, h.isolated, fun waiting hwaiting reads hreads => ?_⟩
      obtain rfl := Option.some.inj hwaiting
      rw [hwrite] at hreads
      cases hreads
    | some checked =>
      simp only [hwrite] at hstep
      split at hstep
      · next hvalid =>
        obtain rfl := Option.some.inj hstep
        refine ⟨h.shown, h.isolated,
          fun waiting hwaiting reads hreads other hother hphase hnewer operation hop => ?_⟩
        obtain rfl := Option.some.inj hwaiting
        obtain rfl : checked = reads := by simpa [hwrite] using hreads
        -- The other commit is still to be published, or the check has seen it.
        by_cases hopen : other.phase = .reserved ∨ other.phase = .durable
        · exact hadmits checked hwrite other hother hopen hnewer operation hop
        · refine not_touched_of_validate h.shown hvalid hother ?_ hnewer hop
          cases hcase : other.phase <;> simp_all
      · cases hstep
  | reserve =>
    simp only [CommitState.step] at hstep
    split at hstep
    · cases hstep
    · next write hwrite =>
      split_ifs at hstep
      · obtain rfl := Option.some.inj hstep
        exact ⟨h.shown, h.isolated, fun _ hnone => by cases hnone⟩
      · obtain ⟨after, hreserve, rfl⟩ := map_eq_some_iff.mp hstep
        exact ⟨h.shown.reserve hreserve, Isolated.reserve h.isolated hreserve
          (h.waiting write hwrite), fun _ hnone => by cases hnone⟩
  | acceptWal sequence =>
    obtain ⟨after, hafter, rfl⟩ := map_eq_some_iff.mp hstep
    obtain ⟨hmoves, hbuckets, -⟩ := Database.acceptWal_eq_some hafter
    exact h.moves hmoves (by decide) (h.shown.moves hmoves hbuckets (by simp))
  | skip sequence =>
    obtain ⟨after, hafter, rfl⟩ := map_eq_some_iff.mp hstep
    obtain ⟨hmoves, hbuckets, -⟩ := Database.skip_eq_some hafter
    exact h.moves hmoves (by decide) (h.shown.moves hmoves hbuckets (by simp))
  | publish sequence =>
    obtain ⟨after, hafter, rfl⟩ := map_eq_some_iff.mp hstep
    obtain ⟨commit, -, -, hmoves, -⟩ := Database.publish_eq_some hafter
    exact h.moves hmoves (by cases s.db.mode <;> decide) (h.shown.publish hafter)
  | markVisible sequence =>
    obtain ⟨after, hafter, rfl⟩ := map_eq_some_iff.mp hstep
    obtain ⟨hmoves, hbuckets, -⟩ := Database.markVisible_eq_some hafter
    exact h.moves hmoves (by decide) (h.shown.moves hmoves hbuckets (by simp))

end Steps

lemma invariant_initial {mode : StorageMode} {writeBufferBytes : ℕ}
    {buckets : String → Option TreeState} {visibleSequence : ℕ}
    {h : visibleSequence ≤ maxSequence}
    (hmirror : mode = .inMemory → ∀ bucket tree, buckets bucket = some tree →
      tree.deltaMirrorSequence = 0) :
    (initial mode writeBufferBytes buckets visibleSequence h).Invariant := by
  refine ⟨⟨fun _ hcommit => absurd hcommit not_mem_nil, hmirror⟩,
    fun _ hcommit => absurd hcommit not_mem_nil, fun _ hnone => by cases hnone⟩

/-- In every run whose checks pass over no unpublished change, transactions are isolated. -/
theorem isolated_of_run {mode : StorageMode} {writeBufferBytes : ℕ}
    {buckets : String → Option TreeState} {visibleSequence : ℕ}
    {h : visibleSequence ≤ maxSequence}
    (hmirror : mode = .inMemory → ∀ bucket tree, buckets bucket = some tree →
      tree.deltaMirrorSequence = 0)
    {actions : List CommitAction} {s : CommitState}
    (hrun : Runs.run step (initial mode writeBufferBytes buckets visibleSequence h) actions = some s)
    (hmeets : Runs.Meets step Admits (initial mode writeBufferBytes buckets visibleSequence h)
      actions) :
    s.db.Isolated :=
  (Runs.invariant_of_step (fun _ _ _ hinv hadmits hstep => Invariant.step hinv hadmits hstep)
    (invariant_initial hmirror) hrun hmeets).isolated

/-- A tree without content. -/
def emptyTree : TreeState where
  indexSearchPolicy := .auto
  deltaShards := .new
  deltaMirrorSequence := 0
  activeMemtable := .empty
  activeAddress := 0
  rangeTombstones := []
  immutableMemtables := []
  version := ⟨[]⟩

def opened (mode : StorageMode) : CommitState :=
  initial mode 1000 (fun bucket => if bucket = "default" then some emptyTree else none) 0
    (Nat.zero_le _)

def increment (readSequence : ℕ) (key value : Key) : PendingWrite where
  operations := [.put "default" key value]
  reads := some ⟨readSequence, ⟨[⟨"default", key⟩], []⟩⟩
  length_le := show 1 ≤ maxBatchIndex by decide

def blindPut (key value : Key) : PendingWrite where
  operations := [.put "default" key value]
  reads := none
  length_le := show 1 ≤ maxBatchIndex by decide

/-- A transaction that is checked, reserves its sequence and is done, and after it a blind batch
on another key and a transaction that has read what the first one wrote. -/
def serialRun : List CommitAction :=
  [.validate (increment 0 [97] [1]), .reserve, .acceptWal 1, .publish 1, .markVisible 1,
    .preaccept (blindPut [98] [5]), .validate (increment 1 [97] [2]), .reserve,
    .acceptWal 3, .publish 3, .acceptWal 2, .publish 2, .markVisible 2, .markVisible 3]

theorem serialRun_isolated :
    ∃ s, Runs.run step (opened .persistent) serialRun = some s ∧
      s.db.commits.map Commit.phase = [.visible, .visible, .visible] ∧ s.db.Isolated := by
  have hsome : (Runs.run step (opened .persistent) serialRun).map
      (fun s => s.db.commits.map Commit.phase) = some [.visible, .visible, .visible] := by decide
  have hmeets : Runs.Meets step Admits (opened .persistent) serialRun := by decide
  obtain ⟨s, hrun, hphases⟩ := map_eq_some_iff.mp hsome
  exact ⟨s, hrun, hphases, isolated_of_run (fun hmode => by cases hmode) hrun hmeets⟩

/-- Two transactions that have read a key before either of them wrote it. The second one is
checked when the first one has its sequence and is not yet published. -/
def lostUpdate : List CommitAction :=
  [.validate (increment 0 [97] [1]), .reserve, .validate (increment 0 [97] [2]), .reserve,
    .acceptWal 1, .publish 1, .markVisible 1, .acceptWal 2, .publish 2, .markVisible 2]

/-- Both transactions commit, and the first one has changed what the second one read. -/
theorem lostUpdate_not_isolated :
    ∃ s, Runs.run step (opened .persistent) lostUpdate = some s ∧
      s.db.commits.map Commit.phase = [.visible, .visible] ∧ ¬s.db.Isolated := by
  have hsome : (Runs.run step (opened .persistent) lostUpdate).map (fun s => s.db.commits) =
      some [⟨1, [.put "default" [97] [1]], some ⟨0, ⟨[⟨"default", [97]⟩], []⟩⟩, .visible, by decide⟩,
        ⟨2, [.put "default" [97] [2]], some ⟨0, ⟨[⟨"default", [97]⟩], []⟩⟩, .visible, by decide⟩] := by
    decide
  obtain ⟨s, hrun, hcommits⟩ := map_eq_some_iff.mp hsome
  refine ⟨s, hrun, by rw [hcommits]; rfl, fun hisolated => ?_⟩
  rw [Database.Isolated, hcommits] at hisolated
  have htouched := hisolated _ (mem_cons_of_mem _ mem_cons_self) _ rfl (by decide) _
    mem_cons_self (by decide) (by decide) (by decide) _ mem_cons_self
  revert htouched
  decide

end CommitState

end TrineKv
