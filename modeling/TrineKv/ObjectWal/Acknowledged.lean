import TrineKv.ObjectWal.Fencing

/-!
# What competing writers acknowledge

The epoch and the committed sequence of the lease never decrease. While the chain stays within the
limits of the reader, every acknowledged commit is read from every later lease state, once and
without gaps. The limits are not checked when a group is committed.

## Main results

* `Writers.reads_of_run`: acknowledged commits are read.
-/

namespace TrineKv.ObjectWal

open List ByteCodec

open Wal FrameLog CasCell

namespace Writers

variable {config : Config} {leaseKey : String}

/-- Above every floor the chain from the lease object is read as consecutive commits up to the
committed sequence, and has the commit once if it lies above the floor. -/
def Reads (config : Config) (writers : Writers) (accept : ObjectWalAccept) : Prop :=
  ∃ lease, writers.cell.current = some lease ∧ ∀ floor, floor ≤ lease.2.committedSequence →
    ∃ batches keys, readObjectWalChain config writers.objects lease.2.committedSequence
        lease.2.currentWalKey floor = .ok (batches, keys) ∧
      Consecutive floor lease.2.committedSequence batches ∧
      (floor < accept.sequence →
        batches.filter (fun batch => decide (batch.sequence = accept.sequence)) = [accept.batch])

lemma filter_sequence_eq {batches : List WalBatch} {batch : WalBatch}
    (hpairwise : batches.Pairwise fun left right => left.sequence < right.sequence)
    (hmem : batch ∈ batches) :
    batches.filter (fun other => decide (other.sequence = batch.sequence)) = [batch] := by
  induction hpairwise with
  | nil => cases hmem
  | @cons first rest hfirst _ ih =>
    rcases mem_cons.mp hmem with rfl | hrest
    · rw [filter_cons_of_pos (by simp), filter_eq_nil_iff.mpr]
      intro other hother
      simpa using (UInt64.ne_of_lt (hfirst other hother)).symm
    · rw [filter_cons_of_neg, ih hrest]
      simpa using UInt64.ne_of_lt (hfirst batch hrest)

lemma Sound.reads {writers : Writers} (h : writers.Sound config) {accept : ObjectWalAccept}
    (hmem : accept ∈ writers.acknowledged) : writers.Reads config accept := by
  have hlogged := h.logged
  cases hcurrent : writers.cell.current with
  | none =>
    simp only [LogSound, hcurrent] at hlogged
    rw [hlogged] at hmem
    cases hmem
  | some lease =>
    simp only [LogSound, hcurrent] at hlogged
    obtain ⟨chain, contents, hlogged, hlength, hbytes, hacknowledged⟩ := hlogged
    refine ⟨lease, hcurrent, fun floor hfloor => ?_⟩
    have hbase : (0 : UInt64) ≤ floor := UInt64.le_iff_toNat_le.mpr (Nat.zero_le _)
    obtain ⟨keys, hread⟩ := hlogged.readObjectWalChain hbase hlength hbytes
    have hconsecutive := hlogged.consecutive.above hbase hfloor
    refine ⟨_, keys, hread, hconsecutive, fun hlt => ?_⟩
    exact filter_sequence_eq hconsecutive.pairwise
      (mem_filter.mpr ⟨hacknowledged accept hmem, decide_eq_true hlt⟩)

lemma Moves.acknowledged {writers writers' : Writers} {action : Action}
    (h : Moves config writers action writers') {accept : ObjectWalAccept}
    (hmem : accept ∈ writers.acknowledged) : accept ∈ writers'.acknowledged := by
  cases h with
  | storeAbandoned _ _ => exact hmem
  | storeAbandonedSegment _ => exact hmem
  | _ => exact mem_append_left _ hmem

/-- For any number of writers and every interleaving of their moves, with any clocks, and with puts
whose response is lost and that are executed at any later time or never: the epoch and the committed
sequence of the lease object never decrease, and if every acquisition draws a fresh owner id and every
group commit finds room in the chain, every commit that was acknowledged is read from every later
lease state, once and in a sequence without gaps.

**Proof sketch.** The first part holds because every put is planned forward from the state that it
replaces. The second part is the invariant of all writers, which every move that meets the condition
keeps. -/
theorem reads_of_run (config : Config) (leaseKey : String) (objects : Objects)
    (actions later : List Action) (writers writers' : Writers)
    (hrun : Runs.run (step config leaseKey) (start objects) actions = some writers)
    (hlater : Runs.run (step config leaseKey) writers later = some writers') :
    (∀ lease, writers.cell.current = some lease →
      ∃ lease', writers'.cell.current = some lease' ∧ lease.2.epoch ≤ lease'.2.epoch ∧
        lease.2.committedSequence ≤ lease'.2.committedSequence) ∧
    (Runs.Meets (step config leaseKey) (staysWithinLimits config) (start objects)
        (actions ++ later) →
      ∀ accept ∈ writers.acknowledged, writers'.Reads config accept) := by
  constructor
  · intro lease hcurrent
    have hascending : writers.Ascending :=
      @Runs.invariant_of_step _ _ _ (fun _ _ => True) Ascending
        (fun _ _ _ h _ hstep => h.step hstep) _ _ _ (.start objects) hrun
        (Runs.meets_of_forall (fun _ _ => trivial) _ _)
    exact follows_of_run hascending hlater hcurrent
  · intro hmeets accept hmem
    rw [Runs.meets_append hrun] at hmeets
    have hsound : writers.Sound config :=
      Runs.invariant_of_step (fun _ _ _ h hguard hstep => h.step hguard hstep) (.start objects)
        hrun hmeets.1
    have hsound' : writers'.Sound config ∧ accept ∈ writers'.acknowledged :=
      @Runs.invariant_of_step _ _ _ (staysWithinLimits config)
        (fun writers => writers.Sound config ∧ accept ∈ writers.acknowledged)
        (fun _ _ _ h hguard hstep =>
          ⟨h.1.step hguard hstep, (h.1.ascending.moves hstep).acknowledged h.2⟩)
        _ _ _ ⟨hsound, hmem⟩ hlater hmeets.2
    exact hsound'.1.reads hsound'.2

/-- The commit of one deletion. -/
def deletes (sequence : UInt64) : List ObjectWalAccept :=
  (ObjectWalAccept.ofBatch ⟨sequence, [.delete "b" [7]]⟩).toOption.toList

/-- A writer acquires the lease and commits; the response to its second head is lost, and the store
executes the put later. When the lease has expired, another writer acquires it and commits. -/
def takeOver : List Action :=
  [.command 0 (.acquire 0 [1]), .stored 0 1,
    .command 0 (.commit (deletes 1)), .storeSegment 0 10, .stored 0 2,
    .command 0 (.commit (deletes 2)), .storeSegment 0 20, .lost 0, .storeAbandoned 0 3,
    .command 0 (.observe 30),
    .command 1 (.acquire 40000 [2]), .stored 1 4,
    .command 1 (.commit (deletes 3)), .storeSegment 1 40010, .stored 1 5]

theorem takeOver_reads :
    ∃ writers, Runs.run (step WalState.framesConfig "lease") (start fun _ => none) takeOver =
        some writers ∧
      writers.acknowledged.map ObjectWalAccept.sequence = [1, 2, 3] ∧
      ∀ accept ∈ writers.acknowledged, writers.Reads WalState.framesConfig accept := by
  have hrun : (Runs.run (step WalState.framesConfig "lease") (start fun _ => none) takeOver).map
      (fun writers => writers.acknowledged.map ObjectWalAccept.sequence) = some [1, 2, 3] := by
    decide +kernel
  obtain ⟨writers, hrun, hacknowledged⟩ := Option.map_eq_some_iff.mp hrun
  refine ⟨writers, hrun, hacknowledged, ?_⟩
  exact (reads_of_run WalState.framesConfig "lease" (fun _ => none) takeOver [] writers writers hrun
    rfl).2 (by decide +kernel)

/-! ## One segment too many -/

structure Owned (writers : Writers) (lease : ObjectLeaseState) (tag : ETag) : Prop where
  phase : writers.phases 0 = .holding ⟨tag, lease⟩
  current : writers.cell.current = some (tag, lease)
  free : ∀ etag, tag < etag → writers.cell.named etag = none

/-- The moves of a group commit that nobody disturbs. -/
def commitActions (accepts : List ObjectWalAccept) (tag : ETag) : List Action :=
  [.command 0 (.commit accepts), .storeSegment 0 0, .stored 0 tag]

lemma step_commit {writers : Writers} {writer : ℕ} {lease : ObjectWriterLease}
    {accepts : List ObjectWalAccept} (h : writers.phases writer = .holding lease) :
    writers.step config leaseKey (.command writer (.commit accepts)) =
      some (writers.enter writer (Phase.commit config leaseKey lease writers.cell.current
        (WalState.sortAccepts accepts), [])) := by
  simp only [step, h, Phase.next, draw]

lemma step_storeSegment {writers : Writers} {writer : ℕ} {nowMs : UInt64}
    {lease : ObjectWriterLease} {accepts : List ObjectWalAccept} {walKey : ObjectWalKey}
    {segment : Segment} {objects : Objects}
    (h : writers.phases writer = .storing lease accepts walKey segment false)
    (hput : putImmutableObject config writers.objects walKey segment = .ok objects) :
    writers.step config leaseKey (.storeSegment writer nowMs) =
      some ({ writers with objects }.enter writer
        (Phase.publishCommitHead config lease accepts walKey nowMs)) := by
  simp only [step, h, hput]

lemma step_stored {writers : Writers} {writer : ℕ} {etag : ETag} {operation : Operation}
    {put : Put ETag ObjectLeaseState} {cell : Cell ETag ObjectLeaseState}
    (h : writers.phases writer = .publishing operation put .sent)
    (hexecute : writers.cell.execute put etag = some cell) :
    writers.step config leaseKey (.stored writer etag) =
      some ({ writers with cell }.enter writer (Phase.stored put etag operation)) := by
  simp only [step, h, hexecute]

/-- A group commit that nobody disturbs does what the worker of a single writer does.

**Proof sketch.** The lease that is read again is the own one, and the put of the head finds its tag,
so the three moves are the steps of the worker one after the other. -/
lemma Owned.commit {writers : Writers} {lease : ObjectLeaseState} {tag : ETag}
    (h : writers.Owned lease tag) {accepts : List ObjectWalAccept} {last : ObjectWalAccept}
    {replayFloor : UInt64} {state : WalState}
    (hlast : (WalState.sortAccepts accepts).getLast? = some last)
    (hcommit : WalState.completeObjectWalAccepts config ⟨writers.objects, lease, replayFloor⟩ accepts
      (objectLeaseDeadlineMs 0) = .ok state) :
    ∃ writers', Runs.run (step config leaseKey) writers (commitActions accepts (tag + 1)) =
        some writers' ∧ writers'.Owned state.lease (tag + 1) ∧ writers'.objects = state.objects ∧
      writers'.acknowledged = writers.acknowledged ++ WalState.sortAccepts accepts := by
  obtain ⟨_, hcheck, hpublish⟩ := bind_eq_ok.mp hcommit
  unfold WalState.publishCommitBatch at hpublish
  rw [hlast] at hpublish
  obtain ⟨total, htotal, hpublish⟩ := bind_eq_ok.mp hpublish
  obtain ⟨frames, hframes, hpublish⟩ := bind_eq_ok.mp hpublish
  obtain ⟨segment, hsegment, hpublish⟩ := bind_eq_ok.mp hpublish
  obtain ⟨objects, hput, hpublish⟩ := bind_eq_ok.mp hpublish
  obtain ⟨plan, hplan, hpublish⟩ := bind_eq_ok.mp hpublish
  have hprepared : commitSegment config lease (WalState.sortAccepts accepts) last =
      .ok (⟨.commit, lease.epoch, last.sequence, config.digest segment⟩, segment) := by
    simp only [commitSegment, htotal, hframes, hsegment, ok_bind]
    rfl
  have hstoring : Phase.commit config leaseKey ⟨tag, lease⟩ (some (tag, lease))
      (WalState.sortAccepts accepts) = .storing ⟨tag, lease⟩ (WalState.sortAccepts accepts)
        ⟨.commit, lease.epoch, last.sequence, config.digest segment⟩ segment false := by
    unfold Phase.commit
    simp only [refreshCurrent, acceptObserved,
      ObjectLeaseState.observeOwner_eq_currentOwner.mpr ⟨rfl, rfl⟩, hcheck, hlast, hprepared]
  cases plan with
  | alreadyApplied =>
    obtain ⟨heq, -⟩ := ObjectLeaseState.planCommitHead_eq_alreadyApplied hplan
    have hlt := (WalState.checkIncreasing_eq_ok.mp hcheck).1 last (mem_of_getLast? hlast)
    rw [heq] at hlt
    exact absurd hlt (UInt64.lt_irrefl _)
  | publish next =>
    obtain ⟨published, hencode, hstate⟩ := bind_eq_ok.mp hpublish
    obtain rfl := encodeLeaseState_eq_ok hencode
    obtain rfl := Except.ok.inj hstate
    have hheading : Phase.publishCommitHead config ⟨tag, lease⟩ (WalState.sortAccepts accepts)
        ⟨.commit, lease.epoch, last.sequence, config.digest segment⟩ 0 =
        (.publishing (.commit ⟨tag, lease⟩ (WalState.sortAccepts accepts)
          ⟨.commit, lease.epoch, last.sequence, config.digest segment⟩) ⟨published, some tag⟩ .sent,
          []) := by
      unfold Phase.publishCommitHead
      simp only [hplan, hencode]
    obtain ⟨cell, hexecute⟩ : ∃ cell,
        writers.cell.execute ⟨published, some tag⟩ (tag + 1) = some cell :=
      ⟨_, if_pos ⟨decide_eq_true (by rw [h.current]; rfl),
        Or.inl (h.free _ (Nat.lt_succ_self tag))⟩⟩
    obtain ⟨-, hcurrent, hnamed, -⟩ := Cell.execute_eq_some hexecute
    have hcommand := @step_commit config leaseKey writers 0 ⟨tag, lease⟩ accepts h.phase
    rw [h.current, hstoring] at hcommand
    have hstore := @step_storeSegment config leaseKey
      (writers.enter 0 (.storing ⟨tag, lease⟩ (WalState.sortAccepts accepts)
        ⟨.commit, lease.epoch, last.sequence, config.digest segment⟩ segment false, []))
      0 0 _ _ _ _ _ (phases_enter_self writers 0 _) hput
    rw [hheading] at hstore
    refine ⟨_, Runs.run_cons_eq_some.mpr ⟨_, hcommand, Runs.run_cons_eq_some.mpr ⟨_, hstore,
      Runs.run_cons_eq_some.mpr ⟨_, step_stored (phases_enter_self _ 0 _) hexecute, rfl⟩⟩⟩,
        ⟨phases_enter_self _ 0 _, hcurrent,
      fun etag hlt => ?_⟩, rfl, ?_⟩
    · show cell.named etag = none
      rw [hnamed, Function.update_of_ne (Nat.ne_of_gt hlt)]
      exact h.free etag (Nat.lt_of_succ_lt hlt)
    · simp [enter, Phase.stored]

/-- A writer acquires the lease and commits one deletion after the other. -/
def manyCommits : ℕ → List Action
  | 0 => [.command 0 (.acquire 0 []), .stored 0 0]
  | count + 1 => manyCommits count ++
      commitActions (deletes (UInt64.ofNat (count + 1))) (count + 1)

lemma objectLeaseDeadlineMs_zero : objectLeaseDeadlineMs 0 = 30000 := by decide

lemma exists_run_acquire :
    ∃ writers, Runs.run (step WalState.framesConfig leaseKey) (start fun _ => none)
        (manyCommits 0) = some writers ∧ writers.Owned WalState.empty.lease 0 ∧
      (writers.objects = fun _ => none) ∧ writers.acknowledged = [] := by
  have hput : acquirePut WalState.framesConfig leaseKey none 0 [] =
      .ok ⟨WalState.empty.lease, none⟩ := by
    simp only [acquirePut, objectLeaseDeadlineMs_zero]
    rfl
  have hacquire : (start fun _ => none).step WalState.framesConfig leaseKey
      (.command 0 (.acquire 0 [])) = some ({ start (fun _ => none) with drawn := [[]] }.enter 0
        (.publishing .acquire ⟨WalState.empty.lease, none⟩ .sent, [])) := by
    simp only [step, start, Phase.next, Cell.empty, hput, draw]
  refine ⟨_, Runs.run_cons_eq_some.mpr ⟨_, hacquire, Runs.run_cons_eq_some.mpr
    ⟨_, step_stored (phases_enter_self _ 0 _) rfl, rfl⟩⟩,
    ⟨phases_enter_self _ 0 _, rfl, fun etag hlt => ?_⟩, rfl, rfl⟩
  exact Function.update_of_ne (Nat.ne_of_gt hlt) _ _

/-- Every number of commits is acknowledged, and makes a chain of as many segments.

**Proof sketch.** By induction: the next commit does what the worker of a single writer does, which
makes the chain longer by one segment. -/
lemma exists_run_manyCommits {count : ℕ} (hcount : count ≤ maxSequence) :
    ∃ writers lease, Runs.run (step WalState.framesConfig leaseKey) (start fun _ => none)
        (manyCommits count) = some writers ∧ writers.Owned lease count ∧
      WalState.Filled ⟨writers.objects, lease, 0⟩ count ∧ writers.acknowledged.length = count := by
  induction count with
  | zero =>
    obtain ⟨writers, hrun, howned, hobjects, hacknowledged⟩ := @exists_run_acquire leaseKey
    refine ⟨writers, _, hrun, howned, ⟨rfl, rfl, ⟨[], [], .nil rfl, rfl⟩, fun key _ => ?_⟩, ?_⟩
    · exact congrFun hobjects key
    · rw [hacknowledged]
      rfl
  | succ count ih =>
    obtain ⟨writers, lease, hrun, howned, hfilled, hlength⟩ := ih (by omega)
    obtain ⟨state, hstep, hfilled'⟩ := hfilled.commit (by omega)
    obtain ⟨accept, haccept, -, -⟩ := WalState.ofBatch_delete (UInt64.ofNat (count + 1))
    have hdeletes : deletes (UInt64.ofNat (count + 1)) = [accept] := by
      rw [deletes, haccept]
      rfl
    have hcommit : WalState.completeObjectWalAccepts WalState.framesConfig
        ⟨writers.objects, lease, 0⟩ [accept] (objectLeaseDeadlineMs 0) = .ok state := by
      rw [WalState.commitDelete, haccept] at hstep
      rw [objectLeaseDeadlineMs_zero]
      exact toOption_eq_some.mp hstep
    obtain ⟨writers', hcommits, howned', hobjects, hacknowledged⟩ :=
      @Owned.commit _ leaseKey _ _ _ howned _ accept _ _ rfl hcommit
    refine ⟨writers', state.lease, ?_, howned', ?_, ?_⟩
    · rw [manyCommits, hdeletes, Runs.run_append]
      exact ⟨writers, hrun, hcommits⟩
    · rw [hobjects]
      exact { hfilled' with floor := rfl }
    · rw [hacknowledged, length_append, hlength]
      rfl

/-- After one commit more than the reader takes segments, all of them acknowledged, none of them can
be read. -/
theorem manyCommits_not_reads :
    ∃ writers, Runs.run (step WalState.framesConfig "lease") (start fun _ => none)
        (manyCommits (maxChainSegments + 1)) = some writers ∧
      writers.acknowledged.length = maxChainSegments + 1 ∧
      ∀ accept ∈ writers.acknowledged, ¬writers.Reads WalState.framesConfig accept := by
  obtain ⟨writers, lease, hrun, howned, hfilled, hlength⟩ := @exists_run_manyCommits "lease" _
    (show maxChainSegments + 1 ≤ maxSequence by decide)
  refine ⟨writers, hrun, hlength, ?_⟩
  rintro accept - ⟨lease', hcurrent, hreads⟩
  obtain rfl := Option.some.inj (howned.current.symm.trans hcurrent)
  obtain ⟨batches, keys, hread, -⟩ := hreads 0 (UInt64.le_iff_toNat_le.mpr (Nat.zero_le _))
  obtain ⟨chain, contents, hlogged, hchain⟩ := hfilled.logged
  have hfloor : (0 : UInt64) < lease.committedSequence := by
    rw [UInt64.lt_iff_toNat_lt, hfilled.committed]
    decide
  exact hlogged.readObjectWalChain_ne_ok hfloor (.inl (by omega)) _ hread

end Writers

end TrineKv.ObjectWal
