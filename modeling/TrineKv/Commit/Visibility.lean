import TrineKv.Commit.FlushSync

/-!
# What readers see of commits

A reader reads at the visible sequence. Commits are published and closed in any order, and nothing
here depends on the conditions under which transactions are isolated or replay floors are safe: a
commit that readers see is in the trees with all its operations, and what lies at or below the
visible sequence does not change any more, whatever writers, freezes and flushes do afterwards.

## Main results

* `CommitState.complete_of_run`: a commit is visible with all its operations.
* `CommitState.stable_of_run`: what is visible does not change.
* `FlushState.present_of_run`: flushes lose nothing of it.
-/

namespace TrineKv

open Option

/-- The trees hold the same versions and range deletions at or below the sequence. -/
structure TreeState.AgreesUpTo (mode : StorageMode) (sequence : ℕ) (tree later : TreeState) :
    Prop where
  versions : ∀ record : PointRecord, record.sequence ≤ sequence →
    (later.HasVersion mode record ↔ tree.HasVersion mode record)
  tombstones : ∀ tombstone : RangeTombstone, tombstone.sequence ≤ sequence →
    (tombstone ∈ later.publishedTombstones mode ↔ tombstone ∈ tree.publishedTombstones mode)

namespace Database

variable {db : Database} {commit : Commit}

lemma visibleSequence_lt (hcommit : commit ∈ db.commits) (hopen : commit.phase.isOpen = true) :
    db.tracker.visibleSequence < commit.sequence.toNat :=
  (CommitTracker.bounds_of_isOpen ((db.isOpen_iff commit hcommit).mpr hopen)).1

/-- A commit that readers may see is not on its way any more. -/
lemma phase_of_le (hcommit : commit ∈ db.commits)
    (hle : commit.sequence.toNat ≤ db.tracker.visibleSequence) :
    commit.phase = .skipped ∨ commit.phase = .visible := by
  have hclosed : ¬commit.phase.isOpen = true := fun hopen =>
    absurd (visibleSequence_lt hcommit hopen) hle.not_gt
  cases hphase : commit.phase with
  | skipped => exact .inl rfl
  | visible => exact .inr rfl
  | reserved | durable | published => simp [hphase, CommitPhase.isOpen] at hclosed

end Database

namespace CommitState

variable {s s' t : CommitState} {action : CommitAction}

/-- All that a step can do to the database. -/
lemma db_of_step (h : s.step action = some s') :
    s'.db = s.db ∨
      (∃ operations hlength reads, s.db.reserve operations hlength reads = some s'.db) ∨
      ∃ sequence, s.db.acceptWal sequence = some s'.db ∨ s.db.skip sequence = some s'.db ∨
        s.db.publish sequence = some s'.db ∨ s.db.markVisible sequence = some s'.db := by
  cases action with
  | preaccept write =>
    simp only [step] at h
    split_ifs at h
    obtain ⟨after, hafter, rfl⟩ := map_eq_some_iff.mp h
    exact .inr (.inl ⟨_, _, _, hafter⟩)
  | validate write =>
    simp only [step] at h
    split_ifs at h
    cases hreads : write.reads with
    | none =>
      simp only [hreads, Option.some.injEq] at h
      exact .inl (by rw [← h])
    | some reads =>
      simp only [hreads] at h
      split at h
      · exact .inl (by rw [← Option.some.inj h])
      · cases h
  | reserve =>
    simp only [step] at h
    split at h
    · cases h
    · split_ifs at h
      · exact .inl (by rw [← Option.some.inj h])
      · obtain ⟨after, hafter, rfl⟩ := map_eq_some_iff.mp h
        exact .inr (.inl ⟨_, _, _, hafter⟩)
  | acceptWal sequence =>
    obtain ⟨after, hafter, rfl⟩ := map_eq_some_iff.mp h
    exact .inr (.inr ⟨sequence, .inl hafter⟩)
  | skip sequence =>
    obtain ⟨after, hafter, rfl⟩ := map_eq_some_iff.mp h
    exact .inr (.inr ⟨sequence, .inr (.inl hafter)⟩)
  | publish sequence =>
    obtain ⟨after, hafter, rfl⟩ := map_eq_some_iff.mp h
    exact .inr (.inr ⟨sequence, .inr (.inr (.inl hafter))⟩)
  | markVisible sequence =>
    obtain ⟨after, hafter, rfl⟩ := map_eq_some_iff.mp h
    exact .inr (.inr ⟨sequence, .inr (.inr (.inr hafter))⟩)

lemma Shown.step (h : Shown s.db) (hstep : s.step action = some s') : Shown s'.db := by
  rcases db_of_step hstep with hsame | ⟨_, _, _, hreserve⟩ |
    ⟨sequence, haccept | hskip | hpublish | hvisible⟩
  · rwa [hsame]
  · exact h.reserve hreserve
  · obtain ⟨hmoves, hbuckets, -⟩ := Database.acceptWal_eq_some haccept
    exact h.moves hmoves hbuckets (by simp)
  · obtain ⟨hmoves, hbuckets, -⟩ := Database.skip_eq_some hskip
    exact h.moves hmoves hbuckets (by simp)
  · exact h.publish hpublish
  · obtain ⟨hmoves, hbuckets, -⟩ := Database.markVisible_eq_some hvisible
    exact h.moves hmoves hbuckets (by simp)

/-- A commit at or below the visible sequence was given up, or it is done and all its operations are
in the trees of their buckets. -/
def Complete (db : Database) : Prop :=
  ∀ commit ∈ db.commits, commit.sequence.toNat ≤ db.tracker.visibleSequence →
    commit.phase = .skipped ∨ commit.phase = .visible ∧
      ∀ bucket tree, db.buckets bucket = some tree → ∀ operation ∈ commit.operationsOn bucket,
        tree.Shows db.mode commit.sequence operation

/-- What holds between the trees of a bucket before and after a run, if publishing a commit above
the visible sequence keeps it. -/
lemma trees_of_run {related : TreeState → TreeState → Prop} {actions : List CommitAction}
    (hrefl : ∀ tree, related tree tree)
    (hpublish : ∀ tree later sequence operations,
      s.db.tracker.visibleSequence < sequence.toNat → related tree later →
        related tree (later.publishCommit s.db.mode s.db.writeBufferBytes sequence operations))
    (hrun : Runs.run step s actions = some t) {bucket : String} {tree : TreeState}
    (htree : s.db.buckets bucket = some tree) :
    ∃ later, t.db.buckets bucket = some later ∧ related tree later := by
  let inv : CommitState → Prop := fun u =>
    s.db.tracker.visibleSequence ≤ u.db.tracker.visibleSequence ∧ u.db.mode = s.db.mode ∧
      u.db.writeBufferBytes = s.db.writeBufferBytes ∧
      ∃ later, u.db.buckets bucket = some later ∧ related tree later
  suffices hinv : inv t from hinv.2.2.2
  refine @Runs.invariant_of_step _ _ _ (fun _ _ => True) inv ?_ _ _ _
    ⟨le_rfl, rfl, rfl, tree, htree, hrefl tree⟩ hrun
    (Runs.meets_of_forall (fun _ _ => trivial) _ _)
  rintro u action u' ⟨hle, hmode, hbuffer, later, hlater, hrelated⟩ - hstep
  rcases db_of_step hstep with hsame | ⟨_, _, _, hreserve⟩ |
    ⟨written, haccept | hskip | hwrite | hvisible⟩
  · simp only [inv, hsame]
    exact ⟨hle, hmode, hbuffer, later, hlater, hrelated⟩
  · obtain ⟨_, -, -, -, -, -, hm, hw, hbuckets, -, hsequence⟩ := Database.reserve_eq_some hreserve
    exact ⟨hle.trans_eq hsequence.symm, hm.trans hmode, hw.trans hbuffer, later, hbuckets ▸ hlater,
      hrelated⟩
  · obtain ⟨hmoves, hbuckets, htracker, -⟩ := Database.acceptWal_eq_some haccept
    exact ⟨htracker ▸ hle, hmoves.mode_eq.trans hmode, hmoves.writeBufferBytes_eq.trans hbuffer,
      later, hbuckets ▸ hlater, hrelated⟩
  · obtain ⟨hmoves, hbuckets, hmark⟩ := Database.skip_eq_some hskip
    exact ⟨hle.trans (CommitTracker.markTerminal_eq_ok (by decide) hmark).2.2.1,
      hmoves.mode_eq.trans hmode, hmoves.writeBufferBytes_eq.trans hbuffer, later,
      hbuckets ▸ hlater, hrelated⟩
  · obtain ⟨commit, hcommit, hsequence, hmoves, hbuckets, htracker⟩ :=
      Database.publish_eq_some hwrite
    refine ⟨htracker ▸ hle, hmoves.mode_eq.trans hmode, hmoves.writeBufferBytes_eq.trans hbuffer,
      ?_⟩
    -- The commit is open, so its sequence is above the visible one.
    have hlt : u.db.tracker.visibleSequence < commit.sequence.toNat := by
      obtain ⟨found, hfound, heq, hphase⟩ := hmoves.exists_commit
      obtain rfl := u.db.sequence_injective hfound hcommit (heq.trans hsequence.symm)
      refine Database.visibleSequence_lt hfound ?_
      rw [hphase]
      cases u.db.mode <;> rfl
    rw [hbuckets, Database.publishBuckets, hlater, hmode, hbuffer]
    refine ⟨_, rfl, ?_⟩
    split_ifs
    · exact hrelated
    · exact hpublish tree later _ _ (by omega) hrelated
  · obtain ⟨hmoves, hbuckets, hmark⟩ := Database.markVisible_eq_some hvisible
    exact ⟨hle.trans (CommitTracker.markTerminal_eq_ok (by decide) hmark).2.2.1,
      hmoves.mode_eq.trans hmode, hmoves.writeBufferBytes_eq.trans hbuffer, later,
      hbuckets ▸ hlater, hrelated⟩

/-- What the trees hold at or below the visible sequence stays the same in every later run. -/
theorem stable_of_run {actions : List CommitAction} (hrun : Runs.run step s actions = some t)
    {bucket : String} {tree : TreeState} (htree : s.db.buckets bucket = some tree) :
    ∃ later, t.db.buckets bucket = some later ∧
      tree.AgreesUpTo s.db.mode s.db.tracker.visibleSequence later := by
  refine trees_of_run (fun _ => ⟨fun _ _ => Iff.rfl, fun _ _ => Iff.rfl⟩) ?_ hrun htree
  intro tree later sequence operations hlt h
  refine ⟨fun record hrecord => ?_, fun tombstone htombstone => ?_⟩
  · rw [TreeState.hasVersion_publishCommit (by omega), h.versions record hrecord]
  · rw [TreeState.mem_publishedTombstones_publishCommit, or_iff_left,
      h.tombstones tombstone htombstone]
    rintro ⟨operation, -, hwritten⟩
    have := BatchOperation.sequence_of_mem_toTombstone hwritten
    omega

theorem stable_of_run_serial :
    ∃ s t later, Runs.run step (opened .persistent) (serialRun.take 5) = some s ∧
      Runs.run step s (serialRun.drop 5) = some t ∧ t.db.buckets "default" = some later ∧
      ∀ tree, s.db.buckets "default" = some tree → tree.AgreesUpTo s.db.mode 1 later := by
  have hfirst : (Runs.run step (opened .persistent) (serialRun.take 5)).map
      (fun s => (s.db.tracker.visibleSequence, (s.db.buckets "default").isSome)) =
      some (1, true) := by decide
  have hall : (Runs.run step (opened .persistent)
      (serialRun.take 5 ++ serialRun.drop 5)).isSome := by decide
  obtain ⟨t, hall⟩ := isSome_iff_exists.mp hall
  obtain ⟨s, hrun, hlater⟩ := Runs.run_append.mp hall
  rw [hrun, map_some, Option.some.injEq, Prod.mk.injEq] at hfirst
  obtain ⟨tree, htree⟩ := isSome_iff_exists.mp hfirst.2
  obtain ⟨later, hbucket, hagrees⟩ := stable_of_run hlater htree
  refine ⟨s, t, later, hrun, hlater, hbucket, fun other hother => ?_⟩
  obtain rfl := Option.some.inj (htree.symm.trans hother)
  exact hfirst.1 ▸ hagrees

end CommitState

namespace FlushState

variable {s s' t : FlushState} {action : FlushAction}

lemma Placed.step (h : Placed s.db s.manifest.tables) (hconsistent : s.Consistent)
    (hstep : s.step action = some s') : Placed s'.db s'.manifest.tables := by
  cases action with
  | reserve write =>
    simp only [FlushState.step] at hstep
    split_ifs at hstep with hwrite
    obtain ⟨after, hreserve, rfl⟩ := map_eq_some_iff.mp hstep
    exact h.reserve hwrite.2 hreserve
  | acceptWal sequence =>
    obtain ⟨after, hafter, rfl⟩ := map_eq_some_iff.mp hstep
    obtain ⟨hmoves, hbuckets, htracker, -⟩ := Database.acceptWal_eq_some hafter
    exact h.moves hmoves hbuckets (by rw [htracker]) (by decide)
  | skip sequence =>
    obtain ⟨after, hafter, rfl⟩ := map_eq_some_iff.mp hstep
    obtain ⟨hmoves, hbuckets, hmark⟩ := Database.skip_eq_some hafter
    exact h.moves hmoves hbuckets (CommitTracker.markTerminal_eq_ok (by decide) hmark).2.1
      (by decide)
  | publish sequence =>
    obtain ⟨after, hafter, rfl⟩ := map_eq_some_iff.mp hstep
    exact h.publish hafter
  | freezeAll =>
    obtain rfl := Option.some.inj hstep
    exact h.mapTrees
      (fun _ _ _ _ hchange => TreeState.mem_unflushedChanges_freezeActiveMemtable.mp hchange)
      fun _ _ _ _ hchange =>
        Or.inl (TreeState.mem_unflushedChanges_freezeActiveMemtable.mpr hchange)
  | install =>
    simp only [FlushState.step] at hstep
    split at hstep
    · next inputs floor hflush =>
      obtain rfl := Option.some.inj hstep
      refine h.mapTrees (fun bucket tree htree change hchange => ?_)
        fun bucket tree htree change hchange => ?_
      · exact TreeState.mem_unflushedChanges_iff_excluding.mpr
          (.inl (mem_unflushedExcluding_installFlush.mp hchange))
      · rcases (@TreeState.mem_unflushedChanges_iff_excluding tree _ (flushedOf inputs bucket)).mp
          hchange with hin | ⟨immutable, -, hin, hchange⟩
        · exact .inl (mem_unflushedExcluding_installFlush.mpr hin)
        · obtain ⟨table, htable, hin⟩ := exists_table_of_flushedOf hin hchange
          exact .inr ⟨table, hconsistent.manifested inputs floor hflush htable, hin⟩
    · cases hstep
  | publishManifest =>
    simp only [FlushState.step] at hstep
    split at hstep
    · split_ifs at hstep
      obtain rfl := Option.some.inj hstep
      exact h.mono (List.subset_append_left _ _)
    · cases hstep
  | collect inputs =>
    simp only [FlushState.step] at hstep
    split_ifs at hstep
    obtain rfl := Option.some.inj hstep
    exact h
  | computeFloor | rewriteWal | abandon =>
    simp only [FlushState.step] at hstep
    split at hstep <;> cases hstep <;> exact h

/-- In every run of commits, freezes and flushes, every operation of a commit that readers see is in
a memtable or in a table of the manifest. -/
theorem present_of_run {opened : FlushState} (hopened : opened.Opened)
    {actions : List FlushAction} (hrun : Runs.run step opened actions = some s) :
    ∀ commit ∈ s.db.commits, commit.sequence.toNat ≤ s.db.tracker.visibleSequence →
      commit.phase ≠ .skipped → ∀ bucket, ∀ operation ∈ commit.operationsOn bucket,
        s.Present bucket (operation.1.toChange commit.sequence operation.2) := by
  let inv : FlushState → Prop := fun s => s.Consistent ∧ Placed s.db s.manifest.tables
  have hstep : ∀ s action s', inv s → True → s.step action = some s' → inv s' :=
    fun _ _ _ h _ hstep => ⟨(h.1.step hstep).1, Placed.step h.2 h.1 hstep⟩
  have hinv : inv s := Runs.invariant_of_step hstep
    ⟨consistent_of_run hopened (Runs.run_nil opened), hopened.invariant.placed⟩ hrun
    (Runs.meets_of_forall (fun _ _ => trivial) _ _)
  intro commit hcommit hle hskipped bucket operation hop
  have hvisible := (Database.phase_of_le hcommit hle).resolve_left hskipped
  exact (hinv.2.stored commit hcommit hvisible bucket operation hop).symm

theorem present_of_run_flushed :
    ∃ s, Runs.run step emptyDatabase (flushOneCommit ++ finishFlush) = some s ∧
      s.db.tracker.visibleSequence = 2 ∧
      s.Present "default" ((BatchOperation.put "default" [97] [1]).toChange 1 0) := by
  have hsome : (Runs.run step emptyDatabase (flushOneCommit ++ finishFlush)).map
      (fun s => (s.db.tracker.visibleSequence, s.db.commits.head?)) =
      some (2, some ⟨1, [.put "default" [97] [1]], none, .visible, by decide⟩) := by decide
  obtain ⟨s, hrun, hvalue⟩ := map_eq_some_iff.mp hsome
  obtain ⟨hvisible, hhead⟩ := Prod.mk.inj hvalue
  refine ⟨s, hrun, hvisible, present_of_run opened_emptyDatabase hrun _
    (List.mem_of_head? hhead) ?_ (by decide) "default" (.put "default" [97] [1], 0) (by decide)⟩
  rw [hvisible]
  decide

end FlushState

end TrineKv
