import TrineKv.Commit.ReplayFloor

/-!
# Flushing on request

A flush on request freezes all active memtables with the visible sequence as its target and waits
until no queued memtable is frozen at the target or below, while other work goes on. A memtable that
a commit has filled is frozen with the sequence of that commit, which can be above the visible one,
and the loop does not wait for it.

## Main results

* `FlushState.stored_of_flushSync`: what a flush has stored when it returns.
-/

namespace TrineKv.FlushState

open List Option

def hasImmutableMemtablesAtOrBelow (s : FlushState) (maxSequence : ℕ) : Bool :=
  s.bucketNames.any fun bucket => (s.db.buckets bucket).any fun tree =>
    tree.immutableMemtables.any fun immutable => immutable.freezeSequence ≤ maxSequence

def Stored (s : FlushState) (bucket : String) (change : Change) : Prop :=
  ∃ table ∈ s.manifest.tables, table.bucket = bucket ∧ change ∈ table.changes

def Present (s : FlushState) (bucket : String) (change : Change) : Prop :=
  s.Stored bucket change ∨
    ∃ tree, s.db.buckets bucket = some tree ∧ change ∈ tree.unflushedChanges

def FrozenInTime (s : FlushState) : Prop :=
  ∀ bucket tree, s.db.buckets bucket = some tree → ∀ immutable ∈ tree.immutableMemtables,
    (∃ change ∈ immutable.changes, change.sequence ≤ s.db.tracker.visibleSequence) →
      immutable.freezeSequence ≤ s.db.tracker.visibleSequence

/-- The change is stored, or in a queued memtable that is frozen at the target or below. -/
def Awaited (s : FlushState) (target : ℕ) (bucket : String) (change : Change) : Prop :=
  s.Stored bucket change ∨ ∃ tree, s.db.buckets bucket = some tree ∧
    ∃ immutable ∈ tree.immutableMemtables,
      immutable.freezeSequence ≤ target ∧ change ∈ immutable.changes

structure Consistent (s : FlushState) : Prop where
  names : ∀ bucket, (s.db.buckets bucket).isSome → bucket ∈ s.bucketNames
  manifested : ∀ inputs floor, s.flush = .manifested inputs floor →
    inputs.map FlushInput.table ⊆ s.manifest.tables

/-! ## Steps -/

variable {s s' : FlushState} {action : FlushAction} {bucket : String} {change : Change}

lemma subset_freezeActiveMemtable (tree : TreeState) (sequence : ℕ) :
    tree.immutableMemtables ⊆ (tree.freezeActiveMemtable sequence).immutableMemtables := by
  rw [TreeState.freezeActiveMemtable]
  split_ifs
  · exact List.Subset.refl _
  · exact subset_append_left _ _

lemma subset_publishCommit (tree : TreeState) (writeBufferBytes : ℕ) (sequence : UInt64)
    (operations : List (BatchOperation × UInt32)) (mode : StorageMode) :
    tree.immutableMemtables ⊆
      (tree.publishCommit mode writeBufferBytes sequence operations).immutableMemtables := by
  have hlarge : ∀ grown : TreeState, grown.immutableMemtables = tree.immutableMemtables →
      tree.immutableMemtables ⊆ (grown.freezeLargeActiveMemtable writeBufferBytes
        sequence.toNat).immutableMemtables := by
    intro grown hgrown
    rw [TreeState.freezeLargeActiveMemtable, ← hgrown]
    split_ifs
    · exact subset_freezeActiveMemtable grown _
    · exact List.Subset.refl _
  cases mode with
  | inMemory => exact hlarge _ rfl
  | persistent => exact hlarge _ TreeState.immutableMemtables_applyOperations

/-- A step that neither publishes a manifest nor removes memtables from the queues. -/
lemma Consistent.grow (h : s.Consistent) (f : String → TreeState → TreeState)
    (hdb : ∀ bucket, s'.db.buckets bucket = (s.db.buckets bucket).map (f bucket))
    (hqueue : ∀ bucket tree, tree.immutableMemtables ⊆ (f bucket tree).immutableMemtables)
    (hnames : s'.bucketNames = s.bucketNames) (hmanifest : s'.manifest = s.manifest)
    (hflush : ∀ inputs floor, s'.flush = .manifested inputs floor →
      s.flush = .manifested inputs floor) :
    s'.Consistent ∧ ∀ target bucket change,
      s.Awaited target bucket change → s'.Awaited target bucket change := by
  refine ⟨⟨fun bucket hbucket => ?_, fun inputs floor hinputs => ?_⟩, ?_⟩
  · rw [hnames]
    exact h.names bucket (by simpa [hdb] using hbucket)
  · rw [hmanifest]
    exact h.manifested inputs floor (hflush inputs floor hinputs)
  · rintro target bucket change (⟨table, htable, hin⟩ | ⟨tree, htree, immutable, hmem, hin⟩)
    · exact .inl ⟨table, hmanifest ▸ htable, hin⟩
    · exact .inr ⟨f bucket tree, by rw [hdb, htree]; rfl, immutable, hqueue bucket tree hmem, hin⟩

lemma Consistent.step (h : s.Consistent) (hstep : s.step action = some s') :
    s'.Consistent ∧ ∀ target bucket change,
      s.Awaited target bucket change → s'.Awaited target bucket change := by
  have hsame : ∀ bucket, s.db.buckets bucket = (s.db.buckets bucket).map id := fun _ => by simp
  cases action with
  | reserve write =>
    simp only [FlushState.step] at hstep
    split_ifs at hstep
    obtain ⟨after, hreserve, rfl⟩ := map_eq_some_iff.mp hstep
    obtain ⟨-, -, -, -, -, -, -, -, hbuckets, -⟩ := Database.reserve_eq_some hreserve
    exact h.grow (fun _ tree => tree) (fun _ => by simp [hbuckets]) (fun _ _ _ h => h) rfl rfl
      fun _ _ h => h
  | acceptWal sequence =>
    obtain ⟨after, hafter, rfl⟩ := map_eq_some_iff.mp hstep
    obtain ⟨-, hbuckets, -⟩ := Database.acceptWal_eq_some hafter
    exact h.grow (fun _ tree => tree) (fun _ => by simp [hbuckets]) (fun _ _ _ h => h) rfl rfl
      fun _ _ h => h
  | skip sequence =>
    obtain ⟨after, hafter, rfl⟩ := map_eq_some_iff.mp hstep
    obtain ⟨-, hbuckets, -⟩ := Database.skip_eq_some hafter
    exact h.grow (fun _ tree => tree) (fun _ => by simp [hbuckets]) (fun _ _ _ h => h) rfl rfl
      fun _ _ h => h
  | publish sequence =>
    obtain ⟨after, hafter, rfl⟩ := map_eq_some_iff.mp hstep
    obtain ⟨commit, -, -, -, hbuckets, -⟩ := Database.publish_markVisible_eq_some hafter
    refine h.grow _ (fun bucket => congrFun hbuckets bucket) (fun bucket tree => ?_) rfl rfl
      fun _ _ h => h
    split_ifs
    · exact List.Subset.refl _
    · exact subset_publishCommit _ _ _ _ _
  | freezeAll =>
    obtain rfl := Option.some.inj hstep
    exact h.grow _ (fun _ => rfl) (fun _ tree => subset_freezeActiveMemtable tree _) rfl rfl
      fun _ _ h => h
  | collect inputs =>
    simp only [FlushState.step] at hstep
    split_ifs at hstep
    obtain rfl := Option.some.inj hstep
    exact h.grow (fun _ tree => tree) hsame (fun _ _ _ h => h) rfl rfl (by simp)
  | publishManifest =>
    simp only [FlushState.step] at hstep
    split at hstep
    · next inputs floor hflush =>
      split_ifs at hstep
      obtain rfl := Option.some.inj hstep
      refine ⟨⟨h.names, fun inputs' floor' heq => ?_⟩, ?_⟩
      · obtain ⟨rfl, rfl⟩ := FlushStage.manifested.inj heq
        exact subset_append_right _ _
      · rintro target bucket change (⟨table, htable, hin⟩ | hqueued)
        · exact .inl ⟨table, mem_append_left _ htable, hin⟩
        · exact .inr hqueued
    · cases hstep
  | install =>
    simp only [FlushState.step] at hstep
    split at hstep
    · next inputs floor hflush =>
      obtain rfl := Option.some.inj hstep
      refine ⟨⟨fun bucket hbucket => h.names bucket (by simpa [mapTrees] using hbucket), by simp⟩, ?_⟩
      rintro target bucket change (hstored | ⟨tree, htree, immutable, hmem, hfrozen, hin⟩)
      · exact .inl hstored
      · by_cases hflushed : immutable ∈ flushedOf inputs bucket
        · obtain ⟨table, htable, hin⟩ := exists_table_of_flushedOf hflushed hin
          exact .inl ⟨table, h.manifested inputs floor hflush htable, hin⟩
        · refine .inr ⟨installFlush inputs bucket tree, by simp [mapTrees, htree], immutable, ?_,
            hfrozen, hin⟩
          exact mem_filter.mpr ⟨hmem, by simpa using hflushed⟩
    · cases hstep
  | computeFloor | rewriteWal | abandon =>
    simp only [FlushState.step] at hstep
    split at hstep <;> cases hstep <;>
      exact h.grow (fun _ tree => tree) hsame (fun _ _ _ h => h) rfl rfl (by simp)

/-! ## Requests -/

lemma consistent_of_run {opened : FlushState} (hopened : opened.Opened)
    {actions : List FlushAction} (hrun : Runs.run step opened actions = some s) : s.Consistent := by
  refine Runs.invariant_of_step (fun _ _ _ h _ hstep => (Consistent.step h hstep).1) ?_ hrun
    (Runs.meets_of_forall (fun _ _ => trivial) _ _)
  exact ⟨hopened.names, by rw [hopened.flush_eq]; exact nofun⟩

lemma awaited_freezeAll (h : s.Consistent) (htime : s.FrozenInTime)
    (hstep : s.step .freezeAll = some s') (hpresent : s.Present bucket change)
    (hle : change.sequence ≤ s.db.tracker.visibleSequence) :
    s'.Awaited s.db.tracker.visibleSequence bucket change := by
  rcases hpresent with hstored | ⟨tree, htree, hchange⟩
  · exact (h.step hstep).2 _ _ _ (Or.inl hstored)
  rcases TreeState.mem_unflushedChanges.mp hchange with hactive | ⟨immutable, hmem, hin⟩
  · obtain rfl := Option.some.inj hstep
    have hne : ¬(tree.activeMemtable.entries.isEmpty && tree.rangeTombstones.isEmpty) = true := by
      intro hempty
      rw [Bool.and_eq_true, List.isEmpty_iff, List.isEmpty_iff] at hempty
      cases change <;> simp [TreeState.activeChanges, hempty.1, hempty.2] at hactive
    refine .inr ⟨tree.freezeActiveMemtable s.db.tracker.visibleSequence, by simp [mapTrees, htree],
      ⟨tree.activeMemtable, tree.rangeTombstones, s.db.tracker.visibleSequence, tree.activeAddress⟩,
      ?_, le_rfl, hactive⟩
    rw [TreeState.freezeActiveMemtable, if_neg hne]
    simp
  · exact (h.step hstep).2 _ _ _ (Or.inr ⟨tree, htree, immutable, hmem,
      htime bucket tree htree immutable hmem ⟨change, hin, hle⟩, hin⟩)

/-- When a request returns, every change up to the sequence that was visible at its start is in a
table of the manifest, whatever goes on meanwhile, if queued memtables with such changes were frozen
in time. -/
theorem stored_of_flushSync {opened started frozen returned : FlushState}
    (hopened : opened.Opened) {before during : List FlushAction}
    (hbefore : Runs.run step opened before = some started)
    (hfrozen : started.step .freezeAll = some frozen)
    (hduring : Runs.run step frozen during = some returned)
    (hreturn : returned.hasImmutableMemtablesAtOrBelow started.db.tracker.visibleSequence = false)
    (htime : started.FrozenInTime) (hpresent : started.Present bucket change)
    (hle : change.sequence ≤ started.db.tracker.visibleSequence) :
    returned.Stored bucket change := by
  have hstarted := consistent_of_run hopened hbefore
  let inv : FlushState → Prop := fun s =>
    s.Consistent ∧ s.Awaited started.db.tracker.visibleSequence bucket change
  have hstep : ∀ s action s', inv s → True → s.step action = some s' → inv s' := by
    intro s action s' h _ hstep
    exact ⟨(h.1.step hstep).1, (h.1.step hstep).2 _ _ _ h.2⟩
  have hinv : inv returned := Runs.invariant_of_step hstep
    ⟨(hstarted.step hfrozen).1, awaited_freezeAll hstarted htime hfrozen hpresent hle⟩ hduring
    (Runs.meets_of_forall (fun _ _ => trivial) _ _)
  rcases hinv.2 with hstored | ⟨tree, htree, immutable, hmem, hfrozen, -⟩
  · exact hstored
  · have hname := hinv.1.names bucket (by rw [htree]; rfl)
    have hsome : returned.hasImmutableMemtablesAtOrBelow
        started.db.tracker.visibleSequence = true :=
      any_eq_true.mpr ⟨bucket, hname, by simpa [htree] using ⟨immutable, hmem, hfrozen⟩⟩
    rw [hreturn] at hsome
    cases hsome

def firstCommit : List FlushAction :=
  [.reserve (CommitState.blindPut [97] [1]), .acceptWal 1, .publish 1]

def firstChange : Change := .version (.ofPut [97] [1] 1 0)

/-- A flush of the first commit, as the request awaits it. -/
def flushFirst : List FlushAction :=
  [.collect [frozenPut [97] [1] 1 1 0], .computeFloor, .publishManifest, .install]

theorem stored_of_flushSync_first :
    ∃ started frozen returned, Runs.run step emptyDatabase firstCommit = some started ∧
      started.step .freezeAll = some frozen ∧ Runs.run step frozen flushFirst = some returned ∧
      returned.hasImmutableMemtablesAtOrBelow started.db.tracker.visibleSequence = false ∧
      returned.Stored "default" firstChange := by
  have hstarted : (Runs.run step emptyDatabase firstCommit).map (fun s =>
      (s.db.tracker.visibleSequence, s.bucketNames, (s.db.buckets "default").map fun tree =>
        (decide (firstChange ∈ tree.unflushedChanges), tree.immutableMemtables.isEmpty))) =
      some (1, ["default"], some (true, true)) := by decide
  have hreturned : (Runs.run step emptyDatabase (firstCommit ++ .freezeAll :: flushFirst)).map
      (fun s => s.hasImmutableMemtablesAtOrBelow 1) = some false := by decide
  obtain ⟨started, hrun, hfacts⟩ := map_eq_some_iff.mp hstarted
  obtain ⟨hvisible, hnames, tree, htree, hmem, hqueue⟩ : _ ∧ _ ∧ ∃ tree, _ ∧ _ ∧ _ := by
    simpa using hfacts
  obtain ⟨returned, hall, hreturn⟩ := map_eq_some_iff.mp hreturned
  obtain ⟨started', hrun', hrest⟩ := Runs.run_append.mp hall
  obtain rfl : started = started' := Option.some.inj (hrun.symm.trans hrun')
  have htime : started.FrozenInTime := by
    intro bucket other hother immutable himmutable
    have hname := (consistent_of_run opened_emptyDatabase hrun).names bucket (by rw [hother]; rfl)
    rw [hnames, mem_singleton] at hname
    rw [hname, htree] at hother
    rw [← Option.some.inj hother, hqueue] at himmutable
    cases himmutable
  refine ⟨started, _, returned, hrun, rfl, hrest, by rw [hvisible]; exact hreturn, ?_⟩
  exact stored_of_flushSync opened_emptyDatabase hrun rfl hrest (by rw [hvisible]; exact hreturn)
    htime (Or.inr ⟨tree, htree, hmem⟩) (by rw [hvisible]; decide)

/-- Commit 3 fills and freezes the memtable of commit 1 while commit 2 is open. -/
def frozenAhead : List FlushAction :=
  firstCommit ++ [.reserve (CommitState.blindPut [98] [2]), .acceptWal 2,
    .reserve (CommitState.blindPut [99] (List.replicate 1000 0)), .acceptWal 3, .publish 3]

theorem frozenAhead_not_stored :
    ∃ started frozen, Runs.run step emptyDatabase frozenAhead = some started ∧
      started.step .freezeAll = some frozen ∧
      frozen.hasImmutableMemtablesAtOrBelow started.db.tracker.visibleSequence = false ∧
      started.Present "default" firstChange ∧
      firstChange.sequence ≤ started.db.tracker.visibleSequence ∧
      ¬frozen.Stored "default" firstChange := by
  have hstarted : (Runs.run step emptyDatabase frozenAhead).map (fun s =>
      (s.db.tracker.visibleSequence, s.manifest.tables,
        (s.db.buckets "default").map fun tree => decide (firstChange ∈ tree.unflushedChanges))) =
      some (1, [], some true) := by decide +kernel
  have hfrozen : ((Runs.run step emptyDatabase frozenAhead).bind fun s => s.step .freezeAll).map
      (fun s => s.hasImmutableMemtablesAtOrBelow 1) = some false := by decide +kernel
  obtain ⟨started, hrun, hfacts⟩ := map_eq_some_iff.mp hstarted
  obtain ⟨hvisible, htables, htree⟩ : _ ∧ _ ∧ _ := by simpa using hfacts
  obtain ⟨frozen, hbind, hreturn⟩ := map_eq_some_iff.mp hfrozen
  rw [hrun] at hbind
  refine ⟨started, frozen, hrun, hbind, by rw [hvisible]; exact hreturn, ?_,
    by rw [hvisible]; decide, ?_⟩
  · obtain ⟨tree, htree, hmem⟩ := htree
    exact .inr ⟨tree, htree, hmem⟩
  · obtain rfl := Option.some.inj hbind
    rintro ⟨table, htable, -⟩
    rw [show (FlushState.mapTrees _ _).manifest.tables = started.manifest.tables from rfl,
      htables] at htable
    cases htable

end TrineKv.FlushState
