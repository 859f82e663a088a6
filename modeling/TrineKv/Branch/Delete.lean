import TrineKv.Branch.Registry
import TrineKv.Lib.Fallible

/-!
# Deleting a branch

A deletion marks the row of a branch, drops its data buckets one by one, deletes its checkpoint and
then the row, each step durable by itself. A later call starts from the marked row, but fails at a
bucket that an earlier one has dropped. So a deletion can be resumed only before its first bucket is
dropped, or after its last step.

## Main results

* `deleteBranch_again`: when a second call succeeds.
-/

namespace TrineKv.Branch

open List
open AList (insert lookup_erase lookup_erase_ne lookup_insert lookup_insert_ne)

open Fallible

abbrev Disk := Interruptible Store

def interruption : BranchError := .other (.io "storage call failed")

/-- The row that is to be deleted, if there is one; no other branch may read through it. -/
def scanBranchDelete (store : Store) (name : BranchName) :
    Except BranchError (Option RegistryEntry) := do
  store.registry.entries.forM fun row => rejectActiveChild name row.2
  return store.registry.lookup name

/-- Mark the row. -/
def beginBranchDelete (name : BranchName) (target : RegistryEntry) (disk : Disk) :
    Disk × Except BranchError Unit :=
  match target.lifecycle.beginDelete with
  | .alreadyApplied _ => (disk, .ok ())
  | .apply lifecycle =>
    attempt interruption (fun store => .ok (store.putEntry name { target with lifecycle })) disk

def removeDataBucket (dropsBuckets : Bool) (bucket : Key) (disk : Disk) :
    Disk × Except BranchError Unit :=
  match attempt interruption (fun store => store.dropInternalBucket dropsBuckets bucket) disk with
  | (disk, .error (.unsupportedBackend _)) =>
    andThen (attempt interruption (fun store => .ok (store.internalBucket bucket)) disk)
      (attempt interruption fun store => .ok (store.deleteAll bucket))
  | result => result

def removeDataBuckets (dropsBuckets : Bool) : List Key → Disk → Disk × Except BranchError Unit
  | [], disk => (disk, .ok ())
  | bucket :: buckets, disk =>
    andThen (removeDataBucket dropsBuckets bucket disk) (removeDataBuckets dropsBuckets buckets)

/-- Delete the row that was marked. -/
def finishBranchDelete (name : BranchName) (generation : ℕ) (disk : Disk) :
    Disk × Except BranchError Unit :=
  match disk.state.registry.lookup name with
  | none => (disk, .ok ())
  | some entry =>
    match requireDeleteCompletion entry generation with
    | .error error => (disk, .error error)
    | .ok _ => attempt interruption (fun store => .ok (store.eraseEntry name)) disk

def deleteBranch (dropsBuckets : Bool) (name : BranchName) (disk : Disk) :
    Disk × Except BranchError Unit :=
  match scanBranchDelete disk.state name with
  | .error error => (disk, .error error)
  | .ok none => (disk, .ok ())
  | .ok (some target) =>
    let plan := BranchDeletePlan.new name target
    andThen (beginBranchDelete name target disk) fun disk =>
    andThen (removeDataBuckets dropsBuckets plan.dataBuckets disk) fun disk =>
    andThen
      (attempt interruption (fun store => store.deleteCheckpointIfPresent plan.checkpoint) disk)
    (finishBranchDelete name plan.generation)

/-! ## What a deletion leaves -/

/-- No branch that is not being deleted reads through the branch. -/
def NoActiveChild (store : Store) (name : BranchName) : Prop :=
  ∀ child entry, store.registry.lookup child = some entry →
    rejectActiveChild name entry = .ok ()

/-- The bucket is gone or empty. -/
def Emptied (store : Store) (bucket : Key) : Prop :=
  ∀ contents, store.buckets.lookup bucket = some contents → contents = ∅

/-- Nothing is left of a branch whose row was `entry`. -/
structure Deleted (store : Store) (name : BranchName) (entry : RegistryEntry) : Prop where
  registry : store.registry.lookup name = none
  buckets : ∀ bucket ∈ entry.writtenBuckets, Emptied store (dataBucket name bucket)
  checkpoint : store.checkpoints.lookup (forkCheckpoint name) = none

def Resumable (dropsBuckets : Bool) (store : Store) (name : BranchName) : Prop :=
  dropsBuckets = true → ∀ entry, store.registry.lookup name = some entry →
    ∀ bucket ∈ entry.writtenBuckets, (store.buckets.lookup (dataBucket name bucket)).isSome

section Delete

variable {dropsBuckets : Bool} {name : BranchName} {store : Store} {disk : Disk}
  {entry : RegistryEntry}

lemma scanBranchDelete_eq (h : NoActiveChild store name) :
    scanBranchDelete store name = .ok (store.registry.lookup name) := by
  have hforM : ∀ rows : List (Sigma fun _ : BranchName => RegistryEntry),
      (∀ row ∈ rows, rejectActiveChild name row.2 = .ok ()) →
      rows.forM (fun row => rejectActiveChild name row.2) = .ok () := by
    intro rows
    induction rows with
    | nil => exact fun _ => rfl
    | cons row rows ih =>
      intro hrows
      change (rejectActiveChild name row.2 >>= fun _ => rows.forM _) = _
      rw [hrows row mem_cons_self]
      exact ih fun row' hrow' => hrows row' (mem_cons_of_mem _ hrow')
  unfold scanBranchDelete
  rw [hforM store.registry.entries fun row hrow => h row.1 row.2 (AList.mem_lookup_iff.mpr hrow)]
  rfl

/-! ## Interrupted calls -/

lemma Emptied.erase {bucket other : Key} (h : Emptied store other) :
    Emptied { store with buckets := store.buckets.erase bucket } other := by
  intro contents hlookup
  by_cases heq : other = bucket
  · subst heq
    rw [lookup_erase] at hlookup
    cases hlookup
  · rw [lookup_erase_ne heq] at hlookup
    exact h contents hlookup

lemma Emptied.deleteAll {bucket other : Key} (h : Emptied store other) :
    Emptied (store.deleteAll bucket) other := by
  intro contents hlookup
  unfold Store.deleteAll at hlookup
  by_cases heq : other = bucket
  · subst heq
    rw [lookup_insert] at hlookup
    exact (Option.some.inj hlookup).symm
  · rw [lookup_insert_ne heq] at hlookup
    exact h contents hlookup

lemma Emptied.internalBucket {bucket other : Key} (h : Emptied store other) :
    Emptied (store.internalBucket bucket) other := by
  unfold Store.internalBucket
  split
  · exact h
  · exact h.deleteAll

/-- A step of the removal of buckets: the registry is as it was, and what was empty is still
empty. -/
structure Removes (store store' : Store) : Prop where
  registry : store'.registry = store.registry
  emptied : ∀ bucket, Emptied store bucket → Emptied store' bucket

lemma Removes.refl (store : Store) : Removes store store := ⟨rfl, fun _ h => h⟩

lemma Removes.trans {store store' store'' : Store} (h : Removes store store')
    (h' : Removes store' store'') : Removes store store'' :=
  ⟨h'.registry.trans h.registry, fun bucket hbucket => h'.emptied bucket (h.emptied bucket hbucket)⟩

lemma removeDataBucket_ends (bucket : Key) (disk : Disk) :
    Ends (fun disk' : Disk => Removes disk.state disk'.state ∧ Emptied disk'.state bucket)
      (fun disk' : Disk => Removes disk.state disk'.state)
      (removeDataBucket dropsBuckets bucket disk) := by
  have hdrop : Ends
      (fun disk' : Disk => Removes disk.state disk'.state ∧ Emptied disk'.state bucket)
      (fun disk' : Disk => Removes disk.state disk'.state)
      (attempt interruption (fun store => store.dropInternalBucket dropsBuckets bucket) disk) := by
    refine attempt_ends (Removes.refl _) fun store' _ hstep => ?_
    unfold Store.dropInternalBucket at hstep
    split_ifs at hstep
    split at hstep
    · cases hstep
    · obtain rfl := Except.ok.inj hstep
      refine ⟨⟨rfl, fun other h => h.erase⟩, fun contents hlookup => ?_⟩
      rw [lookup_erase] at hlookup
      cases hlookup
  unfold removeDataBucket
  split
  next disk' _ hattempt =>
    rw [hattempt] at hdrop
    refine Ends.andThen (m := fun disk'' => Removes disk.state disk''.state)
      (attempt_ends hdrop fun store' _ hstep => ?_)
      fun disk'' hremoves => attempt_ends hremoves fun store' _ hstep => ?_
    · obtain rfl := Except.ok.inj hstep
      refine hdrop.trans ⟨?_, fun other h => h.internalBucket⟩
      unfold Store.internalBucket
      split <;> rfl
    · obtain rfl := Except.ok.inj hstep
      refine ⟨hremoves.trans ⟨rfl, fun other h => h.deleteAll⟩, fun contents hlookup => ?_⟩
      unfold Store.deleteAll at hlookup
      rw [lookup_insert] at hlookup
      exact (Option.some.inj hlookup).symm
  · exact hdrop

/-- What the removal of all buckets does, interrupted or not.

**Proof sketch.** Induction on the buckets: those that were emptied stay so. -/
lemma removeDataBuckets_ends (buckets : List Key) (disk : Disk) :
    Ends
      (fun disk' : Disk =>
        Removes disk.state disk'.state ∧ ∀ bucket ∈ buckets, Emptied disk'.state bucket)
      (fun disk' : Disk => Removes disk.state disk'.state)
      (removeDataBuckets dropsBuckets buckets disk) := by
  induction buckets generalizing disk with
  | nil => exact ⟨Removes.refl _, fun _ h => (nomatch h)⟩
  | cons bucket buckets ih =>
    have hbucket := @removeDataBucket_ends dropsBuckets bucket disk
    refine Ends.andThen hbucket fun disk' h => ?_
    refine (ih disk').imp (fun disk'' hrest => ⟨h.1.trans hrest.1, fun other hother => ?_⟩)
      fun disk'' hrest => h.1.trans hrest
    rcases mem_cons.mp hother with rfl | hother
    · exact hrest.1.emptied other h.2
    · exact hrest.2 other hother

/-- The row that a call began with, perhaps marked. -/
def Marked (entry current : RegistryEntry) : Prop :=
  current = entry ∨ current = { entry with lifecycle := .deleting }

lemma Marked.writtenBuckets {current : RegistryEntry} (h : Marked entry current) :
    current.writtenBuckets = entry.writtenBuckets := by
  rcases h with rfl | rfl
  · rfl
  · rfl

/-- How far a call has come that began with a row: the row is still there, or nothing is left. The
other rows are as they were. -/
structure Partway (before : Store) (name : BranchName) (entry : RegistryEntry) (store : Store) :
    Prop where
  others : ∀ other, other ≠ name → store.registry.lookup other = before.registry.lookup other
  row : (∃ current, store.registry.lookup name = some current ∧ Marked entry current) ∨
    Deleted store name entry

/-- Marking the row. -/
lemma beginBranchDelete_ends (hentry : disk.state.registry.lookup name = some entry) :
    Ends
      (fun disk' : Disk => Partway disk.state name entry disk'.state ∧
        disk'.state.registry.lookup name = some { entry with lifecycle := .deleting })
      (fun disk' : Disk => Partway disk.state name entry disk'.state)
      (beginBranchDelete name entry disk) := by
  have hpartway : Partway disk.state name entry disk.state :=
    ⟨fun _ _ => rfl, .inl ⟨entry, hentry, .inl rfl⟩⟩
  unfold beginBranchDelete BranchLifecycle.beginDelete
  cases hlifecycle : entry.lifecycle with
  | deleting =>
    refine ⟨hpartway, hentry.trans (congrArg some ?_)⟩
    cases entry
    congr
  | creating | active =>
    refine attempt_ends hpartway fun store' _ hstep => ?_
    obtain rfl := Except.ok.inj hstep
    have hlookup : (disk.state.registry.insert name
        { entry with lifecycle := .deleting }).lookup name =
          some { entry with lifecycle := .deleting } := lookup_insert _
    exact ⟨⟨fun other hne => lookup_insert_ne hne, .inl ⟨_, hlookup, .inr rfl⟩⟩, hlookup⟩

/-- What a call leaves: nothing when it succeeds, and otherwise the row, perhaps marked, or nothing.

**Proof sketch.** The steps before the last one leave the marked row as it is, and when the last one
is taken the buckets and the checkpoint are gone. -/
lemma deleteBranch_ends (hentry : disk.state.registry.lookup name = some entry)
    (hchildren : NoActiveChild disk.state name) :
    Ends
      (fun disk' : Disk =>
        Partway disk.state name entry disk'.state ∧ Deleted disk'.state name entry)
      (fun disk' : Disk => Partway disk.state name entry disk'.state)
      (deleteBranch dropsBuckets name disk) := by
  unfold deleteBranch
  rw [scanBranchDelete_eq hchildren, hentry]
  dsimp only
  refine Ends.andThen (beginBranchDelete_ends hentry) fun disk₁ h₁ => ?_
  obtain ⟨hpartway, hrow⟩ := h₁
  -- A store with the registry of `disk₁` is partway too.
  have hkept : ∀ store' : Store, store'.registry = disk₁.state.registry →
      Partway disk.state name entry store' := fun store' hregistry =>
    ⟨fun other hne => by rw [hregistry]; exact hpartway.others other hne,
      .inl ⟨_, by rw [hregistry]; exact hrow, .inr rfl⟩⟩
  refine Ends.andThen ((removeDataBuckets_ends _ disk₁).imp (fun _ h => h)
    fun disk₂ h => hkept _ h.registry) fun disk₂ h₂ => ?_
  obtain ⟨checkpoints, hdelete, hgone, -⟩ :=
    disk₂.state.deleteCheckpointIfPresent_eq (forkCheckpoint name)
  refine Ends.andThen (m := fun disk₃ => disk₃.state = { disk₂.state with checkpoints })
    (attempt_ends (hkept _ h₂.1.registry) fun store' _ hstep => ?_) fun disk₃ h₃ => ?_
  · exact Except.ok.inj (hstep.symm.trans hdelete)
  · have hregistry : disk₃.state.registry = disk₁.state.registry := by
      rw [h₃]
      exact h₂.1.registry
    unfold finishBranchDelete
    rw [hregistry, hrow]
    dsimp only
    split
    · exact hkept _ hregistry
    · refine attempt_ends (hkept _ hregistry) fun store' _ hstep => ?_
      obtain rfl := Except.ok.inj hstep
      suffices hdeleted : Deleted (disk₃.state.eraseEntry name) name entry from
        ⟨⟨fun other hne => (lookup_erase_ne hne).trans
          (by rw [hregistry]; exact hpartway.others other hne), .inr hdeleted⟩, hdeleted⟩
      refine ⟨lookup_erase _ _, fun bucket hbucket => ?_, ?_⟩
      · have hemptied := h₂.2 _ (mem_map_of_mem hbucket)
        intro contents hlookup
        refine hemptied contents ?_
        rw [← hlookup, h₃]
        rfl
      · rw [Store.eraseEntry, h₃]
        exact hgone

lemma deleteBranch_partway (hentry : disk.state.registry.lookup name = some entry)
    (hchildren : NoActiveChild disk.state name) :
    Partway disk.state name entry (deleteBranch dropsBuckets name disk).1.state := by
  have hends := @deleteBranch_ends dropsBuckets name disk entry hentry hchildren
  revert hends
  generalize deleteBranch dropsBuckets name disk = outcome
  obtain ⟨disk', _ | _⟩ := outcome
  · exact id
  · exact And.left

/-! ## Calls without an interruption -/

/-- What dropping a bucket that is gone returns. -/
def missingBucket : BranchError :=
  .other (.invalidOptions "cannot drop a bucket that does not exist")

/-- Without an interruption a bucket is removed when it is there or need not be dropped. -/
lemma removeDataBucket_ok {bucket : Key}
    (h : dropsBuckets = true → (store.buckets.lookup bucket).isSome) :
    ∃ store', removeDataBucket dropsBuckets bucket ⟨store, none⟩ = (⟨store', none⟩, .ok ()) ∧
      ∀ other, other ≠ bucket → store'.buckets.lookup other = store.buckets.lookup other := by
  cases dropsBuckets with
  | true =>
    obtain ⟨contents, hcontents⟩ := Option.isSome_iff_exists.mp (h rfl)
    refine ⟨{ store with buckets := store.buckets.erase bucket }, ?_,
      fun other hne => lookup_erase_ne hne⟩
    simp [removeDataBucket, Store.dropInternalBucket, hcontents]
  | false =>
    refine ⟨(store.internalBucket bucket).deleteAll bucket, ?_, fun other hne => ?_⟩
    · simp [removeDataBucket, Store.dropInternalBucket]
    · unfold Store.deleteAll Store.internalBucket
      rw [lookup_insert_ne hne]
      split
      · rfl
      · exact lookup_insert_ne hne

/-- Without an interruption all buckets are removed when they are there or need not be dropped. -/
lemma removeDataBuckets_ok {buckets : List Key} (hnodup : buckets.Nodup)
    (h : dropsBuckets = true → ∀ bucket ∈ buckets, (store.buckets.lookup bucket).isSome) :
    ∃ store', removeDataBuckets dropsBuckets buckets ⟨store, none⟩ = (⟨store', none⟩, .ok ()) := by
  induction buckets generalizing store with
  | nil => exact ⟨store, rfl⟩
  | cons bucket buckets ih =>
    obtain ⟨store₁, hremove, hothers⟩ :=
      removeDataBucket_ok fun hdrops => h hdrops bucket mem_cons_self
    obtain ⟨hnot, hnodup⟩ := nodup_cons.mp hnodup
    have hpresent : dropsBuckets = true →
        ∀ other ∈ buckets, (store₁.buckets.lookup other).isSome := by
      intro hdrops other hother
      rw [hothers other fun heq => hnot (heq ▸ hother)]
      exact h hdrops other (mem_cons_of_mem _ hother)
    obtain ⟨store', hrest⟩ := ih hnodup hpresent
    refine ⟨store', ?_⟩
    rw [removeDataBuckets, hremove]
    exact hrest

/-- The removal fails when one of the buckets is gone.

**Proof sketch.** Induction on the buckets: a bucket that is there is not the one that is gone, which
is still gone after its removal. -/
lemma removeDataBuckets_missing {buckets : List Key} {bucket : Key} (hmem : bucket ∈ buckets)
    (hmissing : store.buckets.lookup bucket = none) :
    (removeDataBuckets true buckets ⟨store, none⟩).2 = .error missingBucket := by
  induction buckets generalizing store with
  | nil => cases hmem
  | cons head buckets ih =>
    rw [removeDataBuckets]
    cases hhead : store.buckets.lookup head with
    | none => simp [removeDataBucket, Store.dropInternalBucket, hhead, missingBucket]
    | some contents =>
      have hne : bucket ≠ head := by
        rintro rfl
        rw [hmissing] at hhead
        cases hhead
      obtain ⟨store₁, hremove, hothers⟩ := @removeDataBucket_ok true store head
        fun _ => by rw [hhead, Option.isSome_some]
      rw [hremove]
      exact ih ((mem_cons.mp hmem).resolve_left hne) ((hothers bucket hne).trans hmissing)

lemma beginBranchDelete_none (hentry : store.registry.lookup name = some entry) :
    ∃ store', beginBranchDelete name entry ⟨store, none⟩ = (⟨store', none⟩, .ok ()) ∧
      store'.registry.lookup name = some { entry with lifecycle := .deleting } ∧
      store'.buckets = store.buckets := by
  unfold beginBranchDelete BranchLifecycle.beginDelete
  cases hlifecycle : entry.lifecycle with
  | deleting =>
    refine ⟨store, rfl, hentry.trans (congrArg some ?_), rfl⟩
    cases entry
    congr
  | creating | active => exact ⟨_, rfl, lookup_insert _, rfl⟩

/-- What a call without an interruption returns when it finds a row. -/
lemma deleteBranch_none (hentry : store.registry.lookup name = some entry)
    (hchildren : NoActiveChild store name) :
    (Resumable dropsBuckets store name →
      (deleteBranch dropsBuckets name ⟨store, none⟩).2 = .ok ()) ∧
    (¬Resumable dropsBuckets store name →
      (deleteBranch dropsBuckets name ⟨store, none⟩).2 = .error missingBucket) := by
  obtain ⟨store₁, hbegin, hrow, hbuckets⟩ := beginBranchDelete_none hentry
  unfold deleteBranch
  rw [scanBranchDelete_eq hchildren, hentry]
  dsimp only
  rw [hbegin, andThen_ok]
  have hnodup : (BranchDeletePlan.new name entry).dataBuckets.Nodup :=
    entry.nodup.map fun _ _ h => (dataBucket_inj.mp h).2
  constructor
  · intro hresumable
    have hpresent : dropsBuckets = true →
        ∀ bucket ∈ (BranchDeletePlan.new name entry).dataBuckets,
          (store₁.buckets.lookup bucket).isSome := by
      intro hdrops bucket hbucket
      obtain ⟨userBucket, hmem, rfl⟩ := mem_map.mp hbucket
      rw [hbuckets]
      exact hresumable hdrops entry hentry userBucket hmem
    obtain ⟨store₂, hremove⟩ := removeDataBuckets_ok hnodup hpresent
    have hremoves := @removeDataBuckets_ends dropsBuckets
      (BranchDeletePlan.new name entry).dataBuckets ⟨store₁, none⟩
    rw [hremove] at hremoves
    obtain ⟨checkpoints, hdelete, -⟩ :=
      store₂.deleteCheckpointIfPresent_eq (forkCheckpoint name)
    have hrow₂ : store₂.registry.lookup name = some { entry with lifecycle := .deleting } := by
      rw [hremoves.1.registry]
      exact hrow
    rw [hremove, andThen_ok, attempt_none]
    simp only [BranchDeletePlan.new, hdelete, andThen_ok, finishBranchDelete, hrow₂,
      requireDeleteCompletion, ne_eq, not_true_eq_false, or_self, if_false, attempt_none]
  · intro hnot
    obtain ⟨hdrops, entry', hentry', userBucket, hmem, hmissing⟩ :
        dropsBuckets = true ∧ ∃ entry', store.registry.lookup name = some entry' ∧
          ∃ bucket ∈ entry'.writtenBuckets,
            ¬(store.buckets.lookup (dataBucket name bucket)).isSome := by
      simpa [Resumable] using hnot
    obtain rfl := Option.some.inj (hentry.symm.trans hentry')
    subst hdrops
    rw [Option.not_isSome_iff_eq_none, ← hbuckets] at hmissing
    have hfails := removeDataBuckets_missing
      (mem_map_of_mem (f := dataBucket name) hmem) hmissing
    unfold andThen
    simp only [BranchDeletePlan.new, hfails]

lemma Partway.noActiveChild {before : Store} (h : Partway before name entry store)
    (hentry : before.registry.lookup name = some entry) (hchildren : NoActiveChild before name) :
    NoActiveChild store name := by
  intro child row hrow
  by_cases heq : child = name
  · subst heq
    rcases h.row with ⟨current, hcurrent, rfl | rfl⟩ | hdeleted
    · exact hchildren child row (hentry.trans (hcurrent.symm.trans hrow))
    · obtain rfl := Option.some.inj (hcurrent.symm.trans hrow)
      simp [rejectActiveChild]
    · rw [hdeleted.registry] at hrow
      cases hrow
  · exact hchildren child row ((h.others child heq).symm.trans hrow)

/-- A deletion of a branch without active children is interrupted after any number of steps, and the
branch is deleted again without an interruption. If the data buckets of the row are all there, or
buckets need not be dropped, or the row is gone, then the second call succeeds and leaves nothing of
the branch. In every other case it fails. -/
theorem deleteBranch_again (hentry : store.registry.lookup name = some entry)
    (hchildren : NoActiveChild store name) (steps : ℕ) :
    (Resumable dropsBuckets (deleteBranch dropsBuckets name ⟨store, some steps⟩).1.state name →
      (deleteBranch dropsBuckets name
        ⟨(deleteBranch dropsBuckets name ⟨store, some steps⟩).1.state, none⟩).2 = .ok () ∧
      Deleted (deleteBranch dropsBuckets name
        ⟨(deleteBranch dropsBuckets name ⟨store, some steps⟩).1.state, none⟩).1.state name entry) ∧
    (¬Resumable dropsBuckets (deleteBranch dropsBuckets name ⟨store, some steps⟩).1.state name →
      (deleteBranch dropsBuckets name
        ⟨(deleteBranch dropsBuckets name ⟨store, some steps⟩).1.state, none⟩).2 =
        .error missingBucket) := by
  have hpartway := @deleteBranch_partway dropsBuckets name ⟨store, some steps⟩ entry hentry hchildren
  have hchildren' := hpartway.noActiveChild hentry hchildren
  revert hpartway hchildren'
  generalize (deleteBranch dropsBuckets name ⟨store, some steps⟩).1.state = interrupted
  intro hpartway hchildren'
  rcases hpartway.row with ⟨current, hcurrent, hmarked⟩ | hdeleted
  · obtain ⟨hok, hfails⟩ := @deleteBranch_none dropsBuckets name interrupted current hcurrent
      hchildren'
    refine ⟨fun hresumable => ⟨hok hresumable, ?_⟩, hfails⟩
    have hends := @deleteBranch_ends dropsBuckets name ⟨interrupted, none⟩ current hcurrent
      hchildren'
    rw [Ends, hok hresumable] at hends
    exact ⟨hends.2.registry, fun bucket hbucket => hends.2.buckets bucket
      (hmarked.writtenBuckets ▸ hbucket), hends.2.checkpoint⟩
  · have hagain : deleteBranch dropsBuckets name ⟨interrupted, none⟩ =
        (⟨interrupted, none⟩, .ok ()) := by
      unfold deleteBranch
      rw [scanBranchDelete_eq hchildren', hdeleted.registry]
    rw [hagain]
    refine ⟨fun _ => ⟨rfl, hdeleted⟩, fun hnot => absurd (fun _ current hcurrent => ?_) hnot⟩
    rw [hdeleted.registry] at hcurrent
    cases hcurrent

end Delete

/-- A branch that has written to one user bucket. -/
def sampleBranch : BranchName := ⟨[98], by decide, by decide⟩

/-- The row of the branch. -/
def sampleEntry : RegistryEntry := ⟨3, none, [[117]], .active, 7, by decide⟩

def sampleStore : Store where
  registry := insert sampleBranch sampleEntry ∅
  buckets := insert (dataBucket sampleBranch [117]) (insert [1] [0, 2] ∅) ∅
  checkpoints := insert (forkCheckpoint sampleBranch) 3 ∅

/-- After the row was marked and the data bucket was dropped, the deletion cannot be finished: every
further call fails, and the row and the checkpoint stay. -/
theorem deleteBranch_stuck :
    (deleteBranch true sampleBranch
      ⟨(deleteBranch true sampleBranch ⟨sampleStore, some 2⟩).1.state, none⟩).2 =
        .error missingBucket ∧
    (((deleteBranch true sampleBranch
      ⟨(deleteBranch true sampleBranch ⟨sampleStore, some 2⟩).1.state,
        none⟩).1.state.registry.lookup sampleBranch).map RegistryEntry.lifecycle =
          some .deleting) ∧
    (deleteBranch true sampleBranch
      ⟨(deleteBranch true sampleBranch ⟨sampleStore, some 2⟩).1.state,
        none⟩).1.state.checkpoints.lookup (forkCheckpoint sampleBranch) = some 3 := by
  decide +kernel

/-- A deletion that was interrupted after its first step is finished by the second call. -/
theorem deleteBranch_sample :
    (deleteBranch true sampleBranch
      ⟨(deleteBranch true sampleBranch ⟨sampleStore, some 1⟩).1.state, none⟩).2 = .ok () ∧
    Deleted (deleteBranch true sampleBranch
      ⟨(deleteBranch true sampleBranch ⟨sampleStore, some 1⟩).1.state, none⟩).1.state sampleBranch
        sampleEntry := by
  have hchildren : NoActiveChild sampleStore sampleBranch := by
    intro child entry hlookup
    by_cases heq : child = sampleBranch
    · subst heq
      obtain rfl := Option.some.inj ((lookup_insert _).symm.trans hlookup)
      rfl
    · rw [sampleStore, lookup_insert_ne heq] at hlookup
      cases hlookup
  refine (deleteBranch_again (lookup_insert _) hchildren 1).1 fun _ entry hlookup => ?_
  have hentry : (deleteBranch true sampleBranch ⟨sampleStore, some 1⟩).1.state.registry.lookup
      sampleBranch = some { sampleEntry with lifecycle := .deleting } := by
    decide +kernel
  obtain rfl := Option.some.inj (hentry.symm.trans hlookup)
  decide +kernel

end TrineKv.Branch
