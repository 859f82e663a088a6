import TrineKv.Branch.Lifecycle

/-!
# What concurrent branch operations keep

While calls that create or delete one branch do not overlap, the checkpoint of an active row pins
the version that it forked at, and its data buckets hold exactly the writes of its generation.
Otherwise neither is true.

## Main results

* `active_of_run`: in every run.
* `overlap_breaks`: two calls that overlap.
-/

namespace TrineKv.Branch.System

open List Option
open AList (lookup_insert lookup_insert_ne)

variable {existing : Option RegistryEntry}

section Steps

variable {system : System} {store : Store} {name : BranchName} {id : ℕ} {stage : Stage}
  {entry target : RegistryEntry}
  {database : Database} {fork readAt : ℕ} {parent : Option BranchName} {prepared : Prepared}
  {bucket : Key} {buckets : List Key}

/-! ## Changes outside of the registry -/

lemma valueAt_internalBucket (store : Store) (bucket other key : Key) :
    valueAt (store.internalBucket bucket) other key = valueAt store other key := by
  unfold Store.internalBucket
  split
  · rfl
  next hnot =>
    rw [Bool.not_eq_true, isSome_eq_false_iff, isNone_iff_eq_none] at hnot
    unfold valueAt
    by_cases heq : other = bucket
    · subst heq
      rw [lookup_insert, hnot]
      rfl
    · rw [lookup_insert_ne heq]

lemma valueAt_deleteAll (store : Store) (bucket other key : Key) :
    valueAt (store.deleteAll bucket) other key =
      if other = bucket then none else valueAt store other key := by
  unfold Store.deleteAll valueAt
  by_cases heq : other = bucket
  · subst heq
    rw [lookup_insert, if_pos rfl]
    rfl
  · rw [lookup_insert_ne heq, if_neg heq]

lemma valueAt_erase (store : Store) (bucket other key : Key) :
    valueAt { store with buckets := store.buckets.erase bucket } other key =
      if other = bucket then none else valueAt store other key := by
  unfold valueAt
  by_cases heq : other = bucket
  · subst heq
    rw [AList.lookup_erase, if_pos rfl]
    rfl
  · rw [AList.lookup_erase_ne heq, if_neg heq]

lemma internalBucket_registry (store : Store) (bucket : Key) :
    (store.internalBucket bucket).registry = store.registry ∧
      (store.internalBucket bucket).checkpoints = store.checkpoints := by
  unfold Store.internalBucket
  split
  · exact ⟨rfl, rfl⟩
  · exact ⟨rfl, rfl⟩

lemma leaves_withStore (hregistry : store.registry = database.store.registry)
    (hcheckpoints : ∀ checkpoint, checkpoint ≠ forkCheckpoint name →
      store.checkpoints.lookup checkpoint = database.store.checkpoints.lookup checkpoint)
    (hvalues : ∀ other, other ≠ name → ∀ bucket key,
      valueAt store (dataBucket other bucket) key =
        valueAt database.store (dataBucket other bucket) key) :
    Leaves name database { database with store } where
  others other hne :=
    { Same.refl other database with
      registry := by rw [hregistry]
      checkpoint := hcheckpoints _ fun heq => hne (forkCheckpoint_inj.mp heq)
      values := hvalues other hne }
  clock := le_refl _
  generations _ hmem := hmem

/-- A step of a call that creates or deletes and changes a checkpoint or data of its branch keeps the
invariant if what the call relies on next holds, and the row stays sound. -/
lemma Sound.withStore (h : system.Sound) (hcall : system.calls.lookup id = some ⟨name, stage⟩)
    (howner : stage.isWrite = false) {stage' : Stage} (hkind : stage'.isWrite = false)
    (hregistry : store.registry = system.database.store.registry)
    (hcheckpoints : ∀ checkpoint, checkpoint ≠ forkCheckpoint name →
      store.checkpoints.lookup checkpoint = system.database.store.checkpoints.lookup checkpoint)
    (hvalues : ∀ other, other ≠ name → ∀ bucket key,
      valueAt store (dataBucket other bucket) key =
        valueAt system.database.store (dataBucket other bucket) key)
    (hrow : RowSound { system.database with store } name)
    (hstage : StageSound { system.database with store } name stage') :
    ((system.withStore store).proceed id name stage').Sound :=
  h.advance_owner hcall howner (leaves_withStore hregistry hcheckpoints hvalues)
    (.goesOn stage' (hkind.trans howner.symm) rfl hstage) hrow
    (.inl ⟨by rw [← hregistry]; rfl, rfl⟩) (h.modified name) rfl

lemma RowSound.of_absent (h : RowSound database name)
    (habsent : database.store.registry.lookup name = none)
    (checkpoints : AList fun _ : Key => ℕ) :
    RowSound { database with store := { database.store with checkpoints } } name := by
  unfold RowSound at h ⊢
  rw [habsent] at h
  simp only [habsent]
  exact h

lemma RowSound.of_deleting (h : RowSound database name)
    (hrow : database.store.registry.lookup name = some target)
    (hdeleting : target.lifecycle = .deleting) (hregistry : store.registry = database.store.registry)
    (hdata : ∀ bucket, NoData database.store name bucket → NoData store name bucket) :
    RowSound { database with store } name := by
  unfold RowSound at h ⊢
  rw [hrow] at h
  simp only [hregistry, hrow]
  exact ⟨h.drawn, fun bucket hbucket => hdata bucket (h.unwritten bucket hbucket),
    fun hnot => absurd hdeleting hnot, fun hnot => absurd hdeleting hnot⟩

/-! ## Changes of a row -/

lemma leaves_rowCommitted
    (hregistry : ∀ other, other ≠ name →
      store.registry.lookup other = database.store.registry.lookup other)
    (hcheckpoints : store.checkpoints = database.store.checkpoints)
    (hvalues : ∀ other, other ≠ name → ∀ bucket key,
      valueAt store (dataBucket other bucket) key =
        valueAt database.store (dataBucket other bucket) key) :
    Leaves name database (rowCommitted database name store) where
  others other hne :=
    { registry := hregistry other hne
      checkpoint := by rw [rowCommitted, hcheckpoints]
      values := hvalues other hne
      modified := Function.update_of_ne hne _ _
      writes := fun _ _ => Iff.rfl
      newest := fun _ _ _ => rfl
      clock := Nat.le_succ _
      generations := fun _ hmem => hmem }
  clock := Nat.le_succ _
  generations _ hmem := hmem

lemma unread_rowCommitted (database : Database) (name : BranchName) (store : Store) :
    Unread name database (rowCommitted database name store) := by
  right
  rw [rowCommitted_modified]
  exact Nat.lt_succ_self _

/-- A commit of a call that creates or deletes keeps the invariant if the new row is sound. -/
lemma Sound.commitRow (h : system.Sound) (hcall : system.calls.lookup id = some ⟨name, stage⟩)
    (howner : stage.isWrite = false) {system' : System}
    (hdatabase : system'.database = rowCommitted system.database name store)
    (hregistry : ∀ other, other ≠ name →
      store.registry.lookup other = system.database.store.registry.lookup other)
    (hcheckpoints : store.checkpoints = system.database.store.checkpoints)
    (hbuckets : store.buckets = system.database.store.buckets)
    (hmoves : Moves system id name stage system')
    (hrow : RowSound (rowCommitted system.database name store) name) : system'.Sound := by
  refine h.advance_owner hcall howner ?_ hmoves ?_ ?_ ?_ ?_
  all_goals rw [hdatabase]
  · exact leaves_rowCommitted hregistry hcheckpoints fun _ _ _ _ => by unfold valueAt; rw [hbuckets]
  · exact hrow
  · exact unread_rowCommitted _ _ _
  · rw [rowCommitted_modified]
    exact le_refl _
  · rfl

lemma rowSound_putEntry
    (h : EntrySound { database with store := database.store.putEntry name entry } name entry) :
    RowSound (rowCommitted database name (database.store.putEntry name entry)) name := by
  unfold RowSound
  have hlookup : (rowCommitted database name (database.store.putEntry name entry)).store.registry.lookup
      name = some entry := lookup_insert _
  rw [hlookup]
  exact ⟨h.drawn, h.unwritten, h.checkpoint, h.values⟩

lemma lookup_putEntry_ne (store : Store) {other : BranchName} (hne : other ≠ name) :
    (store.putEntry name entry).registry.lookup other = store.registry.lookup other :=
  lookup_insert_ne hne

/-! ## Creating -/

lemma resolveExistingCreate_eq_none
    (h : resolveExistingCreate existing fork parent = .ok none) :
    existing = none := by
  unfold resolveExistingCreate at h
  split at h
  · rfl
  · split_ifs at h
    split at h
    · cases Except.ok.inj h
    · cases Except.ok.inj h
    · cases h

lemma resolveExistingCreate_eq_some
    (h : resolveExistingCreate existing fork parent = .ok (some entry)) :
    existing = some entry ∧ entry.lifecycle ≠ .deleting := by
  unfold resolveExistingCreate at h
  split at h
  · cases h
  · split_ifs at h
    split at h
    next hlifecycle =>
      obtain rfl := Option.some.inj (Except.ok.inj h)
      exact ⟨rfl, by rw [hlifecycle]; nofun⟩
    next hlifecycle =>
      obtain rfl := Option.some.inj (Except.ok.inj h)
      exact ⟨rfl, by rw [hlifecycle]; nofun⟩
    · cases h

lemma planBranchActivation_eq_apply {current prepared next : RegistryEntry}
    (h : planBranchActivation current prepared = .ok (.apply next)) :
    current.lifecycle = .creating ∧ next = { current with lifecycle := .active } := by
  unfold planBranchActivation at h
  split_ifs at h
  split at h
  · cases h
  next hlifecycle => exact ⟨hlifecycle, (DurableTransition.apply.inj (Except.ok.inj h)).symm⟩
  · cases h

lemma PreparedSound.checkpoint
    (h : PreparedSound database name prepared) (hrow : RowSound database name)
    (hfound : prepared.readAt = none) :
    database.store.checkpoints.lookup (forkCheckpoint name) = some prepared.entry.fork := by
  unfold PreparedSound at h
  rw [hfound] at h
  obtain ⟨entry, hentry, hdeleting, hfork⟩ := h
  unfold RowSound at hrow
  rw [hentry] at hrow
  rw [← hfork]
  exact hrow.checkpoint hdeleting

lemma PreparedSound.checkpointed
    (h : PreparedSound database name prepared)
    (hcheckpoint : database.store.checkpoints.lookup (forkCheckpoint name) =
      some prepared.entry.fork) :
    StageSound database name (checkpointed prepared) ∧
      (System.checkpointed prepared).isWrite = false := by
  unfold PreparedSound at h
  unfold System.checkpointed
  split at h
  · exact ⟨trivial, rfl⟩
  · exact ⟨⟨h, hcheckpoint⟩, rfl⟩

lemma preparedSound_iff
    (hreadAt : prepared.readAt = some readAt) :
    PreparedSound database name prepared ↔ NewRow database name prepared.entry := by
  unfold PreparedSound
  rw [hreadAt]

lemma NewRow.of_checkpoints (h : NewRow database name entry)
    (checkpoints : AList fun _ : Key => ℕ) :
    NewRow { database with store := { database.store with checkpoints } } name entry :=
  ⟨h.absent, h.unwritten, h.drawn, h.fresh⟩

/-- The first step of a create call keeps the invariant. -/
lemma Sound.createStart (h : system.Sound)
    (hcall : system.calls.lookup id = some ⟨name, .createStart fork parent⟩) {generation : ℕ}
    (hfresh : generation ∉ system.database.generations) :
    (system.advanceCreate id name generation (.createStart fork parent)).Sound := by
  unfold advanceCreate
  dsimp only
  split
  · split
    · exact h.finish id
    next existing hresolve =>
      obtain ⟨hexisting, hlifecycle⟩ := resolveExistingCreate_eq_some hresolve
      exact h.proceed hcall rfl ⟨existing, hexisting, hlifecycle, rfl⟩
    next hresolve =>
      have habsent := resolveExistingCreate_eq_none hresolve
      have hrow := h.rows name
      unfold RowSound at hrow
      rw [habsent] at hrow
      have hleaves : Leaves name system.database
          { system.database with generations := generation :: system.database.generations } :=
        ⟨fun other _ => { Same.refl other system.database with
          generations := fun _ hmem => mem_cons_of_mem _ hmem }, le_refl _,
          fun _ hmem => mem_cons_of_mem _ hmem⟩
      refine h.advance_owner hcall rfl hleaves
        (.goesOn (.createCheckpoint _ _) rfl rfl ⟨habsent, rfl, mem_cons_self,
          fun write hwrite _ heq => ?_⟩) ?_
        (.inl ⟨rfl, rfl⟩) (h.modified name) rfl
      · have hgeneration : write.generation = generation := heq
        exact hfresh (hgeneration ▸ h.drawn write hwrite)
      · unfold RowSound
        simp only [habsent]
        exact hrow
  · exact h.finish id

/-- Creating the checkpoint keeps the invariant.

**Proof sketch.** The checkpoint of a row that was found is there, so that it is created only for a
row that is new. -/
lemma Sound.createCheckpoint (h : system.Sound) {again : Bool}
    (hcall : system.calls.lookup id = some ⟨name, .createCheckpoint prepared again⟩)
    (generation : ℕ) :
    (system.advanceCreate id name generation (.createCheckpoint prepared again)).Sound := by
  have hprepared : PreparedSound system.database name prepared := h.stages id _ hcall
  have hrow := h.rows name
  unfold advanceCreate
  dsimp only
  cases hlookup : system.database.store.checkpoints.lookup (forkCheckpoint name) with
  | some version =>
    simp only [Store.createInternalCheckpointAt, hlookup]
    exact h.proceed hcall rfl hprepared
  | none =>
    simp only [Store.createInternalCheckpointAt, hlookup]
    cases hreadAt : prepared.readAt with
    | none =>
      rw [hprepared.checkpoint hrow hreadAt] at hlookup
      cases hlookup
    | some readAt =>
      have hnew := (preparedSound_iff hreadAt).mp hprepared
      simp only [System.checkpointed, hreadAt]
      exact h.withStore hcall rfl rfl rfl (fun checkpoint hne => lookup_insert_ne hne)
        (fun _ _ _ _ => rfl) (hrow.of_absent hnew.absent _)
        ⟨hnew.of_checkpoints _, lookup_insert _⟩

lemma Sound.compareCheckpoint (h : system.Sound) {again : Bool}
    (hcall : system.calls.lookup id = some ⟨name, .compareCheckpoint prepared again⟩)
    (generation : ℕ) :
    (system.advanceCreate id name generation (.compareCheckpoint prepared again)).Sound := by
  have hprepared : PreparedSound system.database name prepared := h.stages id _ hcall
  unfold advanceCreate
  dsimp only
  split
  · exact h.finish id
  next version hlookup =>
    split_ifs with heq
    · obtain ⟨hstage, hkind⟩ := hprepared.checkpointed (hlookup.trans (congrArg some heq))
      exact h.proceed hcall hkind hstage
    · exact h.finish id
    · refine h.proceed hcall rfl ⟨hprepared, fun hreadAt => heq ?_⟩
      rw [hprepared.checkpoint (h.rows name) hreadAt] at hlookup
      exact (Option.some.inj hlookup).symm

lemma Sound.removeCheckpoint (h : system.Sound)
    (hcall : system.calls.lookup id = some ⟨name, .removeCheckpoint prepared⟩) (generation : ℕ) :
    (system.advanceCreate id name generation (.removeCheckpoint prepared)).Sound := by
  obtain ⟨hprepared, hreadAt⟩ : PreparedSound system.database name prepared ∧
      prepared.readAt ≠ none := h.stages id _ hcall
  obtain ⟨readAt, hreadAt⟩ := ne_none_iff_exists'.mp hreadAt
  obtain ⟨checkpoints, hdelete, -, hothers⟩ :=
    system.database.store.deleteCheckpointIfPresent_eq (forkCheckpoint name)
  have hnew := (preparedSound_iff hreadAt).mp hprepared
  unfold advanceCreate
  simp only [hdelete]
  exact h.withStore hcall rfl rfl rfl hothers (fun _ _ _ _ => rfl)
    ((h.rows name).of_absent hnew.absent _) ((preparedSound_iff hreadAt).mpr (hnew.of_checkpoints _))

/-- Committing a new row keeps the invariant. -/
lemma Sound.commitEntry (h : system.Sound)
    (hcall : system.calls.lookup id = some ⟨name, .commitEntry entry readAt⟩) (generation : ℕ) :
    (system.advanceCreate id name generation (.commitEntry entry readAt)).Sound := by
  obtain ⟨hnew, hcheckpoint⟩ : NewRow system.database name entry ∧
      system.database.store.checkpoints.lookup (forkCheckpoint name) = some entry.fork :=
    h.stages id _ hcall
  have hdata : ∀ bucket, NoData system.database.store name bucket := by
    have hrow := h.rows name
    unfold RowSound at hrow
    rw [hnew.absent] at hrow
    exact hrow
  unfold advanceCreate
  dsimp only
  split
  · refine h.commitRow hcall rfl rfl (fun other hne => lookup_putEntry_ne _ hne) rfl rfl
      (.goesOn (.activate entry) rfl rfl trivial) (rowSound_putEntry ⟨hnew.drawn,
        fun bucket _ => hdata bucket,
        fun _ => hcheckpoint, fun _ bucket key => (hdata bucket key).trans ?_⟩)
    refine (map_eq_none_iff.mpr (List.find?_eq_none.mpr fun write hwrite hfound => ?_)).symm
    rw [decide_eq_true_eq] at hfound
    exact hnew.fresh write hwrite hfound.1 hfound.2.1
  · exact h.finish id

lemma Sound.commitActivation (h : system.Sound) {next : RegistryEntry}
    (hcall : system.calls.lookup id = some ⟨name, .commitActivation next readAt⟩)
    (generation : ℕ) :
    (system.advanceCreate id name generation (.commitActivation next readAt)).Sound := by
  obtain ⟨-, hread⟩ : readAt ≤ system.database.clock ∧ (system.database.modified name ≤ readAt →
      ∃ current, system.database.store.registry.lookup name = some current ∧
        current.lifecycle = .creating ∧ next = { current with lifecycle := .active }) :=
    h.stages id _ hcall
  unfold advanceCreate
  dsimp only
  split
  next hmodified =>
    obtain ⟨current, hcurrent, hcreating, rfl⟩ := hread hmodified
    have hrow := h.rows name
    unfold RowSound at hrow
    rw [hcurrent] at hrow
    have hdeleting : current.lifecycle ≠ .deleting := by
      rw [hcreating]
      nofun
    exact h.commitRow hcall rfl rfl (fun other hne => lookup_putEntry_ne _ hne) rfl rfl
      (.returned rfl) (rowSound_putEntry ⟨hrow.drawn, hrow.unwritten,
        fun _ => hrow.checkpoint hdeleting, fun _ => hrow.values hdeleting⟩)
  · exact h.finish id

lemma Sound.activate (h : system.Sound) {prepared : RegistryEntry}
    (hcall : system.calls.lookup id = some ⟨name, .activate prepared⟩) (generation : ℕ) :
    (system.advanceCreate id name generation (.activate prepared)).Sound := by
  unfold advanceCreate
  dsimp only
  split
  · exact h.finish id
  next current hcurrent =>
    split
    next next hplan =>
      obtain ⟨hcreating, hnext⟩ := planBranchActivation_eq_apply hplan
      exact h.proceed hcall rfl ⟨le_refl _, fun _ => ⟨current, hcurrent, hcreating, hnext⟩⟩
    · exact h.finish id

/-! ## Deleting -/

lemma lookup_of_scanBranchDelete {result : Option RegistryEntry}
    (h : scanBranchDelete store name = .ok result) : store.registry.lookup name = result := by
  obtain ⟨_, -, hok⟩ := ByteCodec.bind_eq_ok.mp h
  exact Except.ok.inj hok

lemma clearing_start (hrow : RowSound database name)
    (htarget : database.store.registry.lookup name = some target)
    (hdeleting : target.lifecycle = .deleting) :
    Clearing database name target (BranchDeletePlan.new name target).dataBuckets where
  row := htarget
  deleting := hdeleting
  own bucket hbucket := by
    obtain ⟨userBucket, -, rfl⟩ := mem_map.mp hbucket
    exact ⟨userBucket, rfl⟩
  cleared bucket := by
    unfold RowSound at hrow
    rw [htarget] at hrow
    by_cases hwritten : bucket ∈ target.writtenBuckets
    · exact .inl (mem_map_of_mem hwritten)
    · exact .inr (hrow.unwritten bucket hwritten)

/-- The first step of a deletion keeps the invariant. -/
lemma Sound.deleteStart (h : system.Sound)
    (hcall : system.calls.lookup id = some ⟨name, .deleteStart⟩) (dropsBuckets : Bool) :
    (advanceDelete dropsBuckets system id name .deleteStart).Sound := by
  unfold advanceDelete
  dsimp only
  split
  · exact h.finish id
  · exact h.finish id
  next target hscan =>
    have htarget := lookup_of_scanBranchDelete hscan
    split
    next current hbegin =>
      have hdeleting : target.lifecycle = .deleting := by
        revert hbegin
        unfold BranchLifecycle.beginDelete
        cases target.lifecycle <;> simp
      exact h.proceed hcall rfl (clearing_start (h.rows name) htarget hdeleting)
    next lifecycle hbegin =>
      have hlifecycle : lifecycle = .deleting := by
        revert hbegin
        unfold BranchLifecycle.beginDelete
        cases target.lifecycle <;> simp [eq_comm]
      subst hlifecycle
      exact h.proceed hcall rfl ⟨le_refl _, fun _ => ⟨target, htarget, rfl⟩⟩

/-- Marking the row keeps the invariant. -/
lemma Sound.commitDeleting (h : system.Sound)
    (hcall : system.calls.lookup id = some ⟨name, .commitDeleting target readAt⟩)
    (dropsBuckets : Bool) :
    (advanceDelete dropsBuckets system id name (.commitDeleting target readAt)).Sound := by
  obtain ⟨-, hread⟩ : readAt ≤ system.database.clock ∧ (system.database.clock = readAt →
      ∃ source, system.database.store.registry.lookup name = some source ∧
        target = { source with lifecycle := .deleting }) := h.stages id _ hcall
  unfold advanceDelete
  dsimp only
  split
  next hclock =>
    obtain ⟨source, hsource, rfl⟩ := hread hclock
    have hsound := h.rows name
    unfold RowSound at hsound
    rw [hsource] at hsound
    have hrow := @rowSound_putEntry name { source with lifecycle := .deleting } system.database
      ⟨hsound.drawn, hsound.unwritten, fun hnot => absurd rfl hnot, fun hnot => absurd rfl hnot⟩
    exact h.commitRow hcall rfl rfl (fun other hne => lookup_putEntry_ne _ hne) rfl rfl
      (.goesOn (.removeBuckets _ _) rfl rfl (clearing_start hrow (lookup_insert _) rfl)) hrow
  · exact h.finish id

/-- After one of its data buckets was emptied, a deletion goes on with the others. -/
lemma Sound.removed (h : system.Sound) {stage' : Stage}
    (hcall : system.calls.lookup id = some ⟨name, stage⟩) (howner : stage.isWrite = false)
    (hclearing : Clearing system.database name target (bucket :: buckets))
    (hregistry : store.registry = system.database.store.registry)
    (hcheckpoints : store.checkpoints = system.database.store.checkpoints)
    (hvalues : ∀ other key, valueAt store other key =
      if other = bucket then none else valueAt system.database.store other key)
    (hstage' : stage' = .removeBuckets target buckets) :
    ((system.withStore store).proceed id name stage').Sound := by
  obtain ⟨userBucket, rfl⟩ := hclearing.own bucket mem_cons_self
  have hdata : ∀ bucket, NoData system.database.store name bucket → NoData store name bucket := by
    intro bucket hbucket key
    rw [hvalues, hbucket key, ite_self]
  subst hstage'
  refine h.withStore hcall howner rfl hregistry (fun _ _ => by rw [hcheckpoints])
    (fun other hne bucket key => ?_)
    ((h.rows name).of_deleting hclearing.row hclearing.deleting hregistry hdata) ?_
  · rw [hvalues, if_neg fun heq => hne (dataBucket_inj.mp heq).1]
  · refine ⟨by rw [← hclearing.row, hregistry], hclearing.deleting,
      fun bucket hbucket => hclearing.own bucket (mem_cons_of_mem _ hbucket), fun bucket => ?_⟩
    rcases hclearing.cleared bucket with hmem | hnone
    · rcases mem_cons.mp hmem with heq | hmem
      · refine .inr fun key => ?_
        rw [hvalues, if_pos heq]
      · exact .inl hmem
    · exact .inr (hdata bucket hnone)

lemma Sound.removeBuckets (h : system.Sound)
    (hcall : system.calls.lookup id = some ⟨name, .removeBuckets target buckets⟩)
    (dropsBuckets : Bool) :
    (advanceDelete dropsBuckets system id name (.removeBuckets target buckets)).Sound := by
  have hclearing : Clearing system.database name target buckets := h.stages id _ hcall
  cases buckets with
  | nil =>
    obtain ⟨checkpoints, hdelete, -, hothers⟩ :=
      system.database.store.deleteCheckpointIfPresent_eq (forkCheckpoint name)
    unfold advanceDelete
    simp only [BranchDeletePlan.new, hdelete]
    exact h.withStore hcall rfl rfl rfl hothers (fun _ _ _ _ => rfl)
      ((h.rows name).of_deleting hclearing.row hclearing.deleting rfl fun _ hdata => hdata)
      ⟨hclearing.row, hclearing.deleting, hclearing.own, hclearing.cleared⟩
  | cons bucket buckets =>
    unfold advanceDelete
    dsimp only
    split
    next store hdrop =>
      unfold Store.dropInternalBucket at hdrop
      split_ifs at hdrop
      split at hdrop
      · cases hdrop
      · obtain rfl := Except.ok.inj hdrop
        exact h.removed hcall rfl hclearing rfl rfl
          (fun other key => valueAt_erase _ bucket other key) rfl
    · obtain ⟨hregistry, hcheckpoints⟩ :=
        internalBucket_registry system.database.store bucket
      have hdata : ∀ other, NoData system.database.store name other →
          NoData (system.database.store.internalBucket bucket) name other := by
        intro other hother key
        rw [valueAt_internalBucket, hother key]
      exact h.withStore hcall rfl rfl hregistry (fun _ _ => by rw [hcheckpoints])
        (fun _ _ _ _ => valueAt_internalBucket _ _ _ _)
        ((h.rows name).of_deleting hclearing.row hclearing.deleting hregistry hdata)
        ⟨by rw [← hclearing.row, hregistry], hclearing.deleting, hclearing.own,
          fun other => (hclearing.cleared other).imp_right (hdata other)⟩
    · exact h.finish id

lemma Sound.clearBucket (h : system.Sound)
    (hcall : system.calls.lookup id = some ⟨name, .clearBucket target bucket buckets⟩)
    (dropsBuckets : Bool) :
    (advanceDelete dropsBuckets system id name (.clearBucket target bucket buckets)).Sound := by
  have hclearing : Clearing system.database name target (bucket :: buckets) := h.stages id _ hcall
  exact h.removed hcall rfl hclearing rfl rfl (fun other key => valueAt_deleteAll _ bucket other key)
    rfl

lemma Sound.finishStart (h : system.Sound)
    (hcall : system.calls.lookup id = some ⟨name, .finishStart target⟩) (dropsBuckets : Bool) :
    (advanceDelete dropsBuckets system id name (.finishStart target)).Sound := by
  have hclearing : Clearing system.database name target [] := h.stages id _ hcall
  unfold advanceDelete
  dsimp only
  split
  · exact h.finish id
  · split
    · exact h.proceed hcall rfl hclearing
    · exact h.finish id

lemma Sound.commitFinish (h : system.Sound)
    (hcall : system.calls.lookup id = some ⟨name, .commitFinish target readAt⟩)
    (dropsBuckets : Bool) :
    (advanceDelete dropsBuckets system id name (.commitFinish target readAt)).Sound := by
  have hclearing : Clearing system.database name target [] := h.stages id _ hcall
  unfold advanceDelete
  dsimp only
  split
  · refine h.commitRow hcall rfl rfl (fun other hne => AList.lookup_erase_ne hne) rfl rfl
      (.returned rfl) ?_
    unfold RowSound
    have habsent : (rowCommitted system.database name
        (system.database.store.eraseEntry name)).store.registry.lookup name = none :=
      AList.lookup_erase _ _
    rw [habsent]
    exact fun bucket => (hclearing.cleared bucket).resolve_left not_mem_nil
  · exact h.finish id

/-! ## Writing -/

lemma valueAt_putValue {key value : Key} {contents : Contents}
    (hcontents : store.buckets.lookup bucket = some contents) (other otherKey : Key) :
    valueAt (putValue store bucket key value contents) other otherKey =
      if other = bucket ∧ otherKey = key then some value else valueAt store other otherKey := by
  unfold putValue valueAt
  by_cases heq : other = bucket
  · subst heq
    rw [lookup_insert, bind_some, hcontents, bind_some]
    by_cases hkey : otherKey = key
    · subst hkey
      rw [lookup_insert, if_pos ⟨rfl, rfl⟩]
    · rw [lookup_insert_ne hkey, if_neg fun h => hkey h.2]
  · rw [lookup_insert_ne heq, if_neg fun h => heq h.1]

lemma newestWrite_cons (write : CommittedWrite) (writes : List CommittedWrite) (name : BranchName)
    (generation : ℕ) (bucket key : Key) :
    newestWrite (write :: writes) name generation bucket key =
      if write.name = name ∧ write.generation = generation ∧ write.bucket = bucket ∧
          write.key = key then some write.value
      else newestWrite writes name generation bucket key := by
  unfold newestWrite
  rw [List.find?_cons]
  split
  next hfound => rw [if_pos (of_decide_eq_true hfound), map_some]
  next hnot => rw [if_neg (of_decide_eq_false hnot)]

def writeCommitted (database : Database) (name : BranchName) (write : BranchWrite)
    (current : RegistryEntry) (contents : Contents) : Database :=
  { rowCommitted database name
      ((putValue database.store (dataBucket name write.bucket) write.key write.write.encode
        contents).putEntry name (current.written write.bucket)) with
    writes := ⟨name, current.generation, write.bucket, write.key, write.write.encode⟩ ::
      database.writes }

section WriteCommitted

variable {database : Database} {write : BranchWrite} {current : RegistryEntry} {contents : Contents}

lemma leaves_writeCommitted
    (hcontents : database.store.buckets.lookup (dataBucket name write.bucket) = some contents) :
    Leaves name database (writeCommitted database name write current contents) := by
  have hleaves : Leaves name database (rowCommitted database name
      ((putValue database.store (dataBucket name write.bucket) write.key write.write.encode
        contents).putEntry name (current.written write.bucket))) := by
    refine leaves_rowCommitted (fun other hne => lookup_insert_ne hne) rfl
      fun other hne bucket key => ?_
    refine (valueAt_putValue hcontents _ _).trans (if_neg fun h => hne ?_)
    exact (dataBucket_inj.mp h.1).1
  refine ⟨fun other hne => ?_, hleaves.clock, hleaves.generations⟩
  refine { hleaves.others other hne with writes := fun other' hother => ?_, newest := ?_ }
  · refine ⟨fun hmem => ?_, mem_cons_of_mem _⟩
    rcases mem_cons.mp hmem with rfl | hmem
    · exact absurd hother.symm hne
    · exact hmem
  · intro generation bucket key
    exact (newestWrite_cons _ _ _ _ _ _).trans (if_neg fun h => hne h.1.symm)

lemma rowSound_writeCommitted
    (hcontents : database.store.buckets.lookup (dataBucket name write.bucket) = some contents)
    (hactive : current.lifecycle = .active) (h : EntrySound database name current) :
    RowSound (writeCommitted database name write current contents) name := by
  have hlookup : (writeCommitted database name write current contents).store.registry.lookup name =
      some (current.written write.bucket) := lookup_insert _
  have hdeleting : current.lifecycle ≠ .deleting := by
    rw [hactive]
    nofun
  unfold RowSound
  rw [hlookup]
  refine ⟨h.drawn, fun bucket hbucket key => ?_, fun _ => h.checkpoint hdeleting,
    fun _ bucket key => ?_⟩
  · obtain ⟨hne, hunwritten⟩ := not_or.mp fun hor => hbucket (mem_insertBucket.mpr hor)
    refine (valueAt_putValue hcontents _ _).trans ?_
    rw [if_neg fun hand => hne (dataBucket_inj.mp hand.1).2]
    exact h.unwritten bucket hunwritten key
  · refine (valueAt_putValue hcontents _ _).trans
      (Eq.trans ?_ (newestWrite_cons _ _ _ _ _ _).symm)
    rw [h.values hdeleting bucket key]
    refine if_congr ?_ rfl rfl
    rw [dataBucket_inj]
    constructor
    · rintro ⟨⟨-, rfl⟩, rfl⟩
      exact ⟨rfl, rfl, rfl, rfl⟩
    · rintro ⟨-, -, rfl, rfl⟩
      exact ⟨⟨rfl, rfl⟩, rfl⟩

/-- All calls of a branch can still rely on what they relied on when a write to it is committed.

**Proof sketch.** The row is active, so that no call is about to put a new row or is removing the
data, and what a transaction has read is older than the write. -/
lemma stageSound_writeCommitted (hrow : database.store.registry.lookup name = some current)
    (hactive : current.lifecycle = .active) (hstage : StageSound database name stage) :
    StageSound (writeCommitted database name write current contents) name stage := by
  have hlookup : (writeCommitted database name write current contents).store.registry.lookup name =
      some (current.written write.bucket) := lookup_insert _
  have hnewer : database.clock <
      (writeCommitted database name write current contents).modified name := by
    unfold writeCommitted
    rw [rowCommitted_modified]
    exact Nat.lt_succ_self _
  have hnew : ∀ entry, ¬NewRow database name entry := by
    intro entry hnew
    rw [hnew.absent] at hrow
    cases hrow
  have hclearing : ∀ target buckets, ¬Clearing database name target buckets := by
    intro target buckets hclearing
    obtain rfl := Option.some.inj (hrow.symm.trans hclearing.row)
    cases hactive.symm.trans hclearing.deleting
  have hprepared : ∀ prepared, PreparedSound database name prepared →
      PreparedSound (writeCommitted database name write current contents) name prepared := by
    intro prepared hprepared
    unfold PreparedSound at hprepared ⊢
    split at hprepared
    · obtain ⟨entry, hentry, hdeleting, hfork⟩ := hprepared
      obtain rfl := Option.some.inj (hrow.symm.trans hentry)
      exact ⟨_, hlookup, hdeleting, hfork⟩
    · exact absurd hprepared (hnew _)
  cases stage with
  | createStart | activate | deleteStart | openBucket | readEntry => trivial
  | createCheckpoint prepared again => exact hprepared prepared hstage
  | compareCheckpoint prepared again => exact hprepared prepared hstage
  | removeCheckpoint prepared => exact ⟨hprepared prepared hstage.1, hstage.2⟩
  | commitEntry entry readAt => exact absurd hstage.1 (hnew entry)
  | commitActivation next readAt =>
    exact ⟨hstage.1.trans (Nat.le_succ _),
      fun hmodified => absurd (hmodified.trans hstage.1) (Nat.not_le.mpr hnewer)⟩
  | commitDeleting target readAt =>
    refine ⟨hstage.1.trans (Nat.le_succ _), fun hclock => ?_⟩
    exact absurd hstage.1 (Nat.not_le.mpr (hclock ▸ Nat.lt_succ_self _))
  | removeBuckets target buckets => exact absurd hstage (hclearing _ _)
  | clearBucket target bucket buckets => exact absurd hstage (hclearing _ _)
  | finishStart target => exact absurd hstage (hclearing _ _)
  | commitFinish target readAt => exact absurd hstage (hclearing _ _)
  | commitWrite write' current' readAt =>
    exact ⟨hstage.1.trans (Nat.le_succ _), hstage.2.1,
      fun hmodified => absurd (hmodified.trans hstage.1) (Nat.not_le.mpr hnewer)⟩

end WriteCommitted

lemma active_of_requireIdentity {generation : ℕ}
    (h : entry.requireIdentity generation fork parent = .ok ()) : entry.lifecycle = .active := by
  obtain ⟨_, hactive, -⟩ := ByteCodec.bind_eq_ok.mp h
  revert hactive
  unfold BranchLifecycle.requireActive
  cases entry.lifecycle <;> simp

/-- A step of a write keeps the invariant. -/
lemma Sound.advanceWrite (h : system.Sound) (hcall : system.calls.lookup id = some ⟨name, stage⟩)
    (hwrite : stage.isWrite = true) : (system.advanceWrite id name stage).Sound := by
  cases stage with
  | openBucket write =>
    obtain ⟨hregistry, hcheckpoints⟩ :=
      internalBucket_registry system.database.store (dataBucket name write.bucket)
    -- A bucket that is opened does not change any branch.
    have hsame : ∀ other, Same other system.database { system.database with
        store := system.database.store.internalBucket (dataBucket name write.bucket) } :=
      fun other =>
        { Same.refl other system.database with
          registry := by rw [hregistry]
          checkpoint := by rw [hcheckpoints]
          values := fun _ _ => valueAt_internalBucket _ _ _ _ }
    exact h.advance hcall ⟨fun other _ => hsame other, le_refl _, fun _ hmem => hmem⟩
      (.goesOn (.readEntry write) rfl rfl trivial) ((hsame name).rowSound (h.rows name))
      (fun _ _ hstage => (hsame name).stageSound hstage) (h.modified name) h.drawn
  | readEntry write =>
    unfold System.advanceWrite
    dsimp only
    split
    · exact h.finish id
    next current hcurrent =>
      split
      · exact h.finish id
      next hidentity =>
        exact h.proceed hcall rfl
          ⟨le_refl _, active_of_requireIdentity hidentity, fun _ => hcurrent⟩
  | commitWrite write current readAt =>
    obtain ⟨-, hactive, hread⟩ : readAt ≤ system.database.clock ∧ current.lifecycle = .active ∧
        (system.database.modified name ≤ readAt →
          system.database.store.registry.lookup name = some current) := h.stages id _ hcall
    unfold System.advanceWrite
    dsimp only
    split
    · exact h.finish id
    next contents hcontents =>
      split
      next hmodified =>
        have hrow := hread hmodified
        have hsound := h.rows name
        unfold RowSound at hsound
        rw [hrow] at hsound
        refine h.advance hcall (leaves_writeCommitted hcontents) (.returned rfl)
          (rowSound_writeCommitted hcontents hactive hsound)
          (fun stage' _ hstage => stageSound_writeCommitted hrow hactive hstage) ?_
          fun write' hwrite' => ?_
        · exact (Function.update_self _ _ _).le
        · rcases mem_cons.mp hwrite' with rfl | hwrite'
          · exact hsound.drawn
          · exact h.drawn write' hwrite'
      · exact h.finish id
  | _ => cases hwrite

/-! ## Runs -/

/-- A new call keeps the invariant if it does not overlap with another one that creates or deletes
the same branch. -/
lemma Sound.call (h : system.Sound) {request : Request} (hfree : system.calls.lookup id = none)
    (hadmits : system.Admits (.call id request)) :
    Sound { system with calls := system.calls.insert id (system.start request) } := by
  have hcases : ∀ id' call, (system.calls.insert id (system.start request)).lookup id' = some call →
      (id' = id ∧ call = system.start request) ∨
        (id' ≠ id ∧ system.calls.lookup id' = some call) := by
    intro id' call hcall
    by_cases heq : id' = id
    · subst heq
      rw [lookup_insert] at hcall
      exact .inl ⟨rfl, (Option.some.inj hcall).symm⟩
    · rw [lookup_insert_ne heq] at hcall
      exact .inr ⟨heq, hcall⟩
  -- The new call and one that runs are not of the same branch.
  have hdisjoint : ∀ id' call, system.calls.lookup id' = some call →
      (system.start request).stage.isWrite = false → call.stage.isWrite = false →
      call.name ≠ (system.start request).name := by
    intro id' call hcall hkind hkind'
    rcases hadmits with hwrite | hrows
    · rw [hkind] at hwrite
      cases hwrite
    · refine (hrows ⟨id', call⟩ (AList.mem_lookup_iff.mp hcall)).resolve_left ?_
      rw [hkind']
      exact Bool.false_ne_true
  refine ⟨h.rows, fun id' call hcall => ?_, fun id₁ id₂ call₁ call₂ h₁ h₂ hkind₁ hkind₂ hname => ?_,
    h.modified, h.drawn⟩
  · rcases hcases id' call hcall with ⟨-, rfl⟩ | ⟨-, hbefore⟩
    · cases request <;> trivial
    · exact h.stages id' call hbefore
  · rcases hcases id₁ call₁ h₁ with ⟨rfl, rfl⟩ | ⟨-, hbefore₁⟩
    · rcases hcases id₂ call₂ h₂ with ⟨rfl, rfl⟩ | ⟨-, hbefore₂⟩
      · rfl
      · exact absurd hname.symm (hdisjoint id₂ call₂ hbefore₂ hkind₁ hkind₂)
    · rcases hcases id₂ call₂ h₂ with ⟨rfl, rfl⟩ | ⟨-, hbefore₂⟩
      · exact absurd hname (hdisjoint id₁ call₁ hbefore₁ hkind₂ hkind₁)
      · exact h.owners id₁ id₂ call₁ call₂ hbefore₁ hbefore₂ hkind₁ hkind₂ hname

/-- Every step keeps the invariant. -/
lemma Sound.step {system' : System} {dropsBuckets : Bool} (h : system.Sound) (action : Action)
    (hadmits : system.Admits action) (hstep : system.step dropsBuckets action = some system') :
    system'.Sound := by
  cases action with
  | call id request =>
    unfold System.step at hstep
    dsimp only at hstep
    split at hstep
    · cases hstep
    next hfree =>
      obtain rfl := Option.some.inj hstep
      exact h.call hfree hadmits
  | fail id =>
    obtain rfl := Option.some.inj hstep
    exact h.finish id
  | step id generation =>
    unfold System.step at hstep
    dsimp only at hstep
    split at hstep
    · cases hstep
    next call hcall =>
      obtain ⟨name, stage⟩ := call
      cases stage with
      | createStart fork parent =>
        obtain rfl := Option.some.inj hstep
        exact h.createStart hcall hadmits
      | createCheckpoint prepared again =>
        obtain rfl := Option.some.inj hstep
        exact h.createCheckpoint hcall generation
      | compareCheckpoint prepared again =>
        obtain rfl := Option.some.inj hstep
        exact h.compareCheckpoint hcall generation
      | removeCheckpoint prepared =>
        obtain rfl := Option.some.inj hstep
        exact h.removeCheckpoint hcall generation
      | commitEntry entry readAt =>
        obtain rfl := Option.some.inj hstep
        exact h.commitEntry hcall generation
      | activate prepared =>
        obtain rfl := Option.some.inj hstep
        exact h.activate hcall generation
      | commitActivation next readAt =>
        obtain rfl := Option.some.inj hstep
        exact h.commitActivation hcall generation
      | deleteStart =>
        obtain rfl := Option.some.inj hstep
        exact h.deleteStart hcall dropsBuckets
      | commitDeleting target readAt =>
        obtain rfl := Option.some.inj hstep
        exact h.commitDeleting hcall dropsBuckets
      | removeBuckets target buckets =>
        obtain rfl := Option.some.inj hstep
        exact h.removeBuckets hcall dropsBuckets
      | clearBucket target bucket buckets =>
        obtain rfl := Option.some.inj hstep
        exact h.clearBucket hcall dropsBuckets
      | finishStart target =>
        obtain rfl := Option.some.inj hstep
        exact h.finishStart hcall dropsBuckets
      | commitFinish target readAt =>
        obtain rfl := Option.some.inj hstep
        exact h.commitFinish hcall dropsBuckets
      | openBucket write =>
        obtain rfl := Option.some.inj hstep
        exact h.advanceWrite hcall rfl
      | readEntry write =>
        obtain rfl := Option.some.inj hstep
        exact h.advanceWrite hcall rfl
      | commitWrite write current readAt =>
        obtain rfl := Option.some.inj hstep
        exact h.advanceWrite hcall rfl

end Steps

lemma sound_empty : empty.Sound := by
  have hcalls : ∀ id call, empty.calls.lookup id ≠ some call := by
    intro id call hcall
    rw [show empty.calls = ∅ from rfl, AList.lookup_empty] at hcall
    cases hcall
  exact ⟨fun _ _ _ => rfl, fun id call hcall => absurd hcall (hcalls id call),
    fun id _ call _ hcall => absurd hcall (hcalls id call), fun _ => le_refl _,
    fun _ hwrite => absurd hwrite not_mem_nil⟩

/-- In every run in which calls that create or delete the same branch do not overlap and every
generation that is drawn is a new one: the checkpoint of an active row pins exactly the version that
it forked at, and its data buckets hold exactly the writes that were committed in its generation. -/
theorem active_of_run {dropsBuckets : Bool} {actions : List Action} {system : System}
    (hrun : Runs.run (step dropsBuckets) empty actions = some system)
    (hmeets : Runs.Meets (step dropsBuckets) Admits empty actions) {name : BranchName}
    {entry : RegistryEntry} (hentry : system.database.store.registry.lookup name = some entry)
    (hactive : entry.lifecycle = .active) :
    system.database.store.checkpoints.lookup (forkCheckpoint name) = some entry.fork ∧
    ∀ bucket key, valueAt system.database.store (dataBucket name bucket) key =
      newestWrite system.database.writes name entry.generation bucket key := by
  have hsound : system.Sound :=
    Runs.invariant_of_step (fun _ action _ hinv hguard hstep => hinv.step action hguard hstep)
      sound_empty hrun hmeets
  have hrow := hsound.rows name
  unfold RowSound at hrow
  rw [hentry] at hrow
  have hdeleting : entry.lifecycle ≠ .deleting := by
    rw [hactive]
    nofun
  exact ⟨hrow.checkpoint hdeleting, hrow.values hdeleting⟩

/-- Two calls create the same branch at different versions. The second one replaces the checkpoint
after the first one has committed its row, and then fails; the first one activates its row. -/
def overlappingCreates : List Action :=
  [.call 0 (.createBranch sampleBranch 1), .call 1 (.createBranch sampleBranch 2), .step 0 10,
    .step 1 11, .step 0 0, .step 0 0, .step 1 0, .step 1 0, .step 1 0, .step 1 0, .step 1 0,
    .step 0 0, .step 0 0]

/-- A branch is created, written and deleted, created again and written again; the deletion has been
overtaken by another one and now drops the data bucket of the new branch. -/
def overtakenDelete : List Action :=
  [.call 0 (.createBranch sampleBranch 1), .step 0 10, .step 0 0, .step 0 0, .step 0 0, .step 0 0,
    .call 1 (.write sampleBranch ⟨10, 1, none, [117], [1], .put [5]⟩), .step 1 0, .step 1 0,
    .step 1 0, .call 2 (.deleteBranch sampleBranch), .step 2 0, .step 2 0,
    .call 3 (.deleteBranch sampleBranch), .step 3 0, .step 3 0, .step 3 0, .step 3 0, .step 3 0,
    .call 4 (.createBranch sampleBranch 2), .step 4 12, .step 4 0, .step 4 0, .step 4 0, .step 4 0,
    .call 5 (.write sampleBranch ⟨12, 2, none, [117], [1], .put [6]⟩), .step 5 0, .step 5 0,
    .step 5 0, .step 2 0]

/-- A value of the data bucket beside the newest write, and what row and checkpoint say. -/
structure BranchView where
  row : Option (BranchLifecycle × ℕ × ℕ)
  checkpoint : Option ℕ
  value : Option Key
  newest : Option Key
  deriving DecidableEq

def view (generation : ℕ) (system : System) : BranchView where
  row := (system.database.store.registry.lookup sampleBranch).map fun entry =>
    (entry.lifecycle, entry.fork, entry.generation)
  checkpoint := system.database.store.checkpoints.lookup (forkCheckpoint sampleBranch)
  value := valueAt system.database.store (dataBucket sampleBranch [117]) [1]
  newest := newestWrite system.database.writes sampleBranch generation [117] [1]

/-- Two create calls that overlap leave an active row that forked at version 1 with a checkpoint that
pins version 2; a deletion that is overtaken drops what was written in a newer generation. -/
theorem overlap_breaks :
    (Runs.run (step true) empty overlappingCreates).map (view 10) =
      some ⟨some (.active, 1, 10), some 2, none, none⟩ ∧
    (Runs.run (step true) empty overtakenDelete).map (view 12) =
      some ⟨some (.active, 2, 12), some 2, none, some [0, 6]⟩ := by
  decide +kernel

/-- A branch is created, written, deleted and created again, while writes through an old handle are
still tried. -/
def separateCalls : List Action :=
  [.call 0 (.createBranch sampleBranch 1), .step 0 10, .step 0 1, .step 0 1, .step 0 1, .step 0 1,
    .call 1 (.write sampleBranch ⟨10, 1, none, [117], [1], .put [5]⟩), .step 1 1, .step 1 1,
    .call 2 (.deleteBranch sampleBranch), .step 1 1, .step 2 1,
    .call 3 (.write sampleBranch ⟨10, 1, none, [117], [1], .put [7]⟩), .step 3 1, .step 3 1,
    .step 2 1, .step 3 1, .step 2 1, .step 2 1, .step 2 1, .step 2 1,
    .call 4 (.createBranch sampleBranch 2), .step 4 12, .step 4 1, .step 4 1, .step 4 1, .step 4 1,
    .call 5 (.write sampleBranch ⟨12, 2, none, [117], [1], .put [6]⟩), .step 5 1, .step 5 1,
    .step 5 1]

/-- After the calls of the sample run, which do not overlap, the new branch has its checkpoint and its
write. -/
theorem active_of_separateCalls :
    ∃ system, Runs.run (step true) empty separateCalls = some system ∧
      system.database.store.checkpoints.lookup (forkCheckpoint sampleBranch) = some 2 ∧
      valueAt system.database.store (dataBucket sampleBranch [117]) [1] = some [0, 6] := by
  have hview : (Runs.run (step true) empty separateCalls).map (view 12) =
      some ⟨some (.active, 2, 12), some 2, some [0, 6], some [0, 6]⟩ := by
    decide +kernel
  obtain ⟨system, hrun, hview⟩ := map_eq_some_iff.mp hview
  obtain ⟨hrow, -, -, hnewest⟩ := BranchView.mk.inj hview
  obtain ⟨entry, hentry, hfields⟩ := map_eq_some_iff.mp hrow
  obtain ⟨hactive, hfields⟩ := Prod.mk.inj hfields
  obtain ⟨hfork, hgeneration⟩ := Prod.mk.inj hfields
  have hmeets : Runs.Meets (step true) Admits empty separateCalls := by
    decide +kernel
  obtain ⟨hcheckpoint, hvalues⟩ := active_of_run hrun hmeets hentry hactive
  refine ⟨system, hrun, ?_, ?_⟩
  · rw [hcheckpoint, hfork]
  · rw [hvalues, hgeneration, hnewest]

end TrineKv.Branch.System
