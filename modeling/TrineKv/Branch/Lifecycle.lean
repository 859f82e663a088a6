import TrineKv.Branch.Delete
import TrineKv.Lib.Runs

/-!
# Concurrent branch operations

Calls create, delete and write branches at the same time. A registry transaction commits only if the
rows that it read are unchanged; checkpoints and buckets, named after the branch, are changed
outside of transactions. Overlapping calls that create or delete one branch can spoil each other's
work, and the invariant is about systems without such overlaps.

## Main results

* `System.Sound.advance`: a call keeps the invariant.
-/

namespace TrineKv.Branch

/-! ## Calls -/

inductive OverlayWrite where
  | put (value : Key)
  | delete
  deriving DecidableEq, Repr

/-- What a write leaves in the data bucket: a tag, and the value if there is one. -/
def OverlayWrite.encode : OverlayWrite → Key
  | .put value => 0 :: value
  | .delete => [1]

/-- A write through a handle, which knows the generation and the lineage of its branch. -/
structure BranchWrite where
  generation : ℕ
  fork : ℕ
  parent : Option BranchName
  bucket : Key
  key : Key
  write : OverlayWrite
  deriving DecidableEq

/-- The row that a create call has found, or is to commit: then `readAt` is when it read the
registry. -/
structure Prepared where
  entry : RegistryEntry
  readAt : Option ℕ
  deriving DecidableEq

inductive Stage where
  | createStart (fork : ℕ) (parent : Option BranchName)
  | createCheckpoint (prepared : Prepared) (again : Bool)
  | compareCheckpoint (prepared : Prepared) (again : Bool)
  | removeCheckpoint (prepared : Prepared)
  | commitEntry (entry : RegistryEntry) (readAt : ℕ)
  | activate (entry : RegistryEntry)
  | commitActivation (next : RegistryEntry) (readAt : ℕ)
  | deleteStart
  | commitDeleting (target : RegistryEntry) (readAt : ℕ)
  | removeBuckets (target : RegistryEntry) (buckets : List Key)
  | clearBucket (target : RegistryEntry) (bucket : Key) (buckets : List Key)
  | finishStart (target : RegistryEntry)
  | commitFinish (target : RegistryEntry) (readAt : ℕ)
  | openBucket (write : BranchWrite)
  | readEntry (write : BranchWrite)
  | commitWrite (write : BranchWrite) (entry : RegistryEntry) (readAt : ℕ)
  deriving DecidableEq

/-- A call writes through a handle; all other calls create or delete. -/
def Stage.isWrite : Stage → Bool
  | .openBucket _ | .readEntry _ | .commitWrite _ _ _ => true
  | _ => false

structure Call where
  name : BranchName
  stage : Stage
  deriving DecidableEq

/-- A call of the interface. -/
inductive Request where
  | createBranch (name : BranchName) (fork : ℕ)
  | createBranchFrom (name parent : BranchName) (latest : ℕ)
  | deleteBranch (name : BranchName)
  | write (name : BranchName) (write : BranchWrite)
  deriving DecidableEq

structure CommittedWrite where
  name : BranchName
  generation : ℕ
  bucket : Key
  key : Key
  value : Key
  deriving DecidableEq

/-- `modified` says when a row was last changed; `generations` and `writes` record what was drawn
and committed, newest first. -/
structure Database where
  store : Store
  clock : ℕ
  modified : BranchName → ℕ
  generations : List ℕ
  writes : List CommittedWrite

def rowCommitted (database : Database) (name : BranchName) (store : Store) : Database :=
  { database with
    store
    clock := database.clock + 1
    modified := Function.update database.modified name (database.clock + 1) }

@[simp]
lemma rowCommitted_modified (database : Database) (name : BranchName) (store : Store) :
    (rowCommitted database name store).modified name = database.clock + 1 :=
  Function.update_self _ _ _

structure System where
  database : Database
  calls : AList fun _ : ℕ => Call

/-- A new call, the next step of a call (with the generation that it draws, if it draws one), or the
end of a call by an error or a crash. -/
inductive Action where
  | call (id : ℕ) (request : Request)
  | step (id : ℕ) (generation : ℕ)
  | fail (id : ℕ)
  deriving DecidableEq

namespace System

/-- Nothing has happened. -/
def empty : System := ⟨⟨⟨∅, ∅, ∅⟩, 0, fun _ => 0, [], []⟩, ∅⟩

def proceed (system : System) (id : ℕ) (name : BranchName) (stage : Stage) : System :=
  { system with calls := system.calls.insert id ⟨name, stage⟩ }

def finish (system : System) (id : ℕ) : System := { system with calls := system.calls.erase id }

/-- A change of the store outside of the registry. -/
def withStore (system : System) (store : Store) : System :=
  { system with database := { system.database with store } }

def commitRow (system : System) (name : BranchName) (store : Store) : System :=
  { system with database := rowCommitted system.database name store }

def recordWrite (system : System) (write : CommittedWrite) : System :=
  { system with database := { system.database with writes := write :: system.database.writes } }

/-- The first step of a call. -/
def start (system : System) : Request → Call
  | .createBranch name fork => ⟨name, .createStart fork none⟩
  | .createBranchFrom name parent latest =>
    ⟨name, .createStart (selectChildFork (system.database.store.registry.lookup name) parent latest)
      (some parent)⟩
  | .deleteBranch name => ⟨name, .deleteStart⟩
  | .write name write => ⟨name, .openBucket write⟩

def parentActive (system : System) : Option BranchName → Bool
  | none => true
  | some parent =>
    (system.database.store.registry.lookup parent).any fun entry => entry.lifecycle = .active

/-- With its checkpoint there, the row is committed, or activated if it was found. -/
def checkpointed (prepared : Prepared) : Stage :=
  match prepared.readAt with
  | none => .activate prepared.entry
  | some readAt => .commitEntry prepared.entry readAt

def advanceCreate (system : System) (id : ℕ) (name : BranchName) (generation : ℕ) :
    Stage → System
  | .createStart fork parent =>
    if system.parentActive parent then
      match resolveExistingCreate (system.database.store.registry.lookup name) fork parent with
      | .error _ => system.finish id
      | .ok (some existing) => system.proceed id name (.createCheckpoint ⟨existing, none⟩ false)
      | .ok none =>
        { (system.proceed id name (.createCheckpoint
            ⟨newEntry fork parent generation, some system.database.clock⟩ false)) with
          database := { system.database with generations := generation ::
            system.database.generations } }
    else system.finish id
  | .createCheckpoint prepared again =>
    match system.database.store.createInternalCheckpointAt
      (forkCheckpoint name) prepared.entry.fork with
    | .ok store => (system.withStore store).proceed id name (checkpointed prepared)
    | .error _ => system.proceed id name (.compareCheckpoint prepared again)
  | .compareCheckpoint prepared again =>
    match system.database.store.checkpoints.lookup (forkCheckpoint name) with
    | none => system.finish id
    | some version =>
      if version = prepared.entry.fork then system.proceed id name (checkpointed prepared)
      else if again then system.finish id
      else system.proceed id name (.removeCheckpoint prepared)
  | .removeCheckpoint prepared =>
    match system.database.store.deleteCheckpointIfPresent (forkCheckpoint name) with
    | .ok store => (system.withStore store).proceed id name (.createCheckpoint prepared true)
    | .error _ => system.finish id
  | .commitEntry entry readAt =>
    if system.database.modified name ≤ readAt ∧
        ∀ parent ∈ entry.parent, system.database.modified parent ≤ readAt then
      (system.commitRow name (system.database.store.putEntry name entry)).proceed id name
        (.activate entry)
    else system.finish id
  | .activate prepared =>
    match system.database.store.registry.lookup name with
    | none => system.finish id
    | some current =>
      match planBranchActivation current prepared with
      | .ok (.apply next) => system.proceed id name (.commitActivation next system.database.clock)
      | _ => system.finish id
  | .commitActivation next readAt =>
    if system.database.modified name ≤ readAt then
      (system.commitRow name (system.database.store.putEntry name next)).finish id
    else system.finish id
  | _ => system

def advanceDelete (dropsBuckets : Bool) (system : System) (id : ℕ) (name : BranchName) :
    Stage → System
  | .deleteStart =>
    match scanBranchDelete system.database.store name with
    | .error _ | .ok none => system.finish id
    | .ok (some target) =>
      match target.lifecycle.beginDelete with
      | .alreadyApplied _ =>
        system.proceed id name (.removeBuckets target (BranchDeletePlan.new name target).dataBuckets)
      | .apply lifecycle =>
        system.proceed id name (.commitDeleting { target with lifecycle } system.database.clock)
  | .commitDeleting target readAt =>
    -- The transaction has read the whole registry.
    if system.database.clock = readAt then
      (system.commitRow name (system.database.store.putEntry name target)).proceed id name
        (.removeBuckets target (BranchDeletePlan.new name target).dataBuckets)
    else system.finish id
  | .removeBuckets target (bucket :: buckets) =>
    match system.database.store.dropInternalBucket dropsBuckets bucket with
    | .ok store => (system.withStore store).proceed id name (.removeBuckets target buckets)
    | .error (.unsupportedBackend _) =>
      (system.withStore (system.database.store.internalBucket bucket)).proceed id name
        (.clearBucket target bucket buckets)
    | .error _ => system.finish id
  | .clearBucket target bucket buckets =>
    (system.withStore (system.database.store.deleteAll bucket)).proceed id name
      (.removeBuckets target buckets)
  | .removeBuckets target [] =>
    match system.database.store.deleteCheckpointIfPresent
      (BranchDeletePlan.new name target).checkpoint with
    | .ok store => (system.withStore store).proceed id name (.finishStart target)
    | .error _ => system.finish id
  | .finishStart target =>
    match system.database.store.registry.lookup name with
    | none => system.finish id
    | some entry =>
      match requireDeleteCompletion entry target.generation with
      | .ok _ => system.proceed id name (.commitFinish target system.database.clock)
      | .error _ => system.finish id
  | .commitFinish _ readAt =>
    if system.database.modified name ≤ readAt then
      (system.commitRow name (system.database.store.eraseEntry name)).finish id
    else system.finish id
  | _ => system

def putValue (store : Store) (bucket key value : Key) (contents : Contents) : Store :=
  { store with buckets := store.buckets.insert bucket (contents.insert key value) }

/-- A step of a call that writes through a handle. -/
def advanceWrite (system : System) (id : ℕ) (name : BranchName) : Stage → System
  | .openBucket write =>
    (system.withStore (system.database.store.internalBucket
      (dataBucket name write.bucket))).proceed id name
      (.readEntry write)
  | .readEntry write =>
    match system.database.store.registry.lookup name with
    | none => system.finish id
    | some current =>
      match current.requireIdentity write.generation write.fork write.parent with
      | .error _ => system.finish id
      | .ok _ => system.proceed id name (.commitWrite write current system.database.clock)
  | .commitWrite write current readAt =>
    match system.database.store.buckets.lookup (dataBucket name write.bucket) with
    | none => system.finish id
    | some contents =>
      if system.database.modified name ≤ readAt then
        ((system.commitRow name
          ((putValue system.database.store (dataBucket name write.bucket) write.key write.write.encode
            contents).putEntry name (current.written write.bucket))).recordWrite
          ⟨name, current.generation, write.bucket, write.key, write.write.encode⟩).finish id
      else system.finish id
  | _ => system

def step (dropsBuckets : Bool) (system : System) : Action → Option System
  | .call id request =>
    match system.calls.lookup id with
    | some _ => none
    | none => some { system with calls := system.calls.insert id (system.start request) }
  | .step id generation =>
    match system.calls.lookup id with
    | none => none
    | some call =>
      match call.stage with
      | .deleteStart | .commitDeleting _ _ | .removeBuckets _ _ | .clearBucket _ _ _
      | .finishStart _ | .commitFinish _ _ =>
        some (advanceDelete dropsBuckets system id call.name call.stage)
      | .openBucket _ | .readEntry _ | .commitWrite _ _ _ =>
        some (system.advanceWrite id call.name call.stage)
      | _ => some (system.advanceCreate id call.name generation call.stage)
  | .fail id => some (system.finish id)

/-- A call that creates or deletes a branch starts only while no other such call of the same branch
runs, and a generation that is drawn is a new one. -/
def Admits (system : System) : Action → Prop
  | .call _ request => (system.start request).stage.isWrite = true ∨
      ∀ row ∈ system.calls.entries, row.2.stage.isWrite = true ∨
        row.2.name ≠ (system.start request).name
  | .step _ generation => generation ∉ system.database.generations
  | .fail _ => True

instance (system : System) : ∀ action, Decidable (system.Admits action)
  | .call _ request => inferInstanceAs (Decidable ((system.start request).stage.isWrite = true ∨
      ∀ row ∈ system.calls.entries, row.2.stage.isWrite = true ∨
        row.2.name ≠ (system.start request).name))
  | .step _ generation => inferInstanceAs (Decidable (generation ∉ system.database.generations))
  | .fail _ => inferInstanceAs (Decidable True)

/-! ## The invariant -/

def valueAt (store : Store) (bucket key : Key) : Option Key :=
  (store.buckets.lookup bucket).bind fun contents => contents.lookup key

def newestWrite (writes : List CommittedWrite) (name : BranchName) (generation : ℕ)
    (bucket key : Key) : Option Key :=
  (writes.find? fun write => write.name = name ∧ write.generation = generation ∧
    write.bucket = bucket ∧ write.key = key).map CommittedWrite.value

def NoData (store : Store) (name : BranchName) (bucket : Key) : Prop :=
  ∀ key, valueAt store (dataBucket name bucket) key = none

/-- What holds of the row of a branch. A data bucket that the row does not name holds nothing; while
the row is not being deleted, its checkpoint pins its fork and its data are its own writes. -/
structure EntrySound (database : Database) (name : BranchName) (entry : RegistryEntry) : Prop where
  drawn : entry.generation ∈ database.generations
  unwritten : ∀ bucket, bucket ∉ entry.writtenBuckets → NoData database.store name bucket
  checkpoint : entry.lifecycle ≠ .deleting →
    database.store.checkpoints.lookup (forkCheckpoint name) = some entry.fork
  values : entry.lifecycle ≠ .deleting → ∀ bucket key,
    valueAt database.store (dataBucket name bucket) key =
      newestWrite database.writes name entry.generation bucket key

def RowSound (database : Database) (name : BranchName) : Prop :=
  match database.store.registry.lookup name with
  | none => ∀ bucket, NoData database.store name bucket
  | some entry => EntrySound database name entry

structure NewRow (database : Database) (name : BranchName) (entry : RegistryEntry) : Prop where
  absent : database.store.registry.lookup name = none
  unwritten : entry.writtenBuckets = []
  drawn : entry.generation ∈ database.generations
  fresh : ∀ write ∈ database.writes, write.name = name → write.generation ≠ entry.generation

/-- The row that a create call goes on with is there and is not being deleted, or it is new. -/
def PreparedSound (database : Database) (name : BranchName) (prepared : Prepared) : Prop :=
  match prepared.readAt with
  | none => ∃ entry, database.store.registry.lookup name = some entry ∧
      entry.lifecycle ≠ .deleting ∧ entry.fork = prepared.entry.fork
  | some _ => NewRow database name prepared.entry

structure Clearing (database : Database) (name : BranchName) (target : RegistryEntry)
    (buckets : List Key) : Prop where
  row : database.store.registry.lookup name = some target
  deleting : target.lifecycle = .deleting
  own : ∀ bucket ∈ buckets, ∃ userBucket, bucket = dataBucket name userBucket
  cleared : ∀ bucket, dataBucket name bucket ∈ buckets ∨ NoData database.store name bucket

/-- What a call may rely on at its next step. -/
def StageSound (database : Database) (name : BranchName) : Stage → Prop
  | .createStart _ _ | .activate _ | .deleteStart | .openBucket _ | .readEntry _ => True
  | .createCheckpoint prepared _ | .compareCheckpoint prepared _ =>
    PreparedSound database name prepared
  | .removeCheckpoint prepared => PreparedSound database name prepared ∧ prepared.readAt ≠ none
  | .commitEntry entry _ => NewRow database name entry ∧
      database.store.checkpoints.lookup (forkCheckpoint name) = some entry.fork
  | .commitActivation next readAt => readAt ≤ database.clock ∧
      (database.modified name ≤ readAt → ∃ current, database.store.registry.lookup name = some current ∧
        current.lifecycle = .creating ∧ next = { current with lifecycle := .active })
  | .commitDeleting target readAt => readAt ≤ database.clock ∧
      (database.clock = readAt → ∃ source, database.store.registry.lookup name = some source ∧
        target = { source with lifecycle := .deleting })
  | .removeBuckets target buckets => Clearing database name target buckets
  | .clearBucket target bucket buckets => Clearing database name target (bucket :: buckets)
  | .finishStart target | .commitFinish target _ => Clearing database name target []
  | .commitWrite _ current readAt => readAt ≤ database.clock ∧ current.lifecycle = .active ∧
      (database.modified name ≤ readAt → database.store.registry.lookup name = some current)

/-- The invariant. -/
structure Sound (system : System) : Prop where
  rows : ∀ name, RowSound system.database name
  stages : ∀ id call, system.calls.lookup id = some call → StageSound system.database call.name
    call.stage
  owners : ∀ id id' call call', system.calls.lookup id = some call →
    system.calls.lookup id' = some call' → call.stage.isWrite = false →
    call'.stage.isWrite = false → call.name = call'.name → id = id'
  modified : ∀ name, system.database.modified name ≤ system.database.clock
  drawn : ∀ write ∈ system.database.writes, write.generation ∈ system.database.generations

structure Same (name : BranchName) (database database' : Database) : Prop where
  registry : database'.store.registry.lookup name = database.store.registry.lookup name
  checkpoint : database'.store.checkpoints.lookup (forkCheckpoint name) =
    database.store.checkpoints.lookup (forkCheckpoint name)
  values : ∀ bucket key, valueAt database'.store (dataBucket name bucket) key =
    valueAt database.store (dataBucket name bucket) key
  modified : database'.modified name = database.modified name
  writes : ∀ write, write.name = name → (write ∈ database'.writes ↔ write ∈ database.writes)
  newest : ∀ generation bucket key, newestWrite database'.writes name generation bucket key =
    newestWrite database.writes name generation bucket key
  clock : database.clock ≤ database'.clock
  generations : ∀ generation ∈ database.generations, generation ∈ database'.generations

structure Leaves (name : BranchName) (database database' : Database) : Prop where
  others : ∀ other, other ≠ name → Same other database database'
  clock : database.clock ≤ database'.clock
  generations : ∀ generation ∈ database.generations, generation ∈ database'.generations

section Frame

variable {database database' : Database} {name : BranchName} {stage : Stage}

lemma Same.rowSound (h : Same name database database') (hrow : RowSound database name) :
    RowSound database' name := by
  unfold RowSound at hrow ⊢
  rw [h.registry]
  have hnone : ∀ bucket, NoData database.store name bucket → NoData database'.store name bucket :=
    fun bucket hdata key => (h.values bucket key).trans (hdata key)
  split at hrow
  · exact fun bucket => hnone bucket (hrow bucket)
  · exact {
      drawn := h.generations _ hrow.drawn
      unwritten := fun bucket hbucket => hnone bucket (hrow.unwritten bucket hbucket)
      checkpoint := fun hdeleting => h.checkpoint.trans (hrow.checkpoint hdeleting)
      values := fun hdeleting bucket key => by
        rw [h.values, h.newest, hrow.values hdeleting] }

lemma Same.newRow (h : Same name database database') {entry : RegistryEntry}
    (hrow : NewRow database name entry) : NewRow database' name entry where
  absent := h.registry.trans hrow.absent
  unwritten := hrow.unwritten
  drawn := h.generations _ hrow.drawn
  fresh write hwrite heq := hrow.fresh write ((h.writes write heq).mp hwrite) heq

/-- A call on such a branch can still rely on what it relied on. -/
lemma Same.stageSound (h : Same name database database') (hstage : StageSound database name stage) :
    StageSound database' name stage := by
  have hprepared : ∀ prepared, PreparedSound database name prepared →
      PreparedSound database' name prepared := by
    intro prepared hprepared
    unfold PreparedSound at hprepared ⊢
    split at hprepared
    · rw [h.registry]
      exact hprepared
    · exact h.newRow hprepared
  have hclearing : ∀ target buckets, Clearing database name target buckets →
      Clearing database' name target buckets := fun target buckets hclearing =>
    ⟨h.registry.trans hclearing.row, hclearing.deleting, hclearing.own,
      fun bucket => (hclearing.cleared bucket).imp_right fun hdata key =>
        (h.values bucket key).trans (hdata key)⟩
  cases stage with
  | createStart | activate | deleteStart | openBucket | readEntry => trivial
  | createCheckpoint prepared again => exact hprepared prepared hstage
  | compareCheckpoint prepared again => exact hprepared prepared hstage
  | removeCheckpoint prepared => exact ⟨hprepared prepared hstage.1, hstage.2⟩
  | commitEntry entry readAt =>
    exact ⟨h.newRow hstage.1, h.checkpoint.trans hstage.2⟩
  | commitActivation next readAt =>
    refine ⟨hstage.1.trans h.clock, ?_⟩
    rw [h.modified, h.registry]
    exact hstage.2
  | commitDeleting target readAt =>
    refine ⟨hstage.1.trans h.clock, fun hclock => ?_⟩
    rw [h.registry]
    exact hstage.2 (le_antisymm (h.clock.trans hclock.le) hstage.1)
  | removeBuckets target buckets => exact hclearing target buckets hstage
  | clearBucket target bucket buckets => exact hclearing target (bucket :: buckets) hstage
  | finishStart target => exact hclearing target [] hstage
  | commitFinish target readAt => exact hclearing target [] hstage
  | commitWrite write current readAt =>
    refine ⟨hstage.1.trans h.clock, hstage.2.1, ?_⟩
    rw [h.modified, h.registry]
    exact hstage.2.2

end Frame

section Advance

variable {system system' : System} {database' : Database} {name : BranchName} {id : ℕ}
  {stage : Stage}

inductive Moves (system : System) (id : ℕ) (name : BranchName) (stage : Stage)
    (system' : System) : Prop where
  | returned (hcalls : system'.calls = system.calls.erase id)
  | goesOn (stage' : Stage) (hkind : stage'.isWrite = stage.isWrite)
      (hcalls : system'.calls = system.calls.insert id ⟨name, stage'⟩)
      (hstage : StageSound system'.database name stage')

/-- Another call of the system after a step was there before it. -/
lemma Moves.cases (h : Moves system id name stage system') {id' : ℕ} {call : Call}
    (hcall : system'.calls.lookup id' = some call) :
    (id' ≠ id ∧ system.calls.lookup id' = some call) ∨
      (id' = id ∧ call.name = name ∧ call.stage.isWrite = stage.isWrite ∧
        StageSound system'.database name call.stage) := by
  by_cases heq : id' = id
  · subst heq
    cases h with
    | returned hcalls =>
      rw [hcalls, AList.lookup_erase] at hcall
      cases hcall
    | goesOn stage' hkind hcalls hstage =>
      rw [hcalls, AList.lookup_insert] at hcall
      obtain rfl := Option.some.inj hcall
      exact .inr ⟨rfl, rfl, hkind, hstage⟩
  · refine .inl ⟨heq, ?_⟩
    cases h with
    | returned hcalls =>
      rw [hcalls, AList.lookup_erase_ne heq] at hcall
      exact hcall
    | goesOn stage' hkind hcalls hstage =>
      rw [hcalls, AList.lookup_insert_ne heq] at hcall
      exact hcall

/-- A step of a call keeps the invariant if it leaves the other branches as they are, the row of its
own branch stays sound, and the other calls of this branch can rely on what they relied on. These are
writes, or the step is one of a write.

**Proof sketch.** Two calls that create or delete the same branch are one call. -/
lemma Sound.advance (h : system.Sound) (hcall : system.calls.lookup id = some ⟨name, stage⟩)
    (hleaves : Leaves name system.database system'.database)
    (hmoves : Moves system id name stage system') (hrow : RowSound system'.database name)
    (hsame : ∀ stage' : Stage, stage'.isWrite = true ∨ stage.isWrite = true →
      StageSound system.database name stage' → StageSound system'.database name stage')
    (hmodified : system'.database.modified name ≤ system'.database.clock)
    (hdrawn : ∀ write ∈ system'.database.writes,
      write.generation ∈ system'.database.generations) : system'.Sound where
  rows other := by
    by_cases heq : other = name
    · rw [heq]
      exact hrow
    · exact (hleaves.others other heq).rowSound (h.rows other)
  stages id' call' hcall' := by
    rcases hmoves.cases hcall' with ⟨hne, hbefore⟩ | ⟨-, hname, -, hstage⟩
    · have hstage := h.stages id' call' hbefore
      by_cases heq : call'.name = name
      · rw [heq] at hstage ⊢
        refine hsame call'.stage ?_ hstage
        by_contra hkinds
        rw [not_or, Bool.not_eq_true, Bool.not_eq_true] at hkinds
        exact hne (h.owners id' id call' ⟨name, stage⟩ hbefore hcall hkinds.1 hkinds.2 heq)
      · exact (hleaves.others _ heq).stageSound hstage
    · rw [hname]
      exact hstage
  owners id₁ id₂ call₁ call₂ hcall₁ hcall₂ hkind₁ hkind₂ hname := by
    rcases hmoves.cases hcall₁ with ⟨-, hbefore₁⟩ | ⟨rfl, hname₁, hsame₁, -⟩
    · rcases hmoves.cases hcall₂ with ⟨-, hbefore₂⟩ | ⟨rfl, hname₂, hsame₂, -⟩
      · exact h.owners id₁ id₂ call₁ call₂ hbefore₁ hbefore₂ hkind₁ hkind₂ hname
      · exact h.owners id₁ id₂ call₁ ⟨name, stage⟩ hbefore₁ hcall hkind₁ (hsame₂ ▸ hkind₂)
          (hname.trans hname₂)
    · rcases hmoves.cases hcall₂ with ⟨-, hbefore₂⟩ | ⟨rfl, -⟩
      · exact h.owners id₁ id₂ ⟨name, stage⟩ call₂ hcall hbefore₂ (hsame₁ ▸ hkind₁) hkind₂
          (hname₁.symm.trans hname)
      · rfl
  modified other := by
    by_cases heq : other = name
    · rw [heq]
      exact hmodified
    · rw [(hleaves.others other heq).modified]
      exact (h.modified other).trans hleaves.clock
  drawn := hdrawn

lemma Same.refl (name : BranchName) (database : Database) : Same name database database :=
  ⟨rfl, rfl, fun _ _ => rfl, rfl, fun _ _ => Iff.rfl, fun _ _ _ => rfl, le_refl _, fun _ h => h⟩

lemma Leaves.refl (name : BranchName) (database : Database) : Leaves name database database :=
  ⟨fun other _ => Same.refl other database, le_refl _, fun _ h => h⟩

lemma Sound.proceed (h : system.Sound) (hcall : system.calls.lookup id = some ⟨name, stage⟩)
    {stage' : Stage} (hkind : stage'.isWrite = stage.isWrite)
    (hstage : StageSound system.database name stage') : (system.proceed id name stage').Sound :=
  h.advance hcall (Leaves.refl name system.database) (.goesOn stage' hkind rfl hstage) (h.rows name)
    (fun _ _ hstage => hstage) (h.modified name) h.drawn

lemma Sound.finish (h : system.Sound) (id : ℕ) : (system.finish id).Sound := by
  have hbefore : ∀ id' call, (system.calls.erase id).lookup id' = some call →
      system.calls.lookup id' = some call := by
    intro id' call hcall
    by_cases heq : id' = id
    · rw [heq, AList.lookup_erase] at hcall
      cases hcall
    · rwa [AList.lookup_erase_ne heq] at hcall
  exact ⟨h.rows, fun id' call hcall => h.stages id' call (hbefore id' call hcall),
    fun id₁ id₂ call₁ call₂ h₁ h₂ => h.owners id₁ id₂ call₁ call₂ (hbefore _ _ h₁) (hbefore _ _ h₂),
    h.modified, h.drawn⟩

/-- The row of a branch is as it was, or its change is newer than all that calls have read. -/
def Unread (name : BranchName) (database database' : Database) : Prop :=
  (database'.store.registry.lookup name = database.store.registry.lookup name ∧
    database'.modified name = database.modified name) ∨ database.clock < database'.modified name

lemma Unread.stageSound {database : Database} (h : Unread name database database')
    (hwrite : stage.isWrite = true) (hclock : database.clock ≤ database'.clock)
    (hstage : StageSound database name stage) : StageSound database' name stage := by
  cases stage with
  | openBucket | readEntry => trivial
  | commitWrite write current readAt =>
    refine ⟨hstage.1.trans hclock, hstage.2.1, fun hmodified => ?_⟩
    rcases h with ⟨hregistry, hsame⟩ | hnewer
    · rw [hregistry]
      exact hstage.2.2 (hsame ▸ hmodified)
    · exact absurd (hmodified.trans hstage.1) (Nat.not_le.mpr hnewer)
  | _ => cases hwrite

lemma Sound.advance_owner (h : system.Sound)
    (hcall : system.calls.lookup id = some ⟨name, stage⟩) (howner : stage.isWrite = false)
    (hleaves : Leaves name system.database system'.database)
    (hmoves : Moves system id name stage system') (hrow : RowSound system'.database name)
    (hunread : Unread name system.database system'.database)
    (hmodified : system'.database.modified name ≤ system'.database.clock)
    (hwrites : system'.database.writes = system.database.writes) : system'.Sound := by
  refine h.advance hcall hleaves hmoves hrow (fun stage' hkind hstage => ?_) hmodified
    fun write hwrite => ?_
  · refine hunread.stageSound (hkind.resolve_right ?_) hleaves.clock hstage
    rw [howner]
    exact Bool.false_ne_true
  · rw [hwrites] at hwrite
    exact hleaves.generations _ (h.drawn write hwrite)

end Advance

end System

end TrineKv.Branch
