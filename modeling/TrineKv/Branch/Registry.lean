import Mathlib.Data.List.AList
import Mathlib.Data.List.Sort
import TrineKv.Keys.Record
import TrineKv.Lib.ByteCodec

/-!
# The branch registry

A durable branch is a row of the registry, a checkpoint that pins the version it forked at, and a
data bucket for each user bucket that it has written, both named after the branch.

## Main results

* `dataBucket_inj`, `forkCheckpoint_inj`: names do not collide.
-/

namespace TrineKv.Branch

open List

inductive BranchError where
  | other (error : Error)
  | unsupportedBackend (feature : String)
  | checkpointAlreadyExists (name : Key)
  | checkpointNotFound (name : Key)
  | readOnly
  deriving DecidableEq, Repr

/-! ## Names -/

def maxBranchNameBytes : ℕ := 1024

structure BranchName where
  bytes : Key
  nonempty : bytes ≠ []
  short : bytes.length ≤ maxBranchNameBytes
  deriving DecidableEq

def text (characters : List Char) : Key := characters.map fun character => character.toNat.toUInt8

/-- The byte between the parts of a name. -/
def separator : UInt8 := 1

/-- How the names of the registry and of the checkpoints start. -/
def reserved : Key :=
  separator :: text ['t', 'r', 'i', 'n', 'e', '-', 'b', 'r', 'a', 'n', 'c', 'h'] ++ [separator]

/-- How the names of data buckets start. -/
def encodedDataReserved : Key :=
  separator :: text ['t', 'r', 'i', 'n', 'e', '-', 'b', 'r', 'a', 'n', 'c', 'h', '-',
    'd', 'a', 't', 'a', '-', 'v', '1'] ++ [separator]

/-- The hexadecimal digit of a number below sixteen. -/
def hexDigit (digit : UInt8) : UInt8 := if digit < 10 then 48 + digit else 87 + digit

/-- A part of a name, in hexadecimal. -/
def encodeNameComponent (value : Key) : Key :=
  value.flatMap fun byte : UInt8 => [hexDigit (byte >>> 4), hexDigit (byte &&& 15)]

def dataBucket (branch : BranchName) (userBucket : Key) : Key :=
  encodedDataReserved ++ (encodeNameComponent branch.bytes ++
    separator :: encodeNameComponent userBucket)

def forkCheckpoint (branch : BranchName) : Key :=
  reserved ++ (text ['f', 'o', 'r', 'k', '-', 'v', '1'] ++
    separator :: encodeNameComponent branch.bytes)

/-- The number below sixteen of a hexadecimal digit. -/
def hexValue (digit : UInt8) : UInt8 := if digit < 58 then digit - 48 else digit - 87

lemma hexDigits_spec (byte : UInt8) :
    hexValue (hexDigit (byte >>> 4)) * 16 + hexValue (hexDigit (byte &&& 15)) = byte ∧
      hexDigit (byte >>> 4) ≠ separator ∧ hexDigit (byte &&& 15) ≠ separator := by
  have hall : ∀ value : Fin 256,
      hexValue (hexDigit (UInt8.ofFin value >>> 4)) * 16 +
          hexValue (hexDigit (UInt8.ofFin value &&& 15)) = UInt8.ofFin value ∧
        hexDigit (UInt8.ofFin value >>> 4) ≠ separator ∧
        hexDigit (UInt8.ofFin value &&& 15) ≠ separator := by
    decide +kernel
  exact hall byte.toFin

@[simp]
lemma encodeNameComponent_nil : encodeNameComponent [] = [] := rfl

@[simp]
lemma encodeNameComponent_cons (byte : UInt8) (value : Key) :
    encodeNameComponent (byte :: value) =
      hexDigit (byte >>> 4) :: hexDigit (byte &&& 15) :: encodeNameComponent value := rfl

lemma separator_notMem_encodeNameComponent (value : Key) :
    separator ∉ encodeNameComponent value := by
  induction value with
  | nil => simp
  | cons byte value ih =>
    obtain ⟨-, hhigh, hlow⟩ := hexDigits_spec byte
    simp [ih, hhigh.symm, hlow.symm]

lemma encodeNameComponent_injective : Function.Injective encodeNameComponent := by
  intro left right h
  induction left generalizing right with
  | nil =>
    cases right with
    | nil => rfl
    | cons byte right => simp at h
  | cons byte left ih =>
    cases right with
    | nil => simp at h
    | cons other right =>
      simp only [encodeNameComponent_cons, List.cons.injEq] at h
      obtain ⟨hhigh, hlow, hrest⟩ := h
      have hbyte : byte = other := by
        rw [← (hexDigits_spec byte).1, ← (hexDigits_spec other).1, hhigh, hlow]
      rw [hbyte, ih hrest]

lemma append_separator_inj {left left' right right' : Key} (hleft : separator ∉ left)
    (hleft' : separator ∉ left') (h : left ++ separator :: right = left' ++ separator :: right') :
    left = left' ∧ right = right' := by
  induction left generalizing left' with
  | nil =>
    cases left' with
    | nil => exact ⟨rfl, (List.cons.inj h).2⟩
    | cons byte left' => exact absurd (List.cons.inj h).1 fun heq => hleft' (heq ▸ mem_cons_self)
  | cons byte left ih =>
    cases left' with
    | nil => exact absurd (List.cons.inj h).1 fun heq => hleft (heq ▸ mem_cons_self)
    | cons other left' =>
      obtain ⟨hbyte, hrest⟩ := List.cons.inj h
      obtain ⟨htail, hright⟩ := ih (fun hmem => hleft (mem_cons_of_mem _ hmem))
        (fun hmem => hleft' (mem_cons_of_mem _ hmem)) hrest
      exact ⟨by rw [hbyte, htail], hright⟩

lemma BranchName.ext {left right : BranchName} (h : left.bytes = right.bytes) : left = right := by
  cases left
  cases right
  congr

lemma dataBucket_inj {branch branch' : BranchName} {bucket bucket' : Key} :
    dataBucket branch bucket = dataBucket branch' bucket' ↔ branch = branch' ∧ bucket = bucket' := by
  constructor
  · intro h
    obtain ⟨hbranch, hbucket⟩ := append_separator_inj
      (separator_notMem_encodeNameComponent branch.bytes)
      (separator_notMem_encodeNameComponent branch'.bytes) (append_cancel_left h)
    exact ⟨BranchName.ext (encodeNameComponent_injective hbranch),
      encodeNameComponent_injective hbucket⟩
  · rintro ⟨rfl, rfl⟩
    rfl

lemma forkCheckpoint_inj {branch branch' : BranchName} :
    forkCheckpoint branch = forkCheckpoint branch' ↔ branch = branch' := by
  constructor
  · intro h
    have hencoded := (List.cons.inj (append_cancel_left (append_cancel_left h))).2
    exact BranchName.ext (encodeNameComponent_injective hencoded)
  · rintro rfl
    rfl

/-! ## Rows of the registry -/

inductive BranchLifecycle where
  | creating
  | active
  | deleting
  deriving DecidableEq, Repr

inductive DurableTransition (α : Type) where
  | apply (next : α)
  | alreadyApplied (current : α)
  deriving DecidableEq, Repr

namespace BranchLifecycle

def requireActive : BranchLifecycle → Except BranchError Unit
  | .active => .ok ()
  | .creating => .error (.other (.runtimeBusy "branch creation is in progress"))
  | .deleting => .error (.other (.invalidOptions "branch deletion is in progress"))

/-- Deleting starts unless it has started before. -/
def beginDelete : BranchLifecycle → DurableTransition BranchLifecycle
  | .creating | .active => .apply .deleting
  | .deleting => .alreadyApplied .deleting

end BranchLifecycle

/-- A row of the registry. The generation is random; a number stands for its bytes. -/
structure RegistryEntry where
  fork : ℕ
  parent : Option BranchName
  writtenBuckets : List Key
  lifecycle : BranchLifecycle
  generation : ℕ
  nodup : writtenBuckets.Nodup
  deriving DecidableEq

def insertBucket (bucket : Key) (buckets : List Key) : List Key :=
  if bucket ∈ buckets then buckets else buckets.orderedInsert (· ≤ ·) bucket

lemma nodup_insertBucket (bucket : Key) {buckets : List Key} (h : buckets.Nodup) :
    (insertBucket bucket buckets).Nodup := by
  unfold insertBucket
  split
  · exact h
  next hnot => exact (perm_orderedInsert _ bucket buckets).nodup_iff.mpr (h.cons hnot)

lemma mem_insertBucket {bucket other : Key} {buckets : List Key} :
    other ∈ insertBucket bucket buckets ↔ other = bucket ∨ other ∈ buckets := by
  unfold insertBucket
  split
  · constructor
    · exact .inr
    · rintro (rfl | h)
      · assumption
      · exact h
  · rw [mem_orderedInsert]

namespace RegistryEntry

/-- The row after a write to a user bucket. -/
def written (entry : RegistryEntry) (bucket : Key) : RegistryEntry :=
  { entry with
    writtenBuckets := insertBucket bucket entry.writtenBuckets
    nodup := nodup_insertBucket bucket entry.nodup }

/-- A writer of a branch goes on only with its own generation and lineage. -/
def requireIdentity (entry : RegistryEntry) (generation fork : ℕ) (parent : Option BranchName) :
    Except BranchError Unit := do
  entry.lifecycle.requireActive
  if entry.generation = generation ∧ entry.fork = fork ∧ entry.parent = parent then return ()
  else .error (.other (.invalidOptions "branch handle belongs to a replaced branch generation"))

end RegistryEntry

/-- What a create request finds: nothing, or a row with its own lineage that is not deleted. -/
def resolveExistingCreate (existing : Option RegistryEntry) (fork : ℕ)
    (parent : Option BranchName) : Except BranchError (Option RegistryEntry) :=
  match existing with
  | none => .ok none
  | some existing =>
    if existing.fork ≠ fork ∨ existing.parent ≠ parent then
      .error (.other (.invalidOptions "branch already exists with different lineage"))
    else
      match existing.lifecycle with
      | .creating | .active => .ok (some existing)
      | .deleting => .error (.other (.invalidOptions "branch deletion is in progress"))

def newEntry (fork : ℕ) (parent : Option BranchName) (generation : ℕ) : RegistryEntry :=
  ⟨fork, parent, [], .creating, generation, nodup_nil⟩

def selectChildFork (existing : Option RegistryEntry) (parent : BranchName) (latest : ℕ) : ℕ :=
  match existing with
  | some entry =>
    if entry.parent = some parent ∧ entry.lifecycle ≠ .deleting then entry.fork else latest
  | none => latest

def planBranchActivation (current prepared : RegistryEntry) :
    Except BranchError (DurableTransition RegistryEntry) :=
  if current.generation ≠ prepared.generation ∨ current.fork ≠ prepared.fork ∨
      current.parent ≠ prepared.parent then
    .error (.other (.corruption "prepared branch registry entry changed identity"))
  else
    match current.lifecycle with
    | .active => .ok (.alreadyApplied current)
    | .creating => .ok (.apply { current with lifecycle := .active })
    | .deleting =>
      .error (.other (.invalidOptions "branch deletion started before creation completed"))

/-- A branch is not deleted while another one reads through it. -/
def rejectActiveChild (parent : BranchName) (entry : RegistryEntry) : Except BranchError Unit :=
  if entry.lifecycle ≠ .deleting ∧ entry.parent = some parent then
    .error (.other (.invalidOptions "cannot delete a branch that still has child branches"))
  else .ok ()

/-- The row that a deletion ends with is the one that it began with. -/
def requireDeleteCompletion (entry : RegistryEntry) (generation : ℕ) : Except BranchError Unit :=
  if entry.lifecycle ≠ .deleting ∨ entry.generation ≠ generation then
    .error (.other (.corruption "branch delete completion observed a different durable generation"))
  else .ok ()

/-- What a deletion removes. -/
structure BranchDeletePlan where
  dataBuckets : List Key
  checkpoint : Key
  generation : ℕ
  deriving DecidableEq

def BranchDeletePlan.new (name : BranchName) (entry : RegistryEntry) : BranchDeletePlan where
  dataBuckets := entry.writtenBuckets.map (dataBucket name)
  checkpoint := forkCheckpoint name
  generation := entry.generation

/-! ## The store -/

/-- The newest values of a bucket. -/
abbrev Contents := AList fun _ : Key => Key

structure Store where
  registry : AList fun _ : BranchName => RegistryEntry
  buckets : AList fun _ : Key => Contents
  checkpoints : AList fun _ : Key => ℕ

namespace Store

/-- Write a row of the registry. -/
def putEntry (store : Store) (name : BranchName) (entry : RegistryEntry) : Store :=
  { store with registry := store.registry.insert name entry }

/-- Delete a row of the registry. -/
def eraseEntry (store : Store) (name : BranchName) : Store :=
  { store with registry := store.registry.erase name }

/-- Open a bucket, which is created if it does not exist. -/
def internalBucket (store : Store) (bucket : Key) : Store :=
  if (store.buckets.lookup bucket).isSome then store
  else { store with buckets := store.buckets.insert bucket ∅ }

def dropInternalBucket (dropsBuckets : Bool) (store : Store)
    (bucket : Key) : Except BranchError Store :=
  if dropsBuckets then
    match store.buckets.lookup bucket with
    | none => .error (.other (.invalidOptions "cannot drop a bucket that does not exist"))
    | some _ => .ok { store with buckets := store.buckets.erase bucket }
  else .error (.unsupportedBackend "dropping a bucket is not supported on this backend")

def deleteAll (store : Store) (bucket : Key) : Store :=
  { store with buckets := store.buckets.insert bucket ∅ }

def createInternalCheckpointAt (store : Store) (checkpoint : Key) (version : ℕ) :
    Except BranchError Store :=
  match store.checkpoints.lookup checkpoint with
  | some _ => .error (.checkpointAlreadyExists checkpoint)
  | none => .ok { store with checkpoints := store.checkpoints.insert checkpoint version }

def deleteInternalCheckpoint (store : Store) (checkpoint : Key) : Except BranchError Store :=
  match store.checkpoints.lookup checkpoint with
  | none => .error (.checkpointNotFound checkpoint)
  | some _ => .ok { store with checkpoints := store.checkpoints.erase checkpoint }

def deleteCheckpointIfPresent (store : Store) (checkpoint : Key) : Except BranchError Store :=
  match store.deleteInternalCheckpoint checkpoint with
  | .error (.checkpointNotFound _) => .ok store
  | result => result

lemma deleteCheckpointIfPresent_eq (store : Store) (checkpoint : Key) :
    ∃ checkpoints, store.deleteCheckpointIfPresent checkpoint = .ok { store with checkpoints } ∧
      checkpoints.lookup checkpoint = none ∧
      ∀ other, other ≠ checkpoint → checkpoints.lookup other = store.checkpoints.lookup other := by
  unfold deleteCheckpointIfPresent deleteInternalCheckpoint
  cases hlookup : store.checkpoints.lookup checkpoint with
  | none => exact ⟨store.checkpoints, rfl, hlookup, fun _ _ => rfl⟩
  | some version =>
    exact ⟨store.checkpoints.erase checkpoint, rfl, AList.lookup_erase _ _,
      fun other hne => AList.lookup_erase_ne hne⟩

end Store

end TrineKv.Branch
