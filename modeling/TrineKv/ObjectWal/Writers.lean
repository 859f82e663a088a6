import TrineKv.Lib.CasCell
import TrineKv.ObjectWal.Worker

/-!
# Writers that compete for the lease

A writer acquires the lease when there is none or the one it has read is expired, and then renews
it, commits groups and releases it. Other writers move between its reads, puts and responses. A put
whose response is lost is left to the store, which executes it at any later time or never. The clock
of a writer is an argument of its steps.
-/

namespace TrineKv.ObjectWal

open Function

open Wal FrameLog CasCell

/-- The tag of a version of the lease object. -/
abbrev ETag := ℕ

/-- How long an acquired or renewed lease is held, in milliseconds. -/
def leaseTtlMs : ℕ := 30000

def objectLeaseDeadlineMs (nowMs : UInt64) : UInt64 :=
  UInt64.ofNat (min (nowMs.toNat + leaseTtlMs) (2 ^ 64 - 1))

structure ObjectWriterLease where
  etag : ETag
  state : ObjectLeaseState

/-- What a writer is publishing. A renewal by the timer may fail, one that a client has asked for
may not. -/
inductive Operation where
  | acquire
  | renew (lease : ObjectWriterLease) (timer : Bool)
  | release (lease : ObjectWriterLease)
  | commit (lease : ObjectWriterLease) (accepts : List ObjectWalAccept) (walKey : ObjectWalKey)

/-- The put of a writer is on its way, was refused, or its response is lost. -/
inductive Await where
  | sent
  | refused
  | lost
  deriving DecidableEq, Repr

inductive Phase where
  | idle
  | holding (lease : ObjectWriterLease)
  | storing (lease : ObjectWriterLease) (accepts : List ObjectWalAccept) (walKey : ObjectWalKey)
      (segment : Segment) (lost : Bool)
  | publishing (operation : Operation) (put : Put ETag ObjectLeaseState) (await : Await)
  | stopped

/-- A command to a writer, or the continuation after a put that has not succeeded. -/
inductive Command where
  | acquire (nowMs : UInt64) (ownerId : List UInt8)
  | renew (nowMs : UInt64) (timer : Bool)
  | release
  | commit (accepts : List ObjectWalAccept)
  | observe (nowMs : UInt64)
  | fail

section Plans

variable (config : Config) (leaseKey : String)

def acceptObserved (lease : ObjectWriterLease) (etag : ETag) (state : ObjectLeaseState) :
    Except Error ObjectWriterLease :=
  match lease.state.observeOwner state with
  | .currentOwner => .ok ⟨etag, state⟩
  | .fenced currentEpoch => .error (.fenced lease.state.epoch currentEpoch)
  | .epochRegression currentEpoch => .error (.corruption
      s!"writer lease {leaseKey} moved backward from epoch {lease.state.epoch} to {currentEpoch}")

/-- Read the lease again. -/
def refreshCurrent (lease : ObjectWriterLease) (current : Option (ETag × ObjectLeaseState)) :
    Except Error ObjectWriterLease :=
  match current with
  | none => .error (.fenced lease.state.epoch 0)
  | some (etag, state) => acceptObserved leaseKey lease etag state

def acquirePut (current : Option (ETag × ObjectLeaseState)) (nowMs : UInt64)
    (ownerId : List UInt8) : Except Error (Put ETag ObjectLeaseState) :=
  let leaseExpiresAtMs := objectLeaseDeadlineMs nowMs
  match current with
  | none => do
    let next ← encodeLeaseState config ⟨1, ownerId, 0, none, leaseExpiresAtMs⟩
    return ⟨next, none⟩
  | some (etag, state) =>
    if !state.isExpiredAt nowMs then
      .error (.leaseUnavailable s!"{leaseKey} is held until {state.leaseExpiresAtMs}")
    else if state.epoch.toNat = maxSequence then
      .error (.corruption "object-store writer epoch overflow")
    else do
      let next ← encodeLeaseState config
        { state with epoch := state.epoch + 1, ownerId, leaseExpiresAtMs }
      return ⟨next, some etag⟩

def commitSegment (state : ObjectLeaseState) (accepts : List ObjectWalAccept)
    (last : ObjectWalAccept) : Except Error (ObjectWalKey × Segment) := do
  let _ ← objectWalGroupFrameBytes state.committedSequence accepts
  let frames ← groupFrames state.committedSequence accepts
  let segment ← encodeObjectWalSegment config state.currentWalKey frames
  return (⟨.commit, state.epoch, last.sequence, config.digest segment⟩, segment)

end Plans

namespace Phase

variable (config : Config) (leaseKey : String)

def renewFailed (lease : ObjectWriterLease) (timer : Bool) : Phase :=
  if timer then .holding lease else .stopped

/-- Read the lease and put it with a later expiry. -/
def renew (lease : ObjectWriterLease) (current : Option (ETag × ObjectLeaseState))
    (nowMs : UInt64) (timer : Bool) : Phase :=
  match refreshCurrent leaseKey lease current with
  | .error _ => renewFailed lease timer
  | .ok lease =>
    match encodeLeaseState config (lease.state.planRenew (objectLeaseDeadlineMs nowMs)) with
    | .error _ => renewFailed lease timer
    | .ok next => .publishing (.renew lease timer) ⟨next, some lease.etag⟩ .sent

/-- Read the lease and put it with an expiry in the past. -/
def release (lease : ObjectWriterLease) (current : Option (ETag × ObjectLeaseState)) : Phase :=
  match refreshCurrent leaseKey lease current with
  | .error _ => .stopped
  | .ok lease =>
    match encodeLeaseState config lease.state.planRelease with
    | .error _ => .stopped
    | .ok next => .publishing (.release lease) ⟨next, some lease.etag⟩ .sent

def commit (lease : ObjectWriterLease) (current : Option (ETag × ObjectLeaseState))
    (accepts : List ObjectWalAccept) : Phase :=
  match refreshCurrent leaseKey lease current with
  | .error _ => .stopped
  | .ok lease =>
    match WalState.checkIncreasing lease.state.committedSequence accepts with
    | .error _ => .stopped
    | .ok () =>
      match accepts.getLast? with
      | none => .holding lease
      | some last =>
        match commitSegment config lease.state accepts last with
        | .error _ => .stopped
        | .ok (walKey, segment) => .storing lease accepts walKey segment false

/-- When the head is there already, the commits are acknowledged at once. -/
def publishCommitHead (lease : ObjectWriterLease) (accepts : List ObjectWalAccept)
    (walKey : ObjectWalKey) (nowMs : UInt64) : Phase × List ObjectWalAccept :=
  match lease.state.planCommitHead walKey.sequence walKey (objectLeaseDeadlineMs nowMs) with
  | .error _ => (.stopped, [])
  | .ok .alreadyApplied => (.holding lease, accepts)
  | .ok (.publish next) =>
    match encodeLeaseState config next with
    | .error _ => (.stopped, [])
    | .ok next => (.publishing (.commit lease accepts walKey) ⟨next, some lease.etag⟩ .sent, [])

def next (objects : Objects) (current : Option (ETag × ObjectLeaseState)) :
    Phase → Command → Option (Phase × List ObjectWalAccept)
  -- A refused acquisition starts again, with another owner id.
  | .idle, .acquire nowMs ownerId | .publishing .acquire _ .refused, .acquire nowMs ownerId =>
    match acquirePut config leaseKey current nowMs ownerId with
    | .error _ => some (.idle, [])
    | .ok put => some (.publishing .acquire put .sent, [])
  | .holding lease, .renew nowMs timer => some (renew config leaseKey lease current nowMs timer, [])
  | .holding lease, .release | .publishing (.release lease) _ .refused, .release =>
    some (release config leaseKey lease current, [])
  | .holding lease, .commit accepts =>
    some (commit config leaseKey lease current (WalState.sortAccepts accepts), [])
  -- The response of the segment's put is lost.
  | .storing lease accepts walKey segment true, .observe nowMs =>
    if objects walKey = some segment then
      some (publishCommitHead config lease accepts walKey nowMs)
    else some (.stopped, [])
  | .publishing .acquire put .lost, .observe _ =>
    match current with
    | none => some (.idle, [])
    | some (etag, state) =>
      if state = put.next then some (.holding ⟨etag, state⟩, []) else some (.idle, [])
  | .publishing (.renew lease timer) _ .refused, .observe _ =>
    match refreshCurrent leaseKey lease current with
    | .error _ => some (renewFailed lease timer, [])
    | .ok lease => some (.holding lease, [])
  | .publishing (.renew lease timer) put .lost, .observe _ =>
    match current with
    | none => some (renewFailed lease timer, [])
    | some (etag, state) =>
      if state = put.next then some (.holding ⟨etag, state⟩, [])
      else some (renewFailed lease timer, [])
  | .publishing (.release _) _ .lost, .observe _ => some (.stopped, [])
  | .publishing (.commit lease accepts walKey) _ .refused, .observe nowMs =>
    match refreshCurrent leaseKey lease current with
    | .error _ => some (.stopped, [])
    | .ok lease => some (publishCommitHead config lease accepts walKey nowMs)
  | .publishing (.commit _ accepts walKey) put .lost, .observe _ =>
    match current with
    | none => some (.stopped, [])
    | some (etag, state) =>
      if state.epoch = put.next.epoch ∧ state.ownerId = put.next.ownerId ∧
          walKey.sequence ≤ state.committedSequence ∧ state.currentWalKey = some walKey then
        some (.holding ⟨etag, state⟩, accepts)
      else some (.stopped, [])
  -- A read fails, or the process ends.
  | .holding _, .fail | .storing _ _ _ _ true, .fail => some (.stopped, [])
  | .publishing .acquire _ .refused, .fail | .publishing .acquire _ .lost, .fail => some (.idle, [])
  | .publishing (.renew lease timer) _ .refused, .fail
  | .publishing (.renew lease timer) _ .lost, .fail => some (renewFailed lease timer, [])
  | .publishing (.release _) _ .refused, .fail | .publishing (.release _) _ .lost, .fail
  | .publishing (.commit _ _ _) _ .refused, .fail | .publishing (.commit _ _ _) _ .lost, .fail =>
    some (.stopped, [])
  | _, _ => none

def stored (put : Put ETag ObjectLeaseState) (etag : ETag) :
    Operation → Phase × List ObjectWalAccept
  | .acquire | .renew _ _ => (.holding ⟨etag, put.next⟩, [])
  | .release _ => (.stopped, [])
  | .commit _ accepts _ => (.holding ⟨etag, put.next⟩, accepts)

end Phase

/-- The store and its writers. Puts whose response was lost may still be executed. -/
structure Writers where
  objects : Objects
  cell : Cell ETag ObjectLeaseState
  phases : ℕ → Phase
  abandoned : List (Put ETag ObjectLeaseState)
  abandonedSegments : List (ObjectWalKey × Segment)
  drawn : List (List UInt8)
  acknowledged : List ObjectWalAccept

namespace Writers

/-- A database before the first writer. -/
def start (objects : Objects) : Writers :=
  ⟨objects, .empty, fun _ => .idle, [], [], [], []⟩

inductive Action where
  | command (writer : ℕ) (command : Command)
  | stored (writer : ℕ) (etag : ETag)
  | refused (writer : ℕ)
  | lost (writer : ℕ)
  | storeSegment (writer : ℕ) (nowMs : UInt64)
  | lostSegment (writer : ℕ)
  | storeAbandoned (index : ℕ) (etag : ETag)
  | storeAbandonedSegment (index : ℕ)

def draw (drawn : List (List UInt8)) : Command → List (List UInt8)
  | .acquire _ ownerId => ownerId :: drawn
  | _ => drawn

def enter (writers : Writers) (writer : ℕ) (next : Phase × List ObjectWalAccept) : Writers :=
  { writers with
    phases := update writers.phases writer next.1
    acknowledged := writers.acknowledged ++ next.2 }

lemma phases_enter_self (writers : Writers) (writer : ℕ) (next : Phase × List ObjectWalAccept) :
    (writers.enter writer next).phases writer = next.1 := update_self _ _ _

lemma phases_enter_of_ne (writers : Writers) {writer other : ℕ} (h : other ≠ writer)
    (next : Phase × List ObjectWalAccept) :
    (writers.enter writer next).phases other = writers.phases other :=
  update_of_ne h _ _

variable (config : Config) (leaseKey : String)

/-- The state after a move. -/
def step (writers : Writers) : Action → Option Writers
  | .command writer command =>
    match (writers.phases writer).next config leaseKey writers.objects writers.cell.current
      command with
    | none => none
    | some next => some ({ writers with drawn := draw writers.drawn command }.enter writer next)
  | .stored writer etag =>
    match writers.phases writer with
    | .publishing operation put .sent =>
      match writers.cell.execute put etag with
      | none => none
      | some cell => some ({ writers with cell }.enter writer (Phase.stored put etag operation))
    | _ => none
  | .refused writer =>
    match writers.phases writer with
    | .publishing operation put .sent =>
      if writers.cell.admits put then none
      else some (writers.enter writer (.publishing operation put .refused, []))
    | _ => none
  | .lost writer =>
    match writers.phases writer with
    | .publishing operation put .sent =>
      some ({ writers with abandoned := put :: writers.abandoned }.enter writer
        (.publishing operation put .lost, []))
    | _ => none
  | .storeSegment writer nowMs =>
    match writers.phases writer with
    | .storing lease accepts walKey segment false =>
      match putImmutableObject config writers.objects walKey segment with
      | .error _ => some (writers.enter writer (.stopped, []))
      | .ok objects => some ({ writers with objects }.enter writer
          (Phase.publishCommitHead config lease accepts walKey nowMs))
    | _ => none
  | .lostSegment writer =>
    match writers.phases writer with
    | .storing lease accepts walKey segment false =>
      some ({ writers with
        abandonedSegments := (walKey, segment) :: writers.abandonedSegments }.enter writer
          (.storing lease accepts walKey segment true, []))
    | _ => none
  | .storeAbandoned index etag =>
    match writers.abandoned[index]? with
    | none => none
    | some put =>
      match writers.cell.execute put etag with
      | none => none
      | some cell => some { writers with cell, abandoned := writers.abandoned.eraseIdx index }
  | .storeAbandonedSegment index =>
    match writers.abandonedSegments[index]? with
    | none => none
    | some (walKey, segment) =>
      if writers.objects walKey = none then
        some { writers with objects := update writers.objects walKey (some segment) }
      else none

end Writers

end TrineKv.ObjectWal
