import TrineKv.Lib.Runs
import TrineKv.ObjectWal.Log

/-!
# The object write-ahead log worker

The worker serves group commits, which append a segment and publish it as the head, and rewrites,
which replace the chain by one segment above a replay floor. Here one worker owns the lease
throughout, so its conditional puts succeed.

## Main results

* `WalState.completeObjectWalAccepts_eq_ok`.
-/

namespace TrineKv.ObjectWal

open ByteCodec

open Wal FrameLog

variable {accepts : List ObjectWalAccept}

structure WalState where
  objects : Objects
  lease : ObjectLeaseState
  replayFloor : UInt64

namespace WalState

variable (config : Config)

/-! ## Group commits -/

def checkIncreasing : UInt64 → List ObjectWalAccept → Except Error Unit
  | _, [] => .ok ()
  | previous, accept :: accepts =>
    if accept.sequence ≤ previous then
      .error (.corruption ("object WAL group commit received non-increasing sequence after" ++
        s!" {previous}: got {accept.sequence}"))
    else checkIncreasing accept.sequence accepts

def publishCommitBatch (state : WalState) (accepts : List ObjectWalAccept) (expiry : UInt64) :
    Except Error WalState :=
  match accepts.getLast? with
  | none => .ok state
  | some last => do
    let _ ← objectWalGroupFrameBytes state.lease.committedSequence accepts
    let frames ← groupFrames state.lease.committedSequence accepts
    let segment ← encodeObjectWalSegment config state.lease.currentWalKey frames
    let walKey : ObjectWalKey :=
      ⟨.commit, state.lease.epoch, last.sequence, config.digest segment⟩
    let objects ← putImmutableObject config state.objects walKey segment
    match ← state.lease.planCommitHead last.sequence walKey expiry with
    | .publish next =>
      let lease ← encodeLeaseState config next
      return { state with objects, lease }
    | .alreadyApplied => return { state with objects }

def sortAccepts (accepts : List ObjectWalAccept) : List ObjectWalAccept :=
  accepts.insertionSort fun left right => sequenceLe left.batch right.batch

/-- Commit a group; its commits are acknowledged when this succeeds. -/
def completeObjectWalAccepts (state : WalState) (accepts : List ObjectWalAccept)
    (expiry : UInt64) : Except Error WalState := do
  let accepts := sortAccepts accepts
  checkIncreasing state.lease.committedSequence accepts
  publishCommitBatch config state accepts expiry

/-! ## Rewrites -/

/-- Remove the segments under the given keys. -/
def deleteKeys (objects : Objects) (keys : List ObjectWalKey) : Objects := fun key =>
  if key ∈ keys then none else objects key

def deleteAtOrBelow (objects : Objects) (replayFloor : UInt64) : Objects := fun key =>
  if key.sequence ≤ replayFloor then none else objects key

/-- The segment that replaces a chain with the given commits, if there are any. -/
def putRewritten (state : WalState) (batches : List WalBatch) (replayFloor : UInt64) :
    Except Error (Objects × Option ObjectWalKey) :=
  match batches.getLast? with
  | none => .ok (state.objects, none)
  | some last => do
    let rewritten ← encodeBatchesAfter batches replayFloor
    let segment ← encodeObjectWalSegment config none rewritten
    let nextKey : ObjectWalKey :=
      ⟨.rewrite, state.lease.epoch, last.sequence, config.digest segment⟩
    let objects ← putImmutableObject config state.objects nextKey segment
    return (objects, some nextKey)

def rewriteSegmentAfterReplayFloor (state : WalState) (replayFloor expiry : UInt64) :
    Except Error (WalState × List ObjectWalKey) :=
  if state.lease.currentWalKey.isNone then .ok (state, [])
  else do
    let (batches, keys) ← readObjectWalChain config state.objects state.lease.committedSequence
      state.lease.currentWalKey replayFloor
    let (objects, currentWalKey) ← state.putRewritten config batches replayFloor
    let lease ← encodeLeaseState config (state.lease.planRewriteHead currentWalKey expiry)
    return ({ state with objects, lease }, keys)

/-- Rewrite the log and delete what is no longer needed. The flush that asks for the rewrite has
published the floor in the manifest. -/
def rewriteObjectWal (state : WalState) (replayFloor expiry : UInt64) : Except Error WalState := do
  let (state, deleted) ← state.rewriteSegmentAfterReplayFloor config replayFloor expiry
  return { state with
    objects := deleteAtOrBelow (deleteKeys state.objects deleted) replayFloor
    replayFloor }

/-! ## Runs and reads -/

/-- A command that the worker serves. The expiry is what the clock says at the time. -/
inductive Action where
  | commit (accepts : List ObjectWalAccept) (expiry : UInt64)
  | rewrite (replayFloor expiry : UInt64)

/-- Serve a command; a command that fails ends the worker. -/
def step (state : WalState) : Action → Option WalState
  | .commit accepts expiry => (state.completeObjectWalAccepts config accepts expiry).toOption
  | .rewrite replayFloor expiry => (state.rewriteObjectWal config replayFloor expiry).toOption

def batchesAfter (state : WalState) (replayFloor : UInt64) : Except Error (List WalBatch) :=
  (readObjectWalChain config state.objects state.lease.committedSequence
    state.lease.currentWalKey replayFloor).map Prod.fst

/-! ## What a group commit does -/

variable {config}

lemma checkIncreasing_eq_ok {previous : UInt64} :
    checkIncreasing previous accepts = .ok () ↔
      (∀ accept ∈ accepts, previous < accept.sequence) ∧
        accepts.Pairwise fun left right => left.sequence < right.sequence := by
  induction accepts generalizing previous with
  | nil => simp [checkIncreasing]
  | cons accept accepts ih =>
    rw [checkIncreasing, List.pairwise_cons]
    split_ifs with hle
    · simp only [List.mem_cons, forall_eq_or_imp, false_iff, not_and]
      intro hlt
      exact absurd hlt.1 (UInt64.not_lt.mpr hle)
    · rw [UInt64.not_le] at hle
      rw [ih]
      constructor
      · rintro ⟨habove, hpairwise⟩
        refine ⟨?_, habove, hpairwise⟩
        rintro other (_ | ⟨_, hmem⟩)
        · exact hle
        · exact UInt64.lt_trans hle (habove other hmem)
      · rintro ⟨-, habove, hpairwise⟩
        exact ⟨habove, hpairwise⟩

lemma completeObjectWalAccepts_eq_ok {state state' : WalState}
    {last : ObjectWalAccept} {expiry : UInt64} (hlast : (sortAccepts accepts).getLast? = some last)
    (h : state.completeObjectWalAccepts config accepts expiry = .ok state') :
    (sortAccepts accepts).Pairwise (fun left right => left.sequence < right.sequence) ∧
      ∃ total frames key,
        objectWalGroupFrameBytes state.lease.committedSequence (sortAccepts accepts) = .ok total ∧
        groupFrames state.lease.committedSequence (sortAccepts accepts) = .ok frames ∧
        key = ⟨.commit, state.lease.epoch, last.sequence,
          config.digest ⟨state.lease.currentWalKey, frames⟩⟩ ∧
        segmentLen config ⟨state.lease.currentWalKey, frames⟩ ≤ maxSegmentBytes ∧
        (state.objects key = none ∨
          state.objects key = some ⟨state.lease.currentWalKey, frames⟩) ∧
        state' = { state with
          objects := Function.update state.objects key (some ⟨state.lease.currentWalKey, frames⟩)
          lease := { state.lease with
            committedSequence := last.sequence
            currentWalKey := some key
            leaseExpiresAtMs := expiry } } := by
  obtain ⟨_, hcheck, h⟩ := bind_eq_ok.mp h
  obtain ⟨habove, hpairwise⟩ := checkIncreasing_eq_ok.mp hcheck
  refine ⟨hpairwise, ?_⟩
  unfold publishCommitBatch at h
  rw [hlast] at h
  obtain ⟨total, htotal, h⟩ := bind_eq_ok.mp h
  obtain ⟨frames, hframes, h⟩ := bind_eq_ok.mp h
  obtain ⟨segment, hsegment, h⟩ := bind_eq_ok.mp h
  obtain ⟨objects, hput, h⟩ := bind_eq_ok.mp h
  obtain ⟨plan, hplan, h⟩ := bind_eq_ok.mp h
  obtain ⟨rfl, hlen⟩ := encodeObjectWalSegment_eq_ok hsegment
  obtain ⟨rfl, hfree⟩ := putImmutableObject_eq_ok hput
  refine ⟨total, frames, _, htotal, hframes, rfl, hlen, hfree, ?_⟩
  cases plan with
  | alreadyApplied =>
    -- The last sequence of the group is above the committed one.
    have hlt := habove last (List.mem_of_getLast? hlast)
    obtain ⟨heq, -⟩ := ObjectLeaseState.planCommitHead_eq_alreadyApplied hplan
    rw [heq] at hlt
    exact absurd hlt (UInt64.lt_irrefl _)
  | publish next =>
    obtain ⟨lease, hlease, hstate⟩ := bind_eq_ok.mp h
    obtain rfl := encodeLeaseState_eq_ok hlease
    obtain ⟨-, rfl⟩ := ObjectLeaseState.planCommitHead_eq_publish hplan
    exact (Except.ok.inj hstate).symm

lemma completeObjectWalAccepts_nil {state state' : WalState}
    {expiry : UInt64} (hlast : (sortAccepts accepts).getLast? = none)
    (h : state.completeObjectWalAccepts config accepts expiry = .ok state') : state' = state := by
  obtain ⟨_, -, h⟩ := bind_eq_ok.mp h
  unfold publishCommitBatch at h
  rw [hlast] at h
  exact (Except.ok.inj h).symm

end WalState

end TrineKv.ObjectWal
