import TrineKv.ObjectWal.Worker

/-!
# The way of a commit to the object write-ahead log

Commits get their sequence and enter the log one at a time. The frame goes into a buffer. A buffered
commit is done then; others send the buffer to the worker, a synchronous one waiting after each
frame, an asynchronous one not. A sender that finds the queue full fails with `runtimeBusy`, and a
commit that fails with it or with `invalidOptions` gives up its sequence. Buffer, queue and worker
move in steps of their own, and what the worker does to the store is a choice of the environment.
-/

namespace TrineKv

/-- An object store has no durability that syncs; the error names the one that was requested. -/
def validateStorageDurability : DurabilityMode → Except DurabilityMode Unit
  | .buffered | .flush => .ok ()
  | requested => .error requested

/-- A commit that fails with this error gives up its sequence; other errors leave its outcome open
and stop the database. -/
def Error.isRefusal : Error → Bool
  | .runtimeBusy _ | .invalidOptions _ => true
  | _ => false

end TrineKv

namespace TrineKv.ObjectWal

open Wal

def queueCapacity : ℕ := 64

inductive LaneCommand where
  | accept (accept : ObjectWalAccept)
  | persist
  | rewrite (replayFloor : UInt64)
  | release

/-- Who sends the buffer: a synchronous commit, an asynchronous one, or a persist or rewrite. -/
inductive Role where
  | commit (sequence : UInt64)
  | enqueue (sequence : UInt64)
  | background
  deriving DecidableEq, Repr

/-- The holder of the buffer: how many of its frames are done, and whether it waits for the worker
with the next one. -/
structure Sender where
  role : Role
  sent : ℕ
  waiting : Bool
  deriving DecidableEq, Repr

inductive WorkerPhase where
  | idle
  | collecting (group : List ObjectWalAccept)
  | publishing (group : List ObjectWalAccept)
  | failed

/-- How a group commit ends: published, with an error before anything is written, or with another
error after which the head may have been moved. -/
inductive GroupOutcome where
  | published
  | refreshFailed (error : Error)
  | publishFailed (error : Error) (applied : Bool)

/-- The front door of the log. The worker may have put a command aside, and `refused` are the
sequences that refused commits gave up. -/
structure Substrate where
  lastSequence : UInt64
  commit : Option UInt64
  buffered : List ObjectWalAccept
  sender : Option Sender
  queue : List LaneCommand
  phase : WorkerPhase
  deferred : Option LaneCommand
  published : List ObjectWalAccept
  refused : List UInt64

namespace Substrate

/-- A database that has just been opened. -/
def opened : Substrate := ⟨0, none, [], none, [], .idle, none, [], []⟩

/-- One step of a client or of the worker. -/
inductive Action where
  | acceptCommit (operations : List BatchOperation) (durability : DurabilityMode)
  | enqueueCommit (operations : List BatchOperation) (durability : DurabilityMode)
  | flushCommit
  | flushBackground
  | send
  | finish
  | enqueue (command : LaneCommand)
  | receive
  | timeout
  | complete (outcome : GroupOutcome)
  | serve (succeeds : Bool)
  | reject

/-- A commit that fails with the error gives up its sequence. -/
def refuse (state : Substrate) (sequence : UInt64) (error : Error) : Substrate :=
  if error.isRefusal then { state with refused := sequence :: state.refused } else state

/-- The sender fails. The frames that are done leave the buffer; an asynchronous commit also takes its
own frame back, a synchronous one leaves it there. -/
def fail (state : Substrate) (sender : Sender) (error : Error) : Substrate :=
  let rest := state.buffered.drop sender.sent
  match sender.role with
  | .commit sequence =>
    { state with buffered := rest, sender := none, commit := none }.refuse sequence error
  | .enqueue sequence =>
    { state with
      buffered := rest.eraseP fun accept => decide (accept.sequence = sequence)
      sender := none
      commit := none }.refuse sequence error
  | .background => { state with buffered := rest, sender := none }

def answer (state : Substrate) (results : UInt64 → Option (Except Error Unit)) : Substrate :=
  match state.sender with
  | none => state
  | some sender =>
    if sender.waiting then
      match state.buffered[sender.sent]? with
      | none => state
      | some accept =>
        match results accept.sequence with
        | none => state
        | some (.ok _) =>
          { state with sender := some { sender with sent := sender.sent + 1, waiting := false } }
        | some (.error error) => state.fail sender error
    else state

/-- The results of a group commit. Behind a failed refresh only the first commit of the group gets
the error itself; behind a failed publication it does when it is alone. -/
def results (group : List ObjectWalAccept) (outcome : GroupOutcome) (sequence : UInt64) :
    Option (Except Error Unit) :=
  if sequence ∈ group.map ObjectWalAccept.sequence then
    match outcome with
    | .published => some (.ok ())
    | .refreshFailed error =>
      if (WalState.sortAccepts group).head?.map ObjectWalAccept.sequence = some sequence then
        some (.error error)
      else some (.error (.runtimeBusy "object WAL refresh failed before grouped commit"))
    | .publishFailed error _ =>
      if group.length = 1 then some (.error error)
      else some (.error (.io "object WAL group commit failed"))
  else none

/-- The frames that a group commit has put into the log. -/
def applies (group : List ObjectWalAccept) : GroupOutcome → List ObjectWalAccept
  | .published | .publishFailed _ true => group
  | .refreshFailed _ | .publishFailed _ false => []

/-- The worker goes on after a group commit that succeeds, and stops otherwise. -/
def phaseAfter : GroupOutcome → WorkerPhase
  | .published => .idle
  | .refreshFailed _ | .publishFailed _ _ => .failed

def nextCommand (state : Substrate) : Option (LaneCommand × Substrate) :=
  match state.deferred, state.queue with
  | some command, _ => some (command, { state with deferred := none })
  | none, command :: queue => some (command, { state with queue })
  | none, [] => none

def fits (group : List ObjectWalAccept) (accept : ObjectWalAccept) : Bool :=
  decide ((group.map fun other => other.frame.length).sum + accept.frame.length ≤
    maxGroupFrameBytes)

/-- Reserve a sequence and encode the frame of a commit. The result is the state without the frame,
or with the frame in the buffer. -/
def push (state : Substrate) (operations : List BatchOperation) : Option (Substrate × Option UInt64) :=
  if state.commit.isSome || state.sender.isSome then none
  else if state.lastSequence.toNat = maxSequence then none
  else
    let sequence := state.lastSequence + 1
    let state := { state with lastSequence := sequence }
    match ObjectWalAccept.ofBatch ⟨sequence, operations⟩ with
    | .error error => some (state.refuse sequence error, none)
    | .ok accept => some ({ state with buffered := state.buffered ++ [accept] }, some sequence)

def step (state : Substrate) : Action → Option Substrate
  | .acceptCommit operations durability =>
    match validateStorageDurability durability, state.push operations with
    -- The commit is refused before it gets a sequence.
    | .error _, _ => some state
    | .ok _, none => none
    | .ok _, some (state, none) => some state
    | .ok _, some (state, some sequence) =>
      if durability = .buffered then some state else some { state with commit := some sequence }
  | .enqueueCommit operations durability =>
    match validateStorageDurability durability, state.push operations with
    | .error _, _ => some state
    | .ok _, none => none
    | .ok _, some (state, none) => some state
    | .ok _, some (state, some sequence) =>
      if durability = .buffered then some state
      else
        let buffered := WalState.sortAccepts state.buffered
        if buffered.getLast?.map ObjectWalAccept.sequence ≠ some sequence then
          some { state with
            buffered := buffered.filter fun accept => decide (accept.sequence ≠ sequence) }
        else
          some { state with
            buffered
            commit := some sequence
            sender := some ⟨.enqueue sequence, 0, false⟩ }
  | .flushCommit =>
    match state.commit, state.sender with
    | some sequence, none =>
      some { state with
        buffered := WalState.sortAccepts state.buffered
        sender := some ⟨.commit sequence, 0, false⟩ }
    | _, _ => none
  | .flushBackground =>
    match state.sender with
    | none =>
      some { state with
        buffered := WalState.sortAccepts state.buffered
        sender := some ⟨.background, 0, false⟩ }
    | some _ => none
  | .send =>
    match state.sender with
    | none => none
    | some sender =>
      if sender.waiting then none
      else
        match state.buffered[sender.sent]? with
        | none => none
        | some accept =>
          if state.queue.length < queueCapacity then
            let state := { state with queue := state.queue ++ [LaneCommand.accept accept] }
            match sender.role with
            | .enqueue _ => some { state with sender := some { sender with sent := sender.sent + 1 } }
            | .commit _ | .background =>
              some { state with sender := some { sender with waiting := true } }
          else some (state.fail sender (.runtimeBusy "object WAL queue is full"))
  | .finish =>
    match state.sender with
    | none => none
    | some sender =>
      if sender.waiting || decide (sender.sent < state.buffered.length) then none
      else
        match sender.role with
        | .commit _ | .enqueue _ =>
          some { state with buffered := [], sender := none, commit := none }
        | .background => some { state with buffered := [], sender := none }
  | .enqueue command =>
    match command with
    | .accept _ => none
    | .persist | .rewrite _ | .release =>
      if state.queue.length < queueCapacity then
        some { state with queue := state.queue ++ [command] }
      else none
  | .receive =>
    match state.phase with
    | .idle =>
      match state.nextCommand with
      | some (.accept accept, state) => some { state with phase := .collecting [accept] }
      | _ => none
    | .collecting group =>
      match state.queue with
      | [] => none
      | command :: queue =>
        match command with
        | .accept accept =>
          if fits group accept then
            some { state with queue, phase := .collecting (group ++ [accept]) }
          else some { state with queue, deferred := some command, phase := .publishing group }
        | .persist | .rewrite _ | .release =>
          some { state with queue, deferred := some command, phase := .publishing group }
    | .publishing _ | .failed => none
  | .timeout =>
    match state.phase, state.queue with
    | .collecting group, [] => some { state with phase := .publishing group }
    | _, _ => none
  | .complete outcome =>
    match state.phase with
    | .publishing group =>
      some ({ state with
        phase := phaseAfter outcome
        published := state.published ++ applies group outcome }.answer (results group outcome))
    | _ => none
  | .serve succeeds =>
    match state.phase with
    | .idle =>
      match state.nextCommand with
      | some (.persist, state) => if succeeds then some state else some { state with phase := .failed }
      | some (.rewrite replayFloor, state) =>
        if succeeds then
          some { state with
            published := state.published.filter fun accept =>
              decide (replayFloor < accept.sequence) }
        else some { state with phase := .failed }
      | some (.release, state) => some { state with phase := .failed }
      | _ => none
    | _ => none
  | .reject =>
    match state.phase with
    | .failed =>
      match state.nextCommand with
      | none => none
      | some (.accept accept, state) =>
        some (state.answer fun sequence =>
          if sequence = accept.sequence then
            some (.error (.corruption "object WAL entered a terminal failed state"))
          else none)
      | some (_, state) => some state
    | _ => none

end Substrate

end TrineKv.ObjectWal
