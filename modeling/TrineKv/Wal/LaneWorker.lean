import Mathlib.Data.List.Basic
import TrineKv.Lib.Fallible
import TrineKv.Wal.Codec

/-!
# The worker of a filesystem lane

A worker takes appends, persists and rewrites in batches. Appends are written as they come and
answered by the next persist; a storage call that fails closes the lane. Files have bytes and a
synced length, and the directory has the names in it now and those when it was last synced. Events
are logged one by one, as a crash can come between any two.
-/

namespace TrineKv

def Error.display : Error → String
  | .io message => "io error: " ++ message
  | .corruption message => "corruption: " ++ message
  | .invalidFormat message => "invalid format: " ++ message
  | .unsupportedFormat message => "unsupported format: " ++ message
  | .invalidOptions message => "invalid options: " ++ message
  | .conflict message => "transaction conflict: " ++ message
  | .bucketMissing name => "bucket is missing: " ++ name
  | .fenced held current =>
    "writer fenced: held epoch " ++ toString held ++ " but manifest is at epoch " ++
      toString current
  | .leaseUnavailable resource => "writer lease is unavailable: " ++ resource
  | .runtimeBusy message => "runtime busy: " ++ message
  | .readVersionTooNew requested latest =>
    "read version " ++ toString requested ++ " is newer than latest read version " ++
      toString latest
  | .readVersionExpired requested oldest =>
    "read version " ++ toString requested ++ " is older than oldest retained read version " ++
      toString oldest

namespace Wal

open Fallible

/-! ## Durability -/

/-- The modes from the weakest to the strongest. -/
def walDurabilityRank : DurabilityMode → ℕ
  | .buffered => 0
  | .flush => 1
  | .syncData => 2
  | .syncAll => 3
  | .syncAllStrict => 4

def walDurabilityRequiresPersist (durability : DurabilityMode) : Bool :=
  decide (walDurabilityRank .flush ≤ walDurabilityRank durability)

def requiresFileSync : DurabilityMode → Bool
  | .buffered | .flush => false
  | .syncData | .syncAll | .syncAllStrict => true

/-- Whether a file that is published by a rename also needs its directory synced. -/
def requiresParentDirSyncAfterRename : DurabilityMode → Bool
  | .syncAll | .syncAllStrict => true
  | _ => false

/-- Whether a file that is about to be published is synced first: here a flush is a data sync. -/
def syncsBeforeRename (durability : DurabilityMode) : Bool := durability ≠ .buffered

def walLaneNeedsPersist (level : Option DurabilityMode) (durability : DurabilityMode) : Bool :=
  match level with
  | none => true
  | some level => decide (walDurabilityRank level < walDurabilityRank durability)

/-- The durability with which a rewrite persists the lane before it, and which it claims after. -/
def filesystemWalRewriteDurability : DurabilityMode := .syncAll

/-! ## Recovery of a lane -/

/-- The greater of two sequences. -/
instance lawfulOrderMax_uint64 : Std.LawfulOrderMax UInt64 where
  max_eq_or left right := by
    rw [show max left right = if left ≤ right then right else left from rfl]
    split
    · exact .inr rfl
    · exact .inl rfl
  max_le_iff left right bound := by
    rw [show max left right = if left ≤ right then right else left from rfl]
    split
    case isTrue h => exact ⟨fun h' => ⟨UInt64.le_trans h h', h'⟩, fun h' => h'.2⟩
    case isFalse h =>
      have hle : right ≤ left := (UInt64.le_total left right).resolve_left h
      exact ⟨fun h' => ⟨h', UInt64.le_trans hle h'⟩, fun h' => h'.1⟩

/-- The frames in the file must reach the sequence that the marker confirms. -/
def validateConfirmedWalCoverage (path : String) (replayFloor : UInt64) (confirmed : Option UInt64)
    (batches : List WalBatch) : Except Error Unit :=
  match confirmed with
  | none => .ok ()
  | some confirmed =>
    if confirmed ≤ replayFloor then .ok ()
    else if confirmed ≤ ((batches.map WalBatch.sequence).max?).getD replayFloor then .ok ()
    else .error (.corruption ("WAL " ++ path ++ " ended before confirmed sequence " ++
      toString confirmed))

/-- Read the batches of a lane above the floor; the file may be absent. -/
def readBatchesAfter (path : String) (wal : Option (List UInt8)) (confirmed : Option UInt64)
    (replayFloor : UInt64) : Except Error (List WalBatch) :=
  match wal with
  | none => do
    validateConfirmedWalCoverage path replayFloor confirmed []
    return []
  | some bytes => do
    let batches ← decodeFramesAfter bytes replayFloor
    validateConfirmedWalCoverage path replayFloor confirmed batches
    return batches

/-! ## The files of a lane -/

structure File where
  bytes : List UInt8
  synced : ℕ
  deriving DecidableEq, Repr

/-- What the worker did, in the order in which it did it. -/
inductive Event where
  /-- The lane's file was opened for appending; it is created when it is absent. -/
  | opened
  /-- Bytes were written at the end of a file. -/
  | wrote (file : ℕ) (bytes : List UInt8)
  /-- The frame of an append command is in the file. -/
  | appended (file : ℕ) (reply : ℕ) (sequence : UInt64) (durability : DurabilityMode)
  /-- A file was persisted. -/
  | persisted (file : ℕ) (durability : DurabilityMode)
  /-- The file of the confirmed marker was replaced. -/
  | markerRenamed (sequence : UInt64)
  /-- The file of the confirmed marker was removed. -/
  | markerDeleted
  /-- A rewrite of the lane starts. -/
  | rewriting (replayFloor : UInt64)
  /-- The lane's file was replaced by a new one; its bytes may have been synced before. -/
  | walRenamed (bytes : List UInt8) (synced : Bool)
  /-- The directory of the lane was synced. -/
  | directorySynced
  /-- The lane is closed: no storage call is made any more. -/
  | closed (message : String)
  /-- A command is answered. -/
  | completed (reply : ℕ) (result : Except Error Unit)
  deriving DecidableEq

/-- The files of a lane: every file there ever was, which of them has the lane's name and which of
them the directory names durably; and the same for the confirmed marker, of which only the
content is kept. -/
structure Disk where
  path : String
  files : List File
  wal : Option ℕ
  durableWal : Option ℕ
  marker : Option UInt64
  durableMarker : Option UInt64
  deriving DecidableEq, Repr

namespace Disk

def apply (disk : Disk) : Event → Disk
  | .opened =>
    match disk.wal with
    | some _ => disk
    | none => { disk with files := disk.files ++ [⟨[], 0⟩], wal := some disk.files.length }
  | .wrote file bytes =>
    { disk with
      files := disk.files.modify file fun file => { file with bytes := file.bytes ++ bytes } }
  | .persisted file durability =>
    if requiresFileSync durability then
      { disk with
        files := disk.files.modify file fun file => { file with synced := file.bytes.length } }
    else disk
  | .markerRenamed sequence => { disk with marker := some sequence }
  | .markerDeleted => { disk with marker := none }
  | .walRenamed bytes synced =>
    { disk with
      files := disk.files ++ [⟨bytes, if synced then bytes.length else 0⟩]
      wal := some disk.files.length }
  | .directorySynced => { disk with durableWal := disk.wal, durableMarker := disk.marker }
  | .appended .. | .rewriting _ | .closed _ | .completed .. => disk

def replay (disk : Disk) (log : List Event) : Disk := log.foldl apply disk

def walBytes (disk : Disk) : Option (List UInt8) :=
  disk.wal.bind fun file => disk.files[file]?.map File.bytes

end Disk

/-! ## The worker -/

/-- The answer of the storage to a call: an error, and how far the call came before it. -/
structure Answer where
  error : Option Error
  reached : ℕ
  deriving DecidableEq, Repr

inductive WalLaneCommand where
  | append (sequence : UInt64) (frame : List UInt8) (durability : DurabilityMode) (reply : ℕ)
  | persist (durability : DurabilityMode) (reply : ℕ)
  | rewrite (replayFloor : UInt64) (reply : ℕ)
  deriving DecidableEq, Repr

def WalLaneCommand.reply : WalLaneCommand → ℕ
  | .append _ _ _ reply | .persist _ reply | .rewrite _ reply => reply

/-- An append whose frame is written and that is not answered yet. -/
structure PendingWalAppend where
  sequence : UInt64
  reply : ℕ
  deriving DecidableEq, Repr

/-- The answers are those that the storage is going to give, in order, and success when they are
used up; the trace is what was done so far. -/
structure LaneWorker where
  disk : Disk
  writer : Option ℕ
  persistedLevel : Option DurabilityMode
  lastAppendedSequence : Option UInt64
  confirmedSequence : Option UInt64
  terminalError : Option String
  writerOpen : Bool
  answers : List Answer
  trace : List Event
  deriving DecidableEq

namespace LaneWorker

def start (disk : Disk) (answers : List Answer) : LaneWorker where
  disk := disk
  writer := none
  persistedLevel := none
  lastAppendedSequence := none
  confirmedSequence := none
  terminalError := none
  writerOpen := false
  answers := answers
  trace := []

/-- Log an event and do to the files what it does. -/
def record (lane : LaneWorker) (event : Event) : LaneWorker :=
  { lane with disk := lane.disk.apply event, trace := lane.trace ++ [event] }

def recordSome (lane : LaneWorker) : Option Event → LaneWorker
  | none => lane
  | some event => lane.record event

/-- A storage call. When it succeeds it has done the event `done`; when it fails it may have done
something too. -/
def request (lane : LaneWorker) (done : Option Event) (failed : ℕ → Option Event) :
    LaneWorker × Except Error Unit :=
  match lane.answers with
  | [] => (lane.recordSome done, .ok ())
  | answer :: rest =>
    match answer.error with
    | none => ({ lane with answers := rest }.recordSome done, .ok ())
    | some error => ({ lane with answers := rest }.recordSome (failed answer.reached), .error error)

/-- A storage call that reads, or that changes nothing recovery looks at. -/
def access (lane : LaneWorker) : LaneWorker × Except Error Unit := lane.request none fun _ => none

/-- A storage call that does one event, and that may have done it when it reports an error. -/
def perform (lane : LaneWorker) (event : Event) : LaneWorker × Except Error Unit :=
  lane.request (some event) fun reached => if reached = 0 then none else some event

/-- Answer a command. -/
def complete (lane : LaneWorker) (reply : ℕ) (result : Except Error Unit) : LaneWorker :=
  lane.record (.completed reply result)

def completeAll (lane : LaneWorker) (pending : List PendingWalAppend)
    (result : Except Error Unit) : LaneWorker :=
  pending.foldl (fun lane append => lane.complete append.reply result) lane

def close (lane : LaneWorker) (message : String) : LaneWorker :=
  { lane with
    writer := none, persistedLevel := none, terminalError := some message,
    writerOpen := false }.record (.closed message)

def openAppend (lane : LaneWorker) : LaneWorker × Except Error Unit :=
  andThen (lane.perform .opened) fun lane => ({ lane with writer := lane.disk.wal }, .ok ())

def persistNativeAppendFile (lane : LaneWorker) (file : ℕ) (durability : DurabilityMode) :
    LaneWorker × Except Error Unit :=
  lane.request (some (.persisted file durability)) fun _ => none

/-- A write that fails may leave any part of its bytes in the file. -/
def appendWalLaneFrame (lane : LaneWorker) (frame : List UInt8) : LaneWorker × Except Error Unit :=
  andThen
    (match lane.writer with
      | none => andThen lane.openAppend fun lane => ({ lane with writerOpen := true }, .ok ())
      | some _ => (lane, .ok ()))
    fun lane =>
      match lane.writer with
      | none => (lane, .ok ())
      | some file => lane.request (some (.wrote file frame)) fun reached =>
          some (.wrote file (frame.take reached))

def writeConfirmedWalMarker (lane : LaneWorker) (sequence : UInt64) (durability : DurabilityMode) :
    LaneWorker × Except Error Unit :=
  andThen lane.access fun lane =>
    andThen (lane.perform (.markerRenamed sequence)) fun lane =>
      if requiresParentDirSyncAfterRename durability then lane.perform .directorySynced
      else (lane, .ok ())

def persistWalLane (lane : LaneWorker) (durability : DurabilityMode) :
    LaneWorker × Except Error Unit :=
  match lane.writer with
  | none => (lane, .ok ())
  | some file =>
    if walLaneNeedsPersist lane.persistedLevel durability then
      andThen (lane.persistNativeAppendFile file durability) fun lane =>
        ({ lane with persistedLevel := some durability }, .ok ())
    else (lane, .ok ())

def rewriteNativeFileWal (lane : LaneWorker) (bytes : List UInt8) (durability : DurabilityMode) :
    LaneWorker × Except Error Unit :=
  andThen lane.access fun lane =>
    andThen (lane.perform (.walRenamed bytes (syncsBeforeRename durability))) fun lane =>
      if requiresParentDirSyncAfterRename durability then lane.perform .directorySynced
      else (lane, .ok ())

def rewriteBatchesAfter (lane : LaneWorker) (replayFloor : UInt64) :
    LaneWorker × Except Error Unit :=
  andThen lane.access fun lane =>
    andThen lane.access fun lane =>
      match readBatchesAfter lane.disk.path lane.disk.walBytes lane.disk.marker replayFloor with
      | .error error => (lane, .error error)
      | .ok batches =>
        match encodeBatchesAfter batches replayFloor with
        | .error error => (lane, .error error)
        | .ok bytes => lane.rewriteNativeFileWal bytes .flush

/-- Remove a marker that confirms nothing above the floor. -/
def deleteMarkerAtOrBelow (lane : LaneWorker) (replayFloor : UInt64) :
    LaneWorker × Except Error Unit :=
  andThen lane.access fun lane =>
    match lane.disk.marker with
    | none => (lane, .ok ())
    | some sequence =>
      if sequence ≤ replayFloor then lane.perform .markerDeleted else (lane, .ok ())

def reopenAppend (lane : LaneWorker) : LaneWorker × Except Error Unit :=
  match lane.writer with
  | none => (lane, .ok ())
  | some _ =>
    andThen lane.openAppend fun lane =>
      ({ lane with persistedLevel := some filesystemWalRewriteDurability }, .ok ())

/-- The part of a rewrite that is done when there is a file. -/
def rewriteExisting (lane : LaneWorker) (replayFloor : UInt64) : LaneWorker × Except Error Unit :=
  andThen (lane.rewriteBatchesAfter replayFloor) fun lane =>
    andThen (lane.deleteMarkerAtOrBelow replayFloor) reopenAppend

def rewriteWalLaneAfterReplayFloor (lane : LaneWorker) (replayFloor : UInt64) :
    LaneWorker × Except Error Unit :=
  match lane.writer with
  | some _ =>
    andThen (lane.persistWalLane filesystemWalRewriteDurability) fun lane =>
      lane.rewriteExisting replayFloor
  | none =>
    andThen lane.access fun lane =>
      match lane.disk.walBytes with
      | none => (lane, .ok ())
      | some _ => lane.rewriteExisting replayFloor

def confirm (lane : LaneWorker) (sequence : Option UInt64) (durability : DurabilityMode) :
    LaneWorker × Except Error Unit :=
  match sequence with
  | none => (lane, .ok ())
  | some sequence =>
    if lane.confirmedSequence.all fun confirmed => decide (confirmed < sequence) then
      andThen (lane.writeConfirmedWalMarker sequence durability) fun lane =>
        ({ lane with confirmedSequence := some sequence }, .ok ())
    else (lane, .ok ())

def persistWalLaneBatch (lane : LaneWorker) (durability : DurabilityMode) (hasNewAppends : Bool)
    (confirmSequence : Option UInt64) : LaneWorker × Except Error Unit :=
  match lane.writer with
  | none => (lane, .ok ())
  | some file =>
    if !walDurabilityRequiresPersist durability then (lane, .ok ())
    else
      andThen
        (if hasNewAppends || walLaneNeedsPersist lane.persistedLevel durability then
          andThen (lane.persistNativeAppendFile file durability) fun lane =>
            ({ lane with persistedLevel := some durability }, .ok ())
        else (lane, .ok ()))
        fun lane => lane.confirm confirmSequence durability

def duplicateWalLaneResult : Except Error Unit → Except Error Unit
  | .ok _ => .ok ()
  | .error (.io message) => .error (.io message)
  | .error error => .error (.corruption ("group commit persist failed: " ++ error.display))

def confirmTarget (lane : LaneWorker) (pending : List PendingWalAppend) : Option UInt64 :=
  (pending.map PendingWalAppend.sequence).max? <|> lane.lastAppendedSequence

def closeOnError (lane : LaneWorker) : Except Error Unit → LaneWorker
  | .ok _ => lane
  | .error error =>
    lane.close ("WAL persist failed with an uncertain durability boundary: " ++ error.display ++
      "; the lane is closed until database reopen")

def flushWalLaneBatch (lane : LaneWorker) (durability : DurabilityMode)
    (pending : List PendingWalAppend) : LaneWorker × Except Error Unit :=
  let outcome := lane.persistWalLaneBatch durability (!pending.isEmpty) (lane.confirmTarget pending)
  ((outcome.1.closeOnError outcome.2).completeAll pending (duplicateWalLaneResult outcome.2),
    outcome.2)

/-- The worker in the middle of a batch: the appends that wait for a persist, and the strongest
durability that one of them asked for. -/
structure InBatch where
  lane : LaneWorker
  pending : List PendingWalAppend
  pendingDurability : DurabilityMode
  deriving DecidableEq

/-- The stronger of two durabilities; the second one when they are equal. -/
def strongerDurability (durability pending : DurabilityMode) : DurabilityMode :=
  if walDurabilityRank pending < walDurabilityRank durability then durability else pending

/-- Handle an append: the frame is written, and the command waits for the next persist. -/
def processWalAppend (state : InBatch) (sequence : UInt64) (frame : List UInt8)
    (durability : DurabilityMode) (reply : ℕ) : InBatch :=
  let outcome := state.lane.appendWalLaneFrame frame
  match outcome.2 with
  | .ok _ =>
    { lane := { outcome.1.record
          (.appended (outcome.1.writer.getD 0) reply sequence durability) with
        persistedLevel := some .buffered
        lastAppendedSequence := some sequence }
      pending := state.pending ++ [⟨sequence, reply⟩]
      pendingDurability := strongerDurability durability state.pendingDurability }
  | .error error =>
    let message := "WAL append failed after the file may have changed: " ++ error.display ++
      "; the lane is closed until database reopen"
    { lane := ((outcome.1.close message).completeAll state.pending
          (.error (.corruption message))).complete reply (.error error)
      pending := []
      pendingDurability := state.pendingDurability }

/-- Handle a persist: it covers the pending appends too. -/
def processPersist (state : InBatch) (durability : DurabilityMode) (reply : ℕ) : InBatch :=
  let outcome := state.lane.flushWalLaneBatch
    (strongerDurability durability state.pendingDurability) state.pending
  { lane := outcome.1.complete reply (duplicateWalLaneResult outcome.2)
    pending := []
    pendingDurability := .buffered }

def closeOnRewriteError (lane : LaneWorker) : Except Error Unit → LaneWorker
  | .ok _ => lane
  | .error error =>
    match lane.terminalError with
    | some _ => lane
    | none =>
      lane.close ("WAL rewrite failed after the file namespace may have changed: " ++
        error.display ++ "; the lane is closed until database reopen")

/-- Handle a rewrite: the pending appends are persisted first. -/
def processRewrite (state : InBatch) (replayFloor : UInt64) (reply : ℕ) : InBatch :=
  let outcome := andThen (state.lane.flushWalLaneBatch state.pendingDurability state.pending)
    fun lane => (lane.record (.rewriting replayFloor)).rewriteWalLaneAfterReplayFloor replayFloor
  { lane := (outcome.1.closeOnRewriteError outcome.2).complete reply outcome.2
    pending := []
    pendingDurability := .buffered }

def processCommand (state : InBatch) (command : WalLaneCommand) : InBatch :=
  match state.lane.terminalError with
  | some message =>
    { state with lane := state.lane.complete command.reply (.error (.corruption message)) }
  | none =>
    match command with
    | .append sequence frame durability reply =>
      processWalAppend state sequence frame durability reply
    | .persist durability reply => processPersist state durability reply
    | .rewrite replayFloor reply => processRewrite state replayFloor reply

def processWalLaneBatch (lane : LaneWorker) (batch : List WalLaneCommand) : LaneWorker :=
  let state := batch.foldl processCommand ⟨lane, [], .buffered⟩
  (state.lane.flushWalLaneBatch state.pendingDurability state.pending).1

def runWalLaneWorker (lane : LaneWorker) (batches : List (List WalLaneCommand)) : LaneWorker :=
  batches.foldl processWalLaneBatch lane

end LaneWorker

end Wal

end TrineKv
