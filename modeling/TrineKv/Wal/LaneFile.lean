import TrineKv.Lib.Runs
import TrineKv.Wal.Codec

/-!
# Crashes of a write-ahead log lane

A lane is one file, to which a frame is appended for every batch; a crash cuts it at any length. The
reopened lane replays the file and appends behind what a crash left of a torn frame.

## Main results

* `LaneFile.decodes_of_run`: the file decodes.
* `LaneFile.appendBehindTorn_not_decodes`: an append behind a torn frame.
-/

namespace TrineKv.Wal

open FrameLog

/-- The batches whose frames are whole in the file have the offsets at which these end. The code
keeps the bytes only. -/
structure LaneFile where
  bytes : List UInt8
  frames : List (WalBatch × ℕ)
  deriving DecidableEq, Repr

namespace LaneFile

/-- An event in the life of a lane. -/
inductive Action where
  /-- The lane's writer appends the frame of a batch. -/
  | append (batch : WalBatch)
  /-- A crash leaves the first `length` bytes of the file; the lane is opened again. -/
  | crash (length : ℕ)
  deriving DecidableEq, Repr

def empty : LaneFile := ⟨[], []⟩

def append (file : LaneFile) (batch : WalBatch) : Option LaneFile :=
  match encodeBatchFrame batch.sequence batch.operations with
  | .ok frame =>
    let bytes := file.bytes ++ frame
    some ⟨bytes, file.frames ++ [(batch, bytes.length)]⟩
  | .error _ => none

/-- A crash that leaves the first `length` bytes. The frames that end in them stay whole. -/
def crash (file : LaneFile) (length : ℕ) : LaneFile :=
  ⟨file.bytes.take length, file.frames.filter fun entry => decide (entry.2 ≤ length)⟩

/-- One event. -/
def step (file : LaneFile) : Action → Option LaneFile
  | .append batch => file.append batch
  | .crash length => some (file.crash length)

def Decodes (file : LaneFile) : Prop :=
  ∀ replayFloor, decodeFramesAfter file.bytes replayFloor =
    .ok (above replayFloor (file.frames.map Prod.fst))

def endsAtFrame (file : LaneFile) : Prop :=
  file.bytes.length = (file.frames.getLast?.map Prod.snd).getD 0

instance (file : LaneFile) : Decidable file.endsAtFrame :=
  inferInstanceAs (Decidable (_ = _))

def appendsAtFrame (file : LaneFile) : Action → Prop
  | .append _ => file.endsAtFrame
  | .crash _ => True

instance (file : LaneFile) : DecidablePred file.appendsAtFrame
  | .append _ => inferInstanceAs (Decidable file.endsAtFrame)
  | .crash _ => inferInstanceAs (Decidable True)

/-- The whole frames stand at the front of the file, one after the other, and behind them at most
a torn one. -/
def Intact (file : LaneFile) : Prop :=
  ∃ whole torn, Written encodesFrame file.frames whole ∧ file.bytes = whole ++ torn ∧
    TornFrame encodesFrame torn

lemma Intact.written {file : LaneFile} (h : file.Intact) (hend : file.endsAtFrame) :
    Written encodesFrame file.frames file.bytes := by
  obtain ⟨whole, torn, hwritten, hbytes, -⟩ := h
  have hlength : file.bytes.length = whole.length := hend.trans hwritten.length_eq.symm
  rw [hbytes, List.length_append] at hlength
  obtain rfl : torn = [] := List.length_eq_zero_iff.mp (by omega)
  rwa [hbytes, List.append_nil]

lemma Intact.append {file file' : LaneFile} {batch : WalBatch} (h : file.Intact)
    (hend : file.endsAtFrame) (hstep : file.append batch = some file') : file'.Intact := by
  unfold LaneFile.append at hstep
  split at hstep
  case h_1 frame hframe =>
    obtain rfl := Option.some.inj hstep
    exact ⟨file.bytes ++ frame, [], .snoc (h.written hend) hframe, by simp, Or.inl rfl⟩
  case h_2 => cases hstep

lemma Intact.crash {file : LaneFile} (h : file.Intact) (length : ℕ) : (file.crash length).Intact := by
  obtain ⟨whole, torn, hwritten, hbytes, htorn⟩ := h
  obtain ⟨whole', torn', hwritten', htake, htorn'⟩ := hwritten.take_torn htorn length
  refine ⟨whole', torn', hwritten', ?_, htorn'⟩
  rw [LaneFile.crash, hbytes, htake]

lemma Intact.step {file file' : LaneFile} {action : Action} (h : file.Intact)
    (hmeets : file.appendsAtFrame action) (hstep : file.step action = some file') :
    file'.Intact := by
  cases action with
  | append batch => exact h.append hmeets hstep
  | crash length =>
    obtain rfl := Option.some.inj hstep
    exact h.crash length

lemma Intact.decodes {file : LaneFile} (h : file.Intact) : file.Decodes := by
  obtain ⟨whole, torn, hwritten, hbytes, htorn⟩ := h
  intro replayFloor
  rw [hbytes]
  exact decodeFramesAfter_written hwritten htorn replayFloor

/-- When batches are appended only to a file that ends with a whole frame, decoding the lane
returns exactly its whole frames, after every sequence of appends, crashes at any length and
reopenings.

**Proof sketch.** Such a step keeps the file intact: whole frames, then at most a torn one. An
intact file is decoded to its whole frames. -/
theorem decodes_of_run (actions : List Action) (file : LaneFile)
    (hrun : Runs.run step empty actions = some file)
    (hmeets : Runs.Meets step appendsAtFrame empty actions) : file.Decodes := by
  have hempty : empty.Intact := ⟨[], [], .nil, rfl, Or.inl rfl⟩
  have hintact : file.Intact :=
    Runs.invariant_of_step (fun _ _ _ h hguard hstep => h.step hguard hstep) hempty hrun hmeets
  exact hintact.decodes

def oneDelete (sequence : UInt64) : WalBatch := ⟨sequence, [.delete "b" [7]]⟩

def crashAtFrame : List Action :=
  [.append (oneDelete 1), .append (oneDelete 2), .crash 41, .append (oneDelete 3), .crash 80]

/-- The whole frames of that run are decoded: the first one, as the last crash tears the other. -/
theorem crashAtFrame_decodes :
    ∃ file, Runs.run step empty crashAtFrame = some file ∧ file.frames = [(oneDelete 1, 41)] ∧
      file.Decodes := by
  have hframes : (Runs.run step empty crashAtFrame).map frames = some [(oneDelete 1, 41)] := by
    decide
  obtain ⟨file, hrun, hfile⟩ := Option.map_eq_some_iff.mp hframes
  exact ⟨file, hrun, hfile, decodes_of_run crashAtFrame file hrun (by decide)⟩

/-- Two frames, a crash that takes the last byte of the second, and a new frame. -/
def appendBehindTorn : List Action :=
  [.append (oneDelete 1), .append (oneDelete 2), .crash 81, .append (oneDelete 3)]

/-- The frame that is appended behind the torn one makes the lane unreadable: the decoder takes the
first byte of the new frame for the last byte of the torn payload. -/
theorem appendBehindTorn_not_decodes :
    ∃ file, Runs.run step empty appendBehindTorn = some file ∧
      file.frames.map Prod.fst = [oneDelete 1, oneDelete 3] ∧
      decodeFramesAfter file.bytes 0 = .error (.corruption "WAL payload checksum mismatch") ∧
      ¬file.Decodes := by
  have hfile : (Runs.run step empty appendBehindTorn).map (fun file =>
      (file.frames.map Prod.fst, decodeFramesAfter file.bytes 0)) =
        some ([oneDelete 1, oneDelete 3],
          .error (.corruption "WAL payload checksum mismatch")) := by
    decide +kernel
  obtain ⟨file, hrun, hfile⟩ := Option.map_eq_some_iff.mp hfile
  obtain ⟨hframes, hdecode⟩ := Prod.mk.inj hfile
  refine ⟨file, hrun, hframes, hdecode, fun h => ?_⟩
  have hok := h 0
  rw [hdecode] at hok
  cases hok

end LaneFile

end TrineKv.Wal
