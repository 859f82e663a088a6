import TrineKv.Lib.EventLog
import TrineKv.Wal.LaneWorker

/-!
# Group commit of a filesystem lane

The worker answers every command once, an append well only when its frame was persisted with the
durability it asked for, and nothing well once the lane is closed; the confirmed marker stands at a
frame that was persisted. This holds for every batch of commands after any others, whichever storage
calls fail.

## Main results

* `LaneWorker.groupCommit`: when commands are answered.
* `LaneWorker.bufferedAppend_not_persisted`: without a persist.
-/

namespace TrineKv.Wal

open List Option

open Fallible EventLog

open scoped List

variable {frame : List UInt8} {durability : DurabilityMode} {log : List Event} {sequence : UInt64}

lemma walDurabilityRequiresPersist_iff :
    walDurabilityRequiresPersist durability = true ↔ 1 ≤ walDurabilityRank durability :=
  decide_eq_true_iff

def Event.answered : Event → Option ℕ
  | .completed reply _ => some reply
  | _ => none

/-- The frame of an append was written to a file, and the file was persisted afterwards with the
rank `rank` or a greater one. -/
def FramePersisted (log : List Event) (file reply : ℕ) (sequence : UInt64) (frame : List UInt8)
    (durability : DurabilityMode) (rank : ℕ) : Prop :=
  ∃ level, rank ≤ walDurabilityRank level ∧
    [.wrote file frame, .appended file reply sequence durability, .persisted file level] <+ log

def SequencePersisted (log : List Event) (sequence : UInt64) : Prop :=
  ∃ file reply frame durability, FramePersisted log file reply sequence frame durability 1

/-- A command is answered well only by an open lane, an append only when its frame is written, and
persisted as it asked for; the marker moves to a persisted frame. -/
def Event.JustifiedBy (commands : List WalLaneCommand) (log : List Event) : Event → Prop
  | .completed reply (.ok _) =>
    (∀ message, .closed message ∉ log) ∧
      ((∃ durability, .persist durability reply ∈ commands) ∨
        (∃ replayFloor, .rewrite replayFloor reply ∈ commands) ∨
        ∃ sequence frame durability, .append sequence frame durability reply ∈ commands ∧
          ∃ file, [.wrote file frame, .appended file reply sequence durability] <+ log ∧
            (walDurabilityRequiresPersist durability → FramePersisted log file reply sequence frame
              durability (walDurabilityRank durability)))
  | .markerRenamed sequence => SequencePersisted log sequence
  | _ => True

/-- The event of a storage call: it answers no command and does not close the lane. -/
def Event.IsCall : Event → Prop
  | .completed .. | .closed _ => False
  | _ => True

lemma Event.IsCall.answered {event : Event} (h : event.IsCall) : event.answered = none := by
  cases event <;> first | rfl | exact absurd h id

lemma FramePersisted.mono {log' : List Event} {file reply : ℕ}
    {rank : ℕ} (hlog : log <+ log')
    (h : FramePersisted log file reply sequence frame durability rank) :
    FramePersisted log' file reply sequence frame durability rank := by
  obtain ⟨level, hrank, hevents⟩ := h
  exact ⟨level, hrank, hevents.trans hlog⟩

lemma SequencePersisted.mono {log' : List Event} (hlog : log <+ log')
    (h : SequencePersisted log sequence) : SequencePersisted log' sequence := by
  obtain ⟨file, reply, frame, durability, h⟩ := h
  exact ⟨file, reply, frame, durability, h.mono hlog⟩

lemma framePersisted_concat {file reply : ℕ}
    {level : DurabilityMode} {rank : ℕ}
    (h : [.wrote file frame, .appended file reply sequence durability] <+ log)
    (hrank : rank ≤ walDurabilityRank level) :
    FramePersisted (log ++ [.persisted file level]) file reply sequence frame durability rank :=
  ⟨level, hrank, h.append (List.Sublist.refl [_])⟩

lemma filterMap_answered_of_isCall {events : List Event} (h : ∀ event ∈ events, event.IsCall) :
    events.filterMap Event.answered = [] := by
  rw [filterMap_eq_nil_iff]
  exact fun event hevent => (h event hevent).answered

namespace LaneWorker

variable {commands : List WalLaneCommand} {lane lane' : LaneWorker} {state : InBatch}
  {pending : List PendingWalAppend} {reply : ℕ} {replies : List ℕ}

/-! ## Storage calls -/

/-- From one state to the other only storage calls were made, and what they did is justified. -/
structure Calls (commands : List WalLaneCommand) (lane lane' : LaneWorker) : Prop where
  trace : ∃ events, lane'.trace = lane.trace ++ events ∧ ∀ event ∈ events, event.IsCall
  justified : Justified (Event.JustifiedBy commands) lane.trace →
    Justified (Event.JustifiedBy commands) lane'.trace
  terminalError : lane'.terminalError = lane.terminalError
  lastAppendedSequence : lane'.lastAppendedSequence = lane.lastAppendedSequence
  confirmed : ∀ sequence, lane'.confirmedSequence = some sequence →
    lane.confirmedSequence = some sequence ∨ SequencePersisted lane'.trace sequence

lemma Calls.sublist (h : Calls commands lane lane') :
    lane.trace <+ lane'.trace := by
  obtain ⟨events, htrace, -⟩ := h.trace
  rw [htrace]
  exact sublist_append_left _ _

lemma calls_of_eq (htrace : lane'.trace = lane.trace)
    (hterminal : lane'.terminalError = lane.terminalError)
    (hlast : lane'.lastAppendedSequence = lane.lastAppendedSequence)
    (hconfirmed : lane'.confirmedSequence = lane.confirmedSequence) :
    Calls commands lane lane' :=
  ⟨⟨[], by simp [htrace], by simp⟩, fun h => by rwa [htrace], hterminal, hlast,
    fun _ h => Or.inl (hconfirmed ▸ h)⟩

lemma Calls.refl (lane : LaneWorker) : Calls commands lane lane := calls_of_eq rfl rfl rfl rfl

lemma Calls.trans {lane'' : LaneWorker} (h : Calls commands lane lane')
    (h' : Calls commands lane' lane'') : Calls commands lane lane'' := by
  obtain ⟨events, htrace, hcall⟩ := h.trace
  obtain ⟨events', htrace', hcall'⟩ := h'.trace
  refine ⟨⟨events ++ events', ?_, ?_⟩, fun hj => h'.justified (h.justified hj),
    h'.terminalError.trans h.terminalError,
    h'.lastAppendedSequence.trans h.lastAppendedSequence, fun sequence hsequence => ?_⟩
  · rw [htrace', htrace, append_assoc]
  · intro event hevent
    rcases mem_append.mp hevent with hevent | hevent
    · exact hcall event hevent
    · exact hcall' event hevent
  · rcases h'.confirmed sequence hsequence with hold | hnew
    · exact (h.confirmed sequence hold).imp id fun hnew => hnew.mono h'.sublist
    · exact .inr hnew

lemma calls_record {answers : List Answer} {event : Event}
    (hcall : event.IsCall) (hjustified : event.JustifiedBy commands lane.trace) :
    Calls commands lane ({ lane with answers := answers }.record event) :=
  ⟨⟨[event], rfl, by simpa using hcall⟩, fun h => justified_concat.mpr ⟨h, hjustified⟩, rfl, rfl,
    fun _ h => Or.inl h⟩

lemma request_ends (lane : LaneWorker) (done : Option Event) (failed : ℕ → Option Event) :
    Ends (fun lane' => ∃ answers, lane' = { lane with answers := answers }.recordSome done)
      (fun lane' => ∃ answers reached,
        lane' = { lane with answers := answers }.recordSome (failed reached))
      (lane.request done failed) := by
  unfold request
  split
  case h_1 hanswers => exact ⟨lane.answers, rfl⟩
  case h_2 answer rest hanswers =>
    split
    · exact ⟨rest, rfl⟩
    · exact ⟨rest, answer.reached, rfl⟩

lemma calls_recordSome {answers : List Answer} {event : Option Event}
    (h : ∀ e ∈ event, e.IsCall ∧ e.JustifiedBy commands lane.trace) :
    Calls commands lane ({ lane with answers := answers }.recordSome event) := by
  cases event with
  | none => exact calls_of_eq rfl rfl rfl rfl
  | some event => exact calls_record (h event rfl).1 (h event rfl).2

lemma access_calls (hcalls : Calls commands lane lane') :
    Ends (Calls commands lane) (Calls commands lane) lane'.access := by
  refine (request_ends lane' none fun _ => none).imp ?_ ?_
  · rintro lane'' ⟨answers, rfl⟩
    exact hcalls.trans (calls_recordSome (by simp))
  · rintro lane'' ⟨answers, reached, rfl⟩
    exact hcalls.trans (calls_recordSome (by simp))

lemma perform_calls (hcalls : Calls commands lane lane')
    (event : Event) (hcall : event.IsCall)
    (hjustified : event.JustifiedBy commands lane'.trace) :
    Ends (Calls commands lane) (Calls commands lane) (lane'.perform event) := by
  refine (request_ends lane' (some event) _).imp ?_ ?_
  · rintro lane'' ⟨answers, rfl⟩
    exact hcalls.trans (calls_recordSome (by simpa using ⟨hcall, hjustified⟩))
  · rintro lane'' ⟨answers, reached, rfl⟩
    refine hcalls.trans (calls_recordSome ?_)
    split
    · simp
    · simpa using ⟨hcall, hjustified⟩

lemma exists_wal_of_opened (disk : Disk) : ∃ file, (disk.apply .opened).wal = some file := by
  unfold Disk.apply
  cases hwal : disk.wal with
  | none => exact ⟨_, rfl⟩
  | some file => exact ⟨file, hwal⟩

lemma openAppend_ends (lane : LaneWorker) :
    Ends (fun lane' => Calls commands lane lane' ∧ ∃ file, lane'.writer = some file)
      (Calls commands lane) lane.openAppend := by
  refine ((request_ends lane (some .opened) _).imp (fun _ h => h) ?_).andThen ?_
  · rintro lane' ⟨answers, reached, rfl⟩
    refine calls_recordSome ?_
    split <;> simp [Event.IsCall, Event.JustifiedBy]
  · rintro lane' ⟨answers, rfl⟩
    have hcalls : Calls commands lane ({ lane with answers := answers }.record .opened) :=
      calls_record trivial trivial
    exact ⟨hcalls.trans (calls_of_eq rfl rfl rfl rfl), exists_wal_of_opened lane.disk⟩

lemma appendWalLaneFrame_ends (lane : LaneWorker) (frame : List UInt8) :
    Ends (fun lane' => Calls commands lane lane' ∧ ∃ file, lane'.writer = some file ∧
        (∀ file', lane.writer = some file' → file' = file) ∧ [.wrote file frame] <+ lane'.trace)
      (Calls commands lane) (lane.appendWalLaneFrame frame) := by
  unfold appendWalLaneFrame
  refine Ends.andThen (m := fun lane' => Calls commands lane lane' ∧ ∃ file, lane'.writer = some file ∧
    ∀ file', lane.writer = some file' → file' = file) ?_ ?_
  · cases hwriter : lane.writer with
    | none =>
      refine (openAppend_ends lane).andThen ?_
      rintro lane' ⟨hcalls, file, hfile⟩
      exact ⟨hcalls.trans (calls_of_eq rfl rfl rfl rfl), file, hfile, by simp⟩
    | some file =>
      exact ⟨Calls.refl lane, file, hwriter, fun file' hfile' => (Option.some.inj hfile').symm⟩
  · rintro lane' ⟨hcalls, file, hfile, hsame⟩
    rw [hfile]
    refine (request_ends lane' _ _).imp ?_ ?_
    · rintro lane'' ⟨answers, rfl⟩
      refine ⟨hcalls.trans (calls_record trivial trivial), file, hfile, hsame, ?_⟩
      exact sublist_append_right _ _
    · rintro lane'' ⟨answers, reached, rfl⟩
      exact hcalls.trans (calls_record trivial trivial)

lemma persistNativeAppendFile_ends (lane : LaneWorker) (file : ℕ) (durability : DurabilityMode) :
    Ends (fun lane' => ∃ answers,
        lane' = { lane with answers := answers }.record (.persisted file durability))
      (Calls commands lane) (lane.persistNativeAppendFile file durability) := by
  refine (request_ends lane _ _).imp ?_ ?_
  · rintro lane' ⟨answers, rfl⟩
    exact ⟨answers, rfl⟩
  · rintro lane' ⟨answers, reached, rfl⟩
    exact calls_recordSome (by simp)

lemma rewriteNativeFileWal_calls (hcalls : Calls commands lane lane')
    (bytes : List UInt8) (durability : DurabilityMode) :
    Ends (Calls commands lane) (Calls commands lane)
      (lane'.rewriteNativeFileWal bytes durability) := by
  refine (access_calls hcalls).andThen fun lane₁ h₁ => ?_
  refine (perform_calls h₁ (.walRenamed bytes _) trivial trivial).andThen fun lane₂ h₂ => ?_
  split
  · exact perform_calls h₂ .directorySynced trivial trivial
  · exact h₂

lemma rewriteBatchesAfter_calls (hcalls : Calls commands lane lane')
    (replayFloor : UInt64) :
    Ends (Calls commands lane) (Calls commands lane) (lane'.rewriteBatchesAfter replayFloor) := by
  refine (access_calls hcalls).andThen fun lane₁ h₁ => ?_
  refine (access_calls h₁).andThen fun lane₂ h₂ => ?_
  split
  · exact h₂
  · split
    · exact h₂
    · exact rewriteNativeFileWal_calls h₂ _ _

lemma deleteMarkerAtOrBelow_calls (hcalls : Calls commands lane lane')
    (replayFloor : UInt64) :
    Ends (Calls commands lane) (Calls commands lane) (lane'.deleteMarkerAtOrBelow replayFloor) := by
  refine (access_calls hcalls).andThen fun lane₁ h₁ => ?_
  split
  · exact h₁
  · split
    · exact perform_calls h₁ .markerDeleted trivial trivial
    · exact h₁

lemma reopenAppend_calls (hcalls : Calls commands lane lane') :
    Ends (Calls commands lane) (Calls commands lane) lane'.reopenAppend := by
  unfold reopenAppend
  split
  · exact hcalls
  · refine ((openAppend_ends lane').imp (fun _ h => hcalls.trans h.1) fun _ h =>
      hcalls.trans h).andThen fun lane₁ h₁ => ?_
    exact h₁.trans (calls_of_eq rfl rfl rfl rfl)

lemma rewriteExisting_calls (hcalls : Calls commands lane lane')
    (replayFloor : UInt64) :
    Ends (Calls commands lane) (Calls commands lane) (lane'.rewriteExisting replayFloor) := by
  refine (rewriteBatchesAfter_calls hcalls replayFloor).andThen fun lane₁ h₁ => ?_
  refine (deleteMarkerAtOrBelow_calls h₁ replayFloor).andThen fun lane₂ h₂ => ?_
  exact reopenAppend_calls h₂

lemma rewriteWalLaneAfterReplayFloor_calls (lane : LaneWorker) (replayFloor : UInt64) :
    Ends (Calls commands lane) (Calls commands lane)
      (lane.rewriteWalLaneAfterReplayFloor replayFloor) := by
  unfold rewriteWalLaneAfterReplayFloor
  split
  · refine Ends.andThen (m := Calls commands lane) ?_ fun lane₁ h₁ =>
      rewriteExisting_calls h₁ replayFloor
    unfold persistWalLane
    split
    · exact Calls.refl lane
    next file _ =>
      split
      · refine (persistNativeAppendFile_ends lane _ _).andThen ?_
        rintro lane₁ ⟨answers, rfl⟩
        have hrecord : Calls commands lane ({ lane with answers := answers }.record
            (.persisted file filesystemWalRewriteDurability)) := calls_record trivial trivial
        exact hrecord.trans (calls_of_eq rfl rfl rfl rfl)
      · exact Calls.refl lane
  · refine (access_calls (Calls.refl lane)).andThen fun lane₁ h₁ => ?_
    split
    · exact h₁
    · exact rewriteExisting_calls h₁ replayFloor

lemma writeConfirmedWalMarker_calls
    (hpersisted : SequencePersisted lane.trace sequence) (durability : DurabilityMode) :
    Ends (Calls commands lane) (Calls commands lane)
      (lane.writeConfirmedWalMarker sequence durability) := by
  refine (access_calls (Calls.refl lane)).andThen fun lane₁ h₁ => ?_
  refine (perform_calls h₁ (.markerRenamed sequence) trivial
    (hpersisted.mono h₁.sublist)).andThen fun lane₂ h₂ => ?_
  split
  · exact perform_calls h₂ .directorySynced trivial trivial
  · exact h₂

lemma confirm_calls {sequence : Option UInt64}
    (hpersisted : ∀ s, sequence = some s → SequencePersisted lane.trace s)
    (durability : DurabilityMode) :
    Ends (Calls commands lane) (Calls commands lane) (lane.confirm sequence durability) := by
  unfold confirm
  split
  · exact Calls.refl lane
  case h_2 sequence =>
    split
    · refine (writeConfirmedWalMarker_calls (hpersisted sequence rfl)
        durability).andThen fun lane₁ h₁ => ?_
      refine ⟨h₁.trace, h₁.justified, h₁.terminalError, h₁.lastAppendedSequence, ?_⟩
      intro s hs
      obtain rfl := Option.some.inj hs
      exact .inr ((hpersisted sequence rfl).mono h₁.sublist)
    · exact Calls.refl lane

/-! ## The invariant -/

def Settled (lane : LaneWorker) : Prop :=
  ∀ sequence, lane.lastAppendedSequence = some sequence → SequencePersisted lane.trace sequence

def Dirty (lane : LaneWorker) : Prop :=
  ∃ file, lane.writer = some file ∧ lane.persistedLevel = some .buffered ∧
    ∀ sequence, lane.lastAppendedSequence = some sequence → ∃ reply frame durability,
      [.wrote file frame, .appended file reply sequence durability] <+ lane.trace

structure Sound (commands : List WalLaneCommand) (lane : LaneWorker) : Prop where
  justified : Justified (Event.JustifiedBy commands) lane.trace
  isOpen : lane.terminalError = none → ∀ message, .closed message ∉ lane.trace
  idle : lane.terminalError ≠ none → lane.writer = none
  last : lane.terminalError = none → lane.Settled ∨ lane.Dirty
  confirmed : ∀ sequence, lane.confirmedSequence = some sequence →
    SequencePersisted lane.trace sequence

/-- The waiting appends are in the open file, and none asks for more than `durability`. -/
def Waiting (commands : List WalLaneCommand) (lane : LaneWorker) (pending : List PendingWalAppend)
    (durability : DurabilityMode) : Prop :=
  ∀ append ∈ pending, ∃ file frame asked, lane.writer = some file ∧
    .append append.sequence frame asked append.reply ∈ commands ∧
    walDurabilityRank asked ≤ walDurabilityRank durability ∧
    [.wrote file frame, .appended file append.reply append.sequence asked] <+ lane.trace

/-- The appends can be answered well. -/
def Persisted (commands : List WalLaneCommand) (lane : LaneWorker)
    (pending : List PendingWalAppend) : Prop :=
  ∀ append ∈ pending, ∃ frame asked,
    .append append.sequence frame asked append.reply ∈ commands ∧
      ∃ file, [.wrote file frame, .appended file append.reply append.sequence asked] <+ lane.trace ∧
        (walDurabilityRequiresPersist asked → FramePersisted lane.trace file append.reply
          append.sequence frame asked (walDurabilityRank asked))

lemma Settled.calls (h : lane.Settled)
    (hcalls : Calls commands lane lane') : lane'.Settled := by
  intro sequence hsequence
  exact (h sequence (hcalls.lastAppendedSequence ▸ hsequence)).mono hcalls.sublist

lemma Persisted.mono
    (h : Persisted commands lane pending) (hlog : lane.trace <+ lane'.trace) :
    Persisted commands lane' pending := by
  intro append happend
  obtain ⟨frame, asked, hmem, file, hwritten, hpersisted⟩ := h append happend
  exact ⟨frame, asked, hmem, file, hwritten.trans hlog, fun hasked => (hpersisted hasked).mono hlog⟩

lemma Sound.calls (h : Sound commands lane)
    (hcalls : Calls commands lane lane') (hopen : lane.terminalError = none)
    (hlast : lane'.Settled ∨ lane'.Dirty) : Sound commands lane' := by
  obtain ⟨events, htrace, hevents⟩ := hcalls.trace
  refine ⟨hcalls.justified h.justified, fun _ message hmem => ?_, fun hclosed => ?_, fun _ => hlast,
    fun sequence hsequence => ?_⟩
  · rw [htrace] at hmem
    rcases mem_append.mp hmem with hmem | hmem
    · exact h.isOpen hopen message hmem
    · exact hevents _ hmem
  · exact absurd (hcalls.terminalError.trans hopen) hclosed
  · rcases hcalls.confirmed sequence hsequence with hold | hnew
    · exact (h.confirmed sequence hold).mono hcalls.sublist
    · exact hnew

lemma Sound.close (h : Sound commands lane)
    (hcalls : Calls commands lane lane') (message : String) :
    Sound commands (lane'.close message) := by
  have hlog : lane'.trace <+ (lane'.close message).trace := sublist_append_left _ _
  refine ⟨justified_concat.mpr ⟨hcalls.justified h.justified, trivial⟩, fun hopen => ?_,
    fun _ => rfl, fun hopen => ?_, fun sequence hsequence => ?_⟩
  · cases hopen
  · cases hopen
  · rcases hcalls.confirmed sequence hsequence with hold | hnew
    · exact ((h.confirmed sequence hold).mono hcalls.sublist).mono hlog
    · exact hnew.mono hlog

/-! ## Persisting -/

lemma confirmTarget_cases
    (h : lane.confirmTarget pending = some sequence) :
    (∃ append ∈ pending, append.sequence = sequence) ∨
      (pending = [] ∧ lane.lastAppendedSequence = some sequence) := by
  unfold confirmTarget at h
  cases hmax : (pending.map PendingWalAppend.sequence).max? with
  | none =>
    rw [List.max?_eq_none_iff, map_eq_nil_iff] at hmax
    simp only [hmax, map_nil, List.max?_nil] at h
    exact .inr ⟨hmax, h⟩
  | some greatest =>
    rw [hmax] at h
    obtain rfl : greatest = sequence := Option.some.inj h
    exact .inl (mem_map.mp (List.max?_mem hmax))

lemma persisted_then_confirm {file : ℕ} (hwriter : lane.writer = some file)
    (hrank : 1 ≤ walDurabilityRank durability) (hsound : Sound commands lane)
    (hopen : lane.terminalError = none) (hwaiting : Waiting commands lane pending durability)
    (answers : List Answer) :
    Ends (fun lane' => Calls commands lane lane' ∧ lane'.Settled ∧
        Persisted commands lane' pending)
      (Calls commands lane)
      (({ { lane with answers := answers }.record (.persisted file durability) with
        persistedLevel := some durability }).confirm (lane.confirmTarget pending) durability) := by
  set lane₁ : LaneWorker := { { lane with answers := answers }.record (.persisted file durability) with
    persistedLevel := some durability } with hlane₁
  have htrace : lane₁.trace = lane.trace ++ [.persisted file durability] := rfl
  have hrecord : Calls commands lane
      ({ lane with answers := answers }.record (.persisted file durability)) :=
    calls_record trivial trivial
  have hcalls : Calls commands lane lane₁ := hrecord.trans (calls_of_eq rfl rfl rfl rfl)
  have hframes : ∀ append ∈ pending, ∃ frame asked,
      .append append.sequence frame asked append.reply ∈ commands ∧
        walDurabilityRank asked ≤ walDurabilityRank durability ∧
        FramePersisted lane₁.trace file append.reply append.sequence frame asked
          (walDurabilityRank durability) := by
    intro append happend
    obtain ⟨file', frame, asked, hfile', hmem, hasked, hevents⟩ := hwaiting append happend
    obtain rfl : file' = file := Option.some.inj (hfile'.symm.trans hwriter)
    exact ⟨frame, asked, hmem, hasked, htrace ▸ framePersisted_concat hevents le_rfl⟩
  have hsettled : lane₁.Settled := by
    intro sequence hsequence
    rcases hsound.last hopen with hsettled | ⟨file', hfile', -, hdirty⟩
    · exact hsettled.calls hcalls sequence hsequence
    · obtain rfl : file' = file := Option.some.inj (hfile'.symm.trans hwriter)
      obtain ⟨reply, frame, asked, hevents⟩ := hdirty sequence hsequence
      exact ⟨file', reply, frame, asked, htrace ▸ framePersisted_concat hevents hrank⟩
  have hconfirm : ∀ sequence, lane.confirmTarget pending = some sequence →
      SequencePersisted lane₁.trace sequence := by
    intro sequence hsequence
    rcases confirmTarget_cases hsequence with ⟨append, happend, rfl⟩ | ⟨-, hlast⟩
    · obtain ⟨frame, asked, -, -, level, hlevel, hevents⟩ := hframes append happend
      exact ⟨file, append.reply, frame, asked, level, hrank.trans hlevel, hevents⟩
    · exact hsettled sequence hlast
  refine (confirm_calls hconfirm durability).imp (fun lane₂ h₂ => ?_) fun lane₂ h₂ => hcalls.trans h₂
  refine ⟨hcalls.trans h₂, hsettled.calls h₂, fun append happend => ?_⟩
  obtain ⟨frame, asked, hmem, hasked, hframe⟩ := hframes append happend
  obtain ⟨level, hlevel, hevents⟩ := hframe.mono h₂.sublist
  exact ⟨frame, asked, hmem, file, (sublist_append_left [_, _] [_]).trans hevents,
    fun _ => ⟨level, hasked.trans hlevel, hevents⟩⟩

/-- A persist covers the pending appends.

**Proof sketch.** Without a writer nothing is pending. A durability below a flush asks for nothing,
and so does every pending append. Otherwise the file is persisted, or nothing is pending and the
lane knows that its last frame is. -/
lemma persistWalLaneBatch_ends (hsound : Sound commands lane) (hopen : lane.terminalError = none)
    (hwaiting : Waiting commands lane pending durability) :
    Ends (fun lane' => Calls commands lane lane' ∧ (lane'.Settled ∨ lane'.Dirty) ∧
        Persisted commands lane' pending)
      (Calls commands lane)
      (lane.persistWalLaneBatch durability (!pending.isEmpty) (lane.confirmTarget pending)) := by
  unfold persistWalLaneBatch
  split
  case h_1 hwriter =>
    refine ⟨Calls.refl lane, hsound.last hopen, fun append happend => ?_⟩
    obtain ⟨file, -, -, hfile, -⟩ := hwaiting append happend
    rw [hwriter] at hfile
    cases hfile
  case h_2 file hwriter =>
    split
    case isTrue hnone =>
      refine ⟨Calls.refl lane, hsound.last hopen, fun append happend => ?_⟩
      obtain ⟨file, frame, asked, -, hmem, hasked, hevents⟩ := hwaiting append happend
      refine ⟨frame, asked, hmem, file, hevents, fun hrequires => ?_⟩
      rw [Bool.not_eq_true', ← Bool.not_eq_true, walDurabilityRequiresPersist_iff] at hnone
      rw [walDurabilityRequiresPersist_iff] at hrequires
      omega
    case isFalse hsome =>
      have hrank : 1 ≤ walDurabilityRank durability := by
        rw [Bool.not_eq_true', Bool.not_eq_false, walDurabilityRequiresPersist_iff] at hsome
        exact hsome
      split
      case isTrue hpersist =>
        refine Ends.andThen (m := fun lane' => ∃ answers, lane' =
          { { lane with answers := answers }.record (.persisted file durability) with
            persistedLevel := some durability }) ?_ ?_
        · refine (persistNativeAppendFile_ends lane file durability).andThen ?_
          rintro lane' ⟨answers, rfl⟩
          exact ⟨answers, rfl⟩
        · rintro lane' ⟨answers, rfl⟩
          exact (persisted_then_confirm hwriter hrank hsound hopen hwaiting answers).imp
            (fun _ h => ⟨h.1, Or.inl h.2.1, h.2.2⟩) fun _ h => h
      case isFalse hskip =>
        -- Nothing is pending, and the level of the lane says that its frames are persisted.
        simp only [Bool.or_eq_true, Bool.not_eq_true', isEmpty_eq_false_iff, ne_eq, not_or,
          not_not] at hskip
        obtain ⟨rfl, hlevel⟩ := hskip
        have hsettled : lane.Settled := by
          rcases hsound.last hopen with hsettled | ⟨-, -, hdirty, -⟩
          · exact hsettled
          · rw [hdirty] at hlevel
            exact absurd (decide_eq_true hrank) hlevel
        have hconfirm : ∀ sequence, lane.confirmTarget [] = some sequence →
            SequencePersisted lane.trace sequence :=
          fun sequence hsequence => hsettled sequence hsequence
        exact (confirm_calls hconfirm durability).imp
          (fun _ h => ⟨h, Or.inl (hsettled.calls h), by simp [Persisted]⟩) fun _ h => h

lemma trace_completeAll (lane : LaneWorker) (pending : List PendingWalAppend)
    (result : Except Error Unit) :
    (lane.completeAll pending result).trace =
      lane.trace ++ pending.map fun append => .completed append.reply result := by
  induction pending generalizing lane with
  | nil => simp [completeAll]
  | cons append pending ih =>
    have hrest := ih (lane.complete append.reply result)
    simp only [completeAll, foldl_cons, map_cons] at hrest ⊢
    rw [hrest, append_cons]
    rfl

/-! ## Answering -/

def answeredReplies (lane : LaneWorker) : List ℕ := lane.trace.filterMap Event.answered

lemma Settled.mono (h : lane.Settled) (hlog : lane.trace <+ lane'.trace)
    (hlast : lane'.lastAppendedSequence = lane.lastAppendedSequence) : lane'.Settled := by
  intro sequence hsequence
  exact (h sequence (hlast ▸ hsequence)).mono hlog

lemma Dirty.mono (h : lane.Dirty) (hlog : lane.trace <+ lane'.trace)
    (hlast : lane'.lastAppendedSequence = lane.lastAppendedSequence)
    (hwriter : lane'.writer = lane.writer) (hlevel : lane'.persistedLevel = lane.persistedLevel) :
    lane'.Dirty := by
  obtain ⟨file, hfile, hbuffered, hframe⟩ := h
  refine ⟨file, hwriter.trans hfile, hlevel.trans hbuffered, fun sequence hsequence => ?_⟩
  obtain ⟨reply, frame, asked, hevents⟩ := hframe sequence (hlast ▸ hsequence)
  exact ⟨reply, frame, asked, hevents.trans hlog⟩

lemma Sound.complete (h : Sound commands lane)
    {result : Except Error Unit}
    (hjustified : Event.JustifiedBy commands lane.trace (.completed reply result)) :
    Sound commands (lane.complete reply result) := by
  have hlog : lane.trace <+ (lane.complete reply result).trace := sublist_append_left _ _
  refine ⟨justified_concat.mpr ⟨h.justified, hjustified⟩, fun hopen message hmem => ?_, h.idle,
    fun hopen => (h.last hopen).imp (fun h => h.mono hlog rfl) fun h => h.mono hlog rfl rfl rfl,
    fun sequence hsequence => (h.confirmed sequence hsequence).mono hlog⟩
  rcases mem_append.mp hmem with hmem | hmem
  · exact h.isOpen hopen message hmem
  · cases mem_singleton.mp hmem

lemma answeredReplies_complete (lane : LaneWorker) (reply : ℕ) (result : Except Error Unit) :
    (lane.complete reply result).answeredReplies = lane.answeredReplies ++ [reply] := by
  simp [answeredReplies, complete, record, Event.answered]

lemma answeredReplies_completeAll (lane : LaneWorker) (pending : List PendingWalAppend)
    (result : Except Error Unit) :
    (lane.completeAll pending result).answeredReplies =
      lane.answeredReplies ++ pending.map PendingWalAppend.reply := by
  rw [answeredReplies, trace_completeAll, filterMap_append, filterMap_map]
  simp [answeredReplies, Event.answered, Function.comp_def]

lemma Calls.answeredReplies (h : Calls commands lane lane') :
    lane'.answeredReplies = lane.answeredReplies := by
  obtain ⟨events, htrace, hevents⟩ := h.trace
  rw [LaneWorker.answeredReplies, htrace, filterMap_append,
    filterMap_answered_of_isCall hevents, append_nil, LaneWorker.answeredReplies]

lemma Sound.completeAll_error (h : Sound commands lane)
    (pending : List PendingWalAppend) (error : Error) :
    Sound commands (lane.completeAll pending (.error error)) := by
  induction pending generalizing lane with
  | nil => exact h
  | cons append pending ih => exact ih (h.complete trivial)

lemma Sound.completeAll_ok
    (h : Sound commands lane) (hopen : lane.terminalError = none)
    (hpersisted : Persisted commands lane pending) :
    Sound commands (lane.completeAll pending (.ok ())) := by
  induction pending generalizing lane with
  | nil => exact h
  | cons append pending ih =>
    obtain ⟨frame, asked, hmem, hframe⟩ := hpersisted append mem_cons_self
    refine ih (h.complete ⟨h.isOpen hopen, Or.inr (Or.inr ⟨_, frame, asked, hmem, hframe⟩)⟩) hopen ?_
    have hlog : lane.trace <+ (lane.complete append.reply (.ok ())).trace :=
      sublist_append_left _ _
    exact Persisted.mono (fun later hlater => hpersisted later (mem_cons_of_mem _ hlater)) hlog

lemma terminalError_completeAll (lane : LaneWorker) (pending : List PendingWalAppend)
    (result : Except Error Unit) :
    (lane.completeAll pending result).terminalError = lane.terminalError := by
  induction pending generalizing lane with
  | nil => rfl
  | cons append pending ih => exact ih (lane.complete append.reply result)

lemma Waiting.eq_nil (h : Waiting commands lane pending durability)
    (hwriter : lane.writer = none) : pending = [] := by
  rw [eq_nil_iff_forall_not_mem]
  intro append happend
  obtain ⟨file, -, -, hfile, -⟩ := h append happend
  rw [hwriter] at hfile
  cases hfile

lemma flushWalLaneBatch_spec (hsound : Sound commands lane)
    (hwaiting : Waiting commands lane pending durability) :
    Sound commands (lane.flushWalLaneBatch durability pending).1 ∧
      (lane.flushWalLaneBatch durability pending).1.answeredReplies =
        lane.answeredReplies ++ pending.map PendingWalAppend.reply ∧
      Ends (fun lane' => lane'.terminalError = lane.terminalError)
        (fun lane' => lane'.terminalError ≠ none) (lane.flushWalLaneBatch durability pending) := by
  by_cases hopen : lane.terminalError = none
  · have hends := persistWalLaneBatch_ends hsound hopen hwaiting
    unfold flushWalLaneBatch
    dsimp only
    set outcome := lane.persistWalLaneBatch durability (!pending.isEmpty)
      (lane.confirmTarget pending) with houtcome
    obtain ⟨lane', result⟩ := outcome
    cases result with
    | ok _ =>
      obtain ⟨hcalls, hlast, hpersisted⟩ := hends
      have hsound' := hsound.calls hcalls hopen hlast
      have hopen' : lane'.terminalError = none := hcalls.terminalError.trans hopen
      refine ⟨hsound'.completeAll_ok hopen' hpersisted, ?_, ?_⟩
      · rw [answeredReplies_completeAll]
        exact congrArg (· ++ _) hcalls.answeredReplies
      · exact (terminalError_completeAll _ _ _).trans hcalls.terminalError
    | error error =>
      have hcalls : Calls commands lane lane' := hends
      have hsound' := hsound.close hcalls ("WAL persist failed with an uncertain durability boundary: "
        ++ error.display ++ "; the lane is closed until database reopen")
      have hresult : ∃ error', duplicateWalLaneResult (.error error) = .error error' := by
        cases error <;> exact ⟨_, rfl⟩
      obtain ⟨error', hresult⟩ := hresult
      refine ⟨?_, ?_, ?_⟩
      · rw [hresult]
        exact hsound'.completeAll_error pending error'
      · rw [answeredReplies_completeAll]
        refine congrArg (· ++ _) ?_
        rw [← hcalls.answeredReplies]
        simp [closeOnError, close, record, answeredReplies, Event.answered]
      · rw [ends_error, terminalError_completeAll]
        exact some_ne_none _
  · have hwriter := hsound.idle hopen
    obtain rfl := hwaiting.eq_nil hwriter
    have hflush : lane.flushWalLaneBatch durability [] = (lane, .ok ()) := by
      simp [flushWalLaneBatch, persistWalLaneBatch, hwriter, closeOnError, completeAll]
    rw [hflush]
    exact ⟨hsound, by simp, rfl⟩

/-! ## Commands -/

structure InBatch.Sound (commands : List WalLaneCommand) (replies : List ℕ) (state : InBatch) :
    Prop where
  sound : LaneWorker.Sound commands state.lane
  waiting : Waiting commands state.lane state.pending state.pendingDurability
  answered : (state.lane.answeredReplies ++ state.pending.map PendingWalAppend.reply).Perm replies

lemma le_rank_strongerDurability (durability pending : DurabilityMode) :
    walDurabilityRank durability ≤ walDurabilityRank (strongerDurability durability pending) ∧
      walDurabilityRank pending ≤ walDurabilityRank (strongerDurability durability pending) := by
  unfold strongerDurability
  split <;> omega

lemma Waiting.weaken
    {durability' : DurabilityMode} (h : Waiting commands lane pending durability)
    (hrank : walDurabilityRank durability ≤ walDurabilityRank durability') :
    Waiting commands lane pending durability' := by
  intro append happend
  obtain ⟨file, frame, asked, hfile, hmem, hasked, hevents⟩ := h append happend
  exact ⟨file, frame, asked, hfile, hmem, hasked.trans hrank, hevents⟩

lemma InBatch.Sound.processWalAppend
    (h : state.Sound commands replies) (hopen : state.lane.terminalError = none)
    (hmem : .append sequence frame durability reply ∈ commands) :
    (processWalAppend state sequence frame durability reply).Sound commands
      (replies ++ [reply]) := by
  have hends := @appendWalLaneFrame_ends commands state.lane frame
  unfold LaneWorker.processWalAppend
  dsimp only
  generalize state.lane.appendWalLaneFrame frame = outcome at hends
  obtain ⟨lane, result⟩ := outcome
  cases result with
  | ok _ =>
    obtain ⟨hcalls, file, hfile, hsame, hwrote⟩ := hends
    dsimp only
    rw [hfile, getD_some]
    set lane' : LaneWorker := { lane.record (.appended file reply sequence durability) with
      persistedLevel := some .buffered, lastAppendedSequence := some sequence } with hlane'
    have hlog : lane.trace <+ lane'.trace := sublist_append_left _ _
    have hframe : [.wrote file frame, .appended file reply sequence durability] <+ lane'.trace :=
      hwrote.append (List.Sublist.refl [Event.appended file reply sequence durability])
    refine ⟨⟨?_, ?_, ?_, ?_, ?_⟩, ?_, ?_⟩
    · exact justified_concat.mpr ⟨hcalls.justified h.sound.justified, trivial⟩
    · intro _ message hclosed
      obtain ⟨events, htrace, hevents⟩ := hcalls.trace
      have htrace' : lane'.trace = state.lane.trace ++ events ++
          [.appended file reply sequence durability] := congrArg (· ++ _) htrace
      rw [htrace', mem_append, mem_append, mem_singleton] at hclosed
      rcases hclosed with (hclosed | hclosed) | hclosed
      · exact h.sound.isOpen hopen message hclosed
      · exact hevents _ hclosed
      · cases hclosed
    · intro hclosed
      exact absurd (hcalls.terminalError.trans hopen) hclosed
    · intro _
      refine .inr ⟨file, hfile, rfl, fun last hlast => ?_⟩
      obtain rfl := Option.some.inj hlast
      exact ⟨reply, frame, durability, hframe⟩
    · intro confirmed hconfirmed
      rcases hcalls.confirmed confirmed hconfirmed with hold | hnew
      · exact ((h.sound.confirmed confirmed hold).mono hcalls.sublist).mono hlog
      · exact hnew.mono hlog
    · intro append happend
      obtain ⟨hdurability, hpending⟩ :=
        le_rank_strongerDurability durability state.pendingDurability
      rcases mem_append.mp happend with happend | happend
      · obtain ⟨file', frame', asked, hfile', hmem', hasked, hevents⟩ := h.waiting append happend
        obtain rfl := hsame file' hfile'
        exact ⟨file', frame', asked, hfile, hmem', hasked.trans hpending,
          (hevents.trans hcalls.sublist).trans hlog⟩
      · obtain rfl := mem_singleton.mp happend
        exact ⟨file, frame, durability, hfile, hmem, hdurability, hframe⟩
    · have hreplies : lane'.answeredReplies = state.lane.answeredReplies := by
        rw [← hcalls.answeredReplies]
        simp [hlane', answeredReplies, record, Event.answered]
      rw [hreplies, map_append, ← append_assoc]
      exact h.answered.append_right _
  | error error =>
    have hcalls : Calls commands state.lane lane := hends
    dsimp only
    refine ⟨((h.sound.close hcalls _).completeAll_error _ _).complete trivial, ?_, ?_⟩
    · simp [Waiting]
    · rw [map_nil, append_nil, answeredReplies_complete, answeredReplies_completeAll]
      refine List.Perm.append_right _ ?_
      have hclose : ∀ message, (lane.close message).answeredReplies = state.lane.answeredReplies := by
        intro message
        rw [← hcalls.answeredReplies]
        simp [close, record, answeredReplies, Event.answered]
      rw [hclose]
      exact h.answered

lemma InBatch.Sound.processPersist (h : state.Sound commands replies)
    (hopen : state.lane.terminalError = none) (hmem : .persist durability reply ∈ commands) :
    (processPersist state durability reply).Sound commands (replies ++ [reply]) := by
  have hwaiting := h.waiting.weaken
    (le_rank_strongerDurability durability state.pendingDurability).2
  obtain ⟨hsound, hreplies, hends⟩ := flushWalLaneBatch_spec h.sound hwaiting
  unfold LaneWorker.processPersist
  dsimp only
  generalize state.lane.flushWalLaneBatch
    (strongerDurability durability state.pendingDurability) state.pending = outcome at *
  obtain ⟨lane, result⟩ := outcome
  refine ⟨hsound.complete ?_, by simp [Waiting], ?_⟩
  · cases result with
    | ok _ => exact ⟨hsound.isOpen (hends.trans hopen), Or.inl ⟨durability, hmem⟩⟩
    | error error => cases error <;> trivial
  · rw [map_nil, append_nil, answeredReplies_complete, hreplies]
    exact h.answered.append_right _

lemma persistWalLane_ends (hsound : LaneWorker.Sound commands lane)
    (hopen : lane.terminalError = none) :
    Ends (fun lane' => Calls commands lane lane' ∧ lane'.Settled) (Calls commands lane)
      (lane.persistWalLane filesystemWalRewriteDurability) := by
  unfold persistWalLane
  split
  case h_1 hwriter =>
    refine ⟨Calls.refl lane, ?_⟩
    rcases hsound.last hopen with hsettled | ⟨file, hfile, -⟩
    · exact hsettled
    · rw [hwriter] at hfile
      cases hfile
  case h_2 file hwriter =>
    split
    case isTrue =>
      refine (persistNativeAppendFile_ends lane file _).andThen ?_
      rintro lane' ⟨answers, rfl⟩
      have hrecord : Calls commands lane ({ lane with answers := answers }.record
          (.persisted file filesystemWalRewriteDurability)) := calls_record trivial trivial
      refine ⟨hrecord.trans (calls_of_eq rfl rfl rfl rfl), ?_⟩
      rcases hsound.last hopen with hsettled | ⟨file', hfile', -, hdirty⟩
      · exact (hsettled.calls hrecord).mono (List.Sublist.refl _) rfl
      · obtain rfl : file' = file := Option.some.inj (hfile'.symm.trans hwriter)
        intro sequence hsequence
        obtain ⟨reply, frame, asked, hevents⟩ := hdirty sequence hsequence
        exact ⟨file', reply, frame, asked, framePersisted_concat hevents (by decide)⟩
    case isFalse hskip =>
      refine ⟨Calls.refl lane, ?_⟩
      rcases hsound.last hopen with hsettled | ⟨-, -, hdirty, -⟩
      · exact hsettled
      · rw [hdirty] at hskip
        exact absurd rfl hskip

lemma rewriteWalLaneAfterReplayFloor_ends
    (hsound : LaneWorker.Sound commands lane) (hopen : lane.terminalError = none)
    (replayFloor : UInt64) :
    Ends (fun lane' => Calls commands lane lane' ∧ lane'.Settled) (Calls commands lane)
      (lane.rewriteWalLaneAfterReplayFloor replayFloor) := by
  unfold rewriteWalLaneAfterReplayFloor
  split
  case h_1 file hwriter =>
    refine (persistWalLane_ends hsound hopen).andThen ?_
    rintro lane₁ ⟨hcalls, hsettled⟩
    exact (rewriteExisting_calls (Calls.refl lane₁) replayFloor).imp
      (fun _ h => ⟨hcalls.trans h, hsettled.calls h⟩) fun _ h => hcalls.trans h
  case h_2 hwriter =>
    have hsettled : lane.Settled := by
      rcases hsound.last hopen with hsettled | ⟨file, hfile, -⟩
      · exact hsettled
      · rw [hwriter] at hfile
        cases hfile
    refine (access_calls (Calls.refl lane)).andThen fun lane₁ h₁ => ?_
    split
    · exact ⟨h₁, hsettled.calls h₁⟩
    · exact (rewriteExisting_calls h₁ replayFloor).imp
        (fun _ h => ⟨h, hsettled.calls h⟩) fun _ h => h

lemma closeOnRewriteError_spec {outcome : LaneWorker × Except Error Unit}
    (hsound : LaneWorker.Sound commands lane) (hopen : lane.terminalError = none)
    (hends : Ends (fun lane' => Calls commands lane lane' ∧ lane'.Settled) (Calls commands lane)
      outcome) :
    LaneWorker.Sound commands (outcome.1.closeOnRewriteError outcome.2) ∧
      (outcome.1.closeOnRewriteError outcome.2).answeredReplies = lane.answeredReplies ∧
      (outcome.2 = .ok () → (outcome.1.closeOnRewriteError outcome.2).terminalError = none) := by
  obtain ⟨lane', result⟩ := outcome
  cases result with
  | ok _ =>
    obtain ⟨hcalls, hsettled⟩ := hends
    exact ⟨hsound.calls hcalls hopen (Or.inl hsettled), hcalls.answeredReplies,
      fun _ => hcalls.terminalError.trans hopen⟩
  | error error =>
    have hcalls : Calls commands lane lane' := hends
    have hnone : lane'.terminalError = none := hcalls.terminalError.trans hopen
    simp only [closeOnRewriteError, hnone]
    refine ⟨hsound.close hcalls _, ?_, fun hok => by cases hok⟩
    rw [← hcalls.answeredReplies]
    simp [close, record, answeredReplies, Event.answered]

lemma InBatch.Sound.processRewrite {replayFloor : UInt64} (h : state.Sound commands replies)
    (hopen : state.lane.terminalError = none)
    (hmem : .rewrite replayFloor reply ∈ commands) :
    (processRewrite state replayFloor reply).Sound commands (replies ++ [reply]) := by
  obtain ⟨hflushed, hreplies, hends⟩ := flushWalLaneBatch_spec h.sound h.waiting
  unfold LaneWorker.processRewrite
  generalize state.lane.flushWalLaneBatch state.pendingDurability state.pending = flushed at *
  obtain ⟨lane, result⟩ := flushed
  have hanswered : (lane.answeredReplies ++ [reply]).Perm (replies ++ [reply]) := by
    refine List.Perm.append_right _ ?_
    rw [show lane.answeredReplies = _ from hreplies]
    exact h.answered
  cases result with
  | error error =>
    -- The flush failed and closed the lane already.
    obtain ⟨message, hmessage⟩ := ne_none_iff_exists'.mp hends
    have hclose : lane.closeOnRewriteError (.error error) = lane := by
      unfold closeOnRewriteError
      rw [show lane.terminalError = some message from hmessage]
    dsimp only [andThen_error]
    rw [hclose]
    refine ⟨hflushed.complete trivial, by simp [Waiting], ?_⟩
    rwa [map_nil, append_nil, answeredReplies_complete]
  | ok _ =>
    have hopen' : lane.terminalError = none := hends.trans hopen
    have hrecord : Calls commands lane (lane.record (.rewriting replayFloor)) :=
      @calls_record commands lane lane.answers _ trivial trivial
    have hlog : lane.trace <+ (lane.record (.rewriting replayFloor)).trace :=
      sublist_append_left _ _
    have hsound : LaneWorker.Sound commands (lane.record (.rewriting replayFloor)) :=
      hflushed.calls hrecord hopen' ((hflushed.last hopen').imp (fun h => h.mono hlog rfl)
        fun h => h.mono hlog rfl rfl rfl)
    obtain ⟨hsound', hsame, hok⟩ := closeOnRewriteError_spec hsound hopen'
      (rewriteWalLaneAfterReplayFloor_ends hsound hopen' replayFloor)
    dsimp only [andThen_ok]
    generalize rewriteWalLaneAfterReplayFloor (lane.record (.rewriting replayFloor)) replayFloor =
      outcome at *
    obtain ⟨lane', result'⟩ := outcome
    refine ⟨hsound'.complete ?_, by simp [Waiting], ?_⟩
    · cases result' with
      | ok _ => exact ⟨hsound'.isOpen (hok rfl), Or.inr (Or.inl ⟨replayFloor, hmem⟩)⟩
      | error error => trivial
    · rwa [map_nil, append_nil, answeredReplies_complete, hsame, hrecord.answeredReplies]

lemma InBatch.Sound.processCommand {command : WalLaneCommand}
    (h : state.Sound commands replies) (hmem : command ∈ commands) :
    (processCommand state command).Sound commands (replies ++ [command.reply]) := by
  unfold LaneWorker.processCommand
  split
  case h_1 message hmessage =>
    have hclosed : state.lane.terminalError ≠ none := by simp [hmessage]
    have hpending := h.waiting.eq_nil (h.sound.idle hclosed)
    refine ⟨h.sound.complete trivial, by simp [Waiting, hpending], ?_⟩
    have hanswered := h.answered
    rw [hpending, map_nil, append_nil] at hanswered
    rw [hpending, map_nil, append_nil, answeredReplies_complete]
    exact hanswered.append_right _
  case h_2 hopen =>
    cases command with
    | append sequence frame durability reply => exact h.processWalAppend hopen hmem
    | persist durability reply => exact h.processPersist hopen hmem
    | rewrite replayFloor reply => exact h.processRewrite hopen hmem

lemma InBatch.Sound.foldl {batch : List WalLaneCommand}
    (h : state.Sound commands replies) (hmem : ∀ command ∈ batch, command ∈ commands) :
    (batch.foldl LaneWorker.processCommand state).Sound commands
      (replies ++ batch.map WalLaneCommand.reply) := by
  induction batch generalizing state replies with
  | nil => simpa using h
  | cons command batch ih =>
    rw [foldl_cons, map_cons, append_cons]
    exact ih (h.processCommand (hmem command mem_cons_self))
      fun later hlater => hmem later (mem_cons_of_mem _ hlater)

lemma Sound.processWalLaneBatch {batch : List WalLaneCommand}
    (h : Sound commands lane) (hreplies : lane.answeredReplies.Perm replies)
    (hmem : ∀ command ∈ batch, command ∈ commands) :
    Sound commands (lane.processWalLaneBatch batch) ∧
      (lane.processWalLaneBatch batch).answeredReplies.Perm
        (replies ++ batch.map WalLaneCommand.reply) := by
  have hstart : InBatch.Sound commands replies ⟨lane, [], .buffered⟩ :=
    ⟨h, by simp [Waiting], by simpa using hreplies⟩
  have hbatch := hstart.foldl hmem
  obtain ⟨hsound, hanswered, -⟩ := flushWalLaneBatch_spec hbatch.sound hbatch.waiting
  refine ⟨hsound, ?_⟩
  rw [LaneWorker.processWalLaneBatch, hanswered]
  exact hbatch.answered

lemma Sound.runWalLaneWorker
    {batches : List (List WalLaneCommand)} (h : Sound commands lane)
    (hreplies : lane.answeredReplies.Perm replies)
    (hmem : ∀ batch ∈ batches, ∀ command ∈ batch, command ∈ commands) :
    Sound commands (lane.runWalLaneWorker batches) ∧
      (lane.runWalLaneWorker batches).answeredReplies.Perm
        (replies ++ batches.flatten.map WalLaneCommand.reply) := by
  induction batches generalizing lane replies with
  | nil => exact ⟨h, by simpa [LaneWorker.runWalLaneWorker] using hreplies⟩
  | cons batch batches ih =>
    obtain ⟨hsound, hanswered⟩ := h.processWalLaneBatch hreplies (hmem batch mem_cons_self)
    have hrest := ih hsound hanswered fun later hlater => hmem later (mem_cons_of_mem _ hlater)
    rwa [append_assoc, ← map_append, ← flatten_cons] at hrest

lemma sound_start (disk : Disk) (answers : List Answer) : Sound commands (start disk answers) where
  justified := justified_nil
  isOpen := by simp [start]
  idle := fun h => absurd rfl h
  last := fun _ => Or.inl (by simp [Settled, start])
  confirmed := by simp [start]

/-! ## Group commit -/

/-- Whatever commands come in whatever batches, and whichever storage calls fail: every command is
answered exactly once; an append is answered well only after its frame was written, and, if it asks
for a persist, the file persisted with at least the rank it asked for; nothing is answered well after
the lane was closed; and the confirmed marker is only ever moved to a frame that was persisted.

**Proof sketch.** Every event is justified by the log before it. The pending appends have their
frames in the open file and ask for no more than the durability of the next persist, so that the
persist that answers them covers them; the level that the lane remembers is lowered by every append,
so that a persist is only skipped, and an old sequence only confirmed, when the last frame is
persisted. -/
theorem groupCommit (disk : Disk) (answers : List Answer) (batches : List (List WalLaneCommand))
    (hreplies : (batches.flatten.map WalLaneCommand.reply).Nodup) :
    ((start disk answers).runWalLaneWorker batches).answeredReplies.Perm
        (batches.flatten.map WalLaneCommand.reply) ∧
      (∀ sequence frame durability reply,
        .append sequence frame durability reply ∈ batches.flatten → ∀ before after,
        ((start disk answers).runWalLaneWorker batches).trace =
          before ++ .completed reply (.ok ()) :: after →
        ∃ file, [.wrote file frame, .appended file reply sequence durability] <+ before ∧
          (walDurabilityRequiresPersist durability → FramePersisted before file reply sequence frame
            durability (walDurabilityRank durability))) ∧
      (∀ before reply after, ((start disk answers).runWalLaneWorker batches).trace =
          before ++ .completed reply (.ok ()) :: after →
        ∀ message, .closed message ∉ before) ∧
      (∀ before sequence after, ((start disk answers).runWalLaneWorker batches).trace =
          before ++ .markerRenamed sequence :: after →
        SequencePersisted before sequence) ∧
      ∀ sequence, ((start disk answers).runWalLaneWorker batches).confirmedSequence =
          some sequence →
        SequencePersisted ((start disk answers).runWalLaneWorker batches).trace sequence := by
  have hmem : ∀ batch ∈ batches, ∀ command ∈ batch, command ∈ batches.flatten :=
    fun batch hbatch command hcommand => mem_flatten_of_mem hbatch hcommand
  obtain ⟨hsound, hanswered⟩ := (@sound_start batches.flatten disk answers).runWalLaneWorker
    (List.Perm.refl []) hmem
  refine ⟨by simpa using hanswered, ?_, ?_, ?_, hsound.confirmed⟩
  · intro sequence frame durability reply happend before after htrace
    have hunique : ∀ command ∈ batches.flatten, command.reply = reply →
        command = .append sequence frame durability reply :=
      fun command hcommand hreply => inj_on_of_nodup_map hreplies hcommand happend hreply
    obtain ⟨-, hpersist | hrewrite | ⟨sequence', frame', durability', hmem', hframe⟩⟩ :=
      hsound.justified before _ after htrace
    · obtain ⟨level, hlevel⟩ := hpersist
      cases hunique _ hlevel rfl
    · obtain ⟨replayFloor, hfloor⟩ := hrewrite
      cases hunique _ hfloor rfl
    · cases hunique _ hmem' rfl
      exact hframe
  · intro before reply after htrace
    exact (hsound.justified before _ after htrace).1
  · intro before sequence after htrace
    exact hsound.justified before _ after htrace

/-- A lane without a file. -/
def noFile : Disk := ⟨"trine.wal", [], none, none, none, none⟩

def mixedBatches : List (List WalLaneCommand) :=
  [[.append 1 [1, 1] .flush 0, .append 2 [2, 2] .syncAll 1, .persist .syncData 2],
    [.append 3 [3, 3] .buffered 3, .rewrite 1 4, .append 4 [4, 4] .syncAllStrict 5]]

/-- They are answered once each, also when a storage call fails on the way. -/
theorem groupCommit_mixedBatches :
    (mixedBatches.flatten.map WalLaneCommand.reply).Nodup ∧
      ((start noFile [⟨none, 0⟩, ⟨none, 0⟩, ⟨none, 0⟩, ⟨some (.io "no space left"), 0⟩]).runWalLaneWorker
        mixedBatches).answeredReplies.Perm [0, 1, 2, 3, 4, 5] :=
  ⟨by decide, (groupCommit noFile _ mixedBatches (by decide)).1⟩

/-- An append that asks for the weakest durability is answered although its frame was never
persisted: it asks for no persist. -/
theorem bufferedAppend_not_persisted :
    .completed 0 (.ok ()) ∈
        ((start noFile []).runWalLaneWorker [[.append 1 [1, 1] .buffered 0]]).trace ∧
      ∀ file level, .persisted file level ∉
        ((start noFile []).runWalLaneWorker [[.append 1 [1, 1] .buffered 0]]).trace := by
  have htrace : ((start noFile []).runWalLaneWorker [[.append 1 [1, 1] .buffered 0]]).trace =
      [.opened, .wrote 0 [1, 1], .appended 0 0 1 .buffered, .completed 0 (.ok ())] := by
    decide
  rw [htrace]
  simp

end LaneWorker

end TrineKv.Wal
