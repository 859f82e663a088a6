import TrineKv.Wal.GroupCommit
import TrineKv.Wal.LaneCrash

/-!
# Synced appends survive a rewrite

An append that asks for a full sync is answered after the file was persisted and the confirmed
marker moved, which syncs the directory. A rewrite replaces the file by a rename without a sync of
the directory. When sequences increase, every such append moves the marker and nothing acknowledged
is lost; an append with an older sequence does not move it, and is lost when the rename is undone.

## Main results

* `LaneWorker.syncedAppends_recovered`: synced appends survive.
* `LaneWorker.rewrite_loses_append`: one that does not.
-/

namespace TrineKv.Wal

open List Option Function
open UInt64 (le_of_lt le_refl le_trans)

open Fallible EventLog FrameLog

def InFile (frames : ℕ → List (WalBatch × ℕ)) (name : Option ℕ) (batch : WalBatch) : Prop :=
  ∃ index offset, name = some index ∧ (batch, offset) ∈ frames index

def Disk.FullySynced (disk : Disk) : Prop :=
  ∀ index file, disk.wal = some index → disk.files[index]? = some file →
    file.synced = file.bytes.length

/-- The lane's file is as durable as the level says: its bytes are synced, and for the strongest
levels the directory names it durably. -/
def Disk.Backs (disk : Disk) (level : DurabilityMode) : Prop :=
  (requiresFileSync level → disk.FullySynced) ∧
    (requiresParentDirSyncAfterRename level → disk.durableWal = disk.wal)

/-- The files of a lane that is opened consist of whole frames and are synced, as the directory is,
and the lane's file reaches the marker unless the floor does. -/
structure Disk.Opened (floor : UInt64) (entries : List (WalBatch × ℕ)) (disk : Disk) : Prop where
  written : ∀ file ∈ disk.files, Written encodesFrame entries file.bytes
  synced : ∀ file ∈ disk.files, file.synced = file.bytes.length
  present : ∀ index, disk.wal = some index → ∃ file, disk.files[index]? = some file
  durableWal : disk.durableWal = disk.wal
  durableMarker : disk.durableMarker = disk.marker
  marker : ∀ marker, disk.marker = some marker → marker ≤ floor ∨
    disk.wal.isSome ∧ ∃ entry ∈ entries, marker ≤ entry.1.sequence

/-- The start of a rewrite, and the answer to a command. -/
def Event.outward : Event → Bool
  | .rewriting _ | .completed .. => true
  | _ => false

variable {commands : List WalLaneCommand} {floor : UInt64} {origin : Disk}

namespace LaneWorker

variable {frames frames' : ℕ → List (WalBatch × ℕ)}
  {lane lane' : LaneWorker} {event : Event} {batch : WalBatch}
  {sequence replayFloor : UInt64} {durability : DurabilityMode} {pending : List PendingWalAppend}
  {command : WalLaneCommand} {frame : List UInt8} {state : InBatch} {reply : ℕ}

/-! ## The invariant -/

/-- At every moment of the trace the acknowledged appends were kept, and they are now. -/
structure Guarded (commands : List WalLaneCommand) (floor : UInt64) (origin : Disk)
    (lane : LaneWorker) (frames : ℕ → List (WalBatch × ℕ)) : Prop where
  replayed : lane.disk = origin.replay lane.trace
  always : Always (fun log => ∃ frames, Kept commands floor log (origin.replay log) frames) lane.trace
  kept : Kept commands floor lane.trace lane.disk frames

/-- The lane's file consists of whole frames; it or a floor reaches the last append; and nothing
beyond the last append is confirmed. -/
structure Based (commands : List WalLaneCommand) (floor : UInt64) (origin : Disk)
    (lane : LaneWorker) (frames : ℕ → List (WalBatch × ℕ)) : Prop where
  guarded : Guarded commands floor origin lane frames
  file : ∀ index, lane.disk.wal = some index → ∃ file, lane.disk.files[index]? = some file ∧
    Written encodesFrame (frames index) file.bytes
  last : ∀ sequence, lane.lastAppendedSequence = some sequence →
    BelowFloors floor lane.trace sequence ∨
      ∃ batch, sequence ≤ batch.sequence ∧ InFile frames lane.disk.wal batch
  order : ∀ confirmed, lane.confirmedSequence = some confirmed →
    ∃ last, lane.lastAppendedSequence = some last ∧ confirmed ≤ last

/-- The invariant of an open lane: the file that is open has the lane's name, and it is synced when
the level of the lane says so. -/
structure Ready (commands : List WalLaneCommand) (floor : UInt64) (origin : Disk)
    (lane : LaneWorker) (frames : ℕ → List (WalBatch × ℕ)) : Prop where
  based : Based commands floor origin lane frames
  writer : ∀ index, lane.writer = some index → lane.disk.wal = some index
  level : ∀ level, lane.persistedLevel = some level → requiresFileSync level →
    lane.disk.FullySynced

lemma Guarded.step
    (h : Guarded commands floor origin lane frames) (hdisk : lane'.disk = lane.disk.apply event)
    (htrace : lane'.trace = lane.trace ++ [event])
    (hkept : Kept commands floor (lane.trace ++ [event]) (lane.disk.apply event) frames') :
    Guarded commands floor origin lane' frames' := by
  have hreplay : origin.replay (lane.trace ++ [event]) = lane.disk.apply event := by
    rw [Disk.replay, foldl_append, foldl_cons, foldl_nil, ← Disk.replay,
      ← h.replayed]
  refine ⟨?_, ?_, ?_⟩
  · rw [htrace, hdisk, hreplay]
  · rw [htrace, always_concat]
    exact ⟨h.always, frames', hreplay ▸ hkept⟩
  · rw [htrace, hdisk]
    exact hkept

lemma Guarded.congr (h : Guarded commands floor origin lane frames)
    (hdisk : lane'.disk = lane.disk) (htrace : lane'.trace = lane.trace) :
    Guarded commands floor origin lane' frames := by
  refine ⟨?_, ?_, ?_⟩
  · rw [htrace, hdisk, h.replayed]
  · rw [htrace]
    exact h.always
  · rw [htrace, hdisk]
    exact h.kept

lemma Based.congr (h : Based commands floor origin lane frames)
    (hdisk : lane'.disk = lane.disk) (htrace : lane'.trace = lane.trace)
    (hlast : lane'.lastAppendedSequence = lane.lastAppendedSequence)
    (hconfirmed : lane'.confirmedSequence = lane.confirmedSequence) :
    Based commands floor origin lane' frames := by
  refine ⟨h.guarded.congr hdisk htrace, ?_, ?_, ?_⟩
  · rw [hdisk]
    exact h.file
  · rw [hdisk, htrace, hlast]
    exact h.last
  · rw [hlast, hconfirmed]
    exact h.order

lemma Based.step
    (h : Based commands floor origin lane frames) (hdisk : lane'.disk = lane.disk.apply event)
    (htrace : lane'.trace = lane.trace ++ [event])
    (hkept : Kept commands floor (lane.trace ++ [event]) (lane.disk.apply event) frames)
    (hfiles : ∀ (index : ℕ) (file : File), lane.disk.files[index]? = some file →
      ∃ file' : File, (lane.disk.apply event).files[index]? = some file' ∧
        file'.bytes = file.bytes)
    (hwal : (lane.disk.apply event).wal = lane.disk.wal)
    (hlast : lane'.lastAppendedSequence = lane.lastAppendedSequence)
    (hconfirmed : lane'.confirmedSequence = lane.confirmedSequence) :
    Based commands floor origin lane' frames := by
  refine ⟨h.guarded.step hdisk htrace hkept, ?_, ?_, ?_⟩
  · intro index hindex
    rw [hdisk, hwal] at hindex
    obtain ⟨file, hfile, hwritten⟩ := h.file index hindex
    obtain ⟨file', hfile', hbytes⟩ := hfiles index file hfile
    exact ⟨file', hdisk ▸ hfile', hbytes ▸ hwritten⟩
  · intro sequence hsequence
    rw [hdisk, hwal, htrace]
    exact (h.last sequence (hlast ▸ hsequence)).imp (fun hbelow => hbelow.concat event) id
  · rw [hlast, hconfirmed]
    exact h.order

lemma Based.covers (h : Based commands floor origin lane frames)
    (hsynced : lane.disk.FullySynced) (hin : InFile frames lane.disk.wal batch) :
    Covers lane.disk frames lane.disk.wal batch := by
  obtain ⟨index, offset, hname, hmem⟩ := hin
  obtain ⟨file, hfile, hwritten⟩ := h.file index hname
  refine ⟨index, file, offset, hname, hfile, hmem, ?_⟩
  rw [hsynced index file hname hfile]
  exact hwritten.snd_le hmem

/-! ## Persisting and confirming -/

lemma Ready.persisted (h : Ready commands floor origin lane frames) {file : ℕ}
    (hwriter : lane.writer = some file) (answers : List Answer) (durability : DurabilityMode) :
    Ready commands floor origin
        { { lane with answers := answers }.record (.persisted file durability) with
          persistedLevel := some durability } frames ∧
      (requiresFileSync durability →
        (lane.disk.apply (.persisted file durability)).FullySynced) := by
  have hwal := h.writer file hwriter
  have hsynced : requiresFileSync durability →
      (lane.disk.apply (.persisted file durability)).FullySynced := by
    intro hsync index kept hindex hkept
    rw [Disk.wal_persisted, hwal] at hindex
    obtain rfl := Option.some.inj hindex
    simp only [Disk.apply, hsync, if_true, List.getElem?_modify] at hkept
    obtain ⟨old, -, rfl⟩ := map_eq_some_iff.mp hkept
    rfl
  refine ⟨⟨?_, ?_, ?_⟩, hsynced⟩
  · refine h.based.step rfl rfl (h.based.guarded.kept.persisted file durability) ?_
      (Disk.wal_persisted _ _ _) rfl rfl
    intro index kept hkept
    unfold Disk.apply
    dsimp only
    split
    · rw [List.getElem?_modify, hkept]
      refine ⟨_, rfl, ?_⟩
      split <;> rfl
    · exact ⟨kept, hkept, rfl⟩
  · intro index hindex
    exact (Disk.wal_persisted _ _ _).trans (h.writer index hindex)
  · intro level hlevel hsync
    obtain rfl := Option.some.inj hlevel
    exact hsynced hsync

lemma Ready.step (h : Ready commands floor origin lane frames)
    (answers : List Answer)
    (hkept : Kept commands floor (lane.trace ++ [event]) (lane.disk.apply event) frames)
    (hfiles : (lane.disk.apply event).files = lane.disk.files)
    (hwal : (lane.disk.apply event).wal = lane.disk.wal) :
    Ready commands floor origin ({ lane with answers := answers }.record event) frames := by
  refine ⟨h.based.step rfl rfl hkept ?_ hwal rfl rfl, fun index hindex => ?_,
    fun level hlevel hsync index file hindex hfile => ?_⟩
  · intro index file hfile
    exact ⟨file, hfiles ▸ hfile, rfl⟩
  · exact hwal.trans (h.writer index hindex)
  · exact h.level level hlevel hsync index file (hwal.symm.trans hindex) (hfiles ▸ hfile)

/-- What persisting and confirming leave as it is. -/
structure Unmoved (lane lane' : LaneWorker) : Prop where
  wal : lane'.disk.wal = lane.disk.wal
  lastAppendedSequence : lane'.lastAppendedSequence = lane.lastAppendedSequence
  writer : lane'.writer = lane.writer
  terminalError : lane'.terminalError = lane.terminalError

lemma access_ready (h : Ready commands floor origin lane frames) :
    Ends (fun lane' => ∃ answers, lane' = { lane with answers := answers })
      (fun lane' => Guarded commands floor origin lane' frames) lane.access := by
  refine (request_ends lane none fun _ => none).imp (fun _ h => h) ?_
  rintro lane' ⟨answers, reached, rfl⟩
  exact h.based.guarded.congr rfl rfl

lemma perform_guarded
    (h : Guarded commands floor origin lane frames)
    (hkept : ∃ frames', Kept commands floor (lane.trace ++ [event]) (lane.disk.apply event) frames') :
    Ends (fun lane' => ∃ answers, lane' = { lane with answers := answers }.record event)
      (fun lane' => ∃ frames', Guarded commands floor origin lane' frames') (lane.perform event) := by
  obtain ⟨frames', hkept⟩ := hkept
  refine (request_ends lane (some event) _).imp (fun _ h => h) ?_
  rintro lane' ⟨answers, reached, rfl⟩
  split
  · exact ⟨frames, h.congr rfl rfl⟩
  · exact ⟨frames', h.step rfl rfl hkept⟩

lemma writeConfirmedWalMarker_ready
    (h : Ready commands floor origin lane frames)
    (hreaches : requiresParentDirSyncAfterRename durability →
      Reaches floor lane.trace lane.disk frames lane.disk.wal (some sequence)) :
    Ends (fun lane' => Ready commands floor origin lane' frames ∧ Unmoved lane lane' ∧
        lane'.disk.files = lane.disk.files ∧
        (requiresParentDirSyncAfterRename durability → lane'.disk.durableWal = lane'.disk.wal))
      (fun lane' => ∃ frames', Guarded commands floor origin lane' frames')
      (lane.writeConfirmedWalMarker sequence durability) := by
  refine ((access_ready h).imp (fun _ h => h) fun _ h => ⟨frames, h⟩).andThen ?_
  rintro lane₁ ⟨answers₁, rfl⟩
  have hkept : Kept commands floor (lane.trace ++ [.markerRenamed sequence])
      (lane.disk.apply (.markerRenamed sequence)) frames :=
    h.based.guarded.kept.concat_same (by simp) rfl rfl rfl rfl
  have hguarded : Guarded commands floor origin { lane with answers := answers₁ } frames :=
    h.based.guarded.congr rfl rfl
  refine (perform_guarded hguarded ⟨frames, hkept⟩).andThen ?_
  rintro lane₂ ⟨answers₂, rfl⟩
  have hmarked := h.step answers₂ hkept rfl rfl
  split
  case isFalse hnone =>
    exact ⟨hmarked, ⟨rfl, rfl, rfl, rfl⟩, rfl, fun hsync => absurd hsync hnone⟩
  case isTrue hsync =>
    have hsynced : Kept commands floor (lane.trace ++ [.markerRenamed sequence] ++ [.directorySynced])
        ((lane.disk.apply (.markerRenamed sequence)).apply .directorySynced) frames := by
      refine hkept.directorySynced ?_
      intro reached hreached
      exact (hreaches hsync reached hreached).imp (fun hbelow => hbelow.concat _) id
    refine (perform_guarded hmarked.based.guarded ⟨frames, hsynced⟩).imp ?_ fun _ h => h
    rintro lane₃ ⟨answers₃, rfl⟩
    exact ⟨hmarked.step answers₃ hsynced rfl rfl, ⟨rfl, rfl, rfl, rfl⟩, rfl, fun _ => rfl⟩

lemma confirm_ready (h : Ready commands floor origin lane frames)
    {sequence : Option UInt64}
    (hlast : ∀ s, sequence = some s → ∃ last, lane.lastAppendedSequence = some last ∧ s ≤ last)
    (hreaches : requiresParentDirSyncAfterRename durability →
      Reaches floor lane.trace lane.disk frames lane.disk.wal sequence) :
    Ends (fun lane' => Ready commands floor origin lane' frames ∧ Unmoved lane lane' ∧
        lane'.disk.files = lane.disk.files ∧
        (requiresParentDirSyncAfterRename durability →
          (∃ s, sequence = some s ∧ ∀ confirmed, lane.confirmedSequence = some confirmed →
            confirmed < s) →
          lane'.disk.durableWal = lane'.disk.wal))
      (fun lane' => ∃ frames', Guarded commands floor origin lane' frames')
      (lane.confirm sequence durability) := by
  unfold confirm
  split
  · exact ⟨h, ⟨rfl, rfl, rfl, rfl⟩, rfl, fun _ ⟨s, hs, _⟩ => by cases hs⟩
  case h_2 sequence =>
    split
    case isFalse hold =>
      refine ⟨h, ⟨rfl, rfl, rfl, rfl⟩, rfl, fun _ ⟨s, hs, hnew⟩ => absurd ?_ hold⟩
      obtain rfl := Option.some.inj hs
      cases hconfirmed : lane.confirmedSequence with
      | none => rfl
      | some confirmed => exact decide_eq_true (hnew confirmed hconfirmed)
    case isTrue =>
      refine (writeConfirmedWalMarker_ready h hreaches).andThen ?_
      rintro lane' ⟨hready, hunmoved, hfiles, hdurable⟩
      refine ⟨⟨⟨hready.based.guarded.congr rfl rfl, hready.based.file, hready.based.last, ?_⟩,
        hready.writer, hready.level⟩, ⟨hunmoved.wal, hunmoved.lastAppendedSequence,
          hunmoved.writer, hunmoved.terminalError⟩, hfiles, fun hsync _ => hdurable hsync⟩
      intro confirmed hconfirmed
      obtain rfl := Option.some.inj hconfirmed
      obtain ⟨last, hlast, hle⟩ := hlast sequence rfl
      exact ⟨last, hunmoved.lastAppendedSequence.trans hlast, hle⟩

lemma requiresParentDirSync_iff :
    requiresParentDirSyncAfterRename durability = true ↔
      walDurabilityRank .syncAll ≤ walDurabilityRank durability := by
  cases durability <;> decide

lemma requiresFileSync_of_rank_le {level : DurabilityMode}
    (h : walDurabilityRank durability ≤ walDurabilityRank level)
    (hsync : requiresFileSync durability = true) : requiresFileSync level = true := by
  revert h hsync
  cases durability <;> cases level <;> decide

lemma requiresFileSync_of_parentDir
    (h : requiresParentDirSyncAfterRename durability = true) :
    requiresFileSync durability = true := by
  revert h
  cases durability <;> decide

/-- The waiting appends are in the lane's file and above what is confirmed, and none asks for more
than `durability`. -/
def Queued (commands : List WalLaneCommand) (lane : LaneWorker)
    (frames : ℕ → List (WalBatch × ℕ)) (pending : List PendingWalAppend)
    (durability : DurabilityMode) : Prop :=
  ∀ append ∈ pending, ∃ batch frame asked,
    .append append.sequence frame asked append.reply ∈ commands ∧ encodesFrame batch frame ∧
    batch.sequence = append.sequence ∧ walDurabilityRank asked ≤ walDurabilityRank durability ∧
    InFile frames lane.disk.wal batch ∧
    (∃ last, lane.lastAppendedSequence = some last ∧ append.sequence ≤ last) ∧
    (∀ confirmed, lane.confirmedSequence = some confirmed → confirmed < append.sequence) ∧
    ∃ index, lane.writer = some index

lemma Queued.reaches (h : Queued commands lane frames pending durability)
    (hbased : Based commands floor origin lane' frames) (hwal : lane'.disk.wal = lane.disk.wal)
    (hlast : lane'.lastAppendedSequence = lane.lastAppendedSequence)
    (hsynced : lane'.disk.FullySynced) :
    Reaches floor lane'.trace lane'.disk frames lane'.disk.wal (lane.confirmTarget pending) := by
  intro sequence hsequence
  rcases confirmTarget_cases hsequence with ⟨append, happend, rfl⟩ | ⟨-, hsequence⟩
  · obtain ⟨batch, -, -, -, -, hbatch, -, hin, -⟩ := h append happend
    exact .inr ⟨batch, hbatch ▸ le_refl _, hbased.covers hsynced (hwal ▸ hin)⟩
  · rcases hbased.last sequence (hlast.trans hsequence) with hbelow | ⟨batch, hle, hin⟩
    · exact .inl hbelow
    · exact .inr ⟨batch, hle, hbased.covers hsynced hin⟩

lemma Queued.le_last (h : Queued commands lane frames pending durability)
    (hsequence : lane.confirmTarget pending = some sequence) :
    ∃ last, lane.lastAppendedSequence = some last ∧ sequence ≤ last := by
  rcases confirmTarget_cases hsequence with ⟨append, happend, rfl⟩ | ⟨-, hlast⟩
  · obtain ⟨-, -, -, -, -, -, -, -, hlast, -⟩ := h append happend
    exact hlast
  · exact ⟨sequence, hlast, le_refl _⟩

lemma Queued.exists_confirmTarget (h : Queued commands lane frames pending durability)
    (hne : pending ≠ []) :
    ∃ s, lane.confirmTarget pending = some s ∧
      ∀ confirmed, lane.confirmedSequence = some confirmed → confirmed < s := by
  obtain ⟨s, hs⟩ : ∃ s, lane.confirmTarget pending = some s := by
    obtain ⟨greatest, hgreatest⟩ := ne_none_iff_exists'.mp
      (mt List.max?_eq_none_iff.mp (mt map_eq_nil_iff.mp hne) :
        (pending.map PendingWalAppend.sequence).max? ≠ none)
    exact ⟨greatest, by simp [confirmTarget, hgreatest]⟩
  refine ⟨s, hs, ?_⟩
  rcases confirmTarget_cases hs with ⟨append, happend, rfl⟩ | ⟨hnil, -⟩
  · obtain ⟨-, -, -, -, -, -, -, -, -, hconfirmed, -⟩ := h append happend
    exact hconfirmed
  · exact absurd hnil hne

/-- A persist at one of the strongest durabilities with an append pending leaves the lane's file
synced and durably named.

**Proof sketch.** The file is persisted, or nothing is pending and the level of the lane says that it
is synced. The append is above what is confirmed, so the marker moves, and the directory is synced. -/
lemma persistWalLaneBatch_ready (h : Ready commands floor origin lane frames)
    (hqueued : Queued commands lane frames pending durability) :
    Ends (fun lane' => Ready commands floor origin lane' frames ∧ Unmoved lane lane' ∧
        (lane.writer = none → lane'.persistedLevel = lane.persistedLevel) ∧
        (pending ≠ [] → requiresParentDirSyncAfterRename durability →
          lane'.disk.durableWal = lane'.disk.wal ∧ lane'.disk.FullySynced))
      (fun lane' => ∃ frames', Guarded commands floor origin lane' frames')
      (lane.persistWalLaneBatch durability (!pending.isEmpty) (lane.confirmTarget pending)) := by
  unfold persistWalLaneBatch
  split
  case h_1 hwriter =>
    refine ⟨h, ⟨rfl, rfl, rfl, rfl⟩, fun _ => rfl, fun hne => ?_⟩
    obtain ⟨append, happend⟩ := exists_mem_of_ne_nil pending hne
    obtain ⟨-, -, -, -, -, -, -, -, -, -, index, hindex⟩ := hqueued append happend
    rw [hwriter] at hindex
    cases hindex
  case h_2 file hwriter =>
    have hopened : lane.writer ≠ none := by simp [hwriter]
    split
    case isTrue hnone =>
      refine ⟨h, ⟨rfl, rfl, rfl, rfl⟩, fun _ => rfl, fun _ hsync => ?_⟩
      rw [Bool.not_eq_true', ← Bool.not_eq_true, walDurabilityRequiresPersist_iff] at hnone
      have hrank : 3 ≤ walDurabilityRank durability := requiresParentDirSync_iff.mp hsync
      omega
    case isFalse hsome =>
      refine Ends.andThen (m := fun lane' => Ready commands floor origin lane' frames ∧
        Unmoved lane lane' ∧ lane'.confirmedSequence = lane.confirmedSequence ∧
        (requiresFileSync durability → lane'.disk.FullySynced)) ?_ ?_
      · split
        case isTrue =>
          refine Ends.andThen (m := fun lane' => ∃ answers,
            lane' = { lane with answers := answers }.record (.persisted file durability)) ?_ ?_
          · refine (request_ends lane _ _).imp (fun _ h => h) ?_
            rintro lane' ⟨answers, reached, rfl⟩
            exact ⟨frames, h.based.guarded.congr rfl rfl⟩
          · rintro lane' ⟨answers, rfl⟩
            obtain ⟨hready, hsynced⟩ := h.persisted hwriter answers durability
            exact ⟨hready, ⟨Disk.wal_persisted _ _ _, rfl, rfl, rfl⟩, rfl, hsynced⟩
        case isFalse hskip =>
          refine ⟨h, ⟨rfl, rfl, rfl, rfl⟩, rfl, fun hsync => ?_⟩
          rw [Bool.or_eq_true, not_or] at hskip
          cases hlevel : lane.persistedLevel with
          | none =>
            rw [hlevel] at hskip
            exact absurd rfl hskip.2
          | some level =>
            rw [hlevel] at hskip
            have hrank : walDurabilityRank durability ≤ walDurabilityRank level :=
              not_lt.mp fun hlt => hskip.2 (decide_eq_true hlt)
            exact h.level level hlevel (requiresFileSync_of_rank_le hrank hsync)
      · rintro lane₁ ⟨hready, hunmoved, hconfirmed, hsynced⟩
        refine (confirm_ready hready ?_ ?_).imp ?_ fun _ h => h
        · intro s hs
          obtain ⟨last, hlast, hle⟩ := hqueued.le_last hs
          exact ⟨last, hunmoved.lastAppendedSequence.trans hlast, hle⟩
        · intro hsync
          exact hqueued.reaches hready.based hunmoved.wal hunmoved.lastAppendedSequence
            (hsynced (requiresFileSync_of_parentDir hsync))
        · rintro lane₂ ⟨hready₂, hunmoved₂, hfiles, hdurable⟩
          refine ⟨hready₂, ⟨hunmoved₂.wal.trans hunmoved.wal,
            hunmoved₂.lastAppendedSequence.trans hunmoved.lastAppendedSequence,
            hunmoved₂.writer.trans hunmoved.writer,
            hunmoved₂.terminalError.trans hunmoved.terminalError⟩,
            fun hnone => absurd hnone hopened, fun hne hsync => ⟨?_, ?_⟩⟩
          · obtain ⟨s, hs, hnew⟩ := hqueued.exists_confirmTarget hne
            exact hdurable hsync ⟨s, hs, hconfirmed ▸ hnew⟩
          · intro index kept hindex hkept
            exact hsynced (requiresFileSync_of_parentDir hsync) index kept
              (hunmoved₂.wal ▸ hindex) (hfiles ▸ hkept)

/-! ## Answering -/

lemma Guarded.close (h : Guarded commands floor origin lane frames)
    (message : String) : Guarded commands floor origin (lane.close message) frames :=
  (h.congr rfl rfl).step rfl rfl (h.kept.concat_same (by simp) rfl rfl rfl rfl)

lemma Guarded.complete_error (h : Guarded commands floor origin lane frames)
    (reply : ℕ) (error : Error) :
    Guarded commands floor origin (lane.complete reply (.error error)) frames :=
  h.step rfl rfl (h.kept.concat_same (by simp) rfl rfl rfl rfl)

/-- A lane that is closed: what is acknowledged is kept, and the lane claims nothing. -/
structure Shut (commands : List WalLaneCommand) (floor : UInt64) (origin : Disk)
    (lane : LaneWorker) : Prop where
  guarded : ∃ frames, Guarded commands floor origin lane frames
  terminalError : lane.terminalError ≠ none
  writer : lane.writer = none
  persistedLevel : lane.persistedLevel = none

lemma shut_close (h : Guarded commands floor origin lane frames)
    (message : String) : Shut commands floor origin (lane.close message) :=
  ⟨⟨frames, h.close message⟩, some_ne_none _, rfl, rfl⟩

lemma Shut.complete_error (h : Shut commands floor origin lane) (reply : ℕ)
    (error : Error) : Shut commands floor origin (lane.complete reply (.error error)) := by
  obtain ⟨frames, hguarded⟩ := h.guarded
  exact ⟨⟨frames, hguarded.complete_error reply error⟩, h.terminalError, h.writer, h.persistedLevel⟩

lemma Shut.completeAll_error (h : Shut commands floor origin lane)
    (pending : List PendingWalAppend) (error : Error) :
    Shut commands floor origin (lane.completeAll pending (.error error)) := by
  induction pending generalizing lane with
  | nil => exact h
  | cons append pending ih => exact ih (h.complete_error append.reply error)

lemma eq_of_reply_eq (hreplies : (commands.map WalLaneCommand.reply).Nodup)
    {command' : WalLaneCommand} (h : command ∈ commands) (h' : command' ∈ commands)
    (hreply : command.reply = command'.reply) : command = command' :=
  inj_on_of_nodup_map hreplies h h' hreply

lemma Ready.complete_other (h : Ready commands floor origin lane frames)
    (hreplies : (commands.map WalLaneCommand.reply).Nodup)
    (hmem : command ∈ commands)
    (hother : ∀ sequence frame durability reply, command ≠ .append sequence frame durability reply) :
    Ready commands floor origin (lane.complete command.reply (.ok ())) frames := by
  refine h.step lane.answers (h.based.guarded.kept.completed ?_) rfl rfl
  rintro batch ⟨frame, durability, happend, -⟩ -
  exact absurd (eq_of_reply_eq hreplies hmem happend rfl) (hother _ _ _ _)

lemma Ready.completeAll_ok (h : Ready commands floor origin lane frames)
    (hreplies : (commands.map WalLaneCommand.reply).Nodup)
    (hpending : ∀ append ∈ pending, ∃ batch frame asked,
      .append append.sequence frame asked append.reply ∈ commands ∧ encodesFrame batch frame ∧
      batch.sequence = append.sequence ∧ walDurabilityRank asked ≤ walDurabilityRank durability ∧
      InFile frames lane.disk.wal batch)
    (hdurable : pending ≠ [] → requiresParentDirSyncAfterRename durability →
      lane.disk.durableWal = lane.disk.wal ∧ lane.disk.FullySynced) :
    Ready commands floor origin (lane.completeAll pending (.ok ())) frames := by
  induction pending generalizing lane with
  | nil => exact h
  | cons append pending ih =>
    have hnext : Ready commands floor origin (lane.complete append.reply (.ok ())) frames := by
      refine h.step lane.answers (h.based.guarded.kept.completed ?_) rfl rfl
      rintro batch' ⟨frame', asked', hmem', hencodes', hrank'⟩ habove
      obtain ⟨batch, frame, asked, hmem, hencodes, hsequence, hasked, hin⟩ :=
        hpending append mem_cons_self
      obtain ⟨hsame, rfl, rfl, -⟩ :=
        WalLaneCommand.append.inj (eq_of_reply_eq hreplies hmem' hmem rfl)
      have hpos : 0 < batch'.sequence :=
        UInt64.lt_of_le_of_lt (UInt64.le_iff_toNat_le.mpr (Nat.zero_le _)) habove.1
      obtain rfl : batch' = batch :=
        encodesFrame_injective hencodes' hencodes hpos (hsequence.trans hsame.symm ▸ hpos)
      obtain ⟨hname, hsynced⟩ := hdurable (cons_ne_nil _ _)
        (requiresParentDirSync_iff.mpr (hrank'.trans hasked))
      exact ⟨hname, h.based.covers hsynced hin⟩
    exact ih hnext (fun later hlater => hpending later (mem_cons_of_mem _ hlater))
      fun _ => hdurable (cons_ne_nil _ _)

lemma unmoved_completeAll (lane : LaneWorker) (pending : List PendingWalAppend)
    (result : Except Error Unit) : Unmoved lane (lane.completeAll pending result) := by
  induction pending generalizing lane with
  | nil => exact ⟨rfl, rfl, rfl, rfl⟩
  | cons append pending ih =>
    have hrest := ih (lane.complete append.reply result)
    exact ⟨hrest.wal, hrest.lastAppendedSequence, hrest.writer, hrest.terminalError⟩

lemma persistedLevel_completeAll (lane : LaneWorker) (pending : List PendingWalAppend)
    (result : Except Error Unit) :
    (lane.completeAll pending result).persistedLevel = lane.persistedLevel := by
  induction pending generalizing lane with
  | nil => rfl
  | cons append pending ih => exact ih (lane.complete append.reply result)

/-- Flushing a batch keeps what is acknowledged, whether it succeeds or not. -/
lemma flushWalLaneBatch_ready (h : Ready commands floor origin lane frames)
    (hreplies : (commands.map WalLaneCommand.reply).Nodup)
    (hqueued : Queued commands lane frames pending durability) :
    Ends (fun lane' => Ready commands floor origin lane' frames ∧ Unmoved lane lane' ∧
        (lane.writer = none → lane'.persistedLevel = lane.persistedLevel))
      (Shut commands floor origin) (lane.flushWalLaneBatch durability pending) := by
  have hends := persistWalLaneBatch_ready h hqueued
  unfold flushWalLaneBatch
  dsimp only
  generalize lane.persistWalLaneBatch durability (!pending.isEmpty) (lane.confirmTarget pending) =
    outcome at hends
  obtain ⟨lane', result⟩ := outcome
  cases result with
  | ok _ =>
    obtain ⟨hready, hunmoved, hlevel, hdurable⟩ := hends
    have hsame := unmoved_completeAll lane' pending (.ok ())
    refine ⟨hready.completeAll_ok hreplies ?_ hdurable, ⟨hsame.wal.trans hunmoved.wal,
      hsame.lastAppendedSequence.trans hunmoved.lastAppendedSequence,
      hsame.writer.trans hunmoved.writer, hsame.terminalError.trans hunmoved.terminalError⟩,
      fun hnone => (persistedLevel_completeAll _ _ _).trans (hlevel hnone)⟩
    intro append happend
    obtain ⟨batch, frame, asked, hmem, hencodes, hsequence, hasked, hin, -⟩ := hqueued append happend
    exact ⟨batch, frame, asked, hmem, hencodes, hsequence, hasked, hunmoved.wal ▸ hin⟩
  | error error =>
    obtain ⟨frames', hguarded⟩ := hends
    have hresult : ∃ error', duplicateWalLaneResult (.error error) = .error error' := by
      cases error <;> exact ⟨_, rfl⟩
    obtain ⟨error', hresult⟩ := hresult
    rw [ends_error, hresult]
    exact (shut_close hguarded _).completeAll_error pending error'

/-! ## Appending -/

/-- What a storage call leaves as it is. -/
structure SameCounters (lane lane' : LaneWorker) : Prop where
  lastAppendedSequence : lane'.lastAppendedSequence = lane.lastAppendedSequence
  confirmedSequence : lane'.confirmedSequence = lane.confirmedSequence
  terminalError : lane'.terminalError = lane.terminalError

lemma Based.opened (h : Based commands floor origin lane frames)
    (answers : List Answer) :
    ∃ frames', Based commands floor origin
        { { lane with answers := answers }.record .opened with
          writer := (lane.disk.apply .opened).wal } frames' ∧
      (∀ batch, InFile frames lane.disk.wal batch →
        InFile frames' (lane.disk.apply .opened).wal batch) := by
  obtain ⟨frames', hkept, hsome, hnone⟩ := h.guarded.kept.opened
  have hguarded : Guarded commands floor origin
      { { lane with answers := answers }.record .opened with
        writer := (lane.disk.apply .opened).wal } frames' := h.guarded.step rfl rfl hkept
  refine ⟨frames', ?_⟩
  cases hwal : lane.disk.wal with
  | some index =>
    have hsame : lane.disk.apply .opened = lane.disk := by simp [Disk.apply, hwal]
    obtain rfl := hsome (by simp [hwal])
    have hin : ∀ batch, InFile frames' lane.disk.wal batch →
        InFile frames' (lane.disk.apply .opened).wal batch := by
      rw [hsame]
      exact fun _ hin => hin
    refine ⟨⟨hguarded, ?_, ?_, h.order⟩, hwal ▸ hin⟩
    · intro index' hindex'
      change (lane.disk.apply .opened).wal = some index' at hindex'
      change ∃ file, (lane.disk.apply .opened).files[index']? = some file ∧ _
      rw [hsame] at hindex' ⊢
      exact h.file index' hindex'
    · intro sequence hsequence
      rcases h.last sequence hsequence with hbelow | ⟨batch, hle, hfile⟩
      · exact .inl (hbelow.concat _)
      · exact .inr ⟨batch, hle, hin batch hfile⟩
  | none =>
    obtain rfl := hnone hwal
    have happly : lane.disk.apply .opened =
        { lane.disk with files := lane.disk.files ++ [⟨[], 0⟩]
                         wal := some lane.disk.files.length } := by
      simp [Disk.apply, hwal]
    have habsent : ∀ batch, ¬InFile frames none batch := by
      rintro batch ⟨index, offset, hname, -⟩
      cases hname
    refine ⟨⟨hguarded, ?_, ?_, h.order⟩, fun batch hin => absurd hin (habsent batch)⟩
    · intro index' hindex'
      change (lane.disk.apply .opened).wal = some index' at hindex'
      change ∃ file, (lane.disk.apply .opened).files[index']? = some file ∧ _
      rw [happly] at hindex' ⊢
      obtain rfl := Option.some.inj hindex'
      exact ⟨⟨[], 0⟩, by simp, by rw [update_self]; exact .nil⟩
    · intro sequence hsequence
      rcases h.last sequence hsequence with hbelow | ⟨batch, -, hfile⟩
      · exact .inl (hbelow.concat _)
      · exact absurd (hwal ▸ hfile) (habsent batch)

lemma openAppend_based (h : Based commands floor origin lane frames) :
    Ends (fun lane' => ∃ frames' answers,
        lane' = { { lane with answers := answers }.record .opened with
          writer := (lane.disk.apply .opened).wal } ∧
        Based commands floor origin lane' frames' ∧
        ∀ batch, InFile frames lane.disk.wal batch → InFile frames' lane'.disk.wal batch)
      (fun lane' => ∃ frames', Guarded commands floor origin lane' frames') lane.openAppend := by
  obtain ⟨frames', hkept, -⟩ := h.guarded.kept.opened
  refine (perform_guarded h.guarded ⟨frames', hkept⟩).andThen ?_
  rintro lane₁ ⟨answers, rfl⟩
  obtain ⟨frames₁, hbased, hin⟩ := h.opened answers
  exact ⟨frames₁, answers, rfl, hbased, hin⟩

lemma Based.wrote (h : Based commands floor origin lane frames) {index : ℕ}
    (hwal : lane.disk.wal = some index)
    (hencodes : encodesFrame batch frame) (answers : List Answer) :
    ∃ frames', Based commands floor origin
        ({ lane with answers := answers }.record (.wrote index frame)) frames' ∧
      InFile frames' lane.disk.wal batch ∧
      ∀ batch, InFile frames lane.disk.wal batch → InFile frames' lane.disk.wal batch := by
  obtain ⟨file, hfile, hwritten⟩ := h.file index hwal
  have hwritten' := hwritten.snoc hencodes
  set more := [(batch, (file.bytes ++ frame).length)] with hmore
  have hkept := h.guarded.kept.wrote index frame more (by
    intro file' hfile'
    obtain rfl := Option.some.inj (hfile'.symm.trans hfile)
    exact intact_written hwritten')
  have hin : ∀ batch, InFile frames lane.disk.wal batch →
      InFile (update frames index (frames index ++ more)) lane.disk.wal batch := by
    rintro batch ⟨index', offset, hname, hmem⟩
    obtain rfl := Option.some.inj (hname.symm.trans hwal)
    exact ⟨index', offset, hname, by rw [update_self]; exact mem_append_left _ hmem⟩
  refine ⟨_, ⟨h.guarded.step rfl rfl hkept, ?_, ?_, h.order⟩, ?_, hin⟩
  · intro index' hindex'
    obtain rfl := Option.some.inj (hwal.symm.trans hindex')
    refine ⟨{ file with bytes := file.bytes ++ frame }, ?_, ?_⟩
    · simp [record, Disk.apply, hfile]
    · rw [update_self]
      exact hwritten'
  · intro sequence hsequence
    rcases h.last sequence hsequence with hbelow | ⟨batch, hle, hfile⟩
    · exact .inl (hbelow.concat _)
    · exact .inr ⟨batch, hle, hin batch hfile⟩
  · refine ⟨index, (file.bytes ++ frame).length, hwal, ?_⟩
    rw [update_self, hmore]
    exact mem_append_right _ mem_cons_self

lemma appendWalLaneFrame_based (h : Ready commands floor origin lane frames)
    (hencodes : encodesFrame batch frame) :
    Ends (fun lane' => ∃ frames', Based commands floor origin lane' frames' ∧
        (∃ index, lane'.writer = some index ∧ lane'.disk.wal = some index) ∧
        InFile frames' lane'.disk.wal batch ∧
        (∀ batch, InFile frames lane.disk.wal batch → InFile frames' lane'.disk.wal batch) ∧
        SameCounters lane lane')
      (fun lane' => ∃ frames', Guarded commands floor origin lane' frames')
      (lane.appendWalLaneFrame frame) := by
  unfold appendWalLaneFrame
  refine Ends.andThen (m := fun lane' => ∃ frames', Based commands floor origin lane' frames' ∧
    (∃ index, lane'.writer = some index ∧ lane'.disk.wal = some index) ∧
    (∀ batch, InFile frames lane.disk.wal batch → InFile frames' lane'.disk.wal batch) ∧
    SameCounters lane lane') ?_ ?_
  · cases hwriter : lane.writer with
    | some index =>
      exact ⟨frames, h.based, ⟨index, hwriter, h.writer index hwriter⟩, fun _ hin => hin,
        ⟨rfl, rfl, rfl⟩⟩
    | none =>
      refine (openAppend_based h.based).andThen ?_
      rintro lane₁ ⟨frames₁, answers, rfl, hbased, hin⟩
      obtain ⟨index, hindex⟩ := exists_wal_of_opened lane.disk
      exact ⟨frames₁, hbased.congr rfl rfl rfl rfl, ⟨index, hindex, hindex⟩, hin, ⟨rfl, rfl, rfl⟩⟩
  · rintro lane₁ ⟨frames₁, hbased, ⟨index, hwriter, hwal⟩, hin, hsame⟩
    rw [hwriter]
    obtain ⟨file, hfile, hwritten⟩ := hbased.file index hwal
    refine (request_ends lane₁ _ _).imp ?_ ?_
    · rintro lane₂ ⟨answers, rfl⟩
      obtain ⟨frames', hbased', hnew, hold⟩ := hbased.wrote hwal hencodes answers
      exact ⟨frames', hbased', ⟨index, hwriter, hwal⟩, hnew, fun b hb => hold b (hin b hb),
        ⟨hsame.1, hsame.2, hsame.3⟩⟩
    · rintro lane₂ ⟨answers, reached, rfl⟩
      obtain ⟨more, hintact⟩ := intact_take hwritten hencodes reached
      have hkept := hbased.guarded.kept.wrote index (frame.take reached) more (by
        intro file' hfile'
        obtain rfl := Option.some.inj (hfile'.symm.trans hfile)
        exact hintact)
      exact ⟨_, hbased.guarded.step rfl rfl hkept⟩

/-! ## Rewriting -/

lemma Based.mem_of_readBatchesAfter
    (h : Based commands floor origin lane frames) {batches : List WalBatch}
    (hread : readBatchesAfter lane.disk.path lane.disk.walBytes lane.disk.marker replayFloor =
      .ok batches) (hin : InFile frames lane.disk.wal batch)
    (habove : replayFloor < batch.sequence) : batch ∈ batches := by
  obtain ⟨index, offset, hname, hmem⟩ := hin
  obtain ⟨file, hfile, hwritten⟩ := h.file index hname
  have hbytes : lane.disk.walBytes = some file.bytes := by
    simp [Disk.walBytes, hname, hfile]
  have hdecode := decodeFramesAfter_holds ⟨frames index, hwritten, rfl⟩ replayFloor
  rw [hbytes, readBatchesAfter.eq_def] at hread
  dsimp only at hread
  rw [hdecode, ByteCodec.ok_bind] at hread
  obtain ⟨-, -, hread⟩ := ByteCodec.bind_eq_ok.mp hread
  obtain rfl := Except.ok.inj hread
  exact mem_filter.mpr ⟨mem_map.mpr ⟨_, hmem, rfl⟩, decide_eq_true habove⟩

lemma Based.walRenamed (h : Based commands floor origin lane frames)
    (hrewriting : .rewriting replayFloor ∈ lane.trace)
    {batches : List WalBatch} {bytes : List UInt8}
    (hread : readBatchesAfter lane.disk.path lane.disk.walBytes lane.disk.marker replayFloor =
      .ok batches)
    (hencode : encodeBatchesAfter batches replayFloor = .ok bytes) :
    ∃ frames', Kept commands floor (lane.trace ++ [.walRenamed bytes true])
        (lane.disk.apply (.walRenamed bytes true)) frames' ∧
      ∀ answers, Based commands floor origin
        ({ lane with answers := answers }.record (.walRenamed bytes true)) frames' ∧
      (lane.disk.apply (.walRenamed bytes true)).FullySynced := by
  obtain ⟨entries, hwritten, hentries⟩ := holds_encodeBatchesAfter hencode
  have hnew : ∀ batch, InFile frames lane.disk.wal batch → replayFloor < batch.sequence →
      ∃ offset, (batch, offset) ∈ entries := by
    intro batch hin habove
    have hmem : batch ∈ entries.map Prod.fst := by
      rw [hentries]
      exact mem_filter.mpr ⟨h.mem_of_readBatchesAfter hread hin habove, decide_eq_true habove⟩
    obtain ⟨⟨batch', offset⟩, hmem', rfl⟩ := mem_map.mp hmem
    exact ⟨offset, hmem'⟩
  have hkept := h.guarded.kept.walRenamed hwritten (fun batch habove hcovers => by
    obtain ⟨index, file, offset, hname, -, hmem, -⟩ := hcovers
    exact hnew batch ⟨index, offset, hname, hmem⟩ (habove.2 replayFloor hrewriting))
  have hlength : (lane.disk.apply (.walRenamed bytes true)).files[lane.disk.files.length]? =
      some ⟨bytes, bytes.length⟩ := by
    simp [Disk.apply]
  refine ⟨_, hkept, fun answers => ⟨⟨h.guarded.step rfl rfl hkept, ?_, ?_, h.order⟩, ?_⟩⟩
  · intro index hindex
    obtain rfl := Option.some.inj hindex
    exact ⟨_, hlength, by rw [update_self]; exact hwritten⟩
  · intro sequence hsequence
    rcases h.last sequence hsequence with hbelow | ⟨batch, hle, hin⟩
    · exact .inl (hbelow.concat _)
    · by_cases habove : replayFloor < batch.sequence
      · obtain ⟨offset, hoffset⟩ := hnew batch hin habove
        exact .inr ⟨batch, hle, lane.disk.files.length, offset, rfl, by
          rw [update_self]; exact hoffset⟩
      · -- The frame that reached the last append is dropped, and the floor reaches it now.
        refine .inl (.inr ⟨replayFloor, mem_append_left _ hrewriting, ?_⟩)
        exact le_trans hle (UInt64.not_lt.mp habove)
  · intro index file hindex hfile
    obtain rfl := Option.some.inj hindex
    obtain rfl := Option.some.inj (hfile.symm.trans hlength)
    rfl

structure Rewritten (lane lane' : LaneWorker) : Prop where
  counters : SameCounters lane lane'
  writer : lane'.writer = lane.writer
  persistedLevel : lane'.persistedLevel = lane.persistedLevel

lemma rewriteBatchesAfter_based (h : Based commands floor origin lane frames)
    (hrewriting : .rewriting replayFloor ∈ lane.trace) :
    Ends (fun lane' => ∃ frames', Based commands floor origin lane' frames' ∧
        lane'.disk.FullySynced ∧ Rewritten lane lane')
      (fun lane' => ∃ frames', Guarded commands floor origin lane' frames')
      (lane.rewriteBatchesAfter replayFloor) := by
  have haccess : ∀ answers,
      Ends (fun lane' => ∃ answers', lane' = { lane with answers := answers' })
        (fun lane' => ∃ frames', Guarded commands floor origin lane' frames')
        { lane with answers := answers }.access := by
    intro answers
    refine (request_ends _ none fun _ => none).imp (fun _ h => h) ?_
    rintro lane' ⟨answers', reached, rfl⟩
    exact ⟨frames, h.guarded.congr rfl rfl⟩
  refine (haccess lane.answers).andThen ?_
  rintro lane₁ ⟨answers₁, rfl⟩
  refine (haccess answers₁).andThen ?_
  rintro lane₂ ⟨answers₂, rfl⟩
  split
  · exact ⟨frames, h.guarded.congr rfl rfl⟩
  case h_2 batches hread =>
    split
    · exact ⟨frames, h.guarded.congr rfl rfl⟩
    case h_2 bytes hencode =>
      obtain ⟨frames', hkept, hbased⟩ := h.walRenamed hrewriting hread hencode
      refine (haccess answers₂).andThen ?_
      rintro lane₃ ⟨answers₃, rfl⟩
      have hguarded : Guarded commands floor origin { lane with answers := answers₃ } frames :=
        h.guarded.congr rfl rfl
      refine (perform_guarded hguarded ⟨frames', hkept⟩).andThen ?_
      rintro lane₄ ⟨answers₄, rfl⟩
      obtain ⟨hbased, hsynced⟩ := hbased answers₄
      exact ⟨frames', hbased, hsynced, ⟨⟨rfl, rfl, rfl⟩, rfl, rfl⟩⟩

lemma deleteMarkerAtOrBelow_based
    (h : Based commands floor origin lane frames) (hsynced : lane.disk.FullySynced)
    (replayFloor : UInt64) :
    Ends (fun lane' => Based commands floor origin lane' frames ∧ lane'.disk.FullySynced ∧
        Rewritten lane lane')
      (fun lane' => ∃ frames', Guarded commands floor origin lane' frames')
      (lane.deleteMarkerAtOrBelow replayFloor) := by
  refine Ends.andThen (m := fun lane' => ∃ answers, lane' = { lane with answers := answers }) ?_ ?_
  · refine (request_ends lane none fun _ => none).imp (fun _ h => h) ?_
    rintro lane' ⟨answers, reached, rfl⟩
    exact ⟨frames, h.guarded.congr rfl rfl⟩
  · rintro lane₁ ⟨answers, rfl⟩
    have hbased : Based commands floor origin { lane with answers := answers } frames :=
      h.congr rfl rfl rfl rfl
    have hsame : Rewritten lane { lane with answers := answers } := ⟨⟨rfl, rfl, rfl⟩, rfl, rfl⟩
    split
    · exact ⟨hbased, hsynced, hsame⟩
    · split
      · have hkept : Kept commands floor (lane.trace ++ [.markerDeleted])
            (lane.disk.apply .markerDeleted) frames :=
          h.guarded.kept.concat_same (by simp) rfl rfl rfl rfl
        refine (perform_guarded hbased.guarded ⟨frames, hkept⟩).imp ?_ fun _ h => h
        rintro lane₂ ⟨answers₂, rfl⟩
        refine ⟨h.step rfl rfl hkept ?_ rfl rfl rfl, hsynced, ⟨⟨rfl, rfl, rfl⟩, rfl, rfl⟩⟩
        exact fun index file hfile => ⟨file, hfile, rfl⟩
      · exact ⟨hbased, hsynced, hsame⟩

lemma rewriteExisting_ready (h : Based commands floor origin lane frames)
    (hrewriting : .rewriting replayFloor ∈ lane.trace) :
    Ends (fun lane' => ∃ frames', Ready commands floor origin lane' frames' ∧
        SameCounters lane lane' ∧
        (lane'.writer = none ↔ lane.writer = none) ∧
        (lane.writer = none → lane'.persistedLevel = lane.persistedLevel))
      (fun lane' => ∃ frames', Guarded commands floor origin lane' frames')
      (lane.rewriteExisting replayFloor) := by
  refine (rewriteBatchesAfter_based h hrewriting).andThen ?_
  rintro lane₁ ⟨frames₁, hbased₁, hsynced₁, hsame₁⟩
  refine (deleteMarkerAtOrBelow_based hbased₁ hsynced₁ replayFloor).andThen ?_
  rintro lane₂ ⟨hbased₂, hsynced₂, hsame₂⟩
  have hcounters : SameCounters lane lane₂ :=
    ⟨hsame₂.counters.1.trans hsame₁.counters.1, hsame₂.counters.2.trans hsame₁.counters.2,
      hsame₂.counters.3.trans hsame₁.counters.3⟩
  have hwriter₂ := hsame₂.writer.trans hsame₁.writer
  unfold reopenAppend
  split
  case h_1 hnone =>
    refine ⟨frames₁, ⟨hbased₂, fun index hindex => ?_, fun _ _ _ => hsynced₂⟩, hcounters,
      by rw [hwriter₂], fun _ => hsame₂.persistedLevel.trans hsame₁.persistedLevel⟩
    rw [hnone] at hindex
    cases hindex
  case h_2 index hsome =>
    refine (openAppend_based hbased₂).andThen ?_
    rintro lane₃ ⟨frames₃, answers, rfl, hbased₃, -⟩
    rw [hwriter₂] at hsome
    refine ⟨frames₃, ⟨hbased₃.congr rfl rfl rfl rfl, fun index hindex => hindex, fun _ _ _ => ?_⟩,
      ⟨hcounters.1, hcounters.2, hcounters.3⟩, ?_, fun hnone => ?_⟩
    · intro index' file hindex hfile
      change (lane₂.disk.apply .opened).wal = some index' at hindex
      change (lane₂.disk.apply .opened).files[index']? = some file at hfile
      cases hwal : lane₂.disk.wal with
      | some index'' =>
        have hopened : lane₂.disk.apply .opened = lane₂.disk := by simp [Disk.apply, hwal]
        rw [hopened] at hindex hfile
        exact hsynced₂ index' file hindex hfile
      | none =>
        simp only [Disk.apply, hwal] at hindex hfile
        obtain rfl := Option.some.inj hindex
        rw [List.getElem?_concat_length] at hfile
        obtain rfl := Option.some.inj hfile
        rfl
    · obtain ⟨index', hindex'⟩ := exists_wal_of_opened lane₂.disk
      change (lane₂.disk.apply .opened).wal = none ↔ lane.writer = none
      rw [hindex', hsome]
      simp
    · rw [hnone] at hsome
      cases hsome

/-- A rewrite keeps what is acknowledged, whether it succeeds or not. -/
lemma rewriteWalLaneAfterReplayFloor_ready
    (h : Ready commands floor origin lane frames)
    (hrewriting : .rewriting replayFloor ∈ lane.trace) :
    Ends (fun lane' => ∃ frames', Ready commands floor origin lane' frames' ∧
        SameCounters lane lane' ∧
        (lane'.writer = none ↔ lane.writer = none) ∧
        (lane.writer = none → lane'.persistedLevel = lane.persistedLevel))
      (fun lane' => ∃ frames', Guarded commands floor origin lane' frames')
      (lane.rewriteWalLaneAfterReplayFloor replayFloor) := by
  unfold rewriteWalLaneAfterReplayFloor
  split
  case h_1 file hwriter =>
    refine Ends.andThen (m := fun lane' => Ready commands floor origin lane' frames ∧
      SameCounters lane lane' ∧ .rewriting replayFloor ∈ lane'.trace ∧
      lane'.writer = lane.writer) ?_ ?_
    · unfold persistWalLane
      rw [hwriter]
      dsimp only
      split
      · refine Ends.andThen (m := fun lane' => ∃ answers, lane' = { lane with answers := answers }.record
          (.persisted file filesystemWalRewriteDurability)) ?_ ?_
        · refine (request_ends lane _ _).imp (fun _ h => h) ?_
          rintro lane' ⟨answers, reached, rfl⟩
          exact ⟨frames, h.based.guarded.congr rfl rfl⟩
        · rintro lane' ⟨answers, rfl⟩
          exact ⟨(h.persisted hwriter answers _).1, ⟨rfl, rfl, rfl⟩,
            mem_append_left _ hrewriting, hwriter⟩
      · exact ⟨h, ⟨rfl, rfl, rfl⟩, hrewriting, hwriter⟩
    · rintro lane₁ ⟨hready, hsame, hrewriting₁, hwriter₁⟩
      refine (rewriteExisting_ready hready.based hrewriting₁).imp ?_ fun _ h => h
      rintro lane₂ ⟨frames₂, hready₂, hsame₂, hwriter₂, -⟩
      refine ⟨frames₂, hready₂, ⟨hsame₂.1.trans hsame.1, hsame₂.2.trans hsame.2,
        hsame₂.3.trans hsame.3⟩, by rw [hwriter₂, hwriter₁], fun hnone => ?_⟩
      rw [hwriter] at hnone
      cases hnone
  case h_2 hwriter =>
    refine ((access_ready h).imp (fun _ h => h) fun _ h => ⟨frames, h⟩).andThen ?_
    rintro lane₁ ⟨answers, rfl⟩
    split
    · exact ⟨frames, ⟨h.based.congr rfl rfl rfl rfl, h.writer, h.level⟩, ⟨rfl, rfl, rfl⟩,
        Iff.rfl, fun _ => rfl⟩
    · have hbased : Based commands floor origin { lane with answers := answers } frames :=
        h.based.congr rfl rfl rfl rfl
      refine (rewriteExisting_ready hbased hrewriting).imp ?_ fun _ h => h
      rintro lane₂ ⟨frames₂, hready₂, hsame₂, hwriter₂, hlevel₂⟩
      exact ⟨frames₂, hready₂, ⟨hsame₂.1, hsame₂.2, hsame₂.3⟩, hwriter₂, hlevel₂⟩

/-! ## Commands -/

def sequencesIncrease : Option UInt64 → List WalLaneCommand → Bool
  | _, [] => true
  | last, .append sequence _ _ _ :: rest =>
    last.all (fun last => decide (last < sequence)) && sequencesIncrease (some sequence) rest
  | last, _ :: rest => sequencesIncrease last rest

def FramesEncoded (commands : List WalLaneCommand) : Prop :=
  ∀ sequence frame durability reply, .append sequence frame durability reply ∈ commands →
    ∃ operations, encodeBatchFrame sequence operations = .ok frame

/-- The worker in the middle of a batch: it is open, with its pending appends in the file, or it is
closed. -/
def InBatch.Held (commands : List WalLaneCommand) (floor : UInt64) (origin : Disk)
    (state : InBatch) : Prop :=
  (state.lane.terminalError = none ∧ (∃ frames, Ready commands floor origin state.lane frames ∧
      Queued commands state.lane frames state.pending state.pendingDurability) ∧
    (state.lane.writer = none → state.lane.persistedLevel = none)) ∨
  (Shut commands floor origin state.lane ∧ state.pending = [])

lemma InBatch.Held.processWalAppend
    (hready : Ready commands floor origin state.lane frames)
    (hqueued : Queued commands state.lane frames state.pending state.pendingDurability)
    (hopen : state.lane.terminalError = none) (hencoded : FramesEncoded commands)
    (hmem : .append sequence frame durability reply ∈ commands)
    (hlast : ∀ last, state.lane.lastAppendedSequence = some last → last < sequence) :
    (processWalAppend state sequence frame durability reply).Held commands floor origin ∧
      ((processWalAppend state sequence frame durability reply).lane.terminalError = none →
        (processWalAppend state sequence frame durability reply).lane.lastAppendedSequence =
          some sequence) := by
  obtain ⟨operations, hencodes⟩ := hencoded _ _ _ _ hmem
  have hends := appendWalLaneFrame_based hready
    (show encodesFrame ⟨sequence, operations⟩ frame from hencodes)
  unfold LaneWorker.processWalAppend
  dsimp only
  generalize state.lane.appendWalLaneFrame frame = outcome at hends
  obtain ⟨lane, result⟩ := outcome
  cases result with
  | error error =>
    obtain ⟨frames', hguarded⟩ := hends
    have hshut : ∀ message error', Shut commands floor origin (((lane.close message).completeAll
        state.pending (.error error')).complete reply (.error error)) := fun message error' =>
      ((shut_close hguarded message).completeAll_error state.pending error').complete_error reply error
    exact ⟨.inr ⟨hshut _ _, rfl⟩, fun hnone => absurd hnone (hshut _ _).terminalError⟩
  | ok _ =>
    obtain ⟨frames', hbased, ⟨index, hwriter, hwal⟩, hnew, hold, hsame⟩ := hends
    refine ⟨.inl ⟨hsame.terminalError.trans hopen, ⟨frames', ⟨?_, ?_, ?_⟩, ?_⟩, ?_⟩, fun _ => rfl⟩
    · have hkept : Kept commands floor
          (lane.trace ++ [.appended (lane.writer.getD 0) reply sequence durability])
          (lane.disk.apply (.appended (lane.writer.getD 0) reply sequence durability)) frames' :=
        hbased.guarded.kept.concat_same (by simp) rfl rfl rfl rfl
      refine ⟨hbased.guarded.step rfl rfl hkept, hbased.file, ?_, ?_⟩
      · intro last hlast
        obtain rfl := Option.some.inj hlast
        exact .inr ⟨⟨sequence, operations⟩, le_refl _, hnew⟩
      · intro confirmed hconfirmed
        refine ⟨sequence, rfl, ?_⟩
        obtain ⟨last, hlast', hle⟩ := hready.based.order confirmed
          (hsame.confirmedSequence.symm.trans hconfirmed)
        exact le_trans hle (le_of_lt (hlast last hlast'))
    · intro index' hindex'
      obtain rfl := Option.some.inj (hindex'.symm.trans hwriter)
      exact hwal
    · intro level hlevel hsync
      obtain rfl := Option.some.inj hlevel
      cases hsync
    · obtain ⟨hdurability, hpending⟩ :=
        le_rank_strongerDurability durability state.pendingDurability
      intro append happend
      rcases mem_append.mp happend with happend | happend
      · obtain ⟨batch, frame', asked, hmem', hencodes', hsequence, hasked, hin, ⟨last, hlast', hle⟩,
          hconfirmed, -⟩ := hqueued append happend
        exact ⟨batch, frame', asked, hmem', hencodes', hsequence, hasked.trans hpending,
          hold batch hin, ⟨sequence, rfl, le_trans hle (le_of_lt (hlast last hlast'))⟩,
          fun confirmed hc => hconfirmed confirmed (hsame.confirmedSequence.symm.trans hc),
          index, hwriter⟩
      · obtain rfl := mem_singleton.mp happend
        refine ⟨⟨sequence, operations⟩, frame, durability, hmem, hencodes, rfl, hdurability, hnew,
          ⟨sequence, rfl, le_refl _⟩, fun confirmed hc => ?_, index, hwriter⟩
        obtain ⟨last, hlast', hle⟩ := hready.based.order confirmed
          (hsame.confirmedSequence.symm.trans hc)
        exact UInt64.lt_of_le_of_lt hle (hlast last hlast')
    · intro hnone
      change lane.writer = none at hnone
      rw [hwriter] at hnone
      cases hnone

lemma Queued.weaken
    {durability' : DurabilityMode}
    (h : Queued commands lane frames pending durability)
    (hrank : walDurabilityRank durability ≤ walDurabilityRank durability') :
    Queued commands lane frames pending durability' := by
  intro append happend
  obtain ⟨batch, frame, asked, hmem, hencodes, hsequence, hasked, hrest⟩ := h append happend
  exact ⟨batch, frame, asked, hmem, hencodes, hsequence, hasked.trans hrank, hrest⟩

lemma InBatch.Held.processPersist
    (hready : Ready commands floor origin state.lane frames)
    (hqueued : Queued commands state.lane frames state.pending state.pendingDurability)
    (hopen : state.lane.terminalError = none)
    (hlevel : state.lane.writer = none → state.lane.persistedLevel = none)
    (hreplies : (commands.map WalLaneCommand.reply).Nodup)
    (hmem : .persist durability reply ∈ commands) :
    (processPersist state durability reply).Held commands floor origin ∧
      ((processPersist state durability reply).lane.terminalError = none →
        (processPersist state durability reply).lane.lastAppendedSequence =
          state.lane.lastAppendedSequence) := by
  have hends := flushWalLaneBatch_ready hready hreplies (hqueued.weaken
    (le_rank_strongerDurability durability state.pendingDurability).2)
  unfold LaneWorker.processPersist
  dsimp only
  generalize state.lane.flushWalLaneBatch
    (strongerDurability durability state.pendingDurability) state.pending = outcome at hends
  obtain ⟨lane, result⟩ := outcome
  cases result with
  | ok _ =>
    obtain ⟨hready', hunmoved, hsame⟩ := hends
    refine ⟨.inl ⟨hunmoved.terminalError.trans hopen, ⟨frames, ?_, by simp [Queued]⟩, ?_⟩,
      fun _ => hunmoved.lastAppendedSequence⟩
    · exact hready'.complete_other hreplies hmem (by simp)
    · intro hnone
      have hnone' : state.lane.writer = none := hunmoved.writer.symm.trans hnone
      exact (hsame hnone').trans (hlevel hnone')
  | error error =>
    have hshut : Shut commands floor origin lane := hends
    have hresult : ∃ error', duplicateWalLaneResult (.error error) = .error error' := by
      cases error <;> exact ⟨_, rfl⟩
    obtain ⟨error', hresult⟩ := hresult
    dsimp only
    rw [hresult]
    have hshut' := hshut.complete_error reply error'
    exact ⟨.inr ⟨hshut', rfl⟩, fun hnone => absurd hnone hshut'.terminalError⟩

lemma InBatch.Held.processRewrite
    (hready : Ready commands floor origin state.lane frames)
    (hqueued : Queued commands state.lane frames state.pending state.pendingDurability)
    (hopen : state.lane.terminalError = none)
    (hlevel : state.lane.writer = none → state.lane.persistedLevel = none)
    (hreplies : (commands.map WalLaneCommand.reply).Nodup)
    (hmem : .rewrite replayFloor reply ∈ commands) :
    (processRewrite state replayFloor reply).Held commands floor origin ∧
      ((processRewrite state replayFloor reply).lane.terminalError = none →
        (processRewrite state replayFloor reply).lane.lastAppendedSequence =
          state.lane.lastAppendedSequence) ∧
      (state.lane.writer = none →
        (processRewrite state replayFloor reply).lane.persistedLevel = none) := by
  have hends := flushWalLaneBatch_ready hready hreplies hqueued
  unfold LaneWorker.processRewrite
  generalize state.lane.flushWalLaneBatch state.pendingDurability state.pending = flushed at hends
  obtain ⟨lane, result⟩ := flushed
  cases result with
  | error error =>
    have hshut : Shut commands floor origin lane := hends
    obtain ⟨message, hmessage⟩ := ne_none_iff_exists'.mp hshut.terminalError
    have hclose : lane.closeOnRewriteError (.error error) = lane := by
      unfold closeOnRewriteError
      rw [hmessage]
    dsimp only [andThen_error]
    rw [hclose]
    have hshut' := hshut.complete_error reply error
    exact ⟨.inr ⟨hshut', rfl⟩, fun hnone => absurd hnone hshut'.terminalError,
      fun _ => hshut'.persistedLevel⟩
  | ok _ =>
    obtain ⟨hready', hunmoved, hsame⟩ := hends
    have hopen' : lane.terminalError = none := hunmoved.terminalError.trans hopen
    have hkept : Kept commands floor (lane.trace ++ [.rewriting replayFloor])
        (lane.disk.apply (.rewriting replayFloor)) frames :=
      hready'.based.guarded.kept.concat_same (by simp) rfl rfl rfl rfl
    have hrecord := hready'.step lane.answers hkept rfl rfl
    have hrewriting : .rewriting replayFloor ∈ (lane.record (.rewriting replayFloor)).trace :=
      mem_append_right _ mem_cons_self
    have hrewrite := rewriteWalLaneAfterReplayFloor_ready hrecord hrewriting
    have hcalls := @rewriteWalLaneAfterReplayFloor_calls commands
      (lane.record (.rewriting replayFloor)) replayFloor
    dsimp only [andThen_ok]
    change Ends _ _ ((lane.record (.rewriting replayFloor)).rewriteWalLaneAfterReplayFloor
      replayFloor) at hrewrite
    generalize (lane.record (.rewriting replayFloor)).rewriteWalLaneAfterReplayFloor replayFloor =
      outcome at hrewrite hcalls
    obtain ⟨lane', result'⟩ := outcome
    cases result' with
    | ok _ =>
      obtain ⟨frames', hready'', hcounters, hwriter', hlevel'⟩ := hrewrite
      have hunopened : state.lane.writer = none → lane'.persistedLevel = none := fun hnone =>
        (hlevel' (hunmoved.writer.trans hnone)).trans ((hsame hnone).trans (hlevel hnone))
      refine ⟨.inl ⟨hcounters.terminalError.trans hopen', ⟨frames', ?_, by simp [Queued]⟩, ?_⟩,
        fun _ => hcounters.lastAppendedSequence.trans hunmoved.lastAppendedSequence, hunopened⟩
      · exact hready''.complete_other hreplies hmem (by simp)
      · exact fun hnone => hunopened (hunmoved.writer.symm.trans (hwriter'.mp hnone))
    | error error =>
      obtain ⟨frames', hguarded⟩ := hrewrite
      have hnone : lane'.terminalError = none := hcalls.terminalError.trans hopen'
      have hshut : Shut commands floor origin (lane'.closeOnRewriteError (.error error)) := by
        unfold closeOnRewriteError
        rw [hnone]
        exact shut_close hguarded _
      have hshut' := hshut.complete_error reply error
      exact ⟨.inr ⟨hshut', rfl⟩, fun hnone => absurd hnone hshut'.terminalError,
        fun _ => hshut'.persistedLevel⟩

/-! ## Batches -/

lemma InBatch.Held.processCommand (h : state.Held commands floor origin)
    (hreplies : (commands.map WalLaneCommand.reply).Nodup) (hencoded : FramesEncoded commands)
    {rest : List WalLaneCommand} (hmem : command ∈ commands)
    (hincrease : state.lane.terminalError = none →
      sequencesIncrease state.lane.lastAppendedSequence (command :: rest)) :
    (processCommand state command).Held commands floor origin ∧
      ((processCommand state command).lane.terminalError = none →
        sequencesIncrease (processCommand state command).lane.lastAppendedSequence rest) := by
  rcases h with ⟨hopen, ⟨frames, hready, hqueued⟩, hlevel⟩ | ⟨hshut, hpending⟩
  · have hincrease := hincrease hopen
    unfold LaneWorker.processCommand
    rw [hopen]
    cases command with
    | append sequence frame durability reply =>
      simp only [sequencesIncrease, Bool.and_eq_true] at hincrease
      have hlast : ∀ last, state.lane.lastAppendedSequence = some last → last < sequence := by
        intro last hlast
        simpa [hlast] using hincrease.1
      obtain ⟨hheld, hsequence⟩ := Held.processWalAppend hready hqueued hopen hencoded hmem hlast
      refine ⟨hheld, fun hnone => ?_⟩
      dsimp only
      rw [hsequence hnone]
      exact hincrease.2
    | persist durability reply =>
      obtain ⟨hheld, hsequence⟩ := Held.processPersist hready hqueued hopen hlevel hreplies hmem
      refine ⟨hheld, fun hnone => ?_⟩
      dsimp only
      rw [hsequence hnone]
      exact hincrease
    | rewrite replayFloor reply =>
      obtain ⟨hheld, hsequence, -⟩ :=
        Held.processRewrite hready hqueued hopen hlevel hreplies hmem
      refine ⟨hheld, fun hnone => ?_⟩
      dsimp only
      rw [hsequence hnone]
      exact hincrease
  · obtain ⟨message, hmessage⟩ := ne_none_iff_exists'.mp hshut.terminalError
    unfold LaneWorker.processCommand
    rw [hmessage]
    have hshut' := hshut.complete_error command.reply (.corruption message)
    exact ⟨.inr ⟨hshut', hpending⟩, fun hnone => absurd hnone hshut'.terminalError⟩

lemma InBatch.Held.foldl (h : state.Held commands floor origin)
    (hreplies : (commands.map WalLaneCommand.reply).Nodup) (hencoded : FramesEncoded commands)
    {batch rest : List WalLaneCommand} (hmem : ∀ command ∈ batch, command ∈ commands)
    (hincrease : state.lane.terminalError = none →
      sequencesIncrease state.lane.lastAppendedSequence (batch ++ rest)) :
    (batch.foldl LaneWorker.processCommand state).Held commands floor origin := by
  induction batch generalizing state with
  | nil => exact h
  | cons command batch ih =>
    obtain ⟨hheld, hincrease'⟩ :=
      h.processCommand hreplies hencoded (hmem command mem_cons_self) hincrease
    exact ih hheld (fun command' hcommand => hmem command' (mem_cons_of_mem _ hcommand))
      hincrease'

def Idle (commands : List WalLaneCommand) (floor : UInt64) (origin : Disk) (lane : LaneWorker) :
    Prop :=
  InBatch.Held commands floor origin ⟨lane, [], .buffered⟩

lemma Shut.flushWalLaneBatch_nil (h : Shut commands floor origin lane)
    (durability : DurabilityMode) :
    Shut commands floor origin (lane.flushWalLaneBatch durability []).1 := by
  have hflush : (lane.flushWalLaneBatch durability []).1 = lane := by
    simp [flushWalLaneBatch, persistWalLaneBatch, h.writer, closeOnError, completeAll]
  rwa [hflush]

lemma Idle.processWalLaneBatch (h : Idle commands floor origin lane)
    (hreplies : (commands.map WalLaneCommand.reply).Nodup) (hencoded : FramesEncoded commands)
    {batch : List WalLaneCommand} (hmem : ∀ command ∈ batch, command ∈ commands)
    (hincrease : sequencesIncrease lane.lastAppendedSequence batch) :
    Idle commands floor origin (lane.processWalLaneBatch batch) := by
  have hheld := InBatch.Held.foldl h hreplies hencoded hmem
    (fun _ => (append_nil batch).symm ▸ hincrease : _ → sequencesIncrease _ (batch ++ []))
  unfold LaneWorker.processWalLaneBatch
  dsimp only
  generalize batch.foldl LaneWorker.processCommand ⟨lane, [], .buffered⟩ = state at hheld
  rcases hheld with ⟨hopen, ⟨frames, hready, hqueued⟩, hlevel⟩ | ⟨hshut, hpending⟩
  · have hends := flushWalLaneBatch_ready hready hreplies hqueued
    generalize state.lane.flushWalLaneBatch state.pendingDurability state.pending = flushed at hends
    obtain ⟨lane', result⟩ := flushed
    cases result with
    | ok _ =>
      obtain ⟨hready', hunmoved, hsame⟩ := hends
      refine .inl ⟨hunmoved.terminalError.trans hopen, ⟨frames, hready', by simp [Queued]⟩, ?_⟩
      intro hnone
      have hnone' : state.lane.writer = none := hunmoved.writer.symm.trans hnone
      exact (hsame hnone').trans (hlevel hnone')
    | error error => exact .inr ⟨hends, rfl⟩
  · rw [hpending]
    exact .inr ⟨hshut.flushWalLaneBatch_nil state.pendingDurability, rfl⟩

/-! ## Runs -/

/-- What happens to a lane: a batch of commands is handled, or another part of the database syncs
the directory. -/
inductive Input where
  | batch (commands : List WalLaneCommand)
  | directorySync
  deriving DecidableEq

def Input.batched : Input → List WalLaneCommand
  | .batch commands => commands
  | .directorySync => []

def handle (lane : LaneWorker) : Input → LaneWorker
  | .batch commands => lane.processWalLaneBatch commands
  | .directorySync => lane.record .directorySynced

def step (lane : LaneWorker) (input : Input) : Option LaneWorker := some (lane.handle input)

def syncedBatches (lane : LaneWorker) : List WalBatch :=
  match lane.disk.wal.bind fun index => lane.disk.files[index]? with
  | none => []
  | some file =>
    match decodeFramesAfter (file.bytes.take file.synced) 0 with
    | .ok batches => batches
    | .error _ => []

/-- Whether the marker is at or below the floor of the open or of a rewrite, or is reached by a frame
in the synced part of the lane's file. -/
def markerSynced (floor : UInt64) (lane : LaneWorker) : Bool :=
  lane.disk.marker.all fun marker =>
    decide (marker ≤ floor) ||
    lane.trace.any (fun event =>
      match event with
      | .rewriting replayFloor => decide (marker ≤ replayFloor)
      | _ => false) ||
    lane.syncedBatches.any fun batch => decide (marker ≤ batch.sequence)

/-- Appends come in the order of their sequences, and others sync the directory only while the
synced part of the lane's file reaches the marker. -/
def Admits (floor : UInt64) (lane : LaneWorker) : Input → Prop
  | .batch commands => sequencesIncrease lane.lastAppendedSequence commands
  | .directorySync => markerSynced floor lane

instance (floor : UInt64) (lane : LaneWorker) : DecidablePred (Admits floor lane)
  | .batch commands => inferInstanceAs (Decidable (sequencesIncrease _ commands = true))
  | .directorySync => inferInstanceAs (Decidable (markerSynced floor lane = true))

lemma Guarded.covers_of_mem_syncedBatches
    (h : Guarded commands floor origin lane frames)
    (hmem : batch ∈ lane.syncedBatches) : Covers lane.disk frames lane.disk.wal batch := by
  unfold syncedBatches at hmem
  split at hmem
  · cases hmem
  next file hfile =>
    obtain ⟨index, hwal, hfile⟩ := bind_eq_some_iff.mp hfile
    have hdecode := ((h.kept.intact index file hfile).crash file.synced).decodes 0
    rw [show (LaneFile.crash ⟨file.bytes, frames index⟩ file.synced).bytes =
      file.bytes.take file.synced from rfl] at hdecode
    rw [hdecode] at hmem
    obtain ⟨⟨batch', offset⟩, hentry, rfl⟩ := mem_map.mp (mem_filter.mp hmem).1
    obtain ⟨hentry, hoffset⟩ := mem_filter.mp hentry
    exact ⟨index, file, offset, hwal, hfile, hentry, of_decide_eq_true hoffset⟩

lemma Guarded.reaches (h : Guarded commands floor origin lane frames)
    (hsynced : markerSynced floor lane) :
    Reaches floor lane.trace lane.disk frames lane.disk.wal lane.disk.marker := by
  intro marker hmarker
  unfold markerSynced at hsynced
  rw [hmarker] at hsynced
  simp only [all_some, Bool.or_eq_true, decide_eq_true_eq] at hsynced
  rcases hsynced with (hfloor | hrewriting) | hfile
  · exact .inl (.inl hfloor)
  · obtain ⟨event, hevent, hle⟩ := any_eq_true.mp hrewriting
    split at hle
    next replayFloor => exact .inl (.inr ⟨replayFloor, hevent, of_decide_eq_true hle⟩)
    next => cases hle
  · obtain ⟨batch, hbatch, hle⟩ := any_eq_true.mp hfile
    exact .inr ⟨batch, of_decide_eq_true hle, h.covers_of_mem_syncedBatches hbatch⟩

lemma Guarded.directorySync (h : Guarded commands floor origin lane frames)
    (hsynced : markerSynced floor lane) :
    Guarded commands floor origin (lane.record .directorySynced) frames :=
  h.step rfl rfl (h.kept.directorySynced (h.reaches hsynced))

/-- An input that is admitted keeps the worker. -/
lemma Idle.handle (h : Idle commands floor origin lane)
    (hreplies : (commands.map WalLaneCommand.reply).Nodup) (hencoded : FramesEncoded commands)
    {input : Input} (hmem : ∀ command ∈ input.batched, command ∈ commands)
    (hadmits : Admits floor lane input) : Idle commands floor origin (lane.handle input) := by
  cases input with
  | batch batch => exact h.processWalLaneBatch hreplies hencoded hmem hadmits
  | directorySync =>
    rcases h with ⟨hopen, ⟨frames, hready, -⟩, hlevel⟩ | ⟨hshut, -⟩
    · refine .inl ⟨hopen, ⟨frames, ?_, by simp [Queued]⟩, hlevel⟩
      refine hready.step lane.answers ?_ rfl rfl
      exact (hready.based.guarded.directorySync hadmits).kept
    · obtain ⟨frames, hguarded⟩ := hshut.guarded
      exact .inr ⟨⟨⟨frames, hguarded.directorySync hadmits⟩, hshut.terminalError, hshut.writer,
        hshut.persistedLevel⟩, rfl⟩

lemma idle_start (commands : List WalLaneCommand) {entries : List (WalBatch × ℕ)}
    (h : origin.Opened floor entries) (answers : List Answer) :
    Idle commands floor origin (start origin answers) := by
  have hack : ∀ batch, ¬Acknowledged commands [] batch := by
    rintro batch ⟨frame, durability, reply, -, -, -, hcompleted⟩
    cases hcompleted
  have hkept : Kept commands floor [] origin fun _ => entries := by
    refine ⟨fun index file hfile => ?_, fun batch hbatch => absurd hbatch (hack batch),
      fun batch hbatch => absurd hbatch (hack batch), fun marker hmarker => ?_⟩
    · exact intact_written (h.written file (mem_of_getElem? hfile))
    · rcases h.marker marker (h.durableMarker.symm.trans hmarker) with
        hfloor | ⟨hsome, entry, hentry, hle⟩
      · exact .inl (.inl hfloor)
      · obtain ⟨index, hwal⟩ := isSome_iff_exists.mp hsome
        obtain ⟨file, hfile⟩ := h.present index hwal
        have hmem : file ∈ origin.files := mem_of_getElem? hfile
        refine .inr ⟨entry.1, hle, index, file, entry.2, h.durableWal.trans hwal, hfile, hentry, ?_⟩
        rw [h.synced file hmem]
        exact (h.written file hmem).snd_le hentry
  have hbased : Based commands floor origin (start origin answers) fun _ => entries := by
    refine ⟨⟨rfl, always_nil.mpr ⟨_, hkept⟩, hkept⟩, ?_, by simp [start], by simp [start]⟩
    intro index hwal
    obtain ⟨file, hfile⟩ := h.present index hwal
    exact ⟨file, hfile, h.written file (mem_of_getElem? hfile)⟩
  exact .inl ⟨rfl, ⟨_, ⟨hbased, by simp [start], by simp [start]⟩, by simp [Queued]⟩, fun _ => rfl⟩

lemma idle_of_run {entries : List (WalBatch × ℕ)} (hopened : origin.Opened floor entries)
    (answers : List Answer) (hreplies : (commands.map WalLaneCommand.reply).Nodup)
    (hencoded : FramesEncoded commands) {inputs : List Input}
    (hmem : ∀ input ∈ inputs, ∀ command ∈ input.batched, command ∈ commands)
    (hrun : Runs.run step (start origin answers) inputs = some lane)
    (hmeets : Runs.Meets step (Admits floor) (start origin answers) inputs) :
    Idle commands floor origin lane := by
  refine Runs.invariant_of_step (fun lane input lane' h hguard hstep => ?_)
    (idle_start commands hopened answers) hrun (hmeets.and_mem hmem)
  obtain rfl := Option.some.inj hstep
  exact h.handle hreplies hencoded hguard.2 hguard.1

lemma Idle.always (h : Idle commands floor origin lane) :
    lane.disk = origin.replay lane.trace ∧
      Always (fun log => ∃ frames, Kept commands floor log (origin.replay log) frames) lane.trace := by
  rcases h with ⟨-, ⟨frames, hready, -⟩, -⟩ | ⟨hshut, -⟩
  · exact ⟨hready.based.guarded.replayed, hready.based.guarded.always⟩
  · obtain ⟨frames, hguarded⟩ := hshut.guarded
    exact ⟨hguarded.replayed, hguarded.always⟩

lemma InBatch.Held.level_processRewrite (h : state.Held commands floor origin)
    (hreplies : (commands.map WalLaneCommand.reply).Nodup)
    (hmem : .rewrite replayFloor reply ∈ commands) :
    (state.lane.writer = none →
      (LaneWorker.processCommand state (.rewrite replayFloor reply)).lane.persistedLevel = none) ∧
    ∀ level, (LaneWorker.processCommand state (.rewrite replayFloor reply)).lane.persistedLevel =
        some level → requiresFileSync level →
      (LaneWorker.processCommand state (.rewrite replayFloor reply)).lane.disk.FullySynced := by
  unfold LaneWorker.processCommand
  rcases h with ⟨hopen, ⟨frames, hready, hqueued⟩, hunopened⟩ | ⟨hshut, -⟩
  · rw [hopen]
    dsimp only
    obtain ⟨hheld, -, hnone⟩ := Held.processRewrite hready hqueued hopen hunopened hreplies hmem
    refine ⟨hnone, fun level hlevel hsync => ?_⟩
    rcases hheld with ⟨-, ⟨frames', hready', -⟩, -⟩ | ⟨hshut, -⟩
    · exact hready'.level level hlevel hsync
    · rw [hshut.persistedLevel] at hlevel
      cases hlevel
  · obtain ⟨message, hmessage⟩ := ne_none_iff_exists'.mp hshut.terminalError
    rw [hmessage]
    refine ⟨fun _ => hshut.persistedLevel, fun level hlevel => ?_⟩
    change state.lane.persistedLevel = some level at hlevel
    rw [hshut.persistedLevel] at hlevel
    cases hlevel

def afterCommands (lane : LaneWorker) (commands : List WalLaneCommand) : LaneWorker :=
  (commands.foldl processCommand ⟨lane, [], .buffered⟩).lane

/-- In every run whose appends come in the order of their sequences, and in which others sync the
directory only while the synced part of the lane's file reaches the marker, a crash at any moment
loses no append that was answered well after it asked for a full sync, and whose sequence lies above
the floors. After every rewrite the lane claims no sync that its file does not have, and it claims
nothing when no file was open.

**Proof sketch.** Two facts hold after every event: the acknowledged appends are in the synced part
of the file that the directory names durably, and that file reaches the durable marker. A rename
keeps them, since the durable name stays; an append that asks for a full sync is answered after the
marker was moved to it and the directory synced, because its sequence is above what was confirmed
before. -/
theorem syncedAppends_recovered (floor : UInt64) (origin : Disk) (entries : List (WalBatch × ℕ))
    (hopened : origin.Opened floor entries) (answers : List Answer) (inputs : List Input)
    (hreplies : ((inputs.flatMap Input.batched).map WalLaneCommand.reply).Nodup)
    (hencoded : FramesEncoded (inputs.flatMap Input.batched)) (lane : LaneWorker)
    (hrun : Runs.run step (start origin answers) inputs = some lane)
    (hmeets : Runs.Meets step (Admits floor) (start origin answers) inputs) :
    lane.disk = origin.replay lane.trace ∧
    (∀ log, log <+: lane.trace → ∀ batch, Acknowledged (inputs.flatMap Input.batched) log batch →
      ∀ replayFloor, floor ≤ replayFloor →
        (∀ floor', .rewriting floor' ∈ log → floor' ≤ replayFloor) → replayFloor < batch.sequence →
        ∀ crash, ∃ batches, (origin.replay log).recover crash replayFloor = .ok batches ∧
          batch ∈ batches) ∧
    ∀ earlier later before after replayFloor reply,
      inputs = earlier ++ .batch (before ++ .rewrite replayFloor reply :: after) :: later →
      ∀ lane₀, Runs.run step (start origin answers) earlier = some lane₀ →
      ((lane₀.afterCommands before).writer = none →
        (lane₀.afterCommands (before ++ [.rewrite replayFloor reply])).persistedLevel = none) ∧
      ∀ level, (lane₀.afterCommands (before ++ [.rewrite replayFloor reply])).persistedLevel =
          some level → requiresFileSync level →
        (lane₀.afterCommands (before ++ [.rewrite replayFloor reply])).disk.FullySynced := by
  have hmem : ∀ input ∈ inputs, ∀ command ∈ input.batched,
      command ∈ inputs.flatMap Input.batched :=
    fun input hinput command hcommand => mem_flatMap.mpr ⟨input, hinput, hcommand⟩
  obtain ⟨hreplay, halways⟩ := (idle_of_run hopened answers hreplies hencoded hmem hrun hmeets).always
  refine ⟨hreplay, ?_, ?_⟩
  · intro log hlog batch hack replayFloor hfloor hfloors habove crash
    obtain ⟨frames, hkept⟩ := halways log hlog
    exact hkept.recover hack hfloor hfloors habove crash
  · intro earlier later before after replayFloor reply hinputs lane₀ hrun₀
    have hmeets₀ := hmeets
    rw [hinputs, Runs.meets_append hrun₀] at hmeets₀
    obtain ⟨hmeets₀, hadmits, -⟩ := hmeets₀
    have hinput : .batch (before ++ .rewrite replayFloor reply :: after) ∈ inputs := by
      rw [hinputs]
      exact mem_append_right _ mem_cons_self
    have hbatch := hmem _ hinput
    have hearlier : ∀ input ∈ earlier, input ∈ inputs := by
      rw [hinputs]
      exact fun input h => mem_append_left _ h
    have hidle := idle_of_run hopened answers hreplies hencoded
      (fun input h => hmem input (hearlier input h)) hrun₀ hmeets₀
    have hheld := InBatch.Held.foldl hidle hreplies hencoded
      (fun command hcommand => hbatch command (mem_append_left _ hcommand)) fun _ => hadmits
    unfold afterCommands
    rw [foldl_append]
    exact hheld.level_processRewrite hreplies (hbatch _ (mem_append_right _ mem_cons_self))

def deleteFrame (sequence : UInt64) : List UInt8 :=
  match encodeBatchFrame sequence (LaneFile.oneDelete sequence).operations with
  | .ok frame => frame
  | .error _ => []

/-- Two appends that ask for a full sync, a sync of the directory by others, a rewrite above the
first of them, and an append that asks for a full sync again. -/
def rewriteInOrder : List Input :=
  [.batch [.append 1 (deleteFrame 1) .syncAll 0, .append 2 (deleteFrame 2) .syncAll 1],
    .directorySync, .batch [.rewrite 1 2, .append 3 (deleteFrame 3) .syncAll 3]]

/-- The commands of that run are answered well, and no crash loses what lies above the floor. -/
theorem rewriteInOrder_recovered :
    ∃ lane, Runs.run step (start noFile []) rewriteInOrder = some lane ∧
      (∀ sequence : UInt64, sequence = 2 ∨ sequence = 3 → ∀ crash, ∃ batches,
        lane.disk.recover crash 1 = .ok batches ∧ LaneFile.oneDelete sequence ∈ batches) := by
  have hopened : noFile.Opened 0 [] :=
    ⟨by simp [noFile], by simp [noFile], by simp [noFile], rfl, rfl, by simp [noFile]⟩
  have hframe₁ : encodeBatchFrame 1 (LaneFile.oneDelete 1).operations = .ok (deleteFrame 1) := by
    decide +kernel
  have hframe₂ : encodeBatchFrame 2 (LaneFile.oneDelete 2).operations = .ok (deleteFrame 2) := by
    decide +kernel
  have hframe₃ : encodeBatchFrame 3 (LaneFile.oneDelete 3).operations = .ok (deleteFrame 3) := by
    decide +kernel
  have hencoded : FramesEncoded (rewriteInOrder.flatMap Input.batched) := by
    intro sequence frame durability reply hmem
    simp only [rewriteInOrder, Input.batched, flatMap_cons, flatMap_nil, cons_append,
      nil_append, append_nil, mem_cons, not_mem_nil, or_false,
      WalLaneCommand.append.injEq, reduceCtorEq, false_or] at hmem
    rcases hmem with ⟨rfl, rfl, -, -⟩ | ⟨rfl, rfl, -, -⟩ | ⟨rfl, rfl, -, -⟩
    · exact ⟨_, hframe₁⟩
    · exact ⟨_, hframe₂⟩
    · exact ⟨_, hframe₃⟩
  have htrace : (Runs.run step (start noFile []) rewriteInOrder).map (fun lane =>
      lane.trace.filter Event.outward) =
      some [.completed 0 (.ok ()), .completed 1 (.ok ()), .rewriting 1, .completed 2 (.ok ()),
        .completed 3 (.ok ())] := by
    decide +kernel
  obtain ⟨lane, hrun, hfilter⟩ := map_eq_some_iff.mp htrace
  obtain ⟨hreplay, hrecovered, -⟩ := syncedAppends_recovered 0 noFile [] hopened [] rewriteInOrder
    (by decide) hencoded lane hrun (by decide +kernel)
  have hfloors : ∀ floor', Event.rewriting floor' ∈ lane.trace → floor' ≤ 1 := by
    intro floor' hmem
    have hmem' : Event.rewriting floor' ∈ lane.trace.filter Event.outward :=
      mem_filter.mpr ⟨hmem, rfl⟩
    rw [hfilter] at hmem'
    obtain rfl : floor' = 1 := by simpa using hmem'
    exact le_refl 1
  have hcompleted : ∀ reply, reply = 1 ∨ reply = 3 → Event.completed reply (.ok ()) ∈ lane.trace := by
    intro reply hreply
    have hmem : Event.completed reply (.ok ()) ∈ lane.trace.filter Event.outward := by
      rw [hfilter]
      rcases hreply with rfl | rfl <;> simp
    exact mem_of_mem_filter hmem
  refine ⟨lane, hrun, ?_⟩
  rintro sequence (rfl | rfl) crash <;> rw [hreplay]
  · exact hrecovered lane.trace (prefix_refl _) _ ⟨deleteFrame 2, .syncAll, 1, by
      simp [rewriteInOrder, Input.batched, LaneFile.oneDelete], hframe₂, le_refl _,
      hcompleted 1 (by simp)⟩ 1 (by decide) hfloors (by decide) crash
  · exact hrecovered lane.trace (prefix_refl _) _ ⟨deleteFrame 3, .syncAll, 3, by
      simp [rewriteInOrder, Input.batched, LaneFile.oneDelete], hframe₃, le_refl _,
      hcompleted 3 (by simp)⟩ 1 (by decide) hfloors (by decide) crash

/-- After a rewrite the lane claims a full sync although the directory does not name its file
durably; an append with an older sequence is then answered well and lost in a crash. And when others
sync the directory after an append that asked for less than a sync has moved the marker, a crash
leaves a file that recovery refuses. -/
theorem rewrite_loses_append :
    (∃ lane, Runs.run step (start noFile [])
        [.batch [.append 5 (deleteFrame 5) .syncAll 0], .batch [.rewrite 0 1]] = some lane ∧
      lane.persistedLevel = some .syncAll ∧ ¬lane.disk.Backs .syncAll) ∧
    (∃ lane, Runs.run step (start noFile [])
        [.batch [.append 5 (deleteFrame 5) .syncAll 0], .batch [.rewrite 0 1],
          .batch [.append 3 (deleteFrame 3) .syncAll 2]] = some lane ∧
      .completed 2 (.ok ()) ∈ lane.trace ∧
      lane.disk.recover ⟨0, false, false⟩ 0 = .ok [LaneFile.oneDelete 5]) ∧
    ∃ lane, Runs.run step (start noFile [])
        [.batch [.append 1 (deleteFrame 1) .syncAll 0], .batch [.append 2 (deleteFrame 2) .flush 1],
          .directorySync] = some lane ∧
      .completed 0 (.ok ()) ∈ lane.trace ∧
      lane.disk.recover ⟨0, false, false⟩ 0 =
        .error (.corruption "WAL trine.wal ended before confirmed sequence 2") := by
  refine ⟨?_, ?_, ?_⟩
  · have hlevel : (Runs.run step (start noFile [])
        [.batch [.append 5 (deleteFrame 5) .syncAll 0], .batch [.rewrite 0 1]]).map (fun lane =>
          (lane.persistedLevel, lane.disk.wal, lane.disk.durableWal)) =
        some (some .syncAll, some 1, some 0) := by
      decide +kernel
    obtain ⟨lane, hrun, hlane⟩ := map_eq_some_iff.mp hlevel
    simp only [Prod.mk.injEq] at hlane
    refine ⟨lane, hrun, hlane.1, fun hbacks => ?_⟩
    have hname := hbacks.2 rfl
    rw [hlane.2.1, hlane.2.2] at hname
    cases hname
  · have hlost : (Runs.run step (start noFile [])
        [.batch [.append 5 (deleteFrame 5) .syncAll 0], .batch [.rewrite 0 1],
          .batch [.append 3 (deleteFrame 3) .syncAll 2]]).map (fun lane =>
          (decide (.completed 2 (.ok ()) ∈ lane.trace), lane.disk.recover ⟨0, false, false⟩ 0)) =
        some (true, .ok [LaneFile.oneDelete 5]) := by
      decide +kernel
    obtain ⟨lane, hrun, hlane⟩ := map_eq_some_iff.mp hlost
    obtain ⟨hcompleted, hrecover⟩ := Prod.mk.inj hlane
    exact ⟨lane, hrun, of_decide_eq_true hcompleted, hrecover⟩
  · have hrefused : (Runs.run step (start noFile [])
        [.batch [.append 1 (deleteFrame 1) .syncAll 0], .batch [.append 2 (deleteFrame 2) .flush 1],
          .directorySync]).map (fun lane =>
          (decide (.completed 0 (.ok ()) ∈ lane.trace), lane.disk.recover ⟨0, false, false⟩ 0)) =
        some (true, .error (.corruption "WAL trine.wal ended before confirmed sequence 2")) := by
      decide +kernel
    obtain ⟨lane, hrun, hlane⟩ := map_eq_some_iff.mp hrefused
    obtain ⟨hcompleted, hrecover⟩ := Prod.mk.inj hlane
    exact ⟨lane, hrun, of_decide_eq_true hcompleted, hrecover⟩

end LaneWorker

end TrineKv.Wal
