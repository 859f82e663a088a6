import TrineKv.Lib.EventLog
import TrineKv.Wal.LaneFile
import TrineKv.Wal.LaneWorker

/-!
# A crash of the files of a lane

A crash keeps the synced bytes of a file, and the names that the directory had when it was last
synced. An acknowledged append is not lost while its frame is in the synced part of the file that
the directory names durably, and that file reaches the durable marker.

## Main results

* `Kept.recover`, `Kept.wrote`, `Kept.walRenamed`, `Kept.directorySynced`, `Kept.completed`.
-/

namespace TrineKv.Wal

open List Option Function

open FrameLog

variable {batch : WalBatch} {event : Event} {name : Option ℕ} {entries : List (WalBatch × ℕ)}
  {bytes : List UInt8}

/-! ## Crashes -/

/-- What a crash can choose: how much of the file it keeps beyond what was synced, whether it keeps
the name of a file that was created and never synced by name, and the removal of the marker. -/
structure LaneCrash where
  length : ℕ
  created : Bool
  deleted : Bool
  deriving DecidableEq, Repr

namespace Disk

def walAfter (disk : Disk) (crash : LaneCrash) : Option ℕ :=
  disk.durableWal <|> if crash.created && !disk.files.isEmpty then some 0 else none

def crash (disk : Disk) (crash : LaneCrash) : Option (List UInt8) × Option UInt64 :=
  ((disk.walAfter crash).bind fun file => disk.files[file]?.map fun file =>
      file.bytes.take (max file.synced crash.length),
    if crash.deleted && disk.marker.isNone then none else disk.durableMarker)

def recover (disk : Disk) (crash : LaneCrash) (replayFloor : UInt64) : Except Error (List WalBatch) :=
  readBatchesAfter disk.path (disk.crash crash).1 (disk.crash crash).2 replayFloor

end Disk

/-! ## What has to be kept -/

/-- An append whose command was answered well and asked for a full sync. -/
def Acknowledged (commands : List WalLaneCommand) (log : List Event) (batch : WalBatch) : Prop :=
  ∃ frame durability reply, .append batch.sequence frame durability reply ∈ commands ∧
    encodesFrame batch frame ∧ walDurabilityRank .syncAll ≤ walDurabilityRank durability ∧
    .completed reply (.ok ()) ∈ log

def AboveFloors (floor : UInt64) (log : List Event) (sequence : UInt64) : Prop :=
  floor < sequence ∧ ∀ replayFloor, .rewriting replayFloor ∈ log → replayFloor < sequence

def BelowFloors (floor : UInt64) (log : List Event) (sequence : UInt64) : Prop :=
  sequence ≤ floor ∨ ∃ replayFloor, .rewriting replayFloor ∈ log ∧ sequence ≤ replayFloor

/-- The frame of the batch is in the synced part of the file; frames come with their end offsets. -/
def Covers (disk : Disk) (frames : ℕ → List (WalBatch × ℕ)) (name : Option ℕ) (batch : WalBatch) :
    Prop :=
  ∃ index file offset, name = some index ∧ disk.files[index]? = some file ∧
    (batch, offset) ∈ frames index ∧ offset ≤ file.synced

def Reaches (floor : UInt64) (log : List Event) (disk : Disk) (frames : ℕ → List (WalBatch × ℕ))
    (name : Option ℕ) (marker : Option UInt64) : Prop :=
  ∀ sequence, marker = some sequence → BelowFloors floor log sequence ∨
    ∃ batch, sequence ≤ batch.sequence ∧ Covers disk frames name batch

/-- Files consist of whole frames and at most a torn one; the acknowledged appends above the floors
are in the synced part of the file that the directory names, durably and now; and the durable file
reaches the durable marker. -/
structure Kept (commands : List WalLaneCommand) (floor : UInt64) (log : List Event) (disk : Disk)
    (frames : ℕ → List (WalBatch × ℕ)) : Prop where
  intact : ∀ index file, disk.files[index]? = some file →
    LaneFile.Intact ⟨file.bytes, frames index⟩
  durable : ∀ batch, Acknowledged commands log batch → AboveFloors floor log batch.sequence →
    Covers disk frames disk.durableWal batch
  current : ∀ batch, Acknowledged commands log batch → AboveFloors floor log batch.sequence →
    Covers disk frames disk.wal batch
  marker : Reaches floor log disk frames disk.durableWal disk.durableMarker

variable {commands : List WalLaneCommand} {floor : UInt64} {log : List Event} {disk disk' : Disk}
  {frames frames' : ℕ → List (WalBatch × ℕ)}

/-! ## Recovery -/

lemma validateConfirmedWalCoverage_of_mem {path : String} {replayFloor confirmed : UInt64}
    {batches : List WalBatch} (hmem : batch ∈ batches)
    (hle : confirmed ≤ batch.sequence) :
    validateConfirmedWalCoverage path replayFloor (some confirmed) batches = .ok () := by
  unfold validateConfirmedWalCoverage
  dsimp only
  split
  · rfl
  · have hmem' : batch.sequence ∈ batches.map WalBatch.sequence := mem_map_of_mem hmem
    obtain ⟨greatest, hgreatest⟩ := ne_none_iff_exists'.mp
      (mt List.max?_eq_none_iff.mp (ne_nil_of_mem hmem'))
    have hmax : batch.sequence ≤ greatest := (List.max?_eq_some_iff.mp hgreatest).2 _ hmem'
    rw [hgreatest, getD_some, if_pos (UInt64.le_trans hle hmax)]

/-- Recovery after a crash returns every acknowledged append above the floors.

**Proof sketch.** A crash keeps the synced part of the durable file, and more of it perhaps; the
decoder returns the frames that are whole in what is kept. One of them reaches the durable marker,
unless the marker lies at or below the floor. -/
lemma Kept.recover (h : Kept commands floor log disk frames)
    {replayFloor : UInt64} (hack : Acknowledged commands log batch)
    (hfloor : floor ≤ replayFloor)
    (hfloors : ∀ floor', .rewriting floor' ∈ log → floor' ≤ replayFloor)
    (habove : replayFloor < batch.sequence) (crash : LaneCrash) :
    ∃ batches, disk.recover crash replayFloor = .ok batches ∧ batch ∈ batches := by
  have habove' : AboveFloors floor log batch.sequence :=
    ⟨UInt64.lt_of_le_of_lt hfloor habove, fun floor' hmem =>
      UInt64.lt_of_le_of_lt (hfloors floor' hmem) habove⟩
  obtain ⟨index, file, offset, hname, hfile, hmem, hsynced⟩ := h.durable batch hack habove'
  have hdecode := ((h.intact index file hfile).crash (max file.synced crash.length)).decodes
    replayFloor
  set batches := above replayFloor (((frames index).filter fun entry =>
    decide (entry.2 ≤ max file.synced crash.length)).map Prod.fst) with hbatches
  -- What is in the synced part and above the floor is returned.
  have hreturned : ∀ kept offset, (kept, offset) ∈ frames index → offset ≤ file.synced →
      replayFloor < kept.sequence → kept ∈ batches := by
    intro kept offset hkept hoffset hlt
    refine mem_filter.mpr ⟨mem_map.mpr ⟨(kept, offset), ?_, rfl⟩, decide_eq_true hlt⟩
    exact mem_filter.mpr ⟨hkept, decide_eq_true (hoffset.trans (le_max_left _ _))⟩
  have hwal : (disk.crash crash).1 = some (file.bytes.take (max file.synced crash.length)) := by
    simp [Disk.crash, Disk.walAfter, hname, hfile]
  have hcoverage : validateConfirmedWalCoverage disk.path replayFloor (disk.crash crash).2 batches =
      .ok () := by
    rcases hmarker : (disk.crash crash).2 with - | confirmed
    · rfl
    · have hdurable : disk.durableMarker = some confirmed := by
        simp only [Disk.crash] at hmarker
        split at hmarker
        · cases hmarker
        · exact hmarker
      by_cases hle : confirmed ≤ replayFloor
      · simp [validateConfirmedWalCoverage, hle]
      · rcases h.marker confirmed hdurable with hbelow | ⟨reached, hreached, hcovers⟩
        · rcases hbelow with hbelow | ⟨floor', hfloor', hbelow⟩
          · exact absurd (UInt64.le_trans hbelow hfloor) hle
          · exact absurd (UInt64.le_trans hbelow (hfloors floor' hfloor')) hle
        · obtain ⟨index', file', offset', hname', hfile', hmem', hsynced'⟩ := hcovers
          obtain rfl : index' = index := Option.some.inj (hname'.symm.trans hname)
          obtain rfl : file' = file := Option.some.inj (hfile'.symm.trans hfile)
          refine validateConfirmedWalCoverage_of_mem (hreturned _ _ hmem' hsynced' ?_) hreached
          exact UInt64.lt_of_lt_of_le (UInt64.not_le.mp hle) hreached
  refine ⟨batches, ?_, hreturned batch offset hmem hsynced habove⟩
  rw [Disk.recover, readBatchesAfter.eq_def, hwal]
  dsimp only
  rw [show decodeFramesAfter (file.bytes.take (max file.synced crash.length)) replayFloor =
    .ok batches from hdecode]
  simp only [ByteCodec.ok_bind, hcoverage]
  rfl

/-! ## Events -/

lemma acknowledged_concat (hevent : ∀ reply, event ≠ .completed reply (.ok ()))
    (h : Acknowledged commands (log ++ [event]) batch) :
    Acknowledged commands log batch := by
  obtain ⟨frame, durability, reply, hmem, hencodes, hrank, hcompleted⟩ := h
  refine ⟨frame, durability, reply, hmem, hencodes, hrank, ?_⟩
  rcases mem_append.mp hcompleted with hcompleted | hcompleted
  · exact hcompleted
  · exact absurd (mem_singleton.mp hcompleted).symm (hevent reply)

lemma AboveFloors.of_concat {sequence : UInt64}
    (h : AboveFloors floor (log ++ [event]) sequence) : AboveFloors floor log sequence :=
  ⟨h.1, fun replayFloor hmem => h.2 replayFloor (mem_append_left _ hmem)⟩

lemma BelowFloors.concat {sequence : UInt64} (h : BelowFloors floor log sequence) (event : Event) :
    BelowFloors floor (log ++ [event]) sequence :=
  h.imp id fun ⟨replayFloor, hmem, hle⟩ => ⟨replayFloor, mem_append_left _ hmem, hle⟩

lemma Kept.concat (h : Kept commands floor log disk frames)
    (hevent : ∀ reply, event ≠ .completed reply (.ok ()))
    (hintact : ∀ index file, disk'.files[index]? = some file →
      LaneFile.Intact ⟨file.bytes, frames' index⟩)
    (hdurable : ∀ batch, Covers disk frames disk.durableWal batch →
      Covers disk' frames' disk'.durableWal batch)
    (hcurrent : ∀ batch, AboveFloors floor (log ++ [event]) batch.sequence →
      Covers disk frames disk.wal batch → Covers disk' frames' disk'.wal batch)
    (hmarker : disk'.durableMarker = disk.durableMarker) :
    Kept commands floor (log ++ [event]) disk' frames' where
  intact := hintact
  durable batch hack habove :=
    hdurable batch (h.durable batch (acknowledged_concat hevent hack) habove.of_concat)
  current batch hack habove :=
    hcurrent batch habove (h.current batch (acknowledged_concat hevent hack) habove.of_concat)
  marker sequence hsequence := by
    rcases h.marker sequence (hmarker ▸ hsequence) with hbelow | ⟨batch, hle, hcovers⟩
    · exact .inl (hbelow.concat event)
    · exact .inr ⟨batch, hle, hdurable batch hcovers⟩

lemma Kept.concat_same (h : Kept commands floor log disk frames)
    (hevent : ∀ reply, event ≠ .completed reply (.ok ())) (hfiles : disk'.files = disk.files)
    (hwal : disk'.wal = disk.wal) (hdurable : disk'.durableWal = disk.durableWal)
    (hmarker : disk'.durableMarker = disk.durableMarker) :
    Kept commands floor (log ++ [event]) disk' frames := by
  refine h.concat hevent ?_ ?_ ?_ hmarker
  · rw [hfiles]
    exact h.intact
  · intro batch hcovers
    rwa [Covers, hfiles, hdurable]
  · intro batch _ hcovers
    rwa [Covers, hfiles, hwal]

@[simp]
lemma Disk.wal_persisted (disk : Disk) (file : ℕ) (durability : DurabilityMode) :
    (disk.apply (.persisted file durability)).wal = disk.wal := by
  unfold Disk.apply
  dsimp only
  split <;> rfl

@[simp]
lemma Disk.durableWal_persisted (disk : Disk) (file : ℕ) (durability : DurabilityMode) :
    (disk.apply (.persisted file durability)).durableWal = disk.durableWal := by
  unfold Disk.apply
  dsimp only
  split <;> rfl

@[simp]
lemma Disk.durableMarker_persisted (disk : Disk) (file : ℕ) (durability : DurabilityMode) :
    (disk.apply (.persisted file durability)).durableMarker = disk.durableMarker := by
  unfold Disk.apply
  dsimp only
  split <;> rfl

lemma Covers.persisted (h : Covers disk frames name batch)
    (hintact : ∀ index file, disk.files[index]? = some file →
      LaneFile.Intact ⟨file.bytes, frames index⟩)
    (file : ℕ) (durability : DurabilityMode) :
    Covers (disk.apply (.persisted file durability)) frames name batch := by
  obtain ⟨index, kept, offset, hname, hkept, hmem, hsynced⟩ := h
  unfold Disk.apply
  dsimp only
  split
  · by_cases hindex : file = index
    · subst hindex
      refine ⟨file, { kept with synced := kept.bytes.length }, offset, hname, ?_, hmem, ?_⟩
      · simp [hkept]
      · obtain ⟨whole, torn, hwritten, hbytes, -⟩ := hintact file kept hkept
        have hle := hwritten.snd_le hmem
        rw [show kept.bytes = whole ++ torn from hbytes, length_append]
        dsimp only at hle ⊢
        omega
    · exact ⟨index, kept, offset, hname, by simp [hindex, hkept], hmem, hsynced⟩
  · exact ⟨index, kept, offset, hname, hkept, hmem, hsynced⟩

lemma Kept.persisted (h : Kept commands floor log disk frames) (file : ℕ)
    (durability : DurabilityMode) :
    Kept commands floor (log ++ [.persisted file durability])
      (disk.apply (.persisted file durability)) frames := by
  refine h.concat (by simp) ?_ ?_ ?_ ?_
  · intro index kept hkept
    unfold Disk.apply at hkept
    dsimp only at hkept
    split at hkept
    · rw [List.getElem?_modify] at hkept
      obtain ⟨old, hold, rfl⟩ := map_eq_some_iff.mp hkept
      have hintact := h.intact index old hold
      split <;> exact hintact
    · exact h.intact index kept hkept
  · intro batch hcovers
    rw [Disk.durableWal_persisted]
    exact hcovers.persisted h.intact file durability
  · intro batch _ hcovers
    rw [Disk.wal_persisted]
    exact hcovers.persisted h.intact file durability
  · exact Disk.durableMarker_persisted disk file durability

lemma Covers.add (h : Covers disk frames name batch)
    (file : File) (entries : List (WalBatch × ℕ)) (hfiles : disk'.files = disk.files ++ [file]) :
    Covers disk' (update frames disk.files.length entries) name batch := by
  obtain ⟨index, kept, offset, hname, hkept, hmem, hsynced⟩ := h
  have hlt : index < disk.files.length := (List.getElem?_eq_some_iff.mp hkept).1
  refine ⟨index, kept, offset, hname, ?_, ?_, hsynced⟩
  · rw [hfiles, List.getElem?_append_left hlt, hkept]
  · rwa [update_of_ne (by omega)]

lemma intact_add (hintact : ∀ index file, disk.files[index]? = some file →
      LaneFile.Intact ⟨file.bytes, frames index⟩)
    {file : File} (hfile : LaneFile.Intact ⟨file.bytes, entries⟩)
    (hfiles : disk'.files = disk.files ++ [file]) (index : ℕ) (kept : File)
    (hkept : disk'.files[index]? = some kept) :
    LaneFile.Intact ⟨kept.bytes, update frames disk.files.length entries index⟩ := by
  rw [hfiles] at hkept
  rcases lt_trichotomy index disk.files.length with hlt | rfl | hgt
  · rw [List.getElem?_append_left hlt] at hkept
    rw [update_of_ne (by omega)]
    exact hintact index kept hkept
  · rw [List.getElem?_concat_length] at hkept
    obtain rfl := Option.some.inj hkept
    rwa [update_self]
  · rw [List.getElem?_eq_none (by simp; omega)] at hkept
    cases hkept

lemma intact_nil : LaneFile.Intact ⟨[], []⟩ := ⟨[], [], .nil, rfl, Or.inl rfl⟩

lemma intact_written
    (h : Written encodesFrame entries bytes) : LaneFile.Intact ⟨bytes, entries⟩ :=
  ⟨bytes, [], h, (append_nil bytes).symm, Or.inl rfl⟩

lemma Kept.opened (h : Kept commands floor log disk frames) :
    ∃ frames', Kept commands floor (log ++ [.opened]) (disk.apply .opened) frames' ∧
      (disk.wal ≠ none → frames' = frames) ∧
      (disk.wal = none → frames' = update frames disk.files.length []) := by
  cases hwal : disk.wal with
  | some index =>
    have hsame : disk.apply .opened = disk := by simp [Disk.apply, hwal]
    refine ⟨frames, ?_, fun _ => rfl, by simp⟩
    rw [hsame]
    exact h.concat_same (by simp) rfl rfl rfl rfl
  | none =>
    have happly : disk.apply .opened =
        { disk with files := disk.files ++ [⟨[], 0⟩], wal := some disk.files.length } := by
      simp [Disk.apply, hwal]
    refine ⟨_, ?_, by simp, fun _ => rfl⟩
    rw [happly]
    refine h.concat (by simp) (intact_add h.intact intact_nil rfl) ?_ ?_ rfl
    · exact fun batch hcovers => hcovers.add ⟨[], 0⟩ [] rfl
    · rintro batch - ⟨index, -, -, hname, -⟩
      rw [hwal] at hname
      cases hname

lemma getElem?_wrote {index kept : ℕ} {file : File}
    (h : (disk.apply (.wrote index bytes)).files[kept]? = some file) :
    ∃ old, disk.files[kept]? = some old ∧ file.synced = old.synced ∧
      file.bytes = if index = kept then old.bytes ++ bytes else old.bytes := by
  simp only [Disk.apply, List.getElem?_modify] at h
  obtain ⟨old, hold, rfl⟩ := map_eq_some_iff.mp h
  refine ⟨old, hold, ?_, ?_⟩
  · split <;> rfl
  · split <;> rfl

lemma Covers.wrote (h : Covers disk frames name batch)
    (index : ℕ) (bytes : List UInt8) (more : List (WalBatch × ℕ)) :
    Covers (disk.apply (.wrote index bytes))
      (update frames index (frames index ++ more)) name batch := by
  obtain ⟨index', kept, offset, hname, hkept, hmem, hsynced⟩ := h
  by_cases hindex : index = index'
  · subst hindex
    refine ⟨index, { kept with bytes := kept.bytes ++ bytes }, offset, hname, ?_, ?_, hsynced⟩
    · simp [Disk.apply, hkept]
    · rw [update_self]
      exact mem_append_left _ hmem
  · refine ⟨index', kept, offset, hname, ?_, ?_, hsynced⟩
    · simp [Disk.apply, hindex, hkept]
    · rwa [update_of_ne (Ne.symm hindex)]

lemma Kept.wrote (h : Kept commands floor log disk frames) (index : ℕ) (bytes : List UInt8)
    (more : List (WalBatch × ℕ))
    (hintact : ∀ file, disk.files[index]? = some file →
      LaneFile.Intact ⟨file.bytes ++ bytes, frames index ++ more⟩) :
    Kept commands floor (log ++ [.wrote index bytes]) (disk.apply (.wrote index bytes))
      (update frames index (frames index ++ more)) := by
  refine h.concat (by simp) ?_ (fun batch hcovers => hcovers.wrote index bytes more)
    (fun batch _ hcovers => hcovers.wrote index bytes more) rfl
  intro kept file hfile
  obtain ⟨old, hold, -, hbytes⟩ := getElem?_wrote hfile
  rw [hbytes]
  by_cases hindex : index = kept
  · subst hindex
    rw [if_pos rfl, update_self]
    exact hintact old hold
  · rw [if_neg hindex, update_of_ne (Ne.symm hindex)]
    exact h.intact kept old hold

lemma intact_take {frame : List UInt8}
    (hwritten : Written encodesFrame entries bytes) (hencodes : encodesFrame batch frame) (n : ℕ) :
    ∃ more, LaneFile.Intact ⟨bytes ++ frame.take n, entries ++ more⟩ := by
  by_cases hn : n < frame.length
  · refine ⟨[], bytes, frame.take n, by simpa using hwritten, rfl, Or.inr ⟨batch, frame, hencodes,
      take_prefix _ _, ?_⟩⟩
    rw [length_take]
    omega
  · rw [take_of_length_le (by omega)]
    exact ⟨_, intact_written (hwritten.snoc hencodes)⟩

lemma Kept.walRenamed (h : Kept commands floor log disk frames)
    (hwritten : Written encodesFrame entries bytes)
    (hentries : ∀ batch, AboveFloors floor log batch.sequence → Covers disk frames disk.wal batch →
      ∃ offset, (batch, offset) ∈ entries) :
    Kept commands floor (log ++ [.walRenamed bytes true]) (disk.apply (.walRenamed bytes true))
      (update frames disk.files.length entries) := by
  refine h.concat (by simp) (intact_add h.intact (intact_written hwritten) rfl) ?_ ?_ rfl
  · exact fun batch hcovers => hcovers.add ⟨bytes, bytes.length⟩ entries rfl
  · intro batch habove hcovers
    obtain ⟨offset, hoffset⟩ := hentries batch habove.of_concat hcovers
    refine ⟨disk.files.length, ⟨bytes, bytes.length⟩, offset, rfl, ?_, ?_, ?_⟩
    · simp [Disk.apply]
    · rwa [update_self]
    · exact hwritten.snd_le hoffset

lemma Kept.directorySynced (h : Kept commands floor log disk frames)
    (hreaches : Reaches floor log disk frames disk.wal disk.marker) :
    Kept commands floor (log ++ [.directorySynced]) (disk.apply .directorySynced) frames where
  intact := h.intact
  durable batch hack habove :=
    h.current batch (acknowledged_concat (by simp) hack) habove.of_concat
  current batch hack habove :=
    h.current batch (acknowledged_concat (by simp) hack) habove.of_concat
  marker sequence hsequence := by
    rcases hreaches sequence hsequence with hbelow | hcovers
    · exact .inl (hbelow.concat _)
    · exact .inr hcovers

/-- A command is answered well: if it is an append that asked for a full sync, its frame is in the
synced part of the lane's file, and the directory names that file durably. -/
lemma Kept.completed (h : Kept commands floor log disk frames) {reply : ℕ}
    (hcovers : ∀ batch, (∃ frame durability,
        .append batch.sequence frame durability reply ∈ commands ∧ encodesFrame batch frame ∧
          walDurabilityRank .syncAll ≤ walDurabilityRank durability) →
      AboveFloors floor log batch.sequence →
      disk.durableWal = disk.wal ∧ Covers disk frames disk.wal batch) :
    Kept commands floor (log ++ [.completed reply (.ok ())]) disk frames := by
  have hacked : ∀ batch, Acknowledged commands (log ++ [.completed reply (.ok ())]) batch →
      AboveFloors floor (log ++ [.completed reply (.ok ())]) batch.sequence →
      Covers disk frames disk.durableWal batch ∧ Covers disk frames disk.wal batch := by
    rintro batch ⟨frame, durability, reply', hmem, hencodes, hrank, hcompleted⟩ habove
    rcases mem_append.mp hcompleted with hcompleted | hcompleted
    · have hack : Acknowledged commands log batch :=
        ⟨frame, durability, reply', hmem, hencodes, hrank, hcompleted⟩
      exact ⟨h.durable batch hack habove.of_concat, h.current batch hack habove.of_concat⟩
    · obtain ⟨rfl, -⟩ := Event.completed.inj (mem_singleton.mp hcompleted)
      obtain ⟨hsame, hcover⟩ := hcovers batch ⟨frame, durability, hmem, hencodes, hrank⟩
        habove.of_concat
      exact ⟨hsame ▸ hcover, hcover⟩
  refine ⟨h.intact, fun batch hack habove => (hacked batch hack habove).1,
    fun batch hack habove => (hacked batch hack habove).2, fun sequence hsequence => ?_⟩
  rcases h.marker sequence hsequence with hbelow | hreached
  · exact .inl (hbelow.concat _)
  · exact .inr hreached

end TrineKv.Wal
