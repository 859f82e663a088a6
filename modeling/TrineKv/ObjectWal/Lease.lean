import TrineKv.ObjectWal.Chain

/-!
# The writer lease and group commits

The lease names the owner of a database with a fencing epoch and an expiry, and holds the head of
the log. Every change is planned from an observed state and published by a conditional put. A group
commit writes the frames of its commits into one segment, with empty ones for sequences that were
given up.

## Main results

* `groupFrames_spec`: the frames of a group.
-/

namespace TrineKv.ObjectWal

open List ByteCodec
open UInt64 (le_iff_toNat_le lt_irrefl not_lt)

open Wal FrameLog

variable {frames : List UInt8}

/-! ## Lease states -/

structure ObjectLeaseState where
  epoch : UInt64
  ownerId : List UInt8
  committedSequence : UInt64
  currentWalKey : Option ObjectWalKey
  leaseExpiresAtMs : UInt64
  deriving DecidableEq, Repr

/-- A new head of the log, or nothing to do. -/
inductive LeaseStatePublish where
  | publish (state : ObjectLeaseState)
  | alreadyApplied
  deriving DecidableEq, Repr

inductive LeaseOwnerObservation where
  | currentOwner
  | fenced (currentEpoch : UInt64)
  | epochRegression (currentEpoch : UInt64)
  deriving DecidableEq, Repr

/-- The longest lease object. -/
def leaseMaxBytes : ℕ := 64 * 1024

/-- The length of a lease object without its key. -/
def leaseHeaderLen : ℕ := 50

/-- The content that is written for a lease state, if it is not too long. -/
def encodeLeaseState (config : Config) (state : ObjectLeaseState) :
    Except Error ObjectLeaseState :=
  let encodedLen := leaseHeaderLen + previousLen config state.currentWalKey
  if leaseMaxBytes < encodedLen then
    .error (.invalidOptions
      s!"writer lease encoded length {encodedLen} exceeds maximum {leaseMaxBytes}")
  else .ok state

lemma encodeLeaseState_eq_ok {config : Config} {state state' : ObjectLeaseState}
    (h : encodeLeaseState config state = .ok state') : state' = state := by
  simp only [encodeLeaseState] at h
  split_ifs at h
  exact (Except.ok.inj h).symm

namespace ObjectLeaseState

def isExpiredAt (state : ObjectLeaseState) (nowMs : UInt64) : Bool :=
  decide (state.leaseExpiresAtMs ≤ nowMs)

def observeOwner (state current : ObjectLeaseState) : LeaseOwnerObservation :=
  if state.epoch < current.epoch then .fenced current.epoch
  else if current.epoch < state.epoch then .epochRegression current.epoch
  else if current.ownerId ≠ state.ownerId then .fenced current.epoch
  else .currentOwner

/-- A later expiry. -/
def planRenew (state : ObjectLeaseState) (leaseExpiresAtMs : UInt64) : ObjectLeaseState :=
  { state with leaseExpiresAtMs }

/-- An expiry in the past. -/
def planRelease (state : ObjectLeaseState) : ObjectLeaseState :=
  { state with leaseExpiresAtMs := 0 }

/-- A new head of the log. -/
def planCommitHead (state : ObjectLeaseState) (sequence : UInt64) (walKey : ObjectWalKey)
    (leaseExpiresAtMs : UInt64) : Except Error LeaseStatePublish :=
  if sequence < state.committedSequence then
    .error (.corruption (s!"object WAL head advanced to sequence {state.committedSequence}" ++
      s!" while publishing older sequence {sequence}"))
  else if state.committedSequence = sequence then
    if state.currentWalKey = some walKey then .ok .alreadyApplied
    else .error (.corruption
      s!"object WAL sequence {sequence} names conflicting immutable segment heads")
  else
    .ok (.publish
      { state with committedSequence := sequence, currentWalKey := some walKey, leaseExpiresAtMs })

/-- A head that stands for the same commits. -/
def planRewriteHead (state : ObjectLeaseState) (currentWalKey : Option ObjectWalKey)
    (leaseExpiresAtMs : UInt64) : ObjectLeaseState :=
  { state with currentWalKey, leaseExpiresAtMs }

lemma observeOwner_eq_currentOwner {state current : ObjectLeaseState} :
    state.observeOwner current = .currentOwner ↔
      current.epoch = state.epoch ∧ current.ownerId = state.ownerId := by
  rw [observeOwner]
  split_ifs with hlt hgt howner
  · simp only [false_iff, not_and]
    intro heq
    rw [heq] at hlt
    exact absurd hlt (lt_irrefl _)
  · simp only [false_iff, not_and]
    intro heq
    rw [heq] at hgt
    exact absurd hgt (lt_irrefl _)
  · simp [howner]
  · simp only [true_iff]
    refine ⟨UInt64.le_antisymm (not_lt.mp hlt) (not_lt.mp hgt), not_not.mp howner⟩

lemma planCommitHead_eq_publish {state next : ObjectLeaseState} {sequence expiry : UInt64}
    {walKey : ObjectWalKey} (h : state.planCommitHead sequence walKey expiry = .ok (.publish next)) :
    state.committedSequence < sequence ∧
      next = { state with
        committedSequence := sequence, currentWalKey := some walKey, leaseExpiresAtMs := expiry } := by
  rw [planCommitHead] at h
  split_ifs at h with hlt heq hkey
  · cases Except.ok.inj h
  · have hle := not_lt.mp hlt
    exact ⟨UInt64.lt_of_le_of_ne hle heq, (LeaseStatePublish.publish.inj (Except.ok.inj h)).symm⟩

lemma planCommitHead_eq_alreadyApplied {state : ObjectLeaseState} {sequence expiry : UInt64}
    {walKey : ObjectWalKey} (h : state.planCommitHead sequence walKey expiry = .ok .alreadyApplied) :
    state.committedSequence = sequence ∧ state.currentWalKey = some walKey := by
  rw [planCommitHead] at h
  split_ifs at h with hlt heq hkey
  · exact ⟨heq, hkey⟩
  · cases Except.ok.inj h

end ObjectLeaseState

/-! ## Group commits -/

/-- A commit on its way to the log, with its frame. -/
structure ObjectWalAccept where
  batch : WalBatch
  frame : List UInt8
  encodes : encodesFrame batch frame

namespace ObjectWalAccept

def sequence (accept : ObjectWalAccept) : UInt64 := accept.batch.sequence

def ofBatch (batch : WalBatch) : Except Error ObjectWalAccept :=
  match h : encodeBatchFrame batch.sequence batch.operations with
  | .ok frame => .ok ⟨batch, frame, h⟩
  | .error error => .error error

lemma exists_ofBatch {batch : WalBatch} {frame : List UInt8} (h : encodesFrame batch frame) :
    ofBatch batch = .ok ⟨batch, frame, h⟩ := by
  unfold ofBatch
  split
  · next frame' hframe' =>
    obtain rfl := Except.ok.inj (hframe'.symm.trans h)
    rfl
  · next error herror => cases herror.symm.trans h

lemma ofBatch_eq_ok {batch : WalBatch} {accept : ObjectWalAccept} (h : ofBatch batch = .ok accept) :
    accept.batch = batch := by
  unfold ofBatch at h
  split at h
  · rw [← Except.ok.inj h]
  · cases h

end ObjectWalAccept

def emptyFrameBytes : ℕ := ((encodeBatchFrame 0 []).toOption.map List.length).getD 0

def groupFrameBytesFrom (expected : UInt64) (totalBytes : ℕ) :
    List ObjectWalAccept → Except Error ℕ
  | [] => .ok totalBytes
  | accept :: accepts =>
    if accept.sequence < expected then
      .error (.corruption
        s!"object WAL expected sequence at least {expected}, got {accept.sequence}")
    else
      let gap := accept.sequence.toNat - expected.toNat
      let totalBytes := totalBytes + gap * emptyFrameBytes + accept.frame.length
      if maxGroupFrameBytes < totalBytes then
        .error (.corruption
          s!"object WAL group frame length {totalBytes} exceeds maximum {maxGroupFrameBytes}")
      else if accepts.isEmpty then .ok totalBytes
      else if accept.sequence.toNat = maxSequence then
        .error (.corruption "object WAL group sequence overflow")
      else groupFrameBytesFrom (accept.sequence + 1) totalBytes accepts

def objectWalGroupFrameBytes (committedSequence : UInt64) (accepts : List ObjectWalAccept) :
    Except Error ℕ :=
  if committedSequence.toNat = maxSequence then
    .error (.corruption "object WAL cannot advance past u64::MAX")
  else groupFrameBytesFrom (committedSequence + 1) 0 accepts

/-- Empty frames for a number of sequences that were given up. -/
def gapFrames : ℕ → UInt64 → Except Error (List UInt8)
  | 0, _ => .ok []
  | count + 1, expected => do
    let frame ← encodeBatchFrame expected []
    let more ← gapFrames count (expected + 1)
    return frame ++ more

def groupFramesFrom (last : UInt64) (expected : UInt64) :
    List ObjectWalAccept → Except Error (List UInt8)
  | [] => .ok []
  | accept :: accepts => do
    let gap ← gapFrames (accept.sequence.toNat - expected.toNat) expected
    if accept.sequence < expected then
      throw (.corruption s!"object WAL expected sequence {expected}, got {accept.sequence}")
    if accept.sequence ≠ last && decide (accept.sequence.toNat = maxSequence) then
      throw (.corruption "object WAL group sequence overflow")
    let next := if accept.sequence ≠ last then accept.sequence + 1 else accept.sequence
    let more ← groupFramesFrom last next accepts
    return gap ++ accept.frame ++ more

def groupFrames (committedSequence : UInt64) (accepts : List ObjectWalAccept) :
    Except Error (List UInt8) :=
  match accepts.getLast? with
  | none => .ok []
  | some last =>
    if committedSequence.toNat = maxSequence then
      .error (.corruption "object WAL cannot advance past u64::MAX")
    else groupFramesFrom last.sequence (committedSequence + 1) accepts

/-- Empty commits for a number of sequences that were given up. -/
def gapBatches : ℕ → UInt64 → List WalBatch
  | 0, _ => []
  | count + 1, expected => ⟨expected, []⟩ :: gapBatches count (expected + 1)

def fillGaps (expected : UInt64) : List ObjectWalAccept → List WalBatch
  | [] => []
  | accept :: accepts =>
    gapBatches (accept.sequence.toNat - expected.toNat) expected ++
      accept.batch :: fillGaps (accept.sequence + 1) accepts

lemma holds_gapFrames {count : ℕ} {expected : UInt64}
    (h : gapFrames count expected = .ok frames) :
    Holds encodesFrame (gapBatches count expected) frames := by
  induction count generalizing expected frames with
  | zero =>
    obtain rfl := Except.ok.inj h
    exact .nil
  | succ count ih =>
    obtain ⟨frame, hframe, h⟩ := bind_eq_ok.mp h
    obtain ⟨more, hmore, h⟩ := bind_eq_ok.mp h
    obtain rfl := Except.ok.inj h
    have hfirst : encodesFrame ⟨expected, []⟩ frame := hframe
    exact (Holds.singleton hfirst).append (ih hmore)

lemma map_sequence_gapBatches {count : ℕ} {expected : UInt64}
    (h : expected.toNat + count ≤ maxSequence) :
    (gapBatches count expected).map (fun batch => batch.sequence.toNat) =
      List.range' expected.toNat count := by
  induction count generalizing expected with
  | zero => rfl
  | succ count ih =>
    have hsucc := @toNat_succ expected (by omega)
    rw [gapBatches, map_cons, ih (by omega), hsucc, range'_succ]

/-- The frames of a group, one commit at a time: the gap before the commit, its own frame, and what
follows unless it is the last one. -/
lemma groupFramesFrom_cons_eq_ok {last expected : UInt64} {accept : ObjectWalAccept}
    {accepts : List ObjectWalAccept}
    (hpairwise : (accept :: accepts).Pairwise fun left right => left.sequence < right.sequence)
    (hlast : ∀ final ∈ (accept :: accepts).getLast?, final.sequence = last)
    (h : groupFramesFrom last expected (accept :: accepts) = .ok frames) :
    expected ≤ accept.sequence ∧ ∃ gap more,
      gapFrames (accept.sequence.toNat - expected.toNat) expected = .ok gap ∧
      frames = gap ++ accept.frame ++ more ∧
      (accepts = [] ∧ accept.sequence = last ∧ more = [] ∨
        accepts ≠ [] ∧ accept.sequence.toNat ≠ maxSequence ∧
          (∀ final ∈ accepts.getLast?, final.sequence = last) ∧
          groupFramesFrom last (accept.sequence + 1) accepts = .ok more) := by
  rw [pairwise_cons] at hpairwise
  obtain ⟨gap, hgap, h⟩ := bind_eq_ok.mp h
  have hle : ¬accept.sequence < expected := by
    intro hlt
    rw [if_pos hlt] at h
    cases h
  rw [if_neg hle] at h
  cases accepts with
  | nil =>
    obtain rfl : accept.sequence = last := hlast accept rfl
    rw [if_neg (by simp)] at h
    obtain ⟨more, hmore, h⟩ := bind_eq_ok.mp h
    obtain rfl := Except.ok.inj hmore
    exact ⟨not_lt.mp hle, gap, [], hgap, (Except.ok.inj h).symm, Or.inl ⟨rfl, rfl, rfl⟩⟩
  | cons next rest =>
    have hlast' : ∀ final ∈ (next :: rest).getLast?, final.sequence = last := by
      intro final hfinal
      refine hlast final ?_
      rwa [List.getLast?_cons_cons]
    have hne : accept.sequence ≠ last := by
      obtain ⟨final, hfinal⟩ : ∃ final, (next :: rest).getLast? = some final :=
        ⟨_, List.getLast?_eq_some_getLast (cons_ne_nil _ _)⟩
      rw [← hlast' final hfinal]
      exact UInt64.ne_of_lt (hpairwise.1 final (mem_of_getLast? hfinal))
    have hoverflow : accept.sequence.toNat ≠ maxSequence := by
      have hlt := UInt64.lt_iff_toNat_lt.mp (hpairwise.1 next mem_cons_self)
      have := next.sequence.toNat_lt
      have hmax : maxSequence = 2 ^ 64 - 1 := rfl
      omega
    rw [if_neg (by simp [hoverflow]), if_pos hne] at h
    obtain ⟨more, hmore, h⟩ := bind_eq_ok.mp h
    exact ⟨not_lt.mp hle, gap, more, hgap, (Except.ok.inj h).symm,
      Or.inr ⟨cons_ne_nil _ _, hoverflow, hlast', hmore⟩⟩

/-- The frames of a group continue the log from the expected sequence to the last one of the
group, without a gap.

**Proof sketch.** By induction on the group: the empty commits lead from the expected sequence to
the one before the next commit, and only behind the last commit nothing is expected any more. -/
lemma groupFramesFrom_spec {last expected : UInt64} {accepts : List ObjectWalAccept}
    (hpairwise : accepts.Pairwise fun left right => left.sequence < right.sequence)
    (hlast : ∀ accept ∈ accepts.getLast?, accept.sequence = last)
    (h : groupFramesFrom last expected accepts = .ok frames) :
    Holds encodesFrame (fillGaps expected accepts) frames ∧
      (accepts ≠ [] → expected ≤ last ∧
        (fillGaps expected accepts).map (fun batch => batch.sequence.toNat) =
          List.range' expected.toNat (last.toNat + 1 - expected.toNat)) := by
  induction accepts generalizing expected frames with
  | nil =>
    obtain rfl := Except.ok.inj h
    exact ⟨.nil, fun hne => absurd rfl hne⟩
  | cons accept accepts ih =>
    obtain ⟨hle, gap, more, hgap, rfl, hrest⟩ := groupFramesFrom_cons_eq_ok hpairwise hlast h
    have hle' := le_iff_toNat_le.mp hle
    have hmax : maxSequence = 2 ^ 64 - 1 := rfl
    have hbound := accept.sequence.toNat_lt
    have hmap := @map_sequence_gapBatches (accept.sequence.toNat - expected.toNat) expected
      (by omega)
    have hhead : Holds encodesFrame
        (gapBatches (accept.sequence.toNat - expected.toNat) expected ++ [accept.batch])
        (gap ++ accept.frame) := (holds_gapFrames hgap).append (.singleton accept.encodes)
    have hbatch : accept.batch.sequence.toNat = accept.sequence.toNat := rfl
    rcases hrest with ⟨rfl, rfl, rfl⟩ | ⟨hne, hoverflow, hlast', hmore⟩
    · refine ⟨by simpa [fillGaps] using hhead, fun _ => ⟨hle, ?_⟩⟩
      rw [fillGaps, fillGaps, map_append, hmap, map_singleton, hbatch,
        show accept.sequence.toNat + 1 - expected.toNat =
          (accept.sequence.toNat - expected.toNat) + 1 by omega, range'_1_concat]
      congr 2
      omega
    · obtain ⟨hholds, hmapped⟩ := ih (pairwise_cons.mp hpairwise).2 hlast' hmore
      obtain ⟨hlast_le, hmap_rest⟩ := hmapped hne
      have hsucc := toNat_succ hoverflow
      rw [le_iff_toNat_le, hsucc] at hlast_le
      refine ⟨?_, fun _ => ⟨le_iff_toNat_le.mpr (by omega), ?_⟩⟩
      · have hall := hhead.append hholds
        rw [fillGaps]
        simpa using hall
      · rw [fillGaps, map_append, hmap, map_cons, hmap_rest, hbatch, hsucc,
          show last.toNat + 1 - expected.toNat = (accept.sequence.toNat - expected.toNat) +
            ((last.toNat + 1 - (accept.sequence.toNat + 1)) + 1) by omega,
          ← range'_append_1, range'_succ]
        congr 3 <;> omega

lemma groupFrames_spec {committedSequence : UInt64} {accepts : List ObjectWalAccept}
    {last : ObjectWalAccept}
    (hpairwise : accepts.Pairwise fun left right => left.sequence < right.sequence)
    (hlast : accepts.getLast? = some last)
    (h : groupFrames committedSequence accepts = .ok frames) :
    Holds encodesFrame (fillGaps (committedSequence + 1) accepts) frames ∧
      Consecutive committedSequence last.sequence (fillGaps (committedSequence + 1) accepts) := by
  have hne : accepts ≠ [] := by
    rintro rfl
    cases hlast
  unfold groupFrames at h
  rw [hlast] at h
  simp only at h
  split_ifs at h with hmax
  have hsucc := toNat_succ hmax
  have hlast' : ∀ accept ∈ accepts.getLast?, accept.sequence = last.sequence := by
    intro accept hmem
    rw [hlast] at hmem
    obtain rfl := Option.some.inj hmem
    rfl
  obtain ⟨hholds, hrest⟩ := groupFramesFrom_spec hpairwise hlast' h
  obtain ⟨hle, hmap⟩ := hrest hne
  rw [le_iff_toNat_le, hsucc] at hle
  refine ⟨hholds, le_iff_toNat_le.mpr (by omega), ?_⟩
  rw [hmap, hsucc]
  congr 1
  omega

/-! ## The bytes of a group -/

lemma length_emptyFrame {sequence : UInt64} {frame : List UInt8}
    (h : encodeBatchFrame sequence [] = .ok frame) : frame.length = emptyFrameBytes := by
  have hbytes : emptyFrameBytes = 30 := by decide
  obtain ⟨payload, hpayload, -, rfl⟩ := encodeBatchFrame_eq_ok h
  obtain ⟨-, fields, hfields, rfl⟩ := encodePayload_eq_ok hpayload
  cases hfields
  simp [hbytes, headerLen]

lemma length_gapFrames {count : ℕ} {expected : UInt64}
    (h : gapFrames count expected = .ok frames) : frames.length = count * emptyFrameBytes := by
  induction count generalizing expected frames with
  | zero =>
    obtain rfl := Except.ok.inj h
    simp
  | succ count ih =>
    obtain ⟨frame, hframe, h⟩ := bind_eq_ok.mp h
    obtain ⟨more, hmore, h⟩ := bind_eq_ok.mp h
    obtain rfl := Except.ok.inj h
    rw [length_append, length_emptyFrame hframe, ih hmore, add_one_mul]
    omega

/-- The two walks over a group expect the same sequences, so the bytes that the first one counts
are those that the second one writes. -/
lemma length_groupFramesFrom {last expected : UInt64} {accepts : List ObjectWalAccept}
    {before total : ℕ}
    (hpairwise : accepts.Pairwise fun left right => left.sequence < right.sequence)
    (hlast : ∀ accept ∈ accepts.getLast?, accept.sequence = last)
    (hframes : groupFramesFrom last expected accepts = .ok frames)
    (hbytes : groupFrameBytesFrom expected before accepts = .ok total) :
    total = before + frames.length := by
  induction accepts generalizing expected frames before with
  | nil =>
    obtain rfl := Except.ok.inj hframes
    obtain rfl := Except.ok.inj hbytes
    rfl
  | cons accept accepts ih =>
    obtain ⟨hle, gap, more, hgap, rfl, hrest⟩ := groupFramesFrom_cons_eq_ok hpairwise hlast hframes
    have hgapLength := length_gapFrames hgap
    simp only [groupFrameBytesFrom, if_neg (not_lt.mpr hle)] at hbytes
    split_ifs at hbytes with hmax hempty hoverflow
    · obtain rfl : accepts = [] := List.isEmpty_iff.mp hempty
      obtain ⟨-, -, rfl⟩ | ⟨hne, -⟩ := hrest
      · obtain rfl := Except.ok.inj hbytes
        simp only [length_append, length_nil, hgapLength]
        omega
      · exact absurd rfl hne
    · obtain ⟨rfl, -⟩ | ⟨-, -, hlast', hmore⟩ := hrest
      · simp at hempty
      · have htotal := ih (pairwise_cons.mp hpairwise).2 hlast' hmore hbytes
        simp only [length_append, hgapLength]
        omega

lemma length_groupFrames {committedSequence : UInt64} {accepts : List ObjectWalAccept}
    {last : ObjectWalAccept} {total : ℕ}
    (hpairwise : accepts.Pairwise fun left right => left.sequence < right.sequence)
    (hlast : accepts.getLast? = some last)
    (hframes : groupFrames committedSequence accepts = .ok frames)
    (hbytes : objectWalGroupFrameBytes committedSequence accepts = .ok total) :
    frames.length = total := by
  unfold groupFrames at hframes
  rw [hlast] at hframes
  rw [objectWalGroupFrameBytes] at hbytes
  simp only at hframes
  split_ifs at hframes hbytes
  have hlast' : ∀ accept ∈ accepts.getLast?, accept.sequence = last.sequence := by
    intro accept hmem
    rw [hlast] at hmem
    obtain rfl := Option.some.inj hmem
    rfl
  have := length_groupFramesFrom hpairwise hlast' hframes hbytes
  omega

end TrineKv.ObjectWal
