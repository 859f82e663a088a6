import TrineKv.Commit.Tracker
import TrineKv.Lib.Runs
import TrineKv.Wal.Recovery

/-!
# The order of frames in the lanes

A commit reserves a sequence under a lock and later, outside of it, enqueues its frame on the lane
of that sequence. Others may move between the two steps, so frames can reach a lane out of order.

## Main results

* `LogState.merges_of_run`: the lanes merge.
* `LogState.overtaken_not_merges`: a frame that was overtaken.
-/

namespace TrineKv.Wal

open List Function

/-- The front door of the log: its lanes by shard index, those that new commits use first. -/
structure FrontDoor where
  activeShardCount : ℕ
  shards : List ℕ
  activeShardCount_pos : 0 < activeShardCount
  active_mem : ∀ shard < activeShardCount, shard ∈ shards
  nodup : shards.Nodup

def FrontDoor.shardIndexForSequence (frontDoor : FrontDoor) (sequence : UInt64) : ℕ :=
  (sequence.toNat - 1) % frontDoor.activeShardCount

/-- Commits that have not reached their lane, and the frames in the queues and files of the lanes.
-/
structure LogState where
  frontDoor : FrontDoor
  tracker : CommitTracker
  reserved : List WalBatch
  queue : ℕ → List WalBatch
  file : ℕ → List WalBatch

namespace LogState

variable {state state' : LogState} {sequence : UInt64}

inductive Action where
  /-- A commit reserves the next sequence. -/
  | reserve (operations : List BatchOperation)
  /-- A commit encodes its frame and enqueues it on the lane of its sequence. -/
  | enqueue (sequence : UInt64)
  /-- A commit is refused before its frame is enqueued, and gives up its slot. -/
  | refuse (sequence : UInt64)
  /-- The worker of a lane appends the first frame of its queue. -/
  | append (shard : ℕ)
  /-- The worker of a lane removes the frames up to a replay floor. -/
  | rewrite (shard : ℕ) (replayFloor : UInt64)
  deriving DecidableEq, Repr

def reserve (state : LogState) (operations : List BatchOperation) : Option LogState :=
  match state.tracker.reserveSlot with
  | .ok (sequence, tracker) =>
    some { state with
      tracker
      reserved := state.reserved ++ [⟨UInt64.ofNat sequence, operations⟩] }
  | .error _ => none

/-- The commits that wait to reach their lane, without the one of a sequence. -/
def reservedExcept (state : LogState) (sequence : UInt64) : List WalBatch :=
  state.reserved.filter fun batch => decide (batch.sequence ≠ sequence)

def enqueue (state : LogState) (sequence : UInt64) : Option LogState :=
  match state.reserved.find? fun batch => decide (batch.sequence = sequence) with
  | some batch =>
    match encodeBatchFrame batch.sequence batch.operations with
    | .ok _ =>
      let shard := state.frontDoor.shardIndexForSequence sequence
      some { state with
        reserved := state.reservedExcept sequence
        queue := update state.queue shard (state.queue shard ++ [batch]) }
    | .error _ => none
  | none => none

/-- Give up the slot of a commit. -/
def refuse (state : LogState) (sequence : UInt64) : Option LogState :=
  if state.reserved.any fun batch => decide (batch.sequence = sequence) then
    match state.tracker.markSkipped sequence.toNat with
    | .ok tracker => some { state with tracker, reserved := state.reservedExcept sequence }
    | .error _ => none
  else none

def append (state : LogState) (shard : ℕ) : Option LogState :=
  match state.queue shard with
  | batch :: batches =>
    some { state with
      queue := update state.queue shard batches
      file := update state.file shard (state.file shard ++ [batch]) }
  | [] => none

def rewrite (state : LogState) (shard : ℕ) (replayFloor : UInt64) : LogState :=
  { state with file := update state.file shard (above replayFloor (state.file shard)) }

def step (state : LogState) : Action → Option LogState
  | .reserve operations => state.reserve operations
  | .enqueue sequence => state.enqueue sequence
  | .refuse sequence => state.refuse sequence
  | .append shard => state.append shard
  | .rewrite shard replayFloor => some (state.rewrite shard replayFloor)

def streams (state : LogState) : List (List WalBatch) :=
  state.frontDoor.shards.map state.file

def Merges (state : LogState) : Prop :=
  (∀ shard, InOrder (state.file shard)) ∧
    ∃ merged, mergeBatchStreamsBySequence state.streams = .ok merged

/-- No commit overtakes a lower one of its lane: a frame is enqueued when no lower sequence of the
lane is still on its way. -/
def enqueuesInOrder (state : LogState) : Action → Prop
  | .enqueue sequence => ∀ batch ∈ state.reserved,
      state.frontDoor.shardIndexForSequence batch.sequence =
        state.frontDoor.shardIndexForSequence sequence → sequence ≤ batch.sequence
  | _ => True

instance (state : LogState) : DecidablePred state.enqueuesInOrder
  | .enqueue _ => inferInstanceAs (Decidable (∀ _ ∈ state.reserved, _ → _))
  | .reserve _ => inferInstanceAs (Decidable True)
  | .refuse _ => inferInstanceAs (Decidable True)
  | .append _ => inferInstanceAs (Decidable True)
  | .rewrite _ _ => inferInstanceAs (Decidable True)

/-! ## The invariant -/

def lane (state : LogState) (shard : ℕ) : List WalBatch :=
  state.file shard ++ state.queue shard

/-- Every lane is in order, no sequence occurs in two lanes, and a commit on its way to a lane has
a sequence above all of the lane. -/
structure Ordered (state : LogState) : Prop where
  inOrder : ∀ shard, InOrder (state.lane shard)
  le_last : ∀ shard, ∀ batch ∈ state.lane shard,
    batch.sequence.toNat ≤ state.tracker.lastReservedSequence
  distinct : ∀ shard other, shard ≠ other → ∀ batch ∈ state.lane shard,
    ∀ batch' ∈ state.lane other, batch.sequence ≠ batch'.sequence
  reserved_le : ∀ batch ∈ state.reserved,
    batch.sequence.toNat ≤ state.tracker.lastReservedSequence
  reserved_pos : ∀ batch ∈ state.reserved, 0 < batch.sequence
  reserved_ne : ∀ batch ∈ state.reserved, ∀ shard, ∀ batch' ∈ state.lane shard,
    batch'.sequence ≠ batch.sequence
  reserved_above : ∀ batch ∈ state.reserved,
    ∀ batch' ∈ state.lane (state.frontDoor.shardIndexForSequence batch.sequence),
      batch'.sequence < batch.sequence

/-- Nothing is on its way, and the files are those of a merged log, with no sequence above the
recovered one. -/
structure Opened (state : LogState) : Prop where
  reserved_eq : state.reserved = []
  queue_eq : ∀ shard, state.queue shard = []
  inOrder : ∀ shard, InOrder (state.file shard)
  distinct : ∀ shard other, shard ≠ other → ∀ batch ∈ state.file shard,
    ∀ batch' ∈ state.file other, batch.sequence ≠ batch'.sequence
  le_last : ∀ shard, ∀ batch ∈ state.file shard,
    batch.sequence.toNat ≤ state.tracker.lastReservedSequence

lemma Opened.ordered (h : state.Opened) : state.Ordered := by
  have hlane : ∀ shard, state.lane shard = state.file shard := by
    intro shard
    rw [lane, h.queue_eq, append_nil]
  have hreserved : ∀ batch, batch ∉ state.reserved := by simp [h.reserved_eq]
  exact
    { inOrder := fun shard => (hlane shard).symm ▸ h.inOrder shard
      le_last := fun shard batch hmem => h.le_last shard batch (hlane shard ▸ hmem)
      distinct := fun shard other hne batch hmem batch' hmem' =>
        h.distinct shard other hne batch (hlane shard ▸ hmem) batch' (hlane other ▸ hmem')
      reserved_le := fun batch hmem => absurd hmem (hreserved batch)
      reserved_pos := fun batch hmem => absurd hmem (hreserved batch)
      reserved_ne := fun batch hmem => absurd hmem (hreserved batch)
      reserved_above := fun batch hmem => absurd hmem (hreserved batch) }

/-- Steps that only remove commits and frames, or move frames along their lane, keep the order. -/
lemma Ordered.mono (h : state.Ordered)
    (hdoor : state'.frontDoor = state.frontDoor)
    (hlast : state'.tracker.lastReservedSequence = state.tracker.lastReservedSequence)
    (hreserved : state'.reserved ⊆ state.reserved)
    (hlane : ∀ shard, (state'.lane shard).Sublist (state.lane shard)) : state'.Ordered where
  inOrder shard := (h.inOrder shard).sublist (hlane shard)
  le_last shard batch hmem := by
    rw [hlast]
    exact h.le_last shard batch ((hlane shard).subset hmem)
  distinct shard other hne batch hmem batch' hmem' :=
    h.distinct shard other hne batch ((hlane shard).subset hmem) batch'
      ((hlane other).subset hmem')
  reserved_le batch hmem := by
    rw [hlast]
    exact h.reserved_le batch (hreserved hmem)
  reserved_pos batch hmem := h.reserved_pos batch (hreserved hmem)
  reserved_ne batch hmem shard batch' hmem' :=
    h.reserved_ne batch (hreserved hmem) shard batch' ((hlane shard).subset hmem')
  reserved_above batch hmem batch' hmem' := by
    rw [hdoor] at hmem'
    exact h.reserved_above batch (hreserved hmem) batch' ((hlane _).subset hmem')

/-- A reservation keeps the order: the new sequence is above all others. -/
lemma Ordered.reserve {operations : List BatchOperation}
    (h : state.Ordered) (hstep : state.reserve operations = some state') : state'.Ordered := by
  unfold LogState.reserve at hstep
  split at hstep
  case h_2 => cases hstep
  case h_1 sequence tracker hreserve =>
    obtain rfl := Option.some.inj hstep
    obtain ⟨hsequence, hlast, -, -⟩ := CommitTracker.reserveSlot_eq_ok hreserve
    have hmax := tracker.last_le
    have hnat : (UInt64.ofNat sequence).toNat = sequence := by
      have : maxSequence = 2 ^ 64 - 1 := rfl
      rw [UInt64.toNat_ofNat', Nat.mod_eq_of_lt (by omega)]
    have habove : ∀ batch : WalBatch,
        batch.sequence.toNat ≤ state.tracker.lastReservedSequence →
          batch.sequence < UInt64.ofNat sequence := by
      intro batch hle
      rw [UInt64.lt_iff_toNat_lt, hnat]
      omega
    have hne : ∀ batch : WalBatch,
        batch.sequence.toNat ≤ state.tracker.lastReservedSequence →
          batch.sequence ≠ UInt64.ofNat sequence := by
      intro batch hle heq
      have := congrArg UInt64.toNat heq
      rw [hnat] at this
      omega
    refine ⟨h.inOrder, fun shard batch hmem => ?_, h.distinct, ?_, ?_, ?_, ?_⟩
    · have := h.le_last shard batch hmem
      simp only
      omega
    all_goals
      intro batch hmem
      rcases mem_append.mp hmem with hmem | hmem
    · have := h.reserved_le batch hmem
      simp only
      omega
    · obtain rfl := mem_singleton.mp hmem
      simp only [hnat]
      omega
    · exact h.reserved_pos batch hmem
    · obtain rfl := mem_singleton.mp hmem
      rw [UInt64.lt_iff_toNat_lt, hnat]
      simp only [UInt64.toNat_zero]
      omega
    · exact h.reserved_ne batch hmem
    · obtain rfl := mem_singleton.mp hmem
      exact fun shard batch' hmem' => hne batch' (h.le_last shard batch' hmem')
    · exact h.reserved_above batch hmem
    · obtain rfl := mem_singleton.mp hmem
      exact fun batch' hmem' => habove batch' (h.le_last _ batch' hmem')

lemma enqueue_eq_some
    (h : state.enqueue sequence = some state') :
    ∃ batch ∈ state.reserved, batch.sequence = sequence ∧
      state' = { state with
        reserved := state.reservedExcept sequence
        queue := update state.queue (state.frontDoor.shardIndexForSequence sequence)
          (state.queue (state.frontDoor.shardIndexForSequence sequence) ++ [batch]) } := by
  unfold enqueue at h
  split at h
  case h_2 => cases h
  case h_1 batch hfind =>
    split at h
    case h_2 => cases h
    case h_1 =>
      have hsequence := List.find?_some hfind
      exact ⟨batch, mem_of_find?_eq_some hfind, of_decide_eq_true hsequence,
        (Option.some.inj h).symm⟩

/-- A commit that overtakes no lower one of its lane keeps the order.

**Proof sketch.** The lane of the commit gets a frame above all it has, by the invariant. A commit
that is still on its way to this lane has a higher sequence, by the condition, so it stays above
the lane; to other lanes nothing happens. -/
lemma Ordered.enqueue (h : state.Ordered)
    (hguard : state.enqueuesInOrder (.enqueue sequence))
    (hstep : state.enqueue sequence = some state') : state'.Ordered := by
  obtain ⟨batch, hbatch, rfl, rfl⟩ := enqueue_eq_some hstep
  let shard := state.frontDoor.shardIndexForSequence batch.sequence
  let state' : LogState := { state with
    reserved := state.reservedExcept batch.sequence
    queue := update state.queue shard (state.queue shard ++ [batch]) }
  have hself : state'.lane shard = state.lane shard ++ [batch] := by
    simp [state', lane]
  have hother : ∀ other, other ≠ shard → state'.lane other = state.lane other := by
    intro other hne
    simp [state', lane, update_of_ne hne]
  have hmem : ∀ other batch', batch' ∈ state'.lane other →
      batch' ∈ state.lane other ∨ other = shard ∧ batch' = batch := by
    intro other batch' hmem'
    by_cases heq : other = shard
    · subst heq
      rw [hself, mem_append, mem_singleton] at hmem'
      exact hmem'.imp id fun h => ⟨rfl, h⟩
    · exact .inl (hother other heq ▸ hmem')
  have hreserved : ∀ batch' ∈ state'.reserved,
      batch' ∈ state.reserved ∧ batch'.sequence ≠ batch.sequence := by
    intro batch' hmem'
    obtain ⟨hin, hne⟩ := mem_filter.mp hmem'
    exact ⟨hin, of_decide_eq_true hne⟩
  show state'.Ordered
  refine ⟨fun other => ?_, fun other batch' hmem' => ?_, fun first second hne a ha b hb => ?_,
    fun batch' hmem' => h.reserved_le batch' (hreserved batch' hmem').1,
    fun batch' hmem' => h.reserved_pos batch' (hreserved batch' hmem').1,
    fun batch' hmem' other a ha => ?_, fun batch' hmem' a ha => ?_⟩
  · by_cases heq : other = shard
    · subst heq
      rw [hself]
      exact (h.inOrder shard).append_singleton (h.reserved_pos batch hbatch)
        (h.reserved_above batch hbatch)
    · rw [hother other heq]
      exact h.inOrder other
  · rcases hmem other batch' hmem' with hold | ⟨-, rfl⟩
    · exact h.le_last other batch' hold
    · exact h.reserved_le batch' hbatch
  · rcases hmem first a ha with hold | ⟨hfirst, rfl⟩
    · rcases hmem second b hb with hold' | ⟨-, rfl⟩
      · exact h.distinct first second hne a hold b hold'
      · exact h.reserved_ne b hbatch first a hold
    · rcases hmem second b hb with hold' | ⟨hsecond, rfl⟩
      · exact (h.reserved_ne a hbatch second b hold').symm
      · exact absurd (hfirst.trans hsecond.symm) hne
  · obtain ⟨hin, hne⟩ := hreserved batch' hmem'
    rcases hmem other a ha with hold | ⟨-, rfl⟩
    · exact h.reserved_ne batch' hin other a hold
    · exact hne.symm
  · obtain ⟨hin, hne⟩ := hreserved batch' hmem'
    rcases hmem _ a ha with hold | ⟨hshard, rfl⟩
    · exact h.reserved_above batch' hin a hold
    · exact UInt64.lt_of_le_of_ne (hguard batch' hin hshard) hne.symm

lemma Ordered.refuse (h : state.Ordered)
    (hstep : state.refuse sequence = some state') : state'.Ordered := by
  unfold LogState.refuse at hstep
  split_ifs at hstep
  split at hstep
  case h_2 => cases hstep
  case h_1 tracker hskip =>
    obtain rfl := Option.some.inj hstep
    obtain ⟨-, hlast, -, -⟩ := CommitTracker.markTerminal_eq_ok (by decide) hskip
    exact h.mono rfl hlast filter_sublist.subset fun shard => List.Sublist.refl _

lemma Ordered.append {shard : ℕ} (h : state.Ordered)
    (hstep : state.append shard = some state') : state'.Ordered := by
  unfold LogState.append at hstep
  split at hstep
  case h_2 => cases hstep
  case h_1 batch batches hqueue =>
    obtain rfl := Option.some.inj hstep
    refine h.mono rfl rfl (List.Subset.refl _) fun other => ?_
    by_cases heq : other = shard
    · subst heq
      simp [lane, hqueue]
    · simp [lane, update_of_ne heq]

lemma Ordered.rewrite (h : state.Ordered) (shard : ℕ) (replayFloor : UInt64) :
    (state.rewrite shard replayFloor).Ordered := by
  refine h.mono rfl rfl (List.Subset.refl _) fun other => ?_
  by_cases heq : other = shard
  · subst heq
    simp only [LogState.rewrite, lane, update_self]
    exact List.Sublist.append filter_sublist (List.Sublist.refl _)
  · simp [LogState.rewrite, lane, update_of_ne heq]

lemma Ordered.step {action : Action} (h : state.Ordered)
    (hguard : state.enqueuesInOrder action) (hstep : state.step action = some state') :
    state'.Ordered := by
  cases action with
  | reserve operations => exact h.reserve hstep
  | enqueue sequence => exact h.enqueue hguard hstep
  | refuse sequence => exact h.refuse hstep
  | append shard => exact h.append hstep
  | rewrite shard replayFloor =>
    obtain rfl := Option.some.inj hstep
    exact h.rewrite shard replayFloor

lemma Ordered.merges (h : state.Ordered) : state.Merges := by
  have hfile : ∀ shard, (state.file shard).Sublist (state.lane shard) := fun shard =>
    sublist_append_left _ _
  have horder : ∀ shard, InOrder (state.file shard) := fun shard =>
    (h.inOrder shard).sublist (hfile shard)
  have hnodup : (state.streams.flatten.map WalBatch.sequence).Nodup := by
    rw [streams, ← flatMap_def, map_flatMap, nodup_flatMap]
    constructor
    · intro shard _
      exact pairwise_map.mpr ((horder shard).2.imp fun hlt => (UInt64.ne_of_lt hlt))
    · refine state.frontDoor.nodup.imp ?_
      intro shard other hne
      rw [onFun, disjoint_left]
      intro sequence hleft hright
      obtain ⟨batch, hmem, rfl⟩ := mem_map.mp hleft
      obtain ⟨batch', hmem', heq⟩ := mem_map.mp hright
      exact h.distinct shard other hne batch ((hfile shard).subset hmem) batch'
        ((hfile other).subset hmem') heq.symm
  have hstreams : ∀ stream ∈ state.streams, InOrder stream := by
    intro stream hmem
    obtain ⟨shard, -, rfl⟩ := mem_map.mp hmem
    exact horder shard
  obtain ⟨merged, hmerged, -, -⟩ := mergeBatchStreamsBySequence_eq_ok hstreams hnodup
  exact ⟨horder, merged, hmerged⟩

/-- When no commit overtakes a lower one on the way to its lane, every lane file is in order and
recovery merges the lanes, for every number of shards and in every state of every run of an opened
database.

**Proof sketch.** Every such step keeps the lanes ordered, and ordered lanes are merged. -/
theorem merges_of_run (opened state : LogState) (actions : List Action) (hopened : opened.Opened)
    (hrun : Runs.run step opened actions = some state)
    (hmeets : Runs.Meets step enqueuesInOrder opened actions) : state.Merges := by
  have hordered : state.Ordered :=
    Runs.invariant_of_step (fun _ _ _ h hguard hstep => h.step hguard hstep) hopened.ordered hrun
      hmeets
  exact hordered.merges

def twoLanes : LogState where
  frontDoor :=
    { activeShardCount := 2, shards := [0, 1], activeShardCount_pos := by decide
      active_mem := by decide, nodup := by decide }
  tracker := .new 0 (Nat.zero_le _)
  reserved := []
  queue _ := []
  file _ := []

/-- Three commits of one deletion each, the first and the third on the same lane, in order; the
second one, on the other lane, overtakes the first. -/
def inTurn : List Action :=
  [.reserve [.delete "b" [7]], .reserve [.delete "b" [7]], .enqueue 2, .reserve [.delete "b" [7]],
    .enqueue 1, .append 0, .enqueue 3, .append 1, .append 0]

theorem inTurn_merges : ∃ state, Runs.run step twoLanes inTurn = some state ∧
    state.streams.map (List.map WalBatch.sequence) = [[1, 3], [2]] ∧ state.Merges := by
  have hstreams : (Runs.run step twoLanes inTurn).map
      (fun state => state.streams.map (List.map WalBatch.sequence)) = some [[1, 3], [2]] := by
    decide
  obtain ⟨state, hrun, hstreams⟩ := Option.map_eq_some_iff.mp hstreams
  have hopened : twoLanes.Opened :=
    ⟨rfl, fun _ => rfl, fun _ => ⟨nofun, .nil⟩, fun _ _ _ => nofun, fun _ => nofun⟩
  exact ⟨state, hrun, hstreams, merges_of_run twoLanes state inTurn hopened hrun (by decide)⟩

/-- The same commits, but the third one reaches the lane before the first. -/
def overtaken : List Action :=
  [.reserve [.delete "b" [7]], .reserve [.delete "b" [7]], .enqueue 2, .reserve [.delete "b" [7]],
    .enqueue 3, .enqueue 1, .append 0, .append 0, .append 1]

/-- Recovery takes the log of that run for corruption. -/
theorem overtaken_not_merges : ∃ state, Runs.run step twoLanes overtaken = some state ∧
    state.streams.map (List.map WalBatch.sequence) = [[3, 1], [2]] ∧
    mergeBatchStreamsBySequence state.streams =
      .error (.invalidFormat "invalid WAL: WAL stream sequence did not increase") ∧
    ¬state.Merges := by
  have hstate : (Runs.run step twoLanes overtaken).map (fun state =>
      (state.streams.map (List.map WalBatch.sequence),
        mergeBatchStreamsBySequence state.streams)) =
      some ([[3, 1], [2]],
        .error (.invalidFormat "invalid WAL: WAL stream sequence did not increase")) := by
    decide
  obtain ⟨state, hrun, hstate⟩ := Option.map_eq_some_iff.mp hstate
  obtain ⟨hstreams, hmerge⟩ := Prod.mk.inj hstate
  refine ⟨state, hrun, hstreams, hmerge, ?_⟩
  rintro ⟨-, merged, hmerged⟩
  rw [hmerge] at hmerged
  cases hmerged

end LogState

end TrineKv.Wal
