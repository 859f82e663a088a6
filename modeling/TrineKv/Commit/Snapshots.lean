import Mathlib.Data.List.MinMax
import TrineKv.Keys.Record
import TrineKv.Lib.Runs

/-!
# Snapshots and the floors of compactions

The floor of a compaction is the least sequence pinned when it begins, but not more than the
retained floor computed before. A reader loads the last committed sequence and pins it in a second
step; a reader of an older version is admitted by the tracker, against the floors of running
compactions and the retained floor. Checkpoints stay the same.

## Main results

* `SnapshotState.admitted_of_run`: readers are admitted.
* `SnapshotState.lateReader_not_admitted`: one that is not.
-/

namespace TrineKv

open List

/-! ## The tracker -/

/-- The pinned sequences and the floors of running compactions, each as often as it counts. -/
structure SnapshotTracker where
  active : List ℕ
  compactionFloors : List ℕ
  deriving DecidableEq, Repr

/-- Whether a version can be read. -/
inductive SnapshotReachability where
  | tooNew
  | tooOld
  | reachable
  deriving DecidableEq, Repr

/-- Whether a version can be read, given the oldest and the latest one. -/
def classifySnapshotReachability (requested oldestRetained latest : ℕ) : SnapshotReachability :=
  if latest < requested then .tooNew
  else if requested < oldestRetained then .tooOld
  else .reachable

namespace SnapshotTracker

variable (tracker : SnapshotTracker)

def pin (readSequence : ℕ) : SnapshotTracker :=
  { tracker with active := readSequence :: tracker.active }

def unpin (readSequence : ℕ) : SnapshotTracker :=
  { tracker with active := tracker.active.erase readSequence }

def pinnedRetainedSnapshot (readSequence latestSequence retainedFloor : ℕ) :
    Except Error SnapshotTracker :=
  if tracker.compactionFloors.max?.any fun floor => readSequence < floor then
    .error (.runtimeBusy
      "requested snapshot is older than an admitted compaction; retry after maintenance")
  else
    let oldestRetained := min (tracker.active.min?.getD latestSequence) retainedFloor
    match classifySnapshotReachability readSequence oldestRetained latestSequence with
    | .tooNew => .error (.readVersionTooNew readSequence latestSequence)
    | .tooOld => .error (.readVersionExpired readSequence oldestRetained)
    | .reachable => .ok (tracker.pin readSequence)

def beginCompaction (retainedFloorWithoutSnapshots : ℕ) : ℕ × SnapshotTracker :=
  let floor := min (tracker.active.min?.getD retainedFloorWithoutSnapshots)
    retainedFloorWithoutSnapshots
  (floor, { tracker with compactionFloors := floor :: tracker.compactionFloors })

def endCompaction (floor : ℕ) : SnapshotTracker :=
  { tracker with compactionFloors := tracker.compactionFloors.erase floor }

variable {tracker} {readSequence latestSequence retainedFloor : ℕ}

lemma beginCompaction_le (retained : ℕ) :
    (tracker.beginCompaction retained).1 ≤ retained ∧
      ∀ pinned ∈ tracker.active, (tracker.beginCompaction retained).1 ≤ pinned := by
  refine ⟨min_le_right _ _, fun pinned hmem => (min_le_left _ _).trans ?_⟩
  cases hmin : tracker.active.min? with
  | none => simp [List.min?_eq_none_iff.mp hmin] at hmem
  | some least => exact (List.min?_eq_some_iff.mp hmin).2 pinned hmem

/-- An admitted version is pinned. It is not below the floor of a running compaction, and it is at
least the retained floor or a sequence that is pinned already, provided the retained floor is not
above the latest version. -/
lemma pinnedRetainedSnapshot_eq_ok {tracker' : SnapshotTracker}
    (h : tracker.pinnedRetainedSnapshot readSequence latestSequence retainedFloor = .ok tracker')
    (hretained : retainedFloor ≤ latestSequence) :
    tracker' = tracker.pin readSequence ∧
      (∀ floor ∈ tracker.compactionFloors, floor ≤ readSequence) ∧
      (retainedFloor ≤ readSequence ∨ ∃ pinned ∈ tracker.active, pinned ≤ readSequence) := by
  simp only [pinnedRetainedSnapshot, classifySnapshotReachability] at h
  split_ifs at h with hbusy hnew hold
  refine ⟨(Except.ok.inj h).symm, fun floor hmem => ?_, ?_⟩
  · cases hmax : tracker.compactionFloors.max? with
    | none => simp [List.max?_eq_none_iff.mp hmax] at hmem
    | some greatest =>
      have hle := (List.max?_eq_some_iff.mp hmax).2 floor hmem
      rw [hmax] at hbusy
      exact hle.trans (by simpa using hbusy)
  · rw [not_lt] at hold
    cases hmin : tracker.active.min? with
    | none =>
      rw [hmin, Option.getD_none, min_eq_right hretained] at hold
      exact .inl hold
    | some least =>
      rw [hmin, Option.getD_some, min_le_iff] at hold
      refine hold.symm.imp_right fun hle => ⟨least, ?_, hle⟩
      exact (List.min?_eq_some_iff.mp hmin).1

end SnapshotTracker

/-! ## Retention -/

/-- How many versions are kept, and the sequences of the checkpoints. -/
structure Retention where
  keepLastReadVersions : ℕ
  checkpoints : List ℕ
  deriving DecidableEq, Repr

namespace Retention

variable (retention : Retention)

/-- The oldest of the kept versions. -/
def configuredRetentionFloor (latest : ℕ) : ℕ := latest - (retention.keepLastReadVersions - 1)

def oldestCheckpointSequenceOr (fallback : ℕ) : ℕ := retention.checkpoints.min?.getD fallback

/-- The oldest version that is kept when nothing is pinned. -/
def retainedFloor (latest : ℕ) : ℕ :=
  min (retention.configuredRetentionFloor latest) (retention.oldestCheckpointSequenceOr latest)

variable {retention}

lemma retainedFloor_le (latest : ℕ) : retention.retainedFloor latest ≤ latest :=
  (min_le_left _ _).trans (Nat.sub_le _ _)

lemma retainedFloor_mono {left right : ℕ} (h : left ≤ right) :
    retention.retainedFloor left ≤ retention.retainedFloor right := by
  refine min_le_min (Nat.sub_le_sub_right h _) ?_
  rw [oldestCheckpointSequenceOr, oldestCheckpointSequenceOr]
  cases retention.checkpoints.min? with
  | none => exact h
  | some oldest => exact le_rfl

end Retention

/-! ## Readers and compactions -/

/-- A reader between its two steps, with the number of compactions that had begun when it loaded. -/
structure Reader where
  sequence : ℕ
  begunBefore : ℕ
  deriving DecidableEq, Repr

/-- A request for a version, with the number of compactions that had begun when it loaded. -/
structure Request where
  version : ℕ
  latest : ℕ
  begunBefore : ℕ
  deriving DecidableEq, Repr

structure BegunCompaction where
  retained : ℕ
  floor : ℕ
  pinned : List ℕ
  deriving DecidableEq, Repr

/-- A snapshot that has been handed out: its sequence, and how many compactions had begun when it
was pinned. -/
structure HandedOut where
  readSequence : ℕ
  begunBefore : ℕ
  deriving DecidableEq, Repr

/-- Readers, requests and compactions between their steps, and all compactions and snapshots so far.
-/
structure SnapshotState where
  tracker : SnapshotTracker
  lastCommitted : ℕ
  readers : List Reader
  requests : List Request
  planned : List ℕ
  begun : List BegunCompaction
  handedOut : List HandedOut
  deriving DecidableEq, Repr

namespace SnapshotState

/-- A database with a last committed sequence, without readers. -/
def opened (lastCommitted : ℕ) : SnapshotState := ⟨⟨[], []⟩, lastCommitted, [], [], [], [], []⟩

/-- One step of a client or of a compaction. -/
inductive Action where
  | commit (sequence : ℕ)
  | load
  | pin (index : ℕ)
  | clone (readSequence : ℕ)
  | drop (readSequence : ℕ)
  | request (version : ℕ)
  | classify (index : ℕ)
  | plan
  | begin (index : ℕ)
  | finish (floor : ℕ)
  deriving DecidableEq, Repr

def handOut (state : SnapshotState) (readSequence : ℕ) : SnapshotState :=
  { state with
    tracker := state.tracker.pin readSequence
    handedOut := ⟨readSequence, state.begun.length⟩ :: state.handedOut }

def step (retention : Retention) (state : SnapshotState) : Action → Option SnapshotState
  | .commit sequence =>
    if state.lastCommitted < sequence then some { state with lastCommitted := sequence } else none
  | .load =>
    some { state with readers := ⟨state.lastCommitted, state.begun.length⟩ :: state.readers }
  -- A transaction pins its sequence again for each of its reads.
  | .pin index => state.readers[index]?.map fun reader => state.handOut reader.sequence
  | .clone readSequence =>
    if readSequence ∈ state.tracker.active then some (state.handOut readSequence) else none
  | .drop readSequence =>
    if readSequence ∈ state.tracker.active then
      some { state with tracker := state.tracker.unpin readSequence }
    else none
  | .request version =>
    some { state with
      requests := ⟨version, state.lastCommitted, state.begun.length⟩ :: state.requests }
  | .classify index =>
    state.requests[index]?.map fun request =>
      let state := { state with requests := state.requests.eraseIdx index }
      match state.tracker.pinnedRetainedSnapshot request.version request.latest
          (retention.retainedFloor request.latest) with
      | .ok tracker =>
        { state with
          tracker
          handedOut := ⟨request.version, state.begun.length⟩ :: state.handedOut }
      | .error _ => state
  | .plan => some { state with planned := state.lastCommitted :: state.planned }
  | .begin index =>
    state.planned[index]?.map fun latest =>
      let retained := retention.retainedFloor latest
      let (floor, tracker) := state.tracker.beginCompaction retained
      { state with
        tracker
        planned := state.planned.eraseIdx index
        begun := state.begun ++ [⟨retained, floor, state.tracker.active⟩] }
  | .finish floor =>
    if floor ∈ state.tracker.compactionFloors then
      some { state with tracker := state.tracker.endCompaction floor }
    else none

/-- No snapshot was pinned below the floor of a begun compaction, and no compaction began with a
floor above a pinned sequence. -/
def Admitted (state : SnapshotState) : Prop :=
  (∀ snapshot ∈ state.handedOut, ∀ compaction ∈ state.begun.take snapshot.begunBefore,
    compaction.floor ≤ snapshot.readSequence) ∧
  ∀ compaction ∈ state.begun, ∀ pinned ∈ compaction.pinned, compaction.floor ≤ pinned

/-- Of the compactions that have begun since a reader has loaded its sequence, none has a retained
floor above it. Of those since a request has loaded the last committed sequence, each is still
running or has a retained floor not above that of the request. -/
def windowClear (retention : Retention) (state : SnapshotState) : Action → Prop
  | .pin index => ∀ reader ∈ state.readers[index]?,
      ∀ compaction ∈ state.begun.drop reader.begunBefore, compaction.retained ≤ reader.sequence
  | .classify index => ∀ request ∈ state.requests[index]?,
      ∀ compaction ∈ state.begun.drop request.begunBefore,
        compaction.floor ∈ state.tracker.compactionFloors ∨
          compaction.retained ≤ retention.retainedFloor request.latest
  | _ => True

/-! ## The invariant -/

/-- Retained floors rise and bound the floors; nothing pinned is below a floor; what readers and
requests have loaded bounds all earlier floors. -/
structure Sound (retention : Retention) (state : SnapshotState) : Prop where
  admitted : state.Admitted
  floor_le : ∀ compaction ∈ state.begun, compaction.floor ≤ compaction.retained
  retained_le : ∀ compaction ∈ state.begun,
    compaction.retained ≤ retention.retainedFloor state.lastCommitted
  planned_le : ∀ latest ∈ state.planned, latest ≤ state.lastCommitted
  active : ∀ pinned ∈ state.tracker.active, ∀ compaction ∈ state.begun, compaction.floor ≤ pinned
  readers : ∀ reader ∈ state.readers, reader.begunBefore ≤ state.begun.length ∧
    ∀ compaction ∈ state.begun.take reader.begunBefore, compaction.retained ≤ reader.sequence
  requests : ∀ request ∈ state.requests, request.begunBefore ≤ state.begun.length ∧
    ∀ compaction ∈ state.begun.take request.begunBefore,
      compaction.retained ≤ retention.retainedFloor request.latest
  handedOut : ∀ snapshot ∈ state.handedOut, snapshot.begunBefore ≤ state.begun.length

namespace Sound

variable {retention : Retention} {state : SnapshotState}

lemma opened (lastCommitted : ℕ) : (SnapshotState.opened lastCommitted).Sound retention := by
  constructor <;> simp [SnapshotState.opened, Admitted]

lemma mem_take_or_drop {begun : List BegunCompaction} {compaction : BegunCompaction} (n : ℕ)
    (h : compaction ∈ begun) : compaction ∈ begun.take n ∨ compaction ∈ begun.drop n := by
  rwa [← mem_append, take_append_drop]

lemma handOut (h : state.Sound retention) {readSequence : ℕ}
    (hfloors : ∀ compaction ∈ state.begun, compaction.floor ≤ readSequence) :
    (state.handOut readSequence).Sound retention where
  admitted := by
    refine ⟨forall_mem_cons.mpr ⟨fun compaction hmem => ?_, h.admitted.1⟩, h.admitted.2⟩
    exact hfloors compaction (mem_of_mem_take hmem)
  floor_le := h.floor_le
  retained_le := h.retained_le
  planned_le := h.planned_le
  active := forall_mem_cons.mpr ⟨hfloors, h.active⟩
  readers := h.readers
  requests := h.requests
  handedOut := forall_mem_cons.mpr ⟨le_rfl, h.handedOut⟩

lemma giveUp (h : state.Sound retention) {tracker : SnapshotTracker}
    (hactive : tracker.active ⊆ state.tracker.active) :
    { state with tracker }.Sound retention :=
  { h with active := fun pinned hmem => h.active pinned (hactive hmem) }

lemma load (h : state.Sound retention) :
    { state with
      readers := ⟨state.lastCommitted, state.begun.length⟩ :: state.readers }.Sound retention :=
  { h with
    readers := forall_mem_cons.mpr ⟨⟨le_rfl, fun compaction hmem =>
      (h.retained_le compaction (mem_of_mem_take hmem)).trans
        (Retention.retainedFloor_le _)⟩, h.readers⟩ }

lemma request (h : state.Sound retention) (version : ℕ) :
    { state with
      requests := ⟨version, state.lastCommitted, state.begun.length⟩ :: state.requests }.Sound
        retention :=
  { h with
    requests := forall_mem_cons.mpr ⟨⟨le_rfl, fun compaction hmem =>
      h.retained_le compaction (mem_of_mem_take hmem)⟩, h.requests⟩ }

lemma commit (h : state.Sound retention) {sequence : ℕ} (hlt : state.lastCommitted < sequence) :
    { state with lastCommitted := sequence }.Sound retention :=
  { h with
    retained_le := fun compaction hmem =>
      (h.retained_le compaction hmem).trans (Retention.retainedFloor_mono hlt.le)
    planned_le := fun latest hmem => (h.planned_le latest hmem).trans hlt.le }

lemma floor_le_reader (h : state.Sound retention) {reader : Reader} (hmem : reader ∈ state.readers)
    (hclear : ∀ compaction ∈ state.begun.drop reader.begunBefore,
      compaction.retained ≤ reader.sequence) :
    ∀ compaction ∈ state.begun, compaction.floor ≤ reader.sequence := by
  intro compaction hbegun
  refine (h.floor_le compaction hbegun).trans ?_
  rcases mem_take_or_drop reader.begunBefore hbegun with hbefore | hsince
  · exact (h.readers reader hmem).2 compaction hbefore
  · exact hclear compaction hsince

/-- A request that is admitted, and for which every compaction of the meantime is still running or
has a retained floor that is not higher, is above all floors.

**Proof sketch.** The version is at least the retained floor of the request or at least a pinned
sequence. In the second case it is above all floors, as the pinned sequence is. In the first case
the floors from before are bounded by the retained floor of the request, and those of the meantime
by the condition or by the tracker. -/
lemma floor_le_request (h : state.Sound retention) {request : Request}
    (hmem : request ∈ state.requests) {tracker : SnapshotTracker}
    (hreachable : state.tracker.pinnedRetainedSnapshot request.version request.latest
      (retention.retainedFloor request.latest) = .ok tracker)
    (hclear : ∀ compaction ∈ state.begun.drop request.begunBefore,
      compaction.floor ∈ state.tracker.compactionFloors ∨
        compaction.retained ≤ retention.retainedFloor request.latest) :
    ∀ compaction ∈ state.begun, compaction.floor ≤ request.version := by
  intro compaction hbegun
  obtain ⟨-, hrunning, hversion⟩ := SnapshotTracker.pinnedRetainedSnapshot_eq_ok hreachable
    (Retention.retainedFloor_le _)
  rcases hversion with hretained | ⟨pinned, hpinned, hle⟩
  · have hfloor := h.floor_le compaction hbegun
    rcases mem_take_or_drop request.begunBefore hbegun with hbefore | hsince
    · exact (hfloor.trans ((h.requests request hmem).2 compaction hbefore)).trans hretained
    · rcases hclear compaction hsince with hstill | hlow
      · exact hrunning _ hstill
      · exact (hfloor.trans hlow).trans hretained
  · exact (h.active pinned hpinned compaction hbegun).trans hle

lemma beginCompaction (h : state.Sound retention) {latest : ℕ} (hmem : latest ∈ state.planned)
    (index : ℕ) :
    { state with
      tracker := (state.tracker.beginCompaction (retention.retainedFloor latest)).2
      planned := state.planned.eraseIdx index
      begun := state.begun ++ [BegunCompaction.mk (retention.retainedFloor latest)
        (state.tracker.beginCompaction (retention.retainedFloor latest)).1
        state.tracker.active] }.Sound retention := by
  obtain ⟨hretained, hpinned⟩ :=
    @SnapshotTracker.beginCompaction_le state.tracker (retention.retainedFloor latest)
  have htake : ∀ {n}, n ≤ state.begun.length → ∀ last : BegunCompaction,
      (state.begun ++ [last]).take n = state.begun.take n := fun hle _ =>
    take_append_of_le_length hle
  have hall : ∀ {p : BegunCompaction → Prop} {last : BegunCompaction},
      (∀ compaction ∈ state.begun, p compaction) → p last →
        ∀ compaction ∈ state.begun ++ [last], p compaction := fun hbegun hlast =>
    forall_mem_append.mpr ⟨hbegun, forall_mem_singleton.mpr hlast⟩
  have hlength : ∀ {n} {last : BegunCompaction}, n ≤ state.begun.length →
      n ≤ (state.begun ++ [last]).length := fun hle =>
    hle.trans (by rw [length_append]; exact Nat.le_add_right _ _)
  refine ⟨⟨fun snapshot hsnapshot => ?_, ?_⟩, ?_, ?_, ?_, ?_, ?_, ?_, ?_⟩
  · rw [htake (h.handedOut snapshot hsnapshot)]
    exact h.admitted.1 snapshot hsnapshot
  · exact hall h.admitted.2 hpinned
  · exact hall h.floor_le hretained
  · exact hall h.retained_le (Retention.retainedFloor_mono (h.planned_le latest hmem))
  · exact fun other hother => h.planned_le other (mem_of_mem_eraseIdx hother)
  · exact fun pinned hactive => hall (h.active pinned hactive) (hpinned pinned hactive)
  · intro reader hreader
    obtain ⟨hle, hbefore⟩ := h.readers reader hreader
    exact ⟨hlength hle, by rw [htake hle]; exact hbefore⟩
  · intro request hrequest
    obtain ⟨hle, hbefore⟩ := h.requests request hrequest
    exact ⟨hlength hle, by rw [htake hle]; exact hbefore⟩
  · exact fun snapshot hsnapshot => hlength (h.handedOut snapshot hsnapshot)

lemma step (h : state.Sound retention) {action : Action} {state' : SnapshotState}
    (hguard : state.windowClear retention action)
    (hstep : SnapshotState.step retention state action = some state') :
    state'.Sound retention := by
  cases action with
  | commit sequence =>
    simp only [SnapshotState.step] at hstep
    split_ifs at hstep with hlt
    cases hstep
    exact h.commit hlt
  | load =>
    cases hstep
    exact h.load
  | pin index =>
    obtain ⟨reader, hreader, rfl⟩ := Option.map_eq_some_iff.mp hstep
    exact h.handOut (h.floor_le_reader (mem_of_getElem? hreader) (hguard reader hreader))
  | clone readSequence =>
    simp only [SnapshotState.step] at hstep
    split_ifs at hstep with hmem
    cases hstep
    exact h.handOut (h.active readSequence hmem)
  | drop readSequence =>
    simp only [SnapshotState.step] at hstep
    split_ifs at hstep
    cases hstep
    exact h.giveUp erase_subset
  | request version =>
    cases hstep
    exact h.request version
  | classify index =>
    obtain ⟨request, hrequest, rfl⟩ := Option.map_eq_some_iff.mp hstep
    have herase : { state with requests := state.requests.eraseIdx index }.Sound retention :=
      { h with
        requests := fun other hmem => h.requests other (mem_of_mem_eraseIdx hmem) }
    dsimp only
    split
    · next tracker hreachable =>
      obtain ⟨rfl, -⟩ := SnapshotTracker.pinnedRetainedSnapshot_eq_ok hreachable
        (Retention.retainedFloor_le _)
      exact herase.handOut (h.floor_le_request (mem_of_getElem? hrequest) hreachable
        (hguard request hrequest))
    · exact herase
  | plan =>
    cases hstep
    exact { h with
      planned_le := forall_mem_cons.mpr ⟨le_rfl, h.planned_le⟩ }
  | begin index =>
    obtain ⟨latest, hlatest, rfl⟩ := Option.map_eq_some_iff.mp hstep
    exact h.beginCompaction (mem_of_getElem? hlatest) index
  | finish floor =>
    simp only [SnapshotState.step] at hstep
    split_ifs at hstep
    cases hstep
    exact h.giveUp (List.Subset.refl _)

end Sound

/-! ## Runs -/

instance (retention : Retention) (state : SnapshotState) :
    DecidablePred (state.windowClear retention) := fun action => by
  unfold windowClear
  split <;> infer_instance

/-- In every run of readers, requests, drops, commits and compactions whose steps meet the
condition, no snapshot that has been handed out is below the floor of a compaction that began
before it was pinned, and no compaction has a floor above a snapshot that was pinned when it
began. -/
theorem admitted_of_run (retention : Retention) (lastCommitted : ℕ) (state : SnapshotState)
    (actions : List Action)
    (hrun : Runs.run (step retention) (opened lastCommitted) actions = some state)
    (hmeets : Runs.Meets (step retention) (windowClear retention) (opened lastCommitted) actions) :
    state.Admitted := by
  have hsound : state.Sound retention :=
    Runs.invariant_of_step (fun _ _ _ h hguard hstep => h.step hguard hstep)
      (.opened lastCommitted) hrun hmeets
  exact hsound.admitted

/-- Nothing but the latest version is kept. -/
def keepLatest : Retention := ⟨1, []⟩

theorem pinnedCompaction_admitted :
    ∃ state, Runs.run (step keepLatest) (opened 1)
        [.load, .pin 0, .commit 2, .plan, .begin 0, .request 2, .classify 0, .finish 1] =
          some state ∧
      state.Admitted := by
  have hrun : (Runs.run (step keepLatest) (opened 1)
      [.load, .pin 0, .commit 2, .plan, .begin 0, .request 2, .classify 0, .finish 1]).isSome := by
    decide
  obtain ⟨state, hrun⟩ := Option.isSome_iff_exists.mp hrun
  exact ⟨state, hrun, admitted_of_run keepLatest 1 state _ hrun (by decide)⟩

/-- Between the two steps of a reader at sequence 1 a commit and a compaction begin, whose floor
is 2. The same happens to a request for version 1 when the compaction is over before the request is
admitted. -/
theorem lateReader_not_admitted :
    (∃ state, Runs.run (step keepLatest) (opened 1)
        [.load, .commit 2, .plan, .begin 0, .pin 0] = some state ∧ ¬state.Admitted) ∧
      ∃ state, Runs.run (step keepLatest) (opened 1)
        [.request 1, .commit 2, .plan, .begin 0, .finish 2, .classify 0] = some state ∧
          ¬state.Admitted := by
  have hfails : ∀ {state : SnapshotState} {rest : List HandedOut} {compaction : BegunCompaction},
      state.handedOut = ⟨1, 1⟩ :: rest → state.begun = [compaction] → compaction.floor = 2 →
        ¬state.Admitted := by
    intro state rest compaction hhanded hbegun hfloor hadmitted
    have hle := hadmitted.1 ⟨1, 1⟩ (by simp [hhanded]) compaction (by simp [hbegun])
    simp [hfloor] at hle
  exact ⟨⟨_, rfl, hfails rfl rfl rfl⟩, _, rfl, hfails rfl rfl rfl⟩

end SnapshotState

end TrineKv
