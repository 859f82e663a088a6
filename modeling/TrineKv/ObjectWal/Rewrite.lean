import TrineKv.ObjectWal.Worker

/-!
# Rewrites of the object write-ahead log

A rewrite stores the commits above the replay floor in one segment, publishes it and deletes the old
chain. The key of a segment is determined by its content, epoch and last sequence, so a second
rewrite in the same epoch finds its segment in the store, publishes it again, and deletes it with
the old chain.

## Main results

* `readsAlike_of_run`: a rewrite keeps what is read.
-/

namespace TrineKv.ObjectWal.WalState

open ByteCodec

open Wal FrameLog

variable (config : Config)
  {state state' : WalState} {batches : List WalBatch} {replayFloor expiry : UInt64}

/-- The chain holds a segment that the rewrite would write again. -/
def rewrittenBefore (state : WalState) (replayFloor : UInt64) : Bool :=
  match readObjectWalChain config state.objects state.lease.committedSequence
    state.lease.currentWalKey replayFloor with
  | .error _ => false
  | .ok (batches, keys) => keys.any fun key =>
    decide (key.kind = .rewrite) && decide (key.epoch = state.lease.epoch) &&
      decide (key.sequence = state.lease.committedSequence) &&
      match state.objects key with
      | none => false
      | some segment => segment.previous.isNone &&
          decide (decodeFramesAfter segment.frames 0 = .ok batches)

/-- A rewrite finds a chain, unless all commits are at or below the floor, and the chain does not
hold the segment of an earlier rewrite with the same commits. -/
def rewritesAfresh (state : WalState) : Action → Prop
  | .commit _ _ => True
  | .rewrite replayFloor _ =>
    (state.lease.currentWalKey = none → state.lease.committedSequence ≤ replayFloor) ∧
      state.rewrittenBefore config replayFloor = false

instance (state : WalState) : DecidablePred (state.rewritesAfresh config)
  | .commit _ _ => inferInstanceAs (Decidable True)
  | .rewrite _ _ => inferInstanceAs (Decidable (_ ∧ _))

/-- At every floor from the given one on, recovery can read both states, and reads the same
commits. -/
def ReadsAlike (before after : WalState) (replayFloor : UInt64) : Prop :=
  ∀ floor, replayFloor ≤ floor → ∃ batches,
    before.batchesAfter config floor = .ok batches ∧ after.batchesAfter config floor = .ok batches

variable {config}

lemma batchesAfter_eq_ok {floor : UInt64}
    {keys : List ObjectWalKey}
    (h : readObjectWalChain config state.objects state.lease.committedSequence
      state.lease.currentWalKey floor = .ok (batches, keys)) :
    state.batchesAfter config floor = .ok batches := by
  rw [batchesAfter, h]
  rfl

lemma batchesAfter_of_le {floor : UInt64}
    (h : state.lease.committedSequence ≤ floor) : state.batchesAfter config floor = .ok [] := by
  have hread : readObjectWalChain config state.objects state.lease.committedSequence
      state.lease.currentWalKey floor = .ok ([], []) := by
    unfold readObjectWalChain
    rw [if_pos h]
  exact batchesAfter_eq_ok hread

lemma putRewritten_eq_ok
    {objects : Objects} {head : Option ObjectWalKey} {last : WalBatch}
    (hlast : batches.getLast? = some last)
    (h : state.putRewritten config batches replayFloor = .ok (objects, head)) :
    ∃ frames, Holds encodesFrame (above replayFloor batches) frames ∧
      segmentLen config ⟨none, frames⟩ ≤ maxSegmentBytes ∧
      head = some ⟨.rewrite, state.lease.epoch, last.sequence, config.digest ⟨none, frames⟩⟩ ∧
      objects = Function.update state.objects
        ⟨.rewrite, state.lease.epoch, last.sequence, config.digest ⟨none, frames⟩⟩
        (some ⟨none, frames⟩) ∧
      (state.objects ⟨.rewrite, state.lease.epoch, last.sequence,
          config.digest ⟨none, frames⟩⟩ = none ∨
        state.objects ⟨.rewrite, state.lease.epoch, last.sequence,
          config.digest ⟨none, frames⟩⟩ = some ⟨none, frames⟩) := by
  unfold putRewritten at h
  rw [hlast] at h
  obtain ⟨frames, hframes, h⟩ := bind_eq_ok.mp h
  obtain ⟨segment, hsegment, h⟩ := bind_eq_ok.mp h
  obtain ⟨rfl, hlen⟩ := encodeObjectWalSegment_eq_ok hsegment
  obtain ⟨objects', hput, h⟩ := bind_eq_ok.mp h
  obtain ⟨rfl, rfl⟩ := Prod.mk.inj (Except.ok.inj h)
  obtain ⟨rfl, hfree⟩ := putImmutableObject_eq_ok hput
  exact ⟨frames, holds_encodeBatchesAfter hframes, hlen, rfl, rfl, hfree⟩

lemma rewriteObjectWal_eq_ok
    (hhead : state.lease.currentWalKey ≠ none)
    (h : state.rewriteObjectWal config replayFloor expiry = .ok state') :
    ∃ batches keys objects head,
      readObjectWalChain config state.objects state.lease.committedSequence
        state.lease.currentWalKey replayFloor = .ok (batches, keys) ∧
      state.putRewritten config batches replayFloor = .ok (objects, head) ∧
      state' =
        { objects := deleteAtOrBelow (deleteKeys objects keys) replayFloor
          lease := state.lease.planRewriteHead head expiry
          replayFloor } := by
  obtain ⟨⟨middle, keys⟩, hsegment, h⟩ := bind_eq_ok.mp h
  obtain rfl := Except.ok.inj h
  rw [rewriteSegmentAfterReplayFloor, if_neg (by simpa using hhead)] at hsegment
  obtain ⟨⟨batches, keys'⟩, hread, hsegment⟩ := bind_eq_ok.mp hsegment
  obtain ⟨⟨objects, head⟩, hput, hsegment⟩ := bind_eq_ok.mp hsegment
  obtain ⟨lease, hlease, hsegment⟩ := bind_eq_ok.mp hsegment
  obtain ⟨rfl, rfl⟩ := Prod.mk.inj (Except.ok.inj hsegment)
  obtain rfl := encodeLeaseState_eq_ok hlease
  exact ⟨batches, keys', objects, head, hread, hput, rfl⟩

lemma rewriteObjectWal_of_none
    (hhead : state.lease.currentWalKey = none)
    (h : state.rewriteObjectWal config replayFloor expiry = .ok state') :
    state'.lease = state.lease ∧ state'.replayFloor = replayFloor := by
  obtain ⟨⟨middle, keys⟩, hsegment, h⟩ := bind_eq_ok.mp h
  obtain rfl := Except.ok.inj h
  rw [rewriteSegmentAfterReplayFloor, if_pos (by rw [hhead]; rfl)] at hsegment
  obtain ⟨rfl, rfl⟩ := Prod.mk.inj (Except.ok.inj hsegment)
  exact ⟨rfl, rfl⟩

lemma logged_singleton {key : ObjectWalKey} {frames : List UInt8} {base : UInt64}
    (hhead : state.lease.currentWalKey = some key)
    (hstored : state.objects key = some ⟨none, frames⟩)
    (hverified : Verified config (key, ⟨none, frames⟩)) (hholds : Holds encodesFrame batches frames)
    (hconsecutive : Consecutive base state.lease.committedSequence batches) :
    Logged config state.objects state.lease base [(key, ⟨none, frames⟩)] [batches] :=
  ⟨by rw [hhead]; exact .cons hstored .nil, by simpa using hverified, .cons hholds .nil,
    by simpa using hconsecutive⟩

lemma chainBytes_singleton_le {entry : ObjectWalKey × Segment} (h : Verified config entry) :
    chainBytes config [entry] ≤ maxReplayBytes := by
  have hmax : maxSegmentBytes ≤ maxReplayBytes := by decide
  simpa [chainBytes] using h.1.trans hmax

lemma not_mem_of_rewrittenBefore {keys : List ObjectWalKey} {key : ObjectWalKey} {segment : Segment}
    (hbefore : state.rewrittenBefore config replayFloor = false)
    (hread : readObjectWalChain config state.objects state.lease.committedSequence
      state.lease.currentWalKey replayFloor = .ok (batches, keys))
    (hkey : key.kind = .rewrite ∧ key.epoch = state.lease.epoch ∧
      key.sequence = state.lease.committedSequence)
    (hstored : state.objects key = some segment) (hprevious : segment.previous = none)
    (hdecode : decodeFramesAfter segment.frames 0 = .ok batches) : key ∉ keys := by
  intro hmem
  unfold rewrittenBefore at hbefore
  rw [hread] at hbefore
  simp only [List.any_eq_false] at hbefore
  have := hbefore key hmem
  rw [hstored] at this
  simp [hkey, hprevious, hdecode] at this

/-- What a rewrite that meets the condition leaves: no head, if every commit is at or below the
floor, and otherwise a head without predecessor that holds the commits above the floor.

**Proof sketch.** In the second case the chain was read at the floor, its commits reach the committed
sequence, and the new segment holds them. Its key is not deleted: its sequence is the committed one,
which is above the floor, and it is no key of the old chain, since the old chain has no segment with
its content. -/
lemma rewriteObjectWal_spec
    (hguard : state.rewritesAfresh config (.rewrite replayFloor expiry))
    (h : state.rewriteObjectWal config replayFloor expiry = .ok state') :
    state'.lease.committedSequence = state.lease.committedSequence ∧
      state'.replayFloor = replayFloor ∧
      (state.lease.committedSequence ≤ replayFloor ∧ state'.lease.currentWalKey = none ∨
        ∃ batches keys key frames, replayFloor < state.lease.committedSequence ∧
          readObjectWalChain config state.objects state.lease.committedSequence
            state.lease.currentWalKey replayFloor = .ok (batches, keys) ∧
          Consecutive replayFloor state.lease.committedSequence batches ∧
          state'.lease.currentWalKey = some key ∧ state'.objects key = some ⟨none, frames⟩ ∧
          Verified config (key, ⟨none, frames⟩) ∧ Holds encodesFrame batches frames) := by
  by_cases hcommitted : state.lease.committedSequence ≤ replayFloor
  · by_cases hhead : state.lease.currentWalKey = none
    · obtain ⟨hlease, hfloor⟩ := rewriteObjectWal_of_none hhead h
      rw [hlease]
      exact ⟨rfl, hfloor, Or.inl ⟨hcommitted, hhead⟩⟩
    · obtain ⟨batches, keys, objects, head, hread, hput, rfl⟩ := rewriteObjectWal_eq_ok hhead h
      unfold readObjectWalChain at hread
      rw [if_pos hcommitted] at hread
      obtain ⟨rfl, rfl⟩ := Prod.mk.inj (Except.ok.inj hread)
      obtain ⟨rfl, rfl⟩ := Prod.mk.inj (Except.ok.inj hput)
      exact ⟨rfl, rfl, Or.inl ⟨hcommitted, rfl⟩⟩
  have hhead : state.lease.currentWalKey ≠ none := fun hnone => hcommitted (hguard.1 hnone)
  obtain ⟨batches, keys, objects, head, hread, hput, rfl⟩ := rewriteObjectWal_eq_ok hhead h
  obtain ⟨current, chain, contents, -, hwalk, hkeys, -, hconsecutive, -, -⟩ :=
    readObjectWalChain_eq_ok hcommitted hread
  obtain ⟨last, hlast, hlastSequence⟩ := hconsecutive.exists_last (UInt64.not_le.mp hcommitted)
  obtain ⟨frames, hholds, hlen, rfl, rfl, hfree⟩ := putRewritten_eq_ok hlast hput
  rw [hconsecutive.above_eq_self] at hholds
  rw [hlastSequence] at hfree ⊢
  -- The new segment is still stored after the deletions.
  have hkey : (⟨.rewrite, state.lease.epoch, state.lease.committedSequence,
      config.digest ⟨none, frames⟩⟩ : ObjectWalKey) ∉ keys := by
    rcases hfree with hnone | hsome
    · intro hmem
      rw [hkeys] at hmem
      obtain ⟨⟨key, segment⟩, hin, rfl⟩ := List.mem_map.mp hmem
      rw [hwalk.linked.store_eq hin] at hnone
      cases hnone
    · refine not_mem_of_rewrittenBefore hguard.2 hread ⟨rfl, rfl, rfl⟩ hsome rfl ?_
      rw [decodeFramesAfter_holds hholds, above, List.filter_eq_self.mpr]
      intro batch hmem
      have := UInt64.lt_iff_toNat_lt.mp (hconsecutive.bounds hmem).1
      refine decide_eq_true (UInt64.lt_iff_toNat_lt.mpr ?_)
      rw [UInt64.toNat_zero]
      omega
  refine ⟨rfl, rfl, Or.inr ⟨batches, keys, _, frames, UInt64.not_le.mp hcommitted, hread,
    hconsecutive, rfl, ?_, ⟨hlen, rfl⟩, hholds⟩⟩
  simp only [deleteAtOrBelow, if_neg hcommitted, deleteKeys, if_neg hkey, Function.update_self]

/-- One rewrite that meets the condition keeps what recovery reads.

**Proof sketch.** If all commits are at or below the floor, nothing is read before or after. If not,
the log after the rewrite is the one segment with the commits that were read before. -/
lemma readsAlike_rewrite
    (hguard : state.rewritesAfresh config (.rewrite replayFloor expiry))
    (h : state.rewriteObjectWal config replayFloor expiry = .ok state') :
    ReadsAlike config state state' replayFloor := by
  intro floor hfloor
  obtain ⟨hcommitted, -, ⟨hle, -⟩ |
    ⟨batches, keys, key, frames, -, hread, hconsecutive, hhead, hstored, hverified, hholds⟩⟩ :=
    rewriteObjectWal_spec hguard h
  · have hle := UInt64.le_trans hle hfloor
    exact ⟨[], batchesAfter_of_le hle, batchesAfter_of_le (hcommitted ▸ hle)⟩
  · obtain ⟨keys', hbefore⟩ := readObjectWalChain_of_le hfloor hread
    have hlogged := logged_singleton hhead hstored hverified hholds (hcommitted ▸ hconsecutive)
    obtain ⟨keys'', hafter⟩ := hlogged.readObjectWalChain hfloor (show 1 ≤ maxChainSegments by decide)
      (chainBytes_singleton_le hverified)
    rw [List.reverse_singleton, List.flatten_singleton] at hafter
    exact ⟨above floor batches, batchesAfter_eq_ok hbefore, batchesAfter_eq_ok hafter⟩

/-- In every run of commits and rewrites, from any state of the store, a rewrite that succeeds
keeps what recovery reads at its floor and above, when every rewrite of the run meets the
condition. -/
theorem readsAlike_of_run (config : Config) (start before after : WalState)
    (actions : List Action) (replayFloor expiry : UInt64)
    (hrun : Runs.run (step config) start actions = some before)
    (hrewrite : before.rewriteObjectWal config replayFloor expiry = .ok after)
    (hmeets : Runs.Meets (step config) (rewritesAfresh config) start
      (actions ++ [.rewrite replayFloor expiry])) :
    ReadsAlike config before after replayFloor := by
  have hguard := ((Runs.meets_append hrun).mp hmeets).2
  exact readsAlike_rewrite hguard.1 hrewrite

def framesConfig : Config := ⟨Segment.frames, fun _ => "trine.wal"⟩

/-- A new log: the lease has just been acquired and nothing is committed. -/
def empty : WalState := ⟨fun _ => none, ⟨1, [], 0, none, 30000⟩, 0⟩

/-- A group commit of one deletion. -/
def commitDelete (sequence : UInt64) : Action :=
  .commit (ObjectWalAccept.ofBatch ⟨sequence, [.delete "b" [7]]⟩).toOption.toList 30000

/-- Two commits, a rewrite, a commit and a rewrite at the same floor keep what recovery reads. -/
theorem rewriteCommitRewrite_readsAlike :
    ∃ before after,
      Runs.run (step framesConfig) empty
        [commitDelete 1, commitDelete 2, .rewrite 1 30000, commitDelete 3] = some before ∧
      before.rewriteObjectWal framesConfig 1 30000 = .ok after ∧
      ReadsAlike framesConfig before after 1 := by
  have hrun : (Runs.run (step framesConfig) empty
      [commitDelete 1, commitDelete 2, .rewrite 1 30000, commitDelete 3]).map (fun before =>
        (before.rewriteObjectWal framesConfig 1 30000).isOk) = some true := by
    decide +kernel
  obtain ⟨before, hrun, hok⟩ := Option.map_eq_some_iff.mp hrun
  cases hafter : before.rewriteObjectWal framesConfig 1 30000 with
  | error error =>
    rw [hafter] at hok
    cases hok
  | ok after =>
    exact ⟨before, after, hrun, hafter,
      readsAlike_of_run framesConfig empty before after _ 1 30000 hrun hafter (by decide +kernel)⟩

/-- A commit and two rewrites at the same floor: both rewrites succeed, and the second one deletes
the segment that it has just published as the head. -/
theorem rewriteTwice_not_readsAlike :
    ∃ before after,
      Runs.run (step framesConfig) empty [commitDelete 1, .rewrite 0 30000] = some before ∧
      before.rewriteObjectWal framesConfig 0 30000 = .ok after ∧
      before.batchesAfter framesConfig 0 = .ok [⟨1, [.delete "b" [7]]⟩] ∧
      after.batchesAfter framesConfig 0 =
        .error (.corruption "object WAL segment trine.wal is missing") ∧
      ¬ReadsAlike framesConfig before after 0 := by
  have hrun : (Runs.run (step framesConfig) empty [commitDelete 1, .rewrite 0 30000]).map
      (fun before => (before.batchesAfter framesConfig 0,
        (before.rewriteObjectWal framesConfig 0 30000).map fun after =>
          after.batchesAfter framesConfig 0)) =
      some (.ok [⟨1, [.delete "b" [7]]⟩],
        .ok (.error (.corruption "object WAL segment trine.wal is missing"))) := by
    decide +kernel
  obtain ⟨before, hrun, hreads⟩ := Option.map_eq_some_iff.mp hrun
  obtain ⟨hbefore, hafter⟩ := Prod.mk.inj hreads
  cases hrewrite : before.rewriteObjectWal framesConfig 0 30000 with
  | error error =>
    rw [hrewrite] at hafter
    cases hafter
  | ok after =>
    rw [hrewrite] at hafter
    have hafter : after.batchesAfter framesConfig 0 = _ := Except.ok.inj hafter
    refine ⟨before, after, hrun, hrewrite, hbefore, hafter, fun h => ?_⟩
    obtain ⟨batches, -, hread⟩ := h 0 (UInt64.le_refl _)
    rw [hafter] at hread
    cases hread

end TrineKv.ObjectWal.WalState
