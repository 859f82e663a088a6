import TrineKv.ObjectWal.Rewrite

/-!
# The object write-ahead log stays readable

Recovery refuses chains with more than `maxChainSegments` segments or `maxReplayBytes` bytes, and
every group commit makes the chain longer. Only rewrites make it shorter, and the worker does not ask
for one when a limit comes near: it acknowledges commits to a log that cannot be read any more.

## Main results

* `WalState.readable_of_run`: the log can be read.
-/

namespace TrineKv.ObjectWal

open List ByteCodec Function

open Wal FrameLog

/-- The segments that are found from a head, at most `limit` of them. -/
def followChain (objects : Objects) : ℕ → Option ObjectWalKey → List (ObjectWalKey × Segment)
  | 0, _ => []
  | _ + 1, none => []
  | limit + 1, some key =>
    match objects key with
    | none => []
    | some segment => (key, segment) :: followChain objects limit segment.previous

lemma followChain_eq {objects : Objects} {limit : ℕ} {head : Option ObjectWalKey}
    {chain : List (ObjectWalKey × Segment)}
    (h : LinkedLog.Chain objects Segment.previous head chain) (hlength : chain.length ≤ limit) :
    followChain objects limit head = chain := by
  induction h generalizing limit with
  | nil => cases limit <;> rfl
  | @cons key segment chain hstore _ ih =>
    cases limit with
    | zero => simp at hlength
    | succ limit =>
      rw [followChain, hstore]
      simp only [ih (Nat.le_of_succ_le_succ hlength)]

namespace WalState

variable (config : Config)

def Readable (state : WalState) : Prop :=
  ∃ batches, state.batchesAfter config state.replayFloor = .ok batches

/-- The chain from the head of the log. -/
def chain (state : WalState) : List (ObjectWalKey × Segment) :=
  followChain state.objects maxChainSegments state.lease.currentWalKey

/-- A group commit leaves the chain within the limits of the reader. A rewrite does not lower the
floor, and its segment is not in the chain already. -/
def staysWithinLimits (state : WalState) : Action → Prop
  | .commit accepts _ =>
    state.chain.length < maxChainSegments ∧
      match objectWalGroupFrameBytes state.lease.committedSequence (sortAccepts accepts) with
      | .error _ => True
      | .ok total => chainBytes config state.chain + segmentHeaderLen +
          previousLen config state.lease.currentWalKey + total ≤ maxReplayBytes
  | .rewrite replayFloor _ =>
    state.replayFloor ≤ replayFloor ∧ state.rewrittenBefore config replayFloor = false

instance (state : WalState) : DecidablePred (state.staysWithinLimits config)
  | .commit accepts _ =>
    have : Decidable (match objectWalGroupFrameBytes state.lease.committedSequence
        (sortAccepts accepts) with
      | .error _ => True
      | .ok total => chainBytes config state.chain + segmentHeaderLen +
          previousLen config state.lease.currentWalKey + total ≤ maxReplayBytes) := by
      split <;> infer_instance
    inferInstanceAs (Decidable (_ ∧ _))
  | .rewrite _ _ => inferInstanceAs (Decidable (_ ∧ _))

variable {config}

/-- The log is sound, reaches down to the manifest's floor and is within the limits of the
reader. -/
def Bounded (config : Config) (state : WalState) : Prop :=
  ∃ base chain contents, Logged config state.objects state.lease base chain contents ∧
    base ≤ state.replayFloor ∧ chain.length ≤ maxChainSegments ∧
    chainBytes config chain ≤ maxReplayBytes

lemma Bounded.readable {state : WalState} (h : Bounded config state) : state.Readable config := by
  obtain ⟨base, chain, contents, hlogged, hbase, hlength, hbytes⟩ := h
  obtain ⟨keys, hread⟩ := hlogged.readObjectWalChain hbase hlength hbytes
  exact ⟨_, batchesAfter_eq_ok hread⟩

lemma Bounded.commit {state state' : WalState} {accepts : List ObjectWalAccept} {expiry : UInt64}
    (h : Bounded config state) (hguard : state.staysWithinLimits config (.commit accepts expiry))
    (hstep : state.completeObjectWalAccepts config accepts expiry = .ok state') :
    Bounded config state' := by
  cases hlast : (sortAccepts accepts).getLast? with
  | none => rwa [completeObjectWalAccepts_nil hlast hstep]
  | some last =>
    obtain ⟨base, chain, contents, hlogged, hbase, hlength, hbytes⟩ := h
    obtain ⟨hpairwise, total, frames, key, htotal, hframes, hkey, hlen, hfree, rfl⟩ :=
      completeObjectWalAccepts_eq_ok hlast hstep
    obtain ⟨hholds, hconsecutive⟩ := groupFrames_spec hpairwise hlast hframes
    have hchain : state.chain = chain := followChain_eq hlogged.linked hlength
    obtain ⟨hsegments, hreplay⟩ := hguard
    rw [htotal, hchain] at hreplay
    rw [hchain] at hsegments
    have hframesLength := length_groupFrames hpairwise hlast hframes htotal
    have hverified : Verified config (key, ⟨state.lease.currentWalKey, frames⟩) :=
      ⟨hlen, by rw [hkey]⟩
    refine ⟨base, (key, ⟨state.lease.currentWalKey, frames⟩) :: chain, _ :: contents,
      (hlogged.put hfree).append (update_self _ _ _) hverified hholds hconsecutive rfl,
      hbase, by simpa using hsegments, ?_⟩
    simp only at hreplay
    rw [chainBytes, map_cons, sum_cons, ← chainBytes, segmentLen, hframesLength]
    show segmentHeaderLen + previousLen config state.lease.currentWalKey + total +
      chainBytes config chain ≤ maxReplayBytes
    omega

lemma Bounded.rewrite {state state' : WalState} {replayFloor expiry : UInt64}
    (h : Bounded config state) (hguard : state.staysWithinLimits config (.rewrite replayFloor expiry))
    (hstep : state.rewriteObjectWal config replayFloor expiry = .ok state') :
    Bounded config state' := by
  obtain ⟨base, chain, contents, hlogged, hbase, -, -⟩ := h
  have hafresh : state.rewritesAfresh config (.rewrite replayFloor expiry) := by
    refine ⟨fun hnone => ?_, hguard.2⟩
    -- Without a head the log is empty, so it ends at its base.
    have hcommitted := hlogged.committedSequence_eq_of_none hnone
    rw [hcommitted]
    exact UInt64.le_trans hbase hguard.1
  obtain ⟨hcommitted, hfloor, ⟨hle, hhead⟩ |
    ⟨batches, keys, key, frames, -, -, hconsecutive, hhead, hstored, hverified, hholds⟩⟩ :=
    rewriteObjectWal_spec hafresh hstep
  · refine ⟨state'.lease.committedSequence, [], [], .nil hhead, ?_, Nat.zero_le _, Nat.zero_le _⟩
    rwa [hcommitted, hfloor]
  · refine ⟨replayFloor, _, _, logged_singleton hhead hstored hverified hholds
      (hcommitted ▸ hconsecutive), hfloor ▸ UInt64.le_refl _, show 1 ≤ maxChainSegments by decide,
      chainBytes_singleton_le hverified⟩

lemma Bounded.step {state state' : WalState} {action : Action} (h : Bounded config state)
    (hguard : state.staysWithinLimits config action)
    (hstep : state.step config action = some state') : Bounded config state' := by
  cases action with
  | commit accepts expiry => exact h.commit hguard (toOption_eq_some.mp hstep)
  | rewrite replayFloor expiry => exact h.rewrite hguard (toOption_eq_some.mp hstep)

/-- In every run of group commits and rewrites whose commands stay within the limits of the reader,
from a new log or any other bounded one, recovery can read the log at the manifest's floor.

**Proof sketch.** Every such command keeps the log bounded, and a bounded log is readable. -/
theorem readable_of_run (config : Config) (start state : WalState) (actions : List Action)
    (hstart : Bounded config start) (hrun : Runs.run (step config) start actions = some state)
    (hmeets : Runs.Meets (step config) (staysWithinLimits config) start actions) :
    state.Readable config := by
  have hbounded : Bounded config state :=
    Runs.invariant_of_step (fun _ _ _ h hguard hstep => h.step hguard hstep) hstart hrun hmeets
  exact hbounded.readable

lemma bounded_empty : Bounded config empty :=
  ⟨0, [], [], .nil rfl, UInt64.le_refl _, Nat.zero_le _, Nat.zero_le _⟩

theorem commitRewriteCommit_readable :
    ∃ state, Runs.run (step framesConfig) empty
      [commitDelete 1, commitDelete 2, .rewrite 1 30000, commitDelete 3] = some state ∧
      state.Readable framesConfig := by
  have hrun : (Runs.run (step framesConfig) empty
      [commitDelete 1, commitDelete 2, .rewrite 1 30000, commitDelete 3]).isSome = true := by
    decide +kernel
  obtain ⟨state, hrun⟩ := Option.isSome_iff_exists.mp hrun
  exact ⟨state, hrun, readable_of_run framesConfig empty state _ bounded_empty hrun
    (by decide +kernel)⟩

/-! ## One segment too many -/

lemma ofBatch_delete (sequence : UInt64) :
    ∃ accept : ObjectWalAccept,
      ObjectWalAccept.ofBatch ⟨sequence, [.delete "b" [7]]⟩ = .ok accept ∧
      accept.sequence = sequence ∧ accept.frame.length = 41 := by
  have hfields : [BatchOperation.delete "b" [7]].mapM putOperation =
      .ok [[2, 1, 0, 0, 0, 98, 1, 0, 0, 0, 7]] := by decide
  have hpayload : encodePayload sequence [.delete "b" [7]] = .ok (leBytes 8 sequence.toNat ++
      (leBytes 4 1 ++ [2, 1, 0, 0, 0, 98, 1, 0, 0, 0, 7])) := by
    rw [encodePayload, if_pos (by decide), hfields]
    rfl
  have hframe := encodeBatchFrame_of_payload hpayload (by simp [maxWalFramePayloadBytes])
  have hencodes : encodesFrame ⟨sequence, [.delete "b" [7]]⟩ _ := hframe
  exact ⟨_, ObjectWalAccept.exists_ofBatch hencodes, rfl, by simp [headerLen]⟩

/-- The log after a number of commits of one deletion each: it is sound, its chain has a segment for
every commit, and no segment has a higher sequence. -/
structure Filled (state : WalState) (count : ℕ) : Prop where
  committed : state.lease.committedSequence.toNat = count
  floor : state.replayFloor = 0
  logged : ∃ chain contents,
    Logged framesConfig state.objects state.lease 0 chain contents ∧ chain.length = count
  free : ∀ key, count < key.sequence.toNat → state.objects key = none

lemma groupFrames_single {committedSequence : UInt64} {accept : ObjectWalAccept}
    (hmax : committedSequence.toNat ≠ maxSequence)
    (hnext : accept.sequence = committedSequence + 1) :
    groupFrames committedSequence [accept] = .ok accept.frame := by
  simp only [groupFrames, List.getLast?_singleton, if_neg hmax, groupFramesFrom, hnext,
    Nat.sub_self, gapFrames, ok_bind, if_neg (UInt64.lt_irrefl _), ne_eq,
    not_true_eq_false, decide_false, Bool.false_and, Bool.false_eq_true, if_false,
    nil_append]
  show Except.ok (accept.frame ++ []) = _
  rw [append_nil]

lemma objectWalGroupFrameBytes_single {committedSequence : UInt64} {accept : ObjectWalAccept}
    (hmax : committedSequence.toNat ≠ maxSequence)
    (hnext : accept.sequence = committedSequence + 1)
    (hbytes : accept.frame.length ≤ maxGroupFrameBytes) :
    objectWalGroupFrameBytes committedSequence [accept] = .ok accept.frame.length := by
  simp only [objectWalGroupFrameBytes, if_neg hmax, groupFrameBytesFrom, hnext,
    if_neg (UInt64.lt_irrefl _), Nat.sub_self, Nat.zero_mul, Nat.zero_add,
    if_neg (not_lt.mpr hbytes), isEmpty_nil, if_true]

lemma exists_completeObjectWalAccepts {state : WalState} {accept : ObjectWalAccept}
    {expiry : UInt64} (hmax : state.lease.committedSequence.toNat ≠ maxSequence)
    (hnext : accept.sequence = state.lease.committedSequence + 1)
    (hbytes : accept.frame.length ≤ maxGroupFrameBytes)
    (hprevious : previousLen config state.lease.currentWalKey < 2 ^ 32)
    (hlen : segmentLen config ⟨state.lease.currentWalKey, accept.frame⟩ ≤ maxSegmentBytes)
    (hlease : ∀ key, leaseHeaderLen + previousLen config (some key) ≤ leaseMaxBytes)
    (hfree : ∀ key : ObjectWalKey, state.lease.committedSequence < key.sequence →
      state.objects key = none) :
    ∃ state', state.completeObjectWalAccepts config [accept] expiry = .ok state' := by
  have hsucc := toNat_succ hmax
  have hlt : state.lease.committedSequence < accept.sequence := by
    rw [UInt64.lt_iff_toNat_lt, hnext, hsucc]
    omega
  have hcheck : checkIncreasing state.lease.committedSequence [accept] = .ok () :=
    checkIncreasing_eq_ok.mpr ⟨by simpa using hlt, pairwise_singleton _ _⟩
  have hsegment : encodeObjectWalSegment config state.lease.currentWalKey accept.frame =
      .ok ⟨state.lease.currentWalKey, accept.frame⟩ := by
    rw [encodeObjectWalSegment, if_neg (not_le.mpr hprevious),
      ensureCorruptionLen_eq_ok.mpr hlen]
    rfl
  have hput : ∀ key : ObjectWalKey, key.sequence = accept.sequence → ∀ segment,
      putImmutableObject config state.objects key segment =
        .ok (update state.objects key (some segment)) := by
    intro key hkey segment
    unfold putImmutableObject
    rw [hfree key (hkey ▸ hlt)]
  have hplan : ∀ key, state.lease.planCommitHead accept.sequence key expiry = .ok (.publish
      { state.lease with
        committedSequence := accept.sequence
        currentWalKey := some key
        leaseExpiresAtMs := expiry }) := by
    intro key
    rw [ObjectLeaseState.planCommitHead, if_neg (UInt64.lt_asymm hlt),
      if_neg (UInt64.ne_of_lt hlt)]
  have hsort : sortAccepts [accept] = [accept] := rfl
  unfold completeObjectWalAccepts
  simp only [hsort, hcheck, ok_bind, publishCommitBatch, List.getLast?_singleton,
    objectWalGroupFrameBytes_single hmax hnext hbytes, groupFrames_single hmax hnext, hsegment,
    hplan, encodeLeaseState, if_neg (not_lt.mpr (hlease _))]
  rw [hput ⟨.commit, state.lease.epoch, accept.sequence,
    config.digest ⟨state.lease.currentWalKey, accept.frame⟩⟩ rfl]
  exact ⟨_, rfl⟩

lemma Filled.commit {state : WalState} {count : ℕ} (h : Filled state count)
    (hcount : count < maxSequence) :
    ∃ state', state.step framesConfig (commitDelete (UInt64.ofNat (count + 1))) = some state' ∧
      Filled state' (count + 1) := by
  have hmax : state.lease.committedSequence.toNat ≠ maxSequence := by
    rw [h.committed]
    omega
  have hsucc := toNat_succ hmax
  obtain ⟨accept, haccept, hsequence, hlength⟩ := ofBatch_delete (UInt64.ofNat (count + 1))
  have hnext : accept.sequence = state.lease.committedSequence + 1 := by
    rw [hsequence, ← UInt64.toNat_inj, hsucc, h.committed, UInt64.toNat_ofNat', Nat.mod_eq_of_lt]
    have : maxSequence = 2 ^ 64 - 1 := rfl
    omega
  have hprevious : ∀ head, previousLen framesConfig head ≤ 9 := by
    intro head
    cases head with
    | none => exact Nat.zero_le _
    | some key => exact (show ("trine.wal".utf8ByteSize ≤ 9) by decide)
  have hprevious' := hprevious state.lease.currentWalKey
  have hlen : segmentLen framesConfig ⟨state.lease.currentWalKey, accept.frame⟩ ≤
      maxSegmentBytes := by
    have hmaxBytes : maxSegmentBytes = 134217728 := by decide
    simp only [segmentLen, segmentHeaderLen, hlength]
    omega
  obtain ⟨state', hstep⟩ := @exists_completeObjectWalAccepts framesConfig state accept 30000 hmax
    hnext (by rw [hlength]; decide) (by omega) hlen
    (fun key => by
      have := hprevious (some key)
      have hleaseMax : leaseMaxBytes = 65536 := by decide
      have hheader : leaseHeaderLen = 50 := rfl
      omega)
    (fun key hkey => h.free key (by rwa [UInt64.lt_iff_toNat_lt, h.committed] at hkey))
  have hstepped : state.step framesConfig (commitDelete (UInt64.ofNat (count + 1))) =
      some state' := by
    rw [commitDelete, haccept]
    exact toOption_eq_some.mpr hstep
  have hlast : (sortAccepts [accept]).getLast? = some accept := rfl
  obtain ⟨hpairwise, total, frames, key, -, hframes, hkey, -, hfree, rfl⟩ :=
    completeObjectWalAccepts_eq_ok hlast hstep
  obtain ⟨chain, contents, hlogged, hchain⟩ := h.logged
  obtain ⟨hholds, hconsecutive⟩ := groupFrames_spec hpairwise hlast hframes
  obtain rfl : accept.frame = frames :=
    Except.ok.inj ((groupFrames_single hmax hnext).symm.trans hframes)
  have hverified : Verified framesConfig (key, ⟨state.lease.currentWalKey, accept.frame⟩) :=
    ⟨hlen, by rw [hkey]⟩
  have hlogged' := @Logged.append _ _ _ _ _ _ (hlogged.put hfree)
    { state.lease with
      committedSequence := accept.sequence
      currentWalKey := some key
      leaseExpiresAtMs := 30000 } key _ _ (update_self _ _ _)
    hverified hholds hconsecutive rfl
  refine ⟨_, hstepped, ?_, ?_, ⟨_, _, hlogged', by simp [hchain]⟩, ?_⟩
  · simp only [hnext, hsucc, h.committed]
  · exact h.floor
  · intro other hother
    have hne : other ≠ key := by
      rintro rfl
      rw [hkey, hnext, hsucc, h.committed] at hother
      omega
    exact (update_of_ne hne _ _).trans (h.free other (by omega))

/-- A number of commits of one deletion each. -/
def commitDeletes (count : ℕ) : List Action :=
  (List.range count).map fun index => commitDelete (UInt64.ofNat (index + 1))

lemma exists_run_commitDeletes {count : ℕ} (hcount : count ≤ maxSequence) :
    ∃ state, Runs.run (step framesConfig) empty (commitDeletes count) = some state ∧
      Filled state count := by
  induction count with
  | zero =>
    exact ⟨empty, rfl, rfl, rfl, ⟨[], [], .nil rfl, rfl⟩, fun _ _ => rfl⟩
  | succ count ih =>
    obtain ⟨state, hrun, hfilled⟩ := ih (by omega)
    obtain ⟨state', hstep, hfilled'⟩ := hfilled.commit (by omega)
    refine ⟨state', ?_, hfilled'⟩
    rw [commitDeletes, range_succ, map_append, ← commitDeletes, Runs.run_append]
    exact ⟨state, hrun, Runs.run_cons_eq_some.mpr ⟨state', hstep, rfl⟩⟩

/-- After one commit more than the reader takes segments, all of them acknowledged, the log cannot
be read. -/
theorem manyCommits_not_readable :
    ∃ state, Runs.run (step framesConfig) empty (commitDeletes (maxChainSegments + 1)) =
      some state ∧ ¬state.Readable framesConfig := by
  obtain ⟨state, hrun, hfilled⟩ := exists_run_commitDeletes
    (show maxChainSegments + 1 ≤ maxSequence by decide)
  refine ⟨state, hrun, ?_⟩
  rintro ⟨batches, hread⟩
  obtain ⟨chain, contents, hlogged, hlength⟩ := hfilled.logged
  have hfloor : state.replayFloor < state.lease.committedSequence := by
    rw [hfilled.floor, UInt64.lt_iff_toNat_lt, hfilled.committed]
    decide
  cases hchain : readObjectWalChain framesConfig state.objects state.lease.committedSequence
      state.lease.currentWalKey state.replayFloor with
  | error error =>
    rw [batchesAfter, hchain] at hread
    cases hread
  | ok result =>
    exact hlogged.readObjectWalChain_ne_ok hfloor (Or.inl (by omega)) result hchain

end WalState

end TrineKv.ObjectWal
