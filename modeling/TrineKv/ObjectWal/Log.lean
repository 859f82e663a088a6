import TrineKv.ObjectWal.Lease

/-!
# The log that a segment chain stands for

A lease state and the segments in the store stand for a log: the commits of the chain's segments,
the oldest segment first. The log is sound when its commits are consecutive up to the committed
sequence. A group commit appends to it, and recovery reads it, at every floor that it reaches down
to, as long as the chain is within the limits of the reader.

## Main results

* `Logged.append`, `Logged.readObjectWalChain`, `Logged.put`.
-/

namespace TrineKv.ObjectWal

open List

open Wal FrameLog

variable {config : Config} {objects : Objects} {lease : ObjectLeaseState} {base : UInt64}
  {chain : List (ObjectWalKey × Segment)} {contents : List (List WalBatch)}

/-- From the head on there is a chain of sound segments, newest first, whose contents are
consecutive from above `base` to the committed sequence. -/
structure Logged (config : Config) (objects : Objects) (lease : ObjectLeaseState) (base : UInt64)
    (chain : List (ObjectWalKey × Segment)) (contents : List (List WalBatch)) : Prop where
  linked : LinkedLog.Chain objects Segment.previous lease.currentWalKey chain
  verified : ∀ entry ∈ chain, Verified config entry
  holds : List.Forall₂ (fun entry content => Holds encodesFrame content entry.2.frames)
    chain contents
  consecutive : Consecutive base lease.committedSequence contents.reverse.flatten

namespace Logged

lemma nil (hhead : lease.currentWalKey = none) :
    Logged config objects lease lease.committedSequence [] [] :=
  ⟨by rw [hhead]; exact .nil, nofun, .nil, .nil _⟩

lemma of_lease {lease' : ObjectLeaseState} (h : Logged config objects lease base chain contents)
    (hhead : lease'.currentWalKey = lease.currentWalKey)
    (hcommitted : lease'.committedSequence = lease.committedSequence) :
    Logged config objects lease' base chain contents :=
  ⟨hhead ▸ h.linked, h.verified, h.holds, hcommitted ▸ h.consecutive⟩

lemma put (h : Logged config objects lease base chain contents) {key : ObjectWalKey}
    {segment : Segment} (hfree : objects key = none ∨ objects key = some segment) :
    Logged config (Function.update objects key (some segment)) lease base chain contents :=
  ⟨h.linked.put hfree, h.verified, h.holds, h.consecutive⟩

lemma append (h : Logged config objects lease base chain contents) {lease' : ObjectLeaseState}
    {key : ObjectWalKey} {frames : List UInt8} {batches : List WalBatch}
    (hstored : objects key = some ⟨lease.currentWalKey, frames⟩)
    (hverified : Verified config (key, ⟨lease.currentWalKey, frames⟩))
    (hholds : Holds encodesFrame batches frames)
    (hconsecutive : Consecutive lease.committedSequence lease'.committedSequence batches)
    (hhead : lease'.currentWalKey = some key) :
    Logged config objects lease' base ((key, ⟨lease.currentWalKey, frames⟩) :: chain)
      (batches :: contents) where
  linked := by
    rw [hhead]
    exact .cons hstored h.linked
  verified := by
    rw [forall_mem_cons]
    exact ⟨hverified, h.verified⟩
  holds := .cons hholds h.holds
  consecutive := by
    rw [reverse_cons, flatten_append, flatten_singleton]
    exact h.consecutive.append hconsecutive

lemma flatMap_upTo (h : Logged config objects lease base chain contents) :
    contents.flatMap (upTo lease.committedSequence) = contents.flatten := by
  have hcontent : ∀ content ∈ contents, upTo lease.committedSequence content = content := by
    intro content hmem
    rw [upTo, filter_eq_self]
    intro batch hbatch
    have hlog : batch ∈ contents.reverse.flatten :=
      mem_flatten.mpr ⟨content, mem_reverse.mpr hmem, hbatch⟩
    exact decide_eq_true (h.consecutive.bounds hlog).2
  rw [flatMap_def, map_congr_left hcontent, map_id']

lemma committedSequence_eq_of_none (h : Logged config objects lease base chain contents)
    (hhead : lease.currentWalKey = none) : lease.committedSequence = base := by
  have hlinked := h.linked
  rw [hhead] at hlinked
  cases hlinked
  cases h.holds
  have hle := UInt64.le_iff_toNat_le.mp h.consecutive.1
  have hlength := congrArg List.length h.consecutive.2
  simp only [reverse_nil, flatten_nil, map_nil, length_nil,
    length_range'] at hlength
  exact UInt64.toNat_inj.mp (by omega)

/-- Recovery reads the log above every floor that the log reaches down to, when its chain is within
the limits.

**Proof sketch.** The segments decode to what they hold above the floor. What is collected is a
permutation of the log above the floor, which is consecutive up to the committed sequence. -/
lemma readObjectWalChain (h : Logged config objects lease base chain contents) {floor : UInt64}
    (hbase : base ≤ floor) (hlength : chain.length ≤ maxChainSegments)
    (hbytes : chainBytes config chain ≤ maxReplayBytes) :
    ∃ keys, readObjectWalChain config objects lease.committedSequence lease.currentWalKey floor =
      .ok (above floor contents.reverse.flatten, keys) := by
  by_cases hfloor : lease.committedSequence ≤ floor
  · refine ⟨[], ?_⟩
    unfold ObjectWal.readObjectWalChain
    rw [if_pos hfloor, above, filter_eq_nil_iff.mpr]
    intro batch hmem
    simpa using UInt64.le_trans (h.consecutive.bounds hmem).2 hfloor
  have hlt := UInt64.le_of_lt (UInt64.not_le.mp hfloor)
  obtain ⟨current, hhead⟩ : ∃ current, lease.currentWalKey = some current := by
    cases hhead : lease.currentWalKey with
    | some current => exact ⟨current, rfl⟩
    | none =>
      rw [h.committedSequence_eq_of_none hhead] at hfloor
      exact absurd hbase hfloor
  have hwalk : Walk config objects floor (some current) chain (contents.map (above floor)) := by
    refine ⟨hhead ▸ h.linked, h.verified, ?_⟩
    rw [List.forall₂_map_right_iff]
    exact h.holds.imp fun _ _ hholds => decodeFramesAfter_holds hholds floor
  have hperm : ((contents.map (above floor)).flatMap (upTo lease.committedSequence)).Perm
      (above floor contents.reverse.flatten) := by
    rw [flatMap_upTo_above, h.flatMap_upTo]
    exact ((reverse_perm contents).flatten.symm).filter _
  rw [hhead]
  exact ⟨chain.map Prod.fst, readObjectWalChain_of_walk hfloor hwalk hperm
    (h.consecutive.above hbase hlt) hlength hbytes⟩

lemma readObjectWalChain_ne_ok (h : Logged config objects lease base chain contents)
    {floor : UInt64} (hfloor : floor < lease.committedSequence)
    (hlong : maxChainSegments < chain.length ∨ maxReplayBytes < chainBytes config chain)
    (result : List WalBatch × List ObjectWalKey) :
    ObjectWal.readObjectWalChain config objects lease.committedSequence lease.currentWalKey
      floor ≠ .ok result := by
  intro hread
  obtain ⟨current, chain', contents', hhead, hwalk, -, -, -, hlength, hbytes⟩ :=
    readObjectWalChain_eq_ok (UInt64.not_le.mpr hfloor) hread
  obtain rfl := h.linked.unique (hhead ▸ hwalk.linked)
  omega

end Logged

end TrineKv.ObjectWal
