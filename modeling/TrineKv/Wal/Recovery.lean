import Mathlib.Data.List.Sort
import TrineKv.Wal.Codec

/-!
# Merging the lanes of a write-ahead log

Recovery decodes every lane of the log and merges the lanes by sequence. It takes a lane whose
sequences do not increase, and a sequence that occurs in two lanes, for corruption.

## Main results

* `mergeBatchStreamsBySequence_congr`: lanes do not matter.
-/

namespace TrineKv.Wal

open List ByteCodec

variable {streams : List (List WalBatch)} {batches : List WalBatch}

def validateWalStreamOrderFrom : UInt64 → List WalBatch → Except Error Unit
  | _, [] => .ok ()
  | lastSeen, batch :: batches =>
    if batch.sequence ≤ lastSeen then .error (invalidWal "WAL stream sequence did not increase")
    else validateWalStreamOrderFrom batch.sequence batches

/-- Check that the sequences of a lane increase. -/
def validateWalStreamOrder (batches : List WalBatch) : Except Error Unit :=
  validateWalStreamOrderFrom 0 batches

def hasEqualNeighbours : List WalBatch → Bool
  | first :: second :: rest =>
    first.sequence == second.sequence || hasEqualNeighbours (second :: rest)
  | _ => false

def sequenceLe (left right : WalBatch) : Prop := left.sequence ≤ right.sequence

instance : DecidableRel sequenceLe := fun left right =>
  inferInstanceAs (Decidable (left.sequence ≤ right.sequence))

instance : Std.Total sequenceLe := ⟨fun _ _ => UInt64.le_total _ _⟩

instance : IsTrans WalBatch sequenceLe := ⟨fun _ _ _ => UInt64.le_trans⟩

def sortBySequence (batches : List WalBatch) : List WalBatch :=
  batches.insertionSort sequenceLe

def mergeBatchStreamsBySequence (streams : List (List WalBatch)) : Except Error (List WalBatch) := do
  streams.forM validateWalStreamOrder
  let merged := sortBySequence streams.flatten
  if hasEqualNeighbours merged then throw (invalidWal "duplicate WAL sequence across streams")
  return merged

/-- The sequences of a lane are positive and strictly increase. -/
def InOrder (batches : List WalBatch) : Prop :=
  (∀ batch ∈ batches, 0 < batch.sequence) ∧
    batches.Pairwise fun left right => left.sequence < right.sequence

lemma InOrder.sublist {batches batches' : List WalBatch} (h : InOrder batches)
    (hsub : batches'.Sublist batches) : InOrder batches' :=
  ⟨fun batch hmem => h.1 batch (hsub.subset hmem), h.2.sublist hsub⟩

lemma InOrder.append_singleton {batch : WalBatch} (h : InOrder batches)
    (hpos : 0 < batch.sequence) (habove : ∀ other ∈ batches, other.sequence < batch.sequence) :
    InOrder (batches ++ [batch]) := by
  constructor
  · intro other hmem
    rcases mem_append.mp hmem with hmem | hmem
    · exact h.1 other hmem
    · obtain rfl := mem_singleton.mp hmem
      exact hpos
  · rw [pairwise_append]
    refine ⟨h.2, pairwise_singleton _ _, fun other hother last hlast => ?_⟩
    obtain rfl := mem_singleton.mp hlast
    exact habove other hother

/-- The check passes exactly when the sequences lie above the last one seen and increase. -/
lemma validateWalStreamOrderFrom_eq_ok {lastSeen : UInt64} :
    validateWalStreamOrderFrom lastSeen batches = .ok () ↔
      (∀ batch ∈ batches, lastSeen < batch.sequence) ∧
        batches.Pairwise fun left right => left.sequence < right.sequence := by
  induction batches generalizing lastSeen with
  | nil => simp [validateWalStreamOrderFrom]
  | cons batch batches ih =>
    rw [validateWalStreamOrderFrom, pairwise_cons]
    split_ifs with hle
    · simp only [mem_cons, forall_eq_or_imp, false_iff, not_and]
      intro hlt
      exact absurd hlt.1 (UInt64.not_lt.mpr hle)
    · rw [UInt64.not_le] at hle
      rw [ih]
      constructor
      · rintro ⟨habove, hpairwise⟩
        refine ⟨?_, habove, hpairwise⟩
        rintro other (_ | ⟨_, hmem⟩)
        · exact hle
        · exact UInt64.lt_trans hle (habove other hmem)
      · rintro ⟨-, habove, hpairwise⟩
        exact ⟨habove, hpairwise⟩

lemma validateWalStreamOrder_eq_ok :
    validateWalStreamOrder batches = .ok () ↔ InOrder batches :=
  validateWalStreamOrderFrom_eq_ok

lemma hasEqualNeighbours_eq_false
    (h : (batches.map WalBatch.sequence).Nodup) : hasEqualNeighbours batches = false := by
  induction batches with
  | nil => rfl
  | cons first rest ih =>
    rw [map_cons, nodup_cons] at h
    cases rest with
    | nil => rfl
    | cons second rest =>
      rw [hasEqualNeighbours, ih h.2, Bool.or_false, beq_eq_false_iff_ne]
      intro heq
      exact h.1 (by simp [heq])

lemma forM_validateWalStreamOrder_eq_ok :
    streams.forM validateWalStreamOrder = .ok () ↔ ∀ stream ∈ streams, InOrder stream := by
  induction streams with
  | nil => exact ⟨fun _ => nofun, fun _ => rfl⟩
  | cons stream streams ih =>
    have hcons : (stream :: streams).forM validateWalStreamOrder =
        (validateWalStreamOrder stream >>= fun _ => streams.forM validateWalStreamOrder) := rfl
    rw [hcons, bind_eq_ok, forall_mem_cons, ← validateWalStreamOrder_eq_ok, ← ih]
    exact ⟨fun ⟨_, hfirst, hrest⟩ => ⟨hfirst, hrest⟩, fun ⟨hfirst, hrest⟩ => ⟨(), hfirst, hrest⟩⟩

lemma sortBySequence_perm (batches : List WalBatch) : (sortBySequence batches).Perm batches :=
  perm_insertionSort _ _

lemma sortBySequence_pairwise
    (hnodup : ((sortBySequence batches).map WalBatch.sequence).Nodup) :
    (sortBySequence batches).Pairwise fun left right => left.sequence < right.sequence := by
  have hsorted : (sortBySequence batches).Pairwise sequenceLe := pairwise_insertionSort _ _
  refine (hsorted.and (pairwise_map.mp hnodup)).imp ?_
  rintro left right ⟨hle, hne⟩
  exact UInt64.lt_of_le_of_ne hle hne

lemma sortBySequence_eq {batches target : List WalBatch} (hperm : batches.Perm target)
    (htarget : target.Pairwise fun left right => left.sequence < right.sequence) :
    sortBySequence batches = target := by
  have hall := (sortBySequence_perm batches).trans hperm
  have hnodup : ((sortBySequence batches).map WalBatch.sequence).Nodup :=
    (hall.map _).nodup_iff.mpr (pairwise_map.mpr (htarget.imp fun hlt => UInt64.ne_of_lt hlt))
  refine hall.eq_of_pairwise ?_ (sortBySequence_pairwise hnodup) htarget
  intro left right _ _ hlt hgt
  exact absurd hgt (UInt64.lt_asymm hlt)

lemma mergeBatchStreamsBySequence_eq_ok
    (horder : ∀ stream ∈ streams, InOrder stream)
    (hnodup : (streams.flatten.map WalBatch.sequence).Nodup) :
    ∃ merged, mergeBatchStreamsBySequence streams = .ok merged ∧ merged.Perm streams.flatten ∧
      InOrder merged := by
  have hperm := sortBySequence_perm streams.flatten
  have hnodup' : ((sortBySequence streams.flatten).map WalBatch.sequence).Nodup :=
    (hperm.map _).nodup_iff.mpr hnodup
  refine ⟨sortBySequence streams.flatten, ?_, hperm, ?_, sortBySequence_pairwise hnodup'⟩
  · have hvalidate := forM_validateWalStreamOrder_eq_ok.mpr horder
    rw [mergeBatchStreamsBySequence, hvalidate]
    simp only [ok_bind, hasEqualNeighbours_eq_false hnodup']
    rfl
  · intro batch hmem
    obtain ⟨stream, hstream, hbatch⟩ := mem_flatten.mp (hperm.mem_iff.mp hmem)
    exact (horder stream hstream).1 batch hbatch

/-! ## The number of lanes -/

instance (batches : List WalBatch) : Decidable (InOrder batches) :=
  inferInstanceAs (Decidable (_ ∧ _))

lemma nodup_of_hasEqualNeighbours (hsorted : batches.Pairwise sequenceLe)
    (h : hasEqualNeighbours batches = false) : (batches.map WalBatch.sequence).Nodup := by
  induction batches with
  | nil => exact nodup_nil
  | cons first rest ih =>
    obtain ⟨hfirst, hrest⟩ := pairwise_cons.mp hsorted
    cases rest with
    | nil => exact nodup_singleton _
    | cons second rest =>
      obtain ⟨hne, hneighbours⟩ := Bool.or_eq_false_iff.mp h
      refine nodup_cons.mpr ⟨fun hmem => ?_, ih hrest hneighbours⟩
      obtain ⟨other, hother, hsame⟩ := mem_map.mp hmem
      -- All that follows lies at or above the second batch, which is above the first one.
      have hsecond : second.sequence ≤ other.sequence := by
        rcases mem_cons.mp hother with rfl | hother
        · exact UInt64.le_refl _
        · exact (pairwise_cons.mp hrest).1 other hother
      refine absurd (UInt64.le_antisymm (hfirst second mem_cons_self) ?_) (by simpa using hne)
      rwa [← hsame]

/-- Recovery does not depend on how many lanes the log has and on which lane a batch went to: lanes
in order with the same batches are merged to the same batches, or refused with the same error. -/
theorem mergeBatchStreamsBySequence_congr {streams others : List (List WalBatch)}
    (horder : ∀ stream ∈ streams, InOrder stream) (hothers : ∀ stream ∈ others, InOrder stream)
    (hperm : streams.flatten.Perm others.flatten) :
    mergeBatchStreamsBySequence streams = mergeBatchStreamsBySequence others := by
  have hsorted : ∀ batches, (sortBySequence batches).Pairwise sequenceLe :=
    fun _ => pairwise_insertionSort _ _
  have hall : (sortBySequence streams.flatten).Perm (sortBySequence others.flatten) :=
    (sortBySequence_perm _).trans (hperm.trans (sortBySequence_perm _).symm)
  rw [mergeBatchStreamsBySequence, mergeBatchStreamsBySequence,
    forM_validateWalStreamOrder_eq_ok.mpr horder, forM_validateWalStreamOrder_eq_ok.mpr hothers]
  cases hleft : hasEqualNeighbours (sortBySequence streams.flatten) with
  | false =>
    have hnodup := nodup_of_hasEqualNeighbours (hsorted _) hleft
    have hnodup' := (hall.map WalBatch.sequence).nodup_iff.mp hnodup
    have heq : sortBySequence streams.flatten = sortBySequence others.flatten :=
      sortBySequence_eq (hperm.trans (sortBySequence_perm _).symm) (sortBySequence_pairwise hnodup')
    simp only [ok_bind, ← heq, hleft]
  | true =>
    cases hright : hasEqualNeighbours (sortBySequence others.flatten) with
    | true => simp only [ok_bind, hleft, hright]; rfl
    | false =>
      have hnodup := nodup_of_hasEqualNeighbours (hsorted _) hright
      rw [hasEqualNeighbours_eq_false ((hall.map WalBatch.sequence).nodup_iff.mpr hnodup)] at hleft
      cases hleft

theorem mergeBatchStreamsBySequence_twoLanes :
    mergeBatchStreamsBySequence [[⟨1, []⟩, ⟨3, []⟩], [⟨2, []⟩]] =
      mergeBatchStreamsBySequence [[⟨1, []⟩, ⟨2, []⟩, ⟨3, []⟩]] :=
  mergeBatchStreamsBySequence_congr (by decide) (by decide) (by decide)

end TrineKv.Wal
