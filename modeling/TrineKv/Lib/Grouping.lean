import Mathlib.Data.List.Dedup
import Mathlib.Order.Basic

/-!
# Runs of equal keys

`Grouping.runs` cuts a list into its maximal runs of neighbours with the same key. In a list
that is sorted by key the runs are the classes of elements with the same key, one for each key.

## Main results

* `Grouping.runs_cons`, `Grouping.flatten_runs`, `Grouping.runs_eq_of_sorted`,
  `Grouping.dedup_reverse_of_sorted`.
-/

namespace Grouping

open List

variable {α κ : Type*} [DecidableEq κ] (key : α → κ)

/-- The maximal runs of neighbours with the same key. -/
def runs : List α → List (κ × List α)
  | [] => []
  | a :: l =>
    match runs l with
    | [] => [(key a, [a])]
    | (k, group) :: groups =>
      if key a = k then (k, a :: group) :: groups
      else (key a, [a]) :: (k, group) :: groups

lemma runs_cons (a : α) (l : List α) :
    runs key (a :: l) =
      (key a, a :: l.takeWhile fun b => key b = key a) ::
        runs key (l.dropWhile fun b => key b = key a) := by
  induction l generalizing a with
  | nil => simp [runs]
  | cons b l ih =>
    rw [runs, ih b]
    by_cases h : key a = key b
    · simp [h]
    · have h' : key b ≠ key a := fun he => h he.symm
      simp [h, h', ih b]

lemma flatten_runs (l : List α) : (runs key l).flatMap Prod.snd = l := by
  induction l with
  | nil => rfl
  | cons a l ih =>
    cases hl : runs key l with
    | nil =>
      rw [hl] at ih
      simp_all [runs]
    | cons head groups =>
      obtain ⟨k, group⟩ := head
      rw [hl, flatMap_cons] at ih
      by_cases h : key a = k
      · simpa [runs, hl, h] using ih
      · simpa [runs, hl, h] using ih

lemma length_runs_le (l : List α) : (runs key l).length ≤ l.length := by
  induction l with
  | nil => exact Nat.le_refl 0
  | cons a l ih =>
    rw [runs, length_cons]
    split
    · simp
    · next hl =>
      rw [hl, length_cons] at ih
      split_ifs <;> simp only [length_cons] <;> omega

section Sorted

variable {key} {r : κ → κ → Prop}

/-- Elements with the key of the first one stand at the front of a sorted list. -/
lemma takeWhile_eq_filter_of_sorted [Std.Antisymm r] {a : α} {l : List α}
    (h : (a :: l).Pairwise fun x y => r (key x) (key y)) :
    (l.takeWhile fun b => key b = key a) = l.filter fun b => key b = key a := by
  induction l with
  | nil => rfl
  | cons b l ih =>
    have hab : r (key a) (key b) := rel_of_pairwise_cons h mem_cons_self
    by_cases hb : key b = key a
    · simp only [hb, decide_true, takeWhile_cons_of_pos, filter_cons_of_pos]
      rw [ih (h.sublist (List.Sublist.cons_cons a (sublist_cons_self b l)))]
    · rw [takeWhile_cons_of_neg (by simpa using hb), eq_comm, filter_eq_nil_iff]
      intro c hc
      rcases mem_cons.mp hc with rfl | hc
      · simpa using hb
      · have hbc : r (key b) (key c) :=
          rel_of_pairwise_cons (List.Pairwise.of_cons h) hc
        simp only [decide_eq_true_eq]
        intro hca
        exact hb (antisymm (hca ▸ hbc) hab)

/-- The elements with other keys than the first one follow. -/
lemma dropWhile_eq_filter_of_sorted [Std.Antisymm r] {a : α} {l : List α}
    (h : (a :: l).Pairwise fun x y => r (key x) (key y)) :
    (l.dropWhile fun b => key b = key a) = l.filter fun b => key b ≠ key a := by
  have hsplit := takeWhile_append_dropWhile (p := fun b => key b = key a) (l := l)
  have htake := takeWhile_eq_filter_of_sorted h
  have hdrop : ∀ b ∈ l.dropWhile (fun b => key b = key a), key b ≠ key a := by
    intro b hb heq
    have hcount := congrArg (List.countP fun b => decide (key b = key a)) hsplit
    rw [countP_append, htake, countP_filter] at hcount
    simp only [Bool.and_self] at hcount
    have hpos : 0 < (l.dropWhile fun b => key b = key a).countP fun b => decide (key b = key a) :=
      countP_pos_iff.mpr ⟨b, hb, by simpa using heq⟩
    omega
  calc (l.dropWhile fun b => key b = key a)
      = (l.dropWhile fun b => key b = key a).filter fun b => key b ≠ key a := by
        rw [eq_comm, filter_eq_self]
        exact fun b hb => by simpa using hdrop b hb
    _ = ((l.takeWhile fun b => key b = key a) ++ l.dropWhile fun b => key b = key a).filter
          fun b => key b ≠ key a := by
        rw [filter_append, htake, filter_filter]
        simp
    _ = l.filter fun b => key b ≠ key a := by rw [hsplit]

lemma dedup_append_of_forall_eq {k : κ} {front rest : List κ} (hfront : ∀ x ∈ front, x = k)
    (hrest : k ∉ rest) : (k :: (front ++ rest)).dedup = k :: rest.dedup := by
  induction front with
  | nil => rw [nil_append, dedup_cons_of_notMem hrest]
  | cons x front ih =>
    obtain rfl : x = k := hfront x mem_cons_self
    rw [dedup_cons_of_mem (by simp), cons_append]
    exact ih fun y hy => hfront y (mem_cons_of_mem _ hy)

/-- In a sorted list the runs are the classes of elements with the same key.

**Proof sketch.** Strong induction on the length. The first run consists of all elements with
the first key, and the list after it is the sorted list of the others. -/
theorem runs_eq_of_sorted [Std.Antisymm r] {l : List α}
    (h : l.Pairwise fun x y => r (key x) (key y)) :
    runs key l = (l.map key).dedup.map fun k => (k, l.filter fun a => key a = k) := by
  induction hn : l.length using Nat.strongRecOn generalizing l with
  | _ n ih =>
    cases l with
    | nil => rfl
    | cons a l =>
      have hdrop := dropWhile_eq_filter_of_sorted h
      set rest := l.filter fun b => key b ≠ key a with hrest
      have hsub : rest.Sublist (a :: l) :=
        filter_sublist.trans (sublist_cons_self a l)
      have hlt : rest.length < n := by
        have hle : rest.length ≤ l.length := length_filter_le _ _
        simp only [length_cons] at hn
        omega
      have hkeys : ((a :: l).map key).dedup = key a :: (rest.map key).dedup := by
        rw [map_cons, ← takeWhile_append_dropWhile (p := fun b => key b = key a)
          (l := l), hdrop, map_append]
        apply dedup_append_of_forall_eq
        · intro x hx
          obtain ⟨b, hb, rfl⟩ := mem_map.mp hx
          rw [takeWhile_eq_filter_of_sorted h] at hb
          simpa using (mem_filter.mp hb).2
        · simp [hrest]
      rw [runs_cons, hdrop, hkeys, map_cons, takeWhile_eq_filter_of_sorted h,
        ih _ hlt (h.sublist hsub) rfl]
      congr 1
      · simp
      · apply map_congr_left
        intro k hk
        have hne : k ≠ key a := by
          obtain ⟨b, hb, rfl⟩ := mem_map.mp (mem_dedup.mp hk)
          rw [hrest] at hb
          simpa using (mem_filter.mp hb).2
        congr 1
        rw [filter_cons_of_neg (by simpa using hne.symm), hrest, filter_filter]
        apply filter_congr
        intro b _
        by_cases hb : key b = k
        · simp [hb, hne]
        · simp [hb]

lemma dedup_reverse_of_sorted [Std.Antisymm r] {l : List κ} (h : l.Pairwise r) :
    l.reverse.dedup = l.dedup.reverse := by
  refine List.Perm.eq_of_pairwise (fun a b _ _ (hba : r b a) (hab : r a b) => antisymm hab hba)
    ?_ ?_ ?_
  · exact (pairwise_reverse.mpr h).sublist (dedup_sublist _)
  · exact pairwise_reverse.mpr (h.sublist (dedup_sublist _))
  · rw [perm_ext_iff_of_nodup (nodup_dedup _)
      (nodup_reverse.mpr (nodup_dedup _))]
    simp

end Sorted

end Grouping
