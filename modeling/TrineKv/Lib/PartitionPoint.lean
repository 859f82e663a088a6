import Mathlib.Data.List.Sort
import Mathlib.Data.List.TakeWhile
import Mathlib.Order.Basic

/-!
# Partition points of predicates on an index range

A predicate on `[0, n)` that never turns from false back to true has one *partition point*: the
number of indices that satisfy it. A linear and a binary search both find it.

## Main results

* `PartitionPoint.binary_spec`: the search finds the point.
-/

namespace PartitionPoint

open List

variable {n : ℕ} {p : ℕ → Bool}

/-- `p` never turns from false back to true on `[0, n)`. -/
def InitiallyTrue (n : ℕ) (p : ℕ → Bool) : Prop :=
  ∀ i j, i ≤ j → j < n → p j = true → p i = true

/-- `i` is the partition point of `p` on `[0, n)`: `p` holds below `i` and fails from `i` on. -/
def IsPartitionPoint (n : ℕ) (p : ℕ → Bool) (i : ℕ) : Prop :=
  i ≤ n ∧ (∀ j < i, p j = true) ∧ ∀ j, i ≤ j → j < n → p j = false

/-- The first index of `[0, n)` at which `p` fails, or `n`. -/
def linear (n : ℕ) (p : ℕ → Bool) : ℕ :=
  ((List.range n).find? fun i => !p i).getD n

lemma linear_spec (hp : InitiallyTrue n p) :
    IsPartitionPoint n p (linear n p) := by
  unfold linear
  cases hf : (List.range n).find? fun i => !p i with
  | none =>
    rw [List.find?_eq_none] at hf
    simp only [Option.getD_none]
    refine ⟨le_rfl, fun j hj => ?_, fun j h1 h2 => by omega⟩
    have := hf j (mem_range.mpr hj)
    simpa using this
  | some k =>
    simp only [Option.getD_some]
    rw [List.find?_range_eq_some] at hf
    obtain ⟨hpk, hkn, hbelow⟩ := hf
    have hpk' : p k = false := by simpa using hpk
    have hkn' : k < n := by simpa using hkn
    refine ⟨hkn'.le, fun j hj => by simpa using hbelow j hj, fun j h1 h2 => ?_⟩
    by_contra hne
    have hpj : p j = true := by simpa using hne
    simp [hp k j h1 h2 hpj] at hpk'

/-- The bisection loop on `[lo, hi)`, with `fuel` bounding the number of iterations. -/
def bisect (p : ℕ → Bool) : ℕ → ℕ → ℕ → ℕ
  | 0, lo, _ => lo
  | fuel + 1, lo, hi =>
    if lo < hi then
      if p (lo + (hi - lo) / 2) then bisect p fuel (lo + (hi - lo) / 2 + 1) hi
      else bisect p fuel lo (lo + (hi - lo) / 2)
    else lo

/-- Binary search for the partition point of `p` on `[0, n)`; `n` iterations suffice because
each one shortens the interval. -/
def binary (n : ℕ) (p : ℕ → Bool) : ℕ :=
  bisect p n 0 n

/-- The bisection loop keeps "true below `lo`, false from `hi` on" and ends at the partition
point.

**Proof sketch.** Induction on the fuel. The middle index is either true, and then everything
up to it is, or false, and then everything from it on is; both halves are shorter than the
interval, so the remaining fuel covers them. -/
lemma bisect_spec (hp : InitiallyTrue n p) :
    ∀ fuel lo hi, hi - lo ≤ fuel → lo ≤ hi → hi ≤ n → (∀ j < lo, p j = true) →
      (∀ j, hi ≤ j → j < n → p j = false) → IsPartitionPoint n p (bisect p fuel lo hi) := by
  intro fuel
  induction fuel with
  | zero =>
    intro lo hi hf hle hn hlt hge
    obtain rfl : lo = hi := by omega
    exact ⟨hn, hlt, hge⟩
  | succ fuel ih =>
    intro lo hi hf hle hn hlt hge
    simp only [bisect]
    split_ifs with hlohi hmid
    · refine ih _ _ (by omega) (by omega) hn (fun j hj => ?_) hge
      exact hp j _ (by omega) (by omega) hmid
    · refine ih _ _ (by omega) (by omega) (by omega) hlt fun j h1 h2 => ?_
      by_contra hne
      have hpj : p j = true := by simpa using hne
      exact hmid (hp _ j h1 h2 hpj)
    · obtain rfl : lo = hi := by omega
      exact ⟨hn, hlt, hge⟩

lemma binary_spec (hp : InitiallyTrue n p) :
    IsPartitionPoint n p (binary n p) :=
  bisect_spec hp n 0 n (by omega) (by omega) le_rfl (fun j hj => by omega)
    (fun j h1 h2 => by omega)

/-! ## Partition points along a list -/

section OfList

variable {α : Type*} {l : List α} {p : α → Bool} {i : ℕ}

/-- A predicate on the elements of a list, as a predicate on its indices (false past the end). -/
def along (l : List α) (p : α → Bool) (i : ℕ) : Bool :=
  (l[i]?).elim false p

/-- The partition point of `p` along `l`, found by binary search. -/
def ofList (l : List α) (p : α → Bool) : ℕ :=
  binary l.length (along l p)

lemma along_of_lt (h : i < l.length) :
    along l p i = p l[i] := by
  simp [along, List.getElem?_eq_getElem h]

lemma initiallyTrue_along
    (h : l.Pairwise fun a b => p b = true → p a = true) :
    InitiallyTrue l.length (along l p) := by
  intro i j hij hj hpj
  rw [along_of_lt hj] at hpj
  rw [along_of_lt (by omega)]
  rcases Nat.lt_or_eq_of_le hij with hlt | rfl
  · exact pairwise_iff_getElem.mp h i j (by omega) hj hlt hpj
  · exact hpj

lemma IsPartitionPoint.take_drop
    (h : IsPartitionPoint l.length (along l p) i) :
    (∀ a ∈ l.take i, p a = true) ∧ ∀ a ∈ l.drop i, p a = false := by
  obtain ⟨hle, hlt, hge⟩ := h
  constructor
  · intro a ha
    obtain ⟨j, hj, rfl⟩ := mem_iff_getElem.mp ha
    have hj' : j < i ∧ j < l.length := by simpa using hj
    have := hlt j hj'.1
    rw [along_of_lt hj'.2] at this
    simpa using this
  · intro a ha
    obtain ⟨j, hj, rfl⟩ := mem_iff_getElem.mp ha
    have hj' : i + j < l.length := by
      simp only [length_drop] at hj
      omega
    have := hge (i + j) (by omega) hj'
    rw [along_of_lt hj'] at this
    simpa using this

lemma IsPartitionPoint.take_eq_filter
    (h : IsPartitionPoint l.length (along l p) i) : l.take i = l.filter p := by
  obtain ⟨htake, hdrop⟩ := h.take_drop
  have h1 : (l.take i).filter p = l.take i := filter_eq_self.mpr htake
  have h2 : (l.drop i).filter p = [] := by
    rw [filter_eq_nil_iff]
    intro a ha
    simp [hdrop a ha]
  calc l.take i = (l.take i).filter p ++ (l.drop i).filter p := by rw [h1, h2, append_nil]
    _ = l.filter p := by rw [← filter_append, take_append_drop]

lemma IsPartitionPoint.drop_eq_filter
    (h : IsPartitionPoint l.length (along l p) i) : l.drop i = l.filter fun a => !p a := by
  obtain ⟨htake, hdrop⟩ := h.take_drop
  have h1 : (l.take i).filter (fun a => !p a) = [] := by
    rw [filter_eq_nil_iff]
    intro a ha
    simp [htake a ha]
  have h2 : (l.drop i).filter (fun a => !p a) = l.drop i :=
    filter_eq_self.mpr fun a ha => by simp [hdrop a ha]
  calc l.drop i = (l.take i).filter (fun a => !p a) ++ (l.drop i).filter fun a => !p a := by
        rw [h1, h2, nil_append]
    _ = l.filter fun a => !p a := by rw [← filter_append, take_append_drop]

lemma ofList_spec
    (h : l.Pairwise fun a b => p b = true → p a = true) :
    IsPartitionPoint l.length (along l p) (ofList l p) :=
  binary_spec (initiallyTrue_along h)

lemma take_ofList
    (h : l.Pairwise fun a b => p b = true → p a = true) : l.take (ofList l p) = l.filter p :=
  (ofList_spec h).take_eq_filter

end OfList

end PartitionPoint
