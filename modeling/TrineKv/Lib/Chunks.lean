import Mathlib.Data.List.Basic

/-!
# Lists cut into chunks of equal length

`Chunks.chunks n l` cuts a list into consecutive chunks of `n` elements; the last chunk may be
shorter.

## Main results

* `Chunks.getElem?_chunks`: where an element is.
-/

namespace Chunks

variable {α : Type*} {n i : ℕ} {l : List α}

/-- The consecutive chunks of `n` elements, the last one possibly shorter. -/
def chunks (n : ℕ) (l : List α) : List (List α) :=
  (List.range ((l.length + n - 1) / n)).map fun i => (l.drop (n * i)).take n

lemma lt_length_chunks (hn : 0 < n) :
    i < (chunks n l).length ↔ n * i < l.length := by
  simp only [chunks, List.length_map, List.length_range, Nat.lt_div_iff_mul_lt hn]
  rw [Nat.mul_comm i n]
  omega

lemma getElem?_chunks (hn : 0 < n) :
    (chunks n l)[i]? = if n * i < l.length then some ((l.drop (n * i)).take n) else none := by
  split_ifs with h
  · have hi := (lt_length_chunks hn).mpr h
    rw [List.getElem?_eq_getElem hi]
    simp [chunks]
  · rw [List.getElem?_eq_none]
    exact Nat.not_lt.mp fun hi => h ((lt_length_chunks hn).mp hi)

lemma chunk_ne_nil (hn : 0 < n) (h : n * i < l.length) :
    (l.drop (n * i)).take n ≠ [] := by
  rw [ne_eq, List.take_eq_nil_iff, List.drop_eq_nil_iff]
  omega

lemma getElem?_of_chunk {j : ℕ} (hj : j < n) :
    ((l.drop (n * i)).take n)[j]? = l[n * i + j]? := by
  rw [List.getElem?_take_of_lt hj, List.getElem?_drop]

lemma length_chunk :
    ((l.drop (n * i)).take n).length = min n (l.length - n * i) := by
  simp

end Chunks
