import Mathlib.Data.List.Basic

/-!
# Bit arrays that remember a set of items

A Bloom filter is an array of bits and a function that gives each item its probe positions.
Inserting an item sets its bits; an item may be contained when all its bits are set. This file
shows the one guarantee such a filter gives: an inserted item is never reported as absent.

## Main results

* `Bloom.testBits_insertAll`: what is inserted is found.
-/

namespace Bloom

open List

variable {bits : List Bool}

def setBits (bits : List Bool) (positions : List ℕ) : List Bool :=
  positions.foldl (fun bits i => bits.set i true) bits

def testBits (bits : List Bool) (positions : List ℕ) : Bool :=
  positions.all fun i => bits.getD i false

@[simp]
lemma length_setBits (bits : List Bool) (positions : List ℕ) :
    (setBits bits positions).length = bits.length := by
  unfold setBits
  induction positions generalizing bits with
  | nil => rfl
  | cons i positions ih => simp [ih]

lemma getD_set_of_getD {i j : ℕ} (h : bits.getD j false = true) :
    (bits.set i true).getD j false = true := by
  rw [getD_eq_getElem?_getD, List.getElem?_set]
  split_ifs with hij hi
  · rfl
  · subst hij
    rw [getD_eq_getElem?_getD, List.getElem?_eq_none (by omega)] at h
    exact h
  · rwa [← getD_eq_getElem?_getD]

lemma getD_setBits_of_getD {j : ℕ} (positions : List ℕ)
    (h : bits.getD j false = true) : (setBits bits positions).getD j false = true := by
  unfold setBits
  induction positions generalizing bits with
  | nil => exact h
  | cons i positions ih => exact ih (getD_set_of_getD h)

lemma testBits_setBits {positions : List ℕ}
    (h : ∀ i ∈ positions, i < bits.length) :
    testBits (setBits bits positions) positions = true := by
  rw [testBits, all_eq_true]
  intro j hj
  induction positions generalizing bits with
  | nil => simp at hj
  | cons i positions ih =>
    show (setBits (bits.set i true) positions).getD j false = true
    rcases mem_cons.mp hj with rfl | hj
    · apply getD_setBits_of_getD
      have hlt := h j mem_cons_self
      rw [getD_eq_getElem?_getD, List.getElem?_set_self hlt]
      rfl
    · apply ih (fun k hk => ?_) hj
      simpa using h k (mem_cons_of_mem _ hk)

section Items

variable {α : Type*} (probe : α → List ℕ)

def insertAll (bits : List Bool) (items : List α) : List Bool :=
  items.foldl (fun bits item => setBits bits (probe item)) bits

lemma testBits_insertAll_of_testBits {positions : List ℕ} (items : List α)
    (h : testBits bits positions = true) :
    testBits (insertAll probe bits items) positions = true := by
  unfold insertAll
  induction items generalizing bits with
  | nil => exact h
  | cons item items ih =>
    apply ih
    rw [testBits, all_eq_true] at h ⊢
    exact fun j hj => getD_setBits_of_getD _ (h j hj)

@[simp]
lemma length_insertAll (bits : List Bool) (items : List α) :
    (insertAll probe bits items).length = bits.length := by
  unfold insertAll
  induction items generalizing bits with
  | nil => rfl
  | cons item items ih => simp [ih]

/-- An inserted item tests positive.

**Proof sketch.** Induction on the inserted items: the item's own insertion sets its bits, and
later insertions clear none. -/
theorem testBits_insertAll {items : List α} {item : α} (hmem : item ∈ items)
    (hprobe : ∀ i ∈ probe item, i < bits.length) :
    testBits (insertAll probe bits items) (probe item) = true := by
  induction items generalizing bits with
  | nil => simp at hmem
  | cons head items ih =>
    rcases mem_cons.mp hmem with rfl | hmem
    · exact testBits_insertAll_of_testBits probe items (testBits_setBits hprobe)
    · exact ih hmem fun i hi => by simpa using hprobe i hi

end Items

/-! ## Bits in bytes -/

def byteBits (byte : UInt8) : List Bool := (List.range 8).map byte.toNat.testBit

def bitsByte (bits : List Bool) : UInt8 := UInt8.ofNat (BitVec.ofBoolListLE bits).toNat

def unpack (bytes : List UInt8) : List Bool := bytes.flatMap byteBits

def pack : ℕ → List Bool → List UInt8
  | 0, _ => []
  | count + 1, bits => bitsByte (bits.take 8) :: pack count (bits.drop 8)

@[simp]
lemma length_pack (count : ℕ) (bits : List Bool) : (pack count bits).length = count := by
  induction count generalizing bits with
  | zero => rfl
  | succ count ih => simp [pack, ih]

lemma byteBits_bitsByte (h : bits.length = 8) :
    byteBits (bitsByte bits) = bits := by
  match bits, h with
  | [a, b, c, d, e, f, g, i], _ => revert a b c d e f g i; decide +kernel

lemma unpack_pack {count : ℕ} (h : bits.length = 8 * count) :
    unpack (pack count bits) = bits := by
  induction count generalizing bits with
  | zero => exact (length_eq_zero_iff.mp h).symm
  | succ count ih =>
    have htake : (bits.take 8).length = 8 := by
      rw [length_take]
      omega
    have hdrop : (bits.drop 8).length = 8 * count := by
      rw [length_drop]
      omega
    show byteBits (bitsByte (bits.take 8)) ++ unpack (pack count (bits.drop 8)) = bits
    rw [byteBits_bitsByte htake, ih hdrop, take_append_drop]

end Bloom
