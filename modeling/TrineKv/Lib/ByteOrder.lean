import Mathlib.Data.List.Lex
import Mathlib.Data.List.Basic
import Mathlib.Order.Lattice

/-!
# Byte strings in lexicographic order

Byte strings are lists of `UInt8`, compared lexicographically with the bytes as unsigned
numbers. The extensions of a byte string form an interval of that order; its lower end is the
string itself and its upper end, when there is one, is `ByteOrder.successor`.

## Main results

* `ByteOrder.isPrefix_iff_successor`: prefixes are ranges.
-/

/-- Bytes are ordered as unsigned numbers. -/
instance UInt8.instLinearOrder : LinearOrder UInt8 where
  le_refl _ := UInt8.le_refl _
  le_trans _ _ _ := UInt8.le_trans
  lt_iff_le_not_ge a b := by
    simp only [UInt8.lt_iff_toNat_lt, UInt8.le_iff_toNat_le]
    omega
  le_antisymm _ _ := UInt8.le_antisymm
  le_total _ _ := UInt8.le_total _ _
  toDecidableLE := inferInstance
  toDecidableLT := inferInstance
  toDecidableEq := inferInstance

namespace ByteOrder

open List

section Prefix

variable {α : Type*} [LinearOrder α]

lemma nil_le (t : List α) : [] ≤ t :=
  not_lt.mp (not_lt_nil t)

lemma not_cons_le_nil (a : α) (p : List α) : ¬a :: p ≤ [] :=
  not_le.mpr (nil_lt_cons a p)

lemma cons_le_cons_iff {a b : α} {p k : List α} : a :: p ≤ b :: k ↔ a < b ∨ a = b ∧ p ≤ k := by
  rw [← not_lt, cons_lt_cons_iff, ← not_lt (a := k)]
  rcases lt_trichotomy a b with h | rfl | h
  · simp [h, h.not_gt, h.ne']
  · simp
  · simp [h, h.not_gt, h.ne']

lemma le_of_isPrefix {p k : List α} (h : p <+: k) : p ≤ k := by
  obtain ⟨t, rfl⟩ := h
  induction p with
  | nil => exact nil_le t
  | cons a p ih => exact cons_le_cons_iff.mpr (Or.inr ⟨rfl, ih⟩)

/-- A string between `p` and an extension of `p` extends `p`.

**Proof sketch.** Induction on `p`: the first letter of the middle string is at least and at
most the first letter of `p`, and the tails are again in between. -/
lemma isPrefix_of_le_of_le {p k m : List α} (hpk : p ≤ k) (hkm : k ≤ m) (hpm : p <+: m) :
    p <+: k := by
  induction p generalizing k m with
  | nil => exact nil_prefix
  | cons a p ih =>
    obtain ⟨t, rfl⟩ := hpm
    cases k with
    | nil => exact absurd hpk (not_cons_le_nil a p)
    | cons b k =>
      rw [cons_append] at hkm
      have h1 : a < b ∨ a = b ∧ p ≤ k := cons_le_cons_iff.mp hpk
      have h2 : b < a ∨ b = a ∧ k ≤ p ++ t := cons_le_cons_iff.mp hkm
      rcases h1 with h1 | ⟨rfl, h1⟩
      · rcases h2 with h2 | ⟨rfl, -⟩
        · exact absurd h1 (not_lt.mpr h2.le)
        · exact absurd h1 (lt_irrefl _)
      · rcases h2 with h2 | ⟨-, h2⟩
        · exact absurd h2 (lt_irrefl _)
        · exact (cons_prefix_cons).mpr ⟨rfl, ih h1 h2 (prefix_append p t)⟩

lemma append_lt_append_iff {q s t : List α} : q ++ s < q ++ t ↔ s < t := by
  induction q with
  | nil => rfl
  | cons a q ih =>
    rw [cons_append, cons_append, cons_lt_cons_iff]
    constructor
    · rintro (h | ⟨-, h⟩)
      · exact absurd h (lt_irrefl _)
      · exact ih.mp h
    · exact fun h => Or.inr ⟨rfl, ih.mpr h⟩

end Prefix

lemma append_zero_le_iff {s t : List UInt8} : s ++ [0] ≤ t ↔ s < t := by
  induction s generalizing t with
  | nil =>
    cases t with
    | nil => simp [not_cons_le_nil]
    | cons b t =>
      have hb : (0 : UInt8) < b ∨ 0 = b := by
        rw [← le_iff_lt_or_eq]
        exact UInt8.zero_le
      simp [cons_le_cons_iff, nil_le, hb]
  | cons a s ih =>
    cases t with
    | nil => simp [not_cons_le_nil]
    | cons b t => rw [cons_append, cons_le_cons_iff, ih, cons_lt_cons_iff]

/-- The successor of the reversal of a string: skip leading `255`s, increment the next byte. -/
def successorRev : List UInt8 → Option (List UInt8)
  | [] => none
  | b :: rest => if b = 255 then successorRev rest else some ((b + 1) :: rest)

/-- The least string above every extension of `p`; `none` when `p` has only bytes `255` (or none)
and its extensions are bounded by nothing. -/
def successor (p : List UInt8) : Option (List UInt8) :=
  (successorRev p.reverse).map List.reverse

lemma successorRev_eq_some {r s : List UInt8} (h : successorRev r = some s) :
    ∃ n b t, r = List.replicate n 255 ++ b :: t ∧ b ≠ 255 ∧ s = (b + 1) :: t := by
  induction r with
  | nil => simp [successorRev] at h
  | cons b r ih =>
    simp only [successorRev] at h
    split_ifs at h with hb
    · obtain ⟨n, b', t, rfl, hb', rfl⟩ := ih h
      exact ⟨n + 1, b', t, by simp [hb, replicate_succ], hb', rfl⟩
    · exact ⟨0, b, r, by simp, hb, by simpa using h.symm⟩

lemma successorRev_eq_none {r : List UInt8} (h : successorRev r = none) :
    ∀ b ∈ r, b = 255 := by
  induction r with
  | nil => simp
  | cons b r ih =>
    simp only [successorRev] at h
    split_ifs at h with hb
    simpa [hb] using ih h

lemma isPrefix_of_all_max {p k : List UInt8} (hp : ∀ b ∈ p, b = 255) (h : p ≤ k) : p <+: k := by
  induction p generalizing k with
  | nil => exact nil_prefix
  | cons a p ih =>
    obtain rfl : a = 255 := hp a (by simp)
    cases k with
    | nil => exact absurd h (not_cons_le_nil _ _)
    | cons b k =>
      rcases cons_le_cons_iff.mp h with h1 | ⟨rfl, h1⟩
      · have hb : b.toNat < 256 := b.toNat_lt
        rw [UInt8.lt_iff_toNat_lt] at h1
        have h255 : (255 : UInt8).toNat = 255 := rfl
        omega
      · exact cons_prefix_cons.mpr ⟨rfl, ih (fun c hc => hp c (by simp [hc])) h1⟩

lemma lt_add_one_iff {b c : UInt8} (hb : b ≠ 255) : c < b + 1 ↔ c ≤ b := by
  have hne : b.toNat ≠ 255 := fun h => hb (UInt8.toNat_inj.mp h)
  have hlt : b.toNat < 256 := b.toNat_lt
  rw [UInt8.lt_iff_toNat_lt, UInt8.le_iff_toNat_le, UInt8.toNat_add]
  have h1 : (1 : UInt8).toNat = 1 := rfl
  rw [h1, Nat.mod_eq_of_lt (by omega)]
  omega

/-- **The extensions of `p` form an interval**: they are the strings from `p` on that lie below
its successor, if it has one.

**Proof sketch.** Write `p = q ++ [b] ++ 255…255` with `b ≠ 255`, so the successor is
`q ++ [b + 1]`. An extension starts with `q ++ [b]` and is below it. Conversely a string from
`p` up to the successor starts with `q ++ [b]`, because no byte lies between `b` and `b + 1`;
what follows is not below `255…255`, hence extends it. -/
theorem isPrefix_iff_successor {p k : List UInt8} :
    p <+: k ↔ p ≤ k ∧ ∀ s, successor p = some s → k < s := by
  cases hs : successorRev p.reverse with
  | none =>
    have hall : ∀ b ∈ p, b = 255 := fun b hb =>
      successorRev_eq_none hs b (mem_reverse.mpr hb)
    constructor
    · exact fun h => ⟨le_of_isPrefix h, by simp [successor, hs]⟩
    · exact fun h => isPrefix_of_all_max hall h.1
  | some r =>
    obtain ⟨n, b, t, hrev, hb, rfl⟩ := successorRev_eq_some hs
    have hp : p = t.reverse ++ b :: List.replicate n 255 := by
      have := congrArg List.reverse hrev
      simpa using this
    have hsucc : successor p = some (t.reverse ++ [b + 1]) := by
      simp [successor, hs]
    have hiff : (∀ s, successor p = some s → k < s) ↔ k < t.reverse ++ [b + 1] := by
      rw [hsucc]
      simp
    rw [hiff]
    have hbase : t.reverse <+: p := ⟨_, hp.symm⟩
    have hbb : b < b + 1 := (lt_add_one_iff hb).mpr le_rfl
    constructor
    · intro h
      refine ⟨le_of_isPrefix h, ?_⟩
      obtain ⟨u, rfl⟩ := h
      rw [hp, append_assoc, append_lt_append_iff, cons_append]
      exact cons_lt_cons_iff.mpr (Or.inl hbb)
    · rintro ⟨h1, h2⟩
      have hq : t.reverse <+: k :=
        isPrefix_of_le_of_le ((le_of_isPrefix hbase).trans h1) h2.le (prefix_append _ _)
      obtain ⟨u, rfl⟩ := hq
      rw [hp] at h1 ⊢
      rw [append_lt_append_iff] at h2
      have h1' : b :: List.replicate n 255 ≤ u := by
        rw [← not_lt, append_lt_append_iff, not_lt] at h1
        exact h1
      cases u with
      | nil => exact absurd h1' (not_cons_le_nil _ _)
      | cons c u =>
        have hcb : c ≤ b := by
          rcases cons_lt_cons_iff.mp h2 with h | ⟨-, h⟩
          · exact (lt_add_one_iff hb).mp h
          · exact absurd h (by simp)
        rcases cons_le_cons_iff.mp h1' with h | ⟨rfl, h⟩
        · exact absurd h (not_lt.mpr hcb)
        · have hext := isPrefix_of_all_max (p := List.replicate n 255) (k := u)
            (fun x hx => (mem_replicate.mp hx).2) h
          obtain ⟨v, rfl⟩ := hext
          exact ⟨v, by simp⟩

end ByteOrder
