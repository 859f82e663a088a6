import Mathlib.Data.List.Basic
import Mathlib.Tactic

/-!
# Framed append-only logs

A log is a byte sequence to which frames are appended. A reader takes frames from the front until
it finds none, and a crash cuts the bytes at an arbitrary length. The frames that are whole after
a cut are those that end at or below it; behind them stands at most a proper beginning of one more
frame.

## Main results

* `FrameLog.readLog_written`: a torn log reads back.
-/

namespace FrameLog

open List

variable {ε α β : Type}

/-! ## Reading -/

/-- Read frames from the front of the bytes until `next` finds none, at most `fuel` frames. A
frame contributes a list of values. -/
def readLog (next : List UInt8 → Except ε (Option (List β × List UInt8))) :
    ℕ → List UInt8 → Except ε (List β)
  | 0, _ => pure []
  | fuel + 1, bytes => do
    match ← next bytes with
    | none => pure []
    | some (values, rest) =>
      let more ← readLog next fuel rest
      return values ++ more

variable {next : List UInt8 → Except ε (Option (List β × List UInt8))}

lemma readLog_stop {bytes : List UInt8} (h : next bytes = .ok none) (fuel : ℕ) :
    readLog next fuel bytes = .ok [] := by
  cases fuel with
  | zero => rfl
  | succ fuel =>
    rw [readLog, h]
    rfl

lemma readLog_frame {bytes rest : List UInt8} {values more : List β} {fuel : ℕ}
    (h : next bytes = .ok (some (values, rest))) (hrest : readLog next fuel rest = .ok more) :
    readLog next (fuel + 1) bytes = .ok (values ++ more) := by
  rw [readLog, h]
  show (readLog next fuel rest >>= fun m => pure (values ++ m)) = _
  rw [hrest]
  rfl

/-! ## Writing and cutting -/

variable {encodes : α → List UInt8 → Prop}

/-- The bytes are the frames of the entries, in order. Each entry carries the offset at which its
frame ends. -/
inductive Written (encodes : α → List UInt8 → Prop) : List (α × ℕ) → List UInt8 → Prop
  | nil : Written encodes [] []
  | snoc {entries : List (α × ℕ)} {bytes frame : List UInt8} {value : α} :
      Written encodes entries bytes → encodes value frame →
        Written encodes (entries ++ [(value, (bytes ++ frame).length)]) (bytes ++ frame)

/-- A proper beginning of a frame, or nothing. -/
def TornFrame (encodes : α → List UInt8 → Prop) (torn : List UInt8) : Prop :=
  torn = [] ∨ ∃ value frame, encodes value frame ∧ torn <+: frame ∧ torn.length < frame.length

lemma TornFrame.take {torn : List UInt8} (h : TornFrame encodes torn) (n : ℕ) :
    TornFrame encodes (torn.take n) := by
  rcases h with rfl | ⟨value, frame, hencodes, hprefix, hlength⟩
  · simp [TornFrame]
  · refine .inr ⟨value, frame, hencodes, ( take_prefix n torn).trans hprefix, ?_⟩
    rw [length_take]
    omega

namespace Written

variable {entries : List (α × ℕ)} {bytes : List UInt8}

lemma snd_le (h : Written encodes entries bytes) {entry : α × ℕ} (hmem : entry ∈ entries) :
    entry.2 ≤ bytes.length := by
  induction h with
  | nil => cases hmem
  | @snoc entries bytes frame value _ _ ih =>
    rw [mem_append, mem_singleton] at hmem
    rw [length_append]
    rcases hmem with hmem | rfl
    · exact (ih hmem).trans (by omega)
    · simp

lemma length_eq (h : Written encodes entries bytes) :
    bytes.length = (entries.getLast?.map Prod.snd).getD 0 := by
  cases h with
  | nil => rfl
  | snoc _ _ => simp

lemma length_le (h : Written encodes entries bytes)
    (hpos : ∀ value frame, encodes value frame → 0 < frame.length) :
    entries.length ≤ bytes.length := by
  induction h with
  | nil => exact le_rfl
  | snoc _ hencodes ih =>
    have := hpos _ _ hencodes
    simp only [length_append, length_singleton]
    omega

lemma filter_eq_self (h : Written encodes entries bytes) {n : ℕ} (hn : bytes.length ≤ n) :
    entries.filter (fun entry => decide (entry.2 ≤ n)) = entries := by
  rw [List.filter_eq_self]
  intro entry hmem
  exact decide_eq_true ((h.snd_le hmem).trans hn)

/-- A cut leaves the frames that end at or below it, and a torn one.

**Proof sketch.** By induction on the appends. A cut at or above the end changes nothing, one
inside the last frame leaves a proper beginning of it, and one below it cuts the log before. -/
lemma take (h : Written encodes entries bytes) (n : ℕ) :
    ∃ whole torn, Written encodes (entries.filter fun entry => decide (entry.2 ≤ n)) whole ∧
      bytes.take n = whole ++ torn ∧ TornFrame encodes torn := by
  induction h with
  | nil => exact ⟨[], [], .nil, by simp, Or.inl rfl⟩
  | @snoc entries bytes frame value hwritten hencodes ih =>
    by_cases hall : (bytes ++ frame).length ≤ n
    · refine ⟨bytes ++ frame, [], ?_, by simp [take_of_length_le hall], Or.inl rfl⟩
      rw [(Written.snoc hwritten hencodes).filter_eq_self hall]
      exact .snoc hwritten hencodes
    · have hlast : (entries ++ [(value, (bytes ++ frame).length)]).filter
          (fun entry => decide (entry.2 ≤ n)) =
            entries.filter fun entry => decide (entry.2 ≤ n) := by
        rw [filter_append, filter_singleton]
        simp only [decide_eq_false hall, cond_false, append_nil]
      rw [hlast, take_append]
      by_cases hbelow : n ≤ bytes.length
      · obtain ⟨whole, torn, hwhole, htake, htorn⟩ := ih
        refine ⟨whole, torn, hwhole, ?_, htorn⟩
        rw [htake, Nat.sub_eq_zero_of_le hbelow, take_zero, append_nil]
      · have hle : bytes.length ≤ n := by omega
        refine ⟨bytes, frame.take (n - bytes.length), ?_, ?_, ?_⟩
        · rwa [hwritten.filter_eq_self hle]
        · rw [take_of_length_le hle]
        · refine .inr ⟨value, frame, hencodes, take_prefix _ _, ?_⟩
          rw [length_append] at hall
          rw [length_take]
          omega

lemma take_torn (h : Written encodes entries bytes) {torn : List UInt8}
    (htorn : TornFrame encodes torn) (n : ℕ) :
    ∃ whole torn', Written encodes (entries.filter fun entry => decide (entry.2 ≤ n)) whole ∧
      (bytes ++ torn).take n = whole ++ torn' ∧ TornFrame encodes torn' := by
  rw [take_append]
  by_cases hbelow : n ≤ bytes.length
  · rw [Nat.sub_eq_zero_of_le hbelow, take_zero, append_nil]
    exact h.take n
  · have hle : bytes.length ≤ n := by omega
    refine ⟨bytes, torn.take (n - bytes.length), ?_, ?_, htorn.take _⟩
    · rwa [h.filter_eq_self hle]
    · rw [take_of_length_le hle]

end Written

/-! ## Logs without offsets -/

def Holds (encodes : α → List UInt8 → Prop) (values : List α) (bytes : List UInt8) : Prop :=
  ∃ entries, Written encodes entries bytes ∧ entries.map Prod.fst = values

namespace Holds

variable {values more : List α} {bytes bytes' : List UInt8}

lemma nil : Holds encodes [] [] := ⟨[], .nil, rfl⟩

lemma singleton {value : α} {frame : List UInt8} (h : encodes value frame) :
    Holds encodes [value] frame :=
  ⟨_, .snoc .nil h, rfl⟩

lemma append (h : Holds encodes values bytes) (h' : Holds encodes more bytes') :
    Holds encodes (values ++ more) (bytes ++ bytes') := by
  obtain ⟨entries', hwritten', rfl⟩ := h'
  induction hwritten' with
  | nil => simpa using h
  | @snoc entries' bytes' frame value _ hencodes ih =>
    obtain ⟨entries, hwritten, hentries⟩ := ih
    refine ⟨_, by simpa using hwritten.snoc hencodes, ?_⟩
    simp [hentries]

lemma of_forall₂ {frames : List (List UInt8)}
    (h : List.Forall₂ (fun frame value => encodes value frame) frames values) :
    Holds encodes values frames.flatten := by
  induction h with
  | nil => exact nil
  | cons hframe _ ih => exact (singleton hframe).append ih

end Holds

/-- A log of whole frames before a torn one is read back: the reader finds the values of every
frame and stops at the torn one.

**Proof sketch.** By induction on the appends, with the bytes behind the last frame arbitrary: a
read that starts with the earlier frames gets to those bytes. -/
lemma readLog_written {contribution : α → List β}
    (hnext : ∀ value frame rest, encodes value frame →
      next (frame ++ rest) = .ok (some (contribution value, rest)))
    {entries : List (α × ℕ)} {bytes : List UInt8} (h : Written encodes entries bytes)
    {rest : List UInt8} {more : List β} {fuel : ℕ} (hrest : readLog next fuel rest = .ok more) :
    readLog next (fuel + entries.length) (bytes ++ rest) =
      .ok (entries.flatMap (fun entry => contribution entry.1) ++ more) := by
  induction h generalizing rest more fuel with
  | nil => simpa using hrest
  | @snoc entries bytes frame value _ hencodes ih =>
    have hframe := readLog_frame (hnext value frame rest hencodes) hrest
    have hall := ih hframe
    rw [append_assoc, flatMap_append, flatMap_singleton, append_assoc,
      length_append, length_singleton, ← hall]
    congr 1
    omega

end FrameLog
