import Mathlib.Data.Nat.Basic
import Mathlib.Order.Bounds.Defs
import TrineKv.Keys.Record

/-!
# The commit tracker

Commits get consecutive sequences and finish in any order. A slot is open until its commit has been
published or given up, and the visible sequence moves over closed slots up to the first open one.
Waiters and statistics are left out.

## Main results

* `CommitTracker.le_visibleSequence_iff`, `CommitTracker.reserveSlot_eq_ok`,
  `CommitTracker.markTerminal_eq_ok`, `TrackerHistory.visibleSequence_ofCalls`.
-/

namespace TrineKv

open Function

variable {sequence : ℕ}

/-- What is known about a reserved sequence. -/
inductive CommitSlotState where
  | opened
  | visible
  | skipped
  deriving DecidableEq, Repr

structure SlotTable where
  lastReservedSequence : ℕ
  visibleSequence : ℕ
  slots : ℕ → Option CommitSlotState

namespace SlotTable

def IsOpen (table : SlotTable) (sequence : ℕ) : Prop :=
  table.slots sequence = some .opened

instance (table : SlotTable) (sequence : ℕ) : Decidable (table.IsOpen sequence) :=
  inferInstanceAs (Decidable (_ = _))

structure Covers (table : SlotTable) : Prop where
  visible_le : table.visibleSequence ≤ table.lastReservedSequence
  isSome_iff : ∀ sequence, (table.slots sequence).isSome ↔
    table.visibleSequence < sequence ∧ sequence ≤ table.lastReservedSequence

/-- Move the visible sequence over closed slots and remove them. -/
def advanceVisibleSequence : ℕ → SlotTable → SlotTable
  | 0, table => table
  | fuel + 1, table =>
    match table.slots (table.visibleSequence + 1) with
    | some .visible | some .skipped =>
      advanceVisibleSequence fuel
        { table with
          visibleSequence := table.visibleSequence + 1
          slots := update table.slots (table.visibleSequence + 1) none }
    | some .opened | none => table

def reserve (table : SlotTable) : SlotTable :=
  { table with
    lastReservedSequence := table.lastReservedSequence + 1
    slots := update table.slots (table.lastReservedSequence + 1) (some .opened) }

def set (table : SlotTable) (sequence : ℕ) (state : CommitSlotState) : SlotTable :=
  { table with slots := update table.slots sequence (some state) }

lemma Covers.pass {table : SlotTable} (h : table.Covers)
    (hslot : (table.slots (table.visibleSequence + 1)).isSome) :
    Covers
      { table with
        visibleSequence := table.visibleSequence + 1
        slots := update table.slots (table.visibleSequence + 1) none } := by
  obtain ⟨-, hle⟩ := (h.isSome_iff _).mp hslot
  refine ⟨hle, fun sequence => ?_⟩
  by_cases heq : sequence = table.visibleSequence + 1
  · simp [heq]
  · simp only [update_of_ne heq, h.isSome_iff]
    omega

/-- Moving over closed slots changes no open one, and with enough fuel it stops before an open
slot or at the last reserved sequence.

**Proof sketch.** Induction on the fuel. A closed slot that is passed was not open, and the slots
that remain are those above the new visible sequence. -/
lemma advanceVisibleSequence_spec (fuel : ℕ) {table : SlotTable} (h : table.Covers) :
    (advanceVisibleSequence fuel table).Covers ∧
      (advanceVisibleSequence fuel table).lastReservedSequence = table.lastReservedSequence ∧
      table.visibleSequence ≤ (advanceVisibleSequence fuel table).visibleSequence ∧
      (∀ sequence, (advanceVisibleSequence fuel table).IsOpen sequence ↔ table.IsOpen sequence) ∧
      (table.lastReservedSequence - table.visibleSequence ≤ fuel →
        (advanceVisibleSequence fuel table).visibleSequence < table.lastReservedSequence →
        (advanceVisibleSequence fuel table).IsOpen
          ((advanceVisibleSequence fuel table).visibleSequence + 1)) := by
  induction fuel generalizing table with
  | zero =>
    refine ⟨h, rfl, le_rfl, fun _ => Iff.rfl, fun hfuel hlt => ?_⟩
    simp only [advanceVisibleSequence] at hlt
    omega
  | succ fuel ih =>
    have hpass : ∀ state, table.slots (table.visibleSequence + 1) = some state →
        state ≠ .opened → ∀ sequence,
        IsOpen { table with
          visibleSequence := table.visibleSequence + 1
          slots := update table.slots (table.visibleSequence + 1) none } sequence ↔
        table.IsOpen sequence := by
      intro state hstate hne sequence
      by_cases heq : sequence = table.visibleSequence + 1
      · simp [IsOpen, heq, hstate, hne]
      · simp [IsOpen, update_of_ne heq]
    rw [advanceVisibleSequence]
    split
    · next hslot =>
      obtain ⟨hcovers, hlast, hle, hopen, hstop⟩ := ih (h.pass (by simp [hslot]))
      refine ⟨hcovers, hlast, (Nat.le_succ _).trans hle, fun sequence => ?_, fun hfuel => ?_⟩
      · rw [hopen, hpass _ hslot (by simp)]
      · exact hstop (by simp only; omega)
    · next hslot =>
      obtain ⟨hcovers, hlast, hle, hopen, hstop⟩ := ih (h.pass (by simp [hslot]))
      refine ⟨hcovers, hlast, (Nat.le_succ _).trans hle, fun sequence => ?_, fun hfuel => ?_⟩
      · rw [hopen, hpass _ hslot (by simp)]
      · exact hstop (by simp only; omega)
    · next hslot => exact ⟨h, rfl, le_rfl, fun _ => Iff.rfl, fun _ _ => hslot⟩
    · next hslot =>
      refine ⟨h, rfl, le_rfl, fun _ => Iff.rfl, fun _ hlt => ?_⟩
      -- Every sequence between the visible and the last reserved one has a slot.
      have hsome := (h.isSome_iff (table.visibleSequence + 1)).mpr (by omega)
      simp [hslot] at hsome

end SlotTable

/-- The tracker between two calls: there are slots for the sequences above the visible one, and
the first of them is open. -/
structure CommitTracker extends SlotTable where
  covers : toSlotTable.Covers
  last_le : lastReservedSequence ≤ maxSequence
  isOpen_next : visibleSequence < lastReservedSequence → toSlotTable.IsOpen (visibleSequence + 1)

namespace CommitTracker

def new (visibleSequence : ℕ) (h : visibleSequence ≤ maxSequence) : CommitTracker where
  lastReservedSequence := visibleSequence
  visibleSequence := visibleSequence
  slots _ := none
  covers := ⟨le_rfl, fun sequence => by simp⟩
  last_le := h
  isOpen_next h := absurd h (lt_irrefl _)

variable (tracker : CommitTracker)

lemma covers_reserve : tracker.toSlotTable.reserve.Covers := by
  have hle := tracker.covers.visible_le
  refine ⟨hle.trans (Nat.le_succ _), fun sequence => ?_⟩
  by_cases heq : sequence = tracker.lastReservedSequence + 1
  · simp only [SlotTable.reserve, heq, update_self, Option.isSome_some, true_iff]
    omega
  · simp only [SlotTable.reserve, update_of_ne heq, tracker.covers.isSome_iff]
    omega

lemma isOpen_reserve :
    tracker.toSlotTable.reserve.IsOpen sequence ↔
      tracker.IsOpen sequence ∨ sequence = tracker.lastReservedSequence + 1 := by
  by_cases heq : sequence = tracker.lastReservedSequence + 1
  · simp [SlotTable.IsOpen, SlotTable.reserve, heq]
  · simp [SlotTable.IsOpen, SlotTable.reserve, heq]

lemma isOpen_next_reserve : tracker.toSlotTable.reserve.IsOpen (tracker.visibleSequence + 1) := by
  rw [isOpen_reserve]
  rcases tracker.covers.visible_le.lt_or_eq with hlt | heq
  · exact .inl (tracker.isOpen_next hlt)
  · exact .inr (by rw [heq])

def reserveSlot : Except Error (ℕ × CommitTracker) :=
  if hlast : tracker.lastReservedSequence = maxSequence then
    .error (.corruption "sequence counter overflow")
  else
    let reserved := tracker.lastReservedSequence + 1
    if (tracker.slots reserved).isSome then
      .error (.corruption s!"commit slot {reserved} was reserved twice")
    else
      .ok (reserved,
        { toSlotTable := tracker.toSlotTable.reserve
          covers := tracker.covers_reserve
          last_le := lt_of_le_of_ne tracker.last_le hlast
          isOpen_next := fun _ => tracker.isOpen_next_reserve })

lemma covers_set (state : CommitSlotState)
    (h : (tracker.slots sequence).isSome) : (tracker.toSlotTable.set sequence state).Covers := by
  refine ⟨tracker.covers.visible_le, fun other => ?_⟩
  by_cases heq : other = sequence
  · subst heq
    simpa [SlotTable.set] using (tracker.covers.isSome_iff other).mp h
  · simp only [SlotTable.set, update_of_ne heq]
    exact tracker.covers.isSome_iff other

def markTerminal (sequence : ℕ) (terminalState : CommitSlotState) : Except Error CommitTracker :=
  match hslot : tracker.slots sequence with
  | none => .error (.corruption s!"commit slot {sequence} is missing")
  | some .opened =>
    have hspec := SlotTable.advanceVisibleSequence_spec
      (tracker.lastReservedSequence - tracker.visibleSequence)
      (tracker.covers_set terminalState (by rw [hslot]; rfl))
    .ok
      { toSlotTable := SlotTable.advanceVisibleSequence
          (tracker.lastReservedSequence - tracker.visibleSequence)
          (tracker.toSlotTable.set sequence terminalState)
        covers := hspec.1
        last_le := hspec.2.1.trans_le tracker.last_le
        isOpen_next := fun hlt => hspec.2.2.2.2 le_rfl (hlt.trans_eq hspec.2.1) }
  | some .visible | some .skipped =>
    .error (.corruption s!"commit slot {sequence} is already terminal")

/-- Close a slot whose commit has been published. -/
def markVisible (sequence : ℕ) : Except Error CommitTracker :=
  tracker.markTerminal sequence .visible

/-- Close a slot whose commit has been given up. -/
def markSkipped (sequence : ℕ) : Except Error CommitTracker :=
  tracker.markTerminal sequence .skipped

/-! ## What the calls do -/

variable {tracker}

lemma bounds_of_isOpen (h : tracker.IsOpen sequence) :
    tracker.visibleSequence < sequence ∧ sequence ≤ tracker.lastReservedSequence :=
  (tracker.covers.isSome_iff sequence).mp (by rw [show tracker.slots sequence = _ from h]; rfl)

theorem le_visibleSequence_iff (h : sequence ≤ tracker.lastReservedSequence) :
    sequence ≤ tracker.visibleSequence ↔ ∀ other ≤ sequence, ¬tracker.IsOpen other := by
  constructor
  · intro hle other hother hopen
    have := (bounds_of_isOpen hopen).1
    omega
  · intro hclosed
    by_contra hlt
    exact hclosed (tracker.visibleSequence + 1) (by omega) (tracker.isOpen_next (by omega))

/-- Only the overflow of the counter makes a reservation fail; otherwise it opens the next
slot. -/
theorem reserveSlot_eq_ok {after : CommitTracker}
    (h : tracker.reserveSlot = .ok (sequence, after)) :
    sequence = tracker.lastReservedSequence + 1 ∧ after.lastReservedSequence = sequence ∧
      after.visibleSequence = tracker.visibleSequence ∧
      ∀ other, after.IsOpen other ↔ tracker.IsOpen other ∨ other = sequence := by
  simp only [reserveSlot] at h
  split_ifs at h
  obtain ⟨rfl, rfl⟩ := Prod.mk.inj (Except.ok.inj h)
  exact ⟨rfl, rfl, rfl, fun other => tracker.isOpen_reserve⟩

theorem markTerminal_eq_ok {terminalState : CommitSlotState}
    {after : CommitTracker} (hterminal : terminalState ≠ .opened)
    (h : tracker.markTerminal sequence terminalState = .ok after) :
    tracker.IsOpen sequence ∧ after.lastReservedSequence = tracker.lastReservedSequence ∧
      tracker.visibleSequence ≤ after.visibleSequence ∧
      ∀ other, after.IsOpen other ↔ tracker.IsOpen other ∧ other ≠ sequence := by
  rw [markTerminal] at h
  split at h
  · simp at h
  · next hslot =>
    obtain ⟨-, hlast, hle, hopen, -⟩ := SlotTable.advanceVisibleSequence_spec
      (tracker.lastReservedSequence - tracker.visibleSequence)
      (tracker.covers_set terminalState (by rw [hslot]; rfl))
    obtain rfl := Except.ok.inj h
    refine ⟨hslot, hlast, hle, fun other => (hopen other).trans ?_⟩
    by_cases heq : other = sequence
    · simp [SlotTable.IsOpen, SlotTable.set, heq, hterminal]
    · simp [SlotTable.IsOpen, SlotTable.set, heq]
  · simp at h
  · simp at h

end CommitTracker

/-! ## Runs of calls -/

inductive TrackerCall where
  | reserveSlot
  | markVisible (sequence : ℕ)
  | markSkipped (sequence : ℕ)
  deriving DecidableEq, Repr

/-- The tracker between two calls, with the sequences that have become terminal. -/
structure TrackerHistory where
  tracker : CommitTracker
  terminal : List ℕ

namespace TrackerHistory

def closed (history : TrackerHistory) (sequence : ℕ) : Except Error CommitTracker → TrackerHistory
  | .ok tracker => ⟨tracker, sequence :: history.terminal⟩
  | .error _ => history

def call (history : TrackerHistory) : TrackerCall → TrackerHistory
  | .reserveSlot =>
    match history.tracker.reserveSlot with
    | .ok (_, tracker) => ⟨tracker, history.terminal⟩
    | .error _ => history
  | .markVisible sequence => history.closed sequence (history.tracker.markVisible sequence)
  | .markSkipped sequence => history.closed sequence (history.tracker.markSkipped sequence)

def ofCalls (boundary : ℕ) (h : boundary ≤ maxSequence) (calls : List TrackerCall) :
    TrackerHistory :=
  calls.foldl call ⟨.new boundary h, []⟩

/-- A sequence reserved after the boundary is terminal exactly if its slot is not open. -/
structure Tracks (boundary : ℕ) (history : TrackerHistory) : Prop where
  boundary_le : boundary ≤ history.tracker.visibleSequence
  mem_terminal_iff : ∀ sequence, boundary < sequence →
    (sequence ∈ history.terminal ↔
      sequence ≤ history.tracker.lastReservedSequence ∧ ¬history.tracker.IsOpen sequence)

variable {boundary : ℕ} {history : TrackerHistory}

lemma Tracks.closed (h : history.Tracks boundary) (sequence : ℕ) {state : CommitSlotState}
    (hstate : state ≠ .opened) :
    (history.closed sequence (history.tracker.markTerminal sequence state)).Tracks boundary ∧
      history.tracker.visibleSequence ≤
        (history.closed sequence
          (history.tracker.markTerminal sequence state)).tracker.visibleSequence := by
  cases hmark : history.tracker.markTerminal sequence state with
  | error e => exact ⟨h, le_rfl⟩
  | ok after =>
    obtain ⟨hopen, hlast, hle, hiff⟩ := CommitTracker.markTerminal_eq_ok hstate hmark
    have hbounds := CommitTracker.bounds_of_isOpen hopen
    refine ⟨⟨h.boundary_le.trans hle, fun other hother => ?_⟩, hle⟩
    simp only [TrackerHistory.closed, List.mem_cons, h.mem_terminal_iff other hother, hlast, hiff]
    by_cases heq : other = sequence
    · simp [heq, hbounds.2]
    · simp [heq]

lemma Tracks.call (h : history.Tracks boundary) (c : TrackerCall) :
    (history.call c).Tracks boundary ∧
      history.tracker.visibleSequence ≤ (history.call c).tracker.visibleSequence := by
  cases c with
  | markVisible sequence => exact h.closed sequence (by simp)
  | markSkipped sequence => exact h.closed sequence (by simp)
  | reserveSlot =>
    simp only [TrackerHistory.call]
    cases hreserve : history.tracker.reserveSlot with
    | error e => exact ⟨h, le_rfl⟩
    | ok reserved =>
      obtain ⟨sequence, after⟩ := reserved
      obtain ⟨rfl, hlast, hvisible, hiff⟩ := CommitTracker.reserveSlot_eq_ok hreserve
      refine ⟨⟨h.boundary_le.trans_eq hvisible.symm, fun other hother => ?_⟩, hvisible.ge⟩
      simp only [h.mem_terminal_iff other hother, hlast, hiff]
      -- The new sequence is reserved and open; the others are as before.
      by_cases heq : other = history.tracker.lastReservedSequence + 1
      · simp [heq]
      · have hle : other ≤ history.tracker.lastReservedSequence ↔
            other ≤ history.tracker.lastReservedSequence + 1 := by omega
        simp only [heq, or_false, hle]

lemma tracks_ofCalls (h : boundary ≤ maxSequence) (calls : List TrackerCall) :
    (ofCalls boundary h calls).Tracks boundary := by
  refine List.foldlRecOn calls TrackerHistory.call ?_ fun history hhistory c _ =>
    (hhistory.call c).1
  refine ⟨le_rfl, fun sequence hsequence => ?_⟩
  show sequence ∈ [] ↔ sequence ≤ boundary ∧ _
  simp only [List.not_mem_nil, false_iff]
  omega

/-- After every run of calls on a new tracker the visible sequence is the greatest one such that
all sequences after the boundary and up to it are reserved and terminal. No call moves it back,
and it stays below every open slot and all sequences above one.

**Proof sketch.** Nothing up to the visible sequence is open, and so all of it is terminal. Were
the next sequence reserved and terminal too, it would not be open, but the slot after the visible
sequence always is. -/
theorem visibleSequence_ofCalls (h : boundary ≤ maxSequence) (calls : List TrackerCall) :
    IsGreatest
        {visible | boundary ≤ visible ∧ ∀ sequence, boundary < sequence → sequence ≤ visible →
          sequence ≤ (ofCalls boundary h calls).tracker.lastReservedSequence ∧
            sequence ∈ (ofCalls boundary h calls).terminal}
        (ofCalls boundary h calls).tracker.visibleSequence ∧
      (∀ c, (ofCalls boundary h calls).tracker.visibleSequence ≤
        (ofCalls boundary h (calls ++ [c])).tracker.visibleSequence) ∧
      ∀ sequence other, (ofCalls boundary h calls).tracker.IsOpen sequence →
        sequence ≤ other → (ofCalls boundary h calls).tracker.visibleSequence < other := by
  have htracks := tracks_ofCalls h calls
  refine ⟨⟨⟨htracks.boundary_le, fun sequence hafter hle => ?_⟩, fun visible hvisible => ?_⟩,
    fun c => ?_, fun sequence other hopen hle => ?_⟩
  · have hreserved := hle.trans (ofCalls boundary h calls).tracker.covers.visible_le
    refine ⟨hreserved, (htracks.mem_terminal_iff sequence hafter).mpr ⟨hreserved, fun hopen => ?_⟩⟩
    exact absurd (CommitTracker.bounds_of_isOpen hopen).1 hle.not_gt
  · by_contra hlt
    have hboundary := htracks.boundary_le
    obtain ⟨hreserved, hterminal⟩ := hvisible.2
      ((ofCalls boundary h calls).tracker.visibleSequence + 1) (by omega) (by omega)
    exact ((htracks.mem_terminal_iff _ (by omega)).mp hterminal).2
      ((ofCalls boundary h calls).tracker.isOpen_next (by omega))
  · rw [ofCalls, ofCalls, List.foldl_append]
    exact (htracks.call c).2
  · exact (CommitTracker.bounds_of_isOpen hopen).1.trans_le hle

theorem visibleSequence_ofCalls_outOfOrder :
    7 ≤ maxSequence ∧
      (ofCalls 7 (by decide)
        [.reserveSlot, .reserveSlot, .reserveSlot, .markSkipped 10,
          .markVisible 8]).tracker.visibleSequence < 9 := by
  refine ⟨by decide, (visibleSequence_ofCalls (by decide) _).2.2 9 9 ?_ le_rfl⟩
  decide

end TrackerHistory

end TrineKv
