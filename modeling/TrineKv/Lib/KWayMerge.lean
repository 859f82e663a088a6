import Mathlib.Order.Defs.Unbundled
import Mathlib.Data.List.Sort
import Mathlib.Logic.Function.Basic
import TrineKv.Lib.Grouping
import TrineKv.Lib.Stream

/-!
# Merging several sorted sources through a priority queue

Each source is a cursor that returns groups in ascending order of keys. The merge keeps the current
groups and a priority queue of their keys, ties ordered by source; a step takes all entries with the
least key. The queue is a sorted list, which is what any heap with distinct entries shows to its
user.

## Main results

* `KWayMerge.yields_nextKey`: every key once, in order.
-/

namespace KWayMerge

open List
open Function (update update_of_ne update_self)

universe u

/-- A cursor and the group that has been read from it and not been taken. -/
structure Source (σ α : Type u) where
  cursor : σ
  current : Option α

/-- The sources, and the queue of the keys of their current groups. -/
structure State (σ α κ : Type u) where
  sources : List (Source σ α)
  heap : List (κ × ℕ)

section Merge

variable {σ ε α κ : Type u} [DecidableEq κ] (before : κ → κ → Prop) [DecidableRel before]
  (next : σ → Except ε (Option α × σ)) (key : α → κ)

def Source.ensureCurrent (source : Source σ α) : Except ε (Source σ α) :=
  match source.current with
  | some _ => .ok source
  | none => do
    let (group, cursor) ← next source.cursor
    return ⟨cursor, group⟩

def Source.takeCurrent (source : Source σ α) : Except ε (Option α × Source σ α) := do
  let source ← source.ensureCurrent next
  return (source.current, { source with current := none })

/-- The order of the queue: by key, then by source. -/
def entryLe (left right : κ × ℕ) : Prop :=
  before left.1 right.1 ∨ left.1 = right.1 ∧ left.2 ≤ right.2

instance : DecidableRel (entryLe before) := fun left right =>
  inferInstanceAs (Decidable (before left.1 right.1 ∨ left.1 = right.1 ∧ left.2 ≤ right.2))

def pushEntry (state : State σ α κ) (index : ℕ) : Except ε (State σ α κ) :=
  match state.sources[index]? with
  | none => .ok state
  | some source => do
    let source ← source.ensureCurrent next
    let heap := match source.current with
      | none => state.heap
      | some group => state.heap.orderedInsert (entryLe before) (key group, index)
    return ⟨state.sources.set index source, heap⟩

def start (sources : List (Source σ α)) : Except ε (State σ α κ) :=
  (List.range sources.length).foldlM (pushEntry before next key) ⟨sources, []⟩

def takeGroups : State σ α κ → List ℕ → Except ε (List α × State σ α κ)
  | state, [] => .ok ([], state)
  | state, index :: indices =>
    match state.sources[index]? with
    | none => takeGroups state indices
    | some source => do
      let (group, source) ← source.takeCurrent next
      let state ← pushEntry before next key
        { state with sources := state.sources.set index source } index
      let (groups, state) ← takeGroups state indices
      return (group.toList ++ groups, state)

def nextKey (state : State σ α κ) : Except ε (Option (κ × List α) × State σ α κ) :=
  match state.heap with
  | [] => .ok (none, state)
  | (least, index) :: heap => do
    let same := heap.takeWhile fun entry => entry.1 = least
    let (groups, state) ← takeGroups before next key
      { state with heap := heap.dropWhile fun entry => entry.1 = least }
      (index :: same.map Prod.snd)
    return (some (least, groups), state)

/-! ## What the sources hold -/

/-- Source `i` holds `held i`, the first group as its current one unless it is marked as waiting for
its entry, and the queue has an entry for each unmarked source that holds something. -/
structure Holds (held : ℕ → List α) (marked : List ℕ) (state : State σ α κ) : Prop where
  source_eq : ∀ i a l, i < state.sources.length → held i = a :: l →
    ∃ cursor, state.sources[i]? = some ⟨cursor, some a⟩ ∧ Stream.Yields next cursor l
  heap_sorted : state.heap.Pairwise (entryLe before)
  heap_nodup : state.heap.Nodup
  mem_heap : ∀ k i, (k, i) ∈ state.heap ↔
    i < state.sources.length ∧ i ∉ marked ∧ ∃ a l, held i = a :: l ∧ key a = k

variable {before next key}

lemma ensureCurrent_spec {cursor : σ} {l : List α} (h : Stream.Yields next cursor l) :
    ∃ source : Source σ α, Source.ensureCurrent next ⟨cursor, none⟩ = .ok source ∧
      source.current = l.head? ∧ (l ≠ [] → Stream.Yields next source.cursor l.tail) := by
  cases h with
  | done h => exact ⟨_, by simp [Source.ensureCurrent, h, bind, Except.bind]; rfl, rfl, by simp⟩
  | step h rest =>
    exact ⟨_, by simp [Source.ensureCurrent, h, bind, Except.bind]; rfl, rfl, fun _ => rest⟩

section Order

variable [IsStrictTotalOrder κ before] {held : ℕ → List α} {state : State σ α κ}

instance : IsTrans (κ × ℕ) (entryLe before) where
  trans a b c hab hbc := by
    rcases hab with hab | ⟨hab, hab'⟩ <;> rcases hbc with hbc | ⟨hbc, hbc'⟩
    · exact .inl (trans_of before hab hbc)
    · exact .inl (hbc ▸ hab)
    · exact .inl (hab ▸ hbc)
    · exact .inr ⟨hab.trans hbc, hab'.trans hbc'⟩

instance : Std.Total (entryLe before) where
  total a b := by
    rcases trichotomous_of before a.1 b.1 with h | h | h
    · exact .inl (Or.inl h)
    · rcases Nat.le_total a.2 b.2 with hle | hle
      · exact .inl (Or.inr ⟨h, hle⟩)
      · exact .inr (Or.inr ⟨h.symm, hle⟩)
    · exact .inr (Or.inl h)

lemma Holds.push {marked : List ℕ} {i : ℕ}
    {cursor : σ} {l : List α} (h : Holds before next key held (i :: marked) state)
    (hi : i < state.sources.length) (hmark : i ∉ marked) (hl : Stream.Yields next cursor l) :
    ∃ state', pushEntry before next key
        { state with sources := state.sources.set i ⟨cursor, none⟩ } i = .ok state' ∧
      state'.sources.length = state.sources.length ∧
      (∀ j, j ≠ i → state'.sources[j]? = state.sources[j]?) ∧
      Holds before next key (update held i l) marked state' := by
  obtain ⟨source, hsource, hcurrent, hrest⟩ := ensureCurrent_spec hl
  have hget : (state.sources.set i ⟨cursor, none⟩)[i]? = some ⟨cursor, none⟩ := by
    rw [List.getElem?_set_self hi]
  have hfresh : ∀ k, (k, i) ∉ state.heap := fun k hk =>
    ((h.mem_heap k i).mp hk).2.1 mem_cons_self
  have hother : ∀ j, j ≠ i → update held i l j = held j := fun j hj =>
    update_of_ne hj l held
  set heap := match source.current with
    | none => state.heap
    | some group => state.heap.orderedInsert (entryLe before) (key group, i) with hheap
  have hmem : ∀ k j, (k, j) ∈ heap ↔
      (k, j) ∈ state.heap ∨ j = i ∧ ∃ a l', l = a :: l' ∧ key a = k := by
    intro k j
    rw [hheap, hcurrent]
    cases l with
    | nil => simp
    | cons a l' =>
      simp only [List.head?_cons, mem_orderedInsert, Prod.mk.injEq, List.cons.injEq]
      constructor
      · rintro (⟨rfl, rfl⟩ | hk)
        · exact .inr ⟨rfl, a, l', ⟨rfl, rfl⟩, rfl⟩
        · exact .inl hk
      · rintro (hk | ⟨rfl, b, l'', ⟨rfl, rfl⟩, rfl⟩)
        · exact .inr hk
        · exact .inl ⟨rfl, rfl⟩
  refine ⟨⟨(state.sources.set i ⟨cursor, none⟩).set i source, heap⟩, ?_, by simp, ?_, ?_⟩
  · simp only [pushEntry, hget, hsource, bind, Except.bind]
    rfl
  · intro j hj
    simp [Ne.symm hj]
  · refine ⟨fun j a l' hj hheld => ?_, ?_, ?_, fun k j => ?_⟩
    · have hj' : j < state.sources.length := by simpa using hj
      by_cases heq : j = i
      · subst heq
        rw [update_self] at hheld
        subst hheld
        refine ⟨source.cursor, ?_, hrest (by simp)⟩
        have hcur : source.current = some a := hcurrent
        rw [List.getElem?_set_self (by simpa using hj'), ← hcur]
      · rw [hother j heq] at hheld
        obtain ⟨c, hc, hyields⟩ := h.source_eq j a l' hj' hheld
        exact ⟨c, by simp [Ne.symm heq, hc], hyields⟩
    · rw [hheap]
      cases source.current with
      | none => exact h.heap_sorted
      | some group => exact h.heap_sorted.orderedInsert _ _
    · rw [hheap]
      cases source.current with
      | none => exact h.heap_nodup
      | some group =>
        exact (perm_orderedInsert _ _ _).nodup_iff.mpr
          (nodup_cons.mpr ⟨hfresh _, h.heap_nodup⟩)
    · rw [hmem, h.mem_heap]
      simp only [length_set, mem_cons, not_or]
      by_cases heq : j = i
      · subst heq
        simp [hi, hmark]
      · simp [heq]

omit [IsStrictTotalOrder κ before] in
lemma start_error {cursors : List σ} {i : ℕ} {cursor : σ} {e : ε}
    (hi : cursors[i]? = some cursor) (herr : next cursor = .error e)
    (hbefore : ∀ j < i, ∀ c, cursors[j]? = some c → ∃ result, next c = .ok result) :
    start before next key (cursors.map fun cursor => ⟨cursor, none⟩) =
      (.error e : Except ε (State σ α κ)) := by
  set sources : List (Source σ α) := cursors.map fun cursor => ⟨cursor, none⟩ with hsources
  have hget : ∀ j, sources[j]? = (cursors[j]?).map fun c => (⟨c, none⟩ : Source σ α) := fun j => by
    rw [hsources, List.getElem?_map]
  -- The sources before the failing one are read; the others are left alone.
  have hloop : ∀ k ≤ i, ∃ state : State σ α κ,
      (List.range k).foldlM (pushEntry before next key) ⟨sources, []⟩ = .ok state ∧
        ∀ j, k ≤ j → state.sources[j]? = sources[j]? := by
    intro k
    induction k with
    | zero => exact fun _ => ⟨⟨sources, []⟩, rfl, fun _ _ => rfl⟩
    | succ k ih =>
      intro hk
      obtain ⟨state, hstate, hsame⟩ := ih (by omega)
      rw [range_succ, foldlM_append, hstate]
      have hk' := (hsame k le_rfl).trans (hget k)
      simp only [bind, Except.bind, foldlM_cons, foldlM_nil, pushEntry, hk']
      cases hc : cursors[k]? with
      | none => exact ⟨state, rfl, fun j hj => hsame j (by omega)⟩
      | some c =>
        obtain ⟨⟨group, c'⟩, hresult⟩ := hbefore k (by omega) c hc
        simp only [Option.map_some, Source.ensureCurrent, hresult, bind, Except.bind]
        refine ⟨_, rfl, fun j hj => ?_⟩
        rw [List.getElem?_set_ne (by omega)]
        exact hsame j (by omega)
  obtain ⟨state, hstate, hsame⟩ := hloop i le_rfl
  have hlt : i < cursors.length := (List.getElem?_eq_some_iff.mp hi).1
  obtain ⟨rest, hrange⟩ : ∃ rest, List.range sources.length = List.range i ++ i :: rest := by
    obtain ⟨m, hm⟩ : ∃ m, cursors.length = i + (m + 1) := ⟨cursors.length - i - 1, by omega⟩
    rw [hsources, length_map, hm, range_add, range_succ_eq_map, map_cons]
    exact ⟨_, rfl⟩
  rw [start, hrange, foldlM_append, hstate]
  simp only [bind, Except.bind, foldlM_cons, pushEntry, hsame i le_rfl, hget, hi,
    Option.map_some, Source.ensureCurrent, herr]

/-- The merge starts with everything that the cursors return. -/
lemma start_spec {cursors : List σ}
    (h : ∀ i cursor, cursors[i]? = some cursor → Stream.Yields next cursor (held i)) :
    ∃ state, start before next key (cursors.map fun cursor => ⟨cursor, none⟩) = .ok state ∧
      state.sources.length = cursors.length ∧
      Holds before next key held [] state := by
  set sources : List (Source σ α) := cursors.map fun cursor => ⟨cursor, none⟩ with hsources
  -- After some sources have been read, the others still hold their cursors.
  have hloop : ∀ (marked : List ℕ) (seen : ℕ → List α) (state : State σ α κ), marked.Nodup →
      state.sources.length = cursors.length → (∀ i ∈ marked, i < cursors.length) →
      (∀ i ∈ marked, state.sources[i]? = sources[i]?) →
      (∀ i < cursors.length, i ∉ marked → seen i = held i) →
      Holds before next key seen marked state →
      ∃ state', marked.foldlM (pushEntry before next key) state = .ok state' ∧
        state'.sources.length = cursors.length ∧
        Holds before next key held [] state' := by
    intro marked
    induction marked with
    | nil =>
      intro seen state _ hlen _ _ hseen hholds
      refine ⟨state, rfl, hlen, fun i a l hi hheld => ?_, hholds.heap_sorted, hholds.heap_nodup,
        fun k i => ?_⟩
      · exact hholds.source_eq i a l hi (by rw [hseen i (by omega) (by simp), hheld])
      · rw [hholds.mem_heap]
        constructor
        · rintro ⟨hi, hmark, hex⟩
          exact ⟨hi, hmark, by rwa [hseen i (by omega) (by simp)] at hex⟩
        · rintro ⟨hi, hmark, hex⟩
          exact ⟨hi, hmark, by rwa [hseen i (by omega) (by simp)]⟩
    | cons i marked ih =>
      intro seen state hnodup hlen hlt hfresh hseen hholds
      obtain ⟨hi, hnodup⟩ := nodup_cons.mp hnodup
      have hilt := hlt i mem_cons_self
      have hget : state.sources[i]? = some ⟨cursors[i], none⟩ := by
        rw [hfresh i mem_cons_self, hsources]
        simp [List.getElem?_eq_getElem hilt]
      have hset : state.sources.set i ⟨cursors[i], none⟩ = state.sources := by
        obtain ⟨hlt', heq⟩ := List.getElem?_eq_some_iff.mp hget
        rw [← heq, set_getElem_self]
      obtain ⟨state', hpush, hlen', hrest, hholds'⟩ := hholds.push (by omega) hi
        (h i cursors[i] (List.getElem?_eq_getElem hilt))
      rw [hset] at hpush
      rw [foldlM_cons, hpush]
      refine ih _ state' hnodup (by omega) (fun j hj => hlt j (mem_cons_of_mem _ hj)) ?_ ?_
        hholds'
      · intro j hj
        rw [hrest j (fun heq => hi (heq ▸ hj)), hfresh j (mem_cons_of_mem _ hj)]
      · intro j hj hmark
        by_cases heq : j = i
        · subst heq
          rw [update_self]
        · rw [update_of_ne heq]
          exact hseen j hj (by simp [heq, hmark])
  have hlen : sources.length = cursors.length := by simp [hsources]
  refine hloop (List.range sources.length) (fun _ => []) ⟨sources, []⟩ nodup_range hlen
    (fun i hi => by simpa [hlen] using hi) (fun i _ => rfl)
    (fun i hi hmark => absurd (by simpa [hlen] using hi) hmark) ?_
  exact ⟨fun i a l _ hheld => by simp at hheld, List.Pairwise.nil, nodup_nil,
    fun k i => by simp⟩

lemma Holds.take {marked : List ℕ}
    (h : Holds before next key held marked state) (hnodup : marked.Nodup)
    (hmarked : ∀ i ∈ marked, i < state.sources.length ∧ held i ≠ []) :
    ∃ state', takeGroups before next key state marked =
        .ok (marked.filterMap fun i => (held i).head?, state') ∧
      state'.sources.length = state.sources.length ∧
      Holds before next key (fun i => if i ∈ marked then (held i).tail else held i) [] state' := by
  induction marked generalizing held state with
  | nil => exact ⟨state, rfl, rfl, by simpa using h⟩
  | cons i marked ih =>
    obtain ⟨hi, hnodup⟩ := nodup_cons.mp hnodup
    obtain ⟨hilt, hine⟩ := hmarked i mem_cons_self
    obtain ⟨a, l, hheld⟩ := exists_cons_of_ne_nil hine
    obtain ⟨cursor, hget, hyields⟩ := h.source_eq i a l hilt hheld
    obtain ⟨state₁, hpush, hlen, -, hholds⟩ := h.push hilt hi hyields
    have hother : ∀ j ∈ marked, update held i l j = held j := by
      intro j hj
      have hne : j ≠ i := by
        rintro rfl
        exact hi hj
      exact update_of_ne hne l held
    have hheads : (marked.filterMap fun j => (update held i l j).head?) =
        marked.filterMap fun j => (held j).head? :=
      filterMap_congr fun j hj => by rw [hother j hj]
    obtain ⟨state₂, htake, hlen', hholds'⟩ := ih hholds hnodup fun j hj => by
      rw [hlen, hother j hj]
      exact hmarked j (mem_cons_of_mem _ hj)
    refine ⟨state₂, ?_, by omega, ?_⟩
    · rw [takeGroups, hget]
      simp only [Source.takeCurrent, Source.ensureCurrent, bind, Except.bind, pure, Except.pure,
        hpush, htake, hheads]
      rw [filterMap_cons_some (by rw [hheld]; rfl)]
      rfl
    · convert hholds' using 1
      funext j
      by_cases heq : j = i
      · subst heq
        simp [hi, hheld]
      · simp [heq]

instance antisymm_before : Std.Antisymm fun a b : κ => before a b ∨ a = b where
  antisymm a b hab hba := by
    rcases hab with hab | rfl
    · rcases hba with hba | rfl
      · exact absurd hba (asymm_of before hab)
      · rfl
    · rfl

omit [DecidableRel before] in
/-- The first entry of the queue has the least key, and the entries with that key are those that
are taken off. -/
lemma Holds.least {least : κ} {index : ℕ}
    {heap : List (κ × ℕ)} (h : Holds before next key held [] state)
    (hheap : state.heap = (least, index) :: heap) :
    (∀ i a l, i < state.sources.length → held i = a :: l →
      before least (key a) ∨ least = key a) ∧
    (index :: (heap.takeWhile fun entry => entry.1 = least).map Prod.snd) =
      (List.range state.sources.length).filter fun i => (held i).head?.map key = some least := by
  have hsorted := h.heap_sorted
  have hnodup := h.heap_nodup
  rw [hheap] at hsorted hnodup
  have hkeys : ((least, index) :: heap).Pairwise fun a b => before a.1 b.1 ∨ a.1 = b.1 :=
    hsorted.imp fun hab => hab.imp_right And.left
  refine ⟨fun i a l hi hheld => ?_, ?_⟩
  · have hmem : (key a, i) ∈ state.heap := (h.mem_heap _ _).mpr ⟨hi, by simp, a, l, hheld, rfl⟩
    rw [hheap] at hmem
    rcases mem_cons.mp hmem with heq | hmem
    · exact .inr (Prod.mk.inj heq).1.symm
    · exact rel_of_pairwise_cons hkeys hmem
  · have hsame : heap.takeWhile (fun entry => entry.1 = least) =
        heap.filter fun entry => entry.1 = least :=
      @Grouping.takeWhile_eq_filter_of_sorted (κ × ℕ) κ _ Prod.fst
        (fun a b => before a b ∨ a = b) _ (least, index) heap hkeys
    have hmap : (index :: (heap.takeWhile fun entry => entry.1 = least).map Prod.snd) =
        (state.heap.filter fun entry => entry.1 = least).map Prod.snd := by
      rw [hheap, filter_cons_of_pos (by simp), hsame, map_cons]
    have hleast : ∀ entry ∈ state.heap.filter (fun entry => entry.1 = least),
        entry.1 = least := fun entry hentry => by simpa using (mem_filter.mp hentry).2
    -- Both lists of sources ascend, and they have the same members.
    rw [hmap]
    refine List.Perm.eq_of_pairwise (fun a b _ _ hab hba => Nat.le_antisymm hab hba) ?_
      (pairwise_le_range.filter _) ?_
    · refine pairwise_map.mpr ((h.heap_sorted.filter _).imp_of_mem fun {a b} ha hb hab => ?_)
      rcases hab with hab | ⟨-, hab⟩
      · rw [hleast a ha, hleast b hb] at hab
        exact absurd hab (irrefl_of before least)
      · exact hab
    · rw [perm_ext_iff_of_nodup]
      · intro i
        simp only [mem_map, mem_filter, mem_range, decide_eq_true_eq, Prod.exists,
          exists_eq_right]
        constructor
        · intro hk
          obtain ⟨hi, -, a, l, hheld, hkey⟩ := (h.mem_heap _ _).mp hk
          exact ⟨hi, by simp [hheld, hkey]⟩
        · rintro ⟨hi, hhead⟩
          obtain ⟨a, ha, hkey⟩ := Option.map_eq_some_iff.mp hhead
          obtain ⟨l, hheld⟩ := List.head?_eq_some_iff.mp ha
          exact (h.mem_heap _ _).mpr ⟨hi, by simp, a, l, hheld, hkey⟩
      · refine List.Nodup.map_on (fun a ha b hb hab => ?_) (h.heap_nodup.filter _)
        exact Prod.ext ((hleast a ha).trans (hleast b hb).symm) hab
      · exact nodup_range.filter _

lemma Holds.nextKey {least : κ} {index : ℕ}
    {heap : List (κ × ℕ)} (h : Holds before next key held [] state)
    (hheap : state.heap = (least, index) :: heap) :
    let taken := (List.range state.sources.length).filter
      fun i => (held i).head?.map key = some least
    ∃ state', KWayMerge.nextKey before next key state =
        .ok (some (least, taken.filterMap fun i => (held i).head?), state') ∧
      state'.sources.length = state.sources.length ∧
      Holds before next key (fun i => if i ∈ taken then (held i).tail else held i) [] state' := by
  intro taken
  obtain ⟨-, htaken⟩ := h.least hheap
  have hmem : ∀ i, i ∈ taken ↔ i < state.sources.length ∧ (held i).head?.map key = some least :=
    fun i => by simp [taken]
  have hsorted := h.heap_sorted
  rw [hheap] at hsorted
  have hkeys : ((least, index) :: heap).Pairwise fun a b => before a.1 b.1 ∨ a.1 = b.1 :=
    hsorted.imp fun hab => hab.imp_right And.left
  have hdrop : heap.dropWhile (fun entry => entry.1 = least) =
      heap.filter fun entry => entry.1 ≠ least :=
    @Grouping.dropWhile_eq_filter_of_sorted (κ × ℕ) κ _ Prod.fst
      (fun a b => before a b ∨ a = b) _ (least, index) heap hkeys
  have hsub : (heap.dropWhile fun entry => entry.1 = least).Sublist state.heap := by
    rw [hheap]
    exact (dropWhile_sublist _).trans (sublist_cons_self _ _)
  -- The sources whose entries have been popped are marked.
  have hpopped : Holds before next key held taken
      { state with heap := heap.dropWhile fun entry => entry.1 = least } := by
    refine ⟨h.source_eq, h.heap_sorted.sublist hsub, h.heap_nodup.sublist hsub, fun k i => ?_⟩
    have hin : (k, i) ∈ heap.dropWhile (fun entry => entry.1 = least) ↔
        (k, i) ∈ state.heap ∧ k ≠ least := by
      rw [hdrop, hheap]
      simp only [mem_filter, mem_cons, Prod.mk.injEq, decide_eq_true_eq, ne_eq]
      constructor
      · exact fun hk => ⟨Or.inr hk.1, hk.2⟩
      · rintro ⟨⟨rfl, rfl⟩ | hk, hne⟩
        · exact absurd rfl hne
        · exact ⟨hk, hne⟩
    rw [hin, h.mem_heap, hmem]
    constructor
    · rintro ⟨⟨hi, -, a, l, hheld, rfl⟩, hne⟩
      exact ⟨hi, fun htaken => by simp [hheld, hne] at htaken, a, l, hheld, rfl⟩
    · rintro ⟨hi, hnot, a, l, hheld, rfl⟩
      refine ⟨⟨hi, by simp, a, l, hheld, rfl⟩, fun heq => hnot ⟨hi, by simp [hheld, heq]⟩⟩
  obtain ⟨state', htake, hlen, hholds⟩ := hpopped.take (nodup_range.filter _) fun i hi => by
    obtain ⟨hlt, hhead⟩ := (hmem i).mp hi
    exact ⟨hlt, fun hnil => by simp [hnil] at hhead⟩
  refine ⟨state', ?_, hlen, hholds⟩
  rw [KWayMerge.nextKey, hheap]
  simp only [htaken, bind, Except.bind]
  rw [htake]
  rfl

omit [DecidableRel before] in
/-- The least key that is held heads the queue. -/
lemma Holds.exists_heap_eq {least : κ} (h : Holds before next key held [] state)
    (hafter : ∀ i < state.sources.length, ∀ a ∈ held i, before least (key a) ∨ least = key a)
    (hhead : ∀ i < state.sources.length, ∀ a l, held i = a :: l → ∀ b ∈ l, before least (key b))
    (hheld : ∃ i < state.sources.length, ∃ a ∈ held i, key a = least) :
    ∃ index heap, state.heap = (least, index) :: heap := by
  obtain ⟨i, hi, a, ha, hkey⟩ := hheld
  obtain ⟨b, l, hb⟩ := exists_cons_of_ne_nil (ne_nil_of_mem ha)
  have hbleast : least = key b := by
    rw [hb] at ha
    rcases mem_cons.mp ha with rfl | hin
    · exact hkey.symm
    · exact absurd (hhead i hi b l hb a hin) (hkey ▸ irrefl_of before _)
  have hentry := (h.mem_heap (key b) i).mpr ⟨hi, by simp, b, l, hb, rfl⟩
  obtain ⟨⟨k, index⟩, heap, hheap⟩ := exists_cons_of_ne_nil (ne_nil_of_mem hentry)
  obtain ⟨hj, -, c, m, hc, hck⟩ := (h.mem_heap k index).mp (by simp [hheap])
  rcases (h.least hheap).1 i b l hi hb with hlt | heq
  · rcases hafter index hj c (by simp [hc]) with hlt' | heq'
    · rw [hck] at hlt'
      exact absurd (hbleast ▸ hlt') (asymm_of before hlt)
    · exact ⟨index, heap, by rw [hheap, heq', hck]⟩
  · exact ⟨index, heap, by rw [hheap, heq, hbleast]⟩

omit [DecidableRel before] in
/-- Only the first element can have the least key. -/
lemma find?_least {list : List α} {least : κ}
    (hhead : ∀ a l, list = a :: l → ∀ b ∈ l, before least (key b)) :
    (list.find? fun a => key a = least) =
      if list.head?.map key = some least then list.head? else none := by
  cases list with
  | nil => simp
  | cons a l =>
    by_cases hkey : key a = least
    · simp [hkey]
    · have hnone : ∀ b ∈ l, key b ≠ least := by
        intro b hb heq
        exact irrefl_of before _ (heq ▸ hhead a l rfl b hb)
      have htail : l.find? (fun b => key b = least) = none := by
        rw [List.find?_eq_none]
        simpa using hnone
      simp [hkey, htail]

/-- The group with a key in what each source holds, source by source. -/
def groupsWith (key : α → κ) (n : ℕ) (held : ℕ → List α) (k : κ) : List α :=
  (List.range n).filterMap fun i => (held i).find? fun a => key a = k

/-- The merge returns every key that the sources hold once, in ascending order, with the group of
each source that has one.

**Proof sketch.** Induction on the keys. The first key is the least one, so it heads the queue,
and a step takes the groups with this key, which stand first in their sources. -/
theorem yields_nextKey {keys : List κ}
    (hkeys : keys.Pairwise before) (h : Holds before next key held [] state)
    (hheld : ∀ i, (held i).Pairwise fun a b => before (key a) (key b))
    (hmem : ∀ k, k ∈ keys ↔ ∃ i < state.sources.length, ∃ a ∈ held i, key a = k) :
    Stream.Yields (KWayMerge.nextKey before next key) state
      (keys.map fun k => (k, groupsWith key state.sources.length held k)) := by
  induction keys generalizing held state with
  | nil =>
    have hnil : state.heap = [] := by
      refine eq_nil_iff_forall_not_mem.mpr ?_
      rintro ⟨k, i⟩ hk
      obtain ⟨hi, -, a, l, ha, rfl⟩ := (h.mem_heap k i).mp hk
      have := (hmem (key a)).mpr ⟨i, hi, a, by simp [ha], rfl⟩
      simp at this
    exact .done (show KWayMerge.nextKey before next key state = .ok (none, state) by
      rw [KWayMerge.nextKey, hnil])
  | cons least keys ih =>
    obtain ⟨hfirst, hkeys⟩ := pairwise_cons.mp hkeys
    -- Every group held comes after the least key or has it.
    have hafter : ∀ i < state.sources.length, ∀ a ∈ held i,
        before least (key a) ∨ least = key a := by
      intro i hi a ha
      rcases mem_cons.mp ((hmem (key a)).mpr ⟨i, hi, a, ha, rfl⟩) with heq | hin
      · exact .inr heq.symm
      · exact .inl (hfirst _ hin)
    -- Only the first group of a source can have the least key.
    have hhead : ∀ i < state.sources.length, ∀ a l, held i = a :: l → ∀ b ∈ l,
        before least (key b) := by
      intro i hi a l ha b hb
      have hab := rel_of_pairwise_cons (ha ▸ hheld i) hb
      rcases hafter i hi a (by simp [ha]) with hlt | heq
      · exact trans_of before hlt hab
      · exact heq ▸ hab
    obtain ⟨index, heap, hheap⟩ := h.exists_heap_eq hafter hhead ((hmem least).mp mem_cons_self)
    obtain ⟨state', hstep, hlen, hholds⟩ := h.nextKey hheap
    set taken := (List.range state.sources.length).filter
      fun i => (held i).head?.map key = some least with htaken
    have hmemTaken : ∀ i, i ∈ taken ↔
        i < state.sources.length ∧ (held i).head?.map key = some least :=
      fun i => by simp [htaken]
    -- Taking the first groups leaves the groups with other keys as they were.
    have hothers : ∀ k ∈ keys, ∀ i,
        ((if i ∈ taken then (held i).tail else held i).find? fun a => key a = k) =
          (held i).find? fun a => key a = k := by
      intro k hk i
      split_ifs with hi
      · obtain ⟨a, ha, hkey⟩ := Option.map_eq_some_iff.mp ((hmemTaken i).mp hi).2
        obtain ⟨l, hl⟩ := List.head?_eq_some_iff.mp ha
        have hne : key a ≠ k := by
          rintro rfl
          exact irrefl_of before _ (hkey ▸ hfirst _ hk)
        rw [hl, tail_cons, List.find?_cons_of_neg (by simpa using hne)]
      · rfl
    have hleast : groupsWith key state.sources.length held least =
        taken.filterMap fun i => (held i).head? := by
      rw [groupsWith, htaken, filterMap_filter]
      refine filterMap_congr fun i hi => ?_
      rw [find?_least (hhead i (mem_range.mp hi))]
      simp
    rw [map_cons, hleast]
    refine .step hstep ?_
    have hrest := ih hkeys hholds (fun i => ?_) fun k => ?_
    · rw [hlen] at hrest
      convert hrest using 1
      refine map_congr_left fun k hk => ?_
      rw [groupsWith, groupsWith]
      congr 1
      exact filterMap_congr fun i _ => (hothers k hk i).symm
    · split_ifs
      · exact (hheld i).sublist (tail_sublist _)
      · exact hheld i
    · rw [hlen]
      constructor
      · intro hk
        obtain ⟨i, hi, a, ha, hkey⟩ := (hmem k).mp (mem_cons_of_mem _ hk)
        have hfound : ((held i).find? fun a => key a = k).isSome :=
          List.find?_isSome.mpr ⟨a, ha, by simpa using hkey⟩
        rw [← hothers k hk i] at hfound
        obtain ⟨b, hb, hbkey⟩ := List.find?_isSome.mp hfound
        exact ⟨i, hi, b, hb, by simpa using hbkey⟩
      · rintro ⟨i, hi, a, ha, rfl⟩
        have hin : a ∈ held i ∧ before least (key a) := by
          cases hl : held i with
          | nil => simp [hl] at ha
          | cons b l =>
            rw [hl] at ha
            split_ifs at ha with htake
            · exact ⟨mem_cons_of_mem _ ha, hhead i hi b l hl a ha⟩
            · rcases mem_cons.mp ha with rfl | hin
              · rcases hafter i hi a (by simp [hl]) with hlt | heq
                · exact ⟨mem_cons_self, hlt⟩
                · exact absurd ((hmemTaken i).mpr ⟨hi, by simp [hl, heq]⟩) htake
              · exact ⟨mem_cons_of_mem _ hin, hhead i hi b l hl a hin⟩
        rcases mem_cons.mp ((hmem (key a)).mpr ⟨i, hi, a, hin.1, rfl⟩) with heq | hk
        · exact absurd hin.2 (heq ▸ irrefl_of before _)
        · exact hk

end Order

end Merge

end KWayMerge
