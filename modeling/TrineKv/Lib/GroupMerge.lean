import Mathlib.Algebra.Order.BigOperators.Group.List
import Mathlib.Algebra.Order.Group.Nat
import Mathlib.Data.List.Basic
import Mathlib.Order.Basic
import Mathlib.Tactic

/-!
# Merging sorted lists of groups

Several lists of groups, each sorted by a key without repetition, are merged: the least key among
the heads is chosen, and the heads with that key are taken together.

## Main results

* `GroupMerge.mem_merge`: a merged group has the groups of its key in all lists.
* `GroupMerge.pairwise_merge`: merged groups ascend.
-/

namespace GroupMerge

open List

variable {α κ : Type*} [LinearOrder κ] (key : α → κ)

def lesserHead (selected : Option κ) (source : List α) : Option κ :=
  match source.head?, selected with
  | none, _ => selected
  | some a, none => some (key a)
  | some a, some least => if key a < least then some (key a) else some least

def leastHead (sources : List (List α)) : Option κ := sources.foldl (lesserHead key) none

def takeHeads (k : κ) (sources : List (List α)) : List α :=
  sources.flatMap fun source => (source.head?.filter fun a => decide (key a = k)).toList

def dropHeads (k : κ) (sources : List (List α)) : List (List α) :=
  sources.map fun source => if source.head?.map key = some k then source.tail else source

def merge : ℕ → List (List α) → List (κ × List α)
  | 0, _ => []
  | fuel + 1, sources =>
    match leastHead key sources with
    | none => []
    | some k => (k, takeHeads key k sources) :: merge fuel (dropHeads key k sources)

def Ascending (sources : List (List α)) : Prop :=
  ∀ source ∈ sources, source.Pairwise fun a b => key a < key b

/-- The number of groups. -/
def size (sources : List (List α)) : ℕ := (sources.map List.length).sum

variable {key} {sources : List (List α)} {k : κ}

lemma foldl_lesserHead (sources : List (List α)) (selected : Option κ) :
    (∀ k, sources.foldl (lesserHead key) selected = some k →
      (selected = some k ∨ ∃ source ∈ sources, ∃ a, source.head? = some a ∧ key a = k) ∧
      (∀ l ∈ selected, k ≤ l) ∧
      ∀ source ∈ sources, ∀ a, source.head? = some a → k ≤ key a) ∧
    (sources.foldl (lesserHead key) selected = none →
      selected = none ∧ ∀ source ∈ sources, source = []) := by
  induction sources generalizing selected with
  | nil =>
    refine ⟨fun k hk => ⟨Or.inl hk, fun l hl => ?_, nofun⟩, fun h => ⟨h, nofun⟩⟩
    rw [foldl_nil] at hk
    exact (Option.some.inj (hk.symm.trans hl)).le
  | cons source sources ih =>
    rw [foldl_cons]
    cases hhead : source.head? with
    | none =>
      have hsame : lesserHead key selected source = selected := by simp only [lesserHead, hhead]
      rw [List.head?_eq_none_iff] at hhead
      obtain ⟨hsome, hnone⟩ := ih selected
      rw [hsame]
      refine ⟨fun k hk => ?_, fun h => ?_⟩
      · obtain ⟨hfound, hselected, hall⟩ := hsome k hk
        refine ⟨hfound.imp_right fun ⟨s, hs, a, ha⟩ => ⟨s, mem_cons_of_mem _ hs, a, ha⟩,
          hselected, forall_mem_cons.mpr ⟨by simp [hhead], hall⟩⟩
      · obtain ⟨hselected, hall⟩ := hnone h
        exact ⟨hselected, forall_mem_cons.mpr ⟨hhead, hall⟩⟩
    | some a =>
      -- The head of this list is compared with what has been selected before.
      obtain ⟨next, hnext, hle, hold, hfrom⟩ : ∃ next, lesserHead key selected source = some next ∧
          next ≤ key a ∧ (∀ l ∈ selected, next ≤ l) ∧ (next = key a ∨ selected = some next) := by
        simp only [lesserHead, hhead]
        cases selected with
        | none => exact ⟨key a, rfl, le_rfl, nofun, Or.inl rfl⟩
        | some least =>
          by_cases hlt : key a < least
          · refine ⟨key a, if_pos hlt, le_rfl, ?_, Or.inl rfl⟩
            rintro _ ⟨⟩
            exact hlt.le
          · refine ⟨least, if_neg hlt, not_lt.mp hlt, ?_, Or.inr rfl⟩
            rintro _ ⟨⟩
            exact le_rfl
      rw [hnext]
      obtain ⟨hsome, hnone⟩ := ih (some next)
      refine ⟨fun k hk => ?_, fun h => ?_⟩
      · obtain ⟨hfound, hselected, hall⟩ := hsome k hk
        have hk : k ≤ next := hselected next rfl
        refine ⟨?_, fun l hl => hk.trans (hold l hl), forall_mem_cons.mpr ⟨?_, hall⟩⟩
        · rcases hfound with hfound | ⟨s, hs, b, hb⟩
          · obtain rfl := Option.some.inj hfound
            rcases hfrom with hfrom | hfrom
            · exact .inr ⟨source, mem_cons_self, a, hhead, hfrom.symm⟩
            · exact .inl hfrom
          · exact .inr ⟨s, mem_cons_of_mem _ hs, b, hb⟩
        · intro b hb
          rw [hhead, Option.some.injEq] at hb
          exact hb ▸ hk.trans hle
      · cases (hnone h).1

lemma leastHead_eq_some (h : leastHead key sources = some k) :
    (∃ source ∈ sources, ∃ a, source.head? = some a ∧ key a = k) ∧
      ∀ source ∈ sources, ∀ a, source.head? = some a → k ≤ key a := by
  obtain ⟨hfound, -, hall⟩ := (foldl_lesserHead sources none).1 k h
  exact ⟨hfound.resolve_left nofun, hall⟩

lemma leastHead_eq_none (h : leastHead key sources = none) : ∀ source ∈ sources, source = [] :=
  ((foldl_lesserHead sources none).2 h).2

lemma le_of_mem (hsorted : Ascending key sources) (h : leastHead key sources = some k)
    {source : List α} (hsource : source ∈ sources) {a : α} (ha : a ∈ source) : k ≤ key a := by
  cases source with
  | nil => cases ha
  | cons first rest =>
    have hfirst := (leastHead_eq_some h).2 _ hsource first rfl
    rcases mem_cons.mp ha with rfl | hrest
    · exact hfirst
    · exact hfirst.trans ((pairwise_cons.mp (hsorted _ hsource)).1 a hrest).le

lemma filter_eq_head {source : List α} (hsorted : source.Pairwise fun a b => key a < key b)
    (hle : ∀ a ∈ source, k ≤ key a) :
    source.filter (fun a => decide (key a = k)) =
      (source.head?.filter fun a => decide (key a = k)).toList := by
  cases source with
  | nil => rfl
  | cons first rest =>
    have hrest : rest.filter (fun a => decide (key a = k)) = [] := by
      rw [filter_eq_nil_iff]
      intro a ha
      have hlt := (pairwise_cons.mp hsorted).1 a ha
      have hle := hle first mem_cons_self
      simpa using (hle.trans_lt hlt).ne'
    by_cases hfirst : key first = k
    · simp [hfirst, hrest, Option.filter]
    · simp [hfirst, hrest, Option.filter]

lemma takeHeads_eq (hsorted : Ascending key sources) (h : leastHead key sources = some k) :
    takeHeads key k sources =
      sources.flatMap fun source => source.filter fun a => decide (key a = k) := by
  refine flatMap_congr fun source hsource => ?_
  rw [filter_eq_head (hsorted source hsource) fun a ha => le_of_mem hsorted h hsource ha]

section DropHeads

lemma mem_dropHeads {rest : List α} :
    rest ∈ dropHeads key k sources ↔
      ∃ source ∈ sources, (if source.head?.map key = some k then source.tail else source) = rest :=
  mem_map

lemma dropHead_sublist (source : List α) :
    (if source.head?.map key = some k then source.tail else source).Sublist source := by
  split_ifs
  · exact tail_sublist source
  · exact List.Sublist.refl source

lemma ascending_dropHeads (hsorted : Ascending key sources) :
    Ascending key (dropHeads key k sources) := by
  intro rest hrest
  obtain ⟨source, hsource, rfl⟩ := mem_dropHeads.mp hrest
  exact (hsorted source hsource).sublist (dropHead_sublist source)

/-- Exactly the groups with the key are dropped. -/
lemma mem_dropHead (hsorted : Ascending key sources) (h : leastHead key sources = some k)
    {source : List α} (hsource : source ∈ sources) {a : α} :
    a ∈ (if source.head?.map key = some k then source.tail else source) ↔
      a ∈ source ∧ key a ≠ k := by
  have hle := fun b (hb : b ∈ source) => le_of_mem hsorted h hsource hb
  cases source with
  | nil => simp
  | cons first rest =>
    have hrest := fun b (hb : b ∈ rest) =>
      (hle first mem_cons_self).trans_lt ((pairwise_cons.mp (hsorted _ hsource)).1 b hb)
    by_cases hfirst : key first = k
    · rw [if_pos (by simp [hfirst]), tail_cons, mem_cons]
      constructor
      · exact fun ha => ⟨Or.inr ha, (hrest a ha).ne'⟩
      · rintro ⟨rfl | ha, hne⟩
        · exact absurd hfirst hne
        · exact ha
    · rw [if_neg (by simpa using hfirst), mem_cons]
      constructor
      · rintro (rfl | ha)
        · exact ⟨Or.inl rfl, hfirst⟩
        · exact ⟨Or.inr ha, (hrest a ha).ne'⟩
      · exact And.left

lemma filter_dropHead {source : List α} {other : κ} (hne : other ≠ k) :
    (if source.head?.map key = some k then source.tail else source).filter
        (fun a => decide (key a = other)) =
      source.filter fun a => decide (key a = other) := by
  cases source with
  | nil => simp
  | cons first rest =>
    by_cases hfirst : key first = k
    · rw [if_pos (by simp [hfirst]), tail_cons, filter_cons_of_neg]
      simpa [hfirst] using hne.symm
    · rw [if_neg (by simpa using hfirst)]

lemma size_dropHeads_lt (h : leastHead key sources = some k) :
    size (dropHeads key k sources) < size sources := by
  obtain ⟨⟨source, hsource, a, hhead, ha⟩, -⟩ := leastHead_eq_some h
  rw [size, size, dropHeads, map_map]
  refine sum_lt_sum _ _ (fun s _ => (dropHead_sublist s).length_le) ⟨source, hsource, ?_⟩
  cases source with
  | nil => cases hhead
  | cons first rest =>
    simp only [List.head?_cons, Option.some.injEq] at hhead
    subst hhead
    simp [ha]

end DropHeads

/-- With enough fuel, the merge has, for every key of a list, the groups of all lists with that
key.

**Proof sketch.** Induction on the fuel. The first step takes the groups with the least key; the
groups with other keys are left as they are. -/
theorem mem_merge {fuel : ℕ} (hsorted : Ascending key sources) (hfuel : size sources < fuel)
    {groups : List α} :
    (k, groups) ∈ merge key fuel sources ↔
      (∃ source ∈ sources, ∃ a ∈ source, key a = k) ∧
        groups = sources.flatMap fun source => source.filter fun a => decide (key a = k) := by
  induction fuel generalizing sources with
  | zero => omega
  | succ fuel ih =>
    rw [merge]
    cases hleast : leastHead key sources with
    | none =>
      have hempty := leastHead_eq_none hleast
      simp only [not_mem_nil, false_iff, not_and]
      rintro ⟨source, hsource, a, ha, -⟩
      rw [hempty source hsource] at ha
      cases ha
    | some least =>
      have hlt := size_dropHeads_lt hleast
      simp only [mem_cons, Prod.mk.injEq]
      rw [ih (ascending_dropHeads hsorted) (by omega)]
      by_cases hk : k = least
      · subst hk
        obtain ⟨⟨source, hsource, a, hhead, ha⟩, -⟩ := leastHead_eq_some hleast
        have hexists : ∃ source ∈ sources, ∃ a ∈ source, key a = k :=
          ⟨source, hsource, a, mem_of_mem_head? hhead, ha⟩
        have hgone : ¬∃ rest ∈ dropHeads key k sources, ∃ a ∈ rest, key a = k := by
          rintro ⟨rest, hrest, a, ha, hkey⟩
          obtain ⟨source, hsource, rfl⟩ := mem_dropHeads.mp hrest
          exact ((mem_dropHead hsorted hleast hsource).mp ha).2 hkey
        simp only [true_and, hgone, false_and, or_false, hexists, takeHeads_eq hsorted hleast]
      · have hexists : (∃ rest ∈ dropHeads key least sources, ∃ a ∈ rest, key a = k) ↔
            ∃ source ∈ sources, ∃ a ∈ source, key a = k := by
          constructor
          · rintro ⟨rest, hrest, a, ha, hkey⟩
            obtain ⟨source, hsource, rfl⟩ := mem_dropHeads.mp hrest
            exact ⟨source, hsource, a, ((mem_dropHead hsorted hleast hsource).mp ha).1, hkey⟩
          · rintro ⟨source, hsource, a, ha, hkey⟩
            refine ⟨_, mem_dropHeads.mpr ⟨source, hsource, rfl⟩, a, ?_, hkey⟩
            exact (mem_dropHead hsorted hleast hsource).mpr ⟨ha, hkey ▸ hk⟩
        have hgroups : ((dropHeads key least sources).flatMap fun source =>
              source.filter fun a => decide (key a = k)) =
            sources.flatMap fun source => source.filter fun a => decide (key a = k) := by
          rw [dropHeads, flatMap_map]
          exact flatMap_congr fun source _ => filter_dropHead hk
        simp only [hk, false_and, false_or, hexists, hgroups]

theorem pairwise_merge {fuel : ℕ} (hsorted : Ascending key sources) (hfuel : size sources < fuel) :
    (merge key fuel sources).Pairwise fun left right => left.1 < right.1 := by
  induction fuel generalizing sources with
  | zero => omega
  | succ fuel ih =>
    rw [merge]
    cases hleast : leastHead key sources with
    | none => exact List.Pairwise.nil
    | some least =>
      have hlt := size_dropHeads_lt hleast
      have hdrop := @ascending_dropHeads _ _ _ key sources least hsorted
      refine pairwise_cons.mpr ⟨?_, ih hdrop (by omega)⟩
      rintro ⟨k, groups⟩ hmem
      obtain ⟨⟨rest, hrest, a, ha, rfl⟩, -⟩ := (mem_merge hdrop (by omega)).mp hmem
      obtain ⟨source, hsource, rfl⟩ := mem_dropHeads.mp hrest
      obtain ⟨ha, hne⟩ := (mem_dropHead hsorted hleast hsource).mp ha
      exact lt_of_le_of_ne (le_of_mem hsorted hleast hsource ha) (Ne.symm hne)

end GroupMerge
