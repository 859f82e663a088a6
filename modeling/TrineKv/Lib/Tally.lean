import Mathlib.Algebra.BigOperators.Group.List.Basic
import Mathlib.Data.List.AList
import Mathlib.Tactic

/-!
# Totals over a table of records

A counter that is kept beside a table of records is meant to be the sum of a weight over the
records. This module says how that sum changes when one record is written or deleted.

## Main results

* `Tally.total_insert`, `Tally.total_eq_add_erase`.
-/

namespace Tally

open List Option

variable {κ ν : Type*} [DecidableEq κ] {weight : κ → ν → ℕ} {table : AList fun _ : κ => ν}
  {key : κ}

def total (weight : κ → ν → ℕ) (table : AList fun _ : κ => ν) : ℕ :=
  (table.entries.map fun entry => weight entry.1 entry.2).sum

def weightAt (weight : κ → ν → ℕ) (table : AList fun _ : κ => ν) (key : κ) : ℕ :=
  (table.lookup key).elim 0 (weight key)

lemma weightAt_of_lookup {value : ν} (h : table.lookup key = some value) :
    weightAt weight table key = weight key value := by
  rw [weightAt, h, elim_some]

lemma weightAt_of_lookup_none (h : table.lookup key = none) : weightAt weight table key = 0 := by
  rw [weightAt, h, elim_none]

lemma total_eq_add_erase (weight : κ → ν → ℕ) (table : AList fun _ : κ => ν) (key : κ) :
    total weight table = weightAt weight table key + total weight (table.erase key) := by
  change (table.entries.map _).sum = ((table.entries.dlookup key).elim 0 (weight key)) +
    ((table.entries.kerase key).map _).sum
  induction table.entries with
  | nil => rfl
  | cons entry entries ih =>
    by_cases h : key = entry.1
    · subst h
      rw [kerase_cons_eq rfl, dlookup_cons_eq, map_cons, sum_cons,
        elim_some]
    · rw [kerase_cons_ne h, dlookup_cons_ne _ _ h, map_cons, sum_cons, ih,
        map_cons, sum_cons]
      omega

lemma total_insert (value : ν) : total weight (table.insert key value) =
    weight key value + total weight (table.erase key) := by
  change ((List.kinsert key value table.entries).map _).sum = _
  rw [kinsert_def, map_cons, sum_cons]
  rfl

end Tally
