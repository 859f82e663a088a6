import Mathlib.Data.List.Basic
import Mathlib.Logic.Function.Basic
import Mathlib.Tactic

/-!
# Linked logs in a store

A store maps keys to segments, and every segment names its predecessor. A chain is what a reader
finds that starts at a head key and follows the predecessors to the end. Chains are finite by
definition, so a head determines its chain and no key occurs in a chain twice.

## Main results

* `LinkedLog.Chain.unique`, `LinkedLog.Chain.nodup_keys`, `LinkedLog.Chain.put`,
  `LinkedLog.Chain.of_agree`, `LinkedLog.Chain.ne_of_previous_eq`.
-/

namespace LinkedLog

open List Function

variable {κ σ : Type} {store store' : κ → Option σ} {previous : σ → Option κ}

/-- The segments that are found from a head by following the predecessors, newest first. -/
inductive Chain (store : κ → Option σ) (previous : σ → Option κ) : Option κ → List (κ × σ) → Prop
  | nil : Chain store previous none []
  | cons {key : κ} {segment : σ} {chain : List (κ × σ)} :
      store key = some segment → Chain store previous (previous segment) chain →
        Chain store previous (some key) ((key, segment) :: chain)

namespace Chain

variable {head : Option κ} {chain chain' : List (κ × σ)}

lemma unique (h : Chain store previous head chain) (h' : Chain store previous head chain') :
    chain = chain' := by
  induction h generalizing chain' with
  | nil =>
    cases h'
    rfl
  | cons hstore _ ih =>
    cases h' with
    | cons hstore' hrest' =>
      obtain rfl := Option.some.inj (hstore.symm.trans hstore')
      rw [ih hrest']

lemma store_eq (h : Chain store previous head chain) {key : κ} {segment : σ}
    (hmem : (key, segment) ∈ chain) : store key = some segment := by
  induction h with
  | nil => cases hmem
  | cons hstore _ ih =>
    rcases mem_cons.mp hmem with heq | hmem
    · obtain ⟨rfl, rfl⟩ := Prod.mk.inj heq
      exact hstore
    · exact ih hmem

lemma exists_suffix (h : Chain store previous head chain) {key : κ} {segment : σ}
    (hmem : (key, segment) ∈ chain) :
    ∃ rest, Chain store previous (previous segment) rest ∧ (key, segment) :: rest <:+ chain := by
  induction h with
  | nil => cases hmem
  | @cons key' segment' chain hstore hrest ih =>
    rcases mem_cons.mp hmem with heq | hmem
    · obtain ⟨rfl, rfl⟩ := Prod.mk.inj heq
      exact ⟨chain, hrest, suffix_refl _⟩
    · obtain ⟨rest, hchain, hsuffix⟩ := ih hmem
      exact ⟨rest, hchain, hsuffix.trans (suffix_cons _ _)⟩

lemma ne_of_previous_eq (h : Chain store previous head chain) {key : κ} {segment : σ}
    (hmem : (key, segment) ∈ chain) : previous segment ≠ head := by
  intro heq
  obtain ⟨rest, hrest, hsuffix⟩ := h.exists_suffix hmem
  rw [heq] at hrest
  have hlength := hsuffix.length_le
  rw [hrest.unique h, length_cons] at hlength
  omega

lemma nodup_keys (h : Chain store previous head chain) : (chain.map Prod.fst).Nodup := by
  induction h with
  | nil => exact nodup_nil
  | @cons key segment chain hstore hrest ih =>
    rw [map_cons, nodup_cons]
    refine ⟨fun hmem => ?_, ih⟩
    obtain ⟨⟨key', segment'⟩, hin, rfl⟩ := mem_map.mp hmem
    obtain rfl := Option.some.inj (hstore.symm.trans (hrest.store_eq hin))
    exact hrest.ne_of_previous_eq hin rfl

lemma of_agree (h : Chain store previous head chain)
    (hagree : ∀ key ∈ chain.map Prod.fst, store' key = store key) :
    Chain store' previous head chain := by
  induction h with
  | nil => exact .nil
  | cons hstore _ ih =>
    refine .cons ?_ (ih fun key hmem => hagree key (mem_cons_of_mem _ hmem))
    rw [hagree _ mem_cons_self, hstore]

lemma grow (h : Chain store previous head chain)
    (hgrow : ∀ key segment, store key = some segment → store' key = some segment) :
    Chain store' previous head chain := by
  induction h with
  | nil => exact .nil
  | cons hstore _ ih => exact .cons (hgrow _ _ hstore) ih

lemma put [DecidableEq κ] (h : Chain store previous head chain) {key : κ} {segment : σ}
    (hfree : store key = none ∨ store key = some segment) :
    Chain (update store key (some segment)) previous head chain := by
  refine h.of_agree fun key' hmem => ?_
  by_cases heq : key' = key
  · subst heq
    obtain ⟨⟨key'', segment'⟩, hin, rfl⟩ := mem_map.mp hmem
    rcases hfree with hnone | hsome
    · rw [h.store_eq hin] at hnone
      cases hnone
    · rw [update_self, hsome]
  · rw [update_of_ne heq]

end Chain

end LinkedLog
