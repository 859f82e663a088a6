import Mathlib.Data.List.Basic

/-!
# Fallible iterators and the lists they yield

An iterator is a function `next : σ → Except ε (Option α × σ)` on its state: a call fails, ends
the iteration, or yields an element and the state for the next call. `Stream.Yields` relates a
state to the elements that repeated calls return; it also says that no call fails and that the
iteration ends.

## Main results

* `Stream.Yields.drain_eq`: draining an iterator returns what it yields.
* `Stream.Yields.nextKept`: an iterator that passes over some elements yields the others.
-/

namespace Stream

variable {σ ε α : Type*} {next : σ → Except ε (Option α × σ)}

/-- Repeated calls from the state return the elements of the list and then end. -/
inductive Yields (next : σ → Except ε (Option α × σ)) : σ → List α → Prop where
  | done {s s' : σ} (h : next s = .ok (none, s')) : Yields next s []
  | step {s s' : σ} {a : α} {l : List α} (h : next s = .ok (some a, s'))
      (rest : Yields next s' l) : Yields next s (a :: l)

lemma Yields.exists_ok {s : σ} {l : List α} (h : Yields next s l) :
    ∃ result, next s = .ok result := by
  cases h with
  | done h => exact ⟨_, h⟩
  | step h _ => exact ⟨_, h⟩

lemma yields_of_pops (remaining : σ → List α) (inv : σ → Prop)
    (hnil : ∀ s, inv s → remaining s = [] → ∃ s', next s = .ok (none, s'))
    (hcons : ∀ s a l, inv s → remaining s = a :: l →
      ∃ s', next s = .ok (some a, s') ∧ inv s' ∧ remaining s' = l) {s : σ} (hs : inv s) :
    Yields next s (remaining s) := by
  generalize hl : remaining s = l
  induction l generalizing s with
  | nil =>
    obtain ⟨s', h⟩ := hnil s hs hl
    exact .done h
  | cons a l ih =>
    obtain ⟨s', h, hs', hrest⟩ := hcons s a l hs hl
    exact .step h (ih hs' hrest)

/-- The elements that at most `fuel` calls return, up to the end of the iteration. -/
def drain (next : σ → Except ε (Option α × σ)) : ℕ → σ → Except ε (List α)
  | 0, _ => .ok []
  | fuel + 1, s =>
    match next s with
    | .error e => .error e
    | .ok (none, _) => .ok []
    | .ok (some a, s') =>
      match drain next fuel s' with
      | .error e => .error e
      | .ok rest => .ok (a :: rest)

lemma Yields.drain_eq {s : σ} {l : List α} (h : Yields next s l) :
    ∀ fuel, l.length < fuel → drain next fuel s = .ok l := by
  induction h with
  | done h =>
    intro fuel hfuel
    obtain ⟨fuel, rfl⟩ : ∃ n, fuel = n + 1 := ⟨fuel - 1, by omega⟩
    simp [drain, h]
  | step h _ ih =>
    intro fuel hfuel
    rw [List.length_cons] at hfuel
    obtain ⟨fuel, rfl⟩ : ∃ n, fuel = n + 1 := ⟨fuel - 1, by omega⟩
    simp [drain, h, ih fuel (by omega)]

/-! ## Skipping elements -/

/-- The next element that `f` keeps, after at most `fuel` calls. -/
def nextKept {β : Type*} (next : σ → Except ε (Option α × σ)) (f : α → Option β) :
    ℕ → σ → Except ε (Option β × σ)
  | 0, s => .ok (none, s)
  | fuel + 1, s =>
    match next s with
    | .error e => .error e
    | .ok (none, s') => .ok (none, s')
    | .ok (some a, s') =>
      match f a with
      | some b => .ok (some b, s')
      | none => nextKept next f fuel s'

/-- Skipping leaves the elements that are kept. -/
lemma Yields.nextKept {β : Type*} {s : σ} {l : List α} (h : Yields next s l) (f : α → Option β)
    {fuel : ℕ} (hfuel : l.length < fuel) :
    Yields (Stream.nextKept next f fuel) s (l.filterMap f) := by
  -- The first call may use any number of rounds that is large enough.
  suffices haux : ∀ {s l}, Yields next s l → l.length < fuel →
      ∀ rounds, l.length < rounds →
        (l.filterMap f = [] → ∃ s', Stream.nextKept next f rounds s = .ok (none, s')) ∧
        ∀ b rest, l.filterMap f = b :: rest →
          ∃ s', Stream.nextKept next f rounds s = .ok (some b, s') ∧
            Yields (Stream.nextKept next f fuel) s' rest by
    obtain ⟨hnil, hcons⟩ := haux h hfuel fuel hfuel
    cases hl : l.filterMap f with
    | nil =>
      obtain ⟨s', hs'⟩ := hnil hl
      exact .done hs'
    | cons b rest =>
      obtain ⟨s', hs', hrest⟩ := hcons b rest hl
      exact .step hs' hrest
  intro s l hl
  induction hl with
  | @done s s' hnext =>
    intro _ rounds hrounds
    obtain ⟨rounds, rfl⟩ : ∃ n, rounds = n + 1 := ⟨rounds - 1, by omega⟩
    exact ⟨fun _ => ⟨s', by simp only [Stream.nextKept, hnext]⟩, by simp⟩
  | @step s s' a l hnext htail ih =>
    intro hlen rounds hrounds
    rw [List.length_cons] at hlen hrounds
    obtain ⟨rounds, rfl⟩ : ∃ n, rounds = n + 1 := ⟨rounds - 1, by omega⟩
    cases hf : f a with
    | none =>
      simp only [Stream.nextKept, hnext, hf, List.filterMap_cons_none]
      exact ih (by omega) rounds (by omega)
    | some b =>
      rw [List.filterMap_cons_some hf]
      refine ⟨by simp, fun b' rest hcons => ?_⟩
      obtain ⟨rfl, rfl⟩ := List.cons.inj hcons
      refine ⟨s', by simp only [Stream.nextKept, hnext, hf], ?_⟩
      obtain ⟨hnil', hcons'⟩ := ih (by omega) fuel (by omega)
      cases hkept : l.filterMap f with
      | nil =>
        obtain ⟨s'', hs''⟩ := hnil' hkept
        exact .done hs''
      | cons c rest =>
        obtain ⟨s'', hs'', hrest⟩ := hcons' c rest hkept
        exact .step hs'' hrest

end Stream
