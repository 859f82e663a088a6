import TrineKv.Keys.Record

/-!
# Scan selectors

A scan selects the user keys of a range or the user keys with a prefix, and runs through them in
ascending or descending order. Cursors classify the keys they meet as before, inside or after
the selection, and stop at the first one after it.

## Main results

* `ScanSelector.not_selects_of_after`, `ScanSelector.not_selects_of_below`,
  `ScanSelector.selects_iff_queryRange`.
-/

namespace TrineKv

/-- The order in which a scan returns keys. -/
inductive Direction where
  | forward
  | reverse
  deriving DecidableEq, Repr

def Direction.precedes (direction : Direction) (left right : Key) : Prop :=
  match direction with
  | .forward => left < right
  | .reverse => right < left

instance (direction : Direction) : DecidableRel direction.precedes := fun left right =>
  match direction with
  | .forward => inferInstanceAs (Decidable (left < right))
  | .reverse => inferInstanceAs (Decidable (right < left))

instance (direction : Direction) : IsStrictTotalOrder Key direction.precedes :=
  match direction with
  | .forward => inferInstanceAs (IsStrictTotalOrder Key (· < ·))
  | .reverse => inferInstanceAs (IsStrictTotalOrder Key (· > ·))

/-- Keys of which neither precedes the other are the same. -/
instance (direction : Direction) :
    Std.Antisymm fun left right : Key => ¬direction.precedes right left where
  antisymm left right hleft hright := by
    rcases trichotomous_of direction.precedes left right with h | h | h
    · exact absurd h hright
    · exact h
    · exact absurd h hleft

instance (direction : Direction) :
    Std.Total fun left right : Key => ¬direction.precedes right left where
  total left right := by
    by_contra hnot
    push Not at hnot
    exact asymm_of direction.precedes hnot.1 hnot.2

instance (direction : Direction) :
    IsTrans Key fun left right : Key => ¬direction.precedes right left where
  trans left middle right hlm hmr hrl := by
    rcases trichotomous_of direction.precedes left middle with h | h | h
    · exact hmr (trans_of direction.precedes hrl h)
    · exact hmr (h ▸ hrl)
    · exact hlm h

inductive ScanSelector where
  | range (range : KeyRange)
  | withPrefix (pref : Key)
  deriving DecidableEq, Repr

/-- Where a key lies for an ascending cursor. -/
inductive ForwardKeyState where
  | before
  | «match»
  | after
  deriving DecidableEq, Repr

/-- Where a key lies for a descending cursor. -/
inductive ReverseKeyState where
  | above
  | «match»
  | below
  deriving DecidableEq, Repr

namespace ScanSelector

variable {selector : ScanSelector} {key : Key}

/-- Where the key lies for an ascending cursor. -/
def forwardKeyState (selector : ScanSelector) (key : Key) : ForwardKeyState :=
  match selector with
  | .range r =>
    if keyIsBeforeStart key r.start then .before
    else if keyIsAfterEnd key r.end_ then .after
    else .match
  | .withPrefix pref =>
    if key < pref then .before
    else if pref.isPrefixOf key then .match
    else .after

/-- Where the key lies for a descending cursor. -/
def reverseKeyState (selector : ScanSelector) (key : Key) : ReverseKeyState :=
  match selector with
  | .range r =>
    if keyIsAfterEnd key r.end_ then .above
    else if keyIsBeforeStart key r.start then .below
    else .match
  | .withPrefix pref =>
    if pref.isPrefixOf key then .match
    else if key < pref then .below
    else .above

def selects (selector : ScanSelector) (key : Key) : Bool :=
  match selector with
  | .range r => keyIsInRange key r
  | .withPrefix pref => pref.isPrefixOf key

def queryRange : ScanSelector → KeyRange
  | .range r => r
  | .withPrefix pref =>
    { start := .included pref
      end_ := match ByteOrder.successor pref with
        | some end_ => .excluded end_
        | none => .unbounded }

lemma selects_iff_queryRange :
    selector.selects key = true ↔ keyIsInRange key selector.queryRange = true := by
  cases selector with
  | range r => rfl
  | withPrefix pref =>
    simp only [selects, queryRange, List.isPrefixOf_iff_prefix,
      ByteOrder.isPrefix_iff_successor, keyIsInRange_iff, keyIsBeforeStart]
    cases ByteOrder.successor pref with
    | none => simp [keyIsAfterEnd]
    | some end_ => simp [keyIsAfterEnd]

lemma forwardKeyState_eq_match :
    selector.forwardKeyState key = .match ↔ selector.selects key = true := by
  cases selector with
  | range r =>
    simp only [forwardKeyState, selects, keyIsInRange_iff]
    split_ifs with h1 h2 <;> simp_all
  | withPrefix pref =>
    simp only [forwardKeyState, selects]
    split_ifs with h1 h2
    · simp only [false_iff, Bool.not_eq_true]
      by_contra hne
      have hpre : pref <+: key := by simpa using hne
      exact absurd (ByteOrder.le_of_isPrefix hpre) (not_le.mpr h1)
    · simp [h2]
    · simp [h2]

lemma reverseKeyState_eq_match :
    selector.reverseKeyState key = .match ↔ selector.selects key = true := by
  cases selector with
  | range r =>
    simp only [reverseKeyState, selects, keyIsInRange_iff]
    split_ifs with h1 h2 <;> simp_all
  | withPrefix pref =>
    simp only [reverseKeyState, selects]
    split_ifs with h1 h2 <;> simp_all

lemma not_selects_of_after {later : Key}
    (h : selector.forwardKeyState key = .after) (hle : key ≤ later) :
    selector.selects later = false := by
  cases selector with
  | range r =>
    simp only [forwardKeyState] at h
    split_ifs at h with h1 h2
    simp [selects, keyIsInRange, keyIsAfterEnd_of_le hle h2]
  | withPrefix pref =>
    simp only [forwardKeyState] at h
    split_ifs at h with h1 h2
    by_contra hne
    have hpre : pref <+: later := by simpa [selects] using hne
    have := ByteOrder.isPrefix_of_le_of_le (not_lt.mp h1) hle hpre
    simp [this] at h2

lemma not_selects_of_below {earlier : Key}
    (h : selector.reverseKeyState key = .below) (hle : earlier ≤ key) :
    selector.selects earlier = false := by
  cases selector with
  | range r =>
    simp only [reverseKeyState] at h
    split_ifs at h with h1 h2
    simp [selects, keyIsInRange, keyIsBeforeStart_of_le hle h2]
  | withPrefix pref =>
    simp only [reverseKeyState] at h
    split_ifs at h with h1 h2
    by_contra hne
    have hpre : pref <+: earlier := by simpa [selects] using hne
    exact absurd ((ByteOrder.le_of_isPrefix hpre).trans hle) (not_le.mpr h2)

end ScanSelector

end TrineKv
