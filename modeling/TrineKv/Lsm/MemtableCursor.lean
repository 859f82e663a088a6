import TrineKv.Lsm.Memtable
import TrineKv.Table.CursorDrain

/-!
# The cursor of a memtable

A cursor returns the groups of versions of the selected keys. It looks for each group with a range
query between two internal keys and moves its bound past the group. A query whose start lies above
its end panics, unless the map is empty; so a scan of an inverted range panics.

## Main results

* `MemtableCursor.yields_new`, `MemtableCursor.nextGroup_new_of_inverted`,
  `MemtableCursor.nextGroups_new`.
-/

namespace TrineKv

open List Grouping

/-- How a scan fails. -/
inductive ScanFault where
  | error (error : Error)
  | rangePanic
  deriving DecidableEq, Repr

/-! ## Range queries -/

def internalKeyFrom (lower : Bound InternalKey) (internalKey : InternalKey) : Bool :=
  match lower with
  | .included first => decide (first ≤ internalKey)
  | .excluded first => decide (first < internalKey)
  | .unbounded => true

def internalKeyUpTo (upper : Bound InternalKey) (internalKey : InternalKey) : Bool :=
  match upper with
  | .included last => decide (internalKey ≤ last)
  | .excluded last => decide (internalKey < last)
  | .unbounded => true

def rangePanics (lower upper : Bound InternalKey) : Bool :=
  match lower, upper with
  | .excluded first, .excluded last => decide (last ≤ first)
  | .included first, .included last => decide (last < first)
  | .included first, .excluded last => decide (last < first)
  | .excluded first, .included last => decide (last < first)
  | _, _ => false

/-- The bounds of a query of an empty map are not looked at. -/
def Memtable.rangeBetween (memtable : Memtable) (lower upper : Bound InternalKey) :
    Except ScanFault (List PointRecord) :=
  if memtable.entries.isEmpty then .ok []
  else if rangePanics lower upper then .error .rangePanic
  else .ok (memtable.entries.filter fun record =>
    internalKeyFrom lower record.internalKey && internalKeyUpTo upper record.internalKey)

def memtableStartBound : Bound Key → Bound InternalKey
  | .included key => .included (.firstForUser key)
  | .excluded key => .excluded (.lastForUser key)
  | .unbounded => .unbounded

def memtableEndBound : Bound Key → Bound InternalKey
  | .included key => .included (.lastForUser key)
  | .excluded key => .excluded (.firstForUser key)
  | .unbounded => .unbounded

def memtableScanBounds : ScanSelector → Bound InternalKey × Bound InternalKey
  | .range r => (memtableStartBound r.start, memtableEndBound r.end_)
  | .withPrefix pref =>
    (.included (.firstForUser pref),
      match ByteOrder.successor pref with
      | some end_ => .excluded (.firstForUser end_)
      | none => .unbounded)

/-! ## The cursor -/

structure MemtableCursor where
  memtable : Memtable
  selector : ScanSelector
  direction : Direction
  lowerBound : Bound InternalKey
  upperBound : Bound InternalKey
  exhausted : Bool

inductive EntryState where
  | pass
  | take
  | stop
  deriving DecidableEq, Repr

/-- Collect the versions of the first key that is to be taken. The result is `none` when an entry
ends the cursor. -/
def collectGroup (state : Key → EntryState) :
    Option Key → List PointRecord → Option (Option Key × List PointRecord)
  | groupKey, [] => some (groupKey, [])
  | groupKey, record :: records =>
    match state record.userKey with
    | .pass => collectGroup state groupKey records
    | .take =>
      let userKey := groupKey.getD record.userKey
      if record.userKey = userKey then
        (collectGroup state (some userKey) records).map fun (key, group) => (key, record :: group)
      else some (some userKey, [])
    | .stop => none

namespace MemtableCursor

/-- A cursor before its first group. -/
def new (memtable : Memtable) (selector : ScanSelector) (direction : Direction) :
    MemtableCursor :=
  { memtable, selector, direction
    lowerBound := (memtableScanBounds selector).1
    upperBound := (memtableScanBounds selector).2
    exhausted := false }

/-- What an ascending cursor does with an entry. -/
def forwardEntryState (selector : ScanSelector) (key : Key) : EntryState :=
  match selector.forwardKeyState key with
  | .before => .pass
  | .match => .take
  | .after => .stop

/-- What a descending cursor does with an entry. -/
def reverseEntryState (selector : ScanSelector) (key : Key) : EntryState :=
  match selector.reverseKeyState key with
  | .above => .pass
  | .match => .take
  | .below => .stop

def finishGroup (cursor : MemtableCursor) (moved : Key → MemtableCursor)
    (collected : Option (Option Key × List PointRecord)) : Option RecordGroup × MemtableCursor :=
  match collected with
  | some (some userKey, records) =>
    (some ⟨userKey, records.insertionSort internalKeyLe⟩, moved userKey)
  | _ => (none, { cursor with exhausted := true })

def nextGroupForward (cursor : MemtableCursor) :
    Except ScanFault (Option RecordGroup × MemtableCursor) :=
  if cursor.exhausted then .ok (none, cursor)
  else do
    let entries ← cursor.memtable.rangeBetween cursor.lowerBound cursor.upperBound
    return cursor.finishGroup
      (fun userKey => { cursor with lowerBound := .excluded (.lastForUser userKey) })
      (collectGroup (forwardEntryState cursor.selector) none entries)

def nextGroupReverse (cursor : MemtableCursor) :
    Except ScanFault (Option RecordGroup × MemtableCursor) :=
  if cursor.exhausted then .ok (none, cursor)
  else do
    let entries ← cursor.memtable.rangeBetween cursor.lowerBound cursor.upperBound
    return cursor.finishGroup
      (fun userKey => { cursor with upperBound := .excluded (.firstForUser userKey) })
      (collectGroup (reverseEntryState cursor.selector) none entries.reverse)

def nextGroup (cursor : MemtableCursor) :
    Except ScanFault (Option RecordGroup × MemtableCursor) :=
  match cursor.direction with
  | .forward => cursor.nextGroupForward
  | .reverse => cursor.nextGroupReverse

end MemtableCursor

/-! ## Bounds of user keys -/

/-- The query range of a scan of this range panics on a memtable with entries. -/
def rangeInverted (range : KeyRange) : Bool :=
  match range.start, range.end_ with
  | .excluded first, .excluded last => decide (last ≤ first)
  | .included first, .included last => decide (last < first)
  | .included first, .excluded last => decide (last < first)
  | .excluded first, .included last => decide (last < first)
  | _, _ => false

lemma memtableScanBounds_eq (selector : ScanSelector) :
    memtableScanBounds selector =
      (memtableStartBound selector.queryRange.start, memtableEndBound selector.queryRange.end_) := by
  cases selector with
  | range r => rfl
  | withPrefix pref =>
    simp only [memtableScanBounds, ScanSelector.queryRange, memtableStartBound]
    cases ByteOrder.successor pref <;> rfl

lemma rangePanics_eq (range : KeyRange) :
    rangePanics (memtableStartBound range.start) (memtableEndBound range.end_) =
      rangeInverted range := by
  obtain ⟨start, end_⟩ := range
  cases start with
  | unbounded => cases end_ <;> rfl
  | included first =>
    cases end_ with
    | unbounded => rfl
    | included last =>
      simp only [memtableStartBound, memtableEndBound, rangePanics, rangeInverted, ← not_le,
        InternalKey.firstForUser_le, InternalKey.lastForUser]
    | excluded last =>
      simp only [memtableStartBound, memtableEndBound, rangePanics, rangeInverted, ← not_le,
        InternalKey.firstForUser_le]
      rfl
  | excluded first =>
    cases end_ with
    | unbounded => rfl
    | included last =>
      simp only [memtableStartBound, memtableEndBound, rangePanics, rangeInverted, ← not_le,
        InternalKey.le_lastForUser]
      rfl
    | excluded last =>
      simp only [memtableStartBound, memtableEndBound, rangePanics, rangeInverted,
        InternalKey.firstForUser_le]
      rfl

lemma between_eq (range : KeyRange) (internalKey : InternalKey) :
    (internalKeyFrom (memtableStartBound range.start) internalKey &&
      internalKeyUpTo (memtableEndBound range.end_) internalKey) =
      keyIsInRange internalKey.userKey range := by
  have hfrom : internalKeyFrom (memtableStartBound range.start) internalKey =
      !keyIsBeforeStart internalKey.userKey range.start := by
    cases range.start with
    | unbounded => rfl
    | included first =>
      simp only [memtableStartBound, internalKeyFrom, keyIsBeforeStart,
        InternalKey.firstForUser_le, ← decide_not, not_lt]
    | excluded first =>
      simp [memtableStartBound, internalKeyFrom, keyIsBeforeStart, ← not_le,
        InternalKey.le_lastForUser]
  have hupTo : internalKeyUpTo (memtableEndBound range.end_) internalKey =
      !keyIsAfterEnd internalKey.userKey range.end_ := by
    cases range.end_ with
    | unbounded => rfl
    | included last =>
      simp only [memtableEndBound, internalKeyUpTo, keyIsAfterEnd, InternalKey.le_lastForUser,
        ← decide_not, not_lt]
    | excluded last =>
      simp [memtableEndBound, internalKeyUpTo, keyIsAfterEnd, ← not_le,
        InternalKey.firstForUser_le]
  rw [hfrom, hupTo, keyIsInRange]

/-! ## What the cursor collects -/

lemma collectGroup_some {state : Key → EntryState} {entries : List PointRecord}
    (h : ∀ record ∈ entries, state record.userKey = .take) (userKey : Key) :
    collectGroup state (some userKey) entries =
      some (some userKey, entries.takeWhile fun record => record.userKey = userKey) := by
  induction entries with
  | nil => rfl
  | cons record entries ih =>
    rw [collectGroup, h record mem_cons_self]
    by_cases hkey : record.userKey = userKey
    · simp [hkey, ih fun r hr => h r (mem_cons_of_mem _ hr)]
    · simp [hkey]

lemma collectGroup_cons {state : Key → EntryState} {first : PointRecord}
    {entries : List PointRecord}
    (h : ∀ record ∈ first :: entries, state record.userKey = .take) :
    collectGroup state none (first :: entries) =
      some (some first.userKey, first ::
        entries.takeWhile fun record => record.userKey = first.userKey) := by
  rw [collectGroup, h first mem_cons_self]
  simp [collectGroup_some fun r hr => h r (mem_cons_of_mem _ hr)]

namespace MemtableCursor

variable {cursor : MemtableCursor} {range : KeyRange}

def entryState (cursor : MemtableCursor) : Key → EntryState :=
  match cursor.direction with
  | .forward => forwardEntryState cursor.selector
  | .reverse => reverseEntryState cursor.selector

lemma entryState_of_selects {key : Key} (h : cursor.selector.selects key = true) :
    cursor.entryState key = .take := by
  rw [entryState]
  cases cursor.direction with
  | forward => simp [forwardEntryState, ScanSelector.forwardKeyState_eq_match.mpr h]
  | reverse => simp [reverseEntryState, ScanSelector.reverseKeyState_eq_match.mpr h]

structure At (cursor : MemtableCursor) (range : KeyRange) : Prop where
  lowerBound_eq : cursor.lowerBound = memtableStartBound range.start
  upperBound_eq : cursor.upperBound = memtableEndBound range.end_
  notExhausted : cursor.exhausted = false
  selects : ∀ key, keyIsInRange key range = true → cursor.selector.selects key = true

def rangeAfter (direction : Direction) (range : KeyRange) (userKey : Key) : KeyRange :=
  match direction with
  | .forward => { range with start := .excluded userKey }
  | .reverse => { range with end_ := .excluded userKey }

def movedPast (cursor : MemtableCursor) (userKey : Key) : MemtableCursor :=
  match cursor.direction with
  | .forward => { cursor with lowerBound := .excluded (.lastForUser userKey) }
  | .reverse => { cursor with upperBound := .excluded (.firstForUser userKey) }

/-- A call of `nextGroup`, the same in both directions. -/
lemma nextGroup_eq (cursor : MemtableCursor) :
    cursor.nextGroup =
      if cursor.exhausted then .ok (none, cursor)
      else do
        let entries ← cursor.memtable.rangeBetween cursor.lowerBound cursor.upperBound
        return cursor.finishGroup cursor.movedPast
          (collectGroup cursor.entryState none (cursor.direction.orient entries)) := by
  rw [nextGroup]
  cases hdir : cursor.direction with
  | forward =>
    have hmoved : cursor.movedPast = fun userKey =>
        { cursor with lowerBound := .excluded (.lastForUser userKey) } := by
      funext userKey
      simp only [movedPast, hdir]
    rw [nextGroupForward, hmoved, entryState, hdir]
    rfl
  | reverse =>
    have hmoved : cursor.movedPast = fun userKey =>
        { cursor with upperBound := .excluded (.firstForUser userKey) } := by
      funext userKey
      simp only [movedPast, hdir]
    rw [nextGroupReverse, hmoved, entryState, hdir]
    rfl

def entriesIn (memtable : Memtable) (direction : Direction) (range : KeyRange) :
    List PointRecord :=
  direction.orient (memtable.entries.filter fun record => keyIsInRange record.userKey range)

lemma At.rangeBetween (hat : cursor.At range) :
    cursor.memtable.rangeBetween cursor.lowerBound cursor.upperBound =
      if cursor.memtable.entries.isEmpty then .ok []
      else if rangeInverted range then .error .rangePanic
      else .ok (cursor.memtable.entries.filter fun record =>
        keyIsInRange record.userKey range) := by
  rw [Memtable.rangeBetween, hat.lowerBound_eq, hat.upperBound_eq, rangePanics_eq]
  simp only [between_eq]
  rfl

lemma At.nextGroup_of_inverted (hat : cursor.At range) (hinv : rangeInverted range = true)
    (hne : cursor.memtable.entries ≠ []) : cursor.nextGroup = .error .rangePanic := by
  rw [nextGroup_eq, if_neg (by simp [hat.notExhausted]), hat.rangeBetween,
    if_neg (by simpa using hne), if_pos hinv]
  rfl

lemma keyIsInRange_rangeAfter (direction : Direction) {userKey key : Key}
    (huser : keyIsInRange userKey range = true) :
    keyIsInRange key (rangeAfter direction range userKey) = true ↔
      keyIsInRange key range = true ∧ direction.precedes userKey key := by
  rw [keyIsInRange_iff] at huser
  cases direction with
  | forward =>
    simp only [rangeAfter, keyIsInRange_iff, keyIsBeforeStart, decide_eq_false_iff_not, not_le,
      Direction.precedes]
    refine ⟨?_, fun h => ⟨h.2, h.1.2⟩⟩
    rintro ⟨hlt, hend⟩
    refine ⟨⟨?_, hend⟩, hlt⟩
    by_contra hbefore
    rw [Bool.not_eq_false] at hbefore
    simp [keyIsBeforeStart_of_le hlt.le hbefore] at huser
  | reverse =>
    simp only [rangeAfter, keyIsInRange_iff, keyIsAfterEnd, decide_eq_false_iff_not, not_le,
      Direction.precedes]
    refine ⟨?_, fun h => ⟨h.1.1, h.2⟩⟩
    rintro ⟨hstart, hlt⟩
    refine ⟨⟨hstart, ?_⟩, hlt⟩
    by_contra hafter
    rw [Bool.not_eq_false] at hafter
    simp [keyIsAfterEnd_of_le hlt.le hafter] at huser

lemma rangeInverted_rangeAfter (direction : Direction) {userKey : Key}
    (huser : keyIsInRange userKey range = true) :
    rangeInverted (rangeAfter direction range userKey) = false := by
  rw [keyIsInRange_iff] at huser
  obtain ⟨hstart, hend⟩ := huser
  cases direction with
  | forward =>
    cases hrange : range.end_ <;>
      simp_all [rangeInverted, rangeAfter, keyIsAfterEnd]
  | reverse =>
    cases hrange : range.start <;>
      simp_all [rangeInverted, rangeAfter, keyIsBeforeStart]

lemma At.movedPast (hat : cursor.At range) {userKey : Key}
    (huser : keyIsInRange userKey range = true) :
    (cursor.movedPast userKey).At (rangeAfter cursor.direction range userKey) := by
  have hselects : ∀ key, keyIsInRange key (rangeAfter cursor.direction range userKey) = true →
      cursor.selector.selects key = true := fun key hkey =>
    hat.selects key ((keyIsInRange_rangeAfter _ huser).mp hkey).1
  rw [MemtableCursor.movedPast]
  cases hdir : cursor.direction with
  | forward =>
    rw [hdir] at hselects
    exact ⟨rfl, hat.upperBound_eq, hat.notExhausted, hselects⟩
  | reverse =>
    rw [hdir] at hselects
    exact ⟨hat.lowerBound_eq, rfl, hat.notExhausted, hselects⟩

@[simp]
lemma movedPast_memtable (cursor : MemtableCursor) (userKey : Key) :
    (cursor.movedPast userKey).memtable = cursor.memtable := by
  rw [movedPast]
  split <;> rfl

@[simp]
lemma movedPast_direction (cursor : MemtableCursor) (userKey : Key) :
    (cursor.movedPast userKey).direction = cursor.direction := by
  rw [movedPast]
  split <;> simp_all

lemma pairwise_entriesIn (memtable : Memtable) (direction : Direction) (range : KeyRange) :
    (entriesIn memtable direction range).Pairwise
      fun left right => ¬direction.precedes right.userKey left.userKey := by
  have hasc : (memtable.entries.filter fun record => keyIsInRange record.userKey range).Pairwise
      fun left right => left.userKey ≤ right.userKey :=
    memtable.sorted.keysAscend.sublist filter_sublist
  cases direction with
  | forward => exact hasc.imp fun h => not_lt.mpr h
  | reverse => exact pairwise_reverse.mpr (hasc.imp fun h => not_lt.mpr h)

lemma entriesIn_rangeAfter {memtable : Memtable} {direction : Direction} {first : PointRecord}
    {rest : List PointRecord} (h : entriesIn memtable direction range = first :: rest) :
    entriesIn memtable direction (rangeAfter direction range first.userKey) =
      rest.dropWhile fun record => record.userKey = first.userKey := by
  have hpair := pairwise_entriesIn memtable direction range
  have hmem : ∀ record, record ∈ entriesIn memtable direction range ↔
      record ∈ memtable.entries ∧ keyIsInRange record.userKey range = true := by
    intro record
    rw [entriesIn, Direction.mem_orient, mem_filter]
  have hfirst := ((hmem first).mp (h ▸ mem_cons_self)).2
  have hleft : entriesIn memtable direction (rangeAfter direction range first.userKey) =
      (entriesIn memtable direction range).filter
        fun record => record.userKey ≠ first.userKey := by
    rw [entriesIn, entriesIn, Direction.filter_orient, filter_filter]
    congr 1
    refine filter_congr fun record hrecord => ?_
    rw [← Bool.coe_iff_coe, keyIsInRange_rangeAfter _ hfirst, Bool.and_eq_true, decide_eq_true_eq]
    constructor
    · rintro ⟨hin, hlt⟩
      exact ⟨fun heq => irrefl_of direction.precedes _ (heq ▸ hlt), hin⟩
    · rintro ⟨hne, hin⟩
      refine ⟨hin, ?_⟩
      have hrec : record ∈ first :: rest := h ▸ (hmem record).mpr ⟨hrecord, hin⟩
      rw [h] at hpair
      rcases mem_cons.mp hrec with rfl | hrec
      · exact absurd rfl hne
      · rcases trichotomous_of direction.precedes first.userKey record.userKey with hlt | heq | hgt
        · exact hlt
        · exact absurd heq.symm hne
        · exact absurd hgt (rel_of_pairwise_cons hpair hrec)
  rw [hleft, h, filter_cons_of_neg (by simp)]
  rw [h] at hpair
  exact (dropWhile_eq_filter_of_sorted
    (r := fun left right => ¬direction.precedes right left) hpair).symm

lemma At.nextGroup_spec (hat : cursor.At range)
    (hok : rangeInverted range = false ∨ cursor.memtable.entries = []) :
    (entriesIn cursor.memtable cursor.direction range = [] →
      cursor.nextGroup = .ok (none, { cursor with exhausted := true })) ∧
    ∀ first rest, entriesIn cursor.memtable cursor.direction range = first :: rest →
      keyIsInRange first.userKey range = true ∧
        cursor.nextGroup = .ok (some (groupOfRun (first.userKey, first ::
          rest.takeWhile fun record => record.userKey = first.userKey)),
          cursor.movedPast first.userKey) := by
  have hentries : cursor.memtable.rangeBetween cursor.lowerBound cursor.upperBound =
      .ok (cursor.memtable.entries.filter fun record => keyIsInRange record.userKey range) := by
    rw [hat.rangeBetween]
    rcases hok with h | h
    · rw [if_neg (by simp [h] : ¬rangeInverted range = true)]
      split_ifs with hempty
      · rw [List.isEmpty_iff.mp hempty]
        rfl
      · rfl
    · simp [h]
  have hnext : cursor.nextGroup = .ok (cursor.finishGroup cursor.movedPast
      (collectGroup cursor.entryState none
        (entriesIn cursor.memtable cursor.direction range))) := by
    rw [nextGroup_eq, if_neg (by simp [hat.notExhausted]), hentries]
    rfl
  have hmem : ∀ record ∈ entriesIn cursor.memtable cursor.direction range,
      keyIsInRange record.userKey range = true := by
    intro record hrecord
    rw [entriesIn, Direction.mem_orient] at hrecord
    exact (mem_filter.mp hrecord).2
  rw [hnext]
  refine ⟨fun hnil => ?_, fun first rest hcons => ?_⟩
  · rw [hnil]
    rfl
  · rw [hcons] at hmem ⊢
    rw [collectGroup_cons fun record hrecord =>
      entryState_of_selects (hat.selects _ (hmem record hrecord))]
    exact ⟨hmem first mem_cons_self, rfl⟩

lemma At.yields (hat : cursor.At range)
    (hok : rangeInverted range = false ∨ cursor.memtable.entries = []) :
    Stream.Yields nextGroup cursor ((runs PointRecord.userKey
      (entriesIn cursor.memtable cursor.direction range)).map groupOfRun) := by
  -- Each group leaves fewer entries.
  induction hn : (entriesIn cursor.memtable cursor.direction range).length using Nat.strongRecOn
    generalizing cursor range with
  | _ n ih =>
    obtain ⟨hnil, hcons⟩ := hat.nextGroup_spec hok
    cases hentries : entriesIn cursor.memtable cursor.direction range with
    | nil => exact .done (hnil hentries)
    | cons first rest =>
      obtain ⟨hfirst, hnext⟩ := hcons first rest hentries
      have hrest := entriesIn_rangeAfter hentries
      rw [runs_cons, map_cons]
      refine .step hnext ?_
      have hlt : (entriesIn (cursor.movedPast first.userKey).memtable
          (cursor.movedPast first.userKey).direction
          (rangeAfter cursor.direction range first.userKey)).length < n := by
        rw [movedPast_memtable, movedPast_direction, hrest]
        rw [hentries, length_cons] at hn
        have := (dropWhile_sublist
          (fun record : PointRecord => decide (record.userKey = first.userKey))
          (l := rest)).length_le
        omega
      have htail := ih _ hlt (hat.movedPast hfirst)
        (Or.inl (rangeInverted_rangeAfter _ hfirst)) rfl
      rw [movedPast_memtable, movedPast_direction, hrest] at htail
      exact htail

lemma at_new (memtable : Memtable) (selector : ScanSelector) (direction : Direction) :
    (new memtable selector direction).At selector.queryRange where
  lowerBound_eq := by rw [new, memtableScanBounds_eq]
  upperBound_eq := by rw [new, memtableScanBounds_eq]
  notExhausted := rfl
  selects _ h := ScanSelector.selects_iff_queryRange.mpr h

lemma entriesIn_queryRange (memtable : Memtable) (selector : ScanSelector)
    (direction : Direction) :
    entriesIn memtable direction selector.queryRange =
      direction.orient (selector.selected memtable.entries) := by
  rw [entriesIn, ScanSelector.selected]
  congr 1
  refine filter_congr fun record _ => ?_
  rw [← Bool.coe_iff_coe, ScanSelector.selects_iff_queryRange]

/-- A cursor over a memtable returns every selected key once, in the order of the direction and
with all its versions, unless the query range is inverted and the memtable has entries. -/
theorem yields_new (memtable : Memtable) (selector : ScanSelector) (direction : Direction)
    (hok : rangeInverted selector.queryRange = false ∨ memtable.entries = []) :
    Stream.Yields nextGroup (new memtable selector direction)
      ((runs PointRecord.userKey
        (direction.orient (selector.selected memtable.entries))).map groupOfRun) := by
  have h := (at_new memtable selector direction).yields hok
  rwa [show (new memtable selector direction).memtable = memtable from rfl,
    show (new memtable selector direction).direction = direction from rfl,
    entriesIn_queryRange] at h

theorem nextGroup_new_of_inverted {memtable : Memtable} {selector : ScanSelector}
    (direction : Direction) (hinv : rangeInverted selector.queryRange = true)
    (hne : memtable.entries ≠ []) :
    (new memtable selector direction).nextGroup = .error .rangePanic :=
  (at_new memtable selector direction).nextGroup_of_inverted hinv hne

/-! ## Calls while the memtable changes -/

/-- What successive calls of `nextGroup` return, given the entries of the memtable at each of
them. -/
def nextGroups : MemtableCursor → List Memtable →
    Except ScanFault (List (Option RecordGroup) × MemtableCursor)
  | cursor, [] => .ok ([], cursor)
  | cursor, memtable :: memtables => do
    let (group, next) ← { cursor with memtable }.nextGroup
    let (groups, last) ← next.nextGroups memtables
    return (group :: groups, last)

/-- The query of the cursor does not panic, and what is left for it lies in the range. -/
structure Inside (range : KeyRange) (cursor : MemtableCursor) : Prop where
  notPanics : rangePanics cursor.lowerBound cursor.upperBound = false
  left : cursor.exhausted = true ∨ ∃ left, cursor.At left ∧ rangeInverted left = false ∧
    ∀ key, keyIsInRange key left = true → keyIsInRange key range = true

lemma At.inside {left : KeyRange} (hat : cursor.At left) (hleft : rangeInverted left = false)
    (hin : ∀ key, keyIsInRange key left = true → keyIsInRange key range = true) :
    cursor.Inside range where
  notPanics := by rw [hat.lowerBound_eq, hat.upperBound_eq, rangePanics_eq, hleft]
  left := Or.inr ⟨left, hat, hleft, hin⟩

lemma Inside.nextGroup (h : cursor.Inside range) (memtable : Memtable) :
    ∃ group next, { cursor with memtable }.nextGroup = .ok (group, next) ∧ next.Inside range ∧
      ∀ g ∈ group, keyIsInRange g.userKey range = true := by
  rcases h.left with hexhausted | ⟨left, hat, hleft, hin⟩
  · refine ⟨none, { cursor with memtable }, ?_, ⟨h.notPanics, Or.inl hexhausted⟩, by simp⟩
    rw [nextGroup_eq, if_pos hexhausted]
  · -- The bounds do not depend on the entries, so the cursor stands before the same range.
    have hat' : { cursor with memtable }.At left :=
      ⟨hat.lowerBound_eq, hat.upperBound_eq, hat.notExhausted, hat.selects⟩
    obtain ⟨hnil, hcons⟩ := hat'.nextGroup_spec (Or.inl hleft)
    cases hentries : entriesIn memtable cursor.direction left with
    | nil => exact ⟨none, _, hnil hentries, ⟨h.notPanics, Or.inl rfl⟩, by simp⟩
    | cons first rest =>
      obtain ⟨hfirst, hnext⟩ := hcons first rest hentries
      refine ⟨_, _, hnext, (hat'.movedPast hfirst).inside (rangeInverted_rangeAfter _ hfirst)
        fun key hkey => ?_, ?_⟩
      · exact hin key ((keyIsInRange_rangeAfter _ hfirst).mp hkey).1
      · simpa [groupOfRun] using hin _ hfirst

lemma Inside.nextGroups (h : cursor.Inside range) (memtables : List Memtable) :
    ∃ groups last, cursor.nextGroups memtables = .ok (groups, last) ∧ last.Inside range ∧
      ∀ g, some g ∈ groups → keyIsInRange g.userKey range = true := by
  induction memtables generalizing cursor with
  | nil => exact ⟨[], cursor, rfl, h, by simp⟩
  | cons memtable memtables ih =>
    obtain ⟨group, next, hgroup, hnext, hin⟩ := h.nextGroup memtable
    obtain ⟨groups, last, hgroups, hlast, hins⟩ := ih hnext
    refine ⟨group :: groups, last, ?_, hlast, fun g hg => ?_⟩
    · rw [MemtableCursor.nextGroups, hgroup]
      show (do let (groups, last) ← next.nextGroups memtables; return (group :: groups, last)) = _
      rw [hgroups]
      rfl
    · rcases mem_cons.mp hg with rfl | hg
      · exact hin g rfl
      · exact hins g hg

/-- A cursor over a range that is not inverted never panics: in both directions, and whatever the
memtable holds at each call, all calls return, the bounds of the next query do not panic, and a
range without keys gives no group. -/
theorem nextGroups_new {range : KeyRange} (hrange : rangeInverted range = false)
    (memtable : Memtable) (direction : Direction) (memtables : List Memtable) :
    ∃ groups last,
      (new memtable (.range range) direction).nextGroups memtables = .ok (groups, last) ∧
        rangePanics last.lowerBound last.upperBound = false ∧
        ((∀ key, keyIsInRange key range = false) → ∀ group ∈ groups, group = none) := by
  have hinside : (new memtable (.range range) direction).Inside range :=
    (at_new memtable (.range range) direction).inside hrange fun _ hkey => hkey
  obtain ⟨groups, last, hgroups, hlast, hin⟩ := hinside.nextGroups memtables
  refine ⟨groups, last, hgroups, hlast.notPanics, fun hempty group hgroup => ?_⟩
  cases group with
  | none => rfl
  | some g =>
    have hkey := hin g hgroup
    simp [hempty] at hkey

def oneVersion : Memtable :=
  Memtable.empty.insert
    { internalKey := { userKey := [1], sequence := 1, kind := .put, batchIndex := 0 }
      value := some (.inline [7]) }

/-- A range with the only key. -/
theorem nextGroups_new_halfOpen :
    ∃ groups last,
      (new oneVersion (.range (.halfOpen [1] [2])) .reverse).nextGroups [oneVersion, oneVersion] =
          .ok (groups, last) ∧
        rangePanics last.lowerBound last.upperBound = false := by
  have hrange : rangeInverted (.halfOpen [1] [2]) = false := by decide
  obtain ⟨groups, last, h, hlast, -⟩ :=
    nextGroups_new hrange oneVersion .reverse [oneVersion, oneVersion]
  exact ⟨groups, last, h, hlast⟩

/-- A cursor over an inverted range panics at its first call. -/
theorem nextGroup_inverted_panics :
    (new oneVersion (.range (.halfOpen [2] [1])) .forward).nextGroup = .error .rangePanic :=
  (at_new _ _ _).nextGroup_of_inverted (by decide) (by decide)

end MemtableCursor

end TrineKv
