import TrineKv.Table.CursorStream

/-!
# What a table cursor returns altogether

Draining a cursor should give every selected key once with all its versions. A reverse cursor does.
A forward cursor enters a block at the last restart point that is not above the start; when the
versions of the start key run across it, the newest ones are lost.

## Main results

* `TablePointCursor.drain_eq_expectedGroups_iff`: when a scan is complete.
-/

namespace TrineKv

open List PartitionPoint Grouping
open PointRecord (userKey)
open DecodedDataBlock (fromRecords)

/-- The records in the order of the direction. -/
def Direction.orient {α : Type} (direction : Direction) (l : List α) : List α :=
  match direction with
  | .forward => l
  | .reverse => l.reverse

lemma Direction.mem_orient {α : Type} {direction : Direction} {l : List α} {a : α} :
    a ∈ direction.orient l ↔ a ∈ l := by
  cases direction <;> simp [Direction.orient]

lemma Direction.length_orient {α : Type} (direction : Direction) (l : List α) :
    (direction.orient l).length = l.length := by
  cases direction <;> simp [Direction.orient]

lemma Direction.filter_orient {α : Type} (direction : Direction) (l : List α) (p : α → Bool) :
    (direction.orient l).filter p = direction.orient (l.filter p) := by
  cases direction <;> simp [Direction.orient, filter_reverse]

/-- The groups that a complete cursor returns: for each user key of the table that is selected,
in the order of the direction, all its versions. -/
def Table.expectedGroups (table : Table) (selector : ScanSelector) (direction : Direction) :
    List RecordGroup :=
  (direction.orient (((table.pointRecords.map userKey).filter selector.selects).dedup)).map
    fun key => ⟨key, table.pointRecords.filter fun record => record.userKey = key⟩

/-! ## Groups -/

def groupOfRun (run : Key × List PointRecord) : RecordGroup :=
  ⟨run.1, run.2.insertionSort internalKeyLe⟩

instance : IsTrans PointRecord internalKeyLe where
  trans _ _ _ hab hbc := InternalKey.instLinearOrder.le_trans _ _ _ hab hbc

instance : Std.Total internalKeyLe where
  total _ _ := InternalKey.instLinearOrder.le_total _ _

namespace TablePointCursor

variable {cursor : TablePointCursor}

def stream (cursor : TablePointCursor) : List PointRecord :=
  cursor.pending.toList ++ cursor.remaining

lemma remaining_pending (cursor : TablePointCursor) (pending : Option PointRecord) :
    { cursor with pending := pending }.remaining = cursor.remaining := rfl

lemma Valid.pending (hvalid : cursor.Valid) (pending : Option PointRecord) :
    { cursor with pending := pending }.Valid :=
  ⟨hvalid.blockIndex_lt, hvalid.currentBlock_eq, hvalid.recordIndex_le⟩

/-- Collecting takes the records with the key from the front of the remaining ones.

**Proof sketch.** Induction on the rounds; each one pops a remaining record. -/
lemma collectRest_spec (userKey : Key) (fuel : ℕ) :
    ∀ cursor : TablePointCursor, cursor.Valid → cursor.pending = none →
      cursor.remaining.length < fuel →
      ∃ cursor', collectRest userKey fuel cursor =
          .ok (cursor.remaining.takeWhile fun record => record.userKey = userKey, cursor') ∧
        cursor'.Valid ∧ cursor'.table = cursor.table ∧
        cursor'.stream = cursor.remaining.dropWhile fun record => record.userKey = userKey := by
  induction fuel with
  | zero =>
    intro cursor _ _ hlen
    omega
  | succ fuel ih =>
    intro cursor hvalid hpending hlen
    obtain ⟨cursor', heq, hvalid', htail, hmoved⟩ := nextRecord_pops hvalid
    obtain ⟨_, _, _, _, hmoved⟩ := hmoved
    have htable : cursor'.table = cursor.table := by rw [hmoved]
    have hpending' : cursor'.pending = none := by rw [hmoved]; exact hpending
    rw [collectRest, heq]
    cases hremaining : cursor.remaining with
    | nil =>
      refine ⟨cursor', rfl, hvalid', htable, ?_⟩
      rw [stream, hpending', htail, hremaining]
      rfl
    | cons record rest =>
      rw [hremaining] at htail hlen
      simp only [List.head?_cons, bind, Except.bind]
      by_cases hkey : record.userKey = userKey
      · obtain ⟨cursor'', heq', hvalid'', htable', hstream⟩ := ih cursor' hvalid' hpending' (by
          rw [htail]
          simpa using hlen)
        rw [htail] at heq' hstream
        refine ⟨cursor'', ?_, hvalid'', htable'.trans htable, ?_⟩
        · simp [hkey, heq']
        · simpa [hkey] using hstream
      · refine ⟨{ cursor' with pending := some record }, ?_, hvalid'.pending _, htable, ?_⟩
        · simp [hkey]
        · rw [stream, remaining_pending, htail]
          simp [hkey]

/-- A call of `nextGroup` returns the first run of the stream and leaves the others. -/
lemma nextGroup_spec (hvalid : cursor.Valid)
    (hlen : cursor.stream.length ≤ cursor.table.pointRecords.length) :
    (cursor.stream = [] → ∃ cursor', cursor.nextGroup = .ok (none, cursor')) ∧
      ∀ first rest, cursor.stream = first :: rest →
        ∃ cursor', cursor.nextGroup = .ok (some (groupOfRun (first.userKey, first ::
            rest.takeWhile fun record => record.userKey = first.userKey)), cursor') ∧
          cursor'.Valid ∧ cursor'.table = cursor.table ∧
          cursor'.stream = rest.dropWhile fun record => record.userKey = first.userKey := by
  -- Once the first record is in hand, the rest of its run is collected.
  have hgroup : ∀ c : TablePointCursor, c.Valid → c.pending = none → c.table = cursor.table →
      ∀ first rest, c.remaining = rest → rest.length < cursor.table.pointRecords.length + 1 →
        ∃ cursor', nextGroup.group first c = .ok (some (groupOfRun (first.userKey, first ::
            rest.takeWhile fun record => record.userKey = first.userKey)), cursor') ∧
          cursor'.Valid ∧ cursor'.table = cursor.table ∧
          cursor'.stream = rest.dropWhile fun record => record.userKey = first.userKey := by
    rintro c hc hpending htable first rest rfl hrest
    obtain ⟨cursor', heq, hvalid', htable', hstream⟩ :=
      collectRest_spec first.userKey (c.table.pointRecords.length + 1) c hc hpending (by
        rw [htable]
        exact hrest)
    refine ⟨cursor', ?_, hvalid', htable'.trans htable, hstream⟩
    rw [nextGroup.group, heq]
    rfl
  cases hpending : cursor.pending with
  | some pending =>
    have hstream : cursor.stream = pending :: cursor.remaining := by simp [stream, hpending]
    rw [hstream] at hlen ⊢
    refine ⟨by simp, fun first rest h => ?_⟩
    obtain ⟨rfl, rfl⟩ := List.cons.inj h
    obtain ⟨cursor', heq, h⟩ := hgroup { cursor with pending := none } (hvalid.pending _) rfl rfl
      pending cursor.remaining rfl (by simp only [length_cons] at hlen; omega)
    refine ⟨cursor', ?_, h⟩
    rw [nextGroup, hpending]
    exact heq
  | none =>
    have hstream : cursor.stream = cursor.remaining := by simp [stream, hpending]
    rw [hstream] at hlen ⊢
    obtain ⟨cursor', heq, hvalid', htail, hmoved⟩ := nextRecord_pops hvalid
    obtain ⟨_, _, _, _, hmoved⟩ := hmoved
    have htable : cursor'.table = cursor.table := by rw [hmoved]
    have hpending' : cursor'.pending = none := by rw [hmoved]; exact hpending
    refine ⟨fun hnil => ⟨cursor', ?_⟩, fun first rest h => ?_⟩
    · rw [nextGroup, hpending]
      simp [heq, hnil, bind, Except.bind]
    · rw [h] at htail hlen heq
      obtain ⟨cursor'', heq', h'⟩ := hgroup cursor' hvalid' hpending' htable first rest htail (by
        simp only [length_cons] at hlen
        omega)
      refine ⟨cursor'', ?_, h'⟩
      rw [nextGroup, hpending]
      simp [heq, heq', bind, Except.bind]

lemma yields_runs (hvalid : cursor.Valid)
    (hlen : cursor.stream.length ≤ cursor.table.pointRecords.length) :
    Stream.Yields nextGroup cursor
      ((runs userKey cursor.stream).map groupOfRun) := by
  refine Stream.yields_of_pops
    (fun c : TablePointCursor => (runs userKey c.stream).map groupOfRun)
    (fun c : TablePointCursor => c.Valid ∧ c.stream.length ≤ c.table.pointRecords.length)
    (fun c hc hnil => ?_) (fun c group groups hc hcons => ?_) ⟨hvalid, hlen⟩
  · apply (nextGroup_spec hc.1 hc.2).1
    rw [map_eq_nil_iff] at hnil
    rw [← flatten_runs userKey c.stream, hnil]
    rfl
  · cases hstream : c.stream with
    | nil => simp [hstream, runs] at hcons
    | cons first rest =>
      obtain ⟨c', heq, hvalid', htable, hstream'⟩ :=
        (nextGroup_spec hc.1 hc.2).2 first rest hstream
      rw [hstream, runs_cons, map_cons] at hcons
      obtain ⟨rfl, rfl⟩ := List.cons.inj hcons
      refine ⟨c', heq, ⟨hvalid', ?_⟩, by rw [hstream']⟩
      have hshort := hc.2
      rw [hstream, length_cons] at hshort
      rw [htable, hstream']
      exact (dropWhile_sublist _).length_le.trans (by omega)

end TablePointCursor

/-! ## The stream of a new cursor -/

private lemma flatMap_sublist {α β : Type*} {f g : α → List β} (l : List α)
    (h : ∀ a ∈ l, (f a).Sublist (g a)) : (l.flatMap f).Sublist (l.flatMap g) := by
  induction l with
  | nil => simp
  | cons a l ih =>
    rw [flatMap_cons, flatMap_cons]
    exact (h a mem_cons_self).append (ih fun b hb => h b (mem_cons_of_mem _ hb))

namespace Table

variable {table : Table} {selector : ScanSelector} {policy : IndexSearchPolicy}

lemma selected_entered_sublist (block : TableDataBlock) :
    (selector.selected (block.entered selector policy)).Sublist
      (selector.selected block.records) :=
  (drop_sublist _ _).filter _

lemma flatMap_selected (table : Table) (selector : ScanSelector) :
    table.dataBlocks.flatMap (fun block => selector.selected block.records) =
      selector.selected table.pointRecords := by
  rw [ScanSelector.selected, ← table.flatMap_dataBlocks, filter_flatMap]
  rfl

lemma forwardFrom_sublist (table : Table) (selector : ScanSelector) (policy : IndexSearchPolicy) :
    (table.forwardFrom selector policy 0).Sublist (selector.selected table.pointRecords) := by
  rw [forwardFrom, drop_zero, ← table.flatMap_selected]
  exact flatMap_sublist _ fun block _ => selected_entered_sublist block

lemma reverseBelow_eq_reverse (table : Table) (selector : ScanSelector) :
    table.reverseBelow selector table.dataBlockCount =
      (selector.selected table.pointRecords).reverse := by
  rw [reverseBelow, dataBlockCount, take_length, ← table.flatMap_selected,
    reverse_flatMap]
  rfl

/-- The records that a cursor returns, in its order. -/
def scanned (table : Table) (selector : ScanSelector) (direction : Direction)
    (policy : IndexSearchPolicy) : List PointRecord :=
  match direction with
  | .forward => table.forwardFrom selector policy 0
  | .reverse => (selector.selected table.pointRecords).reverse

lemma scanned_sublist (table : Table) (selector : ScanSelector) (direction : Direction)
    (policy : IndexSearchPolicy) :
    (table.scanned selector direction policy).Sublist
      (direction.orient (selector.selected table.pointRecords)) := by
  cases direction with
  | forward => exact table.forwardFrom_sublist selector policy
  | reverse => exact List.Sublist.refl _

lemma length_scanned_le (table : Table) (selector : ScanSelector) (direction : Direction)
    (policy : IndexSearchPolicy) :
    (table.scanned selector direction policy).length ≤ table.pointRecords.length := by
  have h := (table.scanned_sublist selector direction policy).length_le
  rw [Direction.length_orient] at h
  exact h.trans (length_filter_le _ _)

end Table

/-! ## Restart points inside the versions of a key -/

def ScanSelector.startKey : ScanSelector → Option Key
  | .range ⟨.included key, _⟩ => some key
  | .range ⟨.excluded _, _⟩ => none
  | .range ⟨.unbounded, _⟩ => none
  | .withPrefix pref => some pref

/-- A restart point other than the first record stands between two versions of the key. -/
def restartSplits (records : List PointRecord) (key : Key) : Bool :=
  (restartIndicesOf records.length).any fun i =>
    decide (0 < i) && decide ((records[i - 1]?).map userKey = some key) &&
      decide ((records[i]?).map userKey = some key)

def Table.restartSplits (table : Table) (key : Key) : Bool :=
  table.dataBlocks.any fun block => TrineKv.restartSplits block.records key

lemma mem_restartIndicesOf {n i : ℕ} (h : i ∈ restartIndicesOf n) : i < n :=
  mem_range.mp (mem_filter.mp h).1

lemma pairwise_restartIndicesOf (n : ℕ) : (restartIndicesOf n).Pairwise (· < ·) :=
  pairwise_lt_range.sublist filter_sublist

section Restart

variable {records : List PointRecord} (key : Key)

lemma restartIndexForKey_spec (hsorted : KeysAscend records) (policy : IndexSearchPolicy) :
    let k := (fromRecords records).restartIndexForKey key policy
    (k = 0 ∨ k ∈ restartIndicesOf records.length ∧
      ∃ record, records[k]? = some record ∧ record.userKey ≤ key) ∧
    ∀ i ∈ restartIndicesOf records.length, ∀ record, records[i]? = some record →
      record.userKey ≤ key → i ≤ k := by
  intro k
  have hpair := pairwise_restartIndicesOf records.length
  have htrue : PartitionPoint.InitiallyTrue (restartIndicesOf records.length).length
      (along (restartIndicesOf records.length) fun restart =>
        (records[restart]?).elim false fun record => decide (record.userKey ≤ key)) := by
    apply initiallyTrue_along
    rw [pairwise_iff_getElem] at hpair ⊢
    intro i j hi hj hij h
    have hlt := hpair i j hi hj hij
    have hjlen := mem_restartIndicesOf (getElem_mem hj)
    rw [List.getElem?_eq_getElem hjlen] at h
    rw [List.getElem?_eq_getElem (by omega)]
    simp only [Option.elim_some, decide_eq_true_eq] at h ⊢
    exact (pairwise_iff_getElem.mp hsorted _ _ _ _ hlt).trans h
  obtain ⟨hle, hlt, hge⟩ := partitionPointBy_spec policy htrue
  set upper := partitionPointBy (restartIndicesOf records.length).length policy
    (along (restartIndicesOf records.length) fun restart =>
      (records[restart]?).elim false fun record => decide (record.userKey ≤ key))
  have hk : k = if upper = 0 then 0 else (restartIndicesOf records.length).getD (upper - 1) 0 :=
    rfl
  refine ⟨?_, fun i hi record hget hkey => ?_⟩
  · by_cases h0 : upper = 0
    · exact .inl (by rw [hk, if_pos h0])
    · have hlen : upper - 1 < (restartIndicesOf records.length).length := by omega
      have hkeq : k = (restartIndicesOf records.length)[upper - 1] := by
        rw [hk, if_neg h0, getD_eq_getElem?_getD, List.getElem?_eq_getElem hlen]
        rfl
      have hmem := getElem_mem hlen
      rw [← hkeq] at hmem
      have hp := hlt (upper - 1) (by omega)
      rw [along_of_lt hlen, ← hkeq,
        List.getElem?_eq_getElem (mem_restartIndicesOf hmem)] at hp
      exact .inr ⟨hmem, _, List.getElem?_eq_getElem (mem_restartIndicesOf hmem),
        by simpa using hp⟩
  · obtain ⟨p, hp, rfl⟩ := mem_iff_getElem.mp hi
    -- A restart point at or below the key stands before the partition point.
    have hpu : p < upper := by
      by_contra hnot
      have := hge p (by omega) hp
      rw [along_of_lt hp, hget] at this
      simp [hkey] at this
    have hlen : upper - 1 < (restartIndicesOf records.length).length := by omega
    rw [hk, if_neg (by omega), getD_eq_getElem?_getD, List.getElem?_eq_getElem hlen,
      Option.getD_some]
    rcases Nat.lt_or_eq_of_le (show p ≤ upper - 1 by omega) with h | h
    · exact (pairwise_iff_getElem.mp hpair p (upper - 1) hp hlen h).le
    · exact le_of_eq (by congr 1)

lemma restart_loses_iff (hsorted : KeysAscend records) (policy : IndexSearchPolicy) :
    let k := (fromRecords records).restartIndexForKey key policy
    (∀ record ∈ records.take k, record.userKey ≤ key) ∧
      ((∃ record ∈ records.take k, record.userKey = key) ↔ restartSplits records key = true) := by
  intro k
  obtain ⟨hk, hlast⟩ := restartIndexForKey_spec key hsorted policy
  have hmono : ∀ i j (hi : i < records.length) (hj : j < records.length), i ≤ j →
      records[i].userKey ≤ records[j].userKey := by
    intro i j hi hj hij
    rcases Nat.lt_or_eq_of_le hij with h | rfl
    · exact pairwise_iff_getElem.mp hsorted i j hi hj h
    · exact le_rfl
  have htake : ∀ record ∈ records.take k, ∃ j, ∃ hj : j < records.length,
      j < k ∧ records[j] = record := by
    intro record hmem
    obtain ⟨j, hj, rfl⟩ := mem_iff_getElem.mp hmem
    have hj' : j < k ∧ j < records.length := by simpa using hj
    exact ⟨j, hj'.2, hj'.1, by simp⟩
  refine ⟨fun record hmem => ?_, ?_, fun hsplit => ?_⟩
  · obtain ⟨j, hj, hjk, rfl⟩ := htake record hmem
    rcases hk with h0 | ⟨-, found, hfound, hle⟩
    · have : k = 0 := h0
      omega
    · obtain ⟨hklen, rfl⟩ := List.getElem?_eq_some_iff.mp hfound
      exact (hmono j _ hj hklen hjk.le).trans hle
  · rintro ⟨record, hmem, rfl⟩
    obtain ⟨j, hj, hjk, rfl⟩ := htake record hmem
    rcases hk with h0 | ⟨hmemk, found, hfound, hle⟩
    · have : k = 0 := h0
      omega
    · obtain ⟨hklen, rfl⟩ := List.getElem?_eq_some_iff.mp hfound
      have hk1 : k - 1 < records.length := by
        have : k < records.length := hklen
        omega
      -- All records from the lost version up to the restart point have the same key.
      have h1 := hmono j (k - 1) hj hk1 (by omega)
      have h2 := hmono (k - 1) k hk1 hklen (by omega)
      have heq1 : records[k - 1].userKey = records[j].userKey := le_antisymm (h2.trans hle) h1
      have heq2 : records[k].userKey = records[j].userKey := le_antisymm hle (h1.trans h2)
      rw [restartSplits, any_eq_true]
      refine ⟨k, hmemk, ?_⟩
      rw [List.getElem?_eq_getElem hk1, List.getElem?_eq_getElem (show k < _ from hklen)]
      simp [heq1, heq2, show 0 < k by omega]
  · rw [restartSplits, any_eq_true] at hsplit
    obtain ⟨i, hi, hsplit⟩ := hsplit
    simp only [Bool.and_eq_true, decide_eq_true_eq, Option.map_eq_some_iff] at hsplit
    obtain ⟨⟨hpos, before, hbefore, hkb⟩, after, hafter, hka⟩ := hsplit
    have hik : i ≤ k := hlast i hi after hafter hka.le
    obtain ⟨hlen, rfl⟩ := List.getElem?_eq_some_iff.mp hbefore
    refine ⟨records[i - 1], ?_, hkb⟩
    rw [mem_take_iff_getElem]
    exact ⟨i - 1, by omega, rfl⟩

end Restart

lemma selected_entered_eq_iff {block : TableDataBlock} (hsorted : KeysAscend block.records)
    (selector : ScanSelector) (policy : IndexSearchPolicy) :
    selector.selected (block.entered selector policy) = selector.selected block.records ↔
      ∀ key, selector.startKey = some key → selector.selects key = true →
        restartSplits block.records key = false := by
  set k := (fromRecords block.records).firstRecordIndex selector policy with hk
  -- What is lost are the selected records before the entry index.
  have hsplit : selector.selected block.records =
      selector.selected (block.records.take k) ++
        selector.selected (block.entered selector policy) := by
    rw [← ScanSelector.selected_append]
    exact congrArg _ (take_append_drop k block.records).symm
  have hlost : selector.selected (block.entered selector policy) =
      selector.selected block.records ↔ selector.selected (block.records.take k) = [] := by
    rw [hsplit, self_eq_append_left]
  rw [hlost, ScanSelector.selected, filter_eq_nil_iff]
  have hincluded : ∀ key,
      k = (fromRecords block.records).restartIndexForKey key policy →
      selector.startKey = some key →
      (∀ record : PointRecord, selector.selects record.userKey = true → key ≤ record.userKey) →
      ((∀ record ∈ block.records.take k, ¬selector.selects record.userKey = true) ↔
        ∀ key, selector.startKey = some key → selector.selects key = true →
          restartSplits block.records key = false) := by
    intro key hkey hstart hbelow
    obtain ⟨hle, hiff⟩ := restart_loses_iff key hsorted policy
    rw [← hkey] at hle hiff
    rw [hstart]
    constructor
    · intro h key' hkey' hsel
      obtain rfl : key = key' := Option.some.inj hkey'
      rw [← Bool.not_eq_true, ← hiff]
      rintro ⟨record, hmem, rfl⟩
      exact h record hmem hsel
    · intro h record hmem hsel
      have heq : record.userKey = key := le_antisymm (hle record hmem) (hbelow record hsel)
      have := h key rfl (heq ▸ hsel)
      rw [← Bool.not_eq_true, ← hiff] at this
      exact this ⟨record, hmem, heq⟩
  cases selector with
  | range range =>
    obtain ⟨start, last⟩ := range
    cases start with
    | included key =>
      refine hincluded key hk rfl fun record hsel => ?_
      have hin : keyIsInRange record.userKey ⟨.included key, last⟩ = true := hsel
      simpa [keyIsBeforeStart] using (keyIsInRange_iff.mp hin).1
    | excluded key =>
      refine ⟨fun _ key' h => by simp [ScanSelector.startKey] at h, fun _ record hmem hsel => ?_⟩
      have hin : keyIsInRange record.userKey ⟨.excluded key, last⟩ = true := hsel
      have hlt : key < record.userKey := by
        simpa [keyIsBeforeStart] using (keyIsInRange_iff.mp hin).1
      have hle := (restart_loses_iff key hsorted policy).1 record (by
        rw [hk] at hmem
        exact hmem)
      exact absurd hle (not_le_of_gt hlt)
    | unbounded =>
      refine ⟨fun _ key' h => by simp [ScanSelector.startKey] at h, fun _ record hmem => ?_⟩
      have : k = 0 := hk
      simp [this] at hmem
  | withPrefix pref =>
    refine hincluded pref hk rfl fun record hsel => ?_
    exact ByteOrder.le_of_isPrefix (by simpa [ScanSelector.selects] using hsel)

/-- Two concatenations of elementwise sublists agree only when all elements do. -/
private lemma flatMap_eq_iff_of_sublist {α β : Type*} {f g : α → List β} (l : List α)
    (h : ∀ a ∈ l, (f a).Sublist (g a)) : l.flatMap f = l.flatMap g ↔ ∀ a ∈ l, f a = g a := by
  refine ⟨fun heq => ?_, fun heq => flatMap_congr heq⟩
  induction l with
  | nil => simp
  | cons a l ih =>
    have htail := flatMap_sublist l fun b hb => h b (mem_cons_of_mem _ hb)
    have hhead := h a mem_cons_self
    rw [flatMap_cons, flatMap_cons] at heq
    have hlen := congrArg List.length heq
    rw [length_append, length_append] at hlen
    have ha : f a = g a := hhead.eq_of_length (by
      have := hhead.length_le
      have := htail.length_le
      omega)
    rw [ha, append_cancel_left_eq] at heq
    intro b hb
    rcases mem_cons.mp hb with rfl | hb
    · exact ha
    · exact ih (fun b hb => h b (mem_cons_of_mem _ hb)) heq b hb

lemma Table.forwardFrom_eq_iff (table : Table) (selector : ScanSelector)
    (policy : IndexSearchPolicy) :
    table.forwardFrom selector policy 0 = selector.selected table.pointRecords ↔
      ∀ key, selector.startKey = some key → selector.selects key = true →
        table.restartSplits key = false := by
  rw [forwardFrom, drop_zero, ← table.flatMap_selected,
    flatMap_eq_iff_of_sublist _ fun block _ => selected_entered_sublist block]
  have hblock : ∀ block ∈ table.dataBlocks,
      (selector.selected (block.entered selector policy) = selector.selected block.records ↔
        ∀ key, selector.startKey = some key → selector.selects key = true →
          TrineKv.restartSplits block.records key = false) :=
    fun block hmem => selected_entered_eq_iff (table.sorted_block hmem).keysAscend selector policy
  constructor
  · intro h key hstart hsel
    rw [Table.restartSplits, any_eq_false]
    intro block hmem
    simp [(hblock block hmem).mp (h block hmem) key hstart hsel]
  · intro h block hmem
    refine (hblock block hmem).mpr fun key hstart hsel => ?_
    have := h key hstart hsel
    rw [Table.restartSplits, any_eq_false] at this
    simpa using this block hmem

/-! ## Groups of the selected records -/

lemma insertionSort_eq_of_perm {records sorted : List PointRecord} (hperm : records.Perm sorted)
    (hsorted : StrictlySorted sorted) : records.insertionSort internalKeyLe = sorted := by
  refine List.Perm.eq_of_pairwise (fun a b ha hb hab hba => ?_)
    (pairwise_insertionSort _ _) (hsorted.imp fun h => h.le)
    ((perm_insertionSort _ _).trans hperm)
  have ha' : a ∈ sorted := hperm.mem_iff.mp ((mem_insertionSort _).mp ha)
  exact hsorted.eq_of_internalKey_eq ha' hb (le_antisymm hab hba)

lemma sum_length_groups (l : List PointRecord) :
    (((runs userKey l).map groupOfRun).map fun group =>
      group.records.length).sum = l.length := by
  conv_rhs => rw [← flatten_runs userKey l, length_flatMap]
  rw [map_map]
  congr 1
  refine map_congr_left fun run _ => ?_
  simp [groupOfRun]

namespace Table

variable (table : Table) (selector : ScanSelector)

lemma filter_selected {key : Key} (h : selector.selects key = true) :
    ((selector.selected table.pointRecords).filter fun record => record.userKey = key) =
      table.pointRecords.filter fun record => record.userKey = key := by
  rw [ScanSelector.selected, filter_filter]
  refine filter_congr fun record _ => ?_
  by_cases heq : record.userKey = key <;> simp [heq, h]

lemma map_selected :
    (selector.selected table.pointRecords).map userKey =
      (table.pointRecords.map userKey).filter selector.selects := by
  rw [filter_map]
  rfl

lemma groupOfRun_eq {key : Key} {versions : List PointRecord}
    (hperm : versions.Perm (table.pointRecords.filter fun record => record.userKey = key)) :
    groupOfRun (key, versions) =
      ⟨key, table.pointRecords.filter fun record => record.userKey = key⟩ := by
  rw [groupOfRun, insertionSort_eq_of_perm hperm (table.sorted.sublist filter_sublist)]

/-- The expected groups are the groups of the selected records in the order of the direction. -/
theorem expectedGroups_eq_runs (direction : Direction) :
    table.expectedGroups selector direction =
      (runs userKey
        (direction.orient (selector.selected table.pointRecords))).map groupOfRun := by
  have hasc : (selector.selected table.pointRecords).Pairwise
      fun left right => left.userKey ≤ right.userKey :=
    table.sorted.keysAscend.sublist filter_sublist
  have hselects : ∀ key ∈ ((table.pointRecords.map userKey).filter
      selector.selects).dedup, selector.selects key = true := by
    intro key hkey
    exact (mem_filter.mp (mem_dedup.mp hkey)).2
  cases direction with
  | forward =>
    rw [Direction.orient, runs_eq_of_sorted (r := (· ≤ ·)) hasc, map_selected,
      map_map]
    refine map_congr_left fun key hkey => (groupOfRun_eq table ?_).symm
    rw [filter_selected table selector (hselects key hkey)]
  | reverse =>
    have hkeys : ((selector.selected table.pointRecords).reverse.map userKey).dedup =
        (((table.pointRecords.map userKey).filter selector.selects).dedup).reverse := by
      rw [map_reverse, ← map_selected]
      exact dedup_reverse_of_sorted (r := (· ≤ ·)) (pairwise_map.mpr hasc)
    rw [Direction.orient, runs_eq_of_sorted (r := (· ≥ ·)) (pairwise_reverse.mpr hasc),
      hkeys, map_map]
    refine map_congr_left fun key hkey => (groupOfRun_eq table ?_).symm
    rw [filter_reverse, filter_selected table selector (hselects key (mem_reverse.mp hkey))]
    exact reverse_perm _

end Table

namespace TablePointCursor

variable (table : Table) (selector : ScanSelector) (extractor : PrefixExtractor)
  (policy : IndexSearchPolicy)

lemma yields_new (direction : Direction) :
    Stream.Yields nextGroup (new table selector extractor direction policy)
      ((runs userKey
        (table.scanned selector direction policy)).map groupOfRun) := by
  have hstream : (new table selector extractor direction policy).stream =
      table.scanned selector direction policy := by
    cases direction with
    | forward => exact remaining_new_forward table selector extractor policy
    | reverse =>
      exact (remaining_new_reverse table selector extractor policy).trans
        (table.reverseBelow_eq_reverse selector)
  have h := yields_runs (valid_new table selector extractor direction policy)
    (by rw [hstream]; exact table.length_scanned_le selector direction policy)
  rwa [hstream] at h

theorem drain_new (direction : Direction) :
    (new table selector extractor direction policy).drain =
      .ok ((runs userKey
        (table.scanned selector direction policy)).map groupOfRun) := by
  apply (yields_new table selector extractor policy direction).drain_eq
  rw [length_map]
  exact Nat.lt_succ_of_le ((length_runs_le _ _).trans
    (table.length_scanned_le selector direction policy))

/-- A drained cursor returns every selected key of the table once, in the order of the direction
and with all its versions, exactly when it is a reverse cursor or no restart point inside a block
splits the versions of the key with which the selection starts.

**Proof sketch.** The drained groups and the expected ones are the groups of the stream and of
the selected records. Groups hold as many records as they group, so they agree exactly when the
stream is complete, which for a forward cursor is `Table.forwardFrom_eq_iff`. -/
theorem drain_eq_expectedGroups_iff (direction : Direction) :
    (new table selector extractor direction policy).drain =
        .ok (table.expectedGroups selector direction) ↔
      (direction = .forward → ∀ key, selector.startKey = some key →
        selector.selects key = true → table.restartSplits key = false) := by
  rw [drain_new, table.expectedGroups_eq_runs, Except.ok.injEq]
  cases direction with
  | reverse => simp [Direction.orient, Table.scanned]
  | forward =>
    simp only [Direction.orient, forall_const, Table.scanned]
    rw [← table.forwardFrom_eq_iff selector policy]
    refine ⟨fun h => (table.forwardFrom_sublist selector policy).eq_of_length ?_, fun h => by rw [h]⟩
    rw [← sum_length_groups, ← sum_length_groups, h]

def hotVersion (sequence : Fin 18) : PointRecord where
  internalKey :=
    { userKey := [97], sequence := sequence, kind := .pointDelete, batchIndex := 0
      sequence_le := sequence.isLt.le.trans (by decide) }
  value := none
  put_has_value := by simp

/-- A table of one block with seventeen versions of one key, newest first. -/
def hotKeyTable : Table where
  id := 1
  level := 0
  options := ⟨4096, .disabled, .disabled, .disabled, .uniform⟩
  residence := .loaded
  pointRecords := [17, 16, 15, 14, 13, 12, 11, 10, 9, 8, 7, 6, 5, 4, 3, 2, 1].map hotVersion
  rangeTombstones := RangeTombstoneIndex.new []
  sorted := by decide
  nonempty := by decide

/-- A forward cursor from the key `a` on returns only the oldest of its seventeen versions. -/
theorem drain_hotKeyTable :
    (new hotKeyTable (.range ⟨.included [97], .unbounded⟩) .disabled .forward .auto).drain =
        .ok [⟨[97], [hotVersion 1]⟩] ∧
      (new hotKeyTable (.range ⟨.included [97], .unbounded⟩) .disabled .forward .auto).drain ≠
        .ok (hotKeyTable.expectedGroups (.range ⟨.included [97], .unbounded⟩) .forward) := by
  decide

end TablePointCursor

end TrineKv
