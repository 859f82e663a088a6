import TrineKv.Lib.LinkedLog
import TrineKv.Wal.Recovery

/-!
# Segment chains of the object write-ahead log

A segment holds the frames of a group of commits and names its predecessor; its key has the writer's
epoch, the last sequence and a digest of the content. Recovery walks from the head that the lease
names, checks every segment against its key, requires consecutive commits, and refuses more than
`maxChainSegments` segments or `maxReplayBytes` bytes. Keys are modelled by their parts, objects as
segments.

## Main results

* `readChainLoop_eq_ok`, `readChainLoop_of_chain`, `validateObjectWalSequences_eq_ok`.
-/

namespace TrineKv.ObjectWal

open List ByteCodec Function
open UInt64 (le_iff_toNat_le le_trans lt_iff_toNat_lt not_lt toNat_inj)

open Wal

variable {contents : List (List WalBatch)}

/-! ## Keys and segments -/

/-- Whether a segment was written by a commit or by a rewrite. -/
inductive KeyKind where
  | commit
  | rewrite
  deriving DecidableEq, Repr

/-- The key of a segment: its kind, the epoch of its writer, its last sequence and the digest of
its content. -/
structure ObjectWalKey where
  kind : KeyKind
  epoch : UInt64
  sequence : UInt64
  identity : List UInt8
  deriving DecidableEq, Repr

structure Segment where
  previous : Option ObjectWalKey
  frames : List UInt8
  deriving DecidableEq, Repr

/-- What is fixed for a database: the digest of segments (SHA-256 of the encoded segment) and the
path under which a key is stored. -/
structure Config where
  digest : Segment → List UInt8
  path : ObjectWalKey → String

abbrev Objects := ObjectWalKey → Option Segment

/-- The length of a segment without predecessor and frames. -/
def segmentHeaderLen : ℕ := 12

def maxSegmentBytes : ℕ := 128 * 1024 * 1024

def maxGroupFrameBytes : ℕ := maxSegmentBytes - 64 * 1024

def maxChainSegments : ℕ := 16384

/-- The most bytes in a chain that recovery reads. -/
def maxReplayBytes : ℕ := 1024 * 1024 * 1024

/-- The length check that reports corruption. -/
def ensureCorruptionLen (len max : ℕ) (field : String) : Except Error Unit :=
  if len ≤ max then .ok () else .error (.corruption s!"{field} {len} exceeds maximum {max}")

variable (config : Config)

def previousLen (previous : Option ObjectWalKey) : ℕ :=
  (previous.map fun key => (config.path key).utf8ByteSize).getD 0

def segmentLen (segment : Segment) : ℕ :=
  segmentHeaderLen + previousLen config segment.previous + segment.frames.length

/-- The segment of some frames, if it is not too long. -/
def encodeObjectWalSegment (previous : Option ObjectWalKey) (frames : List UInt8) :
    Except Error Segment := do
  if 2 ^ 32 ≤ previousLen config previous then
    throw (.invalidOptions "object WAL predecessor key exceeds u32::MAX")
  ensureCorruptionLen (segmentLen config ⟨previous, frames⟩) maxSegmentBytes
    "object WAL segment length"
  return ⟨previous, frames⟩

def putImmutableObject (objects : Objects) (key : ObjectWalKey) (segment : Segment) :
    Except Error Objects :=
  match objects key with
  | none => .ok (update objects key (some segment))
  | some existing =>
    if existing = segment then .ok objects
    else .error (.corruption
      s!"immutable object WAL segment {config.path key} already has different bytes")

/-! ## The walk -/

/-- A segment that has been checked against its key, with its commits above the floor. -/
structure VerifiedObjectWalSegment where
  previous : Option ObjectWalKey
  batches : List WalBatch
  byteLen : ℕ

def readVerifiedObjectWalSegment (objects : Objects) (key : ObjectWalKey) (replayFloor : UInt64) :
    Except Error VerifiedObjectWalSegment :=
  match objects key with
  | none => .error (.corruption s!"object WAL segment {config.path key} is missing")
  | some segment => do
    ensureCorruptionLen (segmentLen config segment) maxSegmentBytes "object WAL segment length"
    if key.identity ≠ config.digest segment then
      throw (.corruption s!"object WAL segment {config.path key} content identity mismatch")
    let batches ← decodeFramesAfter segment.frames replayFloor
    return ⟨segment.previous, batches, segmentLen config segment⟩

def readChainLoop (objects : Objects) (replayFloor committedSequence : UInt64) :
    ℕ → List ObjectWalKey → ObjectWalKey → ℕ →
      Except Error (List WalBatch × List ObjectWalKey)
  | remaining, visited, current, replayBytes =>
    if current ∈ visited then
      .error (.corruption s!"object WAL chain contains a cycle at {config.path current}")
    else
      match remaining with
      | 0 => .error (.corruption s!"object WAL chain exceeds {maxChainSegments} segments")
      | remaining + 1 => do
        let segment ← readVerifiedObjectWalSegment config objects current replayFloor
        ensureCorruptionLen (replayBytes + segment.byteLen) maxReplayBytes
          "object WAL replay bytes"
        let batches := segment.batches.filter fun batch =>
          decide (batch.sequence ≤ committedSequence)
        match segment.previous with
        | none => return (batches, [current])
        | some previous =>
          let (more, keys) ← readChainLoop objects replayFloor committedSequence remaining
            (current :: visited) previous (replayBytes + segment.byteLen)
          return (batches ++ more, current :: keys)

def validateObjectWalSequences : List WalBatch → UInt64 → UInt64 → Except Error Unit
  | [], previous, committedSequence =>
    if previous = committedSequence then .ok ()
    else .error (.corruption
      s!"object WAL chain ended at sequence {previous}, below committed head {committedSequence}")
  | batch :: batches, previous, committedSequence =>
    if previous.toNat = maxSequence then
      .error (.corruption "object WAL sequence overflow while validating its chain")
    else if batch.sequence = previous + 1 then
      validateObjectWalSequences batches batch.sequence committedSequence
    else .error (.corruption
      s!"object WAL chain expected sequence {previous + 1}, got {batch.sequence}")

def readObjectWalChain (objects : Objects) (committedSequence : UInt64)
    (currentWalKey : Option ObjectWalKey) (replayFloor : UInt64) :
    Except Error (List WalBatch × List ObjectWalKey) :=
  if committedSequence ≤ replayFloor then .ok ([], [])
  else
    match currentWalKey with
    | none => .error (.corruption
        s!"object WAL head reached sequence {committedSequence} without a segment")
    | some current => do
      let (collected, keys) ← readChainLoop config objects replayFloor committedSequence
        maxChainSegments [] current 0
      let batches := sortBySequence collected
      validateObjectWalSequences batches replayFloor committedSequence
      return (batches, keys)

/-! ## What a walk finds -/

variable {config}

lemma ensureCorruptionLen_eq_ok {len max : ℕ} {field : String} :
    ensureCorruptionLen len max field = .ok () ↔ len ≤ max := by
  rw [ensureCorruptionLen]
  split_ifs with h
  · simp [h]
  · simp [h]

def Verified (config : Config) (entry : ObjectWalKey × Segment) : Prop :=
  segmentLen config entry.2 ≤ maxSegmentBytes ∧ entry.1.identity = config.digest entry.2

lemma readVerifiedObjectWalSegment_eq_ok {objects : Objects} {key : ObjectWalKey}
    {replayFloor : UInt64} {verified : VerifiedObjectWalSegment} :
    readVerifiedObjectWalSegment config objects key replayFloor = .ok verified ↔
      ∃ segment batches, objects key = some segment ∧ Verified config (key, segment) ∧
        decodeFramesAfter segment.frames replayFloor = .ok batches ∧
        verified = ⟨segment.previous, batches, segmentLen config segment⟩ := by
  rw [readVerifiedObjectWalSegment]
  cases hkey : objects key with
  | none => simp
  | some segment =>
    simp only [Option.some.injEq, exists_and_left, exists_eq_left', bind_eq_ok]
    constructor
    · rintro ⟨_, hlen, h⟩
      by_cases hidentity : key.identity = config.digest segment
      · rw [if_neg (not_not.mpr hidentity)] at h
        obtain ⟨batches, hdecode, h⟩ := bind_eq_ok.mp h
        exact ⟨⟨ensureCorruptionLen_eq_ok.mp hlen, hidentity⟩, batches, hdecode,
          (Except.ok.inj h).symm⟩
      · rw [if_pos hidentity] at h
        cases h
    · rintro ⟨⟨hlen, hidentity⟩, batches, hdecode, rfl⟩
      refine ⟨(), ensureCorruptionLen_eq_ok.mpr hlen, ?_⟩
      rw [if_neg (not_not.mpr hidentity), hdecode]
      rfl

lemma encodeObjectWalSegment_eq_ok {previous : Option ObjectWalKey} {frames : List UInt8}
    {segment : Segment} (h : encodeObjectWalSegment config previous frames = .ok segment) :
    segment = ⟨previous, frames⟩ ∧ segmentLen config segment ≤ maxSegmentBytes := by
  rw [encodeObjectWalSegment] at h
  split_ifs at h
  · cases h
  · obtain ⟨_, hlen, h⟩ := bind_eq_ok.mp h
    obtain rfl := Except.ok.inj h
    exact ⟨rfl, ensureCorruptionLen_eq_ok.mp hlen⟩

lemma putImmutableObject_eq_ok {objects objects' : Objects} {key : ObjectWalKey}
    {segment : Segment} (h : putImmutableObject config objects key segment = .ok objects') :
    objects' = update objects key (some segment) ∧
      (objects key = none ∨ objects key = some segment) := by
  unfold putImmutableObject at h
  cases hkey : objects key with
  | none =>
    rw [hkey] at h
    exact ⟨(Except.ok.inj h).symm, Or.inl rfl⟩
  | some existing =>
    rw [hkey] at h
    simp only at h
    split_ifs at h with heq
    subst heq
    obtain rfl := Except.ok.inj h
    rw [← hkey, update_eq_self]
    exact ⟨rfl, Or.inr rfl⟩

def chainBytes (config : Config) (chain : List (ObjectWalKey × Segment)) : ℕ :=
  (chain.map fun entry => segmentLen config entry.2).sum

def upTo (committedSequence : UInt64) (batches : List WalBatch) : List WalBatch :=
  batches.filter fun batch => decide (batch.sequence ≤ committedSequence)

/-- A chain whose segments pass their checks and decode to the given commits above the floor. -/
structure Walk (config : Config) (objects : Objects) (replayFloor : UInt64)
    (head : Option ObjectWalKey) (chain : List (ObjectWalKey × Segment))
    (contents : List (List WalBatch)) : Prop where
  linked : LinkedLog.Chain objects Segment.previous head chain
  verified : ∀ entry ∈ chain, Verified config entry
  decoded : List.Forall₂ (fun entry content =>
    decodeFramesAfter entry.2.frames replayFloor = .ok content) chain contents

section Walks

variable {objects : Objects} {replayFloor committedSequence : UInt64}

/-- A walk that succeeds has found a chain within the limits.

**Proof sketch.** By induction on the number of segments that may still be visited. -/
lemma readChainLoop_eq_ok {remaining replayBytes : ℕ} {visited keys : List ObjectWalKey}
    {current : ObjectWalKey} {collected : List WalBatch}
    (h : readChainLoop config objects replayFloor committedSequence remaining visited current
      replayBytes = .ok (collected, keys)) :
    ∃ chain contents, Walk config objects replayFloor (some current) chain contents ∧
      keys = chain.map Prod.fst ∧ collected = contents.flatMap (upTo committedSequence) ∧
      chain.length ≤ remaining ∧ replayBytes + chainBytes config chain ≤ maxReplayBytes := by
  induction remaining generalizing visited current replayBytes collected keys with
  | zero =>
    rw [readChainLoop] at h
    split_ifs at h
  | succ remaining ih =>
    rw [readChainLoop] at h
    split_ifs at h
    obtain ⟨verified, hread, h⟩ := bind_eq_ok.mp h
    obtain ⟨_, hbytes, h⟩ := bind_eq_ok.mp h
    obtain ⟨segment, batches, hstore, hverified, hdecode, rfl⟩ :=
      readVerifiedObjectWalSegment_eq_ok.mp hread
    have hbytes := ensureCorruptionLen_eq_ok.mp hbytes
    simp only at h hbytes
    cases hprevious : segment.previous with
    | none =>
      rw [hprevious] at h
      obtain ⟨rfl, rfl⟩ := Prod.mk.inj (Except.ok.inj h)
      refine ⟨[(current, segment)], [batches],
        ⟨.cons hstore (by rw [hprevious]; exact .nil), ?_, .cons hdecode .nil⟩, rfl, ?_, ?_, ?_⟩
      · simpa using hverified
      · simp [upTo]
      · simp
      · simpa [chainBytes] using hbytes
    | some previous =>
      rw [hprevious] at h
      obtain ⟨⟨more, keys'⟩, hloop, h⟩ := bind_eq_ok.mp h
      obtain ⟨rfl, rfl⟩ := Prod.mk.inj (Except.ok.inj h)
      obtain ⟨chain, contents, hwalk, rfl, rfl, hlength, htotal⟩ := ih hloop
      refine ⟨(current, segment) :: chain, batches :: contents,
        ⟨.cons hstore (by rw [hprevious]; exact hwalk.linked), ?_, .cons hdecode hwalk.decoded⟩,
        rfl, rfl, ?_, ?_⟩
      · rw [forall_mem_cons]
        exact ⟨hverified, hwalk.verified⟩
      · rw [length_cons]
        omega
      · rw [chainBytes, map_cons, sum_cons, ← add_assoc]
        exact htotal

/-- A chain within the limits is read.

**Proof sketch.** By induction on the chain. No key of a chain occurs twice, so the check for a
cycle passes. -/
lemma readChainLoop_of_chain {chain : List (ObjectWalKey × Segment)}
    {contents : List (List WalBatch)} {current : ObjectWalKey} {remaining replayBytes : ℕ}
    {visited : List ObjectWalKey}
    (hwalk : Walk config objects replayFloor (some current) chain contents)
    (hvisited : ∀ key ∈ chain.map Prod.fst, key ∉ visited) (hlength : chain.length ≤ remaining)
    (hbytes : replayBytes + chainBytes config chain ≤ maxReplayBytes) :
    readChainLoop config objects replayFloor committedSequence remaining visited current
      replayBytes = .ok (contents.flatMap (upTo committedSequence), chain.map Prod.fst) := by
  induction chain generalizing contents current remaining replayBytes visited with
  | nil => cases hwalk.linked
  | cons entry chain ih =>
    obtain ⟨hchain, hverified, hdecoded⟩ := hwalk
    have hnodup := hchain.nodup_keys
    cases hchain with
    | @cons key segment _ hstore hrest =>
    obtain _ | ⟨hdecode, hdecoded⟩ := hdecoded
    rename_i batches contents
    rw [forall_mem_cons] at hverified
    rw [chainBytes, map_cons, sum_cons, ← add_assoc] at hbytes
    obtain ⟨remaining, rfl⟩ : ∃ n, remaining = n + 1 := ⟨remaining - 1, by
      rw [length_cons] at hlength
      omega⟩
    have hread := readVerifiedObjectWalSegment_eq_ok.mpr
      ⟨segment, batches, hstore, hverified.1, hdecode, rfl⟩
    have hfits := @ensureCorruptionLen_eq_ok (replayBytes + segmentLen config segment)
      maxReplayBytes "object WAL replay bytes"
    rw [readChainLoop, if_neg (hvisited _ mem_cons_self), hread]
    simp only [ok_bind]
    rw [hfits.mpr (by simp only at hbytes; omega)]
    simp only [ok_bind]
    cases hprevious : segment.previous with
    | none =>
      rw [hprevious] at hrest
      cases hrest
      cases hdecoded
      simp [upTo]
      rfl
    | some previous =>
      have hwalk : Walk config objects replayFloor (some previous) chain contents :=
        ⟨hprevious ▸ hrest, hverified.2, hdecoded⟩
      have hunvisited : ∀ key ∈ chain.map Prod.fst, key ∉ current :: visited := by
        intro key hmem hin
        rcases mem_cons.mp hin with rfl | hin
        · exact (nodup_cons.mp hnodup).1 hmem
        · exact hvisited key (mem_cons_of_mem _ hmem) hin
      have hnext := ih hwalk hunvisited (Nat.le_of_succ_le_succ hlength) hbytes
      simp only [hnext, ok_bind]
      rfl

end Walks

/-! ## Consecutive commits -/

/-- The commits have the sequences above `floor` up to `committed`, in order and without a gap. -/
def Consecutive (floor committed : UInt64) (batches : List WalBatch) : Prop :=
  floor ≤ committed ∧ batches.map (fun batch => batch.sequence.toNat) =
    List.range' (floor.toNat + 1) (committed.toNat - floor.toNat)

lemma toNat_succ {sequence : UInt64} (h : sequence.toNat ≠ maxSequence) :
    (sequence + 1).toNat = sequence.toNat + 1 := by
  have hlt := sequence.toNat_lt
  have hmax : maxSequence = 2 ^ 64 - 1 := rfl
  rw [UInt64.toNat_add, UInt64.toNat_one, Nat.mod_eq_of_lt (by omega)]

lemma consecutive_cons {floor committed : UInt64} {batch : WalBatch} {batches : List WalBatch} :
    Consecutive floor committed (batch :: batches) ↔
      floor.toNat ≠ maxSequence ∧ batch.sequence = floor + 1 ∧
        Consecutive batch.sequence committed batches := by
  have hmax := committed.toNat_lt
  have hmaxSequence : maxSequence = 2 ^ 64 - 1 := rfl
  simp only [Consecutive, map_cons, le_iff_toNat_le]
  constructor
  · rintro ⟨hle, hmap⟩
    have hlt : floor.toNat < committed.toNat := by
      by_contra hge
      rw [show committed.toNat - floor.toNat = 0 by omega] at hmap
      cases hmap
    rw [show committed.toNat - floor.toNat = committed.toNat - (floor.toNat + 1) + 1 by omega,
      range'_succ, List.cons.injEq] at hmap
    have hne : floor.toNat ≠ maxSequence := by omega
    refine ⟨hne, ?_, by omega, by rw [hmap.1]; exact hmap.2⟩
    rw [← toNat_inj, hmap.1, toNat_succ hne]
  · rintro ⟨hne, heq, hle, hmap⟩
    have hsucc : batch.sequence.toNat = floor.toNat + 1 := by rw [heq, toNat_succ hne]
    refine ⟨by omega, ?_⟩
    rw [show committed.toNat - floor.toNat = committed.toNat - (floor.toNat + 1) + 1 by omega,
      range'_succ, hmap, hsucc]

lemma validateObjectWalSequences_eq_ok {batches : List WalBatch} {floor committed : UInt64} :
    validateObjectWalSequences batches floor committed = .ok () ↔
      Consecutive floor committed batches := by
  induction batches generalizing floor with
  | nil =>
    rw [validateObjectWalSequences]
    simp only [Consecutive, map_nil, le_iff_toNat_le]
    split_ifs with heq
    · subst heq
      simp
    · rw [← toNat_inj] at heq
      constructor
      · intro h
        cases h
      · rintro ⟨hle, hmap⟩
        have hlength := congrArg List.length hmap
        rw [length_nil, length_range'] at hlength
        omega
  | cons batch batches ih =>
    rw [validateObjectWalSequences, consecutive_cons]
    split_ifs with hmax heq
    · simp [hmax]
    · rw [ih]
      exact ⟨fun h => ⟨hmax, heq, h⟩, fun h => h.2.2⟩
    · simp [heq]

namespace Consecutive

variable {floor middle committed : UInt64} {batches more : List WalBatch}

lemma bounds (h : Consecutive floor committed batches) {batch : WalBatch}
    (hmem : batch ∈ batches) : floor < batch.sequence ∧ batch.sequence ≤ committed := by
  have hin : batch.sequence.toNat ∈ batches.map fun batch => batch.sequence.toNat :=
    mem_map_of_mem hmem
  rw [h.2, mem_range'_1] at hin
  rw [lt_iff_toNat_lt, le_iff_toNat_le]
  omega

lemma pairwise (h : Consecutive floor committed batches) :
    batches.Pairwise fun left right => left.sequence < right.sequence := by
  have hrange : (batches.map fun batch => batch.sequence.toNat).Pairwise (· < ·) := by
    rw [h.2]
    exact pairwise_lt_range' 1
  exact (pairwise_map.mp hrange).imp fun hlt => lt_iff_toNat_lt.mpr hlt

lemma append (h : Consecutive floor middle batches) (h' : Consecutive middle committed more) :
    Consecutive floor committed (batches ++ more) := by
  have hle := le_iff_toNat_le.mp h.1
  have hle' := le_iff_toNat_le.mp h'.1
  refine ⟨le_trans h.1 h'.1, ?_⟩
  rw [map_append, h.2, h'.2,
    show committed.toNat - floor.toNat =
      (middle.toNat - floor.toNat) + (committed.toNat - middle.toNat) by omega,
    ← range'_append_1]
  congr 2
  omega

lemma nil (floor : UInt64) : Consecutive floor floor [] := ⟨UInt64.le_refl _, by simp⟩

lemma above_eq_self (h : Consecutive floor committed batches) : Wal.above floor batches = batches := by
  rw [Wal.above, filter_eq_self]
  intro batch hmem
  exact decide_eq_true (h.bounds hmem).1

lemma exists_last (h : Consecutive floor committed batches) (hlt : floor < committed) :
    ∃ last, batches.getLast? = some last ∧ last.sequence = committed := by
  have hlt' := lt_iff_toNat_lt.mp hlt
  have hmap := congrArg List.getLast? h.2
  rw [List.getLast?_map, List.getLast?_range', if_neg (by omega)] at hmap
  obtain ⟨last, hlast, hsequence⟩ := Option.map_eq_some_iff.mp hmap
  exact ⟨last, hlast, toNat_inj.mp (by omega)⟩

lemma above (h : Consecutive floor committed batches) (hlow : floor ≤ middle)
    (hhigh : middle ≤ committed) : Consecutive middle committed (above middle batches) := by
  induction batches generalizing floor with
  | nil =>
    have hlength := congrArg List.length h.2
    rw [map_nil, length_nil, length_range'] at hlength
    rw [le_iff_toNat_le] at hlow hhigh
    obtain rfl : middle = committed := toNat_inj.mp (by omega)
    exact nil _
  | cons batch batches ih =>
    obtain ⟨hne, heq, hrest⟩ := consecutive_cons.mp h
    have hsucc := toNat_succ hne
    rw [← heq] at hsucc
    by_cases hmiddle : middle < batch.sequence
    · -- The first commit is above the floor, so the floor is the old one.
      obtain rfl : floor = middle := by
        rw [le_iff_toNat_le] at hlow
        rw [lt_iff_toNat_lt] at hmiddle
        exact toNat_inj.mp (by omega)
      rwa [h.above_eq_self]
    · rw [Wal.above, filter_cons_of_neg (by simpa using not_lt.mp hmiddle)]
      exact ih hrest (not_lt.mp hmiddle)

end Consecutive

/-! ## Reading -/

section Reading

variable {objects : Objects} {replayFloor committedSequence : UInt64} {head : Option ObjectWalKey}

lemma readObjectWalChain_eq_ok {batches : List WalBatch} {keys : List ObjectWalKey}
    (hcommitted : ¬committedSequence ≤ replayFloor)
    (h : readObjectWalChain config objects committedSequence head replayFloor =
      .ok (batches, keys)) :
    ∃ current chain contents, head = some current ∧
      Walk config objects replayFloor (some current) chain contents ∧
      keys = chain.map Prod.fst ∧
      (contents.flatMap (upTo committedSequence)).Perm batches ∧
      Consecutive replayFloor committedSequence batches ∧
      chain.length ≤ maxChainSegments ∧ chainBytes config chain ≤ maxReplayBytes := by
  unfold readObjectWalChain at h
  rw [if_neg hcommitted] at h
  cases head with
  | none => cases h
  | some current =>
    obtain ⟨⟨collected, keys'⟩, hloop, h⟩ := bind_eq_ok.mp h
    obtain ⟨_, hvalid, h⟩ := bind_eq_ok.mp h
    obtain ⟨rfl, rfl⟩ := Prod.mk.inj (Except.ok.inj h)
    obtain ⟨chain, contents, hwalk, rfl, rfl, hlength, hbytes⟩ := readChainLoop_eq_ok hloop
    rw [Nat.zero_add] at hbytes
    exact ⟨current, chain, contents, rfl, hwalk, rfl, (sortBySequence_perm _).symm,
      validateObjectWalSequences_eq_ok.mp hvalid, hlength, hbytes⟩

lemma readObjectWalChain_of_walk {current : ObjectWalKey}
    {chain : List (ObjectWalKey × Segment)}
    {batches : List WalBatch} (hcommitted : ¬committedSequence ≤ replayFloor)
    (hwalk : Walk config objects replayFloor (some current) chain contents)
    (hperm : (contents.flatMap (upTo committedSequence)).Perm batches)
    (hconsecutive : Consecutive replayFloor committedSequence batches)
    (hlength : chain.length ≤ maxChainSegments)
    (hbytes : chainBytes config chain ≤ maxReplayBytes) :
    readObjectWalChain config objects committedSequence (some current) replayFloor =
      .ok (batches, chain.map Prod.fst) := by
  have hloop := @readChainLoop_of_chain config objects replayFloor committedSequence chain contents
    current maxChainSegments 0 [] hwalk (by simp) hlength (by simpa using hbytes)
  have hvalid := validateObjectWalSequences_eq_ok.mpr hconsecutive
  rw [readObjectWalChain, if_neg hcommitted, hloop]
  simp only [ok_bind, sortBySequence_eq hperm hconsecutive.pairwise, hvalid]
  rfl

lemma flatMap_upTo_above (replayFloor committedSequence : UInt64)
    (contents : List (List WalBatch)) :
    (contents.map (above replayFloor)).flatMap (upTo committedSequence) =
      above replayFloor (contents.flatMap (upTo committedSequence)) := by
  induction contents with
  | nil => rfl
  | cons content contents ih =>
    have hcontent : upTo committedSequence (above replayFloor content) =
        above replayFloor (upTo committedSequence content) := by
      rw [upTo, above, upTo, above, filter_filter, filter_filter]
      simp only [Bool.and_comm]
    rw [map_cons, flatMap_cons, flatMap_cons, above_append, ih, hcontent]

lemma Walk.of_le {replayFloor' : UInt64} (hle : replayFloor ≤ replayFloor')
    {chain : List (ObjectWalKey × Segment)}
    (h : Walk config objects replayFloor head chain contents) :
    Walk config objects replayFloor' head chain (contents.map (above replayFloor')) := by
  refine ⟨h.linked, h.verified, ?_⟩
  rw [List.forall₂_map_right_iff]
  exact h.decoded.imp fun _ _ hdecode => decodeFramesAfter_of_le hle hdecode

lemma readObjectWalChain_of_le {replayFloor' : UInt64} (hle : replayFloor ≤ replayFloor')
    {batches : List WalBatch} {keys : List ObjectWalKey}
    (h : readObjectWalChain config objects committedSequence head replayFloor =
      .ok (batches, keys)) :
    ∃ keys', readObjectWalChain config objects committedSequence head replayFloor' =
      .ok (above replayFloor' batches, keys') := by
  by_cases hcommitted : committedSequence ≤ replayFloor
  · unfold readObjectWalChain at h ⊢
    rw [if_pos hcommitted] at h
    obtain ⟨rfl, rfl⟩ := Prod.mk.inj (Except.ok.inj h)
    rw [if_pos (le_trans hcommitted hle)]
    exact ⟨[], rfl⟩
  obtain ⟨current, chain, contents, rfl, hwalk, -, hperm, hconsecutive, hlength, hbytes⟩ :=
    readObjectWalChain_eq_ok hcommitted h
  by_cases hcommitted' : committedSequence ≤ replayFloor'
  · refine ⟨[], ?_⟩
    rw [readObjectWalChain, if_pos hcommitted', above, filter_eq_nil_iff.mpr]
    intro batch hmem
    simpa using le_trans (hconsecutive.bounds hmem).2 hcommitted'
  · have hlt := UInt64.le_of_lt (UInt64.not_le.mp hcommitted')
    refine ⟨chain.map Prod.fst, readObjectWalChain_of_walk hcommitted' (hwalk.of_le hle) ?_
      (hconsecutive.above hle hlt) hlength hbytes⟩
    rw [flatMap_upTo_above]
    exact hperm.filter _

end Reading

end TrineKv.ObjectWal
