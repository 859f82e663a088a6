import TrineKv.Lib.ByteCodec
import TrineKv.Table.BlockAccess

/-!
# The filter block of a table

The filters of a table and of its data blocks are written with their number of bits, their number
of probes and their bits, eight in a byte. They are read back as they were, so a reader of the
written table does not skip a key or a prefix that the table has.

Numbers of bits and of bytes fit `usize`, as they do where it has 64 bits.

## Main results

* `decodeFilterBlock_allows`: a decoded filter misses no key.
-/

namespace TrineKv

open List

open ByteCodec

namespace BloomBits

/-! ## The bytes of a filter -/

def bytes (bloom : BloomBits) : List UInt8 := Bloom.pack (bloom.bits.length / 8) bloom.bits

def fromParts (bitCount hashCount : ℕ) (bytes : List UInt8) : Except Error BloomBits :=
  if bytes.length ≠ min (bitCount + 7) (2 ^ 64 - 1) / 8 then
    .error (.invalidFormat "bloom filter byte length does not match bit count")
  else if bitCount = 0 then
    if hashCount ≠ 0 ∨ bytes ≠ [] then
      .error (.invalidFormat "empty bloom filter has non-empty metadata")
    else .ok empty
  else if hashCount = 0 ∨ maxBloomHashCount < hashCount then
    .error (.invalidFormat "invalid bloom filter hash count")
  else .ok ⟨bitCount, hashCount, Bloom.unpack bytes⟩

/-- The bits and the probes are those of a filter over some items. -/
structure Sound (bloom : BloomBits) : Prop where
  length_bits : bloom.bits.length = 8 * ((bloom.bitCount + 7) / 8)
  probes : bloom = empty ∨
    0 < bloom.bitCount ∧ 0 < bloom.hashCount ∧ bloom.hashCount ≤ maxBloomHashCount

lemma sound_fromItems (items : List Key) (bitsPerItem : ℕ) :
    (fromItems items bitsPerItem).Sound := by
  unfold fromItems
  split_ifs
  · exact ⟨rfl, Or.inl rfl⟩
  · refine ⟨?_, Or.inr ⟨by dsimp only; omega, ?_⟩⟩
    · simp [Bloom.length_insertAll]
    · show 0 < max 1 _ ∧ max 1 (min _ maxBloomHashCount) ≤ maxBloomHashCount
      unfold maxBloomHashCount
      omega

variable {bloom : BloomBits}

lemma Sound.length_bytes (h : bloom.Sound) : bloom.bytes.length = (bloom.bitCount + 7) / 8 := by
  rw [bytes, Bloom.length_pack, h.length_bits]
  omega

lemma Sound.unpack_bytes (h : bloom.Sound) : Bloom.unpack bloom.bytes = bloom.bits := by
  refine Bloom.unpack_pack ?_
  have := h.length_bits
  omega

end BloomBits

/-! ## Encoder -/

def putBytes (value : List UInt8) : Except Error (List UInt8) :=
  if value.length < 2 ^ 32 then .ok (leBytes 4 value.length ++ value)
  else .error (.invalidOptions "table byte field exceeds u32::MAX")

def filterAbsent : ℕ := 0

/-- The tag of a filter of either kind. -/
def filterPresent : ℕ := 1

def prefixExtractorDisabled : ℕ := 0

def prefixExtractorFixedLen : ℕ := 1

def prefixExtractorSeparator : ℕ := 2

def prefixExtractorCustom : ℕ := 3

/-- The bits of a filter, after their number and the number of probes. -/
def putBloomBits (bloom : BloomBits) : Except Error (List UInt8) := do
  let field ← putBytes bloom.bytes
  return leBytes 8 bloom.bitCount ++ (leBytes 1 bloom.hashCount ++ field)

def putPrefixExtractor : PrefixExtractor → Except Error (List UInt8)
  | .disabled => .ok (leBytes 1 prefixExtractorDisabled)
  | .fixedLen len =>
    if len < 2 ^ 64 then .ok (leBytes 1 prefixExtractorFixedLen ++ leBytes 8 len)
    else .error (.invalidOptions "prefix extractor length exceeds u64::MAX")
  | .separator byte => .ok (leBytes 1 prefixExtractorSeparator ++ leBytes 1 byte.toNat)
  | .custom name => do
    let field ← putBytes name.toUTF8.data.toList
    return leBytes 1 prefixExtractorCustom ++ field

def putPointKeyFilter : Option PointKeyFilter → Except Error (List UInt8)
  | none => .ok (leBytes 1 filterAbsent)
  | some filter => do
    let field ← putBloomBits filter.bloom
    return leBytes 1 filterPresent ++ field

def putPrefixFilter : Option PrefixFilter → Except Error (List UInt8)
  | none => .ok (leBytes 1 filterAbsent)
  | some filter => do
    let extractor ← putPrefixExtractor filter.extractor
    let field ← putBloomBits filter.bloom
    return leBytes 1 filterPresent ++ (extractor ++ field)

def encodeFilterBlock (pointKeyFilter : Option PointKeyFilter)
    (prefixFilter : Option PrefixFilter) : Except Error (List UInt8) := do
  let first ← putPointKeyFilter pointKeyFilter
  let second ← putPrefixFilter prefixFilter
  return first ++ second

/-! ## Decoder -/

def readU8 : ByteCodec.Reader Error ℕ := readLe 1 (invalidTable "short u8")

def readU64 : ByteCodec.Reader Error ℕ := readLe 8 (invalidTable "short u64")

def readBytes : ByteCodec.Reader Error (List UInt8) := do
  let length ← readLe 4 (invalidTable "short u32")
  readExact length (invalidTable "short bytes")

def readBloomBits : ByteCodec.Reader Error BloomBits := do
  let bitCount ← readU64
  let hashCount ← readU8
  let bytes ← readBytes
  (BloomBits.fromParts bitCount hashCount bytes : Except Error BloomBits)

def readPrefixExtractor : ByteCodec.Reader Error PrefixExtractor := do
  let tag ← readU8
  if tag = prefixExtractorDisabled then return .disabled
  else if tag = prefixExtractorFixedLen then
    let len ← readU64
    return .fixedLen len
  else if tag = prefixExtractorSeparator then
    let byte ← readU8
    return .separator (.ofNat byte)
  else if tag = prefixExtractorCustom then
    let bytes ← readBytes
    match String.fromUTF8? ⟨bytes.toArray⟩ with
    | some name => return .custom name
    | none => throw (.invalidFormat "prefix extractor custom name is not utf-8")
  else throw (.invalidFormat ("unknown table prefix extractor tag " ++ toString tag))

def readPointKeyFilter : ByteCodec.Reader Error (Option PointKeyFilter) := do
  let tag ← readU8
  if tag = filterAbsent then return none
  else if tag = filterPresent then
    let bloom ← readBloomBits
    return some ⟨bloom⟩
  else throw (.invalidFormat ("unknown table point-key filter tag " ++ toString tag))

def readPrefixFilter : ByteCodec.Reader Error (Option PrefixFilter) := do
  let tag ← readU8
  if tag = filterAbsent then return none
  else if tag = filterPresent then
    let extractor ← readPrefixExtractor
    let bloom ← readBloomBits
    return some ⟨extractor, bloom⟩
  else throw (.invalidFormat ("unknown table prefix filter tag " ++ toString tag))

def decodeFilterBlock (bytes : List UInt8) :
    Except Error (Option PointKeyFilter × Option PrefixFilter) := do
  let (pointKeyFilter, rest) ← readPointKeyFilter bytes
  let (prefixFilter, rest) ← readPrefixFilter rest
  if rest ≠ [] then .error (invalidTable "trailing filter block bytes")
  else return (pointKeyFilter, prefixFilter)

/-! ## What is written is read back -/

variable {value bytes : List UInt8}

lemma reads_readBytes (h : putBytes value = .ok bytes) : Reads readBytes bytes value := by
  unfold putBytes at h
  split_ifs at h with hlt
  obtain rfl := Except.ok.inj h
  exact (reads_readLe hlt _).bind (reads_readExact value _)

/-- The bits of a filter are read back.

**Proof sketch.** The length of the byte field fits 32 bits, so the number of bits fits 64 and the
expected length of the field does not saturate. -/
lemma reads_readBloomBits {bloom : BloomBits} (hsound : bloom.Sound)
    (h : putBloomBits bloom = .ok bytes) : Reads readBloomBits bytes bloom := by
  obtain ⟨field, hfield, hbytes⟩ := bind_eq_ok.mp h
  obtain rfl := Except.ok.inj hbytes
  have hlength := hsound.length_bytes
  have hshort : bloom.bytes.length < 2 ^ 32 := by
    unfold putBytes at hfield
    split_ifs at hfield with hlt
    exact hlt
  have hhash : bloom.hashCount < 256 ^ 1 := by
    rcases hsound.probes with hempty | ⟨-, -, hle⟩
    · rw [hempty]
      decide
    · unfold maxBloomHashCount at hle
      omega
  have hparts : BloomBits.fromParts bloom.bitCount bloom.hashCount bloom.bytes = .ok bloom := by
    unfold BloomBits.fromParts
    rw [if_neg (by omega)]
    rcases hsound.probes with hempty | ⟨hbits, hpos, hle⟩
    · rw [hempty]
      rfl
    · rw [if_neg (by omega), if_neg (by omega), hsound.unpack_bytes]
  have hread : Reads readBloomBits (leBytes 8 bloom.bitCount ++ (leBytes 1 bloom.hashCount ++
      (field ++ []))) bloom := by
    refine (reads_readLe (by omega) _).bind ((reads_readLe hhash _).bind
      ((reads_readBytes hfield).bind ?_))
    intro rest
    rw [hparts]
    rfl
  rwa [append_nil] at hread

lemma reads_readPrefixExtractor {extractor : PrefixExtractor}
    (h : putPrefixExtractor extractor = .ok bytes) : Reads readPrefixExtractor bytes extractor := by
  cases extractor with
  | disabled =>
    obtain rfl := Except.ok.inj h
    exact (reads_readLe (by decide) _).bind (reads_pure _)
  | fixedLen len =>
    simp only [putPrefixExtractor] at h
    split_ifs at h with hlt
    obtain rfl := Except.ok.inj h
    exact (reads_readLe (by decide) _).bind ((reads_readLe hlt _).bind_pure _)
  | separator byte =>
    obtain rfl := Except.ok.inj h
    have hread := (reads_readLe (show byte.toNat < 256 ^ 1 from byte.toNat_lt)
      (invalidTable "short u8")).bind_pure fun n => PrefixExtractor.separator (.ofNat n)
    rw [UInt8.ofNat_toNat] at hread
    exact (reads_readLe (by decide) _).bind hread
  | custom name =>
    obtain ⟨field, hfield, hbytes⟩ := bind_eq_ok.mp h
    obtain rfl := Except.ok.inj hbytes
    rw [← append_nil field]
    refine (reads_readLe (by decide) _).bind ((reads_readBytes hfield).bind ?_)
    rw [fromUTF8?_toUTF8]
    exact reads_pure _

lemma reads_readPointKeyFilter {filter : Option PointKeyFilter}
    (hsound : ∀ present, filter = some present → present.bloom.Sound)
    (h : putPointKeyFilter filter = .ok bytes) : Reads readPointKeyFilter bytes filter := by
  cases filter with
  | none =>
    obtain rfl := Except.ok.inj h
    exact (reads_readLe (by decide) _).bind (reads_pure _)
  | some filter =>
    obtain ⟨field, hfield, hbytes⟩ := bind_eq_ok.mp h
    obtain rfl := Except.ok.inj hbytes
    exact (reads_readLe (by decide) _).bind
      ((reads_readBloomBits (hsound filter rfl) hfield).bind_pure _)

lemma reads_readPrefixFilter {filter : Option PrefixFilter}
    (hsound : ∀ present, filter = some present → present.bloom.Sound)
    (h : putPrefixFilter filter = .ok bytes) : Reads readPrefixFilter bytes filter := by
  cases filter with
  | none =>
    obtain rfl := Except.ok.inj h
    exact (reads_readLe (by decide) _).bind (reads_pure _)
  | some filter =>
    obtain ⟨extractor, hextractor, h⟩ := bind_eq_ok.mp h
    obtain ⟨field, hfield, hbytes⟩ := bind_eq_ok.mp h
    obtain rfl := Except.ok.inj hbytes
    exact (reads_readLe (by decide) _).bind ((reads_readPrefixExtractor hextractor).bind
      ((reads_readBloomBits (hsound filter rfl) hfield).bind_pure _))

/-- The filters over some records are read back as they were written. They do not deny a key of the
records, the prefix that is taken from it, or, for a table with them, a prefix of it of any length.
-/
theorem decodeFilterBlock_allows {options : TableWriteOptions} {records : List PointRecord}
    {level : ℕ} {record : PointRecord}
    (h : encodeFilterBlock (buildPointKeyFilter options records level)
      (buildPrefixFilter options records level) = .ok bytes) (hmem : record ∈ records) :
    ∃ pointKeyFilter prefixFilter, decodeFilterBlock bytes = .ok (pointKeyFilter, prefixFilter) ∧
      pointKeyFilter = buildPointKeyFilter options records level ∧
      prefixFilter = buildPrefixFilter options records level ∧
      (∀ filter, pointKeyFilter = some filter → filter.mayContainKey record.userKey = true) ∧
      (∀ filter taken, prefixFilter = some filter →
        filter.extractor.extract record.userKey = some taken →
          filter.mayContainPrefix taken = true) ∧
      ∀ table : Table, table.prefixFilter = prefixFilter → ∀ query extractor,
        query <+: record.userKey → table.mayContainPrefix query extractor = true := by
  obtain ⟨first, hfirst, h⟩ := bind_eq_ok.mp h
  obtain ⟨second, hsecond, h⟩ := bind_eq_ok.mp h
  obtain rfl := Except.ok.inj h
  have hprefix : ∀ filter, buildPrefixFilter options records level = some filter →
      ∃ bits, filter.bloom = .fromItems ((records.map PointRecord.userKey).filterMap
        filter.extractor.extract) bits := by
    intro filter hfilter
    unfold buildPrefixFilter at hfilter
    split at hfilter
    · cases hfilter
    · unfold PrefixFilter.fromKeys at hfilter
      split_ifs at hfilter
      obtain rfl := Option.some.inj hfilter
      exact ⟨_, rfl⟩
  have hpoint : ∀ filter, buildPointKeyFilter options records level = some filter →
      filter.bloom.Sound := by
    intro filter hfilter
    unfold buildPointKeyFilter at hfilter
    split at hfilter
    · cases hfilter
    · obtain rfl := Option.some.inj hfilter
      exact BloomBits.sound_fromItems _ _
  have hreadFirst := reads_readPointKeyFilter hpoint hfirst second
  have hreadSecond := reads_readPrefixFilter (fun filter hfilter => by
    obtain ⟨bits, heq⟩ := hprefix filter hfilter
    exact heq ▸ BloomBits.sound_fromItems _ _) hsecond []
  rw [append_nil] at hreadSecond
  refine ⟨_, _, ?_, rfl, rfl, fun filter => buildPointKeyFilter_allows hmem filter, ?_, ?_⟩
  · rw [decodeFilterBlock, hreadFirst, ok_bind]
    dsimp only
    rw [hreadSecond]
    rfl
  · intro filter taken hfilter htaken
    obtain ⟨bits, heq⟩ := hprefix filter hfilter
    rw [PrefixFilter.mayContainPrefix, heq]
    exact BloomBits.mayContain_fromItems bits
      (mem_filterMap.mpr ⟨_, mem_map_of_mem hmem, htaken⟩)
  · intro table htable query extractor hquery
    have hallow := @buildPrefixFilter_allows options _ level _ _ extractor hmem hquery
    unfold Table.mayContainPrefix
    rw [htable]
    split
    · rfl
    · rename_i allowed hresult
      cases allowed with
      | false => exact absurd hresult hallow
      | true => rfl

theorem decodeFilterBlock_allows_deletion :
    let options : TableWriteOptions := ⟨4096, .bloom 8, .separator 47, .bloom 8, .uniform⟩
    let record : PointRecord :=
      { internalKey :=
          { userKey := [97, 47, 98], sequence := 1, kind := .pointDelete, batchIndex := 0 }
        value := none }
    ∃ bytes pointKeyFilter prefixFilter,
      encodeFilterBlock (buildPointKeyFilter options [record] 1)
        (buildPrefixFilter options [record] 1) = .ok bytes ∧
      decodeFilterBlock bytes = .ok (pointKeyFilter, prefixFilter) ∧
      ∀ table : Table, table.prefixFilter = prefixFilter →
        table.mayContainPrefix [97] (.separator 47) = true := by
  intro options record
  have hencode : encodeFilterBlock (buildPointKeyFilter options [record] 1)
      (buildPrefixFilter options [record] 1) =
      .ok [1, 8, 0, 0, 0, 0, 0, 0, 0, 5, 1, 0, 0, 0, 227,
        1, 2, 47, 8, 0, 0, 0, 0, 0, 0, 0, 5, 1, 0, 0, 0, 62] := by decide +kernel
  obtain ⟨pointKeyFilter, prefixFilter, hdecode, -, -, -, -, hallow⟩ :=
    decodeFilterBlock_allows hencode mem_cons_self
  exact ⟨_, pointKeyFilter, prefixFilter, hencode, hdecode, fun table htable =>
    hallow table htable [97] (.separator 47) (by decide)⟩

end TrineKv
