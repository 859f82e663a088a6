import TrineKv.Lib.Bloom
import TrineKv.Keys.Record

/-!
# Point-key and prefix filters

Tables and blocks carry Bloom filters over their keys and over the prefixes of their keys, which
never say wrongly that something is absent. The bit array is a list of bits, of which the source
packs eight into a byte; bit counts do not saturate here.

## Main results

* `PointKeyFilter.mayContainKey_fromKeys`: no key is missed.
-/

namespace TrineKv

open List

/-! ## Prefix extraction -/

/-- How filter prefixes are taken from user keys. -/
inductive PrefixExtractor where
  | fixedLen (len : ℕ)
  | separator (byte : UInt8)
  | custom (name : String)
  | disabled
  deriving DecidableEq, Repr

namespace PrefixExtractor

def firstBytes (len : ℕ) (bytes : Key) : Option Key :=
  if len ≤ bytes.length then some (bytes.take len) else none

def throughSeparator (separator : UInt8) : Key → Option Key
  | [] => none
  | byte :: rest =>
    if byte = separator then some [byte] else (throughSeparator separator rest).map (byte :: ·)

def extract (extractor : PrefixExtractor) (key : Key) : Option Key :=
  match extractor with
  | .fixedLen len => firstBytes len key
  | .separator byte => throughSeparator byte key
  | .custom _ => none
  | .disabled => none

def queryFilterPrefix (extractor : PrefixExtractor) (queryPrefix : Key) : Option Key :=
  match extractor with
  | .fixedLen len => firstBytes len queryPrefix
  | .separator byte => throughSeparator byte queryPrefix
  | .custom _ => none
  | .disabled => none

def supportsPrefixFilter : PrefixExtractor → Bool
  | .fixedLen _ => true
  | .separator _ => true
  | .custom _ => false
  | .disabled => false

lemma firstBytes_of_isPrefix {len : ℕ} {q k p : Key} (h : q <+: k)
    (hq : firstBytes len q = some p) : firstBytes len k = some p := by
  obtain ⟨t, rfl⟩ := h
  unfold firstBytes at hq ⊢
  split_ifs at hq with hlen
  obtain rfl := Option.some.inj hq
  rw [if_pos (by simp only [length_append]; omega), take_append_of_le_length hlen]

lemma throughSeparator_of_isPrefix {sep : UInt8} {q k p : Key} (h : q <+: k)
    (hq : throughSeparator sep q = some p) : throughSeparator sep k = some p := by
  obtain ⟨t, rfl⟩ := h
  induction q generalizing p with
  | nil => simp [throughSeparator] at hq
  | cons byte rest ih =>
    simp only [throughSeparator, cons_append] at hq ⊢
    split_ifs at hq ⊢ with hsep
    · exact hq
    · obtain ⟨p', hp', rfl⟩ := Option.map_eq_some_iff.mp hq
      rw [ih hp']
      rfl

lemma extract_of_isPrefix {extractor : PrefixExtractor} {q k p : Key} (h : q <+: k)
    (hq : extractor.queryFilterPrefix q = some p) : extractor.extract k = some p := by
  cases extractor with
  | fixedLen len => exact firstBytes_of_isPrefix h hq
  | separator byte => exact throughSeparator_of_isPrefix h hq
  | custom name => simp [queryFilterPrefix] at hq
  | disabled => simp [queryFilterPrefix] at hq

end PrefixExtractor

/-! ## Bloom filters -/

def fnvOffsetA : UInt64 := 0xcbf29ce484222325

def fnvOffsetB : UInt64 := 0x84222325cbf29ce4

def fnvPrime : UInt64 := 0x00000100000001b3

def maxBloomHashCount : ℕ := 30

/-- The byte-wise hash behind the filters and the lookup index of data blocks. -/
def bloomHash (seed : UInt64) (item : Key) : UInt64 :=
  item.foldl (fun hash byte => (hash ^^^ byte.toUInt64) * fnvPrime) seed

def bloomHashCount (bitsPerItem : ℕ) : ℕ :=
  max 1 (min (bitsPerItem * 69 / 100) maxBloomHashCount)

def bloomVisitIndexes (bitCount hashCount : ℕ) (item : Key) : List ℕ :=
  let hashA := bloomHash fnvOffsetA item
  let hashB := bloomHash fnvOffsetB item ||| 1
  (List.range hashCount).map fun index => (hashA + UInt64.ofNat index * hashB).toNat % bitCount

/-- An array of bits with its number of probes; an empty filter has no bits. -/
structure BloomBits where
  bitCount : ℕ
  hashCount : ℕ
  bits : List Bool
  deriving DecidableEq, Repr

namespace BloomBits

/-- The filter without items. -/
def empty : BloomBits := ⟨0, 0, []⟩

/-- The filter over the given items. -/
def fromItems (items : List Key) (bitsPerItem : ℕ) : BloomBits :=
  if items.isEmpty then empty
  else
    let bitCount := max (items.length * bitsPerItem) 1
    let hashCount := bloomHashCount bitsPerItem
    let bytes := (bitCount + 7) / 8
    { bitCount, hashCount
      bits := Bloom.insertAll (bloomVisitIndexes bitCount hashCount)
        (List.replicate (8 * bytes) false) items }

def mayContain (bloom : BloomBits) (item : Key) : Bool :=
  if bloom.bitCount = 0 then false
  else Bloom.testBits bloom.bits (bloomVisitIndexes bloom.bitCount bloom.hashCount item)

lemma bloomVisitIndexes_lt {bitCount hashCount i : ℕ} {item : Key} (hpos : 0 < bitCount)
    (h : i ∈ bloomVisitIndexes bitCount hashCount item) : i < bitCount := by
  simp only [bloomVisitIndexes, mem_map] at h
  obtain ⟨index, -, rfl⟩ := h
  exact Nat.mod_lt _ hpos

/-- No item of the filter is reported as absent. -/
theorem mayContain_fromItems {items : List Key} {item : Key} (bitsPerItem : ℕ)
    (hmem : item ∈ items) : (fromItems items bitsPerItem).mayContain item = true := by
  have hne : items.isEmpty = false := by
    cases items with
    | nil => simp at hmem
    | cons head tail => rfl
  simp only [fromItems, hne, Bool.false_eq_true, if_false, mayContain]
  rw [if_neg (by omega)]
  apply Bloom.testBits_insertAll _ hmem
  intro i hi
  have hlt := bloomVisitIndexes_lt (by omega) hi
  simp only [length_replicate]
  omega

end BloomBits

structure PointKeyFilter where
  bloom : BloomBits
  deriving DecidableEq, Repr

namespace PointKeyFilter

def fromKeys (keys : List Key) (bitsPerKey : ℕ) : PointKeyFilter :=
  ⟨BloomBits.fromItems keys bitsPerKey⟩

def mayContainKey (filter : PointKeyFilter) (key : Key) : Bool :=
  filter.bloom.mayContain key

/-- No key of the filter is reported as absent. -/
theorem mayContainKey_fromKeys {keys : List Key} {key : Key} (bitsPerKey : ℕ)
    (hmem : key ∈ keys) : (fromKeys keys bitsPerKey).mayContainKey key = true :=
  BloomBits.mayContain_fromItems bitsPerKey hmem

end PointKeyFilter

structure PrefixFilter where
  extractor : PrefixExtractor
  bloom : BloomBits
  deriving DecidableEq, Repr

namespace PrefixFilter

def fromKeys (extractor : PrefixExtractor) (keys : List Key) (bitsPerPrefix : ℕ) :
    Option PrefixFilter :=
  if !extractor.supportsPrefixFilter then none
  else some ⟨extractor, BloomBits.fromItems (keys.filterMap extractor.extract) bitsPerPrefix⟩

def mayContainPrefix (filter : PrefixFilter) (pref : Key) : Bool :=
  filter.bloom.mayContain pref

/-- What the filter, if present, says about the keys with a queried prefix; `none` when it can
say nothing. -/
def result (filter : Option PrefixFilter) (queryPrefix : Key) (extractor : PrefixExtractor) :
    Option Bool := do
  let filter ← filter
  if filter.extractor ≠ extractor then none
  else
    let filterPrefix ← extractor.queryFilterPrefix queryPrefix
    some (filter.mayContainPrefix filterPrefix)

/-- If one of the keys starts with the queried prefix, the filter over the keys does not refuse
the query. -/
theorem result_fromKeys_ne_false {extractor queryExtractor : PrefixExtractor} {keys : List Key}
    {key queryPrefix : Key} (bitsPerPrefix : ℕ) (hmem : key ∈ keys)
    (hpre : queryPrefix <+: key) :
    result (fromKeys extractor keys bitsPerPrefix) queryPrefix queryExtractor ≠ some false := by
  unfold fromKeys
  split_ifs with hsupport
  · simp [result]
  · simp only [result, Option.bind_eq_bind, Option.bind_some]
    split_ifs with hext
    · simp
    · obtain rfl : extractor = queryExtractor := by simpa using hext
      cases hq : extractor.queryFilterPrefix queryPrefix with
      | none => simp
      | some filterPrefix =>
        have hextract := PrefixExtractor.extract_of_isPrefix hpre hq
        have hin : filterPrefix ∈ keys.filterMap extractor.extract :=
          mem_filterMap.mpr ⟨key, hmem, hextract⟩
        simp [mayContainPrefix, BloomBits.mayContain_fromItems bitsPerPrefix hin]

end PrefixFilter

end TrineKv
