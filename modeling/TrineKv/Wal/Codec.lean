import TrineKv.Keys.Record
import TrineKv.Lib.ByteCodec
import TrineKv.Lib.FrameLog

/-!
# The write-ahead log codec

A frame is a header with magic number, format version, payload length and two checksums, and a
payload with the sequence and the operations. The decoder stops at a frame that is cut off, which is
what a crash leaves, and refuses everything else that is not a frame.

## Main results

* `decodeFramesAfter_written`: what was written is decoded.
-/

namespace TrineKv.Wal

open List
open UInt32 (ofNat toNat_ofNat')

open ByteCodec FrameLog

/-! ## Checksum -/

def crc32cPolyReversed : UInt32 := 0x82f63b78

/-- The entry of the checksum table for a byte: eight steps of the shift register. -/
def crc32cTableEntry (index : UInt32) : UInt32 :=
  (fun crc : UInt32 =>
    if crc &&& 1 = 0 then crc >>> 1 else (crc >>> 1) ^^^ crc32cPolyReversed)^[8] index

def crc32c (bytes : List UInt8) : UInt32 :=
  ~~~(bytes.foldl
    (fun crc byte => (crc >>> 8) ^^^ crc32cTableEntry ((crc ^^^ byte.toUInt32) &&& 0xff)) (~~~0))

-- The standard check value, over the digits from one to nine.
example : crc32c [0x31, 0x32, 0x33, 0x34, 0x35, 0x36, 0x37, 0x38, 0x39] = 0xe3069283 := by decide

/-! ## Constants -/

/-- The number every frame starts with. -/
def walMagic : UInt32 := 0x5452574c

def walFormatVersion : UInt16 := 2

/-- The length of a frame header. -/
def headerLen : ℕ := 18

def maxWalFramePayloadBytes : ℕ := 64 * 1024 * 1024

def minWalOperationBytes : ℕ := 7

/-- The tag of a put. -/
def opInsert : UInt8 := 1

/-- The tag of a deletion. -/
def opRemove : UInt8 := 2

/-- The tag of a range deletion. -/
def opRemoveRange : UInt8 := 3

/-- The tag of a missing bound. -/
def boundUnbounded : UInt8 := 0

/-- The tag of an inclusive bound. -/
def boundIncluded : UInt8 := 1

/-- The tag of an exclusive bound. -/
def boundExcluded : UInt8 := 2

/-- A logged commit. -/
structure WalBatch where
  sequence : UInt64
  operations : List BatchOperation
  deriving DecidableEq, Repr

/-- The error for bytes that are not a payload. -/
def invalidWal (message : String) : Error := .invalidFormat ("invalid WAL: " ++ message)

/-! ## Encoder -/

def putBytes (value : List UInt8) : Except Error (List UInt8) :=
  if value.length < 2 ^ 32 then .ok (leBytes 4 value.length ++ value)
  else .error (.invalidOptions "WAL byte field exceeds u32::MAX")

def putBound : Bound Key → Except Error (List UInt8)
  | .unbounded => .ok [boundUnbounded]
  | .included value => do
    let bytes ← putBytes value
    return boundIncluded :: bytes
  | .excluded value => do
    let bytes ← putBytes value
    return boundExcluded :: bytes

def bucketBytes (bucket : String) : List UInt8 := bucket.toUTF8.data.toList

def putOperation : BatchOperation → Except Error (List UInt8)
  | .put bucket key value => do
    let bucketField ← putBytes (bucketBytes bucket)
    let keyField ← putBytes key
    let valueField ← putBytes value
    return opInsert :: (bucketField ++ (keyField ++ valueField))
  | .delete bucket key => do
    let bucketField ← putBytes (bucketBytes bucket)
    let keyField ← putBytes key
    return opRemove :: (bucketField ++ keyField)
  | .deleteRange bucket range => do
    let bucketField ← putBytes (bucketBytes bucket)
    let startField ← putBound range.start
    let endField ← putBound range.end_
    return opRemoveRange :: (bucketField ++ (startField ++ endField))

def encodePayload (sequence : UInt64) (operations : List BatchOperation) :
    Except Error (List UInt8) :=
  if operations.length < 2 ^ 32 then do
    let fields ← operations.mapM putOperation
    return leBytes 8 sequence.toNat ++ (leBytes 4 operations.length ++ fields.flatten)
  else .error (.invalidOptions "WAL operation count exceeds u32::MAX")

/-- The checksum of a header, over its other fields. -/
def headerChecksum (payloadLen payloadChecksum : UInt32) : UInt32 :=
  crc32c (leBytes 4 walMagic.toNat ++ leBytes 2 walFormatVersion.toNat ++
    leBytes 4 payloadLen.toNat ++ leBytes 4 payloadChecksum.toNat)

def frameHeader (payloadLen payloadChecksum : UInt32) : List UInt8 :=
  leBytes 4 walMagic.toNat ++ (leBytes 2 walFormatVersion.toNat ++
    (leBytes 4 payloadLen.toNat ++ (leBytes 4 (headerChecksum payloadLen payloadChecksum).toNat ++
      leBytes 4 payloadChecksum.toNat)))

def encodeBatchFrame (sequence : UInt64) (operations : List BatchOperation) :
    Except Error (List UInt8) := do
  let payload ← encodePayload sequence operations
  if maxWalFramePayloadBytes < payload.length then
    throw (.invalidOptions
      s!"WAL payload length {payload.length} exceeds maximum {maxWalFramePayloadBytes}")
  let payloadChecksum := crc32c payload
  if 2 ^ 32 ≤ payload.length then
    throw (.invalidOptions "WAL payload exceeds u32::MAX bytes")
  return frameHeader (ofNat payload.length) payloadChecksum ++ payload

/-! ## Decoder -/

def readU16At (bytes : List UInt8) (offset : ℕ) : Except Error UInt16 :=
  if offset + 2 ≤ bytes.length then .ok (UInt16.ofNat (leValue ((bytes.drop offset).take 2)))
  else .error (invalidWal "short u16")

def readU32At (bytes : List UInt8) (offset : ℕ) : Except Error UInt32 :=
  if offset + 4 ≤ bytes.length then .ok (ofNat (leValue ((bytes.drop offset).take 4)))
  else .error (invalidWal "short u32")

def readU64At (bytes : List UInt8) (offset : ℕ) : Except Error UInt64 :=
  if offset + 8 ≤ bytes.length then .ok (UInt64.ofNat (leValue ((bytes.drop offset).take 8)))
  else .error (invalidWal "short u64")

/-- A reader of a payload: the state is what lies behind the offset of the source's cursor. -/
abbrev Cursor (α : Type) := ByteCodec.Reader Error α

def readU8 : Cursor UInt8 := fun bytes =>
  match bytes with
  | byte :: rest => .ok (byte, rest)
  | [] => .error (invalidWal "short u8")

/-- Take a 32-bit number. -/
def readU32 : Cursor UInt32 := fun bytes => do
  let value ← readU32At bytes 0
  return (value, bytes.drop 4)

/-- Take a 64-bit number. -/
def readU64 : Cursor UInt64 := fun bytes => do
  let value ← readU64At bytes 0
  return (value, bytes.drop 8)

def readSlice (length : ℕ) : Cursor (List UInt8) := fun bytes =>
  if length ≤ bytes.length then .ok (bytes.take length, bytes.drop length)
  else .error (invalidWal "short bytes")

def readBytes : Cursor (List UInt8) := do
  let length ← readU32
  readSlice length.toNat

def readBound : Cursor (Bound Key) := do
  let tag ← readU8
  if tag = boundUnbounded then return .unbounded
  else if tag = boundIncluded then
    let value ← readBytes
    return .included value
  else if tag = boundExcluded then
    let value ← readBytes
    return .excluded value
  else throw (.invalidFormat s!"unknown WAL range bound tag {tag}")

def readBucket : Cursor String := do
  let bytes ← readBytes
  match String.fromUTF8? ⟨bytes.toArray⟩ with
  | some bucket => return bucket
  | none => throw (.invalidFormat "WAL bucket name is not valid UTF-8")

def readOperation : Cursor BatchOperation := do
  let tag ← readU8
  let bucket ← readBucket
  if tag = opInsert then
    let key ← readBytes
    let value ← readBytes
    return .put bucket key value
  else if tag = opRemove then
    let key ← readBytes
    return .delete bucket key
  else if tag = opRemoveRange then
    let start ← readBound
    let end_ ← readBound
    return .deleteRange bucket ⟨start, end_⟩
  else throw (.invalidFormat s!"unknown WAL operation tag {tag}")

/-- Take a sequence and a checked number of operations. -/
def readBatch : Cursor WalBatch := do
  let sequence ← readU64
  let count ← readU32
  let remaining ← get
  if remaining.length / minWalOperationBytes < count.toNat then
    throw (.invalidFormat "WAL operation count exceeds payload bytes")
  let operations ← readMany readOperation count.toNat
  return ⟨sequence, operations⟩

def decodePayload (payload : List UInt8) : Except Error WalBatch := do
  let (batch, rest) ← readBatch payload
  if rest.isEmpty then return batch
  else throw (.invalidFormat "WAL payload has trailing bytes")

def payloadSequence (payload : List UInt8) : Except Error UInt64 := readU64At payload 0

def payloadAfter (replayFloor : UInt64) (payload : List UInt8) : Except Error (List WalBatch) := do
  let sequence ← payloadSequence payload
  if replayFloor < sequence then
    let batch ← decodePayload payload
    return [batch]
  else return []

/-- The payload of the first frame and what follows it; nothing when the frame is cut off. -/
def framePayload (bytes : List UInt8) : Except Error (Option (List UInt8 × List UInt8)) :=
  if bytes.length < headerLen then .ok none
  else do
    let magic ← readU32At bytes 0
    let version ← readU16At bytes 4
    let payloadLen ← readU32At bytes 6
    let actualHeaderChecksum ← readU32At bytes 10
    let payloadChecksum ← readU32At bytes 14
    if magic ≠ walMagic then throw (.corruption "WAL magic mismatch")
    if version ≠ walFormatVersion then
      throw (.unsupportedFormat s!"unsupported WAL version {version}")
    if actualHeaderChecksum ≠ headerChecksum payloadLen payloadChecksum then
      throw (.corruption "WAL header checksum mismatch")
    if maxWalFramePayloadBytes < payloadLen.toNat then
      throw (.invalidFormat
        s!"WAL payload length {payloadLen.toNat} exceeds maximum {maxWalFramePayloadBytes}")
    let payloadEnd := headerLen + payloadLen.toNat
    if bytes.length < payloadEnd then return none
    let payload := (bytes.drop headerLen).take payloadLen.toNat
    if crc32c payload ≠ payloadChecksum then
      throw (.corruption "WAL payload checksum mismatch")
    return some (payload, bytes.drop payloadEnd)

/-- One round of the decoding loop, at the bytes behind the last frame. -/
def nextFrame (replayFloor : UInt64) (bytes : List UInt8) :
    Except Error (Option (List WalBatch × List UInt8)) := do
  match ← framePayload bytes with
  | none => return none
  | some (payload, rest) =>
    let batches ← payloadAfter replayFloor payload
    return some (batches, rest)

/-- Every round takes at least a header, so the length of the file bounds the rounds. -/
def decodeFramesAfter (bytes : List UInt8) (replayFloor : UInt64) : Except Error (List WalBatch) :=
  readLog (nextFrame replayFloor) bytes.length bytes

/-! ## Numbers and byte fields are read back -/

variable {front rest value bytes payload : List UInt8} {offset : ℕ}
  {operations : List BatchOperation} {sequence : UInt64} {batch : WalBatch}
  {batches : List WalBatch}

lemma take_drop_append {field : List UInt8} {width : ℕ}
    (hoffset : front.length = offset) (hwidth : field.length = width) :
    ((front ++ (field ++ rest)).drop offset).take width = field := by
  subst hoffset hwidth
  rw [drop_left, take_left]

lemma readU16At_append (h : front.length = offset)
    (value : UInt16) :
    readU16At (front ++ (leBytes 2 value.toNat ++ rest)) offset = .ok value := by
  have hlength : offset + 2 ≤ (front ++ (leBytes 2 value.toNat ++ rest)).length := by
    simp only [length_append, length_leBytes]
    omega
  rw [readU16At, if_pos hlength, take_drop_append h (length_leBytes 2 _),
    leValue_leBytes value.toNat_lt, UInt16.ofNat_toNat]

lemma readU32At_append (h : front.length = offset)
    (value : UInt32) :
    readU32At (front ++ (leBytes 4 value.toNat ++ rest)) offset = .ok value := by
  have hlength : offset + 4 ≤ (front ++ (leBytes 4 value.toNat ++ rest)).length := by
    simp only [length_append, length_leBytes]
    omega
  rw [readU32At, if_pos hlength, take_drop_append h (length_leBytes 4 _),
    leValue_leBytes value.toNat_lt, UInt32.ofNat_toNat]

lemma readU64At_append (h : front.length = offset)
    (value : UInt64) :
    readU64At (front ++ (leBytes 8 value.toNat ++ rest)) offset = .ok value := by
  have hlength : offset + 8 ≤ (front ++ (leBytes 8 value.toNat ++ rest)).length := by
    simp only [length_append, length_leBytes]
    omega
  rw [readU64At, if_pos hlength, take_drop_append h (length_leBytes 8 _),
    leValue_leBytes value.toNat_lt, UInt64.ofNat_toNat]

lemma reads_readU8 (byte : UInt8) : Reads readU8 [byte] byte := fun _ => rfl

lemma reads_readU32 (value : UInt32) : Reads readU32 (leBytes 4 value.toNat) value := by
  intro rest
  have hread : readU32At (leBytes 4 value.toNat ++ rest) 0 = .ok value :=
    @readU32At_append [] rest 0 rfl value
  have hdrop : (leBytes 4 value.toNat ++ rest).drop 4 = rest := drop_left' (length_leBytes 4 _)
  rw [readU32, hread, hdrop]
  rfl

lemma reads_readU64 (value : UInt64) : Reads readU64 (leBytes 8 value.toNat) value := by
  intro rest
  have hread : readU64At (leBytes 8 value.toNat ++ rest) 0 = .ok value :=
    @readU64At_append [] rest 0 rfl value
  have hdrop : (leBytes 8 value.toNat ++ rest).drop 8 = rest := drop_left' (length_leBytes 8 _)
  rw [readU64, hread, hdrop]
  rfl

lemma reads_readSlice (bytes : List UInt8) : Reads (readSlice bytes.length) bytes bytes := by
  intro rest
  rw [readSlice, if_pos (by simp), take_left, drop_left]

lemma putBytes_eq_ok (h : putBytes value = .ok bytes) :
    value.length < 2 ^ 32 ∧ bytes = leBytes 4 value.length ++ value := by
  rw [putBytes] at h
  split_ifs at h with hlt
  exact ⟨hlt, (Except.ok.inj h).symm⟩

lemma reads_readBytes (h : putBytes value = .ok bytes) :
    Reads readBytes bytes value := by
  obtain ⟨hlt, rfl⟩ := putBytes_eq_ok h
  have hlength : (ofNat value.length).toNat = value.length := by
    rw [toNat_ofNat', Nat.mod_eq_of_lt hlt]
  have hread := reads_readU32 (ofNat value.length)
  rw [hlength] at hread
  refine hread.bind ?_
  rw [hlength]
  exact reads_readSlice value

/-! ## Operations and payloads are read back -/

lemma reads_readBound {bound : Bound Key} (h : putBound bound = .ok bytes) :
    Reads readBound bytes bound := by
  cases bound with
  | unbounded =>
    obtain rfl := Except.ok.inj h
    exact (reads_readU8 boundUnbounded).bind (reads_pure _)
  | included key =>
    obtain ⟨field, hfield, hbytes⟩ := bind_eq_ok.mp h
    obtain rfl := Except.ok.inj hbytes
    exact (reads_readU8 boundIncluded).bind ((reads_readBytes hfield).bind_pure Bound.included)
  | excluded key =>
    obtain ⟨field, hfield, hbytes⟩ := bind_eq_ok.mp h
    obtain rfl := Except.ok.inj hbytes
    exact (reads_readU8 boundExcluded).bind ((reads_readBytes hfield).bind_pure Bound.excluded)

lemma reads_readBucket {bucket : String}
    (h : putBytes (bucketBytes bucket) = .ok bytes) : Reads readBucket bytes bucket := by
  have hread : Reads readBucket (bytes ++ []) bucket := by
    refine (reads_readBytes h).bind ?_
    rw [bucketBytes, fromUTF8?_toUTF8]
    exact reads_pure bucket
  rwa [append_nil] at hread

lemma reads_readOperation {operation : BatchOperation}
    (h : putOperation operation = .ok bytes) : Reads readOperation bytes operation := by
  cases operation with
  | put bucket key value =>
    obtain ⟨bucketField, hbucket, h⟩ := bind_eq_ok.mp h
    obtain ⟨keyField, hkey, h⟩ := bind_eq_ok.mp h
    obtain ⟨valueField, hvalue, h⟩ := bind_eq_ok.mp h
    obtain rfl := Except.ok.inj h
    exact (reads_readU8 opInsert).bind ((reads_readBucket hbucket).bind
      ((reads_readBytes hkey).bind ((reads_readBytes hvalue).bind_pure _)))
  | delete bucket key =>
    obtain ⟨bucketField, hbucket, h⟩ := bind_eq_ok.mp h
    obtain ⟨keyField, hkey, h⟩ := bind_eq_ok.mp h
    obtain rfl := Except.ok.inj h
    exact (reads_readU8 opRemove).bind ((reads_readBucket hbucket).bind
      ((reads_readBytes hkey).bind_pure _))
  | deleteRange bucket range =>
    obtain ⟨bucketField, hbucket, h⟩ := bind_eq_ok.mp h
    obtain ⟨startField, hstart, h⟩ := bind_eq_ok.mp h
    obtain ⟨endField, hend, h⟩ := bind_eq_ok.mp h
    obtain rfl := Except.ok.inj h
    exact (reads_readU8 opRemoveRange).bind ((reads_readBucket hbucket).bind
      ((reads_readBound hstart).bind ((reads_readBound hend).bind_pure _)))

lemma four_le_of_putBytes (h : putBytes value = .ok bytes) :
    4 ≤ bytes.length := by
  obtain ⟨-, rfl⟩ := putBytes_eq_ok h
  simp

lemma one_le_of_putBound {bound : Bound Key} (h : putBound bound = .ok bytes) :
    1 ≤ bytes.length := by
  cases bound with
  | unbounded =>
    obtain rfl := Except.ok.inj h
    exact le_rfl
  | included key | excluded key =>
    obtain ⟨field, -, hbytes⟩ := bind_eq_ok.mp h
    obtain rfl := Except.ok.inj hbytes
    simp

/-- The least length that the decoder allows for is one: every operation takes as many bytes. -/
lemma minWalOperationBytes_le {operation : BatchOperation}
    (h : putOperation operation = .ok bytes) : minWalOperationBytes ≤ bytes.length := by
  have hmin : minWalOperationBytes = 7 := rfl
  cases operation with
  | put bucket key value =>
    obtain ⟨bucketField, hbucket, h⟩ := bind_eq_ok.mp h
    obtain ⟨keyField, hkey, h⟩ := bind_eq_ok.mp h
    obtain ⟨valueField, -, h⟩ := bind_eq_ok.mp h
    obtain rfl := Except.ok.inj h
    have := four_le_of_putBytes hbucket
    have := four_le_of_putBytes hkey
    simp only [length_cons, length_append]
    omega
  | delete bucket key =>
    obtain ⟨bucketField, hbucket, h⟩ := bind_eq_ok.mp h
    obtain ⟨keyField, hkey, h⟩ := bind_eq_ok.mp h
    obtain rfl := Except.ok.inj h
    have := four_le_of_putBytes hbucket
    have := four_le_of_putBytes hkey
    simp only [length_cons, length_append]
    omega
  | deleteRange bucket range =>
    obtain ⟨bucketField, hbucket, h⟩ := bind_eq_ok.mp h
    obtain ⟨startField, hstart, h⟩ := bind_eq_ok.mp h
    obtain ⟨endField, hend, h⟩ := bind_eq_ok.mp h
    obtain rfl := Except.ok.inj h
    have := four_le_of_putBytes hbucket
    have := one_le_of_putBound hstart
    have := one_le_of_putBound hend
    simp only [length_cons, length_append]
    omega

lemma length_fields {fields : List (List UInt8)}
    (h : List.Forall₂ (fun field operation => putOperation operation = .ok field)
      fields operations) :
    operations.length * minWalOperationBytes ≤ fields.flatten.length := by
  induction h with
  | nil => simp
  | cons hfield _ ih =>
    have := minWalOperationBytes_le hfield
    simp only [length_cons, flatten_cons, length_append, add_one_mul]
    omega

lemma encodePayload_eq_ok (h : encodePayload sequence operations = .ok payload) :
    operations.length < 2 ^ 32 ∧ ∃ fields,
      List.Forall₂ (fun field operation => putOperation operation = .ok field) fields operations ∧
        payload = leBytes 8 sequence.toNat ++ (leBytes 4 operations.length ++ fields.flatten) := by
  rw [encodePayload] at h
  split_ifs at h with hlt
  obtain ⟨fields, hfields, h⟩ := bind_eq_ok.mp h
  exact ⟨hlt, fields, forall₂_of_mapM_eq_ok hfields, (Except.ok.inj h).symm⟩

/-- A payload is read back, whatever follows it.

**Proof sketch.** The sequence and the count are read back by their own lemmas. The check of the
count against the remaining bytes passes because no operation is shorter than the least length. -/
lemma reads_readBatch (h : encodePayload sequence operations = .ok payload) :
    Reads readBatch payload ⟨sequence, operations⟩ := by
  obtain ⟨hlt, fields, hfields, rfl⟩ := encodePayload_eq_ok h
  have hcount : (ofNat operations.length).toNat = operations.length := by
    rw [toNat_ofNat', Nat.mod_eq_of_lt hlt]
  have hreadCount := reads_readU32 (ofNat operations.length)
  rw [hcount] at hreadCount
  refine (reads_readU64 sequence).bind (hreadCount.bind ?_)
  intro rest
  have hcheck : ¬(fields.flatten ++ rest).length / minWalOperationBytes < operations.length := by
    have hmin : minWalOperationBytes = 7 := rfl
    have hfits := length_fields hfields
    rw [hmin] at hfits
    rw [length_append, hmin, Nat.not_lt, Nat.le_div_iff_mul_le (by norm_num)]
    exact hfits.trans (Nat.le_add_right _ _)
  have hmany : Reads (readMany readOperation operations.length) fields.flatten operations :=
    Reads.readMany (hfields.imp fun _ _ hfield => reads_readOperation hfield)
  have hrest := (hmany.bind_pure fun ops => (⟨sequence, ops⟩ : WalBatch)) rest
  rw [hcount]
  show (if (fields.flatten ++ rest).length / minWalOperationBytes < operations.length then _
    else _ : Cursor WalBatch) (fields.flatten ++ rest) = _
  rw [if_neg hcheck]
  exact hrest

lemma decodePayload_encodePayload (h : encodePayload sequence operations = .ok payload) :
    decodePayload payload = .ok ⟨sequence, operations⟩ := by
  have hread := reads_readBatch h []
  rw [append_nil] at hread
  rw [decodePayload, hread]
  rfl

lemma payloadSequence_encodePayload (h : encodePayload sequence operations = .ok payload) :
    payloadSequence payload = .ok sequence := by
  obtain ⟨-, fields, -, rfl⟩ := encodePayload_eq_ok h
  exact @readU64At_append [] _ 0 rfl sequence

/-! ## Frames are read back -/

@[simp]
lemma length_frameHeader (payloadLen payloadChecksum : UInt32) :
    (frameHeader payloadLen payloadChecksum).length = headerLen := by
  simp [frameHeader, headerLen]

lemma encodeBatchFrame_eq_ok
    {frame : List UInt8} (h : encodeBatchFrame sequence operations = .ok frame) :
    ∃ payload, encodePayload sequence operations = .ok payload ∧
      payload.length ≤ maxWalFramePayloadBytes ∧
      frame = frameHeader (ofNat payload.length) (crc32c payload) ++ payload := by
  obtain ⟨payload, hpayload, h⟩ := bind_eq_ok.mp h
  by_cases hmax : maxWalFramePayloadBytes < payload.length
  · rw [if_pos hmax] at h
    cases h
  · rw [if_neg hmax] at h
    have hlt : ¬2 ^ 32 ≤ payload.length := by
      have : maxWalFramePayloadBytes < 2 ^ 32 := by decide
      omega
    simp only [if_neg hlt] at h
    exact ⟨payload, hpayload, not_lt.mp hmax, (Except.ok.inj h).symm⟩

lemma encodeBatchFrame_of_payload (h : encodePayload sequence operations = .ok payload)
    (hmax : payload.length ≤ maxWalFramePayloadBytes) :
    encodeBatchFrame sequence operations =
      .ok (frameHeader (ofNat payload.length) (crc32c payload) ++ payload) := by
  have hlt : ¬2 ^ 32 ≤ payload.length := by
    have : maxWalFramePayloadBytes < 2 ^ 32 := by decide
    omega
  rw [encodeBatchFrame, h]
  simp only [ok_bind, if_neg (not_lt.mpr hmax), if_neg hlt]
  rfl

/-- What the decoder does behind a header that the encoder wrote: it stops when the payload is cut
off, and otherwise checks the payload.

**Proof sketch.** The five fields are read at their offsets, each behind the fields before it;
then every check of the header compares a value with itself. -/
lemma framePayload_header {payloadLen payloadChecksum : UInt32}
    (hlen : payloadLen.toNat ≤ maxWalFramePayloadBytes) (rest : List UInt8) :
    framePayload (frameHeader payloadLen payloadChecksum ++ rest) =
      if rest.length < payloadLen.toNat then .ok none
      else if crc32c (rest.take payloadLen.toNat) ≠ payloadChecksum then
        .error (.corruption "WAL payload checksum mismatch")
      else .ok (some (rest.take payloadLen.toNat, rest.drop payloadLen.toNat)) := by
  have hlength : (frameHeader payloadLen payloadChecksum ++ rest).length =
      headerLen + rest.length := by rw [length_append, length_frameHeader]
  have hmagic : readU32At (frameHeader payloadLen payloadChecksum ++ rest) 0 = .ok walMagic := by
    simp only [frameHeader, append_assoc]
    exact @readU32At_append [] _ 0 rfl walMagic
  have hversion : readU16At (frameHeader payloadLen payloadChecksum ++ rest) 4 =
      .ok walFormatVersion := by
    simp only [frameHeader, append_assoc]
    exact readU16At_append (length_leBytes 4 _) walFormatVersion
  have hpayloadLen : readU32At (frameHeader payloadLen payloadChecksum ++ rest) 6 =
      .ok payloadLen := by
    simp only [frameHeader, append_assoc]
    rw [← append_assoc (leBytes 4 _)]
    exact readU32At_append (by simp) payloadLen
  have hheader : readU32At (frameHeader payloadLen payloadChecksum ++ rest) 10 =
      .ok (headerChecksum payloadLen payloadChecksum) := by
    simp only [frameHeader, append_assoc]
    rw [← append_assoc (leBytes 2 _), ← append_assoc (leBytes 4 _)]
    exact readU32At_append (by simp) _
  have hchecksum : readU32At (frameHeader payloadLen payloadChecksum ++ rest) 14 =
      .ok payloadChecksum := by
    simp only [frameHeader, append_assoc]
    rw [← append_assoc (leBytes 4 payloadLen.toNat), ← append_assoc (leBytes 2 _),
      ← append_assoc (leBytes 4 walMagic.toNat)]
    exact readU32At_append (by simp) _
  have hpayload : (frameHeader payloadLen payloadChecksum ++ rest).drop headerLen = rest :=
    drop_left' (length_frameHeader _ _)
  have hdrop : (frameHeader payloadLen payloadChecksum ++ rest).drop
      (headerLen + payloadLen.toNat) = rest.drop payloadLen.toNat := by
    rw [← drop_drop, hpayload]
  have hcut : headerLen + rest.length < headerLen + payloadLen.toNat ↔
      rest.length < payloadLen.toNat := by omega
  rw [framePayload, if_neg (by omega)]
  simp only [hmagic, hversion, hpayloadLen, hheader, hchecksum, hpayload, hdrop, hlength, hcut,
    ok_bind, ne_eq, not_true_eq_false, if_false, if_neg (not_lt.mpr hlen)]
  split_ifs <;> rfl

/-- A logged commit and its frame. -/
def encodesFrame (batch : WalBatch) (frame : List UInt8) : Prop :=
  encodeBatchFrame batch.sequence batch.operations = .ok frame

def above (replayFloor : UInt64) (batches : List WalBatch) : List WalBatch :=
  batches.filter fun batch => decide (replayFloor < batch.sequence)

lemma payloadAfter_encodePayload
    (h : encodePayload batch.sequence batch.operations = .ok payload) (replayFloor : UInt64) :
    payloadAfter replayFloor payload = .ok (above replayFloor [batch]) := by
  rw [payloadAfter, payloadSequence_encodePayload h, decodePayload_encodePayload h, above,
    filter_singleton]
  by_cases hfloor : replayFloor < batch.sequence
  · simp only [ok_bind, if_pos hfloor, decide_eq_true hfloor, cond_true]
    rfl
  · simp only [ok_bind, if_neg hfloor, decide_eq_false hfloor, cond_false]
    rfl

lemma nextFrame_append (replayFloor : UInt64) (batch : WalBatch) (frame rest : List UInt8)
    (h : encodesFrame batch frame) :
    nextFrame replayFloor (frame ++ rest) = .ok (some (above replayFloor [batch], rest)) := by
  obtain ⟨payload, hpayload, hmax, rfl⟩ := encodeBatchFrame_eq_ok h
  have hlen : (ofNat payload.length).toNat = payload.length := by
    have : maxWalFramePayloadBytes < 2 ^ 32 := by decide
    rw [toNat_ofNat', Nat.mod_eq_of_lt (by omega)]
  have hframe : framePayload (frameHeader (ofNat payload.length) (crc32c payload) ++
      (payload ++ rest)) = .ok (some (payload, rest)) := by
    rw [framePayload_header (by omega), hlen, take_left, drop_left]
    simp
  rw [append_assoc, nextFrame, hframe]
  simp only [ok_bind, payloadAfter_encodePayload hpayload]
  rfl

lemma encodesFrame_injective {batch' : WalBatch} {frame : List UInt8}
    (h : encodesFrame batch frame) (h' : encodesFrame batch' frame) (hpos : 0 < batch.sequence)
    (hpos' : 0 < batch'.sequence) : batch = batch' := by
  have hnext := nextFrame_append 0 batch frame [] h
  rw [nextFrame_append 0 batch' frame [] h'] at hnext
  simpa [above, hpos, hpos'] using hnext.symm

/-- A torn frame ends the walk without an error.

**Proof sketch.** If the header is cut off, fewer bytes than a header remain. Otherwise the header
is whole, passes its checks, and announces more bytes than there are. -/
lemma nextFrame_torn (replayFloor : UInt64) {torn : List UInt8} (h : TornFrame encodesFrame torn) :
    nextFrame replayFloor torn = .ok none := by
  rcases h with rfl | ⟨batch, frame, hframe, hprefix, hlength⟩
  · rfl
  suffices hframe : framePayload torn = .ok none by
    rw [nextFrame, hframe]
    rfl
  by_cases hshort : torn.length < headerLen
  · rw [framePayload, if_pos hshort]
  obtain ⟨payload, -, hmax, rfl⟩ := encodeBatchFrame_eq_ok hframe
  have hlen : (ofNat payload.length).toNat = payload.length := by
    have : maxWalFramePayloadBytes < 2 ^ 32 := by decide
    rw [toNat_ofNat', Nat.mod_eq_of_lt (by omega)]
  have hheader : frameHeader (ofNat payload.length) (crc32c payload) <+: torn :=
    prefix_of_prefix_length_le (prefix_append _ _) hprefix
      (by rw [length_frameHeader]; omega)
  obtain ⟨rest, rfl⟩ := hheader
  have hcut : rest.length < payload.length := by
    simp only [length_append] at hlength
    omega
  rw [framePayload_header (by omega), hlen, if_pos hcut]

lemma flatMap_above (replayFloor : UInt64) (entries : List (WalBatch × ℕ)) :
    entries.flatMap (fun entry => above replayFloor [entry.1]) =
      above replayFloor (entries.map Prod.fst) := by
  induction entries with
  | nil => rfl
  | cons entry entries ih =>
    rw [flatMap_cons, ih, map_cons, above, above, above, ← filter_append]
    rfl

lemma decodeFramesAfter_written {entries : List (WalBatch × ℕ)} {whole torn : List UInt8}
    (h : Written encodesFrame entries whole) (htorn : TornFrame encodesFrame torn)
    (replayFloor : UInt64) :
    decodeFramesAfter (whole ++ torn) replayFloor =
      .ok (above replayFloor (entries.map Prod.fst)) := by
  have hpos : ∀ batch frame, encodesFrame batch frame → 0 < frame.length := by
    intro batch frame hframe
    obtain ⟨payload, -, -, rfl⟩ := encodeBatchFrame_eq_ok hframe
    simp [headerLen]
  have hcount := h.length_le hpos
  have hstop := readLog_stop (nextFrame_torn replayFloor htorn)
    ((whole ++ torn).length - entries.length)
  have hread := readLog_written (nextFrame_append replayFloor) h hstop
  have hfuel : (whole ++ torn).length - entries.length + entries.length =
      (whole ++ torn).length := by
    rw [length_append]
    omega
  rw [hfuel, append_nil] at hread
  rw [decodeFramesAfter, hread, flatMap_above]

lemma decodeFramesAfter_holds
    (h : Holds encodesFrame batches bytes) (replayFloor : UInt64) :
    decodeFramesAfter bytes replayFloor = .ok (above replayFloor batches) := by
  obtain ⟨entries, hwritten, rfl⟩ := h
  have hread := decodeFramesAfter_written hwritten (Or.inl rfl) replayFloor
  rwa [append_nil] at hread

def encodeBatchesAfter (batches : List WalBatch) (replayFloor : UInt64) :
    Except Error (List UInt8) := do
  let frames ← (above replayFloor batches).mapM fun batch =>
    encodeBatchFrame batch.sequence batch.operations
  return frames.flatten

lemma holds_encodeBatchesAfter {replayFloor : UInt64}
    (h : encodeBatchesAfter batches replayFloor = .ok bytes) :
    Holds encodesFrame (above replayFloor batches) bytes := by
  obtain ⟨frames, hframes, h⟩ := bind_eq_ok.mp h
  obtain rfl := Except.ok.inj h
  exact .of_forall₂ (forall₂_of_mapM_eq_ok hframes)

/-! ## Higher floors -/

lemma payloadSequence_of_decodePayload
    (h : decodePayload payload = .ok batch) : payloadSequence payload = .ok batch.sequence := by
  obtain ⟨⟨batch', rest⟩, hread, h⟩ := bind_eq_ok.mp h
  have hbatch : batch' = batch := by
    simp only at h
    split_ifs at h
    exact Except.ok.inj h
  subst hbatch
  obtain ⟨sequence, middle, hsequence, hread⟩ := bind_apply_eq_ok.mp hread
  obtain ⟨count, middle', -, hread⟩ := bind_apply_eq_ok.mp hread
  obtain ⟨value, hvalue, hsequence⟩ := bind_eq_ok.mp hsequence
  obtain ⟨rfl, -⟩ := Prod.mk.inj (Except.ok.inj hsequence)
  obtain ⟨remaining, middle'', -, hread⟩ := bind_apply_eq_ok.mp hread
  split_ifs at hread
  · cases hread
  · obtain ⟨operations, _, -, hread⟩ := bind_apply_eq_ok.mp hread
    obtain ⟨rfl, -⟩ := Prod.mk.inj (Except.ok.inj hread)
    exact hvalue

lemma payloadAfter_of_le {floor floor' : UInt64} (hle : floor ≤ floor')
    (h : payloadAfter floor payload = .ok batches) :
    payloadAfter floor' payload = .ok (above floor' batches) := by
  obtain ⟨sequence, hsequence, h⟩ := bind_eq_ok.mp h
  rw [payloadAfter, hsequence, ok_bind]
  by_cases hfloor : floor < sequence
  · rw [if_pos hfloor] at h
    obtain ⟨batch, hdecode, h⟩ := bind_eq_ok.mp h
    obtain rfl := Except.ok.inj h
    have hbatch := payloadSequence_of_decodePayload hdecode
    rw [hsequence] at hbatch
    obtain rfl := Except.ok.inj hbatch
    rw [hdecode, above, filter_singleton]
    by_cases hfloor' : floor' < batch.sequence
    · simp only [if_pos hfloor', decide_eq_true hfloor', cond_true, ok_bind]
      rfl
    · simp only [if_neg hfloor', decide_eq_false hfloor', cond_false]
      rfl
  · rw [if_neg hfloor] at h
    obtain rfl := Except.ok.inj h
    have hfloor' : ¬floor' < sequence := by
      rw [UInt64.not_lt] at hfloor ⊢
      exact UInt64.le_trans hfloor hle
    rw [if_neg hfloor']
    rfl

lemma above_append (replayFloor : UInt64) (left right : List WalBatch) :
    above replayFloor (left ++ right) = above replayFloor left ++ above replayFloor right :=
  filter_append _ _

lemma decodeFramesAfter_of_le {floor floor' : UInt64} (hle : floor ≤ floor')
    (h : decodeFramesAfter bytes floor = .ok batches) :
    decodeFramesAfter bytes floor' = .ok (above floor' batches) := by
  rw [decodeFramesAfter] at h ⊢
  generalize bytes.length = fuel at h ⊢
  induction fuel generalizing bytes batches with
  | zero =>
    obtain rfl := Except.ok.inj h
    rfl
  | succ fuel ih =>
    rw [readLog] at h
    obtain ⟨frame, hframe, h⟩ := bind_eq_ok.mp h
    obtain ⟨parsed, hparsed, hframe⟩ := bind_eq_ok.mp hframe
    cases parsed with
    | none =>
      obtain rfl := Except.ok.inj hframe
      obtain rfl := Except.ok.inj h
      refine readLog_stop ?_ _
      rw [nextFrame, hparsed]
      rfl
    | some parsed =>
      obtain ⟨payload, rest⟩ := parsed
      obtain ⟨values, hvalues, hframe⟩ := bind_eq_ok.mp hframe
      obtain rfl := Except.ok.inj hframe
      obtain ⟨more, hmore, h⟩ := bind_eq_ok.mp h
      obtain rfl := Except.ok.inj h
      rw [above_append]
      refine readLog_frame ?_ (ih hmore)
      rw [nextFrame, hparsed]
      simp only [ok_bind, payloadAfter_of_le hle hvalues]
      rfl

end TrineKv.Wal
