import Mathlib.Data.List.Basic
import Mathlib.Tactic

/-!
# Byte codecs

Writers append bytes to a buffer; readers take bytes from the front of a buffer and may fail.
A reader reads what a writer wrote when it returns the written value and leaves exactly the bytes
that follow, whatever they are. Stated in this form, round trips compose.

## Main results

* `ByteCodec.leValue_leBytes`, `ByteCodec.Reads.bind`, `ByteCodec.Reads.readMany`.
-/

namespace ByteCodec

open List

/-! ## Little-endian numbers -/

def leBytes : ℕ → ℕ → List UInt8
  | 0, _ => []
  | width + 1, value => UInt8.ofNat value :: leBytes width (value / 256)

/-- The number that little-endian bytes stand for. -/
def leValue : List UInt8 → ℕ
  | [] => 0
  | byte :: bytes => byte.toNat + 256 * leValue bytes

@[simp]
lemma length_leBytes (width value : ℕ) : (leBytes width value).length = width := by
  induction width generalizing value with
  | zero => rfl
  | succ width ih => simp [leBytes, ih]

lemma leValue_leBytes {width value : ℕ} (h : value < 256 ^ width) :
    leValue (leBytes width value) = value := by
  induction width generalizing value with
  | zero =>
    have : value = 0 := by simpa using h
    simp [leBytes, leValue, this]
  | succ width ih =>
    have hdiv : value / 256 < 256 ^ width := by
      rw [Nat.div_lt_iff_lt_mul (by norm_num)]
      rwa [pow_succ] at h
    have hbyte : (UInt8.ofNat value).toNat = value % 256 := UInt8.toNat_ofNat'
    rw [leBytes, leValue, ih hdiv, hbyte, Nat.mod_add_div]

/-! ## Encoders that may fail -/

section Fallible

variable {ε α β : Type}

@[simp]
lemma ok_bind (value : α) (next : α → Except ε β) : (Except.ok value >>= next) = next value := rfl

lemma bind_eq_ok {first : Except ε α} {next : α → Except ε β} {result : β} :
    (first >>= next) = .ok result ↔ ∃ value, first = .ok value ∧ next value = .ok result := by
  constructor
  · intro h
    cases first with
    | error error => cases h
    | ok value => exact ⟨value, rfl, h⟩
  · rintro ⟨value, rfl, h⟩
    exact h

lemma toOption_eq_some {first : Except ε α} {value : α} :
    first.toOption = some value ↔ first = .ok value := by
  cases first with
  | error error => simp [Except.toOption]
  | ok value' => simp [Except.toOption]

lemma forall₂_of_mapM_eq_ok {encode : α → Except ε β} {values : List α} {blocks : List β}
    (h : values.mapM encode = .ok blocks) :
    List.Forall₂ (fun block value => encode value = .ok block) blocks values := by
  induction values generalizing blocks with
  | nil =>
    obtain rfl : [] = blocks := Except.ok.inj h
    exact .nil
  | cons value values ih =>
    rw [mapM_cons] at h
    obtain ⟨block, hblock, h⟩ := bind_eq_ok.mp h
    obtain ⟨more, hmore, h⟩ := bind_eq_ok.mp h
    obtain rfl := Except.ok.inj h
    exact .cons hblock (ih hmore)

lemma mapM_eq_ok_map {encode : α → Except ε β} {value : α → β} {values : List α}
    (h : ∀ a ∈ values, encode a = .ok (value a)) : values.mapM encode = .ok (values.map value) := by
  induction values with
  | nil => rfl
  | cons a values ih =>
    rw [mapM_cons, h a mem_cons_self, ih fun b hb => h b (mem_cons_of_mem _ hb)]
    rfl

variable {R : α → β → Prop} {left : List α} {right : List β}

lemma exists_of_mem_left (h : List.Forall₂ R left right) {a : α} (ha : a ∈ left) :
    ∃ b ∈ right, R a b := by
  induction h with
  | nil => cases ha
  | cons hfirst _ ih =>
    rcases mem_cons.mp ha with rfl | ha
    · exact ⟨_, mem_cons_self, hfirst⟩
    · obtain ⟨b, hb, hrel⟩ := ih ha
      exact ⟨b, mem_cons_of_mem _ hb, hrel⟩

lemma exists_of_mem_right (h : List.Forall₂ R left right) {b : β} (hb : b ∈ right) :
    ∃ a ∈ left, R a b :=
  exists_of_mem_left h.flip hb

lemma pairwise_of_forall₂ (h : List.Forall₂ R left right) {P : α → α → Prop} {Q : β → β → Prop}
    (hrel : ∀ {a a' b b'}, a ∈ left → a' ∈ left → R a b → R a' b' → P a a' → Q b b')
    (hleft : left.Pairwise P) : right.Pairwise Q := by
  induction h with
  | nil => exact List.Pairwise.nil
  | cons hfirst hrest ih =>
    obtain ⟨hhead, htail⟩ := pairwise_cons.mp hleft
    refine pairwise_cons.mpr ⟨fun b hb => ?_, ih (fun ha ha' => hrel
      (mem_cons_of_mem _ ha) (mem_cons_of_mem _ ha')) htail⟩
    obtain ⟨a, ha, hab⟩ := exists_of_mem_right hrest hb
    exact hrel mem_cons_self (mem_cons_of_mem _ ha) hfirst hab (hhead a ha)

end Fallible

/-! ## Readers -/

/-- A reader of a byte buffer: it takes bytes from the front or fails. -/
abbrev Reader (ε α : Type) := StateT (List UInt8) (Except ε) α

variable {ε α β : Type}

/-- The reader takes `bytes` from any buffer that starts with them and returns `value`. -/
def Reads (reader : Reader ε α) (bytes : List UInt8) (value : α) : Prop :=
  ∀ rest, reader (bytes ++ rest) = .ok (value, rest)

lemma reads_pure (value : α) : Reads (pure value : Reader ε α) [] value := fun _ => rfl

lemma Reads.bind {reader : Reader ε α} {next : α → Reader ε β} {first second : List UInt8}
    {value : α} {result : β} (hreader : Reads reader first value)
    (hnext : Reads (next value) second result) :
    Reads (reader >>= next) (first ++ second) result := by
  intro rest
  have hrun : (reader >>= next) (first ++ second ++ rest) =
      (reader (first ++ (second ++ rest)) >>= fun p => next p.1 p.2) := by
    rw [append_assoc]
    rfl
  rw [hrun, hreader]
  exact hnext rest

lemma Reads.bind_pure {reader : Reader ε α} {bytes : List UInt8} {value : α}
    (h : Reads reader bytes value) (f : α → β) :
    Reads (reader >>= fun a => pure (f a)) bytes (f value) := by
  have hbind : Reads (reader >>= fun a => pure (f a)) (bytes ++ []) (f value) :=
    h.bind (reads_pure (f value))
  rwa [append_nil] at hbind

lemma bind_apply_eq_ok {reader : Reader ε α} {next : α → Reader ε β} {bytes rest : List UInt8}
    {result : β} : (reader >>= next) bytes = .ok (result, rest) ↔
      ∃ value middle, reader bytes = .ok (value, middle) ∧ next value middle = .ok (result, rest) := by
  have hrun : (reader >>= next) bytes = (reader bytes >>= fun p => next p.1 p.2) := rfl
  rw [hrun, bind_eq_ok]
  exact ⟨fun ⟨⟨value, middle⟩, h⟩ => ⟨value, middle, h⟩,
    fun ⟨value, middle, h⟩ => ⟨(value, middle), h⟩⟩

def readExact (length : ℕ) (short : ε) : Reader ε (List UInt8) := fun bytes =>
  if length ≤ bytes.length then .ok (bytes.take length, bytes.drop length) else .error short

/-- Take a little-endian number of the given width. -/
def readLe (width : ℕ) (short : ε) : Reader ε ℕ := do
  let bytes ← readExact width short
  return leValue bytes

lemma reads_readExact (bytes : List UInt8) (short : ε) :
    Reads (readExact bytes.length short) bytes bytes := by
  intro rest
  rw [readExact, if_pos (by simp), take_left, drop_left]

lemma reads_readLe {width value : ℕ} (h : value < 256 ^ width) (short : ε) :
    Reads (readLe width short) (leBytes width value) value := by
  have hread := (reads_readExact (leBytes width value) short).bind_pure leValue
  rwa [leValue_leBytes h, length_leBytes] at hread

lemma fromUTF8?_toUTF8 (text : String) :
    String.fromUTF8? ⟨text.toUTF8.data.toList.toArray⟩ = some text := by
  have hbytes : (⟨text.toUTF8.data.toList.toArray⟩ : ByteArray) = text.toByteArray := rfl
  rw [hbytes, String.fromUTF8?, dif_pos text.isValidUTF8]
  rfl

/-- A reader used a number of times. -/
def readMany (reader : Reader ε α) : ℕ → Reader ε (List α)
  | 0 => pure []
  | count + 1 => do
    let value ← reader
    let values ← readMany reader count
    return value :: values

lemma Reads.readMany {reader : Reader ε α} {blocks : List (List UInt8)} {values : List α}
    (h : List.Forall₂ (fun block value => Reads reader block value) blocks values) :
    Reads (readMany reader values.length) blocks.flatten values := by
  induction h with
  | nil => exact reads_pure []
  | @cons block value blocks values hhead _ ih =>
    rw [flatten_cons]
    exact hhead.bind (ih.bind_pure fun vs => value :: vs)

end ByteCodec
