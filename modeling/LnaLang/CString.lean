import LnaLang.ListSearch
import Mathlib.Data.List.TakeWhile
import LnaLang.WhileLoop

/-!
# Byte strings

The server and the tokenizer work on NUL-terminated byte strings.  A string is
modelled by the list of its bytes; a buffer that may contain a NUL is cut at the
first one when the source reads it as a string.

Byte-level BPE maps every raw byte to a printable codepoint.  The second part embeds the
map, its inverse, and the UTF-8 encoder and decoder around them, and proves that decoding
alphabet symbols gives back the bytes they stand for.
-/

namespace LnaLang

abbrev Bytes := List UInt8

instance : LawfulBEq Bytes := inferInstance

/-- The UTF-8 bytes of a source literal. -/
def utf8 (literal : String) : Bytes :=
  literal.toList.flatMap String.utf8EncodeChar

/-- What the source sees of a buffer when it reads it as a C string. -/
def cString (buffer : Bytes) : Bytes :=
  buffer.takeWhile (· ≠ 0)

/-- What is left of a text when at least one byte of it has been read. -/
def Behind (text rest : Bytes) : Prop :=
  rest <:+ text ∧ rest.length < text.length

variable {text : Bytes}

theorem Behind.trans_suffix {base rest : Bytes} (behind : Behind text rest)
    (suffix : text <:+ base) : Behind base rest :=
  ⟨behind.1.trans suffix, Nat.lt_of_lt_of_le behind.2 suffix.length_le⟩

theorem Behind.of_suffix {rest last : Bytes} (behind : Behind text rest)
    (suffix : last <:+ rest) : Behind text last :=
  ⟨suffix.trans behind.1, Nat.lt_of_le_of_lt suffix.length_le behind.2⟩

/-- A byte list that is a C string: it holds no NUL. -/
def NulFree (bytes : Bytes) : Prop :=
  (0 : UInt8) ∉ bytes

instance (bytes : Bytes) : Decidable (NulFree bytes) :=
  inferInstanceAs (Decidable ((0 : UInt8) ∉ bytes))

variable {bytes : Bytes}

theorem cString_of_nulFree (nulFree : NulFree bytes) : cString bytes = bytes := by
  rw [cString, List.takeWhile_eq_self_iff]
  intro byte mem
  simp only [ne_eq, decide_eq_true_eq]
  rintro rfl
  exact nulFree mem

theorem nulFree_append {first second : Bytes} :
    NulFree (first ++ second) ↔ NulFree first ∧ NulFree second := by
  unfold NulFree
  rw [List.mem_append, not_or]

theorem NulFree.take (nulFree : NulFree bytes) (n : Nat) : NulFree (bytes.take n) :=
  fun mem => nulFree (List.mem_of_mem_take mem)

theorem NulFree.drop (nulFree : NulFree bytes) (start : Nat) : NulFree (bytes.drop start) :=
  fun mem => nulFree (List.mem_of_mem_drop mem)

theorem NulFree.take_drop (nulFree : NulFree bytes)
    (start n : Nat) : NulFree ((bytes.drop start).take n) :=
  (nulFree.drop start).take n

/-- `isspace` in the C locale. -/
def isSpace (byte : UInt8) : Bool :=
  byte == 32 || (9 ≤ byte && byte ≤ 13)

/-- `strstr`: the offset of the first occurrence of a literal. -/
def strstr (text literal : Bytes) : Option Nat :=
  ListSearch.find literal text

/-- `strchr` for a byte other than NUL. -/
def strchr (text : Bytes) (byte : UInt8) : Option Nat :=
  text.idxOf? byte

/-- `!strncmp(text, literal, strlen(literal))`. -/
def startsWith (text literal : Bytes) : Bool :=
  literal.isPrefixOf text

@[simp]
theorem startsWith_iff {literal : Bytes} : startsWith text literal = true ↔ literal <+: text :=
  List.isPrefixOf_iff_prefix

/-- `utf8_put`: the UTF-8 form of a codepoint. -/
def utf8Put (codepoint : Nat) : Bytes :=
  if codepoint ≤ 0x7f then
    [UInt8.ofNat codepoint]
  else if codepoint ≤ 0x7ff then
    [UInt8.ofNat (0xc0 ||| (codepoint >>> 6)), UInt8.ofNat (0x80 ||| (codepoint &&& 0x3f))]
  else if codepoint ≤ 0xffff then
    [UInt8.ofNat (0xe0 ||| (codepoint >>> 12)), UInt8.ofNat (0x80 ||| ((codepoint >>> 6) &&& 0x3f)),
      UInt8.ofNat (0x80 ||| (codepoint &&& 0x3f))]
  else
    [UInt8.ofNat (0xf0 ||| (codepoint >>> 18)),
      UInt8.ofNat (0x80 ||| ((codepoint >>> 12) &&& 0x3f)),
      UInt8.ofNat (0x80 ||| ((codepoint >>> 6) &&& 0x3f)),
      UInt8.ofNat (0x80 ||| (codepoint &&& 0x3f))]

/-- `utf8_len_from_first_byte`. -/
def utf8LenFromFirstByte (byte : UInt8) : Nat :=
  if byte < 0x80 then 1
  else if byte &&& 0xe0 == 0xc0 then 2
  else if byte &&& 0xf0 == 0xe0 then 3
  else if byte &&& 0xf8 == 0xf0 then 4
  else 1

theorem utf8LenFromFirstByte_pos (byte : UInt8) : 0 < utf8LenFromFirstByte byte := by
  unfold utf8LenFromFirstByte
  repeat' split
  all_goals simp

/-- `next_utf8_char`, as the number of bytes it advances over. -/
def nextUtf8Char (suffix : Bytes) : Nat :=
  let announced := utf8LenFromFirstByte (suffix.headD 0)
  if suffix.length < announced then 1 else announced

theorem nextUtf8Char_pos (suffix : Bytes) : 0 < nextUtf8Char suffix := by
  have announcedPos := utf8LenFromFirstByte_pos (suffix.headD 0)
  simp only [nextUtf8Char]
  split <;> omega

theorem nextUtf8Char_le {suffix : Bytes} (ne : suffix ≠ []) :
    nextUtf8Char suffix ≤ suffix.length := by
  have lengthPos := List.length_pos_iff.mpr ne
  simp only [nextUtf8Char]
  split <;> omega

/-- Bytes that stand for themselves in the GPT-2 alphabet. -/
def gpt2Printable (byte : Nat) : Bool :=
  (33 ≤ byte && byte ≤ 126) || (161 ≤ byte && byte ≤ 172) || (174 ≤ byte && byte ≤ 255)

/-- The bytes that are moved to codepoints from 256 on, in order. -/
def gpt2Moved : List Nat :=
  (List.range 256).filter fun byte => !gpt2Printable byte

/-- `gpt2_byte_to_codepoint`. -/
def gpt2ByteToCodepoint (byte : UInt8) : Nat :=
  if gpt2Printable byte.toNat then byte.toNat
  else 256 + gpt2Moved.idxOf byte.toNat

/-- `gpt2_codepoint_to_byte`, with the source's `-1` as `none`. -/
def gpt2CodepointToByte (codepoint : Nat) : Option UInt8 :=
  if gpt2Printable codepoint then some (UInt8.ofNat codepoint)
  else if 256 ≤ codepoint then
    gpt2Moved[codepoint - 256]?.map UInt8.ofNat
  else none

/-- `utf8_decode_one` on a nonempty string: the codepoint and what is left. -/
def utf8DecodeOne : Bytes → Nat × Bytes
  | [] => (0, [])
  | [c] => (c.toNat, [])
  | c :: d :: rest =>
    if c < 0x80 then (c.toNat, d :: rest)
    else if c &&& 0xe0 == 0xc0 then
      (((c &&& 0x1f).toNat <<< 6) ||| (d &&& 0x3f).toNat, rest)
    else
      match rest with
      | [] => (c.toNat, [d])
      | e :: rest =>
        if c &&& 0xf0 == 0xe0 then
          (((c &&& 0x0f).toNat <<< 12) ||| ((d &&& 0x3f).toNat <<< 6) ||| (e &&& 0x3f).toNat, rest)
        else
          match rest with
          | [] => (c.toNat, [d, e])
          | f :: rest =>
            if c &&& 0xf8 == 0xf0 then
              (((c &&& 0x07).toNat <<< 18) ||| ((d &&& 0x3f).toNat <<< 12) |||
                ((e &&& 0x3f).toNat <<< 6) ||| (f &&& 0x3f).toNat, rest)
            else (c.toNat, d :: e :: f :: rest)

theorem utf8DecodeOne_length_lt (head : UInt8) (tail : Bytes) :
    (utf8DecodeOne (head :: tail)).2.length < (head :: tail).length := by
  rcases tail with _ | ⟨d, rest⟩
  · simp [utf8DecodeOne]
  simp only [utf8DecodeOne]
  split
  · simp
  split
  · simp only [List.length_cons]
    omega
  rcases rest with _ | ⟨e, rest⟩
  · simp
  simp only
  split
  · simp
    omega
  rcases rest with _ | ⟨f, rest⟩
  · simp
  simp only
  split
  · simp
    omega
  · simp

def byteSymbol (byte : UInt8) : Bytes :=
  utf8Put (gpt2ByteToCodepoint byte)

/-- `byte_encode`. -/
def byteEncode (raw : Bytes) : Bytes :=
  raw.flatMap byteSymbol

@[simp]
theorem byteEncode_nil : byteEncode [] = [] :=
  rfl

@[simp]
theorem byteEncode_cons (byte : UInt8) (raw : Bytes) :
    byteEncode (byte :: raw) = byteSymbol byte ++ byteEncode raw :=
  rfl

theorem byteEncode_append (first second : Bytes) :
    byteEncode (first ++ second) = byteEncode first ++ byteEncode second := by
  simp [byteEncode]

/-- The given bytes are a one- or two-byte UTF-8 form of the codepoint. -/
def isShortForm : Bytes → Nat → Bool
  | [c], codepoint => c < 0x80 && c.toNat == codepoint
  | [c, d], codepoint =>
    !(c < 0x80) && (c &&& 0xe0 == 0xc0) &&
      ((c &&& 0x1f).toNat <<< 6) ||| (d &&& 0x3f).toNat == codepoint
  | _, _ => false

theorem utf8DecodeOne_append_of_isShortForm {form : Bytes} {codepoint : Nat}
    (short : isShortForm form codepoint = true) (rest : Bytes) :
    utf8DecodeOne (form ++ rest) = (codepoint, rest) := by
  rcases form with _ | ⟨c, _ | ⟨d, _ | ⟨e, form⟩⟩⟩
  · simp [isShortForm] at short
  · simp only [isShortForm, Bool.and_eq_true, decide_eq_true_eq, beq_iff_eq] at short
    cases rest with
    | nil => simp [utf8DecodeOne, short.2]
    | cons d rest => simp [utf8DecodeOne, short.1, short.2]
  · simp only [isShortForm, Bool.and_eq_true, Bool.not_eq_true',
      decide_eq_false_iff_not, beq_iff_eq] at short
    simp [utf8DecodeOne, short.1.1, short.1.2, ← short.2]
  · simp [isShortForm] at short

theorem nextUtf8Char_append_of_isShortForm {form : Bytes} {codepoint : Nat}
    (short : isShortForm form codepoint = true) (rest : Bytes) :
    nextUtf8Char (form ++ rest) = form.length := by
  rcases form with _ | ⟨c, _ | ⟨d, _ | ⟨e, form⟩⟩⟩
  · simp [isShortForm] at short
  · simp only [isShortForm, Bool.and_eq_true, decide_eq_true_eq] at short
    simp [nextUtf8Char, utf8LenFromFirstByte, short.1]
  · simp only [isShortForm, Bool.and_eq_true, Bool.not_eq_true',
      decide_eq_false_iff_not, beq_iff_eq] at short
    simp [nextUtf8Char, utf8LenFromFirstByte, short.1.1, short.1.2]
  · simp [isShortForm] at short

@[elab_as_elim]
theorem forall_byte {motive : UInt8 → Prop} (below : ∀ n < 256, motive (UInt8.ofNat n))
    (byte : UInt8) : motive byte := by
  have := below byte.toNat byte.toNat_lt
  rwa [UInt8.ofNat_toNat] at this

theorem byteSymbol_isShortForm (byte : UInt8) :
    isShortForm (byteSymbol byte) (gpt2ByteToCodepoint byte) = true := by
  refine forall_byte ?_ byte
  decide +kernel

theorem gpt2CodepointToByte_gpt2ByteToCodepoint (byte : UInt8) :
    gpt2CodepointToByte (gpt2ByteToCodepoint byte) = some byte := by
  refine forall_byte ?_ byte
  decide +kernel

theorem byteSymbol_ne_nil (byte : UInt8) : byteSymbol byte ≠ [] := by
  intro empty
  have short := byteSymbol_isShortForm byte
  simp [empty, isShortForm] at short

/-- No symbol holds a blank, which separates the two halves of a merge rule,
or the first byte of the full-width bar that marks literal special tokens. -/
theorem byteSymbol_avoids (byte : UInt8) : 32 ∉ byteSymbol byte ∧ 0xef ∉ byteSymbol byte := by
  refine forall_byte ?_ byte
  decide +kernel

theorem byteEncode_avoids (raw : Bytes) : 32 ∉ byteEncode raw ∧ 0xef ∉ byteEncode raw := by
  induction raw with
  | nil => simp
  | cons byte raw ih =>
    have symbol := byteSymbol_avoids byte
    simp [symbol.1, symbol.2, ih.1, ih.2]

end LnaLang
