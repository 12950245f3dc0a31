import LnaLang.CString
import Mathlib

/-!
# The pre-tokenizer

Before byte-pair merging, text is split into pieces: up to three digits, runs
of CJK or kana, words with an optional leading symbol or blank, punctuation
with its trailing newlines, and whitespace.  The split is a loop whose body
chooses the end of the next piece among ten cases.  This file embeds that
choice and proves that every piece is nonempty and stays inside the text, so
that the pieces partition it.
-/

namespace LnaLang

/-- `(uint8_t)text[position]`, where the string is followed by its NUL. -/
def byteAt (text : Bytes) (position : Nat) : UInt8 :=
  text.getD position 0

/-- `ascii_alpha`. -/
def asciiAlpha (c : UInt8) : Bool :=
  (65 ≤ c && c ≤ 90) || (97 ≤ c && c ≤ 122)

/-- `ascii_digit`. -/
def asciiDigit (c : UInt8) : Bool :=
  48 ≤ c && c ≤ 57

/-- `ascii_space`. -/
def asciiSpace (c : UInt8) : Bool :=
  c == 32 || c == 9 || c == 10 || c == 13 || c == 11 || c == 12

/-- `ascii_newline`. -/
def asciiNewline (c : UInt8) : Bool :=
  c == 10 || c == 13

/-- `joyai_ascii_punct_symbol`. -/
def joyaiAsciiPunctSymbol (c : UInt8) : Bool :=
  (33 ≤ c && c ≤ 47) || (58 ≤ c && c ≤ 64) || (91 ≤ c && c ≤ 96) || (123 ≤ c && c ≤ 126)

/-- `utf8_is_cjk_hira_kata`. -/
def utf8IsCjkHiraKata (codepoint : Nat) : Bool :=
  (0x4e00 ≤ codepoint && codepoint ≤ 0x9fa5) || (0x3040 ≤ codepoint && codepoint ≤ 0x309f) ||
    (0x30a0 ≤ codepoint && codepoint ≤ 0x30ff)

/-- `utf8_peek_one`, whose new position is that of `next_utf8_char`. -/
def utf8PeekOne (text : Bytes) (position : Nat) : Nat :=
  let c0 := byteAt text position
  let low (offset : Nat) := (byteAt text (position + offset) &&& 0x3f).toNat
  match nextUtf8Char (text.drop position) with
  | 1 => c0.toNat
  | 2 => ((c0 &&& 0x1f).toNat <<< 6) ||| low 1
  | 3 => ((c0 &&& 0x0f).toNat <<< 12) ||| (low 1 <<< 6) ||| low 2
  | _ => ((c0 &&& 0x07).toNat <<< 18) ||| (low 1 <<< 12) ||| (low 2 <<< 6) ||| low 3

/-- `joyai_letter_like_at`: every non-ASCII byte counts as a letter. -/
def joyaiLetterLikeAt (text : Bytes) (position : Nat) : Bool :=
  let c := byteAt text position
  if c < 128 then asciiAlpha c else true

/-- `joyai_cjk_at`. -/
def joyaiCjkAt (text : Bytes) (position : Nat) : Bool :=
  if byteAt text position < 128 then false
  else utf8IsCjkHiraKata (utf8PeekOne text position)

def afterChar (text : Bytes) (position : Nat) : Nat :=
  position + nextUtf8Char (text.drop position)

theorem lt_afterChar (text : Bytes) (position : Nat) : position < afterChar text position := by
  have := nextUtf8Char_pos (text.drop position)
  unfold afterChar
  omega

variable {text : Bytes} {position : Nat}

theorem afterChar_le (inside : position < text.length) : afterChar text position ≤ text.length := by
  have ne : text.drop position ≠ [] := by simpa using inside
  have advanceLe := nextUtf8Char_le ne
  rw [List.length_drop] at advanceLe
  unfold afterChar
  omega

/-- `while (pos < len && accept(text, len, pos)) pos = next_utf8_char(...)`. -/
def charLoop (accept : Bytes → Nat → Bool) (text : Bytes) :
    WhileLoop Nat Nat where
  step := fun position =>
    if position < text.length ∧ accept text position then
      .inl (afterChar text position)
    else .inr position
  measure := fun position => text.length - position
  decreases := by
    intro position next stepped
    split at stepped
    next continues =>
      cases stepped
      have := lt_afterChar text position
      omega
    · cases stepped

theorem charLoop_run_bounds (accept : Bytes → Nat → Bool) (inside : position ≤ text.length) :
    position ≤ (charLoop accept text).run position ∧
      (charLoop accept text).run position ≤ text.length := by
  refine (charLoop accept text).run_invariant
    (fun current => position ≤ current ∧ current ≤ text.length)
    (fun result => position ≤ result ∧ result ≤ text.length)
    ?_ ?_ position ⟨le_rfl, inside⟩
  · intro current result bounds halted
    simp only [charLoop] at halted
    split at halted
    · cases halted
    · cases halted
      exact bounds
  · intro current following bounds step
    simp only [charLoop] at step
    split at step
    next continues =>
      cases step
      have grows := lt_afterChar text current
      exact ⟨by omega, afterChar_le continues.1⟩
    · cases step

/-- `while (pos < len && accept(text[pos])) pos++`. -/
def scanBytes (accept : UInt8 → Bool) (text : Bytes) (position : Nat) : Nat :=
  position + ((text.drop position).takeWhile accept).length

theorem scanBytes_bounds (accept : UInt8 → Bool) (inside : position ≤ text.length) :
    position ≤ scanBytes accept text position ∧ scanBytes accept text position ≤ text.length := by
  have lengthLe := (List.takeWhile_prefix accept (l := text.drop position)).length_le
  rw [List.length_drop] at lengthLe
  unfold scanBytes
  omega

/-- The whitespace scan, which also remembers the end of the last newline. -/
def spaceLoop (text : Bytes) : WhileLoop (Nat × Nat) (Nat × Nat) where
  -- The state is `p` and `last_newline_end`.
  step := fun state =>
    if state.1 < text.length ∧ asciiSpace (byteAt text state.1) then
      .inl (state.1 + 1,
        if asciiNewline (byteAt text state.1) then state.1 + 1 else state.2)
    else .inr state
  measure := fun state => text.length - state.1
  decreases := by
    rintro ⟨p, lastNewlineEnd⟩ next stepped
    simp only at stepped
    split at stepped
    next continues =>
      cases stepped
      simp only
      omega
    · cases stepped

variable {start : Nat}

theorem spaceLoop_run_bounds (inside : start ≤ text.length) :
    let (p, lastNewlineEnd) := (spaceLoop text).run (start, 0)
    start ≤ p ∧ p ≤ text.length ∧
      (lastNewlineEnd = 0 ∨ start < lastNewlineEnd ∧ lastNewlineEnd ≤ p) := by
  let Bounds : Nat × Nat → Prop := fun (p, lastNewlineEnd) =>
    start ≤ p ∧ p ≤ text.length ∧ (lastNewlineEnd = 0 ∨ start < lastNewlineEnd ∧ lastNewlineEnd ≤ p)
  refine (spaceLoop text).run_invariant Bounds Bounds ?_ ?_ (start, 0) ⟨le_rfl, inside, .inl rfl⟩
  · rintro ⟨p, lastNewlineEnd⟩ result bounds halted
    simp only [spaceLoop] at halted
    split at halted
    · cases halted
    · cases halted
      exact bounds
  · rintro ⟨p, lastNewlineEnd⟩ following ⟨startLe, _, newline⟩ step
    simp only [spaceLoop] at step
    split at step
    next continues =>
      cases step
      refine ⟨by omega, by omega, ?_⟩
      split <;> omega
    · cases step

/-- The whitespace case: stop after the last newline; otherwise leave one blank
to the following word or punctuation; otherwise take the whole run. -/
def spaceEnd (text : Bytes) (start : Nat) : Nat :=
  let (p, lastNewlineEnd) := (spaceLoop text).run (start, 0)
  if lastNewlineEnd ≠ 0 then lastNewlineEnd
  else if p < text.length ∧ start + 1 < p ∧
      (joyaiLetterLikeAt text p || joyaiAsciiPunctSymbol (byteAt text p)) then
    p - 1
  else p

/-- `joyai_consume_letters`. -/
def joyaiConsumeLetters (text : Bytes) (position : Nat) : Nat :=
  (charLoop joyaiLetterLikeAt text).run position

/-- The end of the piece that starts at the given position, as the ten cases of
`bpe_tokenize_text` choose it. -/
def pieceEnd (text : Bytes) (start : Nat) : Nat :=
  let c := byteAt text start
  if asciiDigit c then
    min (start + 3) (scanBytes asciiDigit text start)
  else if joyaiCjkAt text start then
    (charLoop joyaiCjkAt text).run (afterChar text start)
  else if joyaiAsciiPunctSymbol c ∧ start + 1 < text.length ∧
      asciiAlpha (byteAt text (start + 1)) then
    scanBytes asciiAlpha text (start + 1)
  else if joyaiLetterLikeAt text start then
    joyaiConsumeLetters text start
  else if !asciiNewline c ∧ !joyaiAsciiPunctSymbol c ∧
      start + 1 < text.length ∧ joyaiLetterLikeAt text (start + 1) then
    joyaiConsumeLetters text (start + 1)
  else if c == 32 ∧ start + 1 < text.length ∧ joyaiAsciiPunctSymbol (byteAt text (start + 1)) then
    scanBytes asciiNewline text (scanBytes joyaiAsciiPunctSymbol text (start + 1))
  else if joyaiAsciiPunctSymbol c then
    scanBytes asciiNewline text (scanBytes joyaiAsciiPunctSymbol text start)
  else if asciiSpace c then
    spaceEnd text start
  else
    afterChar text start

/-- The position of the loop after one piece: a case that consumed nothing
still advances over one character. -/
def pieceNext (text : Bytes) (start : Nat) : Nat :=
  if pieceEnd text start = start then afterChar text start
  else pieceEnd text start

theorem spaceEnd_bounds (inside : start ≤ text.length) :
    start ≤ spaceEnd text start ∧ spaceEnd text start ≤ text.length := by
  have bounds := spaceLoop_run_bounds inside
  unfold spaceEnd
  generalize (spaceLoop text).run (start, 0) = scanned at bounds ⊢
  obtain ⟨p, lastNewlineEnd⟩ := scanned
  simp only at bounds ⊢
  split
  · omega
  · split <;> omega

theorem pieceEnd_bounds (inside : start < text.length) :
    start ≤ pieceEnd text start ∧ pieceEnd text start ≤ text.length := by
  have scanned (accept : UInt8 → Bool) {position : Nat}
      (le : start ≤ position) (positionLe : position ≤ text.length) :
      start ≤ scanBytes accept text position ∧ scanBytes accept text position ≤ text.length := by
    have bounds := scanBytes_bounds accept positionLe
    omega
  have consumed (accept : Bytes → Nat → Bool) {position : Nat}
      (le : start ≤ position) (positionLe : position ≤ text.length) :
      start ≤ (charLoop accept text).run position ∧
        (charLoop accept text).run position ≤ text.length := by
    have bounds := charLoop_run_bounds accept positionLe
    omega
  have afterLe := afterChar_le inside
  have ltAfter := lt_afterChar text start
  have punctuation := scanned joyaiAsciiPunctSymbol le_rfl (by omega)
  have blankPunctuation := scanned joyaiAsciiPunctSymbol (Nat.le_succ start) (by omega)
  simp only [pieceEnd, joyaiConsumeLetters]
  split
  · have digits := scanned asciiDigit le_rfl (by omega)
    omega
  split
  · exact consumed _ (by omega) afterLe
  split
  · exact scanned _ (by omega) (by omega)
  split
  · exact consumed _ le_rfl (by omega)
  split
  · exact consumed _ (by omega) (by omega)
  split
  · exact scanned _ blankPunctuation.1 blankPunctuation.2
  split
  · exact scanned _ punctuation.1 punctuation.2
  split
  · exact spaceEnd_bounds (by omega)
  · omega

theorem pieceNext_bounds (inside : start < text.length) :
    start < pieceNext text start ∧ pieceNext text start ≤ text.length := by
  have bounds := pieceEnd_bounds inside
  have afterLe := afterChar_le inside
  have ltAfter := lt_afterChar text start
  unfold pieceNext
  split <;> omega

/-- The loop of `bpe_tokenize_text`: cut off pieces and append what each of
them is turned into. -/
def pieceLoop {β : Type*} (emit : Bytes → List β) (text : Bytes) :
    WhileLoop (Nat × List β) (List β) where
  step := fun (position, out) =>
    if position < text.length then
      let next := pieceNext text position
      .inl (next, out ++ emit ((text.drop position).take (next - position)))
    else .inr out
  measure := fun (position, _) => text.length - position
  decreases := by
    rintro ⟨position, out⟩ following stepped
    simp only at stepped
    split at stepped
    next continues =>
      cases stepped
      have := pieceNext_bounds continues
      simp only
      omega
    · cases stepped

theorem pieceLoop_run_flatMap {β : Type*} {emit : Bytes → List β} {decode : β → Bytes}
    (inverse : ∀ piece, (emit piece).flatMap decode = piece) (text : Bytes) (out : List β) :
    ((pieceLoop emit text).run (position, out)).flatMap decode =
      out.flatMap decode ++ text.drop position := by
  refine (pieceLoop emit text).run_induction (fun state result => result.flatMap decode =
      state.2.flatMap decode ++ text.drop state.1) ?_ ?_ (position, out)
  · rintro ⟨position, out⟩ result halted
    simp only [pieceLoop] at halted
    split at halted
    · cases halted
    next finished =>
      cases halted
      simp [List.drop_of_length_le (Nat.le_of_not_lt finished)]
  · rintro ⟨position, out⟩ following step later
    simp only [pieceLoop] at step
    split at step
    next continues =>
      cases step
      have bounds := pieceNext_bounds continues
      have dropEq : text.drop (pieceNext text position) =
          (text.drop position).drop (pieceNext text position - position) := by
        rw [List.drop_drop]
        congr 1
        omega
      rw [later, dropEq, List.flatMap_append, inverse, List.append_assoc, List.take_append_drop]
    · cases step

end LnaLang
