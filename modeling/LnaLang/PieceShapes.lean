import LnaLang.PreTokenizer
import LnaLang.Utf8Text

/-!
# What a piece of the pre-tokenizer looks like

Each of the ten cases of the split reads a stretch of the text that stops where its
loop stops.  This file states what stands in the piece that a case cuts off and what
stands behind it, for a piece that starts at a character of a valid text.
-/

namespace LnaLang

open List

open Utf8Text

section Characters

variable {text : Bytes} {pos : Nat}

theorem byteAt_of_length_le (le : text.length ≤ pos) : byteAt text pos = 0 := by
  simp [byteAt, getElem?_eq_none le]

theorem getElem?_eq_byteAt (inside : pos < text.length) : text[pos]? = some (byteAt text pos) := by
  simp [byteAt, inside]

theorem lt_length_of_byteAt_ne (nonzero : byteAt text pos ≠ 0) : pos < text.length := by
  by_contra past
  exact nonzero (byteAt_of_length_le (by omega))

theorem utf8LenFromFirstByte_of_leads {n : Nat} {byte : UInt8}
    (leads : Leads n byte) : utf8LenFromFirstByte byte = n := by
  have table : ∀ v < 256, (v < 0x80 → utf8LenFromFirstByte (UInt8.ofNat v) = 1) ∧
      (0xc2 ≤ v → v < 0xe0 → utf8LenFromFirstByte (UInt8.ofNat v) = 2) ∧
      (0xe0 ≤ v → v < 0xf0 → utf8LenFromFirstByte (UInt8.ofNat v) = 3) ∧
      (0xf0 ≤ v → v < 0xf5 → utf8LenFromFirstByte (UInt8.ofNat v) = 4) := by
    decide +kernel
  have row := table byte.toNat byte.toNat_lt
  rw [UInt8.ofNat_toNat] at row
  cases leads with
  | one lt => exact row.1 lt
  | two le lt => exact row.2.1 le lt
  | three le lt => exact row.2.2.1 le lt
  | four le lt => exact row.2.2.2 le lt

theorem nextUtf8Char_encode (char : Char) (rest : Bytes) :
    nextUtf8Char (String.utf8EncodeChar char ++ rest) = (String.utf8EncodeChar char).length := by
  obtain ⟨lead, conts, same, leads, _⟩ := encode_eq char
  simp only [nextUtf8Char, same, cons_append, headD_cons,
    utf8LenFromFirstByte_of_leads leads, length_cons, length_append]
  rw [if_neg (by omega)]

theorem charAt_of_cut (valid : Valid text) (cut : Cut text pos) (inside : pos < text.length) :
    ∃ char rest, text.drop pos = String.utf8EncodeChar char ++ rest ∧
      Valid rest ∧ afterChar text pos = pos + (String.utf8EncodeChar char).length := by
  rcases (valid.take_drop cut).2.cases with none | ⟨char, rest, here, validRest⟩
  · rw [drop_eq_nil_iff] at none
    omega
  · refine ⟨char, rest, here, validRest, ?_⟩
    rw [afterChar, here, nextUtf8Char_encode]

theorem cut_afterChar (valid : Valid text) (cut : Cut text pos)
    (inside : pos < text.length) : Cut text (afterChar text pos) := by
  obtain ⟨char, rest, here, validRest, after⟩ := charAt_of_cut valid cut inside
  rw [after]
  intro byte found
  apply validRest.cut_zero byte
  rw [← getElem?_drop, here, getElem?_append_right (Nat.le_refl _), Nat.sub_self] at found
  exact found

theorem continues_inside (valid : Valid text) (cut : Cut text pos)
    {i : Nat} (lt : pos < i) (inChar : i < afterChar text pos)
    (inside : pos < text.length) : Continues (byteAt text i) := by
  obtain ⟨char, rest, here, _, after⟩ := charAt_of_cut valid cut inside
  obtain ⟨lead, conts, same, _, continues⟩ := encode_eq char
  obtain ⟨off, rfl⟩ := Nat.exists_eq_add_of_lt lt
  rw [after, same, length_cons] at inChar
  have lt' : off < conts.length := by omega
  have found : text[pos + off + 1]? = some conts[off] := by
    rw [Nat.add_assoc, ← getElem?_drop, here, same, cons_append,
      getElem?_cons_succ, getElem?_append_left lt',
      getElem?_eq_getElem lt']
  have byte : byteAt text (pos + off + 1) = conts[off] := by simp [byteAt, found]
  rw [byte]
  exact continues _ (getElem_mem lt')

theorem afterChar_of_ascii (ascii : byteAt text pos < 128)
    (inside : pos < text.length) : afterChar text pos = pos + 1 := by
  have head : (text.drop pos).headD 0 = byteAt text pos := by
    simp [byteAt, headD_eq_head?_getD, head?_drop]
  have lengthPos : 1 ≤ (text.drop pos).length := by
    rw [length_drop]
    omega
  have announced : utf8LenFromFirstByte (byteAt text pos) = 1 := by
    unfold utf8LenFromFirstByte
    rw [if_pos ascii]
  unfold afterChar nextUtf8Char
  dsimp only
  rw [head, announced, if_neg (by omega)]

theorem cut_succ_of_ascii (valid : Valid text) (ascii : byteAt text pos < 128) :
    Cut text (pos + 1) := by
  rcases Nat.lt_or_ge pos text.length with inside | past
  · exact valid.cut_succ (getElem?_eq_byteAt inside) (UInt8.lt_iff_toNat_lt.mp ascii)
  · exact cut_of_length_le (by omega)

theorem byteAt_add (off : Nat) : byteAt text (pos + off) = byteAt (text.drop pos) off := by
  simp [byteAt]

theorem toNat_and_mask {v : Nat} (bits marker : Nat) {mask : UInt8}
    (maskValue : mask.toNat = 2 ^ bits - 1) (aligned : marker % 2 ^ bits = 0)
    (small : v < 2 ^ bits) (fits : v + marker < 256) :
    (UInt8.ofNat (v + marker) &&& mask).toNat = v := by
  rw [UInt8.toNat_and, toNat_ofNat_of_lt fits, maskValue, Nat.and_two_pow_sub_one_eq_mod,
    Nat.add_mod, aligned, Nat.add_zero, Nat.mod_mod, Nat.mod_eq_of_lt small]

theorem toNat_and_continuation (v : Nat) :
    (UInt8.ofNat (v % 0x40 + 0x80) &&& 0x3f).toNat = v % 0x40 :=
  toNat_and_mask 6 0x80 rfl rfl (Nat.mod_lt _ (by decide)) (by omega)

theorem shiftLeft_or {low : Nat} (high bits : Nat) (small : low < 2 ^ bits) :
    high <<< bits ||| low = high * 2 ^ bits + low := by
  rw [← Nat.shiftLeft_add_eq_or_of_lt small, Nat.shiftLeft_eq]

theorem utf8PeekOne_encode {char : Char} {rest : Bytes}
    (here : text.drop pos = String.utf8EncodeChar char ++ rest) :
    utf8PeekOne text pos = char.val.toNat := by
  have bound : char.val.toNat < 0x110000 := by
    rcases char.valid with low | ⟨-, high⟩
    · exact Nat.lt_trans low (by decide)
    · exact high
  have bytes : ∀ off, byteAt text (pos + off) =
      byteAt (String.utf8EncodeChar char ++ rest) off := by
    intro off
    rw [byteAt_add, here]
  have first := bytes 0
  rw [Nat.add_zero] at first
  unfold utf8PeekOne
  rw [here, nextUtf8Char_encode]
  simp only [first, bytes]
  generalize encoded : String.utf8EncodeChar char = form
  unfold String.utf8EncodeChar at encoded
  dsimp only at encoded
  split at encoded
  · subst encoded
    exact toNat_ofNat_of_lt (by omega)
  split at encoded
  · subst encoded
    simp only [length_cons, length_nil, cons_append, byteAt,
      getD_cons_zero, getD_cons_succ, Nat.reduceAdd]
    rw [toNat_and_mask 5 0xc0 rfl rfl (by omega) (by omega), toNat_and_continuation,
      shiftLeft_or _ _ (by omega)]
    omega
  split at encoded
  · subst encoded
    simp only [length_cons, length_nil, cons_append, byteAt,
      getD_cons_zero, getD_cons_succ, Nat.reduceAdd]
    rw [toNat_and_mask 4 0xe0 rfl rfl (by omega) (by omega), toNat_and_continuation,
      toNat_and_continuation, Nat.or_assoc, shiftLeft_or _ 6 (by omega),
      shiftLeft_or _ 12 (by omega)]
    omega
  · subst encoded
    simp only [length_cons, length_nil, cons_append, byteAt,
      getD_cons_zero, getD_cons_succ, Nat.reduceAdd]
    rw [toNat_and_mask 3 0xf0 rfl rfl (by omega) (by omega), toNat_and_continuation,
      toNat_and_continuation, toNat_and_continuation, Nat.or_assoc, Nat.or_assoc,
      shiftLeft_or _ 6 (by omega), shiftLeft_or _ 12 (by omega),
      shiftLeft_or _ 18 (by omega)]
    omega
end Characters

section Loops

variable {text : Bytes} {start : Nat}

theorem scanBytes_spec (accept : UInt8 → Bool) (atEnd : accept 0 = false)
    (text : Bytes) (start : Nat) :
    (∀ i, start ≤ i → i < scanBytes accept text start → accept (byteAt text i) = true) ∧
      accept (byteAt text (scanBytes accept text start)) = false := by
  unfold scanBytes
  constructor
  · intro i le lt
    obtain ⟨off, rfl⟩ := Nat.exists_eq_add_of_le le
    have inWhile : off < ((text.drop start).takeWhile accept).length := by omega
    have accepted := mem_takeWhile_imp (getElem_mem inWhile)
    have pre := takeWhile_prefix accept (l := text.drop start)
    rw [pre.getElem inWhile] at accepted
    have inside : start + off < text.length := by
      have bound := pre.length_le
      rw [length_drop] at bound
      omega
    simpa [byteAt, inside] using accepted
  · generalize counted : ((text.drop start).takeWhile accept).length = n
    rcases Nat.lt_or_ge (start + n) text.length with inside | past
    · have rest : (text.drop start).dropWhile accept = text.drop (start + n) := by
        have parts := takeWhile_append_dropWhile (p := accept) (l := text.drop start)
        rw [← drop_drop]
        conv_rhs => rw [← parts]
        rw [← counted, drop_left' rfl]
      have stops := head?_dropWhile_not accept (text.drop start)
      rw [rest, head?_drop, getElem?_eq_byteAt inside] at stops
      simpa using stops
    · rw [byteAt_of_length_le past]
      exact atEnd

variable {accept : Bytes → Nat → Bool}

theorem charLoop_run_stops (atEnd : ∀ pos, text.length ≤ pos → accept text pos = false) :
    accept text ((charLoop accept text).run start) = false := by
  refine (charLoop accept text).run_invariant (fun _ => True)
    (fun result => accept text result = false) ?_ (fun _ _ _ _ => trivial) start trivial
  intro pos result _ halted
  simp only [charLoop] at halted
  split at halted
  · cases halted
  next stops =>
    cases halted
    rcases Nat.lt_or_ge pos text.length with inside | past
    · simpa [inside] using stops
    · exact atEnd pos past

theorem charLoop_run_accepts (valid : Valid text) (cut : Cut text start) :
    Cut text ((charLoop accept text).run start) ∧
      ∀ i, start ≤ i → i < (charLoop accept text).run start →
        Cut text i ∧ accept text i = true ∨ Continues (byteAt text i) := by
  refine (charLoop accept text).run_induction
    (fun entry result => Cut text entry → Cut text result ∧
      ∀ i, entry ≤ i → i < result → Cut text i ∧ accept text i = true ∨ Continues (byteAt text i))
    ?_ ?_ start cut
  · intro entry result halted entryCut
    simp only [charLoop] at halted
    split at halted
    · cases halted
    · cases halted
      exact ⟨entryCut, fun i le lt => by omega⟩
  · intro entry following step later entryCut
    simp only [charLoop] at step
    split at step
    next continues =>
      cases step
      obtain ⟨resultCut, passed⟩ := later (cut_afterChar valid entryCut continues.1)
      refine ⟨resultCut, fun i le lt => ?_⟩
      rcases Nat.lt_or_ge i (afterChar text entry) with inChar | behind
      · rcases Nat.eq_or_lt_of_le le with rfl | inside
        · exact .inl ⟨entryCut, continues.2⟩
        · exact .inr (continues_inside valid entryCut inside inChar continues.1)
      · exact passed i behind lt
    · cases step

/-- The whitespace scan has read blanks, and remembers where the last newline among
them ends. -/
structure SpacesRead (text : Bytes) (start : Nat) (state : Nat × Nat) : Prop where
  le : start ≤ state.1
  blanks : ∀ index, start ≤ index → index < state.1 →
    asciiSpace (byteAt text index) = true
  newline : state.2 = 0 ∧ (∀ index, start ≤ index → index < state.1 →
      asciiNewline (byteAt text index) = false) ∨
    start < state.2 ∧ state.2 ≤ state.1 ∧
      asciiNewline (byteAt text (state.2 - 1)) = true

theorem spaceLoop_run_spec (text : Bytes) (start : Nat) :
    SpacesRead text start ((spaceLoop text).run (start, 0)) ∧
      asciiSpace (byteAt text ((spaceLoop text).run (start, 0)).1) = false := by
  refine (spaceLoop text).run_invariant (SpacesRead text start)
    (fun state => SpacesRead text start state ∧
      asciiSpace (byteAt text state.1) = false) ?_ ?_ (start, 0)
    ⟨le_rfl, fun i le lt => by omega, .inl ⟨rfl, fun i le lt => by omega⟩⟩
  · rintro ⟨p, lastNewlineEnd⟩ result read halted
    simp only [spaceLoop] at halted
    split at halted
    · cases halted
    next stops =>
      cases halted
      refine ⟨read, ?_⟩
      rcases Nat.lt_or_ge p text.length with inside | past
      · simpa [inside] using stops
      · rw [byteAt_of_length_le past]
        rfl
  · rintro ⟨p, lastNewlineEnd⟩ following ⟨startLe, blanks, newline⟩ step
    simp only [spaceLoop] at step
    split at step
    next continues =>
      cases step
      simp only at startLe blanks newline
      refine ⟨by simp only; omega, ?_, ?_⟩
      · intro i le lt
        rcases Nat.lt_or_ge i p with before | here
        · exact blanks i le before
        · rw [show i = p by omega]
          exact continues.2
      · split
        next isNewline =>
          exact .inr ⟨by omega, le_rfl, isNewline⟩
        next notNewline =>
          rcases newline with ⟨rfl, none⟩ | ⟨lt, le, last⟩
          · refine .inl ⟨rfl, fun i le lt => ?_⟩
            rcases Nat.lt_or_ge i p with before | here
            · exact none i le before
            · rw [show i = p by omega]
              simpa using notNewline
          · exact .inr ⟨lt, by omega, last⟩
    · cases step

end Loops

section Shapes

inductive PieceShape (text : Bytes) (start stop : Nat) : Prop
  | digits (all : ∀ index, start ≤ index → index < stop →
      asciiDigit (byteAt text index) = true)
  | cjk (all : ∀ index, start ≤ index → index < stop → Cut text index →
        joyaiCjkAt text index = true)
      (stops : joyaiCjkAt text stop = false) (cut : Cut text stop)
  | marked (mark : joyaiAsciiPunctSymbol (byteAt text start) = true)
      (long : start + 1 < stop)
      (letters : ∀ index, start < index → index < stop →
        asciiAlpha (byteAt text index) = true)
  | letters (all : ∀ index, start ≤ index → index < stop →
        joyaiLetterLikeAt text index = true)
      (stops : joyaiLetterLikeAt text stop = false)
  | led (ascii : joyaiLetterLikeAt text start = false)
      (notDigit : asciiDigit (byteAt text start) = false)
      (notNewline : asciiNewline (byteAt text start) = false)
      (notMark : joyaiAsciiPunctSymbol (byteAt text start) = false)
      (long : start + 1 < stop)
      (letters : ∀ index, start < index → index < stop →
        joyaiLetterLikeAt text index = true)
      (stops : joyaiLetterLikeAt text stop = false)
  | marks {middle : Nat}
      (first : joyaiAsciiPunctSymbol (byteAt text start) = true ∨
        byteAt text start = 32 ∧ start + 1 < middle)
      (long : start < middle) (le : middle ≤ stop)
      (marks : ∀ index, start < index → index < middle →
        joyaiAsciiPunctSymbol (byteAt text index) = true)
      (stops : joyaiAsciiPunctSymbol (byteAt text middle) = false)
      (newlines : ∀ index, middle ≤ index → index < stop →
        asciiNewline (byteAt text index) = true)
  | newlines (all : ∀ index, start ≤ index → index < stop →
        asciiSpace (byteAt text index) = true)
      (last : asciiNewline (byteAt text (stop - 1)) = true)
  | blanks (all : ∀ index, start ≤ index → index < stop →
        asciiSpace (byteAt text index) = true)
      (stops : asciiSpace (byteAt text stop) = true ∨
        joyaiLetterLikeAt text stop = false ∧
          (joyaiAsciiPunctSymbol (byteAt text stop) = true →
            byteAt text (stop - 1) ≠ 32))
  | other (notMark : joyaiAsciiPunctSymbol (byteAt text start) = false)
      (notSpace : asciiSpace (byteAt text start) = false)
      (long : stop = start + 1) (stops : joyaiLetterLikeAt text stop = false)

variable {text : Bytes} {start : Nat}

theorem not_cut_of_continues {i : Nat} (continues : Continues (byteAt text i)) : ¬ Cut text i := by
  intro cut
  have nonzero : byteAt text i ≠ 0 := by
    intro zero
    rw [zero] at continues
    revert continues
    decide
  exact cut _ (getElem?_eq_byteAt (lt_length_of_byteAt_ne nonzero)) continues

theorem letterLike_of_continues {i : Nat} (continues : Continues (byteAt text i)) :
    joyaiLetterLikeAt text i = true := by
  have high : ¬ byteAt text i < 128 := by
    rw [UInt8.lt_iff_toNat_lt]
    exact Nat.not_lt.mpr continues.1
  simp [joyaiLetterLikeAt, high]

variable {pos : Nat}

theorem joyaiLetterLikeAt_of_length_le (le : text.length ≤ pos) :
    joyaiLetterLikeAt text pos = false := by
  simp [joyaiLetterLikeAt, byteAt_of_length_le le, asciiAlpha]

theorem joyaiCjkAt_of_length_le (le : text.length ≤ pos) : joyaiCjkAt text pos = false := by
  simp [joyaiCjkAt, byteAt_of_length_le le]

theorem joyaiConsumeLetters_spec (valid : Valid text) (cut : Cut text pos) :
    (∀ i, pos ≤ i → i < joyaiConsumeLetters text pos → joyaiLetterLikeAt text i = true) ∧
      joyaiLetterLikeAt text (joyaiConsumeLetters text pos) = false := by
  constructor
  · intro i le lt
    rcases (charLoop_run_accepts valid cut).2 i le lt with ⟨_, accepted⟩ | continues
    · exact accepted
    · exact letterLike_of_continues continues
  · exact charLoop_run_stops fun _ => joyaiLetterLikeAt_of_length_le

theorem lt_joyaiConsumeLetters (valid : Valid text) (cut : Cut text pos)
    (inside : pos < text.length) (isLetter : joyaiLetterLikeAt text pos = true) :
    pos < joyaiConsumeLetters text pos := by
  apply lt_of_le_of_ne (charLoop_run_bounds _ inside.le).1
  intro (same : pos = joyaiConsumeLetters text pos)
  have stops := (joyaiConsumeLetters_spec valid cut).2
  rw [← same, isLetter] at stops
  cases stops

theorem cut_succ_of_not_letterLike (valid : Valid text)
    (notLetter : joyaiLetterLikeAt text start = false) : Cut text (start + 1) := by
  apply cut_succ_of_ascii valid
  by_contra high
  simp [joyaiLetterLikeAt, high] at notLetter

theorem lt_scanBytes {accept : UInt8 → Bool} (atEnd : accept 0 = false)
    (accepted : accept (byteAt text start) = true) : start < scanBytes accept text start := by
  apply lt_of_le_of_ne (Nat.le_add_right _ _)
  intro (same : start = scanBytes accept text start)
  have stops := (scanBytes_spec accept atEnd text start).2
  rw [← same, accepted] at stops
  cases stops

/-- The whitespace case ends behind the last newline, or in front of the last blank,
or behind all of them where neither a word nor punctuation takes the blank. -/
theorem spaceEnd_shape (isSpace : asciiSpace (byteAt text start) = true)
    (notLed : asciiNewline (byteAt text start) = true ∨ joyaiLetterLikeAt text (start + 1) = false)
    (notMarked : byteAt text start = 32 → joyaiAsciiPunctSymbol (byteAt text (start + 1)) = false) :
    start < spaceEnd text start ∧ PieceShape text start (spaceEnd text start) := by
  obtain ⟨⟨startLe, blanks, newline⟩, stops⟩ := spaceLoop_run_spec text start
  unfold spaceEnd
  generalize (spaceLoop text).run (start, 0) = scanned at startLe blanks newline stops ⊢
  obtain ⟨p, lastNewlineEnd⟩ := scanned
  simp only at startLe blanks newline stops ⊢
  have startLt : start < p := by
    apply lt_of_le_of_ne startLe
    rintro rfl
    rw [isSpace] at stops
    cases stops
  split
  next found =>
    rcases newline with ⟨none, _⟩ | ⟨lt, le, last⟩
    · exact absurd none found
    · exact ⟨lt, .newlines (fun i le' lt' => blanks i le' (by omega)) last⟩
  rename_i noneFound
  have noNewline : asciiNewline (byteAt text start) = false := by
    rcases newline with ⟨_, none⟩ | ⟨lt, _, _⟩
    · exact none start le_rfl startLt
    · omega
  split
  next leaves =>
    refine ⟨by omega, .blanks (fun i le lt => blanks i le (by omega)) (.inl ?_)⟩
    exact blanks (p - 1) (by omega) (by omega)
  next takesAll =>
    refine ⟨startLt, .blanks blanks (.inr ?_)⟩
    rcases Nat.eq_or_lt_of_le (Nat.succ_le_of_lt startLt) with single | several
    · -- A single blank in front of a word or punctuation belongs to another case.
      subst single
      refine ⟨?_, ?_⟩
      · rcases notLed with isNewline | notLetter
        · rw [noNewline] at isNewline
          cases isNewline
        · exact notLetter
      · intro isMark isBlank
        rw [notMarked isBlank] at isMark
        cases isMark
    · rcases Nat.lt_or_ge p text.length with before | past
      · have neither : (joyaiLetterLikeAt text p ||
            joyaiAsciiPunctSymbol (byteAt text p)) = false := by
          by_contra either
          rw [Bool.not_eq_false] at either
          exact takesAll ⟨before, by omega, either⟩
        rw [Bool.or_eq_false_iff] at neither
        exact ⟨neither.1, fun isMark => by rw [neither.2] at isMark; cases isMark⟩
      · refine ⟨joyaiLetterLikeAt_of_length_le past, fun isMark => ?_⟩
        rw [byteAt_of_length_le past] at isMark
        cases isMark

theorem pieceEnd_shape (valid : Valid text) (cut : Cut text start) (inside : start < text.length) :
    start < pieceEnd text start ∧ PieceShape text start (pieceEnd text start) := by
  unfold pieceEnd
  dsimp only
  split
  next isDigit =>
    have longer := lt_scanBytes (by rfl) isDigit
    refine ⟨by omega, .digits fun i le lt => ?_⟩
    exact (scanBytes_spec asciiDigit rfl text start).1 i le (by omega)
  rename_i notDigit
  split
  next isCjk =>
    have afterCut := cut_afterChar valid cut inside
    have after := lt_afterChar text start
    have bounds := charLoop_run_bounds joyaiCjkAt (afterChar_le inside)
    refine ⟨by omega, .cjk (fun i le lt indexCut => ?_)
      (charLoop_run_stops fun _ => joyaiCjkAt_of_length_le)
      (charLoop_run_accepts valid afterCut).1⟩
    rcases Nat.lt_or_ge i (afterChar text start) with inChar | behind
    · rcases Nat.eq_or_lt_of_le le with rfl | later
      · exact isCjk
      · exact absurd indexCut
          (not_cut_of_continues (continues_inside valid cut later inChar inside))
    · rcases (charLoop_run_accepts valid afterCut).2 i behind lt with
        ⟨_, accepted⟩ | continues
      · exact accepted
      · exact absurd indexCut (not_cut_of_continues continues)
  split
  next marked =>
    have longer := lt_scanBytes (by rfl) marked.2.2
    refine ⟨by omega, .marked marked.1 longer fun i lt lt' => ?_⟩
    exact (scanBytes_spec asciiAlpha rfl text (start + 1)).1 i lt lt'
  split
  next isLetter =>
    obtain ⟨all, stops⟩ := joyaiConsumeLetters_spec valid cut
    exact ⟨lt_joyaiConsumeLetters valid cut inside isLetter, .letters all stops⟩
  rename_i notCjk notMarked notLetter
  have notLetter' : joyaiLetterLikeAt text start = false := by simpa using notLetter
  split
  next led =>
    have nextCut := cut_succ_of_not_letterLike valid notLetter'
    obtain ⟨all, stops⟩ := joyaiConsumeLetters_spec valid nextCut
    have longer := lt_joyaiConsumeLetters valid nextCut led.2.2.1 led.2.2.2
    exact ⟨by omega, .led notLetter' (by simpa using notDigit) (by simpa using led.1)
      (by simpa using led.2.1) longer all stops⟩
  rename_i notLed
  split
  next blankMarks =>
    have longer := lt_scanBytes (by rfl) blankMarks.2.2
    obtain ⟨marks, stops⟩ := scanBytes_spec joyaiAsciiPunctSymbol rfl text (start + 1)
    have newlines := (scanBytes_spec asciiNewline rfl text
      (scanBytes joyaiAsciiPunctSymbol text (start + 1))).1
    have le : scanBytes joyaiAsciiPunctSymbol text (start + 1) ≤ scanBytes asciiNewline text
          (scanBytes joyaiAsciiPunctSymbol text (start + 1)) := Nat.le_add_right _ _
    exact ⟨by omega, .marks (.inr ⟨by simpa using blankMarks.1, longer⟩) (by omega) le
      marks stops newlines⟩
  rename_i notBlankMarks
  split
  next isMark =>
    have longer := lt_scanBytes (by rfl) isMark
    obtain ⟨marks, stops⟩ := scanBytes_spec joyaiAsciiPunctSymbol rfl text start
    have newlines := (scanBytes_spec asciiNewline rfl text
      (scanBytes joyaiAsciiPunctSymbol text start)).1
    have le : scanBytes joyaiAsciiPunctSymbol text start ≤ scanBytes asciiNewline text
          (scanBytes joyaiAsciiPunctSymbol text start) := Nat.le_add_right _ _
    exact ⟨by omega, .marks (.inl isMark) longer le
      (fun i lt => marks i lt.le) stops newlines⟩
  rename_i notMark
  have notMark' : joyaiAsciiPunctSymbol (byteAt text start) = false := by simpa using notMark
  have nextLetter : asciiNewline (byteAt text start) = true ∨
      joyaiLetterLikeAt text (start + 1) = false := by
    rcases Nat.lt_or_ge (start + 1) text.length with nextInside | past
    · by_contra neither
      obtain ⟨notNewline, letter⟩ := not_or.mp neither
      exact notLed ⟨by simpa using notNewline, by simpa using notMark', nextInside,
        by simpa using letter⟩
    · exact .inr (joyaiLetterLikeAt_of_length_le past)
  split
  next isSpace =>
    apply spaceEnd_shape isSpace nextLetter
    intro isBlank
    by_contra nextMark
    have nextMark' : joyaiAsciiPunctSymbol (byteAt text (start + 1)) = true := by
      simpa using nextMark
    have nextInside : start + 1 < text.length := by
      apply lt_length_of_byteAt_ne
      intro zero
      rw [zero] at nextMark'
      cases nextMark'
    exact notBlankMarks ⟨by simpa using isBlank, nextInside, nextMark'⟩
  next notSpace =>
    have notSpace' : asciiSpace (byteAt text start) = false := by simpa using notSpace
    have ascii : byteAt text start < 128 := by
      by_contra high
      simp [joyaiLetterLikeAt, high] at notLetter'
    have after := afterChar_of_ascii ascii inside
    refine ⟨lt_afterChar _ _, .other notMark' notSpace' after ?_⟩
    rw [after]
    rcases nextLetter with isNewline | notNext
    · simp only [asciiNewline, asciiSpace, Bool.or_eq_true, Bool.or_eq_false_iff,
        beq_iff_eq] at isNewline notSpace'
      rcases isNewline with isNewline | isNewline <;> simp [isNewline] at notSpace'
    · exact notNext

theorem pieceNext_shape (valid : Valid text) (cut : Cut text start) (inside : start < text.length) :
    PieceShape text start (pieceNext text start) := by
  obtain ⟨lt, shape⟩ := pieceEnd_shape valid cut inside
  unfold pieceNext
  rw [if_neg (by omega)]
  exact shape

theorem ascii_of_test {byte : UInt8} (test : asciiDigit byte = true ∨ asciiAlpha byte = true ∨
      joyaiAsciiPunctSymbol byte = true ∨ asciiSpace byte = true) : byte < 128 := by
  have table : ∀ v < 256, asciiDigit (UInt8.ofNat v) = true ∨ asciiAlpha (UInt8.ofNat v) = true ∨
      joyaiAsciiPunctSymbol (UInt8.ofNat v) = true ∨
      asciiSpace (UInt8.ofNat v) = true → UInt8.ofNat v < 128 := by
    decide +kernel
  have row := table byte.toNat byte.toNat_lt
  rw [UInt8.ofNat_toNat] at row
  exact row test

theorem space_of_newline {byte : UInt8} (isNewline : asciiNewline byte = true) :
    asciiSpace byte = true := by
  simp only [asciiNewline, asciiSpace, Bool.or_eq_true, beq_iff_eq] at isNewline ⊢
  tauto

theorem PieceShape.last_of_marks {middle stop : Nat}
    (first : joyaiAsciiPunctSymbol (byteAt text start) = true ∨
      byteAt text start = 32 ∧ start + 1 < middle)
    (long : start < middle) (le : middle ≤ stop)
    (marks : ∀ i, start < i → i < middle → joyaiAsciiPunctSymbol (byteAt text i) = true)
    (newlines : ∀ i, middle ≤ i → i < stop → asciiNewline (byteAt text i) = true) :
    joyaiAsciiPunctSymbol (byteAt text (stop - 1)) = true ∨
      asciiNewline (byteAt text (stop - 1)) = true := by
  rcases Nat.eq_or_lt_of_le le with rfl | lt
  · rcases Nat.eq_or_lt_of_le (Nat.succ_le_of_lt long) with single | several
    · rcases first with isMark | ⟨_, longer⟩
      · rw [← single]
        exact .inl isMark
      · omega
    · exact .inl (marks _ (by omega) (by omega))
  · exact .inr (newlines _ (by omega) (by omega))

theorem PieceShape.cut_stop {stop : Nat} (valid : Valid text)
    (shape : PieceShape text start stop) (lt : start < stop) : Cut text stop := by
  have behind : byteAt text (stop - 1) < 128 → Cut text stop := by
    intro ascii
    have cut := cut_succ_of_ascii valid ascii
    rwa [Nat.sub_add_cancel (by omega)] at cut
  have before : joyaiLetterLikeAt text stop = false → Cut text stop := by
    intro notLetter byte found continues
    have byteEq : byteAt text stop = byte := by simp [byteAt, found]
    rw [← byteEq] at continues
    rw [letterLike_of_continues continues] at notLetter
    cases notLetter
  cases shape with
  | digits all => exact behind (ascii_of_test (.inl (all _ (by omega) (by omega))))
  | cjk _ _ cut => exact cut
  | marked _ long letters =>
    exact behind (ascii_of_test (.inr (.inl (letters _ (by omega) (by omega)))))
  | letters _ stops => exact before stops
  | led _ _ _ _ _ _ stops => exact before stops
  | marks first long le marks _ newlines =>
    rcases PieceShape.last_of_marks first long le marks newlines with isMark | isNewline
    · exact behind (ascii_of_test (.inr (.inr (.inl isMark))))
    · exact behind (ascii_of_test (.inr (.inr (.inr (space_of_newline isNewline)))))
  | newlines all _ =>
    exact behind (ascii_of_test (.inr (.inr (.inr (all _ (by omega) (by omega))))))
  | blanks all _ => exact behind (ascii_of_test (.inr (.inr (.inr (all _ (by omega) (by omega))))))
  | other _ _ _ stops => exact before stops

end Shapes

end LnaLang
