import LnaLang.PieceShapes

/-!
# Runs of CJK and kana

The pre-tokenizer means to cut off every run of CJK and kana characters as a piece of
its own.  It does so for a run that starts a piece.  Letters swallow a run, since every
byte from 128 on counts as a letter, so a run is isolated only behind a digit, a
punctuation mark or a newline, behind a word that starts with a lone mark, or at the
start of the text.
-/

namespace LnaLang.CjkRuns

open List

open Utf8Text

section Starts

inductive Starts (text : Bytes) : Nat → Prop
  | zero : Starts text 0
  | next {start : Nat} : Starts text start → start < text.length →
      Starts text (pieceNext text start)

variable {text : Bytes} {start : Nat}

theorem Starts.cut (valid : Valid text) (starts : Starts text start) : Cut text start := by
  induction starts with
  | zero => exact valid.cut_zero
  | next _ inside ih =>
    exact (pieceNext_shape valid ih inside).cut_stop valid (pieceNext_bounds inside).1

theorem exists_starts {position : Nat} (inside : position < text.length) :
    ∃ start, Starts text start ∧ start ≤ position ∧ position < pieceNext text start := by
  classical
  have starts : Starts text (Nat.findGreatest (Starts text) position) :=
    Nat.findGreatest_spec (Nat.zero_le position) .zero
  have le : Nat.findGreatest (Starts text) position ≤ position := Nat.findGreatest_le position
  refine ⟨_, starts, le, ?_⟩
  by_contra past
  have later := Starts.next starts (by omega)
  have bounds := pieceNext_bounds (Nat.lt_of_le_of_lt le inside)
  have greatest := Nat.le_findGreatest (Nat.le_of_not_lt past) later
  omega

theorem Starts.cases_of_pos (starts : Starts text start) (pos : 0 < start) :
    ∃ before, Starts text before ∧ before < text.length ∧ pieceNext text before = start := by
  cases starts with
  | zero => omega
  | next earlier inside => exact ⟨_, earlier, inside, rfl⟩

end Starts

section Separation

/-- The tests of the split on one byte. -/
def separates (byte : UInt8) : Bool :=
  asciiDigit byte || joyaiAsciiPunctSymbol byte || asciiNewline byte

/-- What stands in front of a position keeps letters away from it: nothing, a digit, a
mark or a newline, or a word that starts with a mark which is neither part of other
punctuation nor led by a blank. -/
def SeparatedAt (text : Bytes) (position : Nat) : Prop :=
  position = 0 ∨ separates (byteAt text (position - 1)) = true ∨
    ∃ mark, mark + 1 < position ∧ joyaiAsciiPunctSymbol (byteAt text mark) = true ∧
      (∀ index, mark < index → index < position → asciiAlpha (byteAt text index) = true) ∧
      (mark = 0 ∨ joyaiAsciiPunctSymbol (byteAt text (mark - 1)) = false ∧
        byteAt text (mark - 1) ≠ 32)

theorem byte_tests (byte : UInt8) : (joyaiAsciiPunctSymbol byte = true → asciiDigit byte = false ∧
      asciiAlpha byte = false ∧ asciiSpace byte = false ∧ byte < 128) ∧
    (asciiDigit byte = true → asciiAlpha byte = false ∧ asciiSpace byte = false ∧ byte < 128) ∧
    (asciiAlpha byte = true → asciiSpace byte = false ∧ byte < 128) ∧
    (asciiSpace byte = true → byte < 128) ∧
    (byte = 32 → asciiNewline byte = false ∧ asciiDigit byte = false ∧
      asciiAlpha byte = false ∧ asciiSpace byte = true) := by
  revert byte
  refine fun byte => forall_byte ?_ byte
  decide +kernel

variable {text : Bytes} {start position : Nat}

theorem letterLike_iff {i : Nat} : joyaiLetterLikeAt text i = true ↔
    asciiAlpha (byteAt text i) = true ∨ ¬ byteAt text i < 128 := by
  have tests := byte_tests (byteAt text i)
  unfold joyaiLetterLikeAt
  dsimp only
  split
  · simp_all
  · simp_all

theorem cut_of_ascii {i : Nat} (ascii : byteAt text i < 128) : Cut text i := by
  by_contra notCut
  unfold Cut at notCut
  push Not at notCut
  obtain ⟨byte, found, continues⟩ := notCut
  have byteEq : byteAt text i = byte := by simp [byteAt, found]
  rw [byteEq, UInt8.lt_iff_toNat_lt] at ascii
  exact absurd ascii (Nat.not_lt.mpr continues.1)

theorem joyaiCjkAt_of_ascii {i : Nat} (ascii : byteAt text i < 128) :
    joyaiCjkAt text i = false := by
  simp [joyaiCjkAt, ascii]

theorem Starts.before_mark (valid : Valid text) (starts : Starts text start)
    (isMark : joyaiAsciiPunctSymbol (byteAt text start) = true) :
    start = 0 ∨ joyaiAsciiPunctSymbol (byteAt text (start - 1)) = false ∧
      byteAt text (start - 1) ≠ 32 := by
  rcases Nat.eq_zero_or_pos start with zero | pos
  · exact .inl zero
  right
  obtain ⟨before, earlier, inside, rfl⟩ := starts.cases_of_pos pos
  have shape := pieceNext_shape valid (earlier.cut valid) inside
  have lt := (pieceNext_bounds inside).1
  generalize pieceNext text before = stop at *
  have tests := byte_tests (byteAt text (stop - 1))
  have stopTests := byte_tests (byteAt text stop)
  cases shape with
  | digits all =>
    have last := all (stop - 1) (by omega) (by omega)
    grind
  | cjk all _ _ =>
    have high : ¬ byteAt text (stop - 1) < 128 := by
      intro ascii
      have isCjk := all (stop - 1) (by omega) (by omega) (cut_of_ascii ascii)
      rw [joyaiCjkAt_of_ascii ascii] at isCjk
      cases isCjk
    grind
  | marked _ long letters =>
    have last := letters (stop - 1) (by omega) (by omega)
    grind
  | letters all _ =>
    have last := letterLike_iff.mp (all (stop - 1) (by omega) (by omega))
    grind
  | led _ _ _ _ long letters _ =>
    have last := letterLike_iff.mp (letters (stop - 1) (by omega) (by omega))
    grind
  | marks _ _ le _ stops newlines =>
    rcases Nat.eq_or_lt_of_le le with rfl | more
    · rw [stops] at isMark
      cases isMark
    · have last := newlines (stop - 1) (by omega) (by omega)
      have blank := space_of_newline last
      grind
  | newlines _ last =>
    have blank := space_of_newline last
    grind
  | blanks all stops =>
    have blank := all (stop - 1) (by omega) (by omega)
    grind
  | other notMark notSpace long _ =>
    subst long
    rw [Nat.add_sub_cancel] at tests ⊢
    grind

theorem starts_of_mark (valid : Valid text)
    (isMark : joyaiAsciiPunctSymbol (byteAt text position) = true)
    (before : position = 0 ∨ joyaiAsciiPunctSymbol (byteAt text (position - 1)) = false ∧
      byteAt text (position - 1) ≠ 32) : Starts text position := by
  rcases before with rfl | ⟨notMark, notBlank⟩
  · exact .zero
  have nonzero : byteAt text position ≠ 0 := by
    intro zero
    rw [zero] at isMark
    cases isMark
  obtain ⟨start, starts, le, lt⟩ := exists_starts (lt_length_of_byteAt_ne nonzero)
  rcases Nat.eq_or_lt_of_le le with rfl | inside
  · exact starts
  exfalso
  have startInside : start < text.length := by
    have := lt_length_of_byteAt_ne nonzero
    omega
  have shape := pieceNext_shape valid (starts.cut valid) startInside
  have tests := byte_tests (byteAt text position)
  generalize pieceNext text start = stop at *
  cases shape with
  | digits all =>
    have isDigit := all position le lt
    grind
  | cjk all _ _ =>
    have ascii : byteAt text position < 128 := (tests.1 isMark).2.2.2
    have isCjk := all position le lt (cut_of_ascii ascii)
    rw [joyaiCjkAt_of_ascii ascii] at isCjk
    cases isCjk
  | marked _ _ letters =>
    have letter := letters position inside lt
    grind
  | letters all _ =>
    have letter := letterLike_iff.mp (all position le lt)
    grind
  | led _ _ _ _ _ letters _ =>
    have letter := letterLike_iff.mp (letters position inside lt)
    grind
  | @marks middle first _ _ marks _ newlines =>
    rcases Nat.lt_or_ge position middle with inMarks | behind
    · rcases Nat.eq_or_lt_of_le (Nat.le_sub_one_of_lt inside) with second | later
      · rw [← second] at notMark notBlank
        grind
      · rw [marks (position - 1) later (by omega)] at notMark
        cases notMark
    · have blank := space_of_newline (newlines position behind lt)
      grind
  | newlines all _ =>
    have blank := all position le lt
    grind
  | blanks all _ =>
    have blank := all position le lt
    grind
  | other _ _ long _ => omega

theorem pieceNext_of_mark {mark : Nat} (isMark : joyaiAsciiPunctSymbol (byteAt text mark) = true)
    (long : mark + 1 < position)
    (letters : ∀ i, mark < i → i < position → asciiAlpha (byteAt text i) = true)
    (stops : asciiAlpha (byteAt text position) = false) : pieceNext text mark = position := by
  have tests := byte_tests (byteAt text mark)
  have firstLetter := letters (mark + 1) (by omega) long
  have nextInside : mark + 1 < text.length := by
    apply lt_length_of_byteAt_ne
    intro zero
    rw [zero] at firstLetter
    cases firstLetter
  have scan : scanBytes asciiAlpha text (mark + 1) = position := by
    obtain ⟨scanned, scanStops⟩ := scanBytes_spec asciiAlpha rfl text (mark + 1)
    rcases Nat.lt_trichotomy (scanBytes asciiAlpha text (mark + 1)) position with
      short | same | long
    · have le : mark + 1 ≤ scanBytes asciiAlpha text (mark + 1) := Nat.le_add_right _ _
      rw [letters _ le short] at scanStops
      cases scanStops
    · exact same
    · rw [scanned position (by omega) long] at stops
      cases stops
  have piece : pieceEnd text mark = position := by
    unfold pieceEnd
    dsimp only
    rw [if_neg (by grind), joyaiCjkAt_of_ascii (tests.1 isMark).2.2.2, if_neg (by simp),
      if_pos ⟨isMark, nextInside, firstLetter⟩, scan]
  unfold pieceNext
  rw [piece, if_neg (by omega)]

theorem exists_charBefore (valid : Valid text) (cut : Cut text position)
    (pos : 0 < position) (le : position ≤ text.length) :
    ∃ before, before < position ∧ Cut text before ∧ afterChar text before = position := by
  obtain ⟨start, char, rest, here, validRest, startLe, inChar⟩ :=
    valid.char_at (show position - 1 < text.length by omega)
  have startCut : Cut text start := by
    intro byte found
    have validHere : Valid (text.drop start) := by
      rw [here]
      exact (valid_encode char).append validRest
    apply validHere.cut_zero byte
    rwa [getElem?_drop]
  have after : afterChar text start = start + (String.utf8EncodeChar char).length := by
    rw [afterChar, here, nextUtf8Char_encode]
  refine ⟨start, by omega, startCut, ?_⟩
  obtain ⟨off, rfl⟩ := Nat.exists_eq_add_of_le (show start ≤ position by omega)
  rcases cut.not_inside here with zero | whole <;> omega

theorem starts_iff_separatedAt (valid : Valid text) (cut : Cut text position)
    (isCjk : joyaiCjkAt text position = true)
    (notBefore : ∀ before, Cut text before → afterChar text before = position →
      joyaiCjkAt text before = false) : Starts text position ↔ SeparatedAt text position := by
  have high : ¬ byteAt text position < 128 := by
    intro ascii
    rw [joyaiCjkAt_of_ascii ascii] at isCjk
    cases isCjk
  have isLetter : joyaiLetterLikeAt text position = true := letterLike_iff.mpr (.inr high)
  have inside : position < text.length := by
    by_contra past
    rw [joyaiCjkAt_of_length_le (Nat.le_of_not_lt past)] at isCjk
    cases isCjk
  have tests := byte_tests (byteAt text position)
  constructor
  · intro starts
    rcases Nat.eq_zero_or_pos position with zero | pos
    · exact .inl zero
    right
    obtain ⟨before, earlier, beforeInside, rfl⟩ := starts.cases_of_pos pos
    have shape := pieceNext_shape valid (earlier.cut valid) beforeInside
    have lt := (pieceNext_bounds beforeInside).1
    generalize pieceNext text before = stop at *
    cases shape with
    | digits all =>
      left
      simp [separates, all (stop - 1) (by omega) (by omega)]
    | cjk _ stops _ =>
      rw [stops] at isCjk
      cases isCjk
    | marked mark long letters =>
      exact .inr ⟨before, long, mark, letters, earlier.before_mark valid mark⟩
    | letters _ stops =>
      rw [stops] at isLetter
      cases isLetter
    | led _ _ _ _ _ _ stops =>
      rw [stops] at isLetter
      cases isLetter
    | marks first long le marks _ newlines =>
      left
      rcases PieceShape.last_of_marks first long le marks newlines with
        isMark | isNewline
      · simp [separates, isMark]
      · simp [separates, isNewline]
    | newlines _ last =>
      left
      simp [separates, last]
    | blanks _ stops => grind
    | other _ _ _ stops =>
      rw [stops] at isLetter
      cases isLetter
  · rintro (rfl | separated | ⟨mark, long, isMark, letters, before⟩)
    · exact .zero
    · obtain ⟨start, starts, le, lt⟩ := exists_starts inside
      rcases Nat.eq_or_lt_of_le le with rfl | inPiece
      · exact starts
      exfalso
      have shape := pieceNext_shape valid (starts.cut valid) (by omega)
      have lastTests := byte_tests (byteAt text (position - 1))
      have isLast : asciiDigit (byteAt text (position - 1)) = true ∨
          joyaiAsciiPunctSymbol (byteAt text (position - 1)) = true ∨
          asciiNewline (byteAt text (position - 1)) = true := by
        simpa [separates, or_assoc] using separated
      have newlineIsSpace := @space_of_newline (byteAt text (position - 1))
      generalize pieceNext text start = stop at *
      cases shape with
      | digits all =>
        have isDigit := all position le lt
        grind
      | cjk all _ _ =>
        obtain ⟨before, beforeLt, beforeCut, after⟩ :=
          exists_charBefore valid cut (by omega) inside.le
        have startLe : start ≤ before := by
          by_contra beforeStart
          exact not_cut_of_continues (continues_inside valid beforeCut
            (Nat.lt_of_not_le beforeStart) (by omega) (by omega)) (starts.cut valid)
        have beforeCjk := all before startLe (by omega) beforeCut
        rw [notBefore before beforeCut after] at beforeCjk
        cases beforeCjk
      | marked _ _ letters =>
        have letter := letters position inPiece lt
        grind
      | letters all _ =>
        have letter := letterLike_iff.mp (all (position - 1) (by omega) (by omega))
        grind
      | led _ notDigit notNewline notMark _ letters _ =>
        rcases Nat.eq_or_lt_of_le (Nat.le_sub_one_of_lt inPiece) with first | later
        · rw [← first] at isLast
          grind
        · have letter := letterLike_iff.mp (letters (position - 1) later (by omega))
          grind
      | @marks middle first _ _ marks _ newlines =>
        have ends := byte_tests (byteAt text position)
        have endSpace := @space_of_newline (byteAt text position)
        rcases Nat.lt_or_ge position middle with inMarks | behind
        · have isMark := marks position inPiece inMarks
          grind
        · have isNewline := newlines position behind lt
          grind
      | newlines all _ =>
        have blank := all position le lt
        grind
      | blanks all _ =>
        have blank := all position le lt
        grind
      | other _ _ single _ => omega
    · have notAlpha : asciiAlpha (byteAt text position) = false := by grind
      have starts := starts_of_mark valid isMark before
      rw [← pieceNext_of_mark isMark long letters notAlpha]
      exact .next starts (by omega)

end Separation

section Pieces

/-- The pieces that `bpe_tokenize_text` hands to `bpe_emit_piece`. -/
def pieces (text : Bytes) : List Bytes :=
  (pieceLoop (fun piece => [piece]) text).run (0, [])

def pieceAt (text : Bytes) (start : Nat) : Bytes :=
  (text.drop start).take (pieceNext text start - start)

variable {text : Bytes} {start : Nat}

theorem pieceLoop_step (inside : start < text.length) (out : List Bytes) :
    (pieceLoop (fun piece => [piece]) text).step (start, out) =
      .inl (pieceNext text start, out ++ [pieceAt text start]) := by
  simp only [pieceLoop, if_pos inside]
  rfl

theorem flatten_append_pieceAt {out : List Bytes} (inside : start < text.length)
    (flatten : out.flatten = text.take start) :
    (out ++ [pieceAt text start]).flatten = text.take (pieceNext text start) := by
  have bounds := pieceNext_bounds inside
  rw [flatten_append, flatten, flatten_singleton, pieceAt,
    ← take_add, Nat.add_sub_cancel' bounds.1.le]

theorem prefix_pieceLoop_run (text : Bytes) (state : Nat × List Bytes) :
    state.2 <+: (pieceLoop (fun piece => [piece]) text).run state := by
  refine (pieceLoop (fun piece => [piece]) text).run_induction
    (fun entry result => entry.2 <+: result) ?_ ?_ state
  · rintro ⟨position, out⟩ result halted
    simp only [pieceLoop] at halted
    split at halted <;> cases halted
    exact prefix_rfl
  · rintro ⟨position, out⟩ following step later
    simp only [pieceLoop] at step
    split at step <;> cases step
    exact (prefix_append _ _).trans later

theorem pieces_of_starts (starts : Starts text start) :
    ∃ out, pieces text = (pieceLoop (fun piece => [piece]) text).run (start, out) ∧
      out.flatten = text.take start := by
  induction starts with
  | zero => exact ⟨[], rfl, by simp⟩
  | next _ inside ih =>
    obtain ⟨out, same, flatten⟩ := ih
    refine ⟨_, same.trans ((pieceLoop _ text).run_of_step (pieceLoop_step inside out)),
      flatten_append_pieceAt inside flatten⟩

theorem starts_of_pieces {before after : List Bytes} {piece : Bytes}
    (split : pieces text = before ++ piece :: after) :
    Starts text before.flatten.length ∧ piece = pieceAt text before.flatten.length := by
  refine (pieceLoop (fun piece => [piece]) text).run_induction
    (fun entry result => Starts text entry.1 → entry.2.flatten.length = entry.1 →
      ∀ before piece after, result = before ++ piece :: after →
        entry.2.length ≤ before.length → Starts text before.flatten.length ∧
          piece = pieceAt text before.flatten.length)
    ?_ ?_ (0, []) .zero rfl before piece after split (Nat.zero_le _)
  · rintro ⟨position, out⟩ result halted _ _ before piece after same le
    simp only [pieceLoop] at halted
    split at halted <;> cases halted
    rw [same, length_append, length_cons] at le
    omega
  · rintro ⟨position, out⟩ following step later starts flatten before piece after same le
    have inside : position < text.length := by
      by_contra past
      simp only [pieceLoop, if_neg past] at step
      cases step
    rw [pieceLoop_step inside] at step
    cases step
    simp only at starts flatten le
    have bounds := pieceNext_bounds inside
    rcases Nat.eq_or_lt_of_le le with sameLength | longer
    · obtain ⟨rest, restEq⟩ := prefix_pieceLoop_run text
        (pieceNext text position, out ++ [pieceAt text position])
      rw [same, append_assoc, singleton_append] at restEq
      obtain ⟨rfl, tails⟩ := append_inj restEq sameLength
      cases tails
      rw [flatten]
      exact ⟨starts, rfl⟩
    · refine later (.next starts inside) ?_ before piece after same (by simpa using longer)
      rw [flatten_append, length_append, flatten, flatten_singleton, pieceAt,
        length_take, length_drop]
      simp only
      omega

end Pieces

section Runs

/-- The bytes of some characters. -/
def encode (chars : List Char) : Bytes :=
  chars.flatMap String.utf8EncodeChar

def isCjk (char : Char) : Bool :=
  utf8IsCjkHiraKata char.val.toNat

structure CjkRun (front run back : List Char) : Prop where
  nonempty : run ≠ []
  all : ∀ char ∈ run, isCjk char = true
  front : ∀ char ∈ front.getLast?, isCjk char = false
  back : ∀ char ∈ back.head?, isCjk char = false

/-- A run is a piece of its own. -/
def Isolated (front run back : List Char) : Prop :=
  ∃ before after, pieces (encode (front ++ run ++ back)) = before ++ encode run :: after ∧
    before.flatten = encode front

theorem encode_append (first second : List Char) :
    encode (first ++ second) = encode first ++ encode second :=
  flatMap_append

theorem encode_cons (char : Char) (chars : List Char) :
    encode (char :: chars) = String.utf8EncodeChar char ++ encode chars :=
  flatMap_cons

variable {text : Bytes} {position : Nat} {rest : Bytes} {char : Char}
  (here : text.drop position = String.utf8EncodeChar char ++ rest)

include here

theorem joyaiCjkAt_eq : joyaiCjkAt text position = isCjk char := by
  have v := utf8PeekOne_encode here
  unfold joyaiCjkAt isCjk
  split
  next ascii =>
    obtain ⟨lead, conts, same, leads, _⟩ := encode_eq char
    have byteEq : byteAt text position = lead := by
      rw [← Nat.add_zero position, byteAt_add, here, same]
      rfl
    rw [byteEq] at ascii
    have single := leads.eq_one (UInt8.lt_iff_toNat_lt.mp ascii)
    rw [utf8PeekOne, here, nextUtf8Char_encode, same, length_cons, single] at v
    dsimp only at v
    rw [byteEq] at v
    have small : char.val.toNat < 128 := v ▸ UInt8.lt_iff_toNat_lt.mp ascii
    simp only [utf8IsCjkHiraKata]
    grind
  · rw [v]

theorem afterChar_eq :
    afterChar text position = position + (String.utf8EncodeChar char).length := by
  rw [afterChar, here, nextUtf8Char_encode]

theorem drop_afterChar : text.drop (position + (String.utf8EncodeChar char).length) = rest := by
  rw [← drop_drop, here, drop_left' rfl]

theorem lt_length_of_drop : position < text.length := by
  by_contra past
  rw [drop_of_length_le (Nat.le_of_not_lt past)] at here
  obtain ⟨lead, conts, same, _⟩ := encode_eq char
  rw [same] at here
  cases here

omit here

theorem charLoop_run_encode {run back : List Char}
    (here : text.drop position = encode run ++ encode back) (all : ∀ char ∈ run, isCjk char = true)
    (stops : ∀ char ∈ back.head?, isCjk char = false) :
    (charLoop joyaiCjkAt text).run position = position + (encode run).length := by
  induction run generalizing position with
  | nil =>
    have notCjk : ¬ (position < text.length ∧ joyaiCjkAt text position) := by
      rintro ⟨inside, isCjk⟩
      cases back with
      | nil =>
        simp only [encode, flatMap_nil, append_nil, drop_eq_nil_iff] at here
        omega
      | cons char back =>
        rw [encode_cons] at here
        rw [joyaiCjkAt_eq here, stops char rfl] at isCjk
        cases isCjk
    apply (charLoop joyaiCjkAt text).run_of_halt
    simp only [charLoop, if_neg notCjk]
    rfl
  | cons char run ih =>
    rw [encode_cons, append_assoc] at here
    have accepts : position < text.length ∧ joyaiCjkAt text position = true :=
      ⟨lt_length_of_drop here, (joyaiCjkAt_eq here).trans (all char mem_cons_self)⟩
    have step : (charLoop joyaiCjkAt text).step position = .inl (afterChar text position) := by
      simp only [charLoop, if_pos accepts]
    rw [(charLoop joyaiCjkAt text).run_of_step step, afterChar_eq here,
      ih (drop_afterChar here) fun other mem => all other (mem_cons_of_mem _ mem),
      encode_cons, length_append, Nat.add_assoc]

variable {front run back : List Char}

theorem drop_encode_front (front rest : List Char) :
    (encode (front ++ rest)).drop (encode front).length = encode rest := by
  rw [encode_append, drop_left' rfl]

variable (isRun : CjkRun front run back)

include isRun

theorem pieceAt_run :
    pieceAt (encode (front ++ run ++ back)) (encode front).length = encode run := by
  have here := drop_encode_front front (run ++ back)
  rw [← append_assoc] at here
  obtain ⟨char, chars, rfl⟩ := exists_cons_of_ne_nil isRun.nonempty
  have isFirst := isRun.all char mem_cons_self
  generalize whole : encode (front ++ char :: chars ++ back) = text at here ⊢
  have atRun : text.drop (encode front).length =
      String.utf8EncodeChar char ++ (encode chars ++ encode back) := by
    rw [here, encode_append, encode_cons, append_assoc]
  have first : joyaiCjkAt text (encode front).length = true := (joyaiCjkAt_eq atRun).trans isFirst
  have notDigit : ¬ asciiDigit (byteAt text (encode front).length) = true := by
    intro isDigit
    rw [joyaiCjkAt_of_ascii ((byte_tests _).2.1 isDigit).2.2] at first
    cases first
  have stop : pieceEnd text (encode front).length =
      (encode front).length + (encode (char :: chars)).length := by
    unfold pieceEnd
    dsimp only
    rw [if_neg notDigit, if_pos first, afterChar_eq atRun,
      charLoop_run_encode (drop_afterChar atRun)
        (fun other mem => isRun.all other (mem_cons_of_mem _ mem)) isRun.back,
      encode_cons, length_append, Nat.add_assoc]
  have next : pieceNext text (encode front).length =
      (encode front).length + (encode (char :: chars)).length := by
    have pos : 0 < (encode (char :: chars)).length := by
      obtain ⟨lead, conts, same, _⟩ := encode_eq char
      simp [encode_cons, same]
    unfold pieceNext
    rw [stop, if_neg (by omega)]
  rw [pieceAt, next, Nat.add_sub_cancel_left, here, encode_append, take_left' rfl]

theorem isolated_iff_starts :
    Isolated front run back ↔ Starts (encode (front ++ run ++ back)) (encode front).length := by
  constructor
  · rintro ⟨before, after, split, flatten⟩
    have starts := (starts_of_pieces split).1
    rwa [flatten] at starts
  · intro starts
    have inside : (encode front).length < (encode (front ++ run ++ back)).length := by
      obtain ⟨char, chars, rfl⟩ := exists_cons_of_ne_nil isRun.nonempty
      obtain ⟨lead, conts, same, _⟩ := encode_eq char
      simp [encode_append, encode_cons, same]
    obtain ⟨out, same, flatten⟩ := pieces_of_starts starts
    have step := (pieceLoop (fun piece => [piece]) _).run_of_step (pieceLoop_step inside out)
    obtain ⟨after, emitted⟩ := prefix_pieceLoop_run (encode (front ++ run ++ back))
      (pieceNext _ (encode front).length, out ++ [pieceAt _ (encode front).length])
    refine ⟨out, after, ?_, ?_⟩
    · rw [same, step, ← emitted, pieceAt_run isRun]
      simp
    · rw [flatten, append_assoc, encode_append, take_left' rfl]

theorem notCjk_before {before : Nat} (cut : Cut (encode (front ++ run ++ back)) before)
    (after : afterChar (encode (front ++ run ++ back)) before = (encode front).length) :
    joyaiCjkAt (encode (front ++ run ++ back)) before = false := by
  have valid : Valid (encode (front ++ run ++ back)) := ⟨_, rfl⟩
  have ltBefore := lt_afterChar (encode (front ++ run ++ back)) before
  rcases eq_nil_or_concat' front with rfl | ⟨init, last, rfl⟩
  · rw [after] at ltBefore
    exact absurd ltBefore (Nat.not_lt_zero _)
  · have here : (encode (init ++ [last] ++ run ++ back)).drop (encode init).length =
        String.utf8EncodeChar last ++ encode (run ++ back) := by
      rw [append_assoc, append_assoc, drop_encode_front, singleton_append, encode_cons]
    have initAfter := afterChar_eq here
    have initCut : Cut (encode (init ++ [last] ++ run ++ back)) (encode init).length := by
      intro byte found
      have validHere : Valid (String.utf8EncodeChar last ++ encode (run ++ back)) :=
        (valid_encode last).append ⟨_, rfl⟩
      apply validHere.cut_zero byte
      rw [← here, getElem?_drop]
      exact found
    have lastEnd : (encode (init ++ [last])).length =
        (encode init).length + (String.utf8EncodeChar last).length := by
      simp [encode]
    have inside := lt_length_of_drop here
    have grows := lt_afterChar (encode (init ++ [last] ++ run ++ back)) (encode init).length
    have same : before = (encode init).length := by
      rcases Nat.lt_trichotomy before (encode init).length with lt | same | gt
      · exact absurd initCut (not_cut_of_continues
          (continues_inside valid cut lt (by omega) (by omega)))
      · exact same
      · exact absurd cut (not_cut_of_continues
          (continues_inside valid initCut gt (by omega) inside))
    rw [same, joyaiCjkAt_eq here]
    exact isRun.front last (by simp)

theorem isolated_iff : Isolated front run back ↔
      SeparatedAt (encode (front ++ run ++ back)) (encode front).length := by
  rw [isolated_iff_starts isRun]
  obtain ⟨char, chars, rfl⟩ := exists_cons_of_ne_nil isRun.nonempty
  have here : (encode (front ++ char :: chars ++ back)).drop (encode front).length =
      String.utf8EncodeChar char ++ encode (chars ++ back) := by
    rw [append_assoc, drop_encode_front, cons_append, encode_cons]
  apply starts_iff_separatedAt ⟨_, rfl⟩
  · intro byte found
    have validHere : Valid (String.utf8EncodeChar char ++ encode (chars ++ back)) :=
      (valid_encode char).append ⟨_, rfl⟩
    apply validHere.cut_zero byte
    rw [← here, getElem?_drop]
    exact found
  · exact (joyaiCjkAt_eq here).trans (isRun.all char mem_cons_self)
  · intro before cut after
    exact notCjk_before isRun cut after

omit isRun

/-- The runs of a text are pieces of their own exactly when what stands in front of
each keeps letters away from it. -/
theorem runs_isolated_iff (chars : List Char) :
    (∀ front run back, chars = front ++ run ++ back → CjkRun front run back →
        Isolated front run back) ↔
      ∀ front run back, chars = front ++ run ++ back → CjkRun front run back →
        SeparatedAt (encode chars) (encode front).length := by
  constructor
  · rintro isolated front run back rfl isRun
    exact (isolated_iff isRun).mp (isolated front run back rfl isRun)
  · rintro separated front run back rfl isRun
    exact (isolated_iff isRun).mpr (separated front run back rfl isRun)

theorem not_isolated_behind_letter : CjkRun ['a'] ['中'] [] ∧ ¬ Isolated ['a'] ['中'] [] := by
  constructor
  · have isCjk_run : isCjk '中' = true := by simp [isCjk, utf8IsCjkHiraKata]
    have isCjk_front : isCjk 'a' = false := by simp [isCjk, utf8IsCjkHiraKata]
    exact ⟨by simp, by simpa using isCjk_run, by simpa using isCjk_front, by simp⟩
  · rintro ⟨before, after, split, flatten⟩
    have whole : pieces (encode ['a', '中']) = [encode ['a', '中']] := by decide +kernel
    rw [show ['a'] ++ ['中'] ++ [] = ['a', '中'] from rfl, whole] at split
    cases before with
    | nil =>
      revert flatten
      decide
    | cons first before => simp at split

end Runs

end LnaLang.CjkRuns
