import LnaLang.StreamParts
import LnaLang.Utf8Text

/-!
# Streams that may not send all of their text yet

While a text is generated, `generate_job` passes the whole text and the number of its
bytes that may be sent: bytes that may belong to a stop string or to an incomplete
character are held back.  The streams look for their tags in the whole text.  The
results say that whatever they send lies between two places at which the text may be
cut.
-/

namespace LnaLang

namespace StreamText

open List

open Dsml Utf8Text

section Cutting

variable {text : Bytes}

theorem isContinuation_iff {byte : UInt8} : isContinuation byte = true ↔ Continues byte := by
  refine forall_byte ?_ byte
  decide +kernel

theorem ascii_of_isSpace {byte : UInt8} : isSpace byte = true → byte.toNat < 0x80 := by
  refine forall_byte ?_ byte
  decide +kernel

/-- A window on a prefix of the text, which may be cut where the window ends. -/
structure Window.On (text : Bytes) (window : Window) : Prop where
  isPrefix : window.buffer <+: text
  le : window.length ≤ window.buffer.length
  cut : Cut text window.length

variable {window : Window} {start limit : Nat}

theorem getElem?_of_isPrefix {buf : Bytes} (pre : buf <+: text)
    {i : Nat} (lt : i < buf.length) : text[i]? = buf[i]? := by
  obtain ⟨rest, rfl⟩ := pre
  exact getElem?_append_left lt

theorem getD_of_isPrefix {buf : Bytes} (pre : buf <+: text) {i : Nat}
    (lt : i < buf.length) : text[i]? = some (buf.getD i 0) := by
  rw [getElem?_of_isPrefix pre lt, getD_eq_getElem?_getD, getElem?_eq_getElem lt, Option.getD_some]

theorem cut_of_ascii {buf : Bytes} (pre : buf <+: text) {i : Nat}
    (lt : i < buf.length) (ascii : (buf.getD i 0).toNat < 0x80) : Cut text i := by
  apply cut_of_getElem? (getD_of_isPrefix pre lt)
  rintro ⟨low, -⟩
  omega

theorem piece_of_limit (valid : Valid text) {buf : Bytes}
    (pre : buf <+: text) (cutStart : Cut text start)
    (cutLimit : limit ≤ start ∨ Cut text limit ∧ limit ≤ buf.length) :
    Valid (slice buf start limit) ∧ Cut text (max start limit) := by
  rcases cutLimit with le | ⟨cut, inside⟩
  · rw [slice, Nat.sub_eq_zero_of_le le, Nat.max_eq_left le]
    exact ⟨valid_nil, cutStart⟩
  · constructor
    · obtain ⟨rest, rfl⟩ := pre
      have same : slice buf start limit = slice (buf ++ rest) start limit := by
        unfold slice
        rcases Nat.le_total start buf.length with le | ge
        · rw [drop_append_of_le_length le, take_append_of_le_length]
          rw [length_drop]
          omega
        · rw [Nat.sub_eq_zero_of_le (by omega), take_zero, take_zero]
      rw [same]
      exact valid.slice cutStart cut
    · rcases Nat.le_total start limit with le | ge
      · rwa [Nat.max_eq_right le]
      · rwa [Nat.max_eq_left ge]

theorem cut_trim {buf : Bytes} (pre : buf <+: text) (le : limit ≤ buf.length)
    (cut : Cut text limit) : Cut text (trimToolSeparatorWs buf start limit) := by
  induction limit with
  | zero => exact cut
  | succ limit ih =>
    rw [trimToolSeparatorWs]
    split
    next blank =>
      apply ih (by omega)
      apply cut_of_ascii pre (by omega)
      exact ascii_of_isSpace blank.2
    · exact cut

theorem utf8ExpectedLen_of_leads {n : Nat} {byte : UInt8}
    (leads : Leads n byte) : utf8ExpectedLen byte = n := by
  unfold utf8ExpectedLen
  have bounds : UInt8.toNat 0x80 = 128 ∧ UInt8.toNat 0xc2 = 194 ∧
      UInt8.toNat 0xdf = 223 ∧ UInt8.toNat 0xe0 = 224 ∧ UInt8.toNat 0xef = 239 ∧
      UInt8.toNat 0xf0 = 240 ∧ UInt8.toNat 0xf4 = 244 := by decide
  simp only [UInt8.lt_iff_toNat_lt, UInt8.le_iff_toNat_le, bounds]
  cases leads with
  | one lt => rw [if_pos lt]
  | two le lt => rw [if_neg (by omega), if_pos (by omega)]
  | three le lt => rw [if_neg (by omega), if_neg (by omega), if_pos (by omega)]
  | four le lt => rw [if_neg (by omega), if_neg (by omega), if_neg (by omega), if_pos (by omega)]

theorem backOverContinuation_eq {buf : Bytes} {first : Nat} (le : start ≤ first)
    (leads : isContinuation (buf.getD first 0) = false) {behind n : Nat}
    (enough : behind < n) (continues : ∀ i, first < i → i < first + 1 + behind →
      isContinuation (buf.getD i 0) = true) :
    backOverContinuation buf start n (first + 1 + behind) = first + 1 := by
  induction behind generalizing n with
  | zero =>
    obtain ⟨rounds, rfl⟩ := Nat.exists_eq_succ_of_ne_zero (by omega : n ≠ 0)
    rw [backOverContinuation, Nat.add_zero, Nat.add_sub_cancel, leads]
    simp
  | succ behind ih =>
    obtain ⟨rounds, rfl⟩ := Nat.exists_eq_succ_of_ne_zero (by omega : n ≠ 0)
    have last := continues (first + 1 + behind) (by omega) (by omega)
    rw [backOverContinuation, ← Nat.add_assoc, Nat.add_sub_cancel, last, if_pos ⟨by omega, rfl⟩]
    apply ih (by omega)
    intro i lt within
    exact continues i lt (by omega)

theorem bytes_of_char {buf : Bytes} (pre : buf <+: text) {first : Nat} {lead : UInt8}
    {conts rest : Bytes} (here : text.drop first = lead :: conts ++ rest) {i : Nat}
    (lt : first + i < buf.length) (inside : i < conts.length + 1) :
    (lead :: conts)[i]? = some (buf.getD (first + i) 0) := by
  rw [← getD_of_isPrefix pre lt, ← getElem?_drop, here,
    getElem?_append_left (by rw [length_cons]; omega)]

theorem cut_utf8StreamSafeLen (valid : Valid text) {buf : Bytes} (pre : buf <+: text)
    (cutStart : Cut text start) (le : limit ≤ buf.length) :
    utf8StreamSafeLen buf start limit false ≤ start ∨
      Cut text (utf8StreamSafeLen buf start limit false) ∧
        utf8StreamSafeLen buf start limit false ≤ buf.length := by
  unfold utf8StreamSafeLen
  by_cases short : limit ≤ start
  · rw [if_pos (Or.inr short)]
    exact Or.inl short
  · rw [if_neg (by simp [short])]
    have textLe := pre.length_le
    -- The character that the last byte before the limit belongs to.
    obtain ⟨first, char, rest, here, validRest, firstLe, lastLt⟩ :=
      valid.char_at (show limit - 1 < text.length by omega)
    have startLe : start ≤ first := by
      by_contra before
      have place := @Cut.not_inside _ first char rest (start - first)
        (by rwa [Nat.add_sub_cancel' (by omega)]) here
      omega
    obtain ⟨lead, conts, same, leads, continues⟩ := encode_eq char
    rw [same] at here lastLt
    rw [length_cons] at lastLt
    have countLe : conts.length ≤ 3 := by
      generalize counted : conts.length + 1 = n at leads
      cases leads <;> omega
    have byteAt (i : Nat) (lt : first + i < limit) :=
      @bytes_of_char _ _ pre _ _ _ _ here i (by omega) (by omega)
    have isLead : buf.getD first 0 = lead := (Option.some.inj (byteAt 0 (by omega))).symm
    have expected : utf8ExpectedLen (buf.getD first 0) = conts.length + 1 := by
      rw [isLead]
      exact utf8ExpectedLen_of_leads leads
    obtain ⟨behind, rfl⟩ := Nat.exists_eq_add_of_le (show first + 1 ≤ limit by omega)
    have back := @backOverContinuation_eq start buf first startLe (by
        rw [isLead, Bool.eq_false_iff, ne_eq, isContinuation_iff]
        exact leads.not_continues) behind 4 (by omega)
      (by
        intro i lt within
        obtain ⟨off, rfl⟩ := Nat.exists_eq_add_of_lt lt
        have found := byteAt (off + 1) (by omega)
        rw [getElem?_cons_succ] at found
        rw [isContinuation_iff, Nat.add_assoc]
        exact continues _ (mem_of_getElem? found))
    have cutFirst : Cut text first := by
      apply cut_of_getElem? (getD_of_isPrefix pre (by omega))
      rw [isLead]
      exact leads.not_continues
    have cutBehind : Cut text (first + (conts.length + 1)) := by
      intro byte found
      rw [← Nat.add_zero (first + (conts.length + 1)), ← getElem?_drop,
        ← drop_drop, here, drop_left' (by rw [length_cons])] at found
      exact validRest.cut_zero byte found
    right
    rw [back, wholeCharacters]
    split
    next single =>
      have alone : behind = 0 := by omega
      subst alone
      rw [Nat.add_zero, Nat.add_sub_cancel, expected]
      split
      · exact ⟨cutFirst, by omega⟩
      · rw [show first + 1 = first + (conts.length + 1) by omega]
        exact ⟨cutBehind, by omega⟩
    · rw [if_neg (by omega), Nat.add_sub_cancel]
      dsimp only
      rw [expected]
      split
      · exact ⟨cutFirst, by omega⟩
      · rw [show first + 1 + behind = first + (conts.length + 1) by omega]
        exact ⟨cutBehind, by omega⟩

theorem cut_behind_ascii (valid : Valid text) {pos : Nat} (cut : Cut text pos)
    {pat : Bytes} (found : pat <+: text.drop pos)
    (ascii : ∀ byte ∈ pat.getLast?, byte.toNat < 0x80) :
    Cut text (pos + pat.length) := by
  rcases pat.eq_nil_or_concat with rfl | ⟨init, last, rfl⟩
  · exact cut
  · rw [concat_eq_append] at found ascii ⊢
    exact valid.cut_behind found (ascii last (by simp))

theorem valid_take_of_ascii (valid : Valid text) {i : Nat} {byte : UInt8}
    (found : text[i]? = some byte) (ascii : byte.toNat < 0x80) : Valid (text.take i) := by
  have cut : Cut text i := by
    apply cut_of_getElem? found
    rintro ⟨low, -⟩
    omega
  exact (valid.take_drop cut).1

theorem valid_left {first rest : Bytes} {byte : UInt8} (valid : Valid (first ++ byte :: rest))
    (ascii : byte.toNat < 0x80) : Valid first := by
  have taken := @valid_take_of_ascii _ valid first.length byte (by simp) ascii
  rwa [take_left' rfl] at taken

theorem valid_cString (valid : Valid text) : Valid (cString text) := by
  have whole : cString text ++ text.dropWhile (· ≠ 0) = text := takeWhile_append_dropWhile
  cases rest : text.dropWhile (· ≠ 0) with
  | nil =>
    rw [rest, append_nil] at whole
    rwa [whole]
  | cons byte others =>
    have isNul : byte = 0 := by
      have first := head?_dropWhile_not (fun byte : UInt8 => byte ≠ 0) text
      rw [rest] at first
      simpa using first
    rw [rest] at whole
    rw [← whole] at valid
    apply valid_left valid
    rw [isNul]
    decide

end Cutting

section Phases

variable {text : Bytes} {window : Window} {emitPos : Nat}

def Stop (text buffer : Bytes) (start limit : Nat) : Prop :=
  limit ≤ start ∨ Cut text limit ∧ limit ≤ buffer.length

/-- What a phase sends is valid, and it stops where the text may be cut. -/
def Phase.Whole (text : Bytes) (phase : Phase) : Prop :=
  Valid phase.piece ∧ Cut text phase.emitPos

theorem cString_isPrefix (bytes : Bytes) : cString bytes <+: bytes := takeWhile_prefix _

theorem prefix_of_strstr {buf : Bytes} (pre : buf <+: text) {start off : Nat}
    {pat : Bytes} (ne : pat ≠ [])
    (found : strstr (cString (buf.drop start)) pat = some off) :
    pat <+: text.drop (start + off) ∧ start + off + pat.length ≤ buf.length := by
  have occurs := ListSearch.occursAt_of_find found
  have inString : pat <+: (cString (buf.drop start)).drop off := occurs
  have inBuffer : pat <+: (buf.drop start).drop off :=
    inString.trans ((cString_isPrefix _).drop off)
  rw [drop_drop] at inBuffer
  have bound := inBuffer.length_le
  have pos := length_pos_iff.mpr ne
  rw [length_drop] at bound
  exact ⟨inBuffer.trans (pre.drop _), by omega⟩

theorem cut_of_starts {pat : Bytes} {first : UInt8} {pos : Nat}
    (starts : first :: pat <+: text.drop pos) (ascii : first.toNat < 0x80) :
    Cut text pos := by
  obtain ⟨rest, same⟩ := starts
  have found : text[pos]? = some first := by
    rw [← Nat.add_zero pos, ← getElem?_drop, ← same]
    rfl
  apply cut_of_getElem? found
  rintro ⟨low, -⟩
  omega

theorem cut_beforeMarker (on : window.On text) {start : Nat} :
    Cut text (window.beforeMarker start) ∧ window.beforeMarker start ≤ window.buffer.length := by
  have trimmedLe : trimToolSeparatorWs window.buffer start window.length ≤
    window.length := trimToolSeparatorWs_le
  have trimmed : Cut text (trimToolSeparatorWs window.buffer start window.length) :=
    cut_trim on.isPrefix on.le on.cut
  have le := on.le
  unfold Window.beforeMarker
  dsimp only
  split
  next marker found =>
    obtain ⟨-, lt, isTag, -⟩ := lastIndexFrom_eq_some_iff.mp found
    have cutMarker : Cut text marker := by
      apply cut_of_ascii on.isPrefix (by omega)
      rw [isTag]
      decide
    have cutMin : Cut text
        (min (trimToolSeparatorWs window.buffer start window.length) marker) := by
      rcases Nat.le_total (trimToolSeparatorWs window.buffer start window.length)
        marker with before | after
      · rwa [Nat.min_eq_left before]
      · rwa [Nat.min_eq_right after]
    have inside : min (trimToolSeparatorWs window.buffer start window.length)
        marker ≤ window.buffer.length := by
      have left := Nat.min_le_left (trimToolSeparatorWs window.buffer start window.length) marker
      omega
    exact ⟨cut_trim on.isPrefix inside cutMin, trimToolSeparatorWs_le.trans inside⟩
  · exact ⟨cut_trim on.isPrefix (by omega) trimmed,
      trimToolSeparatorWs_le.trans (by omega)⟩

theorem prefix_of_findAnyToolStart {buf : Bytes} (pre : buf <+: text) {start tool : Nat}
    (found : findAnyToolStart (cString (buf.drop start)) = some tool) :
    Cut text (start + tool) ∧ start + tool ≤ buf.length := by
  have first := @TagSearch.isFirst_findAny _ _
    (Style.all.map fun style => style.tags.toolCallsStart)
    (cString (buf.drop start)) (by decide)
  change TagSearch.IsFirst _ (findAnyToolStart _) at first
  rw [found] at first
  obtain ⟨pat, mem, occurs⟩ := first.1
  have inBuffer : pat <+: (buf.drop start).drop tool :=
    List.IsPrefix.trans occurs ((cString_isPrefix _).drop tool)
  rw [drop_drop] at inBuffer
  have opens : ∀ pat ∈ Style.all.map fun style => style.tags.toolCallsStart,
      pat = 60 :: pat.tail := by decide
  rw [opens pat mem] at inBuffer
  have bound := inBuffer.length_le
  rw [length_cons, length_drop] at bound
  exact ⟨cut_of_starts (inBuffer.trans (pre.drop _)) (by decide), by omega⟩

variable (valid : Valid text)

include valid

theorem stop_textStreamSafeLimit (on : window.On text)
    (cut : Cut text emitPos) (hasTools final : Bool) :
    Stop text window.buffer emitPos (window.textStreamSafeLimit emitPos hasTools final) := by
  have whole (final : Bool) : Stop text window.buffer emitPos
      (utf8StreamSafeLen window.buffer emitPos window.length final) := by
    cases final with
    | false => exact cut_utf8StreamSafeLen valid on.isPrefix cut on.le
    | true =>
      rw [utf8StreamSafeLen, if_pos (Or.inl rfl)]
      exact Or.inr ⟨on.cut, on.le⟩
  unfold Window.textStreamSafeLimit
  split
  next le =>
    exact Or.inl le
  split
  · split
    next tool found =>
      obtain ⟨cutTool, inside⟩ := prefix_of_findAnyToolStart on.isPrefix found
      exact Or.inr ⟨cut_trim on.isPrefix inside cutTool, trimToolSeparatorWs_le.trans inside⟩
    · split
      · exact whole final
      next notFinal =>
        rw [Bool.eq_false_iff.mpr notFinal]
        obtain ⟨-, inside⟩ := @cut_beforeMarker _ _ on emitPos
        exact cut_utf8StreamSafeLen valid on.isPrefix cut inside
  · exact whole final

theorem whole_thinkingFrom (on : window.On text) (cut : Cut text emitPos)
    (final : Bool) : (window.thinkingFrom final emitPos).Whole text := by
  unfold Window.thinkingFrom
  split
  next close found =>
    obtain ⟨closes, inside⟩ := prefix_of_strstr on.isPrefix (by decide) found
    have cutClose : Cut text (emitPos + close) :=
      @cut_of_starts _ (thinkClose.tail) 60 _ closes (by decide)
    have cutBehind : Cut text (emitPos + close + thinkClose.length) :=
      @Valid.cut_behind _ _ valid (thinkClose.dropLast) 62 closes (by decide)
    exact ⟨(piece_of_limit valid on.isPrefix cut (Or.inr ⟨cutClose, by omega⟩)).1, cutBehind⟩
  · split
    · exact piece_of_limit valid on.isPrefix cut (Or.inr ⟨on.cut, on.le⟩)
    · apply piece_of_limit valid on.isPrefix cut
      have le := on.le
      split
      · exact cut_utf8StreamSafeLen valid on.isPrefix cut (by omega)
      · rw [utf8StreamSafeLen, if_pos (Or.inr (Nat.le_refl _))]
        exact Or.inl (Nat.le_refl _)

theorem whole_thinking (on : window.On text)
    (cut : Cut text emitPos) (final checkedThinkPrefix : Bool) :
    (window.thinkingPhase final emitPos checkedThinkPrefix).Whole text := by
  unfold Window.thinkingPhase
  split
  · exact whole_thinkingFrom valid on cut final
  split
  · exact ⟨valid_nil, cut⟩
  split
  next opens =>
    have starts : thinkOpen <+: text.drop 0 := (startsWith_iff.mp opens.2).trans on.isPrefix
    have cutBehind := @Valid.cut_behind _ _ valid (thinkOpen.dropLast) 62 starts (by decide)
    rw [Nat.zero_add] at cutBehind
    exact whole_thinkingFrom valid on cutBehind final
  · exact whole_thinkingFrom valid on cut final

theorem whole_text (on : window.On text) (cut : Cut text emitPos)
    (final hasTools : Bool) : (window.textPhase final hasTools emitPos).Whole text := by
  obtain ⟨piece, stops⟩ := piece_of_limit valid on.isPrefix cut
    (stop_textStreamSafeLimit valid on cut hasTools final)
  unfold Window.textPhase
  dsimp only
  split
  next tool found =>
    refine ⟨piece, ?_⟩
    split at found
    · exact (prefix_of_findAnyToolStart on.isPrefix found).1
    · cases found
  · exact ⟨piece, stops⟩

end Phases

end StreamText

end LnaLang
