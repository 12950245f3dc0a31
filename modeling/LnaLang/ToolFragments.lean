import LnaLang.StreamWindow
import LnaLang.OpenaiTools

/-!
# The fragments of tool arguments

The tool stream cuts the text of a call at its tags and quotes, behind blanks, and at
the end of the whole characters that have arrived.  All of these are places at which
valid UTF-8 may be cut, and neither the decoding of entities nor the JSON escapes touch
a byte of a longer character.  Every fragment it writes is therefore valid UTF-8.
-/

namespace LnaLang.Openai

open List

open Dsml StreamText Utf8Text

section Strings

variable {text : Bytes}

theorem getElem?_of_strchr {byte : UInt8} {i : Nat}
    (found : strchr text byte = some i) : text[i]? = some byte := by
  obtain ⟨lt, same, -⟩ := idxOf?_eq_some_iff.mp found
  rw [getElem?_eq_getElem lt]
  simpa using same

theorem unescapeFrom_high {bytes rest : Bytes} (high : ∀ byte ∈ bytes, byte ≠ 38) :
    unescapeFrom 0 (bytes ++ rest) = bytes ++ unescapeFrom 0 rest := by
  induction bytes with
  | nil => rfl
  | cons byte bytes ih =>
    rw [cons_append, unescapeFrom, entityAt_eq_none (high byte mem_cons_self)]
    dsimp only
    rw [ih fun other mem => high other (mem_cons_of_mem _ mem), cons_append]

theorem unescapeFrom_skip {first rest : Bytes} :
    unescapeFrom first.length (first ++ rest) = unescapeFrom 0 rest := by
  induction first with
  | nil => rfl
  | cons byte first ih => rw [length_cons, cons_append, unescapeFrom, ih]

theorem entity_facts : ∀ entry ∈ entities, entry.1 ≠ [] ∧
    (∀ byte ∈ entry.1.getLast?, byte.toNat < 0x80) ∧ entry.2.toNat < 0x80 := by
  decide +kernel

theorem valid_unescape (valid : Valid text) : Valid (unescapeFrom 0 text) := by
  induction counted : text.length using Nat.strongRecOn generalizing text with
  | ind size ih =>
    cases entity : entityAt text with
    | some entry =>
      have mem := mem_of_find?_eq_some entity
      obtain ⟨ne, last, ascii⟩ := entity_facts entry mem
      have starts : entry.1 <+: text := by simpa using find?_some entity
      obtain ⟨rest, rfl⟩ := starts
      have cut := @cut_behind_ascii _ valid _ valid.cut_zero entry.1 (by simp) last
      rw [Nat.zero_add] at cut
      have validRest := (valid.take_drop cut).2
      rw [drop_left' rfl] at validRest
      obtain ⟨first, others, opened⟩ := exists_cons_of_ne_nil ne
      have shorter : rest.length < size := by
        rw [← counted, length_append, opened, length_cons]
        omega
      have same : unescapeFrom 0 (entry.1 ++ rest) = [entry.2] ++ unescapeFrom 0 rest := by
        rw [opened, cons_append] at entity ⊢
        rw [unescapeFrom, entity]
        dsimp only
        rw [opened, length_cons, Nat.add_sub_cancel, unescapeFrom_skip]
        rfl
      rw [same]
      exact (valid_singleton ascii).append (ih _ shorter validRest rfl)
    | none =>
      rcases valid.cases with rfl | ⟨char, rest, rfl, validRest⟩
      · exact valid_nil
      · obtain ⟨lead, conts, same, leads, continues⟩ := encode_eq char
        have shorter : rest.length < size := by
          rw [← counted, length_append, same, length_cons]
          omega
        have kept : unescapeFrom 0 (String.utf8EncodeChar char ++ rest) =
            String.utf8EncodeChar char ++ unescapeFrom 0 rest := by
          rw [same, cons_append] at entity ⊢
          rw [unescapeFrom, entity]
          dsimp only
          rw [unescapeFrom_high]
          · rfl
          · intro byte mem isAmp
            have high := (continues byte mem).1
            rw [isAmp] at high
            exact absurd high (by decide)
        rw [kept]
        exact (valid_encode char).append (ih _ shorter validRest rfl)

theorem valid_dsmlAttr {name v : Bytes} (valid : Valid text)
    (read : dsmlAttr text name = some v) : Valid v := by
  unfold dsmlAttr at read
  dsimp only at read
  split at read
  · cases read
  next pos found =>
    obtain ⟨stop, closed, rfl⟩ := Option.map_eq_some_iff.mp read
    have quote : utf8 "=\"" = [61] ++ [34] := by decide
    have occurs : name ++ utf8 "=\"" <+: text.drop pos :=
      ListSearch.occursAt_of_find found
    have cut : Cut text (pos + (name ++ utf8 "=\"").length) := by
      rw [quote, ← append_assoc] at occurs ⊢
      exact valid.cut_behind occurs (by decide)
    apply valid_unescape
    exact valid_take_of_ascii (valid.take_drop cut).2 (getElem?_of_strchr closed) (by decide)

theorem ascii_escapeByte {byte : UInt8} (ascii : byte.toNat < 0x80) :
    ∀ escaped ∈ Json.escapeByte byte, escaped.toNat < 0x80 := by
  have escapeMark : ∀ escaped ∈ utf8 "\\u00", escaped.toNat < 0x80 := by decide +kernel
  have digit : ∀ digit < 16, (Json.hexDigit digit).toNat < 0x80 := by decide
  unfold Json.escapeByte
  split
  · simp [ascii]
  split
  · decide +kernel
  split
  · decide +kernel
  split
  · decide +kernel
  split
  · intro escaped mem
    rcases mem_append.mp mem with mark | digits
    · exact escapeMark escaped mark
    · simp only [mem_cons, not_mem_nil, or_false] at digits
      rcases digits with rfl | rfl
      · exact digit _ (by omega)
      · exact digit _ (by omega)
  · simp [ascii]

theorem escapeByte_of_high {byte : UInt8} (high : 0x80 ≤ byte.toNat) :
    Json.escapeByte byte = [byte] := by
  have other (v : UInt8) (low : v.toNat < 0x80) : byte ≠ v := by
    rintro rfl
    omega
  have printable : ¬ byte < 0x20 := by
    rw [UInt8.lt_iff_toNat_lt]
    simp
    omega
  simp [Json.escapeByte, other 34 (by decide), other 92 (by decide),
    other 10 (by decide), other 13 (by decide), other 9 (by decide), printable]

theorem valid_jsonEscapeFragment (valid : Valid text) : Valid (Json.jsonEscapeFragment text) := by
  apply valid.flatMap
  · intro byte ascii
    exact valid_of_ascii (ascii_escapeByte ascii)
  · intro byte high
    exact escapeByte_of_high high

theorem valid_jsonEscape (valid : Valid text) : Valid (Json.jsonEscape text) := by
  have quote : Valid [(34 : UInt8)] := valid_singleton (by decide)
  exact (quote.append (valid_jsonEscapeFragment (valid_cString valid))).append quote

end Strings

section Steps

variable {toolIds : Nat → Bytes} {text raw : Bytes} {tools : ToolStream}

/-- The stream stands at a place where the text may be cut, and has written valid
fragments only. -/
def Fragments (text : Bytes) (written : Written) : Prop :=
  Cut text written.1.parsePos ∧ ∀ delta ∈ written.2, Valid delta.arguments

theorem valid_emitArgs {piece : Bytes} (valid : Valid piece) :
    ∀ delta ∈ openaiToolEmitArgsFragment tools piece, Valid delta.arguments := by
  intro delta mem
  unfold openaiToolEmitArgsFragment at mem
  split at mem
  · cases mem
  · rw [mem_singleton] at mem
    rw [mem]
    exact valid_cString valid

theorem valid_emitValue {piece : Bytes} (valid : Valid piece) :
    ∀ delta ∈ emitValue tools piece, Valid delta.arguments := by
  unfold emitValue
  split
  · unfold openaiToolEmitStringValue
    split
    · intro delta mem
      cases mem
    · exact valid_emitArgs (valid_jsonEscapeFragment (valid_unescape (valid_cString valid)))
  · exact valid_emitArgs valid

theorem valid_paramPrefixText {name : Bytes} (valid : Valid name)
    (first isString : Bool) : Valid (paramPrefixText first name isString) := by
  have literals : Valid (utf8 ",") ∧ Valid (utf8 ":") ∧ Valid (utf8 "\"") :=
    ⟨⟨_, rfl⟩, ⟨_, rfl⟩, ⟨_, rfl⟩⟩
  unfold paramPrefixText
  apply Valid.append (Valid.append (Valid.append ?_ (valid_jsonEscape valid)) literals.2.1)
  · split
    · exact literals.2.2
    · exact valid_nil
  · split
    · exact valid_nil
    · exact literals.1

theorem tags_brackets (style : Style) : style.tags.paramEnd = 60 :: style.tags.paramEnd.tail ∧
      (∀ byte ∈ style.tags.toolCallsStart.getLast?, byte.toNat < 0x80) ∧
      (∀ byte ∈ style.tags.toolCallsEnd.getLast?, byte.toNat < 0x80) ∧
      (∀ byte ∈ style.tags.invokeEnd.getLast?, byte.toNat < 0x80) ∧
      ∀ byte ∈ style.tags.paramEnd.getLast?, byte.toNat < 0x80 := by
  cases style <;> decide +kernel

theorem cut_literal (valid : Valid text) (pre : raw <+: text) {pos : Nat}
    (cut : Cut text pos) {literal : Bytes} (full : rawFullLit raw pos literal = true)
    (ascii : ∀ byte ∈ literal.getLast?, byte.toNat < 0x80) :
    Cut text (pos + literal.length) := by
  have starts : literal <+: raw.drop pos := by
    rw [rawFullLit, Bool.and_eq_true] at full
    exact startsWith_iff.mp full.2
  exact cut_behind_ascii valid cut (starts.trans (pre.drop _)) ascii

theorem cut_skipSpace (valid : Valid text) (pre : raw <+: text)
    (cut : Cut text tools.parsePos) : Cut text (tools.skipSpace raw).parsePos := by
  apply cut_behind_ascii valid cut
  · exact (List.takeWhile_prefix _).trans (pre.drop _)
  · intro byte last
    exact ascii_of_isSpace (mem_takeWhile_imp (mem_of_getLast? last))

theorem cut_readTag (valid : Valid text) (pre : raw <+: text) {pos : Nat}
    (cut : Cut text pos) {tag rest : Bytes}
    (read : readTag (raw.drop pos) = some (tag, rest)) :
    Valid tag ∧ Cut text (pos + tag.length) := by
  obtain ⟨stop, found, same⟩ := Option.map_eq_some_iff.mp read
  have closes := getElem?_of_strchr found
  have taken : tag = (raw.drop pos).take stop ++ [62] := by
    rw [← (Prod.mk.inj same).1, take_add_one, closes]
    rfl
  have starts : tag <+: text.drop pos := by
    rw [← (Prod.mk.inj same).1]
    exact (List.take_prefix _ _).trans (pre.drop _)
  have cutBehind : Cut text (pos + tag.length) := by
    rw [taken] at starts ⊢
    exact valid.cut_behind starts (by decide)
  have sliced := valid.slice cut cutBehind
  rw [Nat.add_sub_cancel_left, ← prefix_iff_eq_take.mp starts] at sliced
  exact ⟨sliced, cutBehind⟩

theorem holdPartial_le {patterns : List Bytes} {head : UInt8} {window start limit : Nat} :
    holdPartial patterns head window raw start limit ≤ limit := by
  unfold holdPartial
  split
  · exact Nat.le_refl _
  next i found =>
    obtain ⟨-, lt, -⟩ := lastIndexFrom_eq_some_iff.mp found
    split <;> omega

theorem valueLimit_le {start : Nat} {paramEnd : Bytes} {isString : Bool} :
    valueLimit raw start paramEnd isString ≤ raw.length := by
  unfold valueLimit
  split
  · exact holdPartial_le.trans holdPartial_le
  · exact holdPartial_le

theorem fragments_nil (cut : Cut text tools.parsePos) : Fragments text (tools, []) :=
  ⟨cut, fun _ mem => absurd mem not_mem_nil⟩

theorem fragments_startInvoke (valid : Valid text) (pre : raw <+: text)
    (cut : Cut text tools.parsePos) : Fragments text (openaiToolStartInvoke toolIds raw tools) := by
  unfold openaiToolStartInvoke
  split
  · exact fragments_nil cut
  next tag rest read =>
    obtain ⟨-, cutBehind⟩ := cut_readTag valid pre cut read
    split
    · exact fragments_nil cut
    · refine ⟨cutBehind, ?_⟩
      dsimp only
      rw [forall_mem_cons]
      exact ⟨valid_nil, valid_emitArgs ⟨_, rfl⟩⟩

theorem fragments_startParam (valid : Valid text) (pre : raw <+: text)
    (cut : Cut text tools.parsePos) : Fragments text (openaiToolStartParam raw tools) := by
  unfold openaiToolStartParam
  split
  · exact fragments_nil cut
  next tag rest read =>
    obtain ⟨validTag, cutBehind⟩ := cut_readTag valid pre cut read
    split
    next name isString nameRead stringRead =>
      refine ⟨cutBehind, ?_⟩
      apply valid_emitArgs
      apply valid_paramPrefixText
      exact valid_dsmlAttr (valid_cString validTag) nameRead
    · exact fragments_nil cut

theorem fragments_finishParam (valid : Valid text) (pre : raw <+: text)
    (cut : Cut text tools.parsePos) {off : Nat}
    (found : ListSearch.find tools.style.tags.paramEnd (raw.drop tools.parsePos) = some off) :
    Fragments text (openaiToolFinishParam raw tools (tools.parsePos + off)) := by
  obtain ⟨opens, -, -, -, closes⟩ := tags_brackets tools.style
  have occurs : tools.style.tags.paramEnd <+: raw.drop (tools.parsePos + off) := by
    rw [← drop_drop]
    exact ListSearch.occursAt_of_find found
  have inText := occurs.trans (pre.drop _)
  have inside : tools.parsePos + off ≤ raw.length := by
    have bound := occurs.length_le
    have pos := (style_tags_pos tools.style).2
    rw [length_drop] at bound
    omega
  have cutEnd : Cut text (tools.parsePos + off) := by
    rw [opens] at inText
    exact cut_of_starts inText (by decide)
  have v := (piece_of_limit valid pre cut (Or.inr ⟨cutEnd, inside⟩)).1
  refine ⟨cut_behind_ascii valid cutEnd inText closes, ?_⟩
  dsimp only [openaiToolFinishParam]
  rw [forall_mem_append]
  refine ⟨valid_emitValue v, ?_⟩
  split
  · exact valid_emitArgs ⟨_, rfl⟩
  · intro delta mem
    cases mem

/-- What a round returns, whether or not the loop goes on. -/
def result : Written ⊕ Written → Written := Sum.elim id id

theorem result_continueFrom {after : Written} : result (continueFrom tools after) = after := by
  unfold continueFrom
  split <;> rfl

variable (valid : Valid text)

include valid

theorem fragments_betweenInvokes (pre : raw <+: text) (cut : Cut text tools.parsePos) :
    Fragments text (result (betweenInvokesStep toolIds raw tools)) := by
  unfold betweenInvokesStep
  split
  · exact fragments_nil cut
  split
  next full =>
    exact fragments_nil (cut_literal valid pre cut full (tags_brackets tools.style).2.2.1)
  split
  · exact fragments_nil cut
  split
  · rw [result_continueFrom]
    exact fragments_startInvoke valid pre cut
  · exact fragments_nil cut

theorem fragments_betweenParams (pre : raw <+: text)
    (cut : Cut text tools.parsePos) : Fragments text (result (betweenParamsStep raw tools)) := by
  unfold betweenParamsStep
  split
  · exact fragments_nil cut
  split
  next full =>
    refine ⟨cut_literal valid pre cut full (tags_brackets tools.style).2.2.2.1, ?_⟩
    dsimp only [result, Sum.elim_inl, id_eq]
    split
    · exact valid_emitArgs ⟨_, rfl⟩
    · intro delta mem
      cases mem
  split
  · exact fragments_nil cut
  split
  · rw [result_continueFrom]
    exact fragments_startParam valid pre cut
  · exact fragments_nil cut

theorem fragments_paramValue (pre : raw <+: text)
    (cut : Cut text tools.parsePos) : Fragments text (result (paramValueStep raw tools)) := by
  unfold paramValueStep
  split
  next off found =>
    exact fragments_finishParam valid pre cut found
  · obtain ⟨v, stops⟩ := piece_of_limit valid pre cut
      (cut_utf8StreamSafeLen valid pre cut valueLimit_le)
    exact ⟨stops, valid_emitValue v⟩

theorem fragments_toolStep (pre : raw <+: text)
    (cut : Cut text tools.parsePos) : Fragments text (result (toolStep toolIds raw tools)) := by
  have cutSkip := cut_skipSpace valid pre cut
  unfold toolStep
  split
  · split
    · exact fragments_betweenInvokes valid pre cutSkip
    · exact fragments_betweenParams valid pre cutSkip
    · exact fragments_paramValue valid pre cut
    · exact fragments_nil cut
  · exact fragments_nil cut

theorem fragments_update (pre : raw <+: text) (cut : Cut text tools.parsePos) :
    Fragments text (openaiToolStreamUpdate toolIds raw tools) := by
  have steps (tools : ToolStream) (written : List CallDelta)
      (sound : Fragments text (tools, written)) (after : Written)
      (stepped : result (toolStep toolIds raw tools) = after) :
      Fragments text (after.1, written ++ after.2) := by
    have step := @fragments_toolStep toolIds _ _ _ valid pre sound.1
    rw [stepped] at step
    exact ⟨step.1, forall_mem_append.mpr ⟨sound.2, step.2⟩⟩
  apply WhileLoop.run_invariant _ (Fragments text) (Fragments text) _ _ _ (fragments_nil cut)
  · rintro ⟨tools, written⟩ finished sound halted
    cases stepped : toolStep toolIds raw tools with
    | inl after => simp [toolLoop, stepped] at halted
    | inr after =>
      simp only [toolLoop, stepped, Sum.map_inr, Sum.inr.injEq] at halted
      rw [← halted]
      exact steps tools written sound after (by rw [stepped]; rfl)
  · rintro ⟨tools, written⟩ following sound goesOn
    cases stepped : toolStep toolIds raw tools with
    | inl after =>
      simp only [toolLoop, stepped, Sum.map_inl, Sum.inl.injEq] at goesOn
      rw [← goesOn]
      exact steps tools written sound after (by rw [stepped]; rfl)
    | inr after => simp [toolLoop, stepped] at goesOn

theorem cut_toolStreamInit (pre : raw <+: text) {pos : Nat}
    (cut : Cut text pos) : Cut text (openaiToolStreamInit raw pos).parsePos := by
  unfold openaiToolStreamInit
  split
  next style found =>
    have full := find?_some found
    exact cut_literal valid pre cut full (tags_brackets style).2.1
  · exact cut

end Steps

end LnaLang.Openai
