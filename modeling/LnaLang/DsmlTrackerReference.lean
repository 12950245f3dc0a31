import LnaLang.DsmlTrackerChunks
import LnaLang.GuardedSearch

/-!
# The tracker and its reference recogniser

Between tags both recognisers do the same.  Inside a value the tracker reads byte by
byte up to the first end tag that counts, while the reference searches for the first
end tag of all; in a JSON value that one may stand inside a string.  Where it never
does, one update of a fresh tracker reports what the reference reports.
-/

namespace LnaLang

namespace DsmlTracker

open Option

open Dsml Openai ListSearch GuardedSearch
open StreamText (markers)

section Readers

/-- The tracker inside a string value: the end tag counts everywhere. -/
def stringReader : Reader UInt8 Tracker where
  next tracker _ := { tracker with pos := tracker.pos + 1 }
  free _ := true

/-- The tracker inside a JSON value: the end tag counts outside of strings. -/
def jsonReader : Reader UInt8 Tracker where
  next tracker byte :=
    let flags := jsonByte tracker.jsonInString tracker.jsonEscaped byte
    { tracker with
      pos := tracker.pos + 1
      jsonInString := flags.1
      jsonEscaped := flags.2 }
  free tracker := !tracker.jsonInString

/-- The strings of a JSON text alone. -/
def quoteReader : Reader UInt8 (Bool × Bool) where
  next flags byte := jsonByte flags.1 flags.2 byte
  free flags := !flags.1

theorem jsonReader_mapsTo : jsonReader.MapsTo quoteReader fun tracker =>
    (tracker.jsonInString, tracker.jsonEscaped) where
  free _ := rfl
  next _ _ := rfl

/-- The tracker reads a value of some mode with a reader, and reports a state at the
end of the text. -/
structure Reads (raw : Bytes) (mode : Mode) (reader : Reader UInt8 Tracker)
    (rest : Tracker → Decode) : Prop where
  step : ∀ tracker, tracker.mode = mode → trackerStep raw tracker =
    valueStep raw (reader.free tracker) (reader.next tracker (raw.getD tracker.pos 0))
      (rest tracker) tracker
  next : ∀ tracker byte, (reader.next tracker byte).mode = tracker.mode ∧
    (reader.next tracker byte).style = tracker.style ∧
      (reader.next tracker byte).pos = tracker.pos + 1

theorem reads_string (raw : Bytes) : Reads raw .stringBody stringReader fun _ => .stringBody where
  step tracker mode := by
    unfold trackerStep
    rw [mode]
    rfl
  next _ _ := ⟨rfl, rfl, rfl⟩

theorem reads_json (raw : Bytes) : Reads raw .jsonParam jsonReader fun tracker =>
      if tracker.jsonInString then .jsonString else .jsonStructural where
  step tracker mode := by
    unfold trackerStep
    rw [mode]
    rfl
  next _ _ := ⟨rfl, rfl, rfl⟩

theorem jsonReader_keeps (style : Style) (tracker : Tracker) (byte : UInt8)
    (mem : byte ∈ style.tags.paramEnd) :
    jsonReader.free (jsonReader.next tracker byte) = jsonReader.free tracker := by
  have noQuote : byte ≠ 34 := by
    rintro rfl
    revert mem
    cases style <;> decide
  simp only [jsonReader, jsonByte]
  split_ifs <;> simp_all

end Readers

section Values

variable {raw : Bytes} {mode : Mode} {reader : Reader UInt8 Tracker}
  {rest : Tracker → Decode} {tracker : Tracker}

theorem drop_succ_of_cons {items : Bytes} {pos : Nat} {byte : UInt8}
    (left : raw.drop pos = byte :: items) :
    pos < raw.length ∧ raw.getD pos 0 = byte ∧ raw.drop (pos + 1) = items := by
  have inside : pos < raw.length := by
    by_contra past
    rw [List.drop_of_length_le (by omega)] at left
    cases left
  rw [List.drop_eq_getElem_cons inside] at left
  obtain ⟨rfl, rfl⟩ := List.cons.inj left
  exact ⟨inside, by simp [inside], rfl⟩

theorem update_of_findFree (reads : Reads raw mode reader rest)
    {items : Bytes} (left : raw.drop tracker.pos = items) (inMode : tracker.mode = mode)
    (placed : tracker.Placed raw) {off : Nat}
    (found : reader.findFree tracker.style.tags.paramEnd tracker items = some off) :
    ∃ later, later.mode = .structural ∧ later.Placed raw ∧ later.style = tracker.style ∧
      later.pos = tracker.pos + off + tracker.style.tags.paramEnd.length ∧
        dsmlDecodeTrackerUpdate raw tracker = dsmlDecodeTrackerUpdate raw later := by
  induction items generalizing tracker off with
  | nil => cases found
  | cons byte items ih =>
    obtain ⟨inside, byteEq, leftLater⟩ := drop_succ_of_cons left
    have bound := Reader.findFree_end_le found
    have enough : rawPartialLitMin raw tracker.pos tracker.style.tags.paramEnd 2 = false := by
      rw [← Bool.not_eq_true, rawPartialLitMin_iff]
      rintro ⟨_, short, _⟩
      rw [← left, List.length_drop] at bound
      omega
    have full : rawFullLit raw tracker.pos tracker.style.tags.paramEnd =
        tracker.style.tags.paramEnd.isPrefixOf (byte :: items) := by
      simp only [rawFullLit, left, startsWith, inside.le, decide_true, Bool.true_and]
    have step := reads.step tracker inMode
    unfold Reader.findFree at found
    unfold valueStep at step
    simp only [if_pos inside, full, enough, Bool.and_false, Bool.false_eq_true, if_false] at step
    split_ifs at found with here
    · cases found
      rw [if_pos here] at step
      refine ⟨_, ?_, placed.step step, ?_, ?_, (trackerLoop raw).run_of_step step⟩ <;> rfl
    · rw [if_neg here, byteEq] at step
      obtain ⟨modeNext, styleNext, posNext⟩ := reads.next tracker byte
      obtain ⟨off, foundLater, rfl⟩ := map_eq_some_iff.mp found
      rw [← styleNext] at foundLater
      obtain ⟨later, structural, laterPlaced, style, pos, same⟩ :=
        ih (posNext ▸ leftLater) (modeNext.trans inMode) (placed.step step) foundLater
      rw [styleNext] at style pos
      refine ⟨later, structural, laterPlaced, style, by omega, ?_⟩
      exact ((trackerLoop raw).run_of_step step).trans same

theorem decode_of_findFree_none (reads : Reads raw mode reader rest)
    {items : Bytes} (left : raw.drop tracker.pos = items) (inMode : tracker.mode = mode)
    (missing : reader.findFree tracker.style.tags.paramEnd tracker items = none) :
    (dsmlDecodeTrackerUpdate raw tracker).decode =
      if reader.endsInPart tracker.style.tags.paramEnd 2 tracker items then .structural
      else rest (reader.readAll tracker items) := by
  induction items generalizing tracker with
  | nil =>
    have past : ¬ tracker.pos < raw.length := by
      rw [List.drop_eq_nil_iff] at left
      omega
    have step := reads.step tracker inMode
    unfold valueStep at step
    rw [if_neg past] at step
    rw [dsmlDecodeTrackerUpdate, (trackerLoop raw).run_of_halt step]
    rfl
  | cons byte items ih =>
    obtain ⟨inside, byteEq, leftLater⟩ := drop_succ_of_cons left
    have full : rawFullLit raw tracker.pos tracker.style.tags.paramEnd =
        tracker.style.tags.paramEnd.isPrefixOf (byte :: items) := by
      simp only [rawFullLit, left, startsWith, inside.le, decide_true, Bool.true_and]
    have length : raw.length - tracker.pos = items.length + 1 := by
      rw [← List.length_drop, left, List.length_cons]
    have cut : rawPartialLitMin raw tracker.pos tracker.style.tags.paramEnd 2 =
        (decide (2 ≤ items.length + 1) &&
          decide (items.length + 1 < tracker.style.tags.paramEnd.length) &&
            (byte :: items).isPrefixOf tracker.style.tags.paramEnd) := by
      simp only [rawPartialLitMin, rawPartialLit, left, startsWith, inside.le, length,
        decide_true, Bool.true_and]
      ac_rfl
    unfold Reader.findFree at missing
    split_ifs at missing with here
    rw [map_eq_none_iff] at missing
    have step := reads.step tracker inMode
    unfold valueStep at step
    simp only [if_pos inside, full, cut, if_neg here] at step
    unfold Reader.endsInPart
    split_ifs at step with waits
    · rw [dsmlDecodeTrackerUpdate, (trackerLoop raw).run_of_halt step, waits]
      rfl
    · rw [byteEq] at step
      obtain ⟨modeNext, styleNext, posNext⟩ := reads.next tracker byte
      rw [← styleNext] at missing
      have later := ih (posNext ▸ leftLater) (modeNext.trans inMode) missing
      rw [styleNext] at later
      rw [Bool.not_eq_true] at waits
      rw [dsmlDecodeTrackerUpdate, (trackerLoop raw).run_of_step step, waits, Bool.false_or]
      exact later

end Values

section Suffixes

variable {raw : Bytes}

theorem rawSuffixPartialLit_iff {literal : Bytes} {minLen : Nat} (pos : 0 < minLen) :
    rawSuffixPartialLit raw literal minLen = true ↔
      ∃ part, part <:+ raw ∧ part <+: literal ∧ minLen ≤ part.length ∧
        part.length < literal.length := by
  unfold rawSuffixPartialLit
  split
  · simp only [Bool.false_eq_true, false_iff]
    rintro ⟨part, isSuffix, pre, long, short⟩
    have := isSuffix.length_le
    omega
  · simp only [List.any_eq_true, List.mem_range'_1, beq_iff_eq]
    constructor
    · rintro ⟨n, bounds, same⟩
      refine ⟨raw.drop (raw.length - n), List.drop_suffix _ _, ?_, ?_, ?_⟩
      · rw [same]
        exact List.take_prefix _ _
      · rw [List.length_drop]
        split at bounds <;> omega
      · rw [List.length_drop]
        split at bounds <;> omega
    · rintro ⟨part, isSuffix, pre, long, short⟩
      have lengthLe := isSuffix.length_le
      refine ⟨part.length, ?_, ?_⟩
      · split <;> omega
      · rw [← List.suffix_iff_eq_drop.mp isSuffix, ← List.prefix_iff_eq_take.mp pre]

theorem suffix_drop_iff {style : Style} {pos after : Nat} {part : Bytes}
    (found : tagAfter raw pos = some after) (pre : part <+: style.tags.paramEnd)
    (short : part.length < style.tags.paramEnd.length) :
    part <:+ raw ↔ part <:+ raw.drop after := by
  constructor
  · intro isSuffix
    have noBracket : (62 : UInt8) ∉ part := by
      have inside : part <+: style.tags.paramEnd.dropLast := by
        rw [List.dropLast_eq_take]
        exact List.prefix_take_iff.mpr ⟨pre, by omega⟩
      intro mem
      have inLast := inside.subset mem
      revert inLast
      cases style <;> decide
    have bracket : raw.drop (after - 1) = 62 :: raw.drop after := by
      obtain ⟨off, offsetFound, rfl⟩ := map_eq_some_iff.mp found
      rw [strchr, List.idxOf?_eq_some_iff] at offsetFound
      obtain ⟨lt, byte, _⟩ := offsetFound
      rw [List.length_drop] at lt
      rw [Nat.add_sub_cancel, List.drop_eq_getElem_cons (by omega)]
      congr 1
      simpa using byte
    have tailSuffix : (62 :: raw.drop after) <:+ raw := bracket ▸ List.drop_suffix _ _
    rcases List.suffix_or_suffix_of_suffix isSuffix tailSuffix with inTail | longer
    · rcases List.suffix_cons_iff.mp inTail with rfl | inRest
      · exact absurd List.mem_cons_self noBracket
      · exact inRest
    · exact absurd (longer.subset List.mem_cons_self) noBracket
  · intro isSuffix
    exact isSuffix.trans (List.drop_suffix _ _)

theorem endsInPart_eq {style : Style} {pos after : Nat} {tracker : Tracker}
    {reader : Reader UInt8 Tracker}
    (keeps : ∀ state, ∀ byte ∈ style.tags.paramEnd,
      reader.free (reader.next state byte) = reader.free state)
    (found : tagAfter raw pos = some after) :
    reader.endsInPart style.tags.paramEnd 2 tracker (raw.drop after) =
      (reader.free (reader.readAll tracker (raw.drop after)) &&
        rawSuffixPartialLit raw style.tags.paramEnd 2) := by
  rw [Bool.eq_iff_iff, Bool.and_eq_true, Reader.endsInPart_iff keeps (by decide),
    rawSuffixPartialLit_iff (by decide)]
  refine and_congr_right fun _ => exists_congr fun part => ?_
  constructor
  · rintro ⟨isSuffix, pre, long, short⟩
    exact ⟨(suffix_drop_iff found pre short).mpr isSuffix, pre, long, short⟩
  · rintro ⟨isSuffix, pre, long, short⟩
    exact ⟨(suffix_drop_iff found pre short).mp isSuffix, pre, long, short⟩

theorem scanJson_eq (paramEnd : Bytes) (tracker : Tracker) (items : Bytes) :
    scanJson paramEnd tracker.jsonInString tracker.jsonEscaped items =
      if (jsonReader.findFree paramEnd tracker items).isSome then none
      else some (jsonReader.readAll tracker items).jsonInString := by
  induction items generalizing tracker with
  | nil => rfl
  | cons byte items ih =>
    unfold scanJson Reader.findFree
    have sameTest : (!tracker.jsonInString && startsWith (byte :: items) paramEnd) =
        (jsonReader.free tracker && paramEnd.isPrefixOf (byte :: items)) := rfl
    rw [sameTest]
    split
    · rfl
    · rw [isSome_map]
      exact ih (jsonReader.next tracker byte)

end Suffixes

section Agreement

variable {raw : Bytes} {tracker : Tracker}

def JsonValueAt (text : Bytes) (style : Style) (after : Nat) : Prop :=
  ∃ position, Stands text style .between position ∧
    rawFullLit text position style.tags.paramStart = true ∧ tagAfter text position = some after ∧
        dsmlAttrIsStringTrue text position after = false

/-- In each JSON value that ends outside of its strings, or whose end tag the end of
the text cuts there, the first end tag of all stands outside of its strings. -/
def EndsUnquoted (text : Bytes) : Prop :=
  ∀ style after, JsonValueAt text style after →
    ((quoteReader.findFree style.tags.paramEnd (false, false) (text.drop after)).isSome ||
      quoteReader.endsInPart style.tags.paramEnd 2 (false, false) (text.drop after)) = true →
      quoteReader.firstGuarded style.tags.paramEnd (false, false) (text.drop after) = false

/-- A tracker comes to where the reference comes to: to the same position between
tags, or to the same report. -/
def Agrees (raw : Bytes) (tracker : Tracker) : Nat ⊕ Decode → Prop
  | .inl position => ∃ later, later.mode = .structural ∧ later.Placed raw ∧
      later.style = tracker.style ∧ later.pos = position ∧
        dsmlDecodeTrackerUpdate raw tracker = dsmlDecodeTrackerUpdate raw later
  | .inr state => (dsmlDecodeTrackerUpdate raw tracker).decode = state

theorem Agrees.of_step {next : Tracker} {result : Nat ⊕ Decode}
    (step : trackerStep raw tracker = .inl next) (style : next.style = tracker.style)
    (agrees : Agrees raw next result) : Agrees raw tracker result := by
  have same : dsmlDecodeTrackerUpdate raw tracker = dsmlDecodeTrackerUpdate raw next :=
    (trackerLoop raw).run_of_step step
  cases result with
  | inl position =>
    obtain ⟨later, structural, placed, laterStyle, pos, sameLater⟩ := agrees
    exact ⟨later, structural, placed, laterStyle.trans style, pos, same.trans sameLater⟩
  | inr state => exact (congrArg Tracker.decode same).trans agrees

theorem agrees_of_structural (mode : tracker.mode = .structural)
    (placed : tracker.Placed raw) : Agrees raw tracker (.inl tracker.pos) :=
  ⟨tracker, mode, placed, rfl, rfl, rfl⟩

theorem agrees_of_halt {result : Tracker} (step : trackerStep raw tracker = .inr result) :
    Agrees raw tracker (.inr result.decode) :=
  congrArg Tracker.decode ((trackerLoop raw).run_of_halt step)

theorem agrees_string {position after : Nat} (mode : tracker.mode = .stringBody)
    (placed : tracker.Placed raw) (pos : tracker.pos = after)
    (found : tagAfter raw position = some after) :
    Agrees raw tracker (afterParamEnd raw tracker.style after
      (if rawSuffixPartialLit raw tracker.style.tags.paramEnd 2 then .structural
      else .stringBody)) := by
  subst pos
  have sameSearch : stringReader.findFree tracker.style.tags.paramEnd tracker
      (raw.drop tracker.pos) = find tracker.style.tags.paramEnd (raw.drop tracker.pos) :=
    Reader.findFree_eq_find (fun _ => rfl) (paramEnd_ne_nil tracker.style) _ _
  unfold afterParamEnd
  rw [← sameSearch]
  split
  next missing =>
    have decode := decode_of_findFree_none (reads_string raw) rfl mode missing
    rw [endsInPart_eq (fun _ _ _ => rfl) found] at decode
    exact decode
  next off foundEnd =>
    exact update_of_findFree (reads_string raw) rfl mode placed foundEnd

theorem dsmlDecodeScanJsonParam_of_none {pos : Nat}
    (inString : tracker.jsonInString = false) (escaped : tracker.jsonEscaped = false)
    (found : tagAfter raw pos = some tracker.pos)
    (missing : jsonReader.findFree tracker.style.tags.paramEnd tracker
      (raw.drop tracker.pos) = none) :
    dsmlDecodeScanJsonParam raw tracker.pos tracker.style =
      if jsonReader.endsInPart tracker.style.tags.paramEnd 2 tracker
          (raw.drop tracker.pos) then .structural
      else if (jsonReader.readAll tracker (raw.drop tracker.pos)).jsonInString then
        .jsonString
      else .jsonStructural := by
  have scan := scanJson_eq tracker.style.tags.paramEnd tracker (raw.drop tracker.pos)
  rw [inString, escaped, missing] at scan
  unfold dsmlDecodeScanJsonParam
  rw [scan, endsInPart_eq (jsonReader_keeps tracker.style) found]
  rfl

theorem dsmlDecodeScanJsonParam_of_some {off : Nat}
    (inString : tracker.jsonInString = false) (escaped : tracker.jsonEscaped = false)
    (foundEnd : jsonReader.findFree tracker.style.tags.paramEnd tracker
      (raw.drop tracker.pos) = some off) :
    dsmlDecodeScanJsonParam raw tracker.pos tracker.style = .structural := by
  have scan := scanJson_eq tracker.style.tags.paramEnd tracker (raw.drop tracker.pos)
  rw [inString, escaped, foundEnd] at scan
  unfold dsmlDecodeScanJsonParam
  rw [scan]
  rfl

theorem agrees_json {pos : Nat} (mode : tracker.mode = .jsonParam)
    (placed : tracker.Placed raw) (inString : tracker.jsonInString = false)
    (escaped : tracker.jsonEscaped = false)
    (found : tagAfter raw pos = some tracker.pos)
    (unquoted :
      ((jsonReader.findFree tracker.style.tags.paramEnd tracker (raw.drop tracker.pos)).isSome ||
        jsonReader.endsInPart tracker.style.tags.paramEnd 2 tracker (raw.drop tracker.pos)) = true →
        jsonReader.firstGuarded tracker.style.tags.paramEnd tracker
          (raw.drop tracker.pos) = false) :
    Agrees raw tracker (match dsmlDecodeScanJsonParam raw tracker.pos tracker.style with
      | .structural => afterParamEnd raw tracker.style tracker.pos .structural
      | state => .inr state) := by
  have sameSearch := fun ends =>
    Reader.find_eq_findFree (paramEnd_ne_nil tracker.style) (unquoted ends)
  cases foundEnd : jsonReader.findFree tracker.style.tags.paramEnd tracker
      (raw.drop tracker.pos) with
  | some off =>
    rw [foundEnd] at sameSearch
    unfold afterParamEnd
    rw [dsmlDecodeScanJsonParam_of_some inString escaped foundEnd, sameSearch rfl]
    exact update_of_findFree (reads_json raw) rfl mode placed foundEnd
  | none =>
    rw [foundEnd, isSome_none, Bool.false_or] at sameSearch
    have decode := decode_of_findFree_none (reads_json raw) rfl mode foundEnd
    rw [dsmlDecodeScanJsonParam_of_none inString escaped found foundEnd]
    unfold afterParamEnd
    split_ifs at decode ⊢ with cut inside
    · rw [sameSearch cut]
      exact decode
    · exact decode
    · exact decode

theorem agrees_step (unquoted : EndsUnquoted raw) (mode : tracker.mode = .structural)
    (placed : tracker.Placed raw) :
    Agrees raw tracker (referenceStep raw tracker.style tracker.pos) := by
  have step := trackerStep_structural raw tracker mode
  have stands : Stands raw tracker.style .between tracker.pos := by
    simpa only [Tracker.Placed, mode] using placed
  unfold structuralStep at step
  unfold referenceStep
  dsimp only at step ⊢
  split
  next atEnd =>
    rw [if_pos atEnd] at step
    exact agrees_of_halt step
  rename_i inside
  rw [if_neg inside] at step
  split <;> rename_i foundTag <;> rw [foundTag] at step <;> dsimp only at step
  · exact agrees_of_halt step
  · exact Agrees.of_step step rfl (agrees_of_structural mode (placed.step step))
  · split <;> rename_i after <;> rw [after] at step <;> dsimp only at step
    · exact agrees_of_halt step
    · exact Agrees.of_step step rfl (agrees_of_structural mode (placed.step step))
  · split <;> rename_i after <;> rw [after] at step <;> dsimp only at step
    · exact agrees_of_halt step
    · unfold referenceValue
      split <;> rename_i isString
      · rw [if_pos isString] at step
        exact Agrees.of_step step rfl (agrees_string rfl (placed.step step) rfl after)
      · rw [if_neg isString] at step
        refine Agrees.of_step step rfl (agrees_json rfl (placed.step step) rfl rfl after ?_)
        simp only [← jsonReader_mapsTo.findFree, ← jsonReader_mapsTo.endsInPart,
          ← jsonReader_mapsTo.firstGuarded]
        exact unquoted tracker.style _ ⟨_, stands.skipSpaces,
          rawFullLit_of_tagAt foundTag, after, by simpa using isString⟩
  · exact agrees_of_halt step

theorem decode_update_eq_run (unquoted : EndsUnquoted raw) {style : Style}
    (position : Nat) (mode : tracker.mode = .structural) (placed : tracker.Placed raw)
    (inStyle : tracker.style = style) (pos : tracker.pos = position) :
    (dsmlDecodeTrackerUpdate raw tracker).decode = (referenceLoop raw style).run position := by
  refine (referenceLoop raw style).run_induction
    (fun position result => ∀ tracker : Tracker, tracker.mode = .structural →
      tracker.Placed raw → tracker.style = style → tracker.pos = position →
        (dsmlDecodeTrackerUpdate raw tracker).decode = result)
    ?_ ?_ position tracker mode placed inStyle pos
  · rintro _ result halted tracker structural trackerPlaced rfl rfl
    have agrees := agrees_step unquoted structural trackerPlaced
    rwa [show referenceStep raw tracker.style tracker.pos = .inr result from halted]
      at agrees
  · rintro _ following step ih tracker structural trackerPlaced rfl rfl
    have agrees := agrees_step unquoted structural trackerPlaced
    rw [show referenceStep raw tracker.style tracker.pos = .inl following from step]
      at agrees
    obtain ⟨later, laterStructural, laterPlaced, laterStyle, laterPos, same⟩ := agrees
    rw [same]
    exact ih later laterStructural laterPlaced laterStyle laterPos

/-- Where the first end tag of a JSON value never stands inside a string, one update
of a fresh tracker reports what the reference recogniser reports. -/
theorem decode_update_eq_reference (text : Bytes) (unquoted : EndsUnquoted text) :
    (dsmlDecodeTrackerUpdate text {}).decode = dsmlDecodeStateForText text := by
  have step := trackerStep_search text {} rfl
  unfold searchStep at step
  unfold dsmlDecodeStateForText
  rw [dsmlFindToolStartFrom_zero] at step
  split
  next empty =>
    have missing : dsmlFindToolStart text = none := by
      rw [List.length_eq_zero_iff.mp empty]
      decide
    rw [missing] at step
    exact agrees_of_halt step
  · split <;> rename_i found <;> rw [found] at step <;> dsimp only at step
    · exact agrees_of_halt step
    · have same : dsmlDecodeTrackerUpdate text {} = _ := (trackerLoop text).run_of_step step
      rw [same]
      exact decode_update_eq_run unquoted _ rfl ((placed_fresh text).step step) rfl rfl

theorem endsUnquoted_of_tags {text : Bytes} (tags : ∀ style ∈ Style.all, ∀ pos < text.length,
      rawFullLit text pos style.tags.paramStart = true → ∀ after ∈ tagAfter text pos,
          quoteReader.firstGuarded style.tags.paramEnd (false, false) (text.drop after) = false) :
    EndsUnquoted text := by
  rintro style after ⟨pos, _, full, found, _⟩ _
  have bounds := tagAfter_bounds found
  exact tags style (Style.mem_all style) pos (by omega) full after found

def openJsonValue : Bytes :=
  utf8 "<tool_calls><invoke name=\"a\"><parameter name=\"b\" string=\"false\">"

/-- The rest of a block whose value is a string that is an end tag. -/
def quotedEnd : Bytes :=
  utf8 "\"</parameter>\"</parameter></invoke></tool_calls>"

theorem decode_update_eq_reference_openJsonValue :
    (dsmlDecodeTrackerUpdate (openJsonValue ++ utf8 "\"c\"</parameter>") {}).decode =
      dsmlDecodeStateForText (openJsonValue ++ utf8 "\"c\"</parameter>") :=
  decode_update_eq_reference _ (endsUnquoted_of_tags (by decide +kernel))

/-- An end tag inside a JSON string ends the value for the reference alone, which then
waits for a tag while the tracker sees the block end. -/
theorem decode_update_ne_reference_quotedEnd :
    (dsmlDecodeTrackerUpdate (openJsonValue ++ quotedEnd) {}).decode = .outside ∧
      dsmlDecodeStateForText (openJsonValue ++ quotedEnd) = .structural := by
  decide +kernel

end Agreement

end DsmlTracker

end LnaLang
