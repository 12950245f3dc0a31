import LnaLang.OpenaiTools

/-!
# Following a tool-call block while it is generated

While a chat with tools is generated, a tracker follows how far the text is inside a
tool-call block, since protocol text and payload are sampled differently.  After every
token it is given the whole text and goes on from where it stood.  The tests compare
it with a slower recogniser that reads the text from the start.
Whatever it reads of a text, it stands in the block where it takes itself to stand.
-/

namespace LnaLang.DsmlTracker

open Dsml Openai
open StreamText (slice markers)

/-- `dsml_decode_state`. -/
inductive Decode where
  | outside
  | structural
  | stringBody
  | jsonStructural
  | jsonString
  deriving DecidableEq, Repr

/-- `dsml_track_mode`. -/
inductive Mode where
  | search
  | structural
  | stringBody
  | jsonParam
  | done
  deriving DecidableEq, Repr

/-- `dsml_decode_tracker`, with the values of `dsml_decode_tracker_init`.  The style
counts once the start of a block has been found. -/
structure Tracker where
  mode : Mode := .search
  decode : Decode := .outside
  style : Style := .full
  pos : Nat := 0
  jsonInString : Bool := false
  jsonEscaped : Bool := false
  deriving DecidableEq, Repr

/-- `raw_partial_lit_min`. -/
def rawPartialLitMin (raw : Bytes) (position : Nat) (literal : Bytes) (minLen : Nat) : Bool :=
  rawPartialLit raw position literal && decide (minLen ≤ raw.length - position)

/-- `dsml_max_tool_start_len`. -/
def dsmlMaxToolStartLen : Nat :=
  Style.all.foldl (fun longest style => max longest style.tags.toolCallsStart.length) 0

/-- One round of `dsml_find_tool_start`. -/
def earlierStart (raw : Bytes) (best : Option (Nat × Style)) (style : Style) :
    Option (Nat × Style) :=
  match ListSearch.find style.tags.toolCallsStart raw with
  | none => best
  | some index =>
    if best.any fun found => found.1 ≤ index then best else some (index, style)

/-- `dsml_find_tool_start`: the position behind the start of a block, and its style. -/
def dsmlFindToolStart (raw : Bytes) : Option (Nat × Style) :=
  (Style.all.foldl (earlierStart raw) none).map fun found =>
    (found.1 + found.2.tags.toolCallsStart.length, found.2)

/-- `dsml_find_tool_start_from`. -/
def dsmlFindToolStartFrom (raw : Bytes) (start : Nat) : Option (Nat × Style) :=
  if raw.length < start then none
  else (dsmlFindToolStart (raw.drop start)).map fun found => (start + found.1, found.2)

/-- The position behind the next closing bracket. -/
def tagAfter (raw : Bytes) (position : Nat) : Option Nat :=
  (strchr (raw.drop position) 62).map fun offset => position + offset + 1

/-- `dsml_attr_is_string_true`. -/
def dsmlAttrIsStringTrue (raw : Bytes) (tagStart tagEnd : Nat) : Bool :=
  if tagEnd ≤ tagStart ∨ raw.length < tagEnd then false
  else dsmlAttr (cString (slice raw tagStart tagEnd)) (utf8 "string") ==
    some (utf8 "true")

/-- `while (pos < raw_len && isspace(raw[pos])) pos++`. -/
def skipSpaces (raw : Bytes) (position : Nat) : Nat :=
  position + ((raw.drop position).takeWhile isSpace).length

inductive Tag where
  | toolCallsEnd
  | invokeEnd
  | invokeStart
  | paramStart
  deriving DecidableEq, Repr

/-- The tag that starts at a position, as both recognisers look for it. -/
def tagAt (raw : Bytes) (tags : Tags) (position : Nat) : Option Tag :=
  if rawFullLit raw position tags.toolCallsEnd then some .toolCallsEnd
  else if rawFullLit raw position tags.invokeEnd then some .invokeEnd
  else if rawFullLit raw position tags.invokeStart then some .invokeStart
  else if rawFullLit raw position tags.paramStart then some .paramStart
  else none

/-- One byte of a JSON value: whether it leads into a string, and whether it escapes
the next one. -/
def jsonByte (inString escaped : Bool) (byte : UInt8) : Bool × Bool :=
  if inString then
    if escaped then (true, false)
    else if byte = 92 then (true, true)
    else (byte != 34, false)
  else (byte == 34, escaped)

section Tracking

variable (raw : Bytes)

/-- The tracker in front of a start. -/
def searchStep (tracker : Tracker) : Tracker ⊕ Tracker :=
  match dsmlFindToolStartFrom raw tracker.pos with
  | none => .inr { tracker with pos := raw.length - dsmlMaxToolStartLen, decode := .outside }
  | some (pos, style) =>
    .inl { tracker with style, pos, mode := .structural, decode := .structural }

/-- The tracker between two tags.  What is not a tag, or not yet, makes it wait. -/
def structuralStep (tracker : Tracker) : Tracker ⊕ Tracker :=
  let pos := skipSpaces raw tracker.pos
  let tags := tracker.style.tags
  let waiting := { tracker with pos, decode := .structural }
  if raw.length ≤ pos then .inr waiting
  else
    match tagAt raw tags pos with
    | some .toolCallsEnd =>
      .inr { tracker with
        mode := .done
        pos := pos + tags.toolCallsEnd.length
        decode := .outside }
    | some .invokeEnd => .inl { tracker with pos := pos + tags.invokeEnd.length }
    | some .invokeStart =>
      match tagAfter raw pos with
      | none => .inr waiting
      | some after => .inl { tracker with pos := after }
    | some .paramStart =>
      match tagAfter raw pos with
      | none => .inr waiting
      | some after =>
        if dsmlAttrIsStringTrue raw pos after then
          .inl { tracker with
            pos := after
            mode := .stringBody
            decode := .stringBody }
        else
          .inl { tracker with
            pos := after
            mode := .jsonParam
            jsonInString := false
            jsonEscaped := false
            decode := .jsonStructural }
    | none => .inr waiting

/-- The tracker inside a value; the end tag only counts where it may stand.  The
first byte alone of an end tag at the end of the text is taken for payload. -/
def valueStep (mayEnd : Bool) (read : Tracker) (rest : Decode) (tracker : Tracker) :
    Tracker ⊕ Tracker :=
  let paramEnd := tracker.style.tags.paramEnd
  if tracker.pos < raw.length then
    if mayEnd && rawFullLit raw tracker.pos paramEnd then
      .inl { tracker with
        pos := tracker.pos + paramEnd.length
        mode := .structural
        decode := .structural }
    else if mayEnd && rawPartialLitMin raw tracker.pos paramEnd 2 then
      .inr { tracker with decode := .structural }
    else .inl read
  else .inr { tracker with decode := rest }

def stringStep (tracker : Tracker) : Tracker ⊕ Tracker :=
  valueStep raw true { tracker with pos := tracker.pos + 1 } .stringBody tracker

def jsonStep (tracker : Tracker) : Tracker ⊕ Tracker :=
  let flags := jsonByte tracker.jsonInString tracker.jsonEscaped (raw.getD tracker.pos 0)
  valueStep raw (!tracker.jsonInString)
    { tracker with
      pos := tracker.pos + 1
      jsonInString := flags.1
      jsonEscaped := flags.2 }
    (if tracker.jsonInString then .jsonString else .jsonStructural) tracker

/-- One round of `dsml_decode_tracker_update`. -/
def trackerStep (tracker : Tracker) : Tracker ⊕ Tracker :=
  match tracker.mode with
  | .done => .inr { tracker with decode := .outside }
  | .search => searchStep raw tracker
  | .stringBody => stringStep raw tracker
  | .jsonParam => jsonStep raw tracker
  | .structural => structuralStep raw tracker

end Tracking

section Starts

open ListSearch TagSearch Option

variable {raw : Bytes}

def IsFirstStart (raw : Bytes) (styles : List Style) : Option (Nat × Style) → Prop
  | none => ∀ style ∈ styles, ∀ index, ¬ OccursAt style.tags.toolCallsStart raw index
  | some (index, style) =>
    style ∈ styles ∧ OccursAt style.tags.toolCallsStart raw index ∧
      ∀ other ∈ styles, ∀ before < index, ¬ OccursAt other.tags.toolCallsStart raw before

theorem toolCallsStart_isTag (style : Style) : IsTag 60 style.tags.toolCallsStart := by
  cases style <;> decide

theorem IsFirstStart.earlierStart {styles : List Style} {best : Option (Nat × Style)}
    (isFirst : IsFirstStart raw styles best) (style : Style) :
    IsFirstStart raw (styles ++ [style]) (earlierStart raw best style) := by
  have both : ∀ {P : Style → Prop}, (∀ other ∈ styles, P other) → P style →
      ∀ other ∈ styles ++ [style], P other := by
    intro P old new other mem
    rcases List.mem_append.mp mem with oldMember | newMember
    · exact old other oldMember
    · rw [List.mem_singleton.mp newMember]
      exact new
  have found := isFirst_find raw (toolCallsStart_isTag style).ne_nil
  unfold DsmlTracker.earlierStart
  cases search : find style.tags.toolCallsStart raw with
  | none =>
    rw [search] at found
    cases best with
    | none => exact both isFirst found
    | some best =>
      obtain ⟨mem, occurs, least⟩ := isFirst
      exact ⟨List.mem_append_left _ mem, occurs, both least fun before _ => found before⟩
  | some i =>
    rw [search] at found
    have mem : style ∈ styles ++ [style] := by simp
    cases best with
    | none => exact ⟨mem, found.1, both (fun other old before _ =>
      isFirst other old before) found.2⟩
    | some best =>
      obtain ⟨bestMember, occurs, least⟩ := isFirst
      dsimp only [any_some]
      split
      next kept =>
        have le : best.1 ≤ i := by simpa using kept
        exact ⟨List.mem_append_left _ bestMember, occurs,
          both least fun before lt => found.2 before (by omega)⟩
      next better =>
        have lt : i < best.1 := by simpa using better
        exact ⟨mem, found.1, both (fun other old before beforeLt =>
          least other old before (by omega)) found.2⟩

theorem isFirstStart_all (raw : Bytes) :
    IsFirstStart raw Style.all (Style.all.foldl (earlierStart raw) none) := by
  have start : IsFirstStart raw [] none := fun _ mem => absurd mem List.not_mem_nil
  exact ((start.earlierStart .full).earlierStart .short).earlierStart .plain

theorem Style.mem_all (style : Style) : style ∈ Style.all := by
  cases style <;> decide

variable {start : Nat} {style : Style}

theorem marker_of_dsmlFindToolStartFrom {pos : Nat}
    (found : dsmlFindToolStartFrom raw start = some (pos, style)) :
    ∃ i, markers.findFrom raw start = some i ∧ OccursAt style.tags.toolCallsStart raw i ∧
        pos = i + style.tags.toolCallsStart.length := by
  unfold dsmlFindToolStartFrom dsmlFindToolStart at found
  split at found
  · cases found
  have first := isFirstStart_all (raw.drop start)
  cases best : Style.all.foldl (earlierStart (raw.drop start)) none with
  | none => simp [best] at found
  | some result =>
    rw [best] at first found
    obtain ⟨off, foundStyle⟩ := result
    obtain ⟨_, occurs, least⟩ := first
    simp only [map_some, Option.some.injEq, Prod.mk.injEq] at found
    obtain ⟨rfl, rfl⟩ := found
    have inRaw : OccursAt foundStyle.tags.toolCallsStart raw (start + off) := by
      unfold OccursAt at occurs ⊢
      rwa [List.drop_drop] at occurs
    refine ⟨start + off, markers.findFrom_eq_some_iff.mpr ⟨by omega, ?_, ?_⟩,
      inRaw, by omega⟩
    · exact ⟨_, List.mem_map_of_mem (Style.mem_all foundStyle), inRaw⟩
    · intro before le lt occursBefore
      obtain ⟨earlier, rfl⟩ := Nat.exists_eq_add_of_le le
      obtain ⟨_, mem, occursMarker⟩ := occursBefore
      obtain ⟨other, otherMember, rfl⟩ := List.mem_map.mp mem
      apply least other otherMember earlier (by omega)
      unfold OccursAt at occursMarker ⊢
      rwa [List.drop_drop]

theorem dsmlFindToolStartFrom_eq_none :
    dsmlFindToolStartFrom raw start = none ↔ markers.findFrom raw start = none := by
  constructor
  · intro missing
    rw [markers.findFrom_eq_none_iff]
    rintro i le ⟨_, mem, occurs⟩
    obtain ⟨style, styleMember, rfl⟩ := List.mem_map.mp mem
    have endLe := occurs.end_le (toolCallsStart_isTag style).ne_nil
    unfold dsmlFindToolStartFrom dsmlFindToolStart at missing
    rw [if_neg (by omega), map_eq_none_iff, map_eq_none_iff] at missing
    have first := isFirstStart_all (raw.drop start)
    rw [missing] at first
    apply first style styleMember (i - start)
    unfold OccursAt at occurs ⊢
    rwa [List.drop_drop, Nat.add_sub_cancel' le]
  · intro missing
    cases found : dsmlFindToolStartFrom raw start with
    | none => rfl
    | some result =>
      obtain ⟨pos, style⟩ := result
      obtain ⟨i, foundMarker, _⟩ := marker_of_dsmlFindToolStartFrom found
      rw [missing] at foundMarker
      cases foundMarker

theorem Style.eq_of_occursAt {first second : Style} {i : Nat}
    (occursFirst : OccursAt first.tags.toolCallsStart raw i)
    (occursSecond : OccursAt second.tags.toolCallsStart raw i) : first = second := by
  have comparable := List.prefix_or_prefix_of_prefix occursFirst occursSecond
  revert comparable
  cases first <;> cases second <;> decide

theorem dsmlFindToolStartFrom_eq_some_iff {pos : Nat} :
    dsmlFindToolStartFrom raw start = some (pos, style) ↔ ∃ i, markers.findFrom raw start = some i ∧
        OccursAt style.tags.toolCallsStart raw i ∧ pos = i + style.tags.toolCallsStart.length := by
  constructor
  · exact marker_of_dsmlFindToolStartFrom
  · rintro ⟨i, foundMarker, occurs, rfl⟩
    cases found : dsmlFindToolStartFrom raw start with
    | none =>
      rw [dsmlFindToolStartFrom_eq_none.mp found] at foundMarker
      cases foundMarker
    | some result =>
      obtain ⟨_, _⟩ := result
      obtain ⟨other, otherMarker, otherOccurs, rfl⟩ := marker_of_dsmlFindToolStartFrom found
      cases foundMarker.symm.trans otherMarker
      rw [Style.eq_of_occursAt occurs otherOccurs]

theorem dsmlFindToolStartFrom_bounds {pos : Nat}
    (found : dsmlFindToolStartFrom raw start = some (pos, style)) :
    start < pos ∧ pos ≤ raw.length := by
  obtain ⟨i, foundMarker, occurs, rfl⟩ := marker_of_dsmlFindToolStartFrom found
  have le := (markers.findFrom_eq_some_iff.mp foundMarker).1
  have ne := (toolCallsStart_isTag style).ne_nil
  have endLe := occurs.end_le ne
  have positive := List.length_pos_iff.mpr ne
  omega

end Starts

section Loops

variable {raw : Bytes} {tracker next : Tracker}

theorem le_skipSpaces (raw : Bytes) (position : Nat) : position ≤ skipSpaces raw position :=
  Nat.le_add_right _ _

variable {position : Nat}

theorem rawFullLit_iff {literal : Bytes} : rawFullLit raw position literal = true ↔
      position ≤ raw.length ∧ literal <+: raw.drop position := by
  simp [rawFullLit]

theorem rawFullLit_end {literal : Bytes} (full : rawFullLit raw position literal = true) :
    position + literal.length ≤ raw.length := by
  obtain ⟨le, starts⟩ := rawFullLit_iff.mp full
  have bound := starts.length_le
  rw [List.length_drop] at bound
  omega

theorem tagAfter_bounds {after : Nat} (found : tagAfter raw position = some after) :
    position < after ∧ after ≤ raw.length := by
  obtain ⟨off, offsetFound, rfl⟩ := Option.map_eq_some_iff.mp found
  have inside : off < (raw.drop position).length := by
    rw [strchr, List.idxOf?_eq_some_iff] at offsetFound
    exact offsetFound.1
  rw [List.length_drop] at inside
  omega

/-- The text of a tag. -/
def Tag.literal (tags : Tags) : Tag → Bytes
  | .toolCallsEnd => tags.toolCallsEnd
  | .invokeEnd => tags.invokeEnd
  | .invokeStart => tags.invokeStart
  | .paramStart => tags.paramStart

theorem rawFullLit_of_tagAt {tags : Tags} {tag : Tag} (found : tagAt raw tags position = some tag) :
    rawFullLit raw position (tag.literal tags) = true := by
  unfold tagAt at found
  split_ifs at found <;> cases found <;> assumption

theorem paramEnd_ne_nil (style : Style) : style.tags.paramEnd ≠ [] := by
  cases style <;> decide

theorem invokeEnd_ne_nil (style : Style) : style.tags.invokeEnd ≠ [] := by
  cases style <;> decide

theorem valueStep_eq_inl {mayEnd : Bool} {read : Tracker} {rest : Decode}
    (step : valueStep raw mayEnd read rest tracker = .inl next) :
    tracker.pos < raw.length ∧
      ((mayEnd && rawFullLit raw tracker.pos tracker.style.tags.paramEnd) = true ∧
          next = { tracker with
            pos := tracker.pos + tracker.style.tags.paramEnd.length
            mode := .structural
            decode := .structural } ∨
        (mayEnd && rawFullLit raw tracker.pos tracker.style.tags.paramEnd) = false ∧
          (mayEnd && rawPartialLitMin raw tracker.pos tracker.style.tags.paramEnd 2) = false ∧
          next = read) := by
  unfold valueStep at step
  dsimp only at step
  split_ifs at step with inside full cut
  · exact ⟨inside, .inl ⟨full, (Sum.inl.inj step).symm⟩⟩
  · exact ⟨inside, .inr ⟨by simpa using full, by simpa using cut,
      (Sum.inl.inj step).symm⟩⟩

theorem valueStep_moves {mayEnd : Bool} {read : Tracker} {rest : Decode}
    (reads : read.pos = tracker.pos + 1) (mode : read.mode ≠ .search)
    (step : valueStep raw mayEnd read rest tracker = .inl next) :
    tracker.pos < next.pos ∧ next.pos ≤ raw.length ∧ next.mode ≠ .search := by
  obtain ⟨inside, ⟨full, rfl⟩ | ⟨_, _, rfl⟩⟩ := valueStep_eq_inl step
  · have pos := List.length_pos_iff.mpr (paramEnd_ne_nil tracker.style)
    have endLe := rawFullLit_end (Bool.and_eq_true_iff.mp full).2
    exact ⟨by simp only; omega, endLe, by simp⟩
  · exact ⟨by omega, by omega, mode⟩

theorem structuralStep_moves (mode : tracker.mode ≠ .search)
    (step : structuralStep raw tracker = .inl next) :
    tracker.pos < next.pos ∧ next.pos ≤ raw.length ∧ next.mode ≠ .search := by
  have start := le_skipSpaces raw tracker.pos
  unfold structuralStep at step
  dsimp only at step
  split_ifs at step with atEnd
  split at step
  · cases step
  next found =>
    cases step
    have pos := List.length_pos_iff.mpr (invokeEnd_ne_nil tracker.style)
    have endLe := rawFullLit_end (rawFullLit_of_tagAt found)
    exact ⟨by simp only; omega, endLe, mode⟩
  · split at step
    · cases step
    next after =>
      cases step
      obtain ⟨lt, le⟩ := tagAfter_bounds after
      exact ⟨by simp only; omega, le, mode⟩
  · split at step
    · cases step
    next after =>
      obtain ⟨lt, le⟩ := tagAfter_bounds after
      split_ifs at step <;> cases step <;>
        exact ⟨by simp only; omega, le, by simp⟩
  · cases step

theorem trackerStep_moves (step : trackerStep raw tracker = .inl next) :
    tracker.pos < next.pos ∧ next.pos ≤ raw.length ∧ next.mode ≠ .search := by
  unfold trackerStep at step
  split at step
  · cases step
  · unfold searchStep at step
    split at step
    · cases step
    next found =>
      cases step
      obtain ⟨lt, le⟩ := dsmlFindToolStartFrom_bounds found
      exact ⟨lt, le, by simp⟩
  next mode =>
    exact valueStep_moves rfl (by simp [mode]) step
  next mode =>
    exact valueStep_moves rfl (by simp [mode]) step
  next mode =>
    exact structuralStep_moves (by simp [mode]) step

/-- The rounds of `dsml_decode_tracker_update`. -/
def trackerLoop (raw : Bytes) : WhileLoop Tracker Tracker where
  step := trackerStep raw
  measure tracker := raw.length - tracker.pos
  decreases stepped := by
    have moves := trackerStep_moves stepped
    omega

/-- `dsml_decode_tracker_update`. -/
def dsmlDecodeTrackerUpdate (raw : Bytes) (tracker : Tracker) : Tracker :=
  (trackerLoop raw).run tracker

end Loops

section Reference

variable (raw : Bytes)

/-- `raw_suffix_partial_lit`. -/
def rawSuffixPartialLit (literal : Bytes) (minLen : Nat) : Bool :=
  if raw.length = 0 ∨ literal.length = 0 then false
  else
    let longest := if raw.length < literal.length then raw.length
      else literal.length - 1
    (List.range' minLen (longest + 1 - minLen)).any fun count =>
      raw.drop (raw.length - count) == literal.take count

/-- The loop of `dsml_decode_scan_json_param` on what is left of the text: none when
it meets the end tag, else whether the text ends inside a string. -/
def scanJson (paramEnd : Bytes) (inString escaped : Bool) : Bytes → Option Bool
  | [] => some inString
  | byte :: rest =>
    if !inString && startsWith (byte :: rest) paramEnd then none
    else
      let flags := jsonByte inString escaped byte
      scanJson paramEnd flags.1 flags.2 rest

/-- `dsml_decode_scan_json_param`. -/
def dsmlDecodeScanJsonParam (position : Nat) (style : Style) : Decode :=
  match scanJson style.tags.paramEnd false false (raw.drop position) with
  | none => .structural
  | some inString =>
    if !inString && rawSuffixPartialLit raw style.tags.paramEnd 2 then .structural
    else if inString then .jsonString
    else .jsonStructural

/-- The reference behind the first end tag of a value, if there is one. -/
def afterParamEnd (style : Style) (start : Nat) (missing : Decode) : Nat ⊕ Decode :=
  match ListSearch.find style.tags.paramEnd (raw.drop start) with
  | none => .inr missing
  | some offset => .inl (start + offset + style.tags.paramEnd.length)

def referenceValue (style : Style) (tagStart after : Nat) : Nat ⊕ Decode :=
  if dsmlAttrIsStringTrue raw tagStart after then
    afterParamEnd raw style after (if rawSuffixPartialLit raw style.tags.paramEnd 2 then .structural
      else .stringBody)
  else
    match dsmlDecodeScanJsonParam raw after style with
    | .structural => afterParamEnd raw style after .structural
    | state => .inr state

/-- One round of `dsml_decode_state_for_text` inside a block. -/
def referenceStep (style : Style) (position : Nat) : Nat ⊕ Decode :=
  let pos := skipSpaces raw position
  let tags := style.tags
  if raw.length ≤ pos then .inr .structural
  else
    match tagAt raw tags pos with
    | some .toolCallsEnd => .inr .outside
    | some .invokeEnd => .inl (pos + tags.invokeEnd.length)
    | some .invokeStart =>
      match tagAfter raw pos with
      | none => .inr .structural
      | some after => .inl after
    | some .paramStart =>
      match tagAfter raw pos with
      | none => .inr .structural
      | some after => referenceValue raw style pos after
    | none => .inr .structural

variable {raw}

theorem afterParamEnd_moves {style : Style} {start next : Nat} {missing : Decode}
    (moved : afterParamEnd raw style start missing = .inl next) :
    start < next ∧ next ≤ raw.length := by
  unfold afterParamEnd at moved
  split at moved
  · cases moved
  next off found =>
    cases moved
    have endLe := ListSearch.find_end_le found
    have pos := List.length_pos_iff.mpr (paramEnd_ne_nil style)
    rw [List.length_drop] at endLe
    omega

theorem referenceValue_moves {style : Style} {tagStart after next : Nat}
    (moved : referenceValue raw style tagStart after = .inl next) :
    after < next ∧ next ≤ raw.length := by
  unfold referenceValue at moved
  split at moved
  · exact afterParamEnd_moves moved
  · split at moved
    · exact afterParamEnd_moves moved
    · cases moved

theorem referenceStep_moves {style : Style} {position next : Nat}
    (moved : referenceStep raw style position = .inl next) :
    position < next ∧ next ≤ raw.length := by
  have start := le_skipSpaces raw position
  unfold referenceStep at moved
  dsimp only at moved
  split_ifs at moved
  split at moved
  · cases moved
  next found =>
    cases moved
    have pos := List.length_pos_iff.mpr (invokeEnd_ne_nil style)
    have endLe := rawFullLit_end (rawFullLit_of_tagAt found)
    exact ⟨by omega, endLe⟩
  · split at moved
    · cases moved
    next after =>
      cases moved
      have bounds := tagAfter_bounds after
      omega
  · split at moved
    · cases moved
    next after =>
      have bounds := tagAfter_bounds after
      have valueBounds := referenceValue_moves moved
      omega
  · cases moved

/-- The rounds of `dsml_decode_state_for_text`. -/
def referenceLoop (raw : Bytes) (style : Style) : WhileLoop Nat Decode where
  step := referenceStep raw style
  measure position := raw.length - position
  decreases stepped := by
    have moves := referenceStep_moves stepped
    omega

/-- `dsml_decode_state_for_text`. -/
def dsmlDecodeStateForText (raw : Bytes) : Decode :=
  if raw.length = 0 then .outside
  else
    match dsmlFindToolStart raw with
    | none => .outside
    | some (pos, style) => (referenceLoop raw style).run pos

end Reference

/-- Where in a block a position stands. -/
inductive Place where
  | between
  | string
  | json (inString escaped : Bool)
  deriving DecidableEq, Repr

def Place.mayEnd : Place → Bool
  | .between => false
  | .string => true
  | .json inString _ => !inString

/-- The place behind a byte of a value. -/
def Place.read : Place → UInt8 → Place
  | .between, _ => .between
  | .string, _ => .string
  | .json inString escaped, byte =>
    let flags := jsonByte inString escaped byte
    .json flags.1 flags.2

/-- A position of a text stands at a place of the block that starts first. -/
inductive Stands (text : Bytes) : Style → Place → Nat → Prop
  | start {style pos} :
      dsmlFindToolStart text = some (pos, style) → Stands text style .between pos
  | blanks {style pos later} : Stands text style .between pos → pos ≤ later →
      later ≤ skipSpaces text pos → Stands text style .between later
  | invokeEnd {style pos} : Stands text style .between pos →
      rawFullLit text pos style.tags.invokeEnd = true →
        Stands text style .between (pos + style.tags.invokeEnd.length)
  | invokeStart {style pos after} : Stands text style .between pos →
      rawFullLit text pos style.tags.invokeStart = true →
        tagAfter text pos = some after → Stands text style .between after
  | param {style pos after} : Stands text style .between pos →
      rawFullLit text pos style.tags.paramStart = true →
        tagAfter text pos = some after →
          Stands text style
            (if dsmlAttrIsStringTrue text pos after then .string else .json false false)
            after
  | read {style place pos} : Stands text style place pos → place ≠ .between →
      pos < text.length →
        (place.mayEnd && rawFullLit text pos style.tags.paramEnd) = false →
          Stands text style (place.read (text.getD pos 0)) (pos + 1)
  | close {style place pos} : Stands text style place pos → place.mayEnd = true →
      rawFullLit text pos style.tags.paramEnd = true →
        Stands text style .between (pos + style.tags.paramEnd.length)

/-- A tracker stands where its mode says. -/
def Tracker.Placed (text : Bytes) (tracker : Tracker) : Prop :=
  match tracker.mode with
  | .search => dsmlFindToolStartFrom text tracker.pos = dsmlFindToolStart text
  | .structural => Stands text tracker.style .between tracker.pos
  | .stringBody => Stands text tracker.style .string tracker.pos
  | .jsonParam => Stands text tracker.style
      (.json tracker.jsonInString tracker.jsonEscaped) tracker.pos
  | .done => True

section Steps

variable {text : Bytes} {tracker next : Tracker}

theorem dsmlFindToolStartFrom_zero (text : Bytes) :
    dsmlFindToolStartFrom text 0 = dsmlFindToolStart text := by
  simp [dsmlFindToolStartFrom]

theorem placed_fresh (text : Bytes) : Tracker.Placed text {} := dsmlFindToolStartFrom_zero text

theorem Stands.skipSpaces {style : Style} {pos : Nat} (stands : Stands text style .between pos) :
    Stands text style .between (skipSpaces text pos) :=
  .blanks stands (le_skipSpaces text pos) le_rfl

theorem placed_valueStep {mayEnd : Bool} {read : Tracker} {rest : Decode} {place : Place}
    (stands : Stands text tracker.style place tracker.pos) (inValue : place ≠ .between)
    (ends : mayEnd = place.mayEnd)
    (placedRead : Stands text tracker.style (place.read (text.getD tracker.pos 0))
      (tracker.pos + 1) → read.Placed text)
    (step : valueStep text mayEnd read rest tracker = .inl next) :
    next.Placed text := by
  obtain ⟨inside, ⟨full, rfl⟩ | ⟨notFull, _, rfl⟩⟩ := valueStep_eq_inl step
  · obtain ⟨may, isFull⟩ := Bool.and_eq_true_iff.mp full
    exact Stands.close stands (ends ▸ may) isFull
  · exact placedRead (.read stands inValue inside (ends ▸ notFull))

theorem placed_structuralStep (mode : tracker.mode = .structural)
    (stands : Stands text tracker.style .between tracker.pos)
    (step : structuralStep text tracker = .inl next) : next.Placed text := by
  have atTag := stands.skipSpaces
  unfold structuralStep at step
  dsimp only at step
  split_ifs at step
  split at step
  · cases step
  next found =>
    cases step
    simp only [Tracker.Placed, mode]
    exact .invokeEnd atTag (rawFullLit_of_tagAt found)
  next found =>
    split at step <;> cases step
    rename_i after
    simp only [Tracker.Placed, mode]
    exact .invokeStart atTag (rawFullLit_of_tagAt found) after
  next found =>
    split at step
    · cases step
    next after =>
      have inValue := Stands.param atTag (rawFullLit_of_tagAt found) after
      split_ifs at step with isString <;> cases step
      · rwa [if_pos isString] at inValue
      · rwa [if_neg isString] at inValue
  · cases step

theorem Tracker.Placed.step (placed : tracker.Placed text)
    (step : trackerStep text tracker = .inl next) : next.Placed text := by
  unfold Tracker.Placed at placed
  unfold trackerStep at step
  split at step <;> rename_i mode <;> rw [mode] at placed <;> dsimp only at placed
  · cases step
  · unfold searchStep at step
    split at step <;> cases step
    rename_i found
    exact Stands.start (placed.symm.trans found)
  · refine placed_valueStep placed (by simp) rfl (fun stands => ?_) step
    simp only [Tracker.Placed, mode]
    exact stands
  · refine placed_valueStep placed (by simp) rfl (fun stands => ?_) step
    simp only [Tracker.Placed, mode]
    exact stands
  · exact placed_structuralStep mode placed step

end Steps

end LnaLang.DsmlTracker
