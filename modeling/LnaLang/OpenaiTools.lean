import LnaLang.StreamParts

/-!
# The OpenAI event stream

A streamed response consists of deltas: of the reasoning, of the content, and of the
tool calls; the finish writes the parsed calls when the stream has not written any.
Behind a tool-call marker the stream reads the block tag by tag while it is being
generated.  The header of a call is written when its tag is complete; the text of
a parameter is written as it comes, up to what may be the start of the end tag, of
an entity or of a character.
-/

namespace LnaLang.Openai

open Dsml StreamText

/-- `openai_tool_stream_state`. -/
inductive ToolState where
  | betweenInvokes
  | betweenParams
  | paramValue
  | done
  | error
  deriving DecidableEq, Repr

/-- `openai_tool_stream`; the ids of the calls are chosen in advance. -/
structure ToolStream where
  state : ToolState
  style : Style
  parsePos : Nat
  index : Nat
  active : Bool
  emittedAny : Bool
  argsOpen : Bool
  firstParam : Bool
  paramIsString : Bool
  deriving DecidableEq, Repr

/-- One entry of `tool_calls` in a delta. -/
structure CallDelta where
  index : Nat
  id : Option Bytes
  name : Option Bytes
  arguments : Bytes
  deriving DecidableEq, Repr

/-- The stream before a marker has been seen. -/
def ToolStream.idle : ToolStream where
  state := .betweenInvokes
  style := .full
  parsePos := 0
  index := 0
  active := false
  emittedAny := false
  argsOpen := false
  firstParam := false
  paramIsString := false

/-- `raw_full_lit`. -/
def rawFullLit (raw : Bytes) (position : Nat) (literal : Bytes) : Bool :=
  position ≤ raw.length && startsWith (raw.drop position) literal

/-- `raw_partial_lit`. -/
def rawPartialLit (raw : Bytes) (position : Nat) (literal : Bytes) : Bool :=
  position ≤ raw.length && decide (raw.length - position < literal.length) &&
    startsWith literal (raw.drop position)

/-- `raw_partial_any`. -/
def rawPartialAny (raw : Bytes) (position : Nat) (first second : Bytes) : Bool :=
  rawPartialLit raw position first || rawPartialLit raw position second

/-- The end of the text up to a limit without what may be the start of one of the
patterns, which is looked for in a window before the limit. -/
def holdPartial (patterns : List Bytes) (head : UInt8) (window : Nat)
    (raw : Bytes) (start limit : Nat) : Nat :=
  match lastIndexFrom raw head (if start + window < limit then limit - window else start) limit with
  | none => limit
  | some index =>
    if patterns.any fun pattern =>
        decide (limit - index < pattern.length) && startsWith pattern (slice raw index limit) then
      index
    else limit

/-- `dsml_entity_stream_safe_len`. -/
def dsmlEntityStreamSafeLen (raw : Bytes) (start limit : Nat) : Nat :=
  holdPartial (entities.map Prod.fst) 38 6 raw start limit

/-- The end of the value so far without what may be the start of the end tag. -/
def beforeParamEnd (raw : Bytes) (start : Nat) (paramEnd : Bytes) : Nat :=
  holdPartial [paramEnd] 60 paramEnd.length raw start raw.length

/-- The end of the value so far without a started end tag or entity. -/
def valueLimit (raw : Bytes) (start : Nat) (paramEnd : Bytes) (isString : Bool) : Nat :=
  if isString then
    dsmlEntityStreamSafeLen raw start (beforeParamEnd raw start paramEnd)
  else beforeParamEnd raw start paramEnd

/-- `tool_param_value_stream_safe_len`. -/
def toolParamValueStreamSafeLen (raw : Bytes) (start : Nat) (paramEnd : Bytes)
    (isString : Bool) : Nat :=
  utf8StreamSafeLen raw start (valueLimit raw start paramEnd isString) false

section Steps

abbrev Written := ToolStream × List CallDelta

variable (toolIds : Nat → Bytes) (raw : Bytes)

/-- `openai_tool_emit_args_fragment`. -/
def openaiToolEmitArgsFragment (tools : ToolStream) (text : Bytes) : List CallDelta :=
  if text = [] then [] else [⟨tools.index, none, none, cString text⟩]

/-- `openai_tool_emit_string_value`. -/
def openaiToolEmitStringValue (tools : ToolStream) (text : Bytes) : List CallDelta :=
  if text = [] then []
  else openaiToolEmitArgsFragment tools (Json.jsonEscapeFragment (dsmlUnescapeText (cString text)))

/-- A part of the value, in the form in which it enters the arguments. -/
def emitValue (tools : ToolStream) (text : Bytes) : List CallDelta :=
  if tools.paramIsString then openaiToolEmitStringValue tools text
  else openaiToolEmitArgsFragment tools text

/-- `openai_tool_emit_param_prefix`: the text it writes. -/
def paramPrefixText (first : Bool) (name : Bytes) (isString : Bool) : Bytes :=
  (if first then [] else utf8 ",") ++ Json.jsonEscape name ++ utf8 ":" ++
    if isString then utf8 "\"" else []

/-- `openai_tool_stream_fail`. -/
def openaiToolStreamFail (tools : ToolStream) : ToolStream :=
  { tools with active := false, state := .error }

/-- `openai_tool_start_invoke`. -/
def openaiToolStartInvoke (tools : ToolStream) : Written :=
  match readTag (raw.drop tools.parsePos) with
  | none => (tools, [])
  | some (tag, _) =>
    match dsmlAttr (cString tag) (utf8 "name") with
    | none => (openaiToolStreamFail tools, [])
    | some name =>
      ({ tools with
          emittedAny := true
          argsOpen := true
          firstParam := true
          parsePos := tools.parsePos + tag.length
          state := .betweenParams },
        ⟨tools.index, some (toolIds tools.index), some name, []⟩ ::
          openaiToolEmitArgsFragment tools (utf8 "\x7b"))

/-- `openai_tool_start_param`. -/
def openaiToolStartParam (tools : ToolStream) : Written :=
  match readTag (raw.drop tools.parsePos) with
  | none => (tools, [])
  | some (tag, _) =>
    match dsmlAttr (cString tag) (utf8 "name"),
        dsmlAttr (cString tag) (utf8 "string") with
    | some name, some isString =>
      let isString := decide (isString = utf8 "true")
      ({ tools with
          firstParam := false
          paramIsString := isString
          parsePos := tools.parsePos + tag.length
          state := .paramValue },
        openaiToolEmitArgsFragment tools (paramPrefixText tools.firstParam name isString))
    | _, _ => (openaiToolStreamFail tools, [])

/-- `openai_tool_finish_param`. -/
def openaiToolFinishParam (tools : ToolStream) (valueEnd : Nat) : Written :=
  ({ tools with
      parsePos := valueEnd + tools.style.tags.paramEnd.length
      state := .betweenParams },
    emitValue tools (slice raw tools.parsePos valueEnd) ++
      if tools.paramIsString then openaiToolEmitArgsFragment tools (utf8 "\"")
      else [])

/-- Pass over blanks. -/
def ToolStream.skipSpace (tools : ToolStream) : ToolStream :=
  { tools with
    parsePos := tools.parsePos +
      ((raw.drop tools.parsePos).takeWhile isSpace).length }

/-- Go on when the tag has been read, and wait for the rest of it otherwise. -/
def continueFrom (before : ToolStream) (after : Written) : Written ⊕ Written :=
  if after.1.parsePos = before.parsePos ∧ after.1.state = before.state then
    .inr after
  else .inl after

def betweenInvokesStep (tools : ToolStream) : Written ⊕ Written :=
  if raw.length ≤ tools.parsePos then .inr (tools, [])
  else if rawFullLit raw tools.parsePos tools.style.tags.toolCallsEnd then
    .inr ({ tools with
      parsePos := tools.parsePos + tools.style.tags.toolCallsEnd.length
      active := false
      state := .done }, [])
  else if rawPartialAny raw tools.parsePos tools.style.tags.toolCallsEnd
      tools.style.tags.invokeStart then
    .inr (tools, [])
  else if rawFullLit raw tools.parsePos tools.style.tags.invokeStart then
    continueFrom tools (openaiToolStartInvoke toolIds raw tools)
  else .inr (openaiToolStreamFail tools, [])

/-- One round between the parameters of a call, behind the blanks. -/
def betweenParamsStep (tools : ToolStream) : Written ⊕ Written :=
  if raw.length ≤ tools.parsePos then .inr (tools, [])
  else if rawFullLit raw tools.parsePos tools.style.tags.invokeEnd then
    .inl ({ tools with
        argsOpen := false
        parsePos := tools.parsePos + tools.style.tags.invokeEnd.length
        index := tools.index + 1
        state := .betweenInvokes },
      if tools.argsOpen then openaiToolEmitArgsFragment tools (utf8 "\x7d")
      else [])
  else if rawPartialAny raw tools.parsePos tools.style.tags.invokeEnd
      tools.style.tags.paramStart then
    .inr (tools, [])
  else if rawFullLit raw tools.parsePos tools.style.tags.paramStart then
    continueFrom tools (openaiToolStartParam raw tools)
  else .inr (openaiToolStreamFail tools, [])

def paramValueStep (tools : ToolStream) : Written ⊕ Written :=
  match ListSearch.find tools.style.tags.paramEnd (raw.drop tools.parsePos) with
  | some offset => .inl (openaiToolFinishParam raw tools (tools.parsePos + offset))
  | none =>
    let limit := toolParamValueStreamSafeLen raw tools.parsePos
      tools.style.tags.paramEnd tools.paramIsString
    .inr ({ tools with parsePos := max tools.parsePos limit },
      emitValue tools (slice raw tools.parsePos limit))

/-- One round of `openai_tool_stream_update`. -/
def toolStep (tools : ToolStream) : Written ⊕ Written :=
  if tools.active ∧ tools.parsePos < raw.length then
    match tools.state with
    | .betweenInvokes => betweenInvokesStep toolIds raw (tools.skipSpace raw)
    | .betweenParams => betweenParamsStep raw (tools.skipSpace raw)
    | .paramValue => paramValueStep raw tools
    | _ => .inr (tools, [])
  else .inr (tools, [])

end Steps

section Termination

variable {toolIds : Nat → Bytes} {raw : Bytes} {tools : ToolStream} {next : Written}

/-- What is left for the stream to read. -/
def remaining (raw : Bytes) (tools : ToolStream) : Nat :=
  if tools.active then raw.length + 1 - tools.parsePos else 0

theorem length_tag_pos {text tag rest : Bytes}
    (read : readTag text = some (tag, rest)) : 0 < tag.length := by
  obtain ⟨stop, found, same⟩ := Option.map_eq_some_iff.mp read
  cases same
  have ne : text ≠ [] := by
    rintro rfl
    cases found
  have := List.length_pos_iff.mpr ne
  rw [List.length_take]
  omega

def MovesOn (tools : ToolStream) (after : Written) : Prop :=
  after.1 = tools ∨ after.1.active = false ∨ tools.parsePos < after.1.parsePos

theorem movesOn_startInvoke : MovesOn tools (openaiToolStartInvoke toolIds raw tools) := by
  unfold openaiToolStartInvoke
  split
  · exact Or.inl rfl
  next tag _ read =>
    have := length_tag_pos read
    split
    · exact Or.inr (Or.inl rfl)
    · exact Or.inr (Or.inr (by dsimp only; omega))

theorem movesOn_startParam : MovesOn tools (openaiToolStartParam raw tools) := by
  unfold openaiToolStartParam
  split
  · exact Or.inl rfl
  next tag _ read =>
    have := length_tag_pos read
    split
    · exact Or.inr (Or.inr (by dsimp only; omega))
    · exact Or.inr (Or.inl rfl)

variable (active : tools.active = true)

include active

theorem remaining_continueFrom {after : Written}
    (within : tools.parsePos < raw.length) (moves : MovesOn tools after)
    (goesOn : continueFrom tools after = .inl next) :
    remaining raw next.1 < remaining raw tools := by
  unfold continueFrom at goesOn
  split at goesOn
  · cases goesOn
  next moved =>
    cases goesOn
    unfold remaining
    rw [if_pos active]
    rcases moves with same | inactive | further
    · exact absurd ⟨congrArg ToolStream.parsePos same, congrArg ToolStream.state same⟩ moved
    · rw [if_neg (by simp [inactive])]
      omega
    · split <;> omega

theorem remaining_of_le (within : tools.parsePos < raw.length)
    {after : ToolStream} (further : tools.parsePos < after.parsePos) :
    remaining raw after < remaining raw tools := by
  unfold remaining
  rw [if_pos active]
  split <;> omega

theorem remaining_betweenInvokes (goesOn : betweenInvokesStep toolIds raw tools = .inl next) :
    remaining raw next.1 < remaining raw tools := by
  unfold betweenInvokesStep at goesOn
  split at goesOn
  · cases goesOn
  split at goesOn
  · cases goesOn
  split at goesOn
  · cases goesOn
  split at goesOn
  · exact remaining_continueFrom active (by omega) movesOn_startInvoke goesOn
  · cases goesOn

omit active

theorem style_tags_pos (style : Style) : 0 < style.tags.invokeEnd.length ∧
    0 < style.tags.paramEnd.length := by
  cases style <;> decide

theorem remaining_betweenParams (active : tools.active = true)
    (goesOn : betweenParamsStep raw tools = .inl next) :
    remaining raw next.1 < remaining raw tools := by
  unfold betweenParamsStep at goesOn
  split at goesOn
  · cases goesOn
  split at goesOn
  · cases goesOn
    have := (style_tags_pos tools.style).1
    exact remaining_of_le active (by omega) (by dsimp only; omega)
  split at goesOn
  · cases goesOn
  split at goesOn
  · exact remaining_continueFrom active (by omega) movesOn_startParam goesOn
  · cases goesOn

theorem remaining_paramValue (active : tools.active = true) (within : tools.parsePos < raw.length)
    (goesOn : paramValueStep raw tools = .inl next) :
    remaining raw next.1 < remaining raw tools := by
  unfold paramValueStep at goesOn
  split at goesOn
  · cases goesOn
    have := (style_tags_pos tools.style).2
    refine remaining_of_le active within ?_
    dsimp only [openaiToolFinishParam]
    omega
  · cases goesOn

theorem remaining_toolStep (goesOn : toolStep toolIds raw tools = .inl next) :
    remaining raw next.1 < remaining raw tools := by
  have skipLe : remaining raw (tools.skipSpace raw) ≤ remaining raw tools := by
    unfold remaining ToolStream.skipSpace
    dsimp only
    split <;> omega
  unfold toolStep at goesOn
  split at goesOn
  case isFalse => cases goesOn
  case isTrue runs =>
    have active : (tools.skipSpace raw).active = true := runs.1
    split at goesOn
    · exact Nat.lt_of_lt_of_le (remaining_betweenInvokes active goesOn) skipLe
    · exact Nat.lt_of_lt_of_le (remaining_betweenParams active goesOn) skipLe
    · exact remaining_paramValue runs.1 runs.2 goesOn
    · cases goesOn

end Termination

/-- The loop of `openai_tool_stream_update`. -/
def toolLoop (toolIds : Nat → Bytes) (raw : Bytes) : WhileLoop Written Written where
  step := fun (tools, written) =>
    (toolStep toolIds raw tools).map (fun (next, more) => (next, written ++ more))
      (fun (next, more) => (next, written ++ more))
  measure := fun (tools, _) => remaining raw tools
  decreases := by
    rintro ⟨tools, written⟩ ⟨next, written'⟩ stepped
    cases goesOn : toolStep toolIds raw tools with
    | inl after =>
      simp only [goesOn, Sum.map_inl] at stepped
      cases stepped
      exact remaining_toolStep goesOn
    | inr after => simp [goesOn] at stepped

/-- `openai_tool_stream_update`. -/
def openaiToolStreamUpdate (toolIds : Nat → Bytes) (raw : Bytes) (tools : ToolStream) : Written :=
  (toolLoop toolIds raw).run (tools, [])

/-- `openai_tool_stream_init`. -/
def openaiToolStreamInit (raw : Bytes) (position : Nat) : ToolStream :=
  match Style.all.find? fun style =>
      rawFullLit raw position style.tags.toolCallsStart with
  | some style =>
    { ToolStream.idle with
      style
      active := true
      parsePos := position + style.tags.toolCallsStart.length }
  | none => { ToolStream.idle with parsePos := position, state := .error }

/-- `openai_stream_mode`. -/
inductive Mode where
  | thinking
  | text
  | tool
  | suppress
  deriving DecidableEq, Repr

/-- What is sent to the client. -/
inductive Event where
  | reasoning (text : Bytes)
  | content (text : Bytes)
  | toolCalls (deltas : List CallDelta)
  | finish (reason : Bytes)
  | done
  deriving DecidableEq, Repr

/-- `openai_stream`, with the events written so far. -/
structure Live where
  mode : Mode
  emitPos : Nat
  active : Bool
  checkedThinkPrefix : Bool
  sentReasoning : Bool
  sentContent : Bool
  tool : ToolStream
  events : List Event
  deriving DecidableEq, Repr

/-- `openai_stream_start`. -/
def openaiStreamStart (request : Request) : Live where
  mode := if request.think then .thinking else .text
  emitPos := 0
  active := true
  checkedThinkPrefix := false
  sentReasoning := false
  sentContent := false
  tool := .idle
  events := []

def Live.send (live : Live) (event : Event) : Live :=
  { live with events := live.events ++ [event] }

def sendReasoning (piece : Bytes) (live : Live) : Live :=
  if piece = [] then live
  else { live.send (.reasoning (cString piece)) with sentReasoning := true }

def sendContent (piece : Bytes) (live : Live) : Live :=
  if piece = [] then live
  else { live.send (.content (cString piece)) with sentContent := true }

def modeAfter : Outcome → Mode
  | .waiting => .thinking
  | .closed => .text
  | .ended => .suppress

/-- The reasoning part of `openai_sse_stream_update`. -/
def updateThinkingIn (window : Window) (final : Bool) (live : Live) : Live :=
  if live.mode = .thinking then
    let phase := window.thinkingPhase final live.emitPos live.checkedThinkPrefix
    { sendReasoning phase.piece live with
      emitPos := phase.emitPos
      checkedThinkPrefix := phase.checkedThinkPrefix
      mode := modeAfter phase.outcome }
  else live

def startTools (raw : Bytes) (live : Live) : Live :=
  let tool := openaiToolStreamInit raw live.emitPos
  { live with tool, mode := if tool.active then .tool else .suppress }

/-- The visible part of `openai_sse_stream_update`. -/
def updateTextIn (request : Request) (window : Window) (final : Bool) (live : Live) : Live :=
  if live.mode = .text then
    let phase := window.textPhase final request.hasTools live.emitPos
    let live :=
      { sendContent phase.piece live with emitPos := phase.emitPos }
    match phase.outcome with
    | .waiting => live
    | .closed => startTools window.raw live
    | .ended => { live with mode := .suppress }
  else live

/-- The tool part of `openai_sse_stream_update`. -/
def updateTool (toolIds : Nat → Bytes) (raw : Bytes) (live : Live) : Live :=
  if live.mode = .tool then
    let (tool, deltas) := openaiToolStreamUpdate toolIds raw live.tool
    { live with
      tool
      events := live.events ++ deltas.map fun delta => .toolCalls [delta]
      mode := if tool.active then .tool else .suppress }
  else live

/-- `openai_sse_stream_update`; the tool stream reads only what may be sent. -/
def openaiSseStreamUpdateIn (toolIds : Nat → Bytes) (request : Request)
    (window : Window) (final : Bool) (live : Live) : Live :=
  if live.active then
    updateTool toolIds window.raw
      (updateTextIn request window final (updateThinkingIn window final live))
  else live

/-- An update on all of a text. -/
def openaiSseStreamUpdate (toolIds : Nat → Bytes) (request : Request)
    (raw : Bytes) (final : Bool) (live : Live) : Live :=
  openaiSseStreamUpdateIn toolIds request (.whole raw) final live

end LnaLang.Openai
