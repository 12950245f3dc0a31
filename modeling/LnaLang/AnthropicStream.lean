import LnaLang.StreamParts

/-!
# The Anthropic event stream

A streamed Anthropic response consists of content blocks that are opened, filled
and closed one after another.  The stream state and the events written so far are
threaded through the functions of the source; a function fails without writing
when another block is open.
-/

namespace LnaLang.Anthropic

open Dsml StreamText

/-- The blocks that the live stream opens: `anthropic_block_type`. -/
inductive LiveBlock where
  | thinking
  | text
  deriving DecidableEq, Repr

inductive Block where
  | live (block : LiveBlock)
  | toolUse (id name : Bytes)
  deriving DecidableEq, Repr

inductive Delta where
  | thinking (text : Bytes)
  | signature (id : Bytes)
  | text (text : Bytes)
  | inputJson (json : Bytes)
  deriving DecidableEq, Repr

inductive Event where
  | messageStart
  | contentBlockStart (index : Nat) (block : Block)
  | contentBlockDelta (index : Nat) (delta : Delta)
  | contentBlockStop (index : Nat)
  | messageDelta (stopReason : Bytes)
  | messageStop
  deriving DecidableEq, Repr

/-- `anthropic_stream`, with the events written so far. -/
structure Live where
  mode : Mode
  openBlock : Option LiveBlock
  nextIndex : Nat
  emitPos : Nat
  active : Bool
  checkedThinkPrefix : Bool
  sentThinking : Bool
  sentText : Bool
  events : List Event
  deriving DecidableEq, Repr

/-- A step of the stream; writes succeed, so it fails only by itself. -/
abbrev Step := EStateM PUnit Live

/-- `sse_event`. -/
def sseEvent (event : Event) : Step PUnit :=
  modify fun live => { live with events := live.events ++ [event] }

/-- `anthropic_sse_start_live`. -/
def anthropicSseStartLive (request : Request) : Live where
  mode := if request.think then .thinking else .text
  openBlock := none
  nextIndex := 0
  emitPos := 0
  active := true
  checkedThinkPrefix := false
  sentThinking := false
  sentText := false
  events := [.messageStart]

/-- `anthropic_sse_open_block`. -/
def anthropicSseOpenBlock (block : LiveBlock) : Step PUnit := do
  let live ← get
  if live.openBlock = some block then
    pure ⟨⟩
  else if live.openBlock ≠ none then
    throw ⟨⟩
  else
    sseEvent (.contentBlockStart live.nextIndex (.live block))
    modify fun live => { live with openBlock := some block }

def pieceDelta (block : LiveBlock) (piece : Bytes) : Delta :=
  match block with
  | .thinking => .thinking (cString piece)
  | .text => .text (cString piece)

/-- `anthropic_sse_delta_live`. -/
def anthropicSseDeltaLive (block : LiveBlock) (piece : Bytes) : Step PUnit := do
  let live ← get
  if piece ≠ [] then
    sseEvent (.contentBlockDelta live.nextIndex (pieceDelta block piece))

/-- `anthropic_sse_close_block_live`. -/
def anthropicSseCloseBlockLive (id : Bytes) : Step PUnit := do
  let live ← get
  if live.openBlock ≠ none then
    if live.openBlock = some .thinking then
      sseEvent (.contentBlockDelta live.nextIndex (.signature id))
    sseEvent (.contentBlockStop live.nextIndex)
    modify fun live =>
      { live with openBlock := none, nextIndex := live.nextIndex + 1 }

/-- Write a piece into a block of its kind, unless it is empty. -/
def writePiece (block : LiveBlock) (piece : Bytes) : Step PUnit := do
  if piece ≠ [] then
    anthropicSseOpenBlock block
    anthropicSseDeltaLive block piece
    modify fun live =>
      match block with
      | .thinking => { live with sentThinking := true }
      | .text => { live with sentText := true }

/-- What a reasoning phase does to the stream. -/
def thinks (request : Request) (phase : Phase) : Step PUnit := do
  writePiece .thinking phase.piece
  modify fun live =>
    { live with
      emitPos := phase.emitPos
      checkedThinkPrefix := phase.checkedThinkPrefix }
  match phase.outcome with
  | .waiting => pure ⟨⟩
  | .closed =>
    anthropicSseCloseBlockLive request.id
    modify fun live => { live with mode := .text }
  | .ended =>
    anthropicSseCloseBlockLive request.id
    modify fun live => { live with mode := .suppress }

/-- The reasoning part of `anthropic_sse_stream_update`. -/
def updateThinkingIn (request : Request) (window : Window) (final : Bool) :
    Step PUnit := do
  let live ← get
  if live.mode = .thinking then
    thinks request (window.thinkingPhase final live.emitPos live.checkedThinkPrefix)

/-- What a visible phase does to the stream. -/
def talks (request : Request) (phase : Phase) : Step PUnit := do
  writePiece .text phase.piece
  modify fun live => { live with emitPos := phase.emitPos }
  if phase.outcome ≠ .waiting then
    anthropicSseCloseBlockLive request.id
    modify fun live => { live with mode := .suppress }

/-- The visible part of `anthropic_sse_stream_update`. -/
def updateTextIn (request : Request) (window : Window) (final : Bool) :
    Step PUnit := do
  let live ← get
  if live.mode = .text then
    talks request (window.textPhase final request.hasTools live.emitPos)

/-- `anthropic_sse_stream_update`. -/
def anthropicSseStreamUpdateIn (request : Request) (window : Window) (final : Bool) :
    Step PUnit := do
  let live ← get
  if live.active then
    updateThinkingIn request window final
    updateTextIn request window final

/-- An update on all of a text. -/
def anthropicSseStreamUpdate (request : Request) (raw : Bytes) (final : Bool) :
    Step PUnit :=
  anthropicSseStreamUpdateIn request (.whole raw) final

/-- The id of a call, by default made of the message id and its number. -/
def callId (request : Request) (number : Nat) (call : Call) : Bytes :=
  match call.id with
  | some (byte :: id) => byte :: id
  | _ => (utf8 "toolu_" ++ request.id ++ utf8 s!"_{number}").take 127

/-- One round of `anthropic_sse_tool_blocks_live`. -/
def toolBlock (request : Request) (number : Nat) (call : Call) : Step PUnit := do
  let live ← get
  sseEvent (.contentBlockStart live.nextIndex
    (.toolUse (callId request number call) call.name))
  sseEvent (.contentBlockDelta live.nextIndex
    (.inputJson (Json.appendJsonObjectOrEmpty call.arguments)))
  sseEvent (.contentBlockStop live.nextIndex)
  modify fun live => { live with nextIndex := live.nextIndex + 1 }

/-- `anthropic_sse_tool_blocks_live`. -/
def anthropicSseToolBlocksLive (request : Request) (calls : List Call) : Step PUnit :=
  forM calls.zipIdx fun (call, number) => toolBlock request number call

/-- `anthropic_stop_reason`. -/
def anthropicStopReason (finish : Bytes) : Bytes :=
  if finish = utf8 "tool_calls" then utf8 "tool_use"
  else if finish = utf8 "length" then utf8 "max_tokens"
  else utf8 "end_turn"

/-- `anthropic_sse_stop_live`. -/
def anthropicSseStopLive (finish : Bytes) : Step PUnit := do
  sseEvent (.messageDelta (anthropicStopReason finish))
  sseEvent .messageStop

/-- `anthropic_sse_finish_live`. -/
def anthropicSseFinishLive (request : Request) (raw : Bytes)
    (calls : List Call) (finish : Bytes) : Step PUnit := do
  anthropicSseStreamUpdate request raw true
  let live ← get
  if live.sentThinking ∧ !live.sentText ∧ calls = [] then
    anthropicSseOpenBlock .text
    anthropicSseCloseBlockLive request.id
  anthropicSseToolBlocksLive request calls
  anthropicSseStopLive finish

end LnaLang.Anthropic
