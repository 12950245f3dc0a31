import LnaLang.AnthropicStream
import LnaLang.StreamDecoder
import LnaLang.ToolFragments

/-!
# The two event streams on a text that is held back

While a text is generated the streams are given a window on it.  An update sends valid
UTF-8 only, and leaves the stream at a place where the text may be cut.
-/

namespace LnaLang

open List Option

open Dsml StreamText Utf8Text

namespace Openai

/-- The texts that an event carries to the client while the answer is generated. -/
def Event.fragments : Event → List Bytes
  | .reasoning text => [text]
  | .content text => [text]
  | .toolCalls deltas => deltas.map CallDelta.arguments
  | .finish _ => []
  | .done => []

/-- The stream stands where the text may be cut, and has sent valid texts only. -/
structure Live.Whole (text : Bytes) (live : Live) : Prop where
  cut : Cut text live.emitPos
  cutTool : Cut text live.tool.parsePos
  valid : ∀ event ∈ live.events, ∀ fragment ∈ event.fragments, Valid fragment

variable {text : Bytes} {window : Window} {live : Live}

theorem Live.Whole.start (valid : Valid text) (req : Request) :
    (openaiStreamStart req).Whole text where
  cut := valid.cut_zero
  cutTool := valid.cut_zero
  valid := fun _ mem => absurd mem not_mem_nil

variable (whole : live.Whole text)

include whole

theorem Live.Whole.send {event : Event} (valid : ∀ fragment ∈ event.fragments, Valid fragment) :
    (live.send event).Whole text where
  cut := whole.cut
  cutTool := whole.cutTool
  valid := forall_mem_append.mpr ⟨whole.valid, forall_mem_singleton.mpr valid⟩

theorem Live.Whole.sendReasoning {piece : Bytes}
    (valid : Valid piece) : (sendReasoning piece live).Whole text := by
  unfold Openai.sendReasoning
  split
  · exact whole
  · have sent := @Live.Whole.send _ _ whole (.reasoning (cString piece))
      (forall_mem_singleton.mpr (valid_cString valid))
    exact ⟨sent.cut, sent.cutTool, sent.valid⟩

theorem Live.Whole.sendContent {piece : Bytes}
    (valid : Valid piece) : (sendContent piece live).Whole text := by
  unfold Openai.sendContent
  split
  · exact whole
  · have sent := @Live.Whole.send _ _ whole (.content (cString piece))
      (forall_mem_singleton.mpr (valid_cString valid))
    exact ⟨sent.cut, sent.cutTool, sent.valid⟩

theorem Live.Whole.updateThinking (valid : Valid text)
    (on : window.On text) (final : Bool) : (updateThinkingIn window final live).Whole text := by
  unfold updateThinkingIn
  split
  · obtain ⟨piece, stops⟩ := whole_thinking valid on whole.cut final live.checkedThinkPrefix
    have sent := whole.sendReasoning piece
    exact ⟨stops, sent.cutTool, sent.valid⟩
  · exact whole

omit whole

theorem raw_isPrefix (on : window.On text) : window.raw <+: text :=
  (List.take_prefix _ _).trans on.isPrefix

variable (whole : live.Whole text)

include whole

theorem Live.Whole.updateText (valid : Valid text) (on : window.On text)
    (req : Request) (final : Bool) : (updateTextIn req window final live).Whole text := by
  unfold updateTextIn
  split
  · obtain ⟨piece, stops⟩ := whole_text valid on whole.cut final req.hasTools
    have sent := whole.sendContent piece
    dsimp only
    split
    · exact ⟨stops, sent.cutTool, sent.valid⟩
    · exact ⟨stops, cut_toolStreamInit valid (raw_isPrefix on) stops, sent.valid⟩
    · exact ⟨stops, sent.cutTool, sent.valid⟩
  · exact whole

theorem Live.Whole.updateTool (valid : Valid text) (on : window.On text)
    (toolIds : Nat → Bytes) : (updateTool toolIds window.raw live).Whole text := by
  unfold Openai.updateTool
  split
  · obtain ⟨cut, arguments⟩ := @fragments_update toolIds _ _ _ valid (raw_isPrefix on) whole.cutTool
    refine ⟨whole.cut, cut, forall_mem_append.mpr ⟨whole.valid, ?_⟩⟩
    intro event mem
    obtain ⟨delta, written, rfl⟩ := mem_map.mp mem
    exact forall_mem_singleton.mpr (arguments delta written)
  · exact whole

theorem Live.Whole.update (valid : Valid text)
    (on : window.On text) (toolIds : Nat → Bytes) (req : Request) (final : Bool) :
    (openaiSseStreamUpdateIn toolIds req window final live).Whole text := by
  unfold openaiSseStreamUpdateIn
  split
  · exact ((whole.updateThinking valid on final).updateText valid on req
      final).updateTool valid on toolIds
  · exact whole

end Openai

namespace Anthropic

open StateTriple

/-- The texts that an event carries to the client while the answer is generated. -/
def Event.fragments : Event → List Bytes
  | .contentBlockDelta _ (.thinking text) => [text]
  | .contentBlockDelta _ (.text text) => [text]
  | _ => []

def LiveBlock.mode : LiveBlock → Mode
  | .thinking => .thinking
  | .text => .text

/-- The stream stands where the text may be cut and has sent valid texts only, and an
open block belongs to its mode. -/
structure Live.Whole (text : Bytes) (live : Live) : Prop where
  cut : Cut text live.emitPos
  ready : ∀ block ∈ live.openBlock, live.mode = block.mode
  valid : ∀ event ∈ live.events, ∀ fragment ∈ event.fragments, Valid fragment

variable {text : Bytes} {window : Window} {mode : Mode}

theorem Live.Whole.start (valid : Valid text) (req : Request) :
    (anthropicSseStartLive req).Whole text where
  cut := valid.cut_zero
  ready := fun _ mem => absurd mem (not_mem_none _)
  valid := forall_mem_singleton.mpr fun _ mem => absurd mem not_mem_nil

/-- The stream in a mode. -/
def WholeIn (text : Bytes) (mode : Mode) (live : Live) : Prop :=
  live.Whole text ∧ live.mode = mode

theorem wholeIn_event {event : Event} (valid : ∀ fragment ∈ event.fragments, Valid fragment) :
    Establishes (WholeIn text mode) (sseEvent event) (WholeIn text mode) := by
  apply establishes_modify
  rintro live ⟨⟨cut, ready, sent⟩, inMode⟩
  exact ⟨⟨cut, ready, forall_mem_append.mpr ⟨sent, forall_mem_singleton.mpr valid⟩⟩, inMode⟩

theorem valid_none {event : Event} (empty : event.fragments = []) :
    ∀ fragment ∈ event.fragments, Valid fragment := by
  rw [empty]
  exact fun _ mem => absurd mem not_mem_nil

theorem establishes_read {before after : Live → Prop} {next : Live → Step PUnit}
    (body : ∀ live, before live → Establishes before (next live) after) :
    Establishes before (get >>= next) after := by
  apply establishes_get_bind
  intro read initial
  apply (body read initial).weaken
  rintro live rfl
  exact initial

theorem wholeIn_open (block : LiveBlock) :
    Establishes (WholeIn text block.mode) (anthropicSseOpenBlock block)
      (WholeIn text block.mode) := by
  apply establishes_read
  rintro live ⟨⟨-, ready, -⟩, inMode⟩
  split
  · exact establishes_pure fun _ holds => holds
  next other =>
    split
    next isOpen =>
      obtain ⟨opened, found⟩ := ne_none_iff_exists'.mp isOpen
      have same := (ready opened found).symm.trans inMode
      cases opened <;> cases block <;> first | exact absurd found other | cases same
    · apply (wholeIn_event (valid_none rfl)).bind
      intro _
      apply establishes_modify
      rintro live ⟨⟨cut, -, sent⟩, inMode⟩
      refine ⟨⟨cut, ?_, sent⟩, inMode⟩
      intro opened found
      cases mem_some_iff.mp found
      exact inMode

theorem wholeIn_delta (block : LiveBlock) {piece : Bytes} (valid : Valid piece) :
    Establishes (WholeIn text mode) (anthropicSseDeltaLive block piece) (WholeIn text mode) := by
  apply establishes_read
  intro live _
  split
  · apply wholeIn_event
    cases block <;>
      exact forall_mem_singleton.mpr (valid_cString valid)
  · exact establishes_pure fun _ holds => holds

theorem wholeIn_close (id : Bytes) : Establishes (WholeIn text mode) (anthropicSseCloseBlockLive id)
      (fun live => live.Whole text ∧ live.openBlock = none) := by
  have closes : Establishes (WholeIn text mode) (modify fun live : Live =>
        { live with openBlock := none, nextIndex := live.nextIndex + 1 } : Step PUnit)
      (fun live => live.Whole text ∧ live.openBlock = none) := by
    apply establishes_modify
    rintro live ⟨⟨cut, -, sent⟩, -⟩
    exact ⟨⟨cut, fun _ mem => absurd mem (not_mem_none _), sent⟩, rfl⟩
  apply establishes_get_bind
  intro live initial
  have reading : ∀ state, live = state → WholeIn text mode state := by
    rintro state rfl
    exact initial
  split
  · apply Establishes.weaken _ reading
    split
    · apply (wholeIn_event (valid_none rfl)).bind
      intro _
      exact (wholeIn_event (valid_none rfl)).bind fun _ => closes
    · exact (wholeIn_event (valid_none rfl)).bind fun _ => closes
  next notOpen =>
    apply establishes_pure
    rintro state rfl
    exact ⟨initial.1, not_not.mp notOpen⟩

theorem wholeIn_piece (block : LiveBlock) {piece : Bytes} (valid : Valid piece) :
    Establishes (WholeIn text block.mode) (writePiece block piece) (WholeIn text block.mode) := by
  unfold writePiece
  split
  · apply (wholeIn_open block).bind
    intro _
    apply (wholeIn_delta block valid).bind
    intro _
    apply establishes_modify
    rintro live ⟨⟨cut, ready, sent⟩, inMode⟩
    cases block <;> exact ⟨⟨cut, ready, sent⟩, inMode⟩
  · exact establishes_pure fun _ holds => holds

theorem whole_next (next : Mode) (id : Bytes) : Establishes (WholeIn text mode) (do
        anthropicSseCloseBlockLive id
        modify fun live => { live with mode := next } : Step PUnit)
      (Live.Whole text) := by
  apply (wholeIn_close id).bind
  intro _
  apply establishes_modify
  rintro live ⟨⟨cut, -, sent⟩, closed⟩
  refine ⟨cut, ?_, sent⟩
  intro block found
  rw [mem_def] at found
  dsimp only at found
  rw [closed] at found
  cases found

theorem whole_thinks {phase : Phase} (piece : Valid phase.piece)
    (stops : Cut text phase.emitPos) (req : Request) :
    Establishes (WholeIn text .thinking) (thinks req phase) (Live.Whole text) := by
  apply (wholeIn_piece .thinking piece).bind
  intro _
  apply @Establishes.bind _ _ _ _ _ (WholeIn text .thinking)
  · apply establishes_modify
    rintro state ⟨⟨-, ready, sent⟩, inMode⟩
    exact ⟨⟨stops, ready, sent⟩, inMode⟩
  · intro _
    split
    · exact establishes_pure fun _ holds => holds.1
    · exact whole_next .text req.id
    · exact whole_next .suppress req.id

theorem whole_talks {phase : Phase} (piece : Valid phase.piece) (stops : Cut text phase.emitPos)
    (req : Request) : Establishes (WholeIn text .text) (talks req phase) (Live.Whole text) := by
  apply (wholeIn_piece .text piece).bind
  intro _
  apply @Establishes.bind _ _ _ _ _ (WholeIn text .text)
  · apply establishes_modify
    rintro state ⟨⟨-, ready, sent⟩, inMode⟩
    exact ⟨⟨stops, ready, sent⟩, inMode⟩
  · intro _
    split
    · exact whole_next .suppress req.id
    · exact establishes_pure fun _ holds => holds.1

theorem whole_inMode {next : Live → Step PUnit} (acts : ∀ live : Live, live.Whole text →
      Establishes (WholeIn text mode) (next live) (Live.Whole text)) :
    Establishes (Live.Whole text)
      (get >>= fun live => if live.mode = mode then next live else pure ⟨⟩) (Live.Whole text) := by
  apply establishes_get_bind
  intro live whole
  split
  next inMode =>
    apply (acts live whole).weaken
    rintro state rfl
    exact ⟨whole, inMode⟩
  · apply establishes_pure
    rintro state rfl
    exact whole

variable (valid : Valid text)

include valid

theorem whole_thinkingIn (on : window.On text) (req : Request) (final : Bool) :
    Establishes (Live.Whole text) (updateThinkingIn req window final) (Live.Whole text) := by
  apply whole_inMode
  intro live whole
  obtain ⟨piece, stops⟩ := whole_thinking valid on whole.cut final live.checkedThinkPrefix
  exact whole_thinks piece stops req

theorem whole_textIn (on : window.On text) (req : Request) (final : Bool) :
    Establishes (Live.Whole text) (updateTextIn req window final) (Live.Whole text) := by
  apply whole_inMode
  intro live whole
  obtain ⟨piece, stops⟩ := whole_text valid on whole.cut final req.hasTools
  exact whole_talks piece stops req

theorem whole_updateIn (on : window.On text) (req : Request) (final : Bool) :
    Establishes (Live.Whole text) (anthropicSseStreamUpdateIn req window final)
      (Live.Whole text) := by
  apply establishes_read
  intro live _
  split
  · apply (whole_thinkingIn valid on req final).bind
    intro _
    exact whole_textIn valid on req final
  · exact establishes_pure fun _ holds => holds

end Anthropic

end LnaLang
