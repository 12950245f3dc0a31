import LnaLang.VisibleText
import LnaLang.WindowStreams

/-!
# The visible text of the OpenAI stream

Apart from its tool calls, the OpenAI stream is the machine of the visible text:
an update of the stream is an update of that machine, and reasoning and content
are what the deltas carry.
-/

namespace LnaLang.Openai

open Dsml StreamText

def Event.reasoning? : Event → Option Bytes
  | .reasoning piece => some piece
  | _ => none

def Event.content? : Event → Option Bytes
  | .content piece => some piece
  | _ => none

def reasoningText (events : List Event) : Bytes :=
  (events.filterMap Event.reasoning?).flatten

def contentText (events : List Event) : Bytes :=
  (events.filterMap Event.content?).flatten

/-- Pieces put together, if there are any. -/
def joined : List Bytes → Option Bytes
  | [] => none
  | piece :: pieces => some (piece :: pieces).flatten

theorem getD_joined (pieces : List Bytes) : (joined pieces).getD [] = pieces.flatten := by
  cases pieces <;> rfl

theorem joined_append (pieces : List Bytes) (piece : Bytes) :
    joined (pieces ++ [piece]) = some ((joined pieces).getD [] ++ piece) := by
  cases pieces <;> simp [joined]

/-- The part of the text that a mode is about. -/
def Mode.visible : Mode → StreamText.Mode
  | .thinking => .thinking
  | .text => .text
  | .tool => .suppress
  | .suppress => .suppress

/-- What the stream shows. -/
def Live.visible (live : Live) : Visible where
  mode := live.mode.visible
  emitPos := live.emitPos
  checkedThinkPrefix := live.checkedThinkPrefix
  reasoning := joined (live.events.filterMap Event.reasoning?)
  content := joined (live.events.filterMap Event.content?)

theorem visible_start (req : Request) :
    (openaiStreamStart req).visible = Visible.start req.think := by
  cases thinks : req.think <;>
    simp [openaiStreamStart, Visible.start, Live.visible, thinks, Mode.visible, joined]

theorem visible_sendReasoning (piece : Bytes) (live : Live) : (sendReasoning piece live).visible =
      { live.visible with
        reasoning := addPiece live.visible.reasoning piece } := by
  unfold sendReasoning addPiece
  split
  · rfl
  · simp [Live.visible, Live.send, Event.reasoning?, Event.content?, joined_append,
      List.filterMap_cons]

theorem visible_sendContent (piece : Bytes) (live : Live) : (sendContent piece live).visible =
      { live.visible with content := addPiece live.visible.content piece } := by
  unfold sendContent addPiece
  split
  · rfl
  · simp [Live.visible, Live.send, Event.reasoning?, Event.content?, joined_append,
      List.filterMap_cons]

theorem visible_modeAfter (outcome : Outcome) :
    (modeAfter outcome).visible = Visible.modeAfter outcome := by
  cases outcome <;> rfl

theorem visible_mode_eq_iff (live : Live) :
    (live.visible.mode = .thinking ↔ live.mode = .thinking) ∧
      (live.visible.mode = .text ↔ live.mode = .text) := by
  cases mode : live.mode <;> simp [Live.visible, Mode.visible, mode]

theorem visible_thought (phase : Phase) (live : Live) :
    Live.visible { sendReasoning phase.piece live with
      emitPos := phase.emitPos
      checkedThinkPrefix := phase.checkedThinkPrefix
      mode := modeAfter phase.outcome } = live.visible.thought phase := by
  have sent := visible_sendReasoning phase.piece live
  simp only [Live.visible, Visible.mk.injEq] at sent
  simp only [Live.visible, Visible.thought, sent, visible_modeAfter]

theorem visible_startTools (raw : Bytes) (live : Live) :
    (startTools raw live).visible = { live.visible with mode := .suppress } := by
  unfold startTools
  dsimp only [Live.visible]
  split <;> rfl

theorem visible_talked (raw : Bytes) (phase : Phase) {live : Live} (talks : live.mode = .text) :
    Live.visible (match phase.outcome with
      | .waiting => { sendContent phase.piece live with emitPos := phase.emitPos }
      | .closed => startTools raw { sendContent phase.piece live with emitPos := phase.emitPos }
      | .ended =>
        { sendContent phase.piece live with
          emitPos := phase.emitPos, mode := .suppress }) =
      live.visible.talked phase := by
  have mode := (visible_mode_eq_iff live).2.mpr talks
  have sent : Live.visible { sendContent phase.piece live with
        emitPos := phase.emitPos } =
      { live.visible with
        emitPos := phase.emitPos
        content := addPiece live.visible.content phase.piece } := by
    change { (sendContent phase.piece live).visible with
      emitPos := phase.emitPos } = _
    rw [visible_sendContent]
  unfold Visible.talked
  cases phase.outcome with
  | waiting =>
    rw [sent]
    dsimp only
    rw [mode]
    rfl
  | closed =>
    rw [visible_startTools, sent]
    rfl
  | ended =>
    change { Live.visible { sendContent phase.piece live with
      emitPos := phase.emitPos } with mode := .suppress } = _
    rw [sent]
    rfl

theorem filterMap_toolCalls (deltas : List CallDelta) :
    (deltas.map fun delta => Event.toolCalls [delta]).filterMap Event.reasoning? = [] ∧
      (deltas.map fun delta => Event.toolCalls [delta]).filterMap Event.content? = [] := by
  constructor <;> rw [List.filterMap_map] <;> simp [Function.comp_def,
    Event.reasoning?, Event.content?]

theorem visible_updateTool (toolIds : Nat → Bytes) (raw : Bytes) (live : Live) :
    (updateTool toolIds raw live).visible = live.visible := by
  unfold updateTool
  split
  next inTool =>
    dsimp only [Live.visible]
    rw [List.filterMap_append, List.filterMap_append,
      (filterMap_toolCalls _).1, (filterMap_toolCalls _).2, List.append_nil,
      List.append_nil, inTool]
    split <;> rfl
  next => rfl

theorem visible_updateThinkingIn (window : Window) (final : Bool) (live : Live) :
    (updateThinkingIn window final live).visible = live.visible.thinkIn window final := by
  unfold updateThinkingIn Visible.thinkIn
  by_cases thinks : live.mode = .thinking
  · rw [if_pos thinks, if_pos ((visible_mode_eq_iff live).1.mpr thinks)]
    exact visible_thought _ live
  · rw [if_neg thinks, if_neg (thinks ∘ (visible_mode_eq_iff live).1.mp)]

theorem visible_updateTextIn (req : Request) (window : Window) (final : Bool) (live : Live) :
    (updateTextIn req window final live).visible =
      live.visible.talkIn req.hasTools window final := by
  unfold updateTextIn Visible.talkIn
  by_cases talks : live.mode = .text
  · rw [if_pos talks, if_pos ((visible_mode_eq_iff live).2.mpr talks)]
    exact visible_talked window.raw _ talks
  · rw [if_neg talks, if_neg (talks ∘ (visible_mode_eq_iff live).2.mp)]

theorem visible_streamUpdateIn (toolIds : Nat → Bytes) (req : Request)
    (window : Window) (final : Bool) {live : Live} (active : live.active = true) :
    (openaiSseStreamUpdateIn toolIds req window final live).visible =
      live.visible.updateIn req.hasTools window final := by
  rw [openaiSseStreamUpdateIn, if_pos active, visible_updateTool,
    visible_updateTextIn, visible_updateThinkingIn, Visible.updateIn]

theorem visible_streamUpdate (toolIds : Nat → Bytes) (req : Request)
    (raw : Bytes) (final : Bool) (live : Live) (active : live.active = true) :
    (openaiSseStreamUpdate toolIds req raw final live).visible =
      live.visible.update req.hasTools raw final :=
  visible_streamUpdateIn toolIds req _ final active

theorem active_sendReasoning (piece : Bytes) (live : Live) :
    (sendReasoning piece live).active = live.active := by
  unfold sendReasoning
  split <;> rfl

theorem active_sendContent (piece : Bytes) (live : Live) :
    (sendContent piece live).active = live.active := by
  unfold sendContent
  split <;> rfl

theorem active_updateTextIn (req : Request) (window : Window) (final : Bool)
    (live : Live) : (updateTextIn req window final live).active = live.active := by
  unfold updateTextIn
  split
  · dsimp only
    split <;> exact active_sendContent _ live
  · rfl

variable (toolIds : Nat → Bytes)

include toolIds

theorem active_streamUpdate (req : Request) (raw : Bytes) (final : Bool) (live : Live) :
    (openaiSseStreamUpdate toolIds req raw final live).active = live.active := by
  have tool (raw : Bytes) (live : Live) : (updateTool toolIds raw live).active = live.active := by
    unfold updateTool
    split <;> rfl
  have thinking : (updateThinkingIn (.whole raw) final live).active = live.active := by
    unfold updateThinkingIn
    split
    · exact active_sendReasoning _ live
    · rfl
  unfold openaiSseStreamUpdate openaiSseStreamUpdateIn
  split
  · rw [tool, active_updateTextIn, thinking]
  · rfl

/-- Updates on growing prefixes. -/
def follow (toolIds : Nat → Bytes) (request : Request) (updates : List Bytes)
    (live : Live) : Live :=
  updates.foldl (fun live raw => openaiSseStreamUpdate toolIds request raw false live) live

/-- A stream that has been given the whole text. -/
def run (toolIds : Nat → Bytes) (request : Request) (updates : List Bytes) (text : Bytes) : Live :=
  openaiSseStreamUpdate toolIds request text true
    (follow toolIds request updates (openaiStreamStart request))

theorem visible_follow (req : Request)
    (updates : List Bytes) {live : Live} (active : live.active = true) :
    (follow toolIds req updates live).visible = live.visible.follow req.hasTools updates ∧
      (follow toolIds req updates live).active = true := by
  induction updates generalizing live with
  | nil => exact ⟨rfl, active⟩
  | cons raw updates ih =>
    have stillActive := active_streamUpdate toolIds req raw false live
    obtain ⟨later, laterActive⟩ := ih (stillActive.trans active)
    refine ⟨later.trans ?_, laterActive⟩
    rw [visible_streamUpdate toolIds req raw false live active]
    rfl

theorem visible_run (req : Request) (updates : List Bytes) (text : Bytes) :
    (run toolIds req updates text).visible = Visible.run req.think req.hasTools updates text := by
  have started : (openaiStreamStart req).active = true := rfl
  obtain ⟨followed, active⟩ := visible_follow toolIds req updates started
  rw [run, visible_streamUpdate _ _ _ _ _ active, followed, visible_start]
  rfl

theorem run_texts (req : Request) {updates : List Bytes} {text : Bytes}
    (nulFree : NulFree text) (prefixes : ∀ raw ∈ updates, raw <+: text) :
    reasoningText (run toolIds req updates text).events = shownReasoning req.think text ∧
      contentText (run toolIds req updates text).events =
        shownContent req.think req.hasTools text := by
  have visible := visible_run toolIds req updates text
  obtain ⟨emitPos, checked, shows⟩ := Visible.run_shown req.think req.hasTools nulFree prefixes
  rw [shows] at visible
  have reasoning := congrArg (·.reasoning.getD []) visible
  have content := congrArg (·.content.getD []) visible
  simp only [Live.visible, getD_joined, getD_shown] at reasoning content
  exact ⟨reasoning, content⟩

end LnaLang.Openai
