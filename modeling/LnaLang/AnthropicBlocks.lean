import LnaLang.VisibleText
import LnaLang.WindowStreams

/-!
# The blocks of the Anthropic event stream

The events written so far are complete blocks with consecutive indices, followed
by at most one open block.  A view of the stream names these blocks with their
contents; every function of the stream acts on the view, and the updates act on it
as on the visible text.  The final update of a response closes the open block; the finish
adds a block for each call and ends the message.
-/

namespace LnaLang.Anthropic

open Option

open Dsml StreamText StateTriple

/-- A delta of the type of its block. -/
def Block.Takes : Block → Delta → Prop
  | .live .thinking, .thinking _ => True
  | .live .thinking, .signature _ => True
  | .live .text, .text _ => True
  | .toolUse _ _, .inputJson _ => True
  | _, _ => False

def Delta.contents : Delta → Bytes
  | .thinking piece => piece
  | .signature _ => []
  | .text piece => piece
  | .inputJson json => json

/-- A block with these contents from its start on, without its stop. -/
def Filled (index : Nat) (block : Block) (contents : Bytes) (events : List Event) : Prop :=
  ∃ deltas : List Delta, (∀ delta ∈ deltas, block.Takes delta) ∧
    deltas.flatMap Delta.contents = contents ∧
    events = .contentBlockStart index block ::
      deltas.map (.contentBlockDelta index)

inductive Blocks : List (Block × Bytes) → List Event → Prop
  | nil : Blocks [] []
  | snoc {closed : List (Block × Bytes)} {events filled : List Event}
      {block : Block} {contents : Bytes} :
      Blocks closed events → Filled closed.length block contents filled →
      Blocks (closed ++ [(block, contents)])
        (events ++ filled ++ [.contentBlockStop closed.length])

/-- What the events and the state of the stream stand for. -/
structure View where
  mode : Mode
  emitPos : Nat
  checkedThinkPrefix : Bool
  closed : List (Block × Bytes)
  current : Option (LiveBlock × Bytes)

/-- The events of complete blocks and of the open one. -/
def Written (closed : List (Block × Bytes)) (events : List Event) :
    Option (LiveBlock × Bytes) → Prop
  | none => Blocks closed events
  | some (block, contents) => ∃ before filled, Blocks closed before ∧
      Filled closed.length (.live block) contents filled ∧
      events = before ++ filled

/-- The stream is as the view says. -/
structure View.Of (view : View) (live : Live) : Prop where
  active : live.active = true
  mode : live.mode = view.mode
  emitPos : live.emitPos = view.emitPos
  checked : live.checkedThinkPrefix = view.checkedThinkPrefix
  openBlock : live.openBlock = view.current.map Prod.fst
  nextIndex : live.nextIndex = view.closed.length
  written : ∃ events, live.events = .messageStart :: events ∧
    Written view.closed events view.current

section Primitives

variable {contents : Bytes}

theorem Filled.delta {i : Nat} {block : Block} {events : List Event} {delta : Delta}
    (filled : Filled i block contents events) (takes : block.Takes delta) :
    Filled i block (contents ++ delta.contents) (events ++ [.contentBlockDelta i delta]) := by
  obtain ⟨deltas, allTaken, rfl, rfl⟩ := filled
  refine ⟨deltas ++ [delta], ?_, by simp, by simp⟩
  intro other mem
  rcases List.mem_append.mp mem with before | last
  · exact allTaken other before
  · rw [List.mem_singleton] at last
    rwa [last]

variable {view : View} {live : Live} {block : LiveBlock}

theorem establishes_openBlock_none (block : LiveBlock) (idle : view.current = none) :
    Establishes view.Of (anthropicSseOpenBlock block)
      { view with current := some (block, []) }.Of := by
  refine establishes_get_bind fun live ready => ?_
  have openEq := ready.openBlock
  rw [idle, map_none] at openEq
  rw [if_neg (by simp [openEq]), if_neg (not_not.mpr openEq)]
  rintro _ rfl
  obtain ⟨events, eventsEq, written⟩ := ready.written
  rw [idle] at written
  refine ⟨_, _, rfl, ready.active, ready.mode, ready.emitPos, ready.checked, rfl,
    ready.nextIndex, ?_⟩
  refine ⟨events ++ [.contentBlockStart live.nextIndex (.live block)],
    by simp [eventsEq], events, _, written, ⟨[], by simp, rfl, ?_⟩, rfl⟩
  simp [ready.nextIndex]

theorem establishes_openBlock_some (current : view.current = some (block, contents)) :
    Establishes view.Of (anthropicSseOpenBlock block) view.Of := by
  refine establishes_get_bind fun live ready => ?_
  rw [if_pos (by rw [ready.openBlock, current]; rfl)]
  apply establishes_pure
  rintro _ rfl
  exact ready

theorem View.Of.delta {delta : Delta} (ready : view.Of live)
    (current : view.current = some (block, contents)) (takes : (Block.live block).Takes delta) :
    { view with current := some (block, contents ++ delta.contents) }.Of
      { live with
        events := live.events ++ [Event.contentBlockDelta live.nextIndex delta] } := by
  obtain ⟨events, eventsEq, written⟩ := ready.written
  rw [current] at written
  obtain ⟨before, filled, complete, isFilled, rfl⟩ := written
  refine ⟨ready.active, ready.mode, ready.emitPos, ready.checked, ?_,
    ready.nextIndex, _, by rw [eventsEq]; rfl, before, _, complete,
    isFilled.delta takes, ?_⟩
  · rw [ready.openBlock, current]
    rfl
  · rw [ready.nextIndex]
    exact List.append_assoc _ _ _

def View.close (view : View) : View :=
  { view with
    closed := view.closed ++
      view.current.toList.map fun (block, contents) => (.live block, contents)
    current := none }

theorem View.Of.stop (ready : view.Of live) (current : view.current = some (block, contents)) :
    view.close.Of { live with
        events := live.events ++ [Event.contentBlockStop live.nextIndex]
        openBlock := none
        nextIndex := live.nextIndex + 1 } := by
  obtain ⟨events, eventsEq, written⟩ := ready.written
  rw [current] at written
  obtain ⟨before, filled, complete, isFilled, rfl⟩ := written
  refine ⟨ready.active, ready.mode, ready.emitPos, ready.checked, rfl, ?_, _,
    by rw [eventsEq]; rfl, ?_⟩
  · simp [View.close, current, ready.nextIndex]
  · simp only [View.close, current, ready.nextIndex]
    exact complete.snoc isFilled

theorem takes_pieceDelta (block : LiveBlock) (piece : Bytes) :
    (Block.live block).Takes (pieceDelta block piece) := by
  cases block <;> exact trivial

theorem contents_pieceDelta (block : LiveBlock) (piece : Bytes) :
    (pieceDelta block piece).contents = cString piece := by
  cases block <;> rfl

theorem establishes_deltaLive (piece : Bytes) (current : view.current = some (block, contents)) :
    Establishes view.Of (anthropicSseDeltaLive block piece)
      { view with current := some (block, contents ++ cString piece) }.Of := by
  refine establishes_get_bind fun live ready => ?_
  split
  · apply establishes_modify
    rintro _ rfl
    rw [← contents_pieceDelta block piece]
    exact ready.delta current (takes_pieceDelta block piece)
  next empty =>
    apply establishes_pure
    rintro _ rfl
    have same : contents ++ cString piece = contents := by
      rw [not_not.mp empty]
      exact List.append_nil _
    rw [same, ← current]
    exact ready

theorem establishes_closeBlock (id : Bytes) :
    Establishes view.Of (anthropicSseCloseBlockLive id) view.close.Of := by
  refine establishes_get_bind fun live ready => ?_
  rintro _ rfl
  have openEq := ready.openBlock
  cases current : view.current with
  | none =>
    rw [current, map_none] at openEq
    rw [if_neg (not_not.mpr openEq)]
    have same : view.close = view := by
      cases view
      simp_all [View.close]
    refine ⟨_, _, rfl, ?_⟩
    rwa [same]
  | some block =>
    obtain ⟨block, contents⟩ := block
    rw [current, map_some] at openEq
    rw [if_pos (by simp [openEq])]
    cases block with
    | text =>
      rw [if_neg (by simp [openEq])]
      exact ⟨_, _, rfl, ready.stop current⟩
    | thinking =>
      -- the signature is the last delta of a thinking block
      rw [if_pos (by simp [openEq])]
      have takes : (Block.live .thinking).Takes (.signature id) := trivial
      have signed := ready.delta current takes
      have same : contents ++ (Delta.signature id).contents = contents := List.append_nil _
      rw [same, ← current] at signed
      exact ⟨_, _, rfl, signed.stop current⟩

theorem View.Of.sent (ready : view.Of live) (thinking text : Bool) :
    view.Of { live with sentThinking := thinking, sentText := text } :=
  ⟨ready.active, ready.mode, ready.emitPos, ready.checked, ready.openBlock,
    ready.nextIndex, ready.written⟩

theorem establishes_writePiece {text : Option Bytes} (piece : Bytes)
    (current : view.current = text.map (block, ·)) : Establishes view.Of (writePiece block piece)
      { view with current := (addPiece text piece).map (block, ·) }.Of := by
  unfold writePiece addPiece
  split
  next ne =>
    have opens : Establishes view.Of (anthropicSseOpenBlock block)
        { view with current := some (block, text.getD []) }.Of := by
      cases text with
      | none => exact establishes_openBlock_none block current
      | some contents =>
        have same : { view with current := some (block, contents) } = view := by
          cases view
          simp_all
        rw [getD_some, same]
        exact establishes_openBlock_some current
    refine opens.bind fun _ => ?_
    refine (establishes_deltaLive piece rfl).bind fun _ => ?_
    apply establishes_modify
    intro live ready
    cases block <;> exact ready.sent _ _
  next empty =>
    rw [if_pos (not_not.mp empty), ← current]
    exact establishes_pure fun _ ready => ready

theorem establishes_advance (emitPos : Nat) : Establishes view.Of
      (modify fun live => { live with emitPos := emitPos } : Step PUnit)
      { view with emitPos := emitPos }.Of :=
  establishes_modify fun _ ready =>
    ⟨ready.active, ready.mode, rfl, ready.checked, ready.openBlock, ready.nextIndex, ready.written⟩

theorem establishes_move (emitPos : Nat) (checked : Bool) : Establishes view.Of (modify fun live =>
        { live with emitPos := emitPos, checkedThinkPrefix := checked } :
        Step PUnit)
      { view with emitPos := emitPos, checkedThinkPrefix := checked }.Of :=
  establishes_modify fun _ ready =>
    ⟨ready.active, ready.mode, rfl, rfl, ready.openBlock, ready.nextIndex, ready.written⟩

theorem establishes_leave (id : Bytes) (next : Mode) : Establishes view.Of
      (anthropicSseCloseBlockLive id >>= fun _ => modify fun live => { live with mode := next })
      { view.close with mode := next }.Of := by
  refine (establishes_closeBlock id).bind fun _ => establishes_modify ?_
  intro live ready
  exact ⟨ready.active, rfl, ready.emitPos, ready.checked, ready.openBlock,
    ready.nextIndex, ready.written⟩

end Primitives

def View.ofVisible (visible : Visible) : View where
  mode := visible.mode
  emitPos := visible.emitPos
  checkedThinkPrefix := visible.checkedThinkPrefix
  closed :=
    (if visible.mode = .thinking then []
      else visible.reasoning.toList.map (.live .thinking, ·)) ++
    if visible.mode = .suppress then
      visible.content.toList.map (.live .text, ·)
    else []
  current :=
    match visible.mode with
    | .thinking => visible.reasoning.map (.thinking, ·)
    | .text => visible.content.map (.text, ·)
    | .suppress => none

/-- Nothing has been said while the stream thinks. -/
def Orderly (visible : Visible) : Prop :=
  visible.mode = .thinking → visible.content = none

variable {visible : Visible}

theorem establishes_thinks (orderly : Orderly visible)
    (inMode : visible.mode = .thinking) (req : Request) (phase : Phase) :
    Establishes (View.ofVisible visible).Of (thinks req phase)
      (View.ofVisible (visible.thought phase)).Of := by
  have current : (View.ofVisible visible).current =
      visible.reasoning.map (LiveBlock.thinking, ·) := by
    simp [View.ofVisible, inMode]
  refine (establishes_writePiece phase.piece current).bind fun _ => ?_
  refine (establishes_move phase.emitPos phase.checkedThinkPrefix).bind fun _ => ?_
  have silent := orderly inMode
  split
  next waiting =>
    refine establishes_pure fun _ after => ?_
    simpa [View.ofVisible, Visible.thought, waiting, Visible.modeAfter, inMode] using after
  next closed =>
    refine (establishes_leave req.id .text).strengthen fun _ after => ?_
    simpa [View.ofVisible, View.close, Visible.thought, closed, Visible.modeAfter,
      inMode, silent, toList_map, Function.comp_def] using after
  next ended =>
    refine (establishes_leave req.id .suppress).strengthen fun _ after => ?_
    simpa [View.ofVisible, View.close, Visible.thought, ended, Visible.modeAfter,
      inMode, silent, toList_map, Function.comp_def] using after

theorem establishes_inMode {after : Visible} {mode : Mode} {next : Live → Step PUnit}
    (acts : visible.mode = mode → ∀ live, (View.ofVisible visible).Of live →
      Establishes (View.ofVisible visible).Of (next live) (View.ofVisible after).Of)
    (stays : visible.mode ≠ mode → after = visible) :
    Establishes (View.ofVisible visible).Of
      (get >>= fun live => if live.mode = mode then next live else pure ⟨⟩)
      (View.ofVisible after).Of := by
  refine establishes_get_bind fun live ready => ?_
  have modeEq : live.mode = visible.mode := ready.mode
  by_cases inMode : visible.mode = mode
  · rw [if_pos (modeEq.trans inMode)]
    rintro _ rfl
    exact acts inMode live ready live ready
  · rw [if_neg (by rwa [modeEq]), stays inMode]
    apply establishes_pure
    rintro _ rfl
    exact ready

theorem establishes_talks (inMode : visible.mode = .text) (req : Request) (phase : Phase) :
    Establishes (View.ofVisible visible).Of (talks req phase)
      (View.ofVisible (visible.talked phase)).Of := by
  have current : (View.ofVisible visible).current = visible.content.map (LiveBlock.text, ·) := by
    simp [View.ofVisible, inMode]
  refine (establishes_writePiece phase.piece current).bind fun _ => ?_
  refine (establishes_advance phase.emitPos).bind fun _ => ?_
  split
  next stopped =>
    refine (establishes_leave req.id .suppress).strengthen fun _ after => ?_
    simpa [View.ofVisible, View.close, Visible.talked, stopped, inMode,
      toList_map, Function.comp_def] using after
  next waiting =>
    refine establishes_pure fun _ after => ?_
    simpa [View.ofVisible, Visible.talked, not_not.mp waiting, inMode] using after

theorem establishes_updateThinkingIn (orderly : Orderly visible)
    (req : Request) (window : Window) (final : Bool) :
    Establishes (View.ofVisible visible).Of (updateThinkingIn req window final)
      (View.ofVisible (visible.thinkIn window final)).Of := by
  refine establishes_inMode (fun inMode live ready => ?_) fun other => if_neg other
  have emitPosEq : live.emitPos = visible.emitPos := ready.emitPos
  have checkedEq : live.checkedThinkPrefix = visible.checkedThinkPrefix := ready.checked
  rw [emitPosEq, checkedEq, Visible.thinkIn, if_pos inMode]
  exact establishes_thinks orderly inMode req _

theorem establishes_updateTextIn (req : Request) (window : Window) (final : Bool) :
    Establishes (View.ofVisible visible).Of (updateTextIn req window final)
      (View.ofVisible (visible.talkIn req.hasTools window final)).Of := by
  refine establishes_inMode (fun inMode live ready => ?_) fun other => if_neg other
  have emitPosEq : live.emitPos = visible.emitPos := ready.emitPos
  rw [emitPosEq, Visible.talkIn, if_pos inMode]
  exact establishes_talks inMode req _

variable (orderly : Orderly visible)

include orderly

theorem establishes_streamUpdateIn (req : Request) (window : Window) (final : Bool) :
    Establishes (View.ofVisible visible).Of (anthropicSseStreamUpdateIn req window final)
      (View.ofVisible (visible.updateIn req.hasTools window final)).Of := by
  refine establishes_get_bind fun live ready => ?_
  rw [if_pos ready.active]
  rintro _ rfl
  exact (establishes_updateThinkingIn orderly req window final).bind
    (fun _ => establishes_updateTextIn req window final) live ready

theorem establishes_streamUpdate (req : Request) (raw : Bytes) (final : Bool) :
    Establishes (View.ofVisible visible).Of (anthropicSseStreamUpdate req raw final)
      (View.ofVisible (visible.update req.hasTools raw final)).Of :=
  establishes_streamUpdateIn orderly req _ final

theorem orderly_updateIn (hasTools : Bool) (window : Window)
    (final : Bool) : Orderly (visible.updateIn hasTools window final) := by
  have thought : Orderly (visible.thinkIn window final) := by
    unfold Visible.thinkIn
    split
    next thinks => exact fun _ => orderly thinks
    next => exact orderly
  unfold Visible.updateIn Visible.talkIn
  split
  · intro thinks
    dsimp only [Visible.talked] at thinks
    split at thinks <;> cases thinks
  · exact thought

omit orderly

theorem ofVisible_start (req : Request) :
    (View.ofVisible (Visible.start req.think)).Of (anthropicSseStartLive req) := by
  unfold anthropicSseStartLive Visible.start
  cases req.think <;> exact ⟨rfl, rfl, rfl, rfl, rfl, rfl, [], rfl, Blocks.nil⟩

/-- The events of a finished message: blocks, then one `message_delta` and one
`message_stop`. -/
def WellFormed (events : List Event) : Prop :=
  ∃ closed blocks reason, Blocks closed blocks ∧
    events = blocks ++ [.messageDelta reason, .messageStop]

theorem thinkingPhase_final (window : Window) (emitPos : Nat) (checked : Bool) :
    (window.thinkingPhase true emitPos checked).outcome ≠ .waiting := by
  have known (start : Nat) : (window.thinkingFrom true start).outcome ≠ .waiting := by
    unfold Window.thinkingFrom
    split <;> simp
  unfold Window.thinkingPhase
  split
  · exact known emitPos
  rw [if_neg (by simp)]
  split
  · exact known thinkOpen.length
  · exact known emitPos

theorem textPhase_final (window : Window) (hasTools : Bool) (emitPos : Nat) :
    (window.textPhase true hasTools emitPos).outcome ≠ .waiting := by
  unfold Window.textPhase
  dsimp only
  split <;> simp

theorem mode_updateIn_final (visible : Visible) (hasTools : Bool) (window : Window) :
    (visible.updateIn hasTools window true).mode = .suppress := by
  have left : (visible.thinkIn window true).mode ≠ .thinking := by
    unfold Visible.thinkIn
    split
    next =>
      have ended := thinkingPhase_final window visible.emitPos visible.checkedThinkPrefix
      dsimp only [Visible.thought]
      cases outcome : (window.thinkingPhase true visible.emitPos
        visible.checkedThinkPrefix).outcome <;> simp_all [Visible.modeAfter]
    next other => exact other
  unfold Visible.updateIn Visible.talkIn
  split
  · dsimp only [Visible.talked]
    rw [if_neg (textPhase_final _ _ _)]
  next other =>
    cases mode : (visible.thinkIn window true).mode with
    | thinking => exact absurd mode left
    | text => exact absurd mode other
    | suppress => rfl

def Showing (live : Live) : Prop :=
  ∃ visible, Orderly visible ∧ (View.ofVisible visible).Of live

theorem showing_start (req : Request) : Showing (anthropicSseStartLive req) :=
  ⟨_, fun _ => rfl, ofVisible_start req⟩

theorem establishes_showing (req : Request) (raw : Bytes) (final : Bool) :
    Establishes Showing (anthropicSseStreamUpdate req raw final) Showing := by
  rintro live ⟨visible, orderly, ready⟩
  obtain ⟨v, live', ran, after⟩ := establishes_streamUpdate orderly req raw final live ready
  exact ⟨v, live', ran, _, orderly_updateIn orderly _ _ _, after⟩

def AllClosed (live : Live) : Prop :=
  ∃ view : View, view.current = none ∧ view.Of live

theorem establishes_allClosed (req : Request) (raw : Bytes) :
    Establishes Showing (anthropicSseStreamUpdate req raw true) AllClosed := by
  rintro live ⟨visible, orderly, ready⟩
  obtain ⟨v, live', ran, after⟩ := establishes_streamUpdate orderly req raw true live ready
  refine ⟨v, live', ran, _, ?_, after⟩
  simp [View.ofVisible, Visible.update, mode_updateIn_final]

theorem establishes_openText : Establishes AllClosed (anthropicSseOpenBlock .text)
      fun live => ∃ view : View, view.Of live := by
  rintro live ⟨view, idle, ready⟩
  obtain ⟨v, live', ran, after⟩ := establishes_openBlock_none .text idle live ready
  exact ⟨v, live', ran, _, after⟩

theorem establishes_close (id : Bytes) : Establishes (fun live => ∃ view : View, view.Of live)
      (anthropicSseCloseBlockLive id) AllClosed := by
  rintro live ⟨view, ready⟩
  obtain ⟨v, live', ran, after⟩ := establishes_closeBlock id live ready
  exact ⟨v, live', ran, _, rfl, after⟩

theorem establishes_toolBlock (req : Request) (number : Nat) (call : Call) :
    Establishes AllClosed (toolBlock req number call) AllClosed := by
  refine establishes_get_bind fun live ⟨view, idle, ready⟩ => ?_
  rintro _ rfl
  obtain ⟨events, eventsEq, written⟩ := ready.written
  rw [idle] at written
  let json := Json.appendJsonObjectOrEmpty call.arguments
  let block := Block.toolUse (callId req number call) call.name
  have filled : Filled view.closed.length block json [.contentBlockStart view.closed.length block,
        .contentBlockDelta view.closed.length (.inputJson json)] :=
    ⟨[.inputJson json], by simp [block, Block.Takes],
      by simp [Delta.contents], rfl⟩
  refine ⟨_, _, rfl, { view with closed := view.closed ++ [(block, json)] }, idle,
    ready.active, ready.mode, ready.emitPos, ready.checked, ready.openBlock, ?_,
    _, by simp only [eventsEq]; rfl, ?_⟩
  · simp [ready.nextIndex]
  · simpa [Written, idle, ready.nextIndex] using Blocks.snoc written filled

theorem establishes_toolBlocks (req : Request) (calls : List Call) :
    Establishes AllClosed (anthropicSseToolBlocksLive req calls) AllClosed :=
  establishes_forM fun (call, number) _ => establishes_toolBlock req number call

def Finished (live : Live) : Prop :=
  ∃ events, live.events = .messageStart :: events ∧ WellFormed events

theorem establishes_stop (finish : Bytes) :
    Establishes AllClosed (anthropicSseStopLive finish) Finished := by
  rintro live ⟨view, idle, ready⟩
  obtain ⟨events, eventsEq, written⟩ := ready.written
  rw [idle] at written
  refine ⟨_, _, rfl, _, by simp only [eventsEq]; rfl, view.closed, events,
    anthropicStopReason finish, written, ?_⟩
  simp

theorem establishes_finish (req : Request) (raw : Bytes) (calls : List Call) (finish : Bytes) :
    Establishes Showing (anthropicSseFinishLive req raw calls finish) Finished := by
  have ends : Establishes AllClosed (anthropicSseToolBlocksLive req calls >>= fun _ =>
        anthropicSseStopLive finish) Finished :=
    (establishes_toolBlocks req calls).bind fun _ => establishes_stop finish
  refine (establishes_allClosed req raw).bind fun _ => ?_
  refine establishes_get_bind fun live ready => ?_
  rintro _ rfl
  split
  · -- a response that only reasoned gets an empty text block
    exact establishes_openText.bind
      (fun _ => (establishes_close req.id).bind fun _ => ends) live ready
  · exact ends live ready

/-- Updates on what has been generated so far, and the finish. -/
def respond (request : Request) (updates : List (Bytes × Bool)) (raw : Bytes)
    (calls : List Call) (finish : Bytes) : Step PUnit := do
  forM updates fun (text, final) => anthropicSseStreamUpdate request text final
  anthropicSseFinishLive request raw calls finish

/-- However the text is delivered, the response succeeds; after the start it
consists of blocks one after another and the end of the message. -/
theorem respond_wellFormed (request : Request) (updates : List (Bytes × Bool))
    (raw : Bytes) (calls : List Call) (finish : Bytes) :
    ∃ live events, respond request updates raw calls finish (anthropicSseStartLive request) =
        .ok ⟨⟩ live ∧
      live.events = .messageStart :: events ∧ WellFormed events := by
  have updated : Establishes Showing (forM updates fun (text, final) =>
        anthropicSseStreamUpdate request text final) Showing :=
    establishes_forM fun (text, final) _ => establishes_showing request text final
  obtain ⟨_, live, ran, events, eventsEq, wellFormed⟩ :=
    updated.bind (fun _ => establishes_finish request raw calls finish) _ (showing_start request)
  exact ⟨live, events, ran, eventsEq, wellFormed⟩

/-- Updates on growing prefixes, and the final one. -/
def streamText (request : Request) (updates : List Bytes) (text : Bytes) :
    Step PUnit := do
  forM updates fun raw => anthropicSseStreamUpdate request raw false
  anthropicSseStreamUpdate request text true

theorem establishes_follow (req : Request) (updates : List Bytes)
    {visible : Visible} (orderly : Orderly visible) :
    Establishes (View.ofVisible visible).Of
      (forM updates fun raw => anthropicSseStreamUpdate req raw false)
      fun live => Orderly (visible.follow req.hasTools updates) ∧
        (View.ofVisible (visible.follow req.hasTools updates)).Of live := by
  induction updates generalizing visible with
  | nil => exact establishes_pure fun _ ready => ⟨orderly, ready⟩
  | cons raw updates ih =>
    rw [List.forM_cons]
    refine (establishes_streamUpdate orderly req raw false).bind fun _ => ?_
    exact ih (orderly_updateIn orderly _ _ _)

theorem streamText_view (req : Request) (updates : List Bytes) (text : Bytes) :
    ∃ live, streamText req updates text (anthropicSseStartLive req) = .ok ⟨⟩ live ∧
      (View.ofVisible (Visible.run req.think req.hasTools updates text)).Of live := by
  have orderly : Orderly (Visible.start req.think) := fun _ => rfl
  obtain ⟨_, followed, ran, stillOrderly, ready⟩ :=
    establishes_follow req updates orderly _ (ofVisible_start req)
  obtain ⟨_, live, ranLast, shows⟩ :=
    establishes_streamUpdate stillOrderly req text true followed ready
  refine ⟨live, ?_, shows⟩
  change EStateM.bind _ _ _ = _
  rw [EStateM.bind, ran]
  exact ranLast

def Event.adds (kind : LiveBlock) : Event → Bytes
  | .contentBlockDelta _ (.thinking piece) =>
    if kind = .thinking then piece else []
  | .contentBlockDelta _ (.text piece) => if kind = .text then piece else []
  | _ => []

def blockText (kind : LiveBlock) (events : List Event) : Bytes :=
  events.flatMap (Event.adds kind)

theorem blockText_append (kind : LiveBlock) (first second : List Event) :
    blockText kind (first ++ second) = blockText kind first ++ blockText kind second :=
  List.flatMap_append

theorem adds_of_takes {kind : LiveBlock} {i : Nat} {block : Block}
    {delta : Delta} (takes : block.Takes delta) :
    (Event.contentBlockDelta i delta).adds kind =
      if block = .live kind then delta.contents else [] := by
  cases kind <;> match block, delta, takes with
    | .live .thinking, .thinking _, _ => rfl
    | .live .thinking, .signature _, _ => rfl
    | .live .text, .text _, _ => rfl
    | .toolUse _ _, .inputJson _, _ => rfl

theorem blockText_filled {kind : LiveBlock} {i : Nat} {block : Block} {contents : Bytes}
    {events : List Event} (filled : Filled i block contents events) :
    blockText kind events = if block = .live kind then contents else [] := by
  obtain ⟨deltas, allTaken, rfl, rfl⟩ := filled
  have start : (Event.contentBlockStart i block).adds kind = [] := rfl
  rw [blockText, List.flatMap_cons, start, List.nil_append, List.flatMap_map,
    List.flatMap_congr fun delta mem => adds_of_takes (allTaken delta mem)]
  split
  · rfl
  · simp

theorem blockText_blocks {kind : LiveBlock} {closed : List (Block × Bytes)}
    {events : List Event} (blocks : Blocks closed events) :
    blockText kind events = closed.flatMap fun (block, contents) =>
      if block = .live kind then contents else [] := by
  induction blocks with
  | nil => rfl
  | snoc _ filled ih =>
    rw [blockText_append, blockText_append, ih, blockText_filled filled, List.flatMap_append]
    simp [blockText, Event.adds]

def textBlocks (reasoning content : Bytes) : List (Block × Bytes) :=
  (shown reasoning).toList.map (.live .thinking, ·) ++ (shown content).toList.map (.live .text, ·)

theorem streamText_blocks (req : Request) {updates : List Bytes} {text : Bytes}
    (nulFree : NulFree text) (prefixes : ∀ raw ∈ updates, raw <+: text) :
    ∃ live events, streamText req updates text (anthropicSseStartLive req) = .ok ⟨⟩ live ∧
      live.events = .messageStart :: events ∧
      Blocks (textBlocks (shownReasoning req.think text)
        (shownContent req.think req.hasTools text)) events := by
  obtain ⟨live, ran, shows⟩ := streamText_view req updates text
  obtain ⟨emitPos, checked, visible⟩ := Visible.run_shown req.think req.hasTools nulFree prefixes
  rw [visible] at shows
  obtain ⟨events, eventsEq, written⟩ := shows.written
  exact ⟨live, events, ran, eventsEq, written⟩

theorem blockText_textBlocks {reasoning content : Bytes} {events : List Event}
    (blocks : Blocks (textBlocks reasoning content) events) :
    blockText .thinking events = reasoning ∧ blockText .text events = content := by
  rw [blockText_blocks blocks, blockText_blocks blocks]
  cases reasoning <;> cases content <;> simp [textBlocks, shown]

end LnaLang.Anthropic
