import LnaLang.AnthropicBlocks
import LnaLang.OpenaiVisible

/-!
# The visible text in front of a cut

The event streams may send the text up to a length, but look for `</think>` and for the
tool-call markers in all of it, and send what stands in front of a tag that they find.
When the text is cut later, what they have shown is a part of what is kept as long as the
tags that they see are in front of the cut.
-/

namespace LnaLang

open List

open Dsml StreamText

namespace Openai

section Tools

def toolDeltas (events : List Event) : List CallDelta :=
  events.flatMap fun
    | .toolCalls deltas => deltas
    | _ => []

/-- A tool stream that has been given prefixes of a text only, with the deltas that it
has written. -/
inductive ToolsRead (toolIds : Nat → Bytes) (text : Bytes) :
    ToolStream → List CallDelta → Prop
  | idle : ToolsRead toolIds text .idle []
  | init {tool : ToolStream} {deltas : List CallDelta} {raw : Bytes}
      (before : ToolsRead toolIds text tool deltas) (isPrefix : raw <+: text)
      (position : Nat) :
      ToolsRead toolIds text (openaiToolStreamInit raw position) deltas
  | update {tool : ToolStream} {deltas : List CallDelta} {raw : Bytes}
      (before : ToolsRead toolIds text tool deltas) (isPrefix : raw <+: text) :
      ToolsRead toolIds text (openaiToolStreamUpdate toolIds raw tool).1
        (deltas ++ (openaiToolStreamUpdate toolIds raw tool).2)

variable {toolIds : Nat → Bytes} {text : Bytes} {live : Live} {window : Window}

/-- The tool calls that the stream has sent come from prefixes of a text. -/
def Live.ToolsFrom (toolIds : Nat → Bytes) (text : Bytes) (live : Live) : Prop :=
  live.active = true ∧ ToolsRead toolIds text live.tool (toolDeltas live.events)

theorem Live.ToolsFrom.start (toolIds : Nat → Bytes) (text : Bytes) (req : Request) :
    (openaiStreamStart req).ToolsFrom toolIds text :=
  ⟨rfl, .idle⟩

variable (tools : live.ToolsFrom toolIds text)

include tools

theorem Live.ToolsFrom.sendReasoning
    (piece : Bytes) : (sendReasoning piece live).ToolsFrom toolIds text := by
  unfold Openai.sendReasoning
  split
  · exact tools
  · refine ⟨tools.1, ?_⟩
    simpa [toolDeltas, Live.send] using tools.2

theorem Live.ToolsFrom.sendContent
    (piece : Bytes) : (sendContent piece live).ToolsFrom toolIds text := by
  unfold Openai.sendContent
  split
  · exact tools
  · refine ⟨tools.1, ?_⟩
    simpa [toolDeltas, Live.send] using tools.2

theorem Live.ToolsFrom.updateThinking (window : Window)
    (final : Bool) : (updateThinkingIn window final live).ToolsFrom toolIds text := by
  unfold updateThinkingIn
  split
  · exact tools.sendReasoning _
  · exact tools

theorem Live.ToolsFrom.updateText (pre : window.raw <+: text) (req : Request) (final : Bool) :
    (updateTextIn req window final live).ToolsFrom toolIds text := by
  unfold updateTextIn
  split
  · have sent := tools.sendContent (window.textPhase final req.hasTools live.emitPos).piece
    dsimp only
    split
    · exact sent
    · exact ⟨sent.1, sent.2.init pre _⟩
    · exact sent
  · exact tools

theorem Live.ToolsFrom.updateTool (pre : window.raw <+: text) :
    (updateTool toolIds window.raw live).ToolsFrom toolIds text := by
  unfold Openai.updateTool
  split
  · refine ⟨tools.1, ?_⟩
    have read := tools.2.update pre
    have appended (deltas : List CallDelta) :
        toolDeltas (live.events ++ deltas.map fun delta => .toolCalls [delta]) =
          toolDeltas live.events ++ deltas := by
      simp [toolDeltas, flatMap_map]
    dsimp only
    rw [appended]
    exact read
  · exact tools

theorem Live.ToolsFrom.update (pre : window.raw <+: text) (req : Request) (final : Bool) :
    (openaiSseStreamUpdateIn toolIds req window final live).ToolsFrom toolIds text := by
  rw [openaiSseStreamUpdateIn, if_pos tools.1]
  exact ((tools.updateThinking window final).updateText pre req final).updateTool pre

end Tools

end Openai

namespace Anthropic

section Texts

def Delta.piece (kind : LiveBlock) : Delta → Bytes
  | .thinking piece => if kind = .thinking then piece else []
  | .text piece => if kind = .text then piece else []
  | _ => []

def Event.piece (kind : LiveBlock) : Event → Bytes
  | .contentBlockDelta _ delta => delta.piece kind
  | _ => []

def kindText (kind : LiveBlock) (events : List Event) : Bytes :=
  events.flatMap (Event.piece kind)

def kindContents (kind : LiveBlock) (blocks : List (Block × Bytes)) : Bytes :=
  blocks.flatMap fun (block, contents) => if block = .live kind then contents else []

variable {kind : LiveBlock}

theorem piece_of_takes {block : Block} {delta : Delta} (takes : block.Takes delta) :
    delta.piece kind = if block = .live kind then delta.contents else [] := by
  cases block with
  | live opened =>
    cases opened <;> cases delta <;> first
      | exact takes.elim
      | cases kind <;> rfl
  | toolUse =>
    cases delta <;> first
      | exact takes.elim
      | rfl

theorem kindText_filled {i : Nat} {block : Block} {contents : Bytes}
    {events : List Event} (filled : Filled i block contents events) :
    kindText kind events = kindContents kind [(block, contents)] := by
  obtain ⟨deltas, takes, rfl, rfl⟩ := filled
  have pieces : deltas.map (Delta.piece kind) =
      deltas.map fun delta => if block = .live kind then delta.contents else [] :=
    map_congr_left fun delta mem => piece_of_takes (takes delta mem)
  have written : kindText kind (.contentBlockStart i block ::
      deltas.map (.contentBlockDelta i)) = (deltas.map (Delta.piece kind)).flatten := by
    rw [kindText, flatMap_cons, flatMap_map]
    rfl
  rw [written, pieces]
  unfold kindContents
  by_cases same : block = .live kind
  · simp [same, flatMap_def]
  · simp [same]

theorem kindText_blocks {closed : List (Block × Bytes)} {events : List Event}
    (blocks : Blocks closed events) : kindText kind events = kindContents kind closed := by
  induction blocks with
  | nil => rfl
  | snoc _ filled ih =>
    have last : kindContents kind _ = _ := (kindText_filled filled).symm
    unfold kindText kindContents at *
    rw [flatMap_append, flatMap_append, flatMap_append, ih, last]
    exact append_nil _

theorem kindText_written {closed : List (Block × Bytes)} {events : List Event}
    {current : Option (LiveBlock × Bytes)} (written : Written closed events current) :
    kindText kind events = kindContents kind
      (closed ++ current.toList.map fun (block, contents) => (.live block, contents)) := by
  cases current with
  | none =>
    rw [Option.toList_none, map_nil, append_nil]
    exact kindText_blocks written
  | some current =>
    obtain ⟨before, filled, blocks, isFilled, rfl⟩ := written
    have front : kindText kind before = _ := kindText_blocks blocks
    have last : kindText kind filled = _ := kindText_filled isFilled
    unfold kindText kindContents at *
    rw [flatMap_append, flatMap_append, front, last]
    rfl

theorem kindText_of_visible {visible : Visible} (orderly : Orderly visible) {live : Live}
    (view : (View.ofVisible visible).Of live) :
    kindText .thinking live.events = visible.reasoning.getD [] ∧
      kindText .text live.events = visible.content.getD [] := by
  obtain ⟨events, same, written⟩ := view.written
  have started (kind : LiveBlock) : kindText kind live.events = kindText kind events := by
    rw [same]
    rfl
  rw [started, started, kindText_written written, kindText_written written]
  obtain ⟨mode, emitPos, checked, reasoning, content⟩ := visible
  cases mode with
  | thinking =>
    have silent : content = none := orderly rfl
    subst silent
    cases reasoning <;> simp [View.ofVisible, kindContents]
  | text => cases reasoning <;> cases content <;> simp [View.ofVisible, kindContents]
  | suppress => cases reasoning <;> cases content <;> simp [View.ofVisible, kindContents]

end Texts

end Anthropic

open Option TagSearch

namespace StreamText

/-- The stream sees nothing but a part of `<think>`, and waits. -/
def Awaits (text : Bytes) (cut : Nat) : Prop :=
  cut < thinkOpen.length ∧ text.take cut <+: thinkOpen

/-- The first `</think>` starts in front of the cut, and the content in front of the
first marker ends there, when some of it stands in front of the cut. -/
def TagsInFront (think hasTools : Bool) (text : Bytes) (cut : Nat) : Prop :=
  (think = true → ∀ close ∈ closing.findFrom text (bodyStart text), close ≤ cut) ∧
    (hasTools = true → ∀ start ∈ contentStart think text, start < cut →
      ∀ marker ∈ markers.findFrom text start, trimToolSeparatorWs text start marker ≤ cut)

/-- The reasoning and the content of a text that is cut are parts of what is kept,
each from its own start. -/
def Kept (think : Bool) (text : Bytes) (cut : Nat) (reasoning content : Bytes) : Prop :=
  reasoning <+: (text.take cut).drop (bodyStart (text.take cut)) ∧
    content <+: (text.take cut).drop ((contentStart think text).getD cut)

instance (text : Bytes) (cut : Nat) : Decidable (Awaits text cut) :=
  inferInstanceAs (Decidable (_ ∧ _))

instance (think hasTools : Bool) (text : Bytes) (cut : Nat) :
    Decidable (TagsInFront think hasTools text cut) :=
  inferInstanceAs (Decidable (_ ∧ _))

instance (think : Bool) (text : Bytes) (cut : Nat) (reasoning content : Bytes) :
    Decidable (Kept think text cut reasoning content) :=
  inferInstanceAs (Decidable (_ ∧ _))

section Bodies

variable {text : Bytes} {cut start : Nat}

theorem closing_bodyStart (text : Bytes) :
    closing.findFrom text (bodyStart text) = closing.findFrom text 0 := by
  unfold bodyStart
  split
  next opens =>
    obtain ⟨rest, rfl⟩ := startsWith_iff.mp opens
    refine closing.findFrom_of_free (Nat.zero_le _) fun i _ lt occurs => ?_
    obtain ⟨pat, mem, rest', same⟩ := occurs
    obtain rfl : pat = thinkClose := mem_singleton.mp mem
    have first : (thinkOpen ++ rest)[i]? = some 60 := by
      rw [← Nat.add_zero i, ← getElem?_drop, ← same]
      rfl
    have second : (thinkOpen ++ rest)[i + 1]? = some 47 := by
      rw [← getElem?_drop, ← same]
      rfl
    rw [getElem?_append_left lt] at first
    have only : ∀ i < thinkOpen.length, thinkOpen[i]? = some 60 → i = 0 := by decide
    obtain rfl := only i lt first
    rw [getElem?_append_left (by decide)] at second
    exact absurd second (by decide)
  · rfl

theorem closing_body (text : Bytes) (cut : Nat) :
    closing.findFrom text (bodyStart (text.take cut)) = closing.findFrom text (bodyStart text) := by
  by_cases same : bodyStart (text.take cut) = bodyStart text
  · rw [same]
  · have starts : bodyStart (text.take cut) = 0 := by
      unfold bodyStart at same ⊢
      split
      next opens =>
        have whole : startsWith text thinkOpen = true :=
          startsWith_iff.mpr ((startsWith_iff.mp opens).trans (List.take_prefix _ _))
        rw [if_pos opens, if_pos whole] at same
        exact absurd rfl same
      · rfl
    rw [starts, closing_bodyStart]

theorem slice_isPrefix {stop : Nat} (le : stop ≤ max start cut) :
    slice text start stop <+: (text.take cut).drop start := by
  rw [slice, drop_take]
  exact take_prefix_take_left (by omega)

theorem bodyStart_take_le : bodyStart (text.take cut) ≤ cut :=
  bodyStart_le_length.trans (length_take_le _ _)

end Bodies

section Progress

variable (think hasTools : Bool) (text : Bytes) (cut : Nat)

/-- The states in which nothing behind the cut has been shown. -/
inductive InFront : Visible → Prop
  | unchecked (thinks : think = true) : InFront ⟨.thinking, 0, false, none, none⟩
  | thinking {emitPos : Nat} (thinks : think = true)
      (startLe : bodyStart (text.take cut) ≤ emitPos) (le : emitPos ≤ cut)
      (before : ∀ close, closing.findFrom text (bodyStart text) = some close →
        emitPos ≤ close) :
      InFront ⟨.thinking, emitPos, true,
        shown (slice text (bodyStart (text.take cut)) emitPos), none⟩
  | talking {start emitPos : Nat} {checked : Bool} {reasoning : Bytes}
      (starts : contentStart think text = some start) (startLe : start ≤ emitPos)
      (le : emitPos ≤ contentEnd hasTools text start) (leCut : emitPos ≤ max start cut)
      (isPrefix : reasoning <+: (text.take cut).drop (bodyStart (text.take cut))) :
      InFront ⟨.text, emitPos, checked, shown reasoning,
        shown (slice text start emitPos)⟩
  | done {emitPos : Nat} {checked : Bool} {reasoning content : Bytes}
      (kept : Kept think text cut reasoning content) :
      InFront ⟨.suppress, emitPos, checked, shown reasoning, shown content⟩

structure SeenInFront (buffer : Bytes) : Prop where
  close : think = true → ∀ close, closing.At buffer close →
    closing.findFrom text (bodyStart text) = some close → close ≤ cut
  marker : hasTools = true → ∀ start marker, contentStart think text = some start →
    start < cut → markers.At buffer marker → markers.findFrom text start = some marker →
      trimToolSeparatorWs text start marker ≤ cut

variable {think hasTools text cut} {window : Window} {start : Nat} {final : Bool}

theorem TagsInFront.seen (inFront : TagsInFront think hasTools text cut)
    (buf : Bytes) : SeenInFront think hasTools text cut buf where
  close := fun thinks close _ found => inFront.1 thinks close found
  marker := fun tools start marker starts lt _ found => inFront.2 tools start starts lt marker found

theorem seenInFront_take : SeenInFront think hasTools text cut (text.take cut) where
  close := by
    rintro - close ⟨pat, mem, occurs⟩ -
    have bound := occurs.end_le (closing.isTag pat mem).ne_nil
    rw [length_take] at bound
    omega
  marker := by
    rintro - start marker - - ⟨pat, mem, occurs⟩ -
    have bound := occurs.end_le (markers.isTag pat mem).ne_nil
    rw [length_take] at bound
    exact trimToolSeparatorWs_le.trans (by omega)

theorem inFront_start : InFront think hasTools text cut (Visible.start think) := by
  cases think with
  | true => exact .unchecked rfl
  | false =>
    rw [show Visible.start false = ⟨.text, 0, false, shown [], shown (slice text 0 0)⟩
      from by rw [shown_slice_self]; rfl]
    exact .talking rfl (Nat.le_refl 0) (Nat.zero_le _) (Nat.zero_le _) nil_prefix

variable {visible : Visible}

theorem InFront.kept (inFront : InFront think hasTools text cut visible) :
    Kept think text cut (visible.reasoning.getD []) (visible.content.getD []) := by
  cases inFront with
  | unchecked => exact ⟨List.nil_prefix, nil_prefix⟩
  | thinking _ startLe le =>
    refine ⟨?_, nil_prefix⟩
    rw [getD_shown]
    exact slice_isPrefix (le.trans (Nat.le_max_right _ _))
  | talking starts _ _ leCut pre =>
    rw [getD_shown, getD_shown]
    refine ⟨pre, ?_⟩
    rw [starts]
    exact slice_isPrefix leCut
  | done kept =>
    rw [getD_shown, getD_shown]
    exact kept

theorem inFront_thought {phase : Phase} {emitPos : Nat} (nulFree : NulFree text)
    (thinks : think = true) (below : window.Below text cut)
    (seen : SeenInFront think hasTools text cut window.buffer)
    (startLe : bodyStart (text.take cut) ≤ emitPos) (le : emitPos ≤ cut)
    (before : ∀ close, closing.findFrom text (bodyStart text) = some close → emitPos ≤ close)
    (result : ThinksIn text window emitPos final phase) :
    InFront think hasTools text cut
      ⟨Visible.modeAfter phase.outcome, phase.emitPos, phase.checkedThinkPrefix,
        addPiece (shown (slice text (bodyStart (text.take cut)) emitPos)) phase.piece,
        none⟩ := by
  have lengthLe := below.leCut
  have same : closing.findFrom text emitPos = closing.findFrom text (bodyStart text) := by
    rw [← closing_body text cut] at before ⊢
    refine closing.findFrom_of_free startLe fun i indexLe lt occurs => ?_
    cases found : closing.findFrom text (bodyStart (text.take cut)) with
    | none => exact closing.findFrom_eq_none_iff.mp found i indexLe occurs
    | some close =>
      have later := before close found
      exact (closing.findFrom_eq_some_iff.mp found).2.2 i indexLe (by omega) occurs
  cases result with
  | @closed close seenClose found =>
    have emitPosLe := (closing.findFrom_eq_some_iff.mp found).1
    rw [same] at found
    have closeLe := seen.close thinks close seenClose found
    rw [addPiece_shown (nulFree_slice nulFree _ _), slice_append startLe emitPosLe]
    have starts : contentStart think text = some (close + thinkClose.length) := by
      simp [contentStart, thinks, found]
    rw [← shown_slice_self text (close + thinkClose.length)]
    exact .talking starts (Nat.le_refl _) (le_contentEnd (close_end_le found))
      (Nat.le_max_left _ _) (slice_isPrefix (closeLe.trans (Nat.le_max_right _ _)))
  | @waiting next _ emitPosLe nextLe nextBefore =>
    have nextCut : next ≤ cut := by omega
    rw [addPiece_shown (nulFree_slice nulFree _ _), slice_append startLe emitPosLe]
    exact .thinking thinks (startLe.trans emitPosLe) nextCut
      fun close found => nextBefore close (same.trans found)
  | ended =>
    rw [addPiece_shown (nulFree_slice nulFree _ _), slice_append startLe (Nat.le_max_left _ _)]
    have silent : none = shown [] := rfl
    rw [silent]
    exact .done ⟨slice_isPrefix (by omega), nil_prefix⟩

theorem InFront.thinkIn (nulFree : NulFree text) (below : window.Below text cut)
    (seen : SeenInFront think hasTools text cut window.buffer)
    (whole : final = true → window.raw = text.take cut)
    (inFront : InFront think hasTools text cut visible) :
    InFront think hasTools text cut (visible.thinkIn window final) := by
  cases inFront with
  | unchecked thinks =>
    unfold Visible.thinkIn
    rw [if_pos rfl]
    rcases thinkingPhase_cases below whole with ⟨_, waits⟩ | goesOn
    · dsimp only
      rw [waits]
      exact .unchecked thinks
    · dsimp only
      rw [goesOn]
      have after := inFront_thought nulFree thinks below seen (Nat.le_refl _) bodyStart_take_le
        (fun close found => by
          rw [← closing_body text cut] at found
          exact (closing.findFrom_eq_some_iff.mp found).1)
        (thinksIn_thinkingFrom nulFree below : ThinksIn _ _ _ final _)
      rw [shown_slice_self] at after
      exact after
  | thinking thinks startLe le before =>
    unfold Visible.thinkIn
    rw [if_pos rfl]
    exact inFront_thought nulFree thinks below seen startLe le before
      (thinksIn_thinkingFrom nulFree below)
  | talking starts startLe le leCut pre => exact .talking starts startLe le leCut pre
  | done kept => exact .done kept

theorem InFront.talkIn (nulFree : NulFree text) (below : window.Below text cut)
    (seen : SeenInFront think hasTools text cut window.buffer)
    (inFront : InFront think hasTools text cut visible) :
    InFront think hasTools text cut (visible.talkIn hasTools window final) := by
  have lengthLe := below.leCut
  cases inFront with
  | unchecked thinks => exact .unchecked thinks
  | thinking thinks startLe le before => exact .thinking thinks startLe le before
  | @talking start emitPos checked reasoning starts startLe le leCut pre =>
    have ends := contentEnd_of_le startLe le
    have result : TalksIn hasTools text window emitPos final _ := talksIn_textPhase nulFree below
    unfold Visible.talkIn
    rw [if_pos rfl]
    dsimp only [Visible.talked]
    generalize window.textPhase final hasTools emitPos = phase at result ⊢
    -- The content that has been shown when the phase ends at a place.
    have shows {stop : Nat} (stopLe : stop ≤ max start cut) :
        Kept think text cut reasoning (slice text start stop) := by
      refine ⟨pre, ?_⟩
      rw [starts]
      exact slice_isPrefix stopLe
    cases result with
    | @marker marker limit tools seenMarker found limitLe limitEq =>
      rw [addPiece_shown (nulFree_slice nulFree _ _), slice_append startLe limitLe]
      refine .done (shows ?_)
      rcases limitEq with ⟨-, rfl⟩ | ⟨lt, rfl⟩
      · exact leCut
      · subst tools
        have same : markers.findFrom text start = some marker := by
          rw [← found]
          refine (markers.findFrom_of_free startLe fun i indexLe before => ?_).symm
          cases first : markers.findFrom text start with
          | none => exact markers.findFrom_eq_none_iff.mp first i indexLe
          | some other =>
            rw [contentEnd_of_marker first] at le
            have otherLe := le.trans trimToolSeparatorWs_le
            exact (markers.findFrom_eq_some_iff.mp first).2.2 i indexLe (by omega)
        have bound := seen.marker rfl start marker starts (by omega) seenMarker same
        rw [contentEnd_of_marker found, contentEnd_of_marker same] at ends
        omega
    | @waiting next _ emitPosLe nextLe nextBefore =>
      have nextEnd : next ≤ contentEnd hasTools text start := by omega
      have nextCut : next ≤ max start cut := by omega
      rw [addPiece_shown (nulFree_slice nulFree _ _), slice_append startLe emitPosLe]
      exact .talking starts (startLe.trans emitPosLe) nextEnd nextCut pre
    | ended =>
      rw [addPiece_shown (nulFree_slice nulFree _ _), slice_append startLe (Nat.le_max_left _ _)]
      exact .done (shows (by omega))
  | done kept => exact .done kept

theorem InFront.updateIn (nulFree : NulFree text) (below : window.Below text cut)
    (seen : SeenInFront think hasTools text cut window.buffer)
    (whole : final = true → window.raw = text.take cut)
    (inFront : InFront think hasTools text cut visible) :
    InFront think hasTools text cut (visible.updateIn hasTools window final) :=
  (inFront.thinkIn nulFree below seen whole).talkIn nulFree below seen

theorem updateIn_awaits (awaits : Awaits text cut) (below : window.Below text cut) :
    (Visible.start true).updateIn hasTools window false = Visible.start true := by
  have raw : window.raw <+: thinkOpen := below.raw_isPrefix.trans awaits.2
  have waits : window.thinkingPhase false 0 false = ⟨0, false, [], .waiting⟩ := by
    rw [Window.thinkingPhase, if_neg Bool.false_ne_true,
      if_pos ⟨Nat.lt_of_le_of_lt below.leCut awaits.1, startsWith_iff.mpr raw, rfl⟩]
  have thought : (Visible.start true).thinkIn window false = Visible.start true := by
    change Visible.thought (window.thinkingPhase false 0 false) _ = _
    rw [waits]
    rfl
  rw [Visible.updateIn, thought]
  rfl

theorem tagsInFront_of_length_le (le : text.length ≤ cut) :
    TagsInFront think hasTools text cut := by
  constructor
  · intro _ close found
    have inside := close_end_le found
    omega
  · intro _ start _ _ marker found
    obtain ⟨_, ⟨pat, mem, occurs⟩, _⟩ := markers.findFrom_eq_some_iff.mp found
    have inside := occurs.end_le (markers.isTag pat mem).ne_nil
    exact trimToolSeparatorWs_le.trans (by omega)

theorem isPrefix_addPiece (before : Option Bytes) (piece : Bytes) :
    before.getD [] <+: (addPiece before piece).getD [] := by
  unfold addPiece
  split
  · exact prefix_rfl
  · exact prefix_append _ _

theorem isPrefix_updateIn (visible : Visible) (hasTools : Bool) (window : Window) (final : Bool) :
    visible.reasoning.getD [] <+: (visible.updateIn hasTools window final).reasoning.getD [] ∧
      visible.content.getD [] <+: (visible.updateIn hasTools window final).content.getD [] := by
  have think : visible.reasoning.getD [] <+: (visible.thinkIn window final).reasoning.getD [] ∧
      visible.content = (visible.thinkIn window final).content := by
    unfold Visible.thinkIn
    split
    · exact ⟨isPrefix_addPiece _ _, rfl⟩
    · exact ⟨prefix_rfl, rfl⟩
  rw [think.2]
  unfold Visible.updateIn Visible.talkIn
  split
  · exact ⟨think.1, isPrefix_addPiece _ _⟩
  · exact ⟨think.1, prefix_rfl⟩

theorem not_isPrefix_of_length {shownText : Bytes} {stop : Nat} (lt : cut < stop)
    (le : stop ≤ text.length) (startLe : start ≤ cut)
    (shows : slice text start stop <+: shownText) :
    ¬ shownText <+: (text.take cut).drop start := by
  intro kept
  have longer := (shows.trans kept).length_le
  rw [length_slice le, length_drop, length_take] at longer
  omega

theorem thinkIn_contentStart (nulFree : NulFree text) (cutLe : cut ≤ text.length)
    (notAwaiting : ¬ (think = true ∧ Awaits text cut))
    (starts : contentStart think text = some start) :
    ∃ checked reasoning, (Visible.start think).thinkIn ⟨text, cut⟩ false =
          ⟨.text, start, checked, reasoning, none⟩ ∧
        (think = true → ∃ close, closing.findFrom text (bodyStart text) = some close ∧
          reasoning = addPiece none (slice text (bodyStart (text.take cut)) close)) := by
  cases think with
  | false =>
    have same : 0 = start := Option.some.inj starts
    subst same
    exact ⟨false, none, rfl, fun impossible => absurd impossible Bool.false_ne_true⟩
  | true =>
    obtain ⟨close, found, rfl⟩ := map_eq_some_iff.mp
      (show (closing.findFrom text (bodyStart text)).map (· + thinkClose.length) =
        some start from starts)
    have below : Window.Below text cut ⟨text, cut⟩ := ⟨prefix_rfl, cutLe, Nat.le_refl _⟩
    refine ⟨true, addPiece none (slice text (bodyStart (text.take cut)) close), ?_,
      fun _ => ⟨close, found, rfl⟩⟩
    rw [← closing_body text cut] at found
    rcases @thinkingPhase_cases _ false _ _ below (absurd · Bool.false_ne_true) with
      ⟨⟨_, waits⟩, _⟩ | goesOn
    · exact absurd ⟨rfl, waits⟩ notAwaiting
    · change Visible.thought (Window.thinkingPhase ⟨text, cut⟩ false 0 false) _ = _
      rw [goesOn, @thinkingFrom_of_close _ false ⟨text, cut⟩ nulFree _ found]
      rfl

theorem not_kept_of_tags (nulFree : NulFree text) (cutLe : cut ≤ text.length)
    (notAwaiting : ¬ (think = true ∧ Awaits text cut))
    (behind : ¬ TagsInFront think hasTools text cut)
    (shows : visible = ((Visible.start think).updateIn hasTools ⟨text, cut⟩ false).updateIn
      hasTools (.whole (text.take cut)) true) :
    ¬ Kept think text cut (visible.reasoning.getD []) (visible.content.getD []) := by
  subst shows
  obtain ⟨reasoningStays, contentStays⟩ := isPrefix_updateIn
    ((Visible.start think).updateIn hasTools ⟨text, cut⟩ false) hasTools
    (.whole (text.take cut)) true
  rintro ⟨reasoningKept, contentKept⟩
  refine behind ⟨?_, ?_⟩
  · intro thinks close found
    by_contra closeGt
    have starts : contentStart think text = some (close + thinkClose.length) := by
      rw [contentStart, if_pos thinks, mem_def.mp found]
      rfl
    obtain ⟨checked, _, thought, reasoningEq⟩ :=
      thinkIn_contentStart nulFree cutLe notAwaiting starts
    obtain ⟨_, foundAgain, rfl⟩ := reasoningEq thinks
    obtain rfl := Option.some.inj ((mem_def.mp found).symm.trans foundAgain)
    have inside := close_end_le found
    refine not_isPrefix_of_length (Nat.lt_of_not_le closeGt) (by omega) bodyStart_take_le
      ?_ reasoningKept
    refine List.IsPrefix.trans ?_ reasoningStays
    have talked := (isPrefix_updateIn ⟨.text, close + thinkClose.length, checked, addPiece none
        (slice text (bodyStart (text.take cut)) close), none⟩ hasTools ⟨text, cut⟩ false).1
    rw [Visible.updateIn, thought]
    have piece : (addPiece none (slice text (bodyStart (text.take cut)) close)).getD [] =
        slice text (bodyStart (text.take cut)) close := by
      rw [show (none : Option Bytes) = shown [] from rfl,
        addPiece_shown (nulFree_slice nulFree _ _), getD_shown, nil_append]
    rw [piece] at talked
    exact talked
  · intro tools start starts startLt marker found
    by_contra trimGt
    subst tools
    obtain ⟨checked, reasoning, thought, _⟩ := thinkIn_contentStart nulFree cutLe notAwaiting starts
    obtain ⟨_, ⟨pat, mem, occurs⟩, _⟩ := markers.findFrom_eq_some_iff.mp found
    have inside := occurs.end_le (markers.isTag pat mem).ne_nil
    have trimLe : trimToolSeparatorWs text start marker ≤ marker := trimToolSeparatorWs_le
    rw [mem_def.mp starts] at contentKept
    refine not_isPrefix_of_length (Nat.lt_of_not_le trimGt) (by omega) startLt.le
      ?_ contentKept
    refine List.IsPrefix.trans ?_ contentStays
    have phase := @textPhase_of_marker start false ⟨text, cut⟩ nulFree marker found
    rw [if_neg (Nat.not_le_of_lt startLt)] at phase
    rw [Visible.updateIn, thought, Visible.talkIn, if_pos rfl]
    dsimp only [Visible.talked]
    rw [phase, show (none : Option Bytes) = shown [] from rfl,
      addPiece_shown (nulFree_slice nulFree _ _), getD_shown, nil_append]

end Progress

end StreamText

end LnaLang
