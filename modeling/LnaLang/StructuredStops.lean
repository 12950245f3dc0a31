import LnaLang.StopStrings
import LnaLang.VisibleCut

/-!
# Stop strings and the event streams

A tag behind a stop string takes the stop string along: reasoning and content stay in
front of the place where the text is cut, for every way in which the text arrives,
exactly when the tags do.
-/

namespace LnaLang

open Option

open Dsml TagSearch

namespace GenerateJob

open StreamText

section Streams

variable {job : Job} {text : Bytes} {state : State} {window : Window} {final : Bool}

/-- The streams show what a condition says, and the tool calls come from a text. -/
structure Shows (job : Job) (text : Bytes) (shows : Visible → Prop) (state : State) :
    Prop where
  present : state.openaiLive.isSome ∨ state.anthropicLive.isSome
  openai : ∀ live ∈ state.openaiLive,
    live.ToolsFrom job.toolIds text ∧ shows live.visible
  anthropic : ∀ live ∈ state.anthropicLive, ∃ visible,
    Anthropic.Orderly visible ∧ (Anthropic.View.ofVisible visible).Of live ∧ shows visible

theorem shows_start (structured : job.usesStructuredStream = true) (text : Bytes) :
    Shows job text (· = Visible.start job.think) (start job) where
  present := by
    obtain ⟨streams, api⟩ := Bool.and_eq_true_iff.mp structured
    unfold start
    rcases Bool.or_eq_true_iff.mp api with anthropic | openai
    · right
      dsimp only
      rw [if_pos (Bool.and_eq_true_iff.mpr ⟨streams, anthropic⟩)]
      rfl
    · left
      dsimp only
      rw [if_pos openai]
      rfl
  openai := by
    intro live mem
    obtain ⟨_, same⟩ := ite_none_right_eq_some.mp mem
    obtain rfl := Option.some.inj same
    exact ⟨.start _ _ _, Openai.visible_start _⟩
  anthropic := by
    intro live mem
    obtain ⟨_, same⟩ := ite_none_right_eq_some.mp mem
    obtain rfl := Option.some.inj same
    refine ⟨_, ?_, Anthropic.ofVisible_start _, rfl⟩
    intro _
    rfl

variable {shows : Visible → Prop} (streams : Shows job text shows state)

include streams

theorem Shows.mono {weaker : Visible → Prop} (implies : ∀ visible, shows visible → weaker visible) :
    Shows job text weaker state where
  present := streams.present
  openai := fun live mem =>
    ⟨(streams.openai live mem).1, implies _ (streams.openai live mem).2⟩
  anthropic := by
    intro live mem
    obtain ⟨visible, orderly, view, holds⟩ := streams.anthropic live mem
    exact ⟨visible, orderly, view, implies visible holds⟩

variable {after : Visible → Prop}

theorem Shows.update (pre : window.raw <+: text)
    (updates : ∀ visible, shows visible → after (visible.updateIn job.hasTools window final)) :
    Shows job text after (updateStreams job window final state) where
  present := by
    unfold updateStreams
    simpa using streams.present
  openai := by
    intro live mem
    obtain ⟨before, found, rfl⟩ := map_eq_some_iff.mp mem
    obtain ⟨tools, holds⟩ := streams.openai before found
    refine ⟨tools.update pre job.toRequest final, ?_⟩
    rw [Openai.visible_streamUpdateIn _ _ _ _ tools.1]
    exact updates _ holds
  anthropic := by
    intro live mem
    obtain ⟨before, found, rfl⟩ := map_eq_some_iff.mp mem
    obtain ⟨visible, orderly, view, holds⟩ := streams.anthropic before found
    obtain ⟨v, later, ran, viewed⟩ := Anthropic.establishes_streamUpdateIn orderly
      job.toRequest window final before view
    rw [ran]
    exact ⟨_, Anthropic.orderly_updateIn orderly job.hasTools window final, viewed,
      updates visible holds⟩

theorem Shows.congr {other : State} (openai : other.openaiLive = state.openaiLive)
    (anthropic : other.anthropicLive = state.anthropicLive) : Shows job text shows other := by
  obtain ⟨present, openaiShows, anthropicShows⟩ := streams
  rw [← openai, ← anthropic] at present
  rw [← openai] at openaiShows
  rw [← anthropic] at anthropicShows
  exact ⟨present, openaiShows, anthropicShows⟩

omit streams

theorem plainChunk_streams (job : Job) (stop : Nat) (state : State) :
    (plainChunk job stop state).openaiLive = state.openaiLive ∧
      (plainChunk job stop state).anthropicLive = state.anthropicLive := by
  unfold plainChunk
  split <;> exact ⟨rfl, rfl⟩

theorem Shows.feed (streams : Shows job text shows state)
    (running : state.stopDecode = false) {piece : Bytes}
    (windowEq : window = ⟨state.text ++ piece, streamLen job.stops (state.text ++ piece)
      state.plainStreamPos (hitStop job state piece)⟩) (pre : window.raw <+: text)
    (updates : ∀ visible, shows visible → after (visible.updateIn job.hasTools window false)) :
    Shows job text after (feed job state piece) := by
  rw [feed_eq running]
  have round : Shows job text after (sendRound job (hitStop job state piece)
      { state with text := state.text ++ piece }) := by
    unfold sendRound
    subst windowEq
    refine Shows.update ?_ pre updates
    exact streams.congr (plainChunk_streams _ _ _).1 (plainChunk_streams _ _ _).2
  refine round.congr ?_ ?_ <;> cases hitStop job state piece <;> rfl

theorem Shows.flush (streams : Shows job text shows state) (textEq : state.text = text)
    (updates : ∀ visible, shows visible →
      after (visible.updateIn job.hasTools (.whole text) true)) :
    Shows job text after (flush job state) := by
  unfold GenerateJob.flush
  rw [textEq]
  refine Shows.update ?_ (List.take_prefix _ _) updates
  exact streams.congr (plainChunk_streams _ _ _).1 (plainChunk_streams _ _ _).2

/-- The streams have sent parts of the kept text only: the reasoning and the content
each from its start on, and tool calls that were read from it. -/
def StreamsKept (job : Job) (generated : Bytes) (state : State) : Prop :=
  let cut := stopPosition job.stop generated
  (∀ live ∈ state.openaiLive, Kept job.think generated cut (Openai.reasoningText live.events)
        (Openai.contentText live.events) ∧
      Openai.ToolsRead job.toolIds (generated.take cut) live.tool (Openai.toolDeltas live.events)) ∧
    ∀ live ∈ state.anthropicLive,
      Kept job.think generated cut (Anthropic.kindText .thinking live.events)
        (Anthropic.kindText .text live.events)

variable {generated : Bytes}

theorem streamsKept_of_shows (streams : Shows job (generated.take (stopPosition job.stop generated))
      (fun visible => Kept job.think generated (stopPosition job.stop generated)
        (visible.reasoning.getD []) (visible.content.getD [])) state) :
    StreamsKept job generated state := by
  refine ⟨fun live mem => ?_, fun live mem => ?_⟩
  · obtain ⟨tools, kept⟩ := streams.openai live mem
    refine ⟨?_, tools.2⟩
    rwa [Openai.Live.visible, Openai.getD_joined, Openai.getD_joined] at kept
  · obtain ⟨visible, orderly, view, kept⟩ := streams.anthropic live mem
    obtain ⟨thinkingEq, textEq⟩ := Anthropic.kindText_of_visible orderly view
    rwa [← thinkingEq, ← textEq] at kept

theorem kept_of_streamsKept {visible : Visible} (streams : Shows job text (· = visible) state)
    (kept : StreamsKept job generated state) :
    Kept job.think generated (stopPosition job.stop generated)
      (visible.reasoning.getD []) (visible.content.getD []) := by
  obtain ⟨openai, anthropic⟩ := kept
  rcases streams.present with present | present
  · obtain ⟨live, mem⟩ := isSome_iff_exists.mp present
    have shown := (openai live mem).1
    rw [← (streams.openai live mem).2]
    rwa [Openai.Live.visible, Openai.getD_joined, Openai.getD_joined]
  · obtain ⟨live, mem⟩ := isSome_iff_exists.mp present
    obtain ⟨_, orderly, view, rfl⟩ := streams.anthropic live mem
    obtain ⟨thinkingEq, textEq⟩ := Anthropic.kindText_of_visible orderly view
    rw [← thinkingEq, ← textEq]
    exact anthropic live mem

end Streams

section Runs

variable {job : Job} {text generated : Bytes} {state : State}

theorem isPrefix_generatedText (stops : List Bytes) (text : Bytes) (pieces : List Bytes) :
    text <+: generatedText stops text pieces := by
  induction pieces generalizing text with
  | nil => exact List.prefix_rfl
  | cons piece pieces ih =>
    rw [generatedText]
    split
    · exact List.prefix_append _ _
    · exact (List.prefix_append _ _).trans (ih _)

variable (clean : CleanStops job.stop)

include clean

theorem stopPosition_le (generated : Bytes) :
    stopPosition job.stop generated ≤ generated.length := by
  have first : IsFirst (AnyAt job.stop generated) (findAny job.stop generated) :=
    isFirst_findAny fun stop mem => (clean stop mem).1
  unfold stopPosition
  cases found : findAny job.stop generated with
  | none => exact Nat.le_refl _
  | some pos =>
    rw [found] at first
    obtain ⟨stop, mem, occurs⟩ := first.1
    have inside := occurs.end_le (clean stop mem).1
    exact Nat.le_of_add_right_le inside

theorem safeLen_le_stopPosition (free : ∀ i, ¬ AnyAt job.stop text i) (pre : text <+: generated) :
    stopListStreamSafeLen job.stops text.length ≤ stopPosition job.stop generated := by
  have first : IsFirst (AnyAt job.stop generated) (findAny job.stop generated) :=
    isFirst_findAny fun stop mem => (clean stop mem).1
  unfold stopPosition
  cases found : findAny job.stop generated with
  | none => exact (stopListStreamSafeLen_le _ _).trans pre.length_le
  | some pos =>
    rw [found] at first
    obtain ⟨more, rfl⟩ := pre
    exact safeLen_le_of_anyAt clean free first.1

def roundWindow (job : Job) (state : State) (piece : Bytes) : Window :=
  ⟨state.text ++ piece, streamLen job.stops (state.text ++ piece) state.plainStreamPos
    (hitStop job state piece)⟩

theorem Searching.below (searching : Searching job text state)
    {piece : Bytes} (nulFree : NulFree piece) (pre : text ++ piece <+: generated)
    (ends : (findAny job.stop (text ++ piece)).isSome → generated = text ++ piece) :
    (roundWindow job state piece).Below generated (stopPosition job.stop generated) := by
  have first : IsFirst (AnyAt job.stop (text ++ piece)) (findAny job.stop (text ++ piece)) :=
    isFirst_findAny fun stop mem => (clean stop mem).1
  have hit := searching.hitStop clean nulFree
  unfold roundWindow
  rw [searching.textEq]
  have lengthLe : streamLen job.stops (text ++ piece) state.plainStreamPos
      (GenerateJob.hitStop job state piece) ≤ (text ++ piece).length :=
    utf8StreamSafeLen_le.trans (Nat.min_le_right _ _)
  refine ⟨pre, lengthLe, utf8StreamSafeLen_le.trans ((Nat.min_le_left _ _).trans ?_)⟩
  cases found : findAny job.stop (text ++ piece) with
  | none =>
    rw [found] at hit first
    rw [map_eq_none_iff.mp hit]
    exact safeLen_le_stopPosition clean first pre
  | some pos =>
    rw [found] at hit ends
    obtain ⟨⟨_, length⟩, hitEq, rfl⟩ := map_eq_some_iff.mp hit
    rw [hitEq, ends rfl, stopPosition, found]
    exact Nat.le_refl _

theorem shows_feeds (nulFree : NulFree generated) {shows : Visible → Prop}
    (keeps : ∀ window, Window.Below generated (stopPosition job.stop generated) window →
      ∀ visible, shows visible → shows (visible.updateIn job.hasTools window false))
    {pieces : List Bytes} (searching : Searching job text state)
    (streams : Shows job (generated.take (stopPosition job.stop generated)) shows state)
    (generates : generatedText job.stop text pieces = generated) :
    Shows job (generated.take (stopPosition job.stop generated)) shows
        (pieces.foldl (feed job) state) ∧
      (pieces.foldl (feed job) state).text = generated.take (stopPosition job.stop generated) := by
  induction pieces generalizing text state with
  | nil =>
    have same : text = generated := generates
    subst same
    have first : IsFirst (AnyAt job.stop text) (findAny job.stop text) :=
      isFirst_findAny fun stop mem => (clean stop mem).1
    have whole : stopPosition job.stop text = text.length := by
      rw [stopPosition, first.eq_none searching.free]
      rfl
    refine ⟨streams, ?_⟩
    rw [whole, List.take_length]
    exact searching.textEq
  | cons piece pieces ih =>
    rw [List.foldl_cons]
    have pre : text ++ piece <+: generated := by
      rw [← generates, generatedText]
      split
      · exact List.prefix_rfl
      · exact isPrefix_generatedText _ _ _
    have nulFreePiece : NulFree piece := by
      obtain ⟨more, same⟩ := pre
      rw [← same] at nulFree
      exact (nulFree_append.mp (nulFree_append.mp nulFree).1).2
    have ends : (findAny job.stop (text ++ piece)).isSome → generated = text ++ piece := by
      intro found
      rw [← generates, generatedText, if_pos found]
    have below := searching.below clean nulFreePiece pre ends
    have fed := streams.feed searching.running rfl below.raw_isPrefix (keeps _ below)
    cases found : findAny job.stop (text ++ piece) with
    | none =>
      have later := searching.feed_none clean nulFreePiece found
      rw [generatedText, if_neg (by rw [found]; exact Bool.false_ne_true)] at generates
      exact ih later fed generates
    | some stop =>
      obtain ⟨stopped, textEq⟩ := searching.feed_some clean nulFreePiece found
      rw [feeds_of_stopDecode stopped]
      refine ⟨fed, ?_⟩
      rw [textEq, ends (by rw [found]; rfl), stopPosition, found]
      rfl

omit clean

theorem streamsKept_of_keeps (structured : job.usesStructuredStream = true)
    (clean : CleanStops job.stop) (nulFree : NulFree generated) {shows : Visible → Prop}
    (starts : shows (Visible.start job.think))
    (implies : ∀ visible, shows visible → InFront job.think job.hasTools generated
      (stopPosition job.stop generated) visible)
    (keeps : ∀ window, Window.Below generated (stopPosition job.stop generated) window →
      ∀ visible, shows visible → shows (visible.updateIn job.hasTools window false))
    {pieces : List Bytes} (generates : generatedText job.stop [] pieces = generated) :
    StreamsKept job generated (generateJob job pieces) := by
  have started : Shows job (generated.take (stopPosition job.stop generated)) shows
      (start job) := by
    apply (shows_start structured _).mono
    rintro _ rfl
    exact starts
  obtain ⟨fed, textEq⟩ := shows_feeds clean nulFree keeps (searching_start clean) started generates
  apply streamsKept_of_shows
  refine fed.flush textEq fun visible holds => ?_
  exact ((implies visible holds).updateIn nulFree Window.below_whole seenInFront_take
    fun _ => List.take_length).kept

theorem shows_single (structured : job.usesStructuredStream = true)
    (clean : CleanStops job.stop) (nulFree : NulFree generated) {pos : Nat}
    (found : findAny job.stop generated = some pos) : Shows job (generated.take pos)
      (· = ((Visible.start job.think).updateIn job.hasTools ⟨generated, pos⟩
        false).updateIn job.hasTools (.whole (generated.take pos)) true)
      (generateJob job [generated]) := by
  have searching := searching_start clean
  obtain ⟨_, textEq⟩ := searching.feed_some clean nulFree
    (show findAny job.stop ([] ++ generated) = some pos from found)
  have inside := stopPosition_le clean generated
  rw [stopPosition, found, getD_some] at inside
  have hit := searching.hitStop clean nulFree
  rw [List.nil_append, found] at hit
  obtain ⟨⟨place, length⟩, hitEq, rfl⟩ := map_eq_some_iff.mp hit
  have windowEq : roundWindow job (start job) generated = ⟨generated, place⟩ := by
    rw [roundWindow, hitEq, streamLen, isSome_some, utf8StreamSafeLen, if_pos (Or.inl rfl)]
    change Window.mk generated (min place generated.length) = _
    rw [Nat.min_eq_left (by omega)]
  have started := shows_start structured (generated.take place)
  have fed : Shows job (generated.take place)
      (· = (Visible.start job.think).updateIn job.hasTools ⟨generated, place⟩ false)
      (feed job (start job) generated) :=
    started.feed searching.running windowEq.symm List.prefix_rfl
      fun _ same => congrArg (Visible.updateIn job.hasTools _ false) same
  refine fed.flush textEq ?_
  rintro _ rfl
  rfl

/-- The event streams send nothing behind the first stop string, however the text
arrives, exactly when the tags that they look for are in front of it, or it comes before
they know whether the text starts with `<think>`. -/
theorem structured_stream_cut_iff (job : Job) (structured : job.usesStructuredStream = true)
    (clean : CleanStops job.stop) (generated : Bytes) (nulFree : NulFree generated) :
    (∀ pieces, generatedText job.stop [] pieces = generated →
        StreamsKept job generated (generateJob job pieces)) ↔
      job.think = true ∧ Awaits generated (stopPosition job.stop generated) ∨
        TagsInFront job.think job.hasTools generated (stopPosition job.stop generated) := by
  constructor
  · intro kept
    by_contra neither
    rw [not_or] at neither
    cases found : findAny job.stop generated with
    | none =>
      apply neither.2
      apply tagsInFront_of_length_le
      rw [stopPosition, found]
      exact Nat.le_refl _
    | some position =>
      have atStop : stopPosition job.stop generated = position := by
        rw [stopPosition, found]
        rfl
      have single : generatedText job.stop [] [generated] = generated := by
        rw [generatedText, List.nil_append, found]
        rfl
      have bad := not_kept_of_tags nulFree (stopPosition_le clean _) neither.1 neither.2 rfl
      rw [atStop] at bad
      have streams := shows_single structured clean nulFree found
      have good := kept_of_streamsKept streams (kept _ single)
      rw [atStop] at good
      exact bad good
  · rintro (⟨thinks, awaits⟩ | tags) pieces generates
    · -- As long as the stream waits, it stays as it started.
      refine @streamsKept_of_keeps job generated structured clean nulFree
        (· = Visible.start job.think) rfl ?_ ?_ pieces generates
      · rintro _ rfl
        exact inFront_start
      · rintro window below _ rfl
        rw [thinks]
        exact updateIn_awaits awaits below
    · refine streamsKept_of_keeps structured clean nulFree inFront_start (fun _ => id) ?_ generates
      intro window below visible before
      exact before.updateIn nulFree below (tags.seen _) (absurd · Bool.false_ne_true)

/-- A streamed chat that thinks first and ends at `STOP`. -/
def thinkingJob : Job where
  hasTools := true
  think := true
  id := utf8 "m"
  api := .openai
  kind := .chat
  stream := true
  stop := [utf8 "STOP"]
  toolIds := fun _ => utf8 "call"

/-- A `</think>` in front of the stop string. -/
theorem structured_stream_cut_thinkingJob : StreamsKept thinkingJob (utf8 "a</think>bSTOPc")
      (generateJob thinkingJob [utf8 "a</thi", utf8 "nk>bST", utf8 "OPc"]) :=
  (structured_stream_cut_iff thinkingJob rfl (by decide) (utf8 "a</think>bSTOPc")
    (by decide)).mpr (Or.inr (by decide +kernel)) _ (by decide +kernel)

/-- A `</think>` behind the stop string takes it into the reasoning, although the text
is cut in front of it. -/
theorem streams_not_kept_thinkingJob :
    generatedText thinkingJob.stop [] [utf8 "aSTOPb</think>"] = utf8 "aSTOPb</think>" ∧
      (generateJob thinkingJob [utf8 "aSTOPb</think>"]).text = utf8 "a" ∧
      (generateJob thinkingJob [utf8 "aSTOPb</think>"]).openaiLive.map
        (fun live => Openai.reasoningText live.events) = some (utf8 "aSTOPb") ∧
      ¬ StreamsKept thinkingJob (utf8 "aSTOPb</think>")
        (generateJob thinkingJob [utf8 "aSTOPb</think>"]) := by
  have sent : (generateJob thinkingJob [utf8 "aSTOPb</think>"]).openaiLive.map
      (fun live => Openai.reasoningText live.events) = some (utf8 "aSTOPb") := by
    decide +kernel
  refine ⟨by decide +kernel, by decide +kernel, sent, ?_⟩
  rintro ⟨openai, -⟩
  obtain ⟨live, member, reasoning⟩ := map_eq_some_iff.mp sent
  have kept := (openai live member).1.1
  rw [reasoning] at kept
  exact absurd kept (by decide +kernel)

end Runs

end GenerateJob

end LnaLang
