import LnaLang.WindowStreams

/-!
# What `generate_job` streams

The generation loop appends the bytes of each token to the text.  Bytes that may belong
to a stop string or to an incomplete character are held back; the rest goes to the
stream that the request asks for: plain chunks, the OpenAI events or the Anthropic
events.  When the loop ends, the streams are given everything.

The pieces are those that the loop appends before it ends; a stop string ends it too,
and cuts the text.
-/

namespace LnaLang

namespace GenerateJob

open List Option

open StreamText Utf8Text

/-- `api_style`. -/
inductive Api where
  | openai
  | anthropic
  deriving DecidableEq, Repr

/-- `req_kind`. -/
inductive Kind where
  | chat
  | completion
  deriving DecidableEq, Repr

/-- `stop_list`. -/
structure StopList where
  strings : List Bytes
  maxLen : Nat

/-- `stop_list_push`. -/
def stopListPush (stops : StopList) (string : Bytes) : StopList :=
  if cString string = [] then stops
  else ⟨stops.strings ++ [cString string], max stops.maxLen (cString string).length⟩

/-- The list that `parse_stop` makes of the strings of a request. -/
def stopList (strings : List Bytes) : StopList :=
  strings.foldl stopListPush ⟨[], 0⟩

/-- One round of `stop_list_find_from`. -/
def findStop (text : Bytes) (start : Nat) (best : Option (Nat × Nat)) (stop : Bytes) :
    Option (Nat × Nat) :=
  match strstr (cString (text.drop start)) stop, best with
  | none, _ => best
  | some offset, none => some (start + offset, stop.length)
  | some offset, some (position, length) =>
    if start + offset < position then some (start + offset, stop.length)
    else some (position, length)

/-- `stop_list_find_from`. -/
def stopListFindFrom (stops : StopList) (text : Bytes) (start : Nat) : Option (Nat × Nat) :=
  stops.strings.foldl (findStop text start) none

/-- `stop_list_stream_safe_len`. -/
def stopListStreamSafeLen (stops : StopList) (textLen : Nat) : Nat :=
  if stops.strings = [] ∨ stops.maxLen ≤ 1 then textLen
  else textLen - (stops.maxLen - 1)

/-- What the loop reads of a request, with the strings of its stop list. -/
structure Job extends Request where
  api : Api
  kind : Kind
  stream : Bool
  stop : List Bytes
  toolIds : Nat → Bytes

def Job.stops (job : Job) : StopList :=
  stopList job.stop

/-- `request_uses_openai_live_stream`. -/
def Job.usesOpenaiLiveStream (job : Job) : Bool :=
  job.stream && job.api == .openai && job.kind == .chat

/-- `request_uses_structured_stream`. -/
def Job.usesStructuredStream (job : Job) : Bool :=
  job.stream && (job.api == .anthropic || job.usesOpenaiLiveStream)

/-- The variables of the loop; a structured stream is there when the request uses it. -/
structure State where
  text : Bytes
  plainStreamPos : Nat
  stopScanFrom : Nat
  chunks : List Bytes
  anthropicLive : Option Anthropic.Live
  openaiLive : Option Openai.Live
  stopDecode : Bool

/-- The state in front of the loop. -/
def start (job : Job) : State where
  text := []
  plainStreamPos := 0
  stopScanFrom := 0
  chunks := []
  anthropicLive :=
    if job.stream && job.api == .anthropic then
      some (Anthropic.anthropicSseStartLive job.toRequest)
    else none
  openaiLive :=
    if job.usesOpenaiLiveStream then some (Openai.openaiStreamStart job.toRequest)
    else none
  stopDecode := false

def plainChunk (job : Job) (stop : Nat) (state : State) : State :=
  if job.stream ∧ !job.usesStructuredStream ∧ state.plainStreamPos < stop then
    { state with
      chunks := state.chunks ++ [cString (slice state.text state.plainStreamPos stop)]
      plainStreamPos := stop }
  else state

def updateStreams (job : Job) (window : Window) (final : Bool) (state : State) : State :=
  { state with
    anthropicLive := state.anthropicLive.map fun live =>
      match Anthropic.anthropicSseStreamUpdateIn job.toRequest window final live with
      | .ok _ after => after
      | .error _ after => after
    openaiLive := state.openaiLive.map
      (Openai.openaiSseStreamUpdateIn job.toolIds job.toRequest window final) }

/-- How much of the text may be sent. -/
def streamLen (stops : StopList) (text : Bytes) (plainStreamPos : Nat)
    (hitStop : Option (Nat × Nat)) : Nat :=
  let limit :=
    match hitStop with
    | some (position, _) => position
    | none => stopListStreamSafeLen stops text.length
  utf8StreamSafeLen text plainStreamPos (min limit text.length) hitStop.isSome

/-- Send what may be sent of the text, and note from where to look for stop strings. -/
def sendRound (job : Job) (hitStop : Option (Nat × Nat)) (state : State) : State :=
  let length := streamLen job.stops state.text state.plainStreamPos hitStop
  let stopScanFrom :=
    if hitStop.isNone ∧ 1 < job.stops.maxLen then
      state.text.length - (job.stops.maxLen - 1)
    else state.stopScanFrom
  updateStreams job ⟨state.text, length⟩ false (plainChunk job length { state with stopScanFrom })

def cutAtStop (hitStop : Option (Nat × Nat)) (state : State) : State :=
  match hitStop with
  | some (position, _) =>
    { state with text := state.text.take position, stopDecode := true }
  | none => state

/-- One round of the loop. -/
def feed (job : Job) (state : State) (piece : Bytes) : State :=
  if state.stopDecode then state
  else
    let state := { state with text := state.text ++ piece }
    let hitStop := stopListFindFrom job.stops state.text state.stopScanFrom
    cutAtStop hitStop (sendRound job hitStop state)

/-- The rest is sent when the loop has ended. -/
def flush (job : Job) (state : State) : State :=
  updateStreams job (.whole state.text) true (plainChunk job state.text.length state)

/-- `generate_job`, on the pieces that the loop appends. -/
def generateJob (job : Job) (pieces : List Bytes) : State :=
  flush job (pieces.foldl (feed job) (start job))

/-- The texts that have been sent. -/
def State.fragments (state : State) : List Bytes :=
  state.chunks ++ (state.openaiLive.toList.flatMap fun live =>
      live.events.flatMap Openai.Event.fragments) ++
    state.anthropicLive.toList.flatMap fun live => live.events.flatMap Anthropic.Event.fragments

section Stopping

variable {text : Bytes}

theorem stopListPush_valid {stops : StopList} {string : Bytes}
    (stopsValid : ∀ stop ∈ stops.strings, Valid stop ∧ stop ≠ []) (valid : Valid string) :
    ∀ stop ∈ (stopListPush stops string).strings, Valid stop ∧ stop ≠ [] := by
  unfold stopListPush
  split
  · exact stopsValid
  next ne =>
    dsimp only
    rw [forall_mem_append]
    exact ⟨stopsValid, forall_mem_singleton.mpr ⟨valid_cString valid, ne⟩⟩

theorem stopList_valid {strings : List Bytes} (valid : ∀ string ∈ strings, Valid string) :
    ∀ stop ∈ (stopList strings).strings, Valid stop ∧ stop ≠ [] := by
  have pushes (stops : StopList) (stopsValid : ∀ stop ∈ stops.strings, Valid stop ∧ stop ≠ []) :
      ∀ stop ∈ (strings.foldl stopListPush stops).strings, Valid stop ∧ stop ≠ [] := by
    induction strings generalizing stops with
    | nil => exact stopsValid
    | cons string strings ih =>
      rw [forall_mem_cons] at valid
      exact ih valid.2 _ (stopListPush_valid stopsValid valid.1)
  exact pushes _ fun _ mem => absurd mem not_mem_nil

theorem stopListFindFrom_some {stops : StopList} {start pos length : Nat}
    (found : stopListFindFrom stops text start = some (pos, length)) :
    ∃ stop ∈ stops.strings, stop <+: text.drop pos := by
  have rounds (strings : List Bytes) (best : Option (Nat × Nat))
      (found : strings.foldl (findStop text start) best = some (pos, length)) :
      best = some (pos, length) ∨ ∃ stop ∈ strings, stop <+: text.drop pos := by
    induction strings generalizing best with
    | nil => exact Or.inl found
    | cons stop strings ih =>
      rcases ih _ found with here | ⟨other, mem, starts⟩
      · have occurs (off : Nat) (inText : strstr (cString (text.drop start)) stop = some off) :
            stop <+: text.drop (start + off) := by
          have atOffset : stop <+: (cString (text.drop start)).drop off :=
            ListSearch.occursAt_of_find inText
          rw [← drop_drop]
          exact atOffset.trans ((cString_isPrefix _).drop off)
        unfold findStop at here
        split at here
        · exact Or.inl here
        next off inText =>
          cases here
          exact Or.inr ⟨stop, mem_cons_self, occurs off inText⟩
        next off before beforeLength inText =>
          split at here
          · cases here
            exact Or.inr ⟨stop, mem_cons_self, occurs off inText⟩
          · exact Or.inl here
      · exact Or.inr ⟨other, mem_cons_of_mem _ mem, starts⟩
  rcases rounds stops.strings none found with impossible | result
  · cases impossible
  · exact result

theorem cut_of_valid_starts {stop : Bytes} {pos : Nat} (valid : Valid stop)
    (ne : stop ≠ []) (starts : stop <+: text.drop pos) : Cut text pos := by
  obtain ⟨byte, rest, rfl⟩ := exists_cons_of_ne_nil ne
  obtain ⟨others, same⟩ := starts
  have found : text[pos]? = some byte := by
    rw [← Nat.add_zero pos, ← getElem?_drop, ← same]
    rfl
  exact cut_of_getElem? found (valid.cut_zero byte rfl)

end Stopping

section Sending

variable {job : Job} {text : Bytes}

/-- What holds of the loop on a valid text. -/
structure Sound (job : Job) (text : Bytes) (state : State) : Prop where
  isPrefix : state.text <+: text
  cutPlain : Cut text state.plainStreamPos
  plain : job.usesStructuredStream = true → state.plainStreamPos = 0
  chunks : ∀ chunk ∈ state.chunks, Valid chunk
  anthropic : ∀ live ∈ state.anthropicLive,
    job.usesStructuredStream = true ∧ live.Whole text
  openai : ∀ live ∈ state.openaiLive,
    job.usesStructuredStream = true ∧ live.Whole text

theorem sound_start (job : Job) (valid : Valid text) : Sound job text (start job) where
  isPrefix := nil_prefix
  cutPlain := valid.cut_zero
  plain := fun _ => rfl
  chunks := fun _ member => absurd member not_mem_nil
  anthropic := by
    intro live member
    unfold start at member
    dsimp only at member
    split at member
    next uses =>
      cases mem_some_iff.mp member
      rw [Bool.and_eq_true] at uses
      refine ⟨?_, Anthropic.Live.Whole.start valid _⟩
      rw [Job.usesStructuredStream, uses.1, uses.2]
      rfl
    · cases member
  openai := by
    intro live member
    unfold start at member
    dsimp only at member
    split at member
    next uses =>
      cases mem_some_iff.mp member
      refine ⟨?_, Openai.Live.Whole.start valid _⟩
      have streams := uses
      rw [Job.usesOpenaiLiveStream, Bool.and_eq_true, Bool.and_eq_true] at streams
      rw [Job.usesStructuredStream, uses, streams.1.1, Bool.or_true]
      rfl
    · cases member

theorem Sound.plainChunk {state : State} (sound : Sound job text state) (valid : Valid text)
    {stop : Nat} (stops : Stop text state.text state.plainStreamPos stop) :
    Sound job text (plainChunk job stop state) := by
  unfold GenerateJob.plainChunk
  split
  next sends =>
    obtain ⟨piece, cut⟩ := piece_of_limit valid sound.isPrefix sound.cutPlain stops
    rw [Nat.max_eq_right (Nat.le_of_lt sends.2.2)] at cut
    refine ⟨sound.isPrefix, cut, ?_, ?_, sound.anthropic, sound.openai⟩
    · intro uses
      rw [uses] at sends
      cases sends.2.1
    · dsimp only
      rw [forall_mem_append]
      exact ⟨sound.chunks, forall_mem_singleton.mpr (valid_cString piece)⟩
  · exact sound

theorem Sound.updateStreams {state : State} (sound : Sound job text state) (valid : Valid text)
    {window : Window} (on : job.usesStructuredStream = true → window.On text) (final : Bool) :
    Sound job text (updateStreams job window final state) where
  isPrefix := sound.isPrefix
  cutPlain := sound.cutPlain
  plain := sound.plain
  chunks := sound.chunks
  anthropic := by
    intro live member
    obtain ⟨before, present, rfl⟩ := mem_map.mp member
    obtain ⟨uses, whole⟩ := sound.anthropic before present
    obtain ⟨value, after, ran, wholeAfter⟩ :=
      Anthropic.whole_updateIn valid (on uses) job.toRequest final before whole
    rw [ran]
    exact ⟨uses, wholeAfter⟩
  openai := by
    intro live member
    obtain ⟨before, present, rfl⟩ := mem_map.mp member
    obtain ⟨uses, whole⟩ := sound.openai before present
    exact ⟨uses, whole.update valid (on uses) job.toolIds job.toRequest final⟩

theorem cut_hitStop {buf : Bytes} (pre : buf <+: text) {stops : StopList}
    (stopsValid : ∀ stop ∈ stops.strings, Valid stop ∧ stop ≠ []) {scan pos length : Nat}
    (hit : stopListFindFrom stops buf scan = some (pos, length)) :
    Cut text pos ∧ pos ≤ buf.length := by
  obtain ⟨stop, mem, starts⟩ := stopListFindFrom_some hit
  obtain ⟨validStop, ne⟩ := stopsValid stop mem
  have bound := starts.length_le
  have positive := length_pos_iff.mpr ne
  rw [length_drop] at bound
  exact ⟨cut_of_valid_starts validStop ne (starts.trans (pre.drop _)), by omega⟩

theorem stop_streamLen (valid : Valid text) {buf : Bytes} (pre : buf <+: text)
    {stops : StopList} (stopsValid : ∀ stop ∈ stops.strings, Valid stop ∧ stop ≠ [])
    {scan plainStreamPos : Nat} (cut : Cut text plainStreamPos) :
    Stop text buf plainStreamPos
      (streamLen stops buf plainStreamPos (stopListFindFrom stops buf scan)) := by
  unfold streamLen
  cases hit : stopListFindFrom stops buf scan with
  | none => exact cut_utf8StreamSafeLen valid pre cut (Nat.min_le_right _ _)
  | some found =>
    obtain ⟨pos, length⟩ := found
    obtain ⟨cutStop, inside⟩ := cut_hitStop pre stopsValid hit
    dsimp only
    rw [isSome_some, utf8StreamSafeLen, if_pos (Or.inl rfl), Nat.min_eq_left inside]
    exact Or.inr ⟨cutStop, inside⟩

/-- When a stop string ends the loop, the text ends where it may be cut. -/
def StopsWhole (text : Bytes) (state : State) : Prop :=
  state.stopDecode = true → Cut text state.text.length

theorem on_streamLen (valid : Valid text) {state : State} (sound : Sound job text state)
    {buf : Bytes} {length : Nat} (pre : buf <+: text)
    (stops : Stop text buf state.plainStreamPos length)
    (uses : job.usesStructuredStream = true) : Window.On text ⟨buf, length⟩ := by
  rw [sound.plain uses] at stops
  rcases stops with le | ⟨cut, inside⟩
  · cases Nat.le_zero.mp le
    exact ⟨pre, Nat.zero_le _, valid.cut_zero⟩
  · exact ⟨pre, inside, cut⟩

theorem sendRound_keeps (job : Job) (hitStop : Option (Nat × Nat)) (state : State) :
    (sendRound job hitStop state).text = state.text ∧
      (sendRound job hitStop state).stopDecode = state.stopDecode := by
  unfold sendRound GenerateJob.updateStreams GenerateJob.plainChunk
  dsimp only
  split <;> exact ⟨rfl, rfl⟩

theorem Sound.sendRound {state : State} (sound : Sound job text state) (valid : Valid text)
    (stopsValid : ∀ stop ∈ job.stops.strings, Valid stop ∧ stop ≠ []) (scan : Nat) :
    Sound job text (sendRound job (stopListFindFrom job.stops state.text scan) state) := by
  have stops := @stop_streamLen _ valid _ sound.isPrefix _ stopsValid scan _ sound.cutPlain
  have scanned (scanFrom : Nat) : Sound job text { state with stopScanFrom := scanFrom } :=
    ⟨sound.isPrefix, sound.cutPlain, sound.plain, sound.chunks, sound.anthropic, sound.openai⟩
  unfold GenerateJob.sendRound
  apply Sound.updateStreams _ valid (on_streamLen valid sound sound.isPrefix stops)
  exact (scanned _).plainChunk valid stops

theorem Sound.cutAtStop {state : State} (sound : Sound job text state)
    (stopsValid : ∀ stop ∈ job.stops.strings, Valid stop ∧ stop ≠ [])
    (running : state.stopDecode = false) {scan : Nat} :
    Sound job text (cutAtStop (stopListFindFrom job.stops state.text scan) state) ∧ StopsWhole text
        (cutAtStop (stopListFindFrom job.stops state.text scan) state) := by
  cases hit : stopListFindFrom job.stops state.text scan with
  | none =>
    refine ⟨sound, ?_⟩
    intro stopped
    rw [GenerateJob.cutAtStop, running] at stopped
    cases stopped
  | some found =>
    obtain ⟨pos, length⟩ := found
    obtain ⟨cut, inside⟩ := cut_hitStop sound.isPrefix stopsValid hit
    refine ⟨⟨(List.take_prefix _ _).trans sound.isPrefix, sound.cutPlain,
      sound.plain, sound.chunks, sound.anthropic, sound.openai⟩, ?_⟩
    intro _
    rw [GenerateJob.cutAtStop, length_take, Nat.min_eq_left inside]
    exact cut

theorem feed_of_stopDecode {state : State} (stopped : state.stopDecode = true)
    (piece : Bytes) : feed job state piece = state := by
  rw [feed, if_pos stopped]

theorem sound_feed {state : State} (sound : Sound job text state) (valid : Valid text)
    (stopsValid : ∀ stop ∈ job.stops.strings, Valid stop ∧ stop ≠ [])
    (running : state.stopDecode = false) {piece : Bytes} (next : state.text ++ piece <+: text) :
    Sound job text (feed job state piece) ∧ StopsWhole text (feed job state piece) := by
  have appended : Sound job text { state with text := state.text ++ piece } :=
    ⟨next, sound.cutPlain, sound.plain, sound.chunks, sound.anthropic, sound.openai⟩
  have sent := appended.sendRound valid stopsValid state.stopScanFrom
  obtain ⟨sameText, sameStop⟩ := sendRound_keeps job
    (stopListFindFrom job.stops (state.text ++ piece) state.stopScanFrom)
    { state with text := state.text ++ piece }
  have finished := @Sound.cutAtStop _ _ _ sent stopsValid (sameStop.trans running)
    state.stopScanFrom
  rw [sameText] at finished
  rw [feed, if_neg (by rw [running]; exact Bool.false_ne_true)]
  exact finished

theorem text_feed {state : State} {piece : Bytes}
    (goesOn : (feed job state piece).stopDecode = false) :
    state.stopDecode = false ∧ (feed job state piece).text = state.text ++ piece := by
  cases running : state.stopDecode with
  | true =>
    rw [feed_of_stopDecode running, running] at goesOn
    cases goesOn
  | false =>
    rw [feed, if_neg (by rw [running]; exact Bool.false_ne_true)] at goesOn ⊢
    dsimp only at goesOn ⊢
    cases hit : stopListFindFrom job.stops (state.text ++ piece) state.stopScanFrom with
    | none => exact ⟨rfl, (sendRound_keeps _ _ _).1⟩
    | some found =>
      rw [hit] at goesOn
      cases goesOn

theorem sound_feeds (valid : Valid text)
    (stopsValid : ∀ stop ∈ job.stops.strings, Valid stop ∧ stop ≠ []) (pieces : List Bytes)
    {state : State} (sound : Sound job text state) (ends : StopsWhole text state)
    (rest : state.stopDecode = false → state.text ++ pieces.flatten = text) :
    Sound job text (pieces.foldl (feed job) state) ∧
      Cut text (pieces.foldl (feed job) state).text.length := by
  induction pieces generalizing state with
  | nil =>
    refine ⟨sound, ?_⟩
    cases stopped : state.stopDecode with
    | true => exact ends stopped
    | false =>
      have whole := rest stopped
      rw [flatten_nil, append_nil] at whole
      apply cut_of_length_le
      rw [foldl_nil, whole]
  | cons piece pieces ih =>
    rw [foldl_cons]
    cases stopped : state.stopDecode with
    | true =>
      rw [feed_of_stopDecode stopped]
      apply ih sound ends
      intro running
      rw [stopped] at running
      cases running
    | false =>
      have whole := rest stopped
      rw [flatten_cons, ← append_assoc] at whole
      have pre : state.text ++ piece <+: text := ⟨pieces.flatten, whole⟩
      obtain ⟨soundNext, endsNext⟩ := sound_feed sound valid stopsValid stopped pre
      apply ih soundNext endsNext
      intro goesOn
      rw [(text_feed goesOn).2, whole]

theorem Sound.flush {state : State} (sound : Sound job text state) (valid : Valid text)
    (cut : Cut text state.text.length) : Sound job text (flush job state) := by
  have ends : Stop text state.text state.plainStreamPos state.text.length :=
    Or.inr ⟨cut, Nat.le_refl _⟩
  apply (sound.plainChunk valid ends).updateStreams valid
  intro _
  exact ⟨sound.isPrefix, Nat.le_refl _, cut⟩

theorem Sound.fragments {state : State} (sound : Sound job text state) :
    ∀ fragment ∈ state.fragments, Valid fragment := by
  unfold State.fragments
  rw [forall_mem_append, forall_mem_append]
  refine ⟨⟨sound.chunks, ?_⟩, ?_⟩
  · intro fragment mem
    obtain ⟨live, present, sent⟩ := mem_flatMap.mp mem
    obtain ⟨event, written, carried⟩ := mem_flatMap.mp sent
    exact (sound.openai live (mem_toList.mp present)).2.valid event written fragment carried
  · intro fragment mem
    obtain ⟨live, present, sent⟩ := mem_flatMap.mp mem
    obtain ⟨event, written, carried⟩ := mem_flatMap.mp sent
    exact (sound.anthropic live (mem_toList.mp present)).2.valid event written fragment carried

/-- No fragment that is streamed splits a character: when the generated text is valid
UTF-8, however it is split into pieces, so is every content, reasoning and argument
fragment that is sent for it. -/
theorem fragments_valid (job : Job) (stopsValid : ∀ string ∈ job.stop, Valid string)
    (pieces : List Bytes) (valid : Valid pieces.flatten) :
    ∀ fragment ∈ (generateJob job pieces).fragments, Valid fragment := by
  have ends : StopsWhole pieces.flatten (start job) := by
    intro stopped
    cases stopped
  obtain ⟨sound, cut⟩ := sound_feeds valid (stopList_valid stopsValid) pieces
    (sound_start job valid) ends (fun _ => nil_append _)
  exact (sound.flush valid cut).fragments

def plainJob : Job where
  think := false
  hasTools := false
  id := utf8 "cmpl-1"
  api := .openai
  kind := .completion
  stream := true
  stop := [utf8 "ée"]
  toolIds := fun _ => []

/-- The pieces of `aéée` that end inside its characters. -/
def splitPieces : List Bytes := [[97, 0xc3], [0xa9, 0xc3], [0xa9], [101]]

theorem fragments_valid_split :
    (generateJob plainJob splitPieces).fragments = [utf8 "a", utf8 "é"] ∧
      ∀ fragment ∈ (generateJob plainJob splitPieces).fragments, Valid fragment := by
  refine ⟨by decide +kernel, fragments_valid plainJob ?_ splitPieces ?_⟩
  · exact forall_mem_singleton.mpr ⟨_, rfl⟩
  · exact ⟨['a', 'é', 'é', 'e'], by decide⟩

end Sending

end GenerateJob

end LnaLang
