import LnaLang.GenerateJob

/-!
# Stop strings

The loop looks for a stop string only from where a new one can start, and holds back
as many bytes as the longest stop string could still claim.  So it finds the first stop
string of the text that has been generated, ends with the piece that completes it, and
a plain stream has sent nothing behind the place where the text is then cut.
-/

namespace LnaLang.GenerateJob

open StreamText ListSearch TagSearch

section Searches

variable {text : Bytes}

theorem map_fst_findStop (nulFree : NulFree text) (start : Nat)
    (best : Option (Nat × Nat)) (stop : Bytes) : (findStop text start best stop).map Prod.fst =
      earlier (best.map Prod.fst) ((find stop (text.drop start)).map (start + ·)) := by
  have whole : cString (text.drop start) = text.drop start :=
    cString_of_nulFree fun mem => nulFree (List.mem_of_mem_drop mem)
  unfold findStop strstr
  rw [whole]
  cases find stop (text.drop start) with
  | none => cases best <;> rfl
  | some off =>
    cases best with
    | none => rfl
    | some best =>
      obtain ⟨pos, length⟩ := best
      dsimp only [Option.map_some, earlier]
      split
      · rw [Option.map_some, Nat.min_eq_right (by omega)]
      · rw [Option.map_some, Nat.min_eq_left (by omega)]

theorem isFirst_find_drop (text : Bytes) {stop : Bytes} (ne : stop ≠ []) (start : Nat) :
    IsFirst (fun i => start ≤ i ∧ OccursAt stop text i)
      ((find stop (text.drop start)).map (start + ·)) := by
  have first := isFirst_find (text.drop start) ne
  have shift (off : Nat) :
      OccursAt stop (text.drop start) off ↔ OccursAt stop text (start + off) := by
    unfold OccursAt
    rw [List.drop_drop]
  cases found : find stop (text.drop start) with
  | none =>
    rw [found] at first
    rintro i ⟨le, occurs⟩
    obtain ⟨off, rfl⟩ := Nat.exists_eq_add_of_le le
    exact first off ((shift off).mpr occurs)
  | some off =>
    rw [found] at first
    refine ⟨⟨Nat.le_add_right _ _, (shift off).mp first.1⟩, ?_⟩
    rintro before lt ⟨le, occurs⟩
    obtain ⟨earlier, rfl⟩ := Nat.exists_eq_add_of_le le
    exact first.2 earlier (by simpa using lt) ((shift earlier).mpr occurs)

theorem isFirst_foldl_findStop (nulFree : NulFree text) (start : Nat) {strings : List Bytes}
    (ne : ∀ stop ∈ strings, stop ≠ []) {best : Option (Nat × Nat)} {holds : Nat → Prop}
    (isFirst : IsFirst holds (best.map Prod.fst)) :
    IsFirst (fun i => holds i ∨ start ≤ i ∧ AnyAt strings text i)
      ((strings.foldl (findStop text start) best).map Prod.fst) := by
  induction strings generalizing best holds with
  | nil =>
    have same : (fun i => holds i ∨ start ≤ i ∧ AnyAt [] text i) = holds := by
      funext i
      simp [AnyAt]
    rw [same]
    exact isFirst
  | cons stop strings ih =>
    rw [List.forall_mem_cons] at ne
    have both := isFirst.earlier (isFirst_find_drop text ne.1 start)
    rw [← map_fst_findStop nulFree] at both
    have rest := ih ne.2 both
    have same : (fun i => holds i ∨
        start ≤ i ∧ AnyAt (stop :: strings) text i) = fun i =>
          (holds i ∨ start ≤ i ∧ OccursAt stop text i) ∨ start ≤ i ∧ AnyAt strings text i := by
      funext i
      simp only [AnyAt, List.mem_cons, exists_eq_or_imp, and_or_left, or_assoc]
    rw [same]
    exact rest

theorem map_fst_stopListFindFrom (nulFree : NulFree text) {stops : StopList}
    (ne : ∀ stop ∈ stops.strings, stop ≠ []) {start : Nat}
    (behind : ∀ i, AnyAt stops.strings text i → start ≤ i) :
    (stopListFindFrom stops text start).map Prod.fst = findAny stops.strings text := by
  have never : IsFirst (fun _ => False) ((none : Option (Nat × Nat)).map Prod.fst) :=
    fun _ => id
  have found := isFirst_foldl_findStop nulFree start ne never
  have same : (fun i => False ∨ start ≤ i ∧ AnyAt stops.strings text i) =
      AnyAt stops.strings text := by
    funext i
    rw [false_or, eq_iff_iff]
    exact ⟨And.right, fun occurs => ⟨behind i occurs, occurs⟩⟩
  rw [same] at found
  have first : IsFirst (AnyAt stops.strings text) (findAny stops.strings text) := isFirst_findAny ne
  cases search : findAny stops.strings text with
  | none =>
    rw [search] at first
    exact found.eq_none first
  | some i =>
    rw [search] at first
    exact found.eq_some first.1 first.2

end Searches

theorem stopListPush_strings (stops : StopList) {string : Bytes} (ne : string ≠ [])
    (nulFree : NulFree string) :
    stopListPush stops string = ⟨stops.strings ++ [string], max stops.maxLen string.length⟩ := by
  rw [stopListPush, cString_of_nulFree nulFree, if_neg ne]

theorem stopList_eq {strings : List Bytes}
    (clean : ∀ string ∈ strings, string ≠ [] ∧ NulFree string) :
    (stopList strings).strings = strings ∧
      ∀ string ∈ strings, string.length ≤ (stopList strings).maxLen := by
  have pushes (rest : List Bytes) (stops : StopList)
      (clean : ∀ string ∈ rest, string ≠ [] ∧ NulFree string)
      (bounded : ∀ string ∈ stops.strings, string.length ≤ stops.maxLen) :
      (rest.foldl stopListPush stops).strings = stops.strings ++ rest ∧
        ∀ string ∈ stops.strings ++ rest,
          string.length ≤ (rest.foldl stopListPush stops).maxLen := by
    induction rest generalizing stops with
    | nil => simpa using bounded
    | cons string rest ih =>
      rw [List.forall_mem_cons] at clean
      have pushed := stopListPush_strings stops clean.1.1 clean.1.2
      have later := ih (stopListPush stops string) clean.2 (by
        rw [pushed]
        intro other mem
        rcases List.mem_append.mp mem with old | new
        · exact (bounded other old).trans (le_max_left _ _)
        · rw [List.mem_singleton.mp new]
          exact le_max_right _ _)
      rw [List.foldl_cons]
      simpa only [pushed, List.append_assoc, List.singleton_append] using later
  have whole := pushes strings ⟨[], 0⟩ clean fun _ mem => absurd mem List.not_mem_nil
  rwa [List.nil_append] at whole

section Search

variable {job : Job} {text : Bytes} {state : State}

/-- The strings of a request that `parse_stop` keeps as they are. -/
def CleanStops (stops : List Bytes) : Prop :=
  ∀ stop ∈ stops, stop ≠ [] ∧ NulFree stop

instance (stops : List Bytes) : Decidable (CleanStops stops) :=
  inferInstanceAs (Decidable (∀ stop ∈ stops, stop ≠ [] ∧ NulFree stop))

variable (clean : CleanStops job.stop)

include clean

theorem CleanStops.strings : job.stops.strings = job.stop := (stopList_eq clean).1

theorem CleanStops.nonempty : ∀ stop ∈ job.stops.strings, stop ≠ [] := by
  rw [clean.strings]
  exact fun stop mem => (clean stop mem).1

theorem safeLen_le_of_anyAt (free : ∀ i, ¬ AnyAt job.stop text i) {more : Bytes} {i : Nat}
    (occurs : AnyAt job.stop (text ++ more) i) :
    stopListStreamSafeLen job.stops text.length ≤ i := by
  obtain ⟨stop, mem, occursStop⟩ := occurs
  have bound := (stopList_eq clean).2 stop mem
  have ne := (clean stop mem).1
  have crosses : text.length < i + stop.length := by
    by_contra within
    apply free i
    refine ⟨stop, mem, ?_⟩
    have inText : OccursAt stop ((text ++ more).take text.length) i :=
      (occursAt_take_iff ne).mpr ⟨occursStop, Nat.le_of_not_lt within⟩
    rwa [List.take_left' rfl] at inText
  unfold stopListStreamSafeLen
  change stop.length ≤ job.stops.maxLen at bound
  split
  next short =>
    rcases short with none | short
    · rw [clean.strings] at none
      rw [none] at mem
      cases mem
    · omega
  · omega

/-- The loop has found no stop string, and looks for the next one from early enough. -/
structure Searching (job : Job) (text : Bytes) (state : State) : Prop where
  running : state.stopDecode = false
  textEq : state.text = text
  nulFree : NulFree text
  free : ∀ index, ¬ AnyAt job.stop text index
  scan : state.stopScanFrom ≤ stopListStreamSafeLen job.stops text.length

theorem searching_start : Searching job [] (start job) where
  running := rfl
  textEq := rfl
  nulFree := List.not_mem_nil
  free := by
    rintro i ⟨stop, mem, occurs⟩
    have bound := occurs.end_le (clean stop mem).1
    have pos := List.length_pos_iff.mpr (clean stop mem).1
    rw [List.length_nil] at bound
    omega
  scan := Nat.zero_le _

omit clean

/-- The search of a round. -/
def hitStop (job : Job) (state : State) (piece : Bytes) : Option (Nat × Nat) :=
  stopListFindFrom job.stops (state.text ++ piece) state.stopScanFrom

theorem feed_eq (running : state.stopDecode = false) (piece : Bytes) :
    feed job state piece = cutAtStop (hitStop job state piece)
      (sendRound job (hitStop job state piece) { state with text := state.text ++ piece }) := by
  rw [feed, if_neg (by rw [running]; exact Bool.false_ne_true)]
  rfl

theorem Searching.hitStop (clean : CleanStops job.stop)
    (searching : Searching job text state) {piece : Bytes} (nulFree : NulFree piece) :
    (hitStop job state piece).map Prod.fst = findAny job.stop (text ++ piece) := by
  unfold GenerateJob.hitStop
  rw [searching.textEq, map_fst_stopListFindFrom
    (nulFree_append.mpr ⟨searching.nulFree, nulFree⟩) clean.nonempty, clean.strings]
  intro i occurs
  rw [clean.strings] at occurs
  exact searching.scan.trans (safeLen_le_of_anyAt clean searching.free occurs)

theorem sendRound_stopScanFrom (hit : Option (Nat × Nat)) : (sendRound job hit state).stopScanFrom =
      if hit.isNone ∧ 1 < job.stops.maxLen then
        state.text.length - (job.stops.maxLen - 1)
      else state.stopScanFrom := by
  unfold sendRound updateStreams plainChunk
  dsimp only
  split <;> rfl

theorem Searching.feed_none (clean : CleanStops job.stop) (searching : Searching job text state)
    {piece : Bytes} (nulFree : NulFree piece) (missing : findAny job.stop (text ++ piece) = none) :
    Searching job (text ++ piece) (feed job state piece) := by
  have noHit : GenerateJob.hitStop job state piece = none := by
    rw [← Option.map_eq_none_iff (f := Prod.fst), searching.hitStop clean nulFree]
    exact missing
  obtain ⟨sameText, sameStop⟩ := sendRound_keeps job none { state with text := state.text ++ piece }
  have first : IsFirst (AnyAt job.stop (text ++ piece)) (findAny job.stop (text ++ piece)) :=
    isFirst_findAny fun stop mem => (clean stop mem).1
  rw [missing] at first
  rw [feed_eq searching.running, noHit]
  refine ⟨sameStop.trans searching.running, ?_,
    nulFree_append.mpr ⟨searching.nulFree, nulFree⟩, first, ?_⟩
  · exact sameText.trans (by rw [searching.textEq])
  · rw [cutAtStop, sendRound_stopScanFrom]
    have scan := searching.scan
    simp only [Option.isNone_none, true_and, searching.textEq]
    unfold stopListStreamSafeLen at scan ⊢
    rw [List.length_append]
    split <;> split <;> (try split at scan) <;> omega

theorem Searching.feed_some (clean : CleanStops job.stop)
    (searching : Searching job text state) {piece : Bytes} (nulFree : NulFree piece)
    {pos : Nat} (found : findAny job.stop (text ++ piece) = some pos) :
    (feed job state piece).stopDecode = true ∧
      (feed job state piece).text = (text ++ piece).take pos := by
  have hit := searching.hitStop clean nulFree
  rw [found] at hit
  obtain ⟨⟨_, length⟩, hitEq, rfl⟩ := Option.map_eq_some_iff.mp hit
  rw [feed_eq searching.running, hitEq]
  refine ⟨rfl, ?_⟩
  rw [cutAtStop, (sendRound_keeps job _ _).1, searching.textEq]

end Search

section Plain

variable {job : Job} {text : Bytes} {state : State}

/-- A plain stream has sent the text up to where it notes that it has. -/
def Sent (text : Bytes) (state : State) : Prop :=
  state.chunks.flatten = text.take state.plainStreamPos

theorem sent_plainChunk (streams : job.stream = true) (isPlain : job.usesStructuredStream = false)
    (sent : Sent state.text state) (nulFree : NulFree state.text) (stop : Nat) :
    Sent state.text (plainChunk job stop state) ∧
      (plainChunk job stop state).plainStreamPos = max state.plainStreamPos stop := by
  unfold plainChunk
  rw [streams, isPlain]
  split
  next sends =>
    have whole : cString (slice state.text state.plainStreamPos stop) =
        slice state.text state.plainStreamPos stop :=
      cString_of_nulFree (nulFree.take_drop _ _)
    refine ⟨?_, (Nat.max_eq_right sends.2.2.le).symm⟩
    unfold Sent at sent ⊢
    rw [List.flatten_append, sent, List.flatten_singleton, whole, slice, ← List.take_add,
      Nat.add_sub_cancel' sends.2.2.le]
  next done =>
    have le : stop ≤ state.plainStreamPos := by
      by_contra more
      exact done ⟨rfl, rfl, Nat.lt_of_not_le more⟩
    exact ⟨sent, (Nat.max_eq_left le).symm⟩

theorem sendRound_chunks (job : Job) (hit : Option (Nat × Nat)) (state : State) :
    let length := streamLen job.stops state.text state.plainStreamPos hit
    (sendRound job hit state).chunks = (plainChunk job length state).chunks ∧
      (sendRound job hit state).plainStreamPos = (plainChunk job length state).plainStreamPos := by
  unfold sendRound updateStreams plainChunk
  dsimp only
  split <;> exact ⟨rfl, rfl⟩

theorem cutAtStop_chunks (hit : Option (Nat × Nat)) (state : State) :
    (cutAtStop hit state).chunks = state.chunks ∧
      (cutAtStop hit state).plainStreamPos = state.plainStreamPos := by
  cases hit <;> exact ⟨rfl, rfl⟩

variable {piece : Bytes}

theorem sent_feed (streams : job.stream = true)
    (isPlain : job.usesStructuredStream = false) (running : state.stopDecode = false)
    (sent : Sent state.text state) (le : state.plainStreamPos ≤ state.text.length)
    (nulFree : NulFree (state.text ++ piece)) :
    Sent (state.text ++ piece) (feed job state piece) ∧
      (feed job state piece).plainStreamPos = max state.plainStreamPos
        (streamLen job.stops (state.text ++ piece) state.plainStreamPos
          (hitStop job state piece)) := by
  have appended : Sent (state.text ++ piece) { state with text := state.text ++ piece } := by
    unfold Sent at sent ⊢
    rw [sent, List.take_append_of_le_length le]
  have chunk := sent_plainChunk streams isPlain appended nulFree
    (streamLen job.stops (state.text ++ piece) state.plainStreamPos (hitStop job state piece))
  obtain ⟨roundChunks, roundPos⟩ := sendRound_chunks job (hitStop job state piece)
    { state with text := state.text ++ piece }
  obtain ⟨cutChunks, cutPos⟩ := cutAtStop_chunks (hitStop job state piece)
    (sendRound job (hitStop job state piece) { state with text := state.text ++ piece })
  rw [feed_eq running]
  unfold Sent at chunk ⊢
  rw [cutChunks, cutPos, roundChunks, roundPos]
  exact chunk

theorem stopListStreamSafeLen_le (stops : StopList) (length : Nat) :
    stopListStreamSafeLen stops length ≤ length := by
  unfold stopListStreamSafeLen
  split <;> omega

theorem stopListStreamSafeLen_mono (stops : StopList) {length longer : Nat} (le : length ≤ longer) :
    stopListStreamSafeLen stops length ≤ stopListStreamSafeLen stops longer := by
  unfold stopListStreamSafeLen
  split <;> omega

/-- What a plain stream has sent stays in front of what a stop string can claim. -/
structure HeldBack (job : Job) (text : Bytes) (state : State) : Prop
    extends Searching job text state where
  sent : Sent text state
  held : state.plainStreamPos ≤ stopListStreamSafeLen job.stops text.length

theorem heldBack_start (clean : CleanStops job.stop) : HeldBack job [] (start job) where
  toSearching := searching_start clean
  sent := rfl
  held := Nat.zero_le _

variable (streams : job.stream = true) (isPlain : job.usesStructuredStream = false)
include streams isPlain

variable (held : HeldBack job text state)

include held

theorem HeldBack.sent_feed (nulFree : NulFree piece) : Sent (text ++ piece) (feed job state piece) ∧
      (feed job state piece).plainStreamPos = max state.plainStreamPos
        (streamLen job.stops (text ++ piece) state.plainStreamPos (hitStop job state piece)) := by
  have le := held.held.trans (stopListStreamSafeLen_le _ _)
  have nulFreeNext := nulFree_append.mpr ⟨held.nulFree, nulFree⟩
  have sent := held.sent
  rw [← held.textEq] at sent le nulFreeNext ⊢
  exact GenerateJob.sent_feed streams isPlain held.running sent le nulFreeNext

variable (clean : CleanStops job.stop)
include clean

theorem HeldBack.feed_none
    (nulFree : NulFree piece) (missing : findAny job.stop (text ++ piece) = none) :
    HeldBack job (text ++ piece) (feed job state piece) := by
  obtain ⟨sent, pos⟩ := held.sent_feed streams isPlain nulFree
  have noHit : hitStop job state piece = none := by
    rw [← Option.map_eq_none_iff (f := Prod.fst), held.hitStop clean nulFree]
    exact missing
  refine ⟨held.toSearching.feed_none clean nulFree missing, sent, ?_⟩
  rw [pos, noHit]
  apply max_le
  · apply held.held.trans (stopListStreamSafeLen_mono _ _)
    rw [List.length_append]
    exact Nat.le_add_right _ _
  · exact utf8StreamSafeLen_le.trans (Nat.min_le_left _ _)

theorem HeldBack.feed_some (nulFree : NulFree piece) {stop : Nat}
    (found : findAny job.stop (text ++ piece) = some stop) :
    Sent (text ++ piece) (feed job state piece) ∧
      (feed job state piece).plainStreamPos = stop ∧ stop ≤ (text ++ piece).length := by
  obtain ⟨sent, pos⟩ := held.sent_feed streams isPlain nulFree
  have hit := held.hitStop clean nulFree
  have first : IsFirst (AnyAt job.stop (text ++ piece)) (findAny job.stop (text ++ piece)) :=
    isFirst_findAny fun stop mem => (clean stop mem).1
  rw [found] at hit first
  obtain ⟨⟨_, length⟩, hitEq, rfl⟩ := Option.map_eq_some_iff.mp hit
  obtain ⟨string, mem, occurs⟩ := first.1
  have inside := occurs.end_le (clean string mem).1
  have behind := held.held.trans (safeLen_le_of_anyAt clean held.free first.1)
  refine ⟨sent, ?_, by omega⟩
  rw [pos, hitEq, streamLen]
  dsimp only at behind inside ⊢
  rw [Option.isSome_some, utf8StreamSafeLen, if_pos (Or.inl rfl),
    Nat.min_eq_left (by omega), Nat.max_eq_right behind]

end Plain

section Runs

/-- The text when the loop ends: it takes pieces up to the first behind which a stop
string stands in the text. -/
def generatedText (stops : List Bytes) (text : Bytes) : List Bytes → Bytes
  | [] => text
  | piece :: pieces =>
    if (findAny stops (text ++ piece)).isSome then text ++ piece
    else generatedText stops (text ++ piece) pieces

/-- The first place of a stop string, or the end of the text. -/
def stopPosition (stops : List Bytes) (text : Bytes) : Nat :=
  (findAny stops text).getD text.length

variable {job : Job} {text : Bytes} {state : State}

theorem feeds_of_stopDecode (stopped : state.stopDecode = true) (pieces : List Bytes) :
    pieces.foldl (feed job) state = state := by
  induction pieces with
  | nil => rfl
  | cons piece pieces ih => rw [List.foldl_cons, feed_of_stopDecode stopped, ih]

/-- The loop has ended with the text cut at the first stop string, and has sent no more
of it. -/
structure Ended (job : Job) (text : Bytes) (state : State) : Prop where
  textEq : state.text = text.take (stopPosition job.stop text)
  nulFree : NulFree text
  sent : Sent text state
  position : state.plainStreamPos ≤ stopPosition job.stop text

theorem HeldBack.ended (clean : CleanStops job.stop) (held : HeldBack job text state) :
    Ended job text state := by
  have first : IsFirst (AnyAt job.stop text) (findAny job.stop text) :=
    isFirst_findAny fun stop mem => (clean stop mem).1
  have whole : stopPosition job.stop text = text.length := by
    rw [stopPosition, first.eq_none held.free]
    rfl
  refine ⟨?_, held.nulFree, held.sent, ?_⟩
  · rw [whole, List.take_length]
    exact held.textEq
  · rw [whole]
    exact held.held.trans (stopListStreamSafeLen_le _ _)

theorem ended_feeds (streams : job.stream = true) (isPlain : job.usesStructuredStream = false)
    (clean : CleanStops job.stop) {pieces : List Bytes} (nulFree : ∀ piece ∈ pieces, NulFree piece)
    (held : HeldBack job text state) :
    Ended job (generatedText job.stop text pieces) (pieces.foldl (feed job) state) := by
  induction pieces generalizing text state with
  | nil => exact held.ended clean
  | cons piece pieces ih =>
    rw [List.forall_mem_cons] at nulFree
    rw [List.foldl_cons, generatedText]
    cases found : findAny job.stop (text ++ piece) with
    | none => exact ih nulFree.2 (held.feed_none streams isPlain clean nulFree.1 found)
    | some stop =>
      obtain ⟨sent, pos, _⟩ := held.feed_some streams isPlain clean nulFree.1 found
      obtain ⟨stopped, textEq⟩ := held.toSearching.feed_some clean nulFree.1 found
      have atStop : stopPosition job.stop (text ++ piece) = stop := by
        rw [stopPosition, found]
        rfl
      rw [feeds_of_stopDecode stopped, Option.isSome_some, if_pos rfl]
      refine ⟨?_, nulFree_append.mpr ⟨held.nulFree, nulFree.1⟩, sent, ?_⟩
      · exact textEq.trans (by rw [atStop])
      · exact (pos.trans atStop.symm).le

theorem chunks_plainChunk (job : Job) (stop : Nat) (state : State) :
    state.chunks <+: (plainChunk job stop state).chunks := by
  unfold plainChunk
  split
  · exact List.prefix_append _ _
  · exact List.prefix_rfl

theorem chunks_feed (piece : Bytes) : state.chunks <+: (feed job state piece).chunks := by
  cases running : state.stopDecode with
  | true => rw [feed_of_stopDecode running]
  | false =>
    rw [feed_eq running, (cutAtStop_chunks _ _).1, (sendRound_chunks _ _ _).1]
    exact chunks_plainChunk job _ { state with text := state.text ++ piece }

theorem chunks_feeds (job : Job) (state : State) (pieces : List Bytes) :
    state.chunks <+: (pieces.foldl (feed job) state).chunks := by
  induction pieces generalizing state with
  | nil => exact List.prefix_rfl
  | cons piece pieces ih => exact (chunks_feed piece).trans (ih _)

theorem generateJob_chunks (job : Job) (pieces : List Bytes) :
    (generateJob job pieces).chunks = (plainChunk job
      (pieces.foldl (feed job) (start job)).text.length
      (pieces.foldl (feed job) (start job))).chunks :=
  rfl

theorem Ended.flush (streams : job.stream = true)
    (isPlain : job.usesStructuredStream = false) (ended : Ended job text state) :
    (plainChunk job state.text.length state).chunks.flatten =
      text.take (stopPosition job.stop text) := by
  have nulFree : NulFree state.text := ended.textEq ▸ ended.nulFree.take _
  have sent : Sent state.text state := by
    have sentText := ended.sent
    unfold Sent at sentText ⊢
    rw [sentText, ended.textEq, List.take_take, Nat.min_eq_left ended.position]
  obtain ⟨sentAll, pos⟩ := sent_plainChunk streams isPlain sent nulFree state.text.length
  rw [sentAll, pos, List.take_of_length_le (Nat.le_max_right _ _), ended.textEq]

/-- A plain stream sends the generated text up to its first stop string: all of it once
the rest is sent, which is the text that is kept, and at no time more. -/
theorem plain_stream_cut (job : Job) (streams : job.stream = true)
    (isPlain : job.usesStructuredStream = false) (clean : CleanStops job.stop)
    (pieces : List Bytes) (nulFree : ∀ piece ∈ pieces, NulFree piece) :
    let generated := generatedText job.stop [] pieces
    let kept := generated.take (stopPosition job.stop generated)
    (generateJob job pieces).text = kept ∧ (generateJob job pieces).chunks.flatten = kept ∧
        ∀ count, ((pieces.take count).foldl (feed job) (start job)).chunks.flatten <+: kept := by
  have ended := ended_feeds streams isPlain clean nulFree (heldBack_start clean)
  have all := ended.flush streams isPlain
  refine ⟨?_, all, ?_⟩
  · have keeps : (generateJob job pieces).text = (pieces.foldl (feed job) (start job)).text := by
      unfold generateJob flush updateStreams plainChunk
      split <;> rfl
    exact keeps.trans ended.textEq
  · intro count
    have grows : ((pieces.take count).foldl (feed job) (start job)).chunks <+:
        (generateJob job pieces).chunks := by
      have later := chunks_feeds job ((pieces.take count).foldl (feed job) (start job))
        (pieces.drop count)
      rw [← List.foldl_append, List.take_append_drop] at later
      rw [generateJob_chunks]
      exact later.trans (chunks_plainChunk job _ _)
    obtain ⟨more, same⟩ := grows
    rw [← all, ← generateJob_chunks, ← same, List.flatten_append]
    exact List.prefix_append _ _

/-- A stop string that two pieces share. -/
theorem plain_stream_cut_plainJob :
    (generateJob plainJob [utf8 "aé", utf8 "éeb"]).text = utf8 "aé" ∧
      (generateJob plainJob [utf8 "aé", utf8 "éeb"]).chunks.flatten = utf8 "aé" := by
  have cut := plain_stream_cut plainJob rfl rfl (by decide) [utf8 "aé", utf8 "éeb"]
    (by decide)
  have generated : generatedText plainJob.stop [] [utf8 "aé", utf8 "éeb"] =
      utf8 "aééeb" := by decide +kernel
  have kept : (utf8 "aééeb").take (stopPosition plainJob.stop (utf8 "aééeb")) =
      utf8 "aé" := by decide +kernel
  rw [generated] at cut
  dsimp only at cut
  rw [kept] at cut
  exact ⟨cut.1, cut.2.1⟩

end Runs

end LnaLang.GenerateJob
