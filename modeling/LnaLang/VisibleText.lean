import LnaLang.StreamWindow

/-!
# The visible text of a stream

What a stream shows of a generated text does not depend on how the text arrives:
the reasoning reaches up to the first `</think>`, and the content from there up to
the first tool-call marker, without the blanks before it.

The first part of this file is the machine that both protocols run, with the
pieces collected; the second says where reasoning and content start and end; the
third proves that the machine shows exactly these parts.  The last says in the same terms
where the parser splits a text.
-/

namespace LnaLang.StreamText

open Dsml TagSearch

def addPiece (shown : Option Bytes) (piece : Bytes) : Option Bytes :=
  if piece = [] then shown else some (shown.getD [] ++ cString piece)

/-- The state that both protocols keep, with what has been shown. -/
structure Visible where
  mode : Mode
  emitPos : Nat
  checkedThinkPrefix : Bool
  reasoning : Option Bytes
  content : Option Bytes
  deriving DecidableEq, Repr

namespace Visible

def start (think : Bool) : Visible where
  mode := if think then .thinking else .text
  emitPos := 0
  checkedThinkPrefix := false
  reasoning := none
  content := none

def modeAfter : Outcome → Mode
  | .waiting => .thinking
  | .closed => .text
  | .ended => .suppress

/-- The state behind a reasoning phase. -/
def thought (phase : Phase) (visible : Visible) : Visible :=
  { visible with
    mode := modeAfter phase.outcome
    emitPos := phase.emitPos
    checkedThinkPrefix := phase.checkedThinkPrefix
    reasoning := addPiece visible.reasoning phase.piece }

/-- The state behind a visible phase. -/
def talked (phase : Phase) (visible : Visible) : Visible :=
  { visible with
    mode := if phase.outcome = .waiting then .text else .suppress
    emitPos := phase.emitPos
    content := addPiece visible.content phase.piece }

def thinkIn (window : Window) (final : Bool) (visible : Visible) : Visible :=
  if visible.mode = .thinking then
    visible.thought (window.thinkingPhase final visible.emitPos visible.checkedThinkPrefix)
  else visible

def talkIn (hasTools : Bool) (window : Window) (final : Bool) (visible : Visible) : Visible :=
  if visible.mode = .text then
    visible.talked (window.textPhase final hasTools visible.emitPos)
  else visible

def updateIn (hasTools : Bool) (window : Window) (final : Bool) (visible : Visible) : Visible :=
  (visible.thinkIn window final).talkIn hasTools window final

def update (hasTools : Bool) (raw : Bytes) (final : Bool) (visible : Visible) : Visible :=
  visible.updateIn hasTools (.whole raw) final

end Visible

section Progress

def shown (text : Bytes) : Option Bytes :=
  if text = [] then none else some text

theorem addPiece_shown {before piece : Bytes} (nulFree : NulFree piece) :
    addPiece (shown before) piece = shown (before ++ piece) := by
  unfold addPiece shown
  rw [cString_of_nulFree nulFree]
  cases piece <;> cases before <;> simp

theorem getD_shown (text : Bytes) : (shown text).getD [] = text := by
  unfold shown
  split
  next empty => exact empty.symm
  next => rfl

theorem shown_slice_self (text : Bytes) (pos : Nat) : shown (slice text pos pos) = none := by
  rw [slice_of_le (Nat.le_refl pos)]
  rfl

variable (think hasTools : Bool) (text : Bytes)

/-- The states in which the parts of a text have been shown up to some place. -/
inductive Upto : Visible → Prop
  | unchecked (thinks : think = true) : Upto ⟨.thinking, 0, false, none, none⟩
  | thinking {emitPos : Nat} (thinks : think = true)
      (startLe : bodyStart text ≤ emitPos) (le : emitPos ≤ text.length)
      (before : ∀ close, closing.findFrom text (bodyStart text) = some close →
        emitPos ≤ close) :
      Upto ⟨.thinking, emitPos, true,
        shown (slice text (bodyStart text) emitPos), none⟩
  | talking {start emitPos : Nat} {checked : Bool}
      (starts : contentStart think text = some start) (startLe : start ≤ emitPos)
      (le : emitPos ≤ contentEnd hasTools text start) :
      Upto ⟨.text, emitPos, checked, shown (shownReasoning think text),
        shown (slice text start emitPos)⟩
  | done {emitPos : Nat} {checked : Bool} :
      Upto ⟨.suppress, emitPos, checked, shown (shownReasoning think text),
        shown (shownContent think hasTools text)⟩

variable {think hasTools text} {n : Nat} {final : Bool}

theorem upto_contentStart {start : Nat} {checked : Bool}
    (starts : contentStart think text = some start) (le : start ≤ text.length) :
    Upto think hasTools text ⟨.text, start, checked, shown (shownReasoning think text), none⟩ := by
  rw [← shown_slice_self text start]
  exact .talking starts (Nat.le_refl start) (le_contentEnd le)

theorem upto_start : Upto think hasTools text (Visible.start think) := by
  cases think with
  | true => exact .unchecked rfl
  | false => exact upto_contentStart rfl (Nat.zero_le _)

theorem bodyStart_le_length : bodyStart text ≤ text.length := by
  unfold bodyStart
  split
  next starts => exact (startsWith_iff.mp starts).length_le
  next => exact Nat.zero_le _

theorem closing_of_before {emitPos : Nat} (startLe : bodyStart text ≤ emitPos)
    (before : ∀ close, closing.findFrom text (bodyStart text) = some close → emitPos ≤ close) :
    closing.findFrom text emitPos = closing.findFrom text (bodyStart text) := by
  refine closing.findFrom_of_free startLe fun i indexLe lt occurs => ?_
  cases found : closing.findFrom text (bodyStart text) with
  | none => exact closing.findFrom_eq_none_iff.mp found i indexLe occurs
  | some close =>
    have := before close found
    exact (closing.findFrom_eq_some_iff.mp found).2.2 i indexLe (by omega)
      occurs

variable (hasTools) in
theorem upto_of_thinks {phase : Phase} {emitPos : Nat} (nulFree : NulFree text)
    (thinks : think = true) (startLe : bodyStart text ≤ emitPos) (le : emitPos ≤ text.length)
    (before : ∀ close, closing.findFrom text (bodyStart text) = some close → emitPos ≤ close)
    (whole : final = true → text.length ≤ n)
    (result : ThinksIn text (.whole (text.take n)) emitPos final phase) : Upto think hasTools text
      ⟨Visible.modeAfter phase.outcome, phase.emitPos, phase.checkedThinkPrefix,
        addPiece (shown (slice text (bodyStart text) emitPos)) phase.piece, none⟩ := by
  have closes := closing_of_before startLe before
  cases result with
  | waiting _ emitPosLe nextLe nextBefore =>
    have lengthLe : (text.take n).length ≤ text.length := List.length_take_le' _ _
    rw [addPiece_shown (nulFree_slice nulFree _ _), slice_append startLe emitPosLe]
    exact .thinking thinks (startLe.trans emitPosLe) (nextLe.trans (Nat.max_le.mpr ⟨le, lengthLe⟩))
      fun close found => nextBefore close (closes.trans found)
  | @closed close _ found =>
    have emitPosLe := (closing.findFrom_eq_some_iff.mp found).1
    rw [addPiece_shown (nulFree_slice nulFree _ _), slice_append startLe emitPosLe]
    rw [closes] at found
    have reasoning : shownReasoning think text = slice text (bodyStart text) close := by
      simp [shownReasoning, reasoningOf, thinks, found]
    have starts : contentStart think text = some (close + thinkClose.length) := by
      simp [contentStart, thinks, found]
    rw [← reasoning]
    exact upto_contentStart starts (close_end_le found)
  | ended isFinal missing =>
    rw [List.take_of_length_le (whole isFinal)] at missing ⊢
    have ends : max emitPos (Window.whole text).length = text.length := Nat.max_eq_right le
    rw [addPiece_shown (nulFree_slice nulFree _ _), ends, slice_append startLe le]
    replace missing : closing.findFrom text (bodyStart text) = none := closes ▸ missing
    have reasoning : shownReasoning think text = slice text (bodyStart text) text.length := by
      simp [shownReasoning, reasoningOf, thinks, missing]
    have content : none = shown (shownContent think hasTools text) := by
      simp [shownContent, contentStart, thinks, missing, shown]
    rw [← reasoning, content]
    exact .done

theorem ThinksIn.mode_ne {window : Window} {start : Nat} {phase : Phase}
    (result : ThinksIn text window start true phase) :
    Visible.modeAfter phase.outcome ≠ .thinking := by
  cases result with
  | waiting notFinal => cases notFinal
  | closed => exact Mode.noConfusion
  | ended => exact Mode.noConfusion

variable (nulFree : NulFree text)

include nulFree

theorem upto_think {visible : Visible}
    (whole : final = true → text.length ≤ n) (upto : Upto think hasTools text visible) :
    Upto think hasTools text (visible.thinkIn (.whole (text.take n)) final) ∧ (final = true →
        (visible.thinkIn (.whole (text.take n)) final).mode ≠ .thinking) := by
  have result (start : Nat) :
      ThinksIn text (.whole (text.take n)) start final _ :=
    thinksIn_thinkingFrom nulFree Window.below_whole
  cases upto with
  | unchecked thinks =>
    unfold Visible.thinkIn
    rw [if_pos rfl]
    have below : (Window.whole (text.take n)).Below text text.length :=
      ⟨List.take_prefix n text, Nat.le_refl _, List.length_take_le' n text⟩
    have phases := thinkingPhase_cases below fun isFinal : final = true => by
      rw [Window.raw, Window.whole, List.take_length, List.take_length,
        List.take_of_length_le (whole isFinal)]
    rw [List.take_length] at phases
    rcases phases with ⟨⟨notFinal, _⟩, waits⟩ | goesOn
    · dsimp only
      rw [waits]
      exact ⟨.unchecked thinks, by simp [notFinal]⟩
    · dsimp only
      rw [goesOn]
      have after := upto_of_thinks hasTools nulFree thinks (Nat.le_refl _) bodyStart_le_length
        (fun close found => (closing.findFrom_eq_some_iff.mp found).1) whole (result _)
      rw [shown_slice_self] at after
      refine ⟨after, ?_⟩
      rintro rfl
      exact (result _).mode_ne
  | thinking thinks startLe le before =>
    unfold Visible.thinkIn
    rw [if_pos rfl]
    refine ⟨upto_of_thinks hasTools nulFree thinks startLe le before whole (result _), ?_⟩
    rintro rfl
    exact (result _).mode_ne
  | talking starts startLe le => exact ⟨.talking starts startLe le, fun _ => Mode.noConfusion⟩
  | done => exact ⟨.done, fun _ => Mode.noConfusion⟩

theorem upto_talk {visible : Visible}
    (whole : final = true → text.length ≤ n) (upto : Upto think hasTools text visible)
    (leaves : final = true → visible.mode ≠ .thinking) :
    Upto think hasTools text (visible.talkIn hasTools (.whole (text.take n)) final) ∧
      (final = true → (visible.talkIn hasTools (.whole (text.take n)) final).mode = .suppress) := by
  cases upto with
  | unchecked thinks => exact ⟨.unchecked thinks, fun isFinal => absurd rfl (leaves isFinal)⟩
  | thinking thinks startLe le before =>
    exact ⟨.thinking thinks startLe le before, fun isFinal => absurd rfl (leaves isFinal)⟩
  | @talking start emitPos checked starts startLe le =>
    have ends := contentEnd_of_le startLe le
    have inside : emitPos ≤ contentEnd hasTools text emitPos := ends ▸ le
    have result : TalksIn hasTools text (.whole (text.take n)) emitPos final _ :=
      talksIn_textPhase nulFree Window.below_whole
    -- The phase stops where the content ends.
    have finished {next : Nat} : Upto think hasTools text ⟨.suppress, next, checked,
        shown (shownReasoning think text), addPiece (shown (slice text start emitPos))
          (slice text emitPos (contentEnd hasTools text emitPos))⟩ := by
      rw [addPiece_shown (nulFree_slice nulFree _ _), ends, slice_append startLe le]
      have content : slice text start (contentEnd hasTools text start) =
          shownContent think hasTools text := by
        simp [shownContent, starts]
      rw [content]
      exact .done
    unfold Visible.talkIn
    rw [if_pos rfl]
    dsimp only [Visible.talked]
    generalize (Window.whole (text.take n)).textPhase final hasTools emitPos = phase
      at result ⊢
    cases result with
    | waiting notFinal emitPosLe _ nextLe =>
      rw [addPiece_shown (nulFree_slice nulFree _ _), slice_append startLe emitPosLe]
      rw [Nat.max_eq_right inside, ends] at nextLe
      refine ⟨.talking starts (startLe.trans emitPosLe) nextLe, ?_⟩
      simp [notFinal]
    | marker tools seen found _ limitEq =>
      subst tools
      obtain ⟨pat, mem, occurs⟩ := seen
      have seenEnd : _ ≤ (text.take n).length := occurs.end_le (markers.isTag pat mem).ne_nil
      have markerLe := (markers.findFrom_eq_some_iff.mp found).1
      rcases limitEq with ⟨short, -⟩ | ⟨-, rfl⟩
      · have : (text.take n).length ≤ emitPos := short
        have ne := List.length_pos_iff.mpr (markers.isTag pat mem).ne_nil
        omega
      · rw [← contentEnd_of_marker found]
        exact ⟨finished, fun _ => rfl⟩
    | ended isFinal free =>
      rw [List.take_of_length_le (whole isFinal)] at free ⊢
      have all : contentEnd hasTools text emitPos = text.length := contentEnd_of_free free
      rw [all] at inside finished
      rw [show max emitPos (Window.whole text).length = text.length from Nat.max_eq_right inside]
      exact ⟨finished, fun _ => rfl⟩
  | done => exact ⟨.done, fun _ => rfl⟩

theorem upto_update {visible : Visible}
    (whole : final = true → text.length ≤ n) (upto : Upto think hasTools text visible) :
    Upto think hasTools text (visible.update hasTools (text.take n) final) ∧ (final = true →
        (visible.update hasTools (text.take n) final).mode = .suppress) := by
  obtain ⟨thought, leaves⟩ := upto_think nulFree whole upto
  exact upto_talk nulFree whole thought leaves

end Progress

/-- Growing prefixes of a text. -/
def Chain (updates : List Bytes) (text : Bytes) : Prop :=
  (updates ++ [text]).IsChain (· <+: ·)

variable {updates : List Bytes} {text : Bytes}

theorem Chain.begins {raw : Bytes}
    (chain : Chain updates text) (mem : raw ∈ updates) : raw <+: text := by
  have pairwise := List.isChain_iff_pairwise.mp chain
  exact (List.pairwise_append.mp pairwise).2.2 raw mem text (by simp)

/-- The updates of a stream. -/
def Visible.follow (hasTools : Bool) (updates : List Bytes) (visible : Visible) : Visible :=
  updates.foldl (fun visible raw => visible.update hasTools raw false) visible

theorem upto_follow {think hasTools : Bool} {visible : Visible} (nulFree : NulFree text)
    (prefixes : ∀ raw ∈ updates, raw <+: text) (upto : Upto think hasTools text visible) :
    Upto think hasTools text (visible.follow hasTools updates) := by
  refine List.foldlRecOn updates _ upto fun visible upto raw mem => ?_
  rw [List.prefix_iff_eq_take.mp (prefixes raw mem)]
  exact (upto_update nulFree (by simp) upto).1

/-- The state of a stream that has been given the whole text. -/
def Visible.run (think hasTools : Bool) (updates : List Bytes) (text : Bytes) : Visible :=
  ((Visible.start think).follow hasTools updates).update hasTools text true

theorem Visible.run_shown (think hasTools : Bool) (nulFree : NulFree text)
    (prefixes : ∀ raw ∈ updates, raw <+: text) :
    ∃ emitPos checked, Visible.run think hasTools updates text =
      ⟨.suppress, emitPos, checked, shown (shownReasoning think text),
        shown (shownContent think hasTools text)⟩ := by
  have started : Upto think hasTools text (Visible.start think) := upto_start
  have whole : true = true → text.length ≤ text.length := fun _ => Nat.le_refl _
  obtain ⟨upto, suppressed⟩ := upto_update nulFree whole (upto_follow nulFree prefixes started)
  rw [List.take_length] at upto suppressed
  unfold Visible.run
  generalize Visible.update _ _ _ _ = final at upto suppressed ⊢
  cases upto with
  | done => exact ⟨_, _, rfl⟩
  | unchecked => cases suppressed rfl
  | thinking => cases suppressed rfl
  | talking => cases suppressed rfl

open List Option

section Markers

def parserMarker (text : Bytes) : Option Nat :=
  match findBlockStart text with
  | none => none
  | some (style, start) => (strstr (text.drop start) style.tags.toolCallsStart).map (start + ·)

def parserEnd (text : Bytes) : Nat :=
  match parserMarker text with
  | none => text.length
  | some marker => trimToolSeparatorWs text 0 marker

variable {text : Bytes}

theorem toolCallsStart_mem (style : Style) : style.tags.toolCallsStart ∈ markers.patterns := by
  cases style <;> decide

theorem findBlockStart_eq_none_iff :
    findBlockStart text = none ↔ markers.findFrom text 0 = none := by
  rw [markers.findFrom_eq_none_iff, findBlockStart, findSome?_eq_none_iff]
  constructor
  · rintro missing i - ⟨pat, mem, occurs⟩
    obtain ⟨style, -, rfl⟩ := mem_map.mp mem
    have listed : (style, []) ∈ startOrder := by cases style <;> decide
    have absent := map_eq_none_iff.mp (missing (style, []) listed)
    have within := occurs.end_le (by cases style <;> decide)
    exact ListSearch.find_eq_none_iff.mp absent i (by omega) occurs
  · rintro free ⟨style, separator⟩ -
    rw [map_eq_none_iff]
    refine ListSearch.find_eq_none_iff.mpr fun i _ occurs => ?_
    exact free _ (Nat.zero_le _) ⟨_, toolCallsStart_mem style, occurs.right⟩

theorem findBlockStart_spec {style : Style} {start : Nat}
    (found : findBlockStart text = some (style, start)) :
    ∃ separator, (∀ byte ∈ separator, byte = 10) ∧
      ListSearch.OccursAt (separator ++ style.tags.toolCallsStart) text start := by
  obtain ⟨⟨style', separator⟩, mem, chosen⟩ :=
    exists_of_findSome?_eq_some found
  obtain ⟨start', occurs, same⟩ := map_eq_some_iff.mp chosen
  cases same
  have breaks : ∀ entry ∈ startOrder, ∀ byte ∈ entry.2, byte = 10 := by decide +kernel
  exact ⟨separator, breaks _ mem, ListSearch.occursAt_of_find occurs⟩

theorem parserMarker_of_start {style : Style} {start : Nat}
    (found : findBlockStart text = some (style, start)) :
    ∃ marker, parserMarker text = some marker ∧ markers.At text marker ∧ start ≤ marker ∧
      trimToolSeparatorWs text 0 start = trimToolSeparatorWs text 0 marker := by
  obtain ⟨separator, breaks, occurs⟩ := findBlockStart_spec found
  have mem := toolCallsStart_mem style
  have tag := markers.isTag _ mem
  have newline (off : Nat) (lt : off < separator.length) : text[start + off]? = some 10 := by
    rw [getElem?_of_occursAt occurs.left lt, getElem?_eq_getElem lt, breaks _ (getElem_mem lt)]
  have located : strstr (text.drop start) style.tags.toolCallsStart = some separator.length := by
    refine ListSearch.find_eq_some_iff.mpr ⟨?_, ?_, ?_⟩
    · have within := occurs.end_le (by simp [tag.ne_nil])
      rw [length_append] at within
      rw [length_drop]
      omega
    · have right := occurs.right
      rwa [ListSearch.OccursAt, ← drop_drop] at right
    · intro off lt early
      have head : text[start + off]? = some 60 := by
        rw [← getElem?_drop]
        exact tag.getElem?_start early
      rw [newline off lt] at head
      cases head
  refine ⟨start + separator.length, ?_, ⟨_, mem, occurs.right⟩, Nat.le_add_right _ _, ?_⟩
  · simp [parserMarker, found, located]
  · refine (trim_of_blank (Nat.le_add_right _ _) fun pos le lt => ?_).symm
    obtain ⟨off, rfl⟩ := Nat.exists_eq_add_of_le le
    rw [getD_eq_getElem?_getD, newline off (by omega)]
    decide

theorem parserMarker_spec {marker : Nat} (found : parserMarker text = some marker) :
    markers.At text marker := by
  cases chosen : findBlockStart text with
  | none => simp [parserMarker, chosen] at found
  | some block =>
    obtain ⟨other, same, occurs, -⟩ := parserMarker_of_start chosen
    rw [found] at same
    cases same
    exact occurs

theorem parserMarker_eq_none_iff : parserMarker text = none ↔ markers.findFrom text 0 = none := by
  rw [← findBlockStart_eq_none_iff]
  cases chosen : findBlockStart text with
  | none => simp [parserMarker, chosen]
  | some block =>
    obtain ⟨marker, same, -⟩ := parserMarker_of_start chosen
    simp [same]

theorem split_of_parse {msg : Message} (parsed : parseGeneratedMessage text = some msg) :
    splitReasoningContent (text.take (parserEnd text)) = (msg.content, msg.reasoning) := by
  unfold parseGeneratedMessage at parsed
  cases chosen : findBlockStart text with
  | none =>
    rw [chosen] at parsed
    have marker : parserMarker text = none := by simp [parserMarker, chosen]
    rw [← Option.some.inj parsed, parserEnd, marker, take_length]
    rfl
  | some block =>
    obtain ⟨style, start⟩ := block
    rw [chosen] at parsed
    obtain ⟨marker, markerEq, -, -, trimmed⟩ := parserMarker_of_start chosen
    obtain ⟨⟨calls, rest⟩, -, same⟩ := map_eq_some_iff.mp parsed
    cases same
    simp [parserEnd, markerEq, ← trimmed]

end Markers

section Tags

def visibleTags : List Bytes :=
  thinkOpen :: thinkClose :: markers.patterns

variable {text first second : Bytes} {i later : Nat}

theorem isTag_visible : ∀ pat ∈ visibleTags, IsTag 60 pat := by
  decide

theorem eq_of_isPrefix : ∀ pat ∈ visibleTags, ∀ other ∈ visibleTags,
    pat <+: other → pat = other := by
  decide

theorem end_le_of_ne (firstMem : first ∈ visibleTags) (secondMem : second ∈ visibleTags)
    (ne : first ≠ second) (occurs : ListSearch.OccursAt first text i)
    (occursLater : ListSearch.OccursAt second text later) (le : i ≤ later) :
    i + first.length ≤ later := by
  rcases Nat.lt_or_eq_of_le le with lt | rfl
  · exact (isTag_visible first firstMem).end_le_of_lt
      (isTag_visible second secondMem) occurs occursLater lt
  · rcases prefix_or_prefix_of_prefix occurs occursLater with begins | begins
    · exact (ne (eq_of_isPrefix _ firstMem _ secondMem begins)).elim
    · exact (ne (eq_of_isPrefix _ secondMem _ firstMem begins).symm).elim

theorem getElem?_last : ∀ pat ∈ visibleTags, 0 < pat.length ∧ pat[pat.length - 1]? = some 62 := by
  decide

theorem end_le_trim {start limit : Nat} (mem : first ∈ visibleTags)
    (occurs : ListSearch.OccursAt first text i) (le : i + first.length ≤ limit) :
    i + first.length ≤ trimToolSeparatorWs text start limit := by
  obtain ⟨pos, last⟩ := getElem?_last first mem
  have lastByte : text[i + (first.length - 1)]? = some 62 := by
    rw [getElem?_of_occursAt occurs (by omega), last]
  have kept : i + (first.length - 1) < trimToolSeparatorWs text start limit := by
    refine lt_trim_of_not_isSpace (by omega) ?_
    rw [getD_eq_getElem?_getD, lastByte]
    decide
  omega

end Tags

section Parts

variable {text : Bytes} {marker close : Nat}

theorem mem_visibleTags_of_marker {pat : Bytes} (mem : pat ∈ markers.patterns) :
    pat ∈ visibleTags ∧ pat ≠ thinkOpen ∧ pat ≠ thinkClose := by
  revert pat
  decide

theorem bodyStart_le_marker (occurs : markers.At text marker) : bodyStart text ≤ marker := by
  obtain ⟨pat, mem, occursPattern⟩ := occurs
  obtain ⟨listed, notOpen, -⟩ := mem_visibleTags_of_marker mem
  unfold bodyStart
  split
  next starts =>
    have opens : ListSearch.OccursAt thinkOpen text 0 :=
      ListSearch.occursAt_zero.mpr (startsWith_iff.mp starts)
    have := end_le_of_ne (by decide) listed (Ne.symm notOpen) opens occursPattern
      (Nat.zero_le _)
    omega
  next => exact Nat.zero_le _

theorem occursAt_close {start : Nat} (found : closing.findFrom text start = some close) :
    ListSearch.OccursAt thinkClose text close := by
  obtain ⟨-, ⟨pat, mem, occurs⟩, -⟩ := closing.findFrom_eq_some_iff.mp found
  rwa [mem_singleton.mp mem] at occurs

theorem close_apart {start : Nat} (occurs : markers.At text marker)
    (found : closing.findFrom text start = some close) :
    close + thinkClose.length ≤ marker ∨ marker < close := by
  obtain ⟨pat, mem, occursPattern⟩ := occurs
  obtain ⟨listed, -, notClose⟩ := mem_visibleTags_of_marker mem
  rcases Nat.lt_or_ge marker close with lt | ge
  · exact Or.inr lt
  · exact Or.inl (end_le_of_ne (by decide) listed (Ne.symm notClose)
      (occursAt_close found) occursPattern ge)

theorem parserEnd_le_length : parserEnd text ≤ text.length := by
  unfold parserEnd
  split
  · exact Nat.le_refl _
  next marker found =>
    obtain ⟨pat, mem, occurs⟩ := parserMarker_spec found
    have := occurs.end_le (markers.isTag pat mem).ne_nil
    exact trimToolSeparatorWs_le.trans (by omega)

theorem bodyStart_le_parserEnd : bodyStart text ≤ parserEnd text := by
  unfold parserEnd
  split
  · exact bodyStart_le_length
  next marker found =>
    have bodyLe := bodyStart_le_marker (parserMarker_spec found)
    unfold bodyStart at bodyLe ⊢
    split
    next starts =>
      have opens : ListSearch.OccursAt thinkOpen text 0 :=
        ListSearch.occursAt_zero.mpr (startsWith_iff.mp starts)
      rw [if_pos starts] at bodyLe
      have kept : 0 + thinkOpen.length ≤ trimToolSeparatorWs text 0 marker :=
        end_le_trim (by decide) opens (by omega)
      omega
    next => exact Nat.zero_le _

theorem bodyStart_take : bodyStart (text.take (parserEnd text)) = bodyStart text := by
  have le : bodyStart text ≤ parserEnd text := bodyStart_le_parserEnd
  unfold bodyStart at le ⊢
  have same : startsWith (text.take (parserEnd text)) thinkOpen = startsWith text thinkOpen := by
    rw [Bool.eq_iff_iff, startsWith_iff, startsWith_iff, prefix_take_iff]
    refine ⟨fun both => both.1, fun starts => ⟨starts, ?_⟩⟩
    rwa [if_pos (startsWith_iff.mpr starts)] at le
  rw [same]

theorem body_eq_drop (raw : Bytes) :
    (if startsWith raw thinkOpen then raw.drop thinkOpen.length else raw) =
      raw.drop (bodyStart raw) := by
  unfold bodyStart
  split <;> rfl

theorem splitReasoningContent_of_close {raw : Bytes}
    (found : closing.findFrom raw (bodyStart raw) = some close) :
    splitReasoningContent raw = (raw.drop (close + thinkClose.length),
        some (slice raw (bodyStart raw) close)) := by
  rw [findFrom_closing_eq] at found
  obtain ⟨stop, stops, rfl⟩ := map_eq_some_iff.mp found
  simp only [splitReasoningContent, body_eq_drop, stops, drop_drop, slice,
    Nat.add_assoc, Nat.add_sub_cancel_left]

theorem splitReasoningContent_of_none {raw : Bytes}
    (missing : closing.findFrom raw (bodyStart raw) = none) :
    splitReasoningContent raw = (raw, none) := by
  rw [findFrom_closing_eq, map_eq_none_iff] at missing
  simp only [splitReasoningContent, body_eq_drop, missing]

variable {msg : Message}

theorem parsed_of_close (parsed : parseGeneratedMessage text = some msg)
    (found : closing.findFrom text (bodyStart text) = some close)
    (le : close + thinkClose.length ≤ parserEnd text) :
    msg.reasoning = some (slice text (bodyStart text) close) ∧ msg.content =
        slice text (close + thinkClose.length) (parserEnd text) := by
  have split := split_of_parse parsed
  have visible : closing.findFrom (text.take (parserEnd text)) (bodyStart text) = some close := by
    obtain ⟨startLe, -, least⟩ := closing.findFrom_eq_some_iff.mp found
    refine closing.findFrom_eq_some_iff.mpr ⟨startLe, ?_, ?_⟩
    · exact closing.at_take_iff.mpr ⟨thinkClose, mem_singleton.mpr rfl, occursAt_close found, le⟩
    · rintro before beforeLe lt occurs
      obtain ⟨pat, mem, occursPattern, -⟩ := closing.at_take_iff.mp occurs
      exact least before beforeLe lt ⟨pat, mem, occursPattern⟩
  rw [← bodyStart_take] at visible
  rw [splitReasoningContent_of_close visible, bodyStart_take] at split
  obtain ⟨content, reasoning⟩ := Prod.mk.inj split
  rw [slice_take (by omega)] at reasoning
  rw [drop_take] at content
  exact ⟨reasoning.symm, content.symm⟩

theorem parsed_of_open (parsed : parseGeneratedMessage text = some msg)
    (cut : ∀ close, closing.findFrom text (bodyStart text) = some close →
      parserEnd text < close + thinkClose.length) :
    msg.reasoning = none ∧ msg.content = slice text 0 (parserEnd text) := by
  have split := split_of_parse parsed
  have missing : closing.findFrom (text.take (parserEnd text)) (bodyStart text) = none := by
    cases visible : closing.findFrom (text.take (parserEnd text)) (bodyStart text) with
    | none => rfl
    | some close =>
      have endLe := close_end_le visible
      rw [length_take] at endLe
      have := cut close (closing.findFrom_of_take visible)
      omega
  rw [← bodyStart_take] at missing
  rw [splitReasoningContent_of_none missing] at split
  obtain ⟨content, reasoning⟩ := Prod.mk.inj split
  exact ⟨reasoning.symm, content.symm⟩

end Parts

end LnaLang.StreamText
