import LnaLang.DsmlParser

/-!
# How much of a growing text may be streamed

Both streaming protocols look at the text generated so far and emit what is new and
certain: reasoning up to a possible `</think>`, visible text up to a
possible tool-call marker and the blanks before it, and never part of a UTF-8
character.  The two protocols decide this in the same way.  Each phase of the stream shows a
slice of its part, and never more of the text so far than belongs to the part of the whole.
-/

namespace LnaLang.StreamText

open Dsml

structure Request where
  think : Bool
  hasTools : Bool
  id : Bytes

structure Call where
  id : Option Bytes
  name : Bytes
  arguments : Bytes

/-- `anthropic_stream_mode`. -/
inductive Mode where
  | thinking
  | text
  | suppress
  deriving DecidableEq, Repr

/-- The bytes of a text from one position to another. -/
def slice (text : Bytes) (start stop : Nat) : Bytes :=
  (text.drop start).take (stop - start)

/-- `utf8_expected_len`. -/
def utf8ExpectedLen (byte : UInt8) : Nat :=
  if byte < 0x80 then 1
  else if 0xc2 ≤ byte ∧ byte ≤ 0xdf then 2
  else if 0xe0 ≤ byte ∧ byte ≤ 0xef then 3
  else if 0xf0 ≤ byte ∧ byte ≤ 0xf4 then 4
  else 1

def isContinuation (byte : UInt8) : Bool :=
  byte &&& 0xc0 == 0x80

/-- Step back over continuation bytes, a bounded number of times. -/
def backOverContinuation (raw : Bytes) (start : Nat) : Nat → Nat → Nat
  | 0, position => position
  | count + 1, position =>
    if start < position ∧ isContinuation (raw.getD (position - 1) 0) then
      backOverContinuation raw start count (position - 1)
    else position

/-- The end of the whole characters before a limit, whose trailing continuation
bytes start at a position. -/
def wholeCharacters (raw : Bytes) (start limit position : Nat) : Nat :=
  if position = limit then
    if 1 < utf8ExpectedLen (raw.getD (limit - 1) 0) then limit - 1 else limit
  else if position = start ∧ isContinuation (raw.getD position 0) then start
  else
    let lead := position - 1
    if limit - lead < utf8ExpectedLen (raw.getD lead 0) then lead else limit

/-- `utf8_stream_safe_len`. -/
def utf8StreamSafeLen (raw : Bytes) (start limit : Nat) (final : Bool) : Nat :=
  if final ∨ limit ≤ start then limit
  else wholeCharacters raw start limit (backOverContinuation raw start 4 limit)

/-- The last position from `scan` on that holds a byte, searched backwards. -/
def lastIndexFrom (raw : Bytes) (byte : UInt8) (scan : Nat) : Nat → Option Nat
  | 0 => none
  | index + 1 =>
    if scan < index + 1 then
      if raw.getD index 0 = byte then some index
      else lastIndexFrom raw byte scan index
    else none

def maxMarker : Nat := 80

/-- How a phase of the stream ends. -/
inductive Outcome where
  | waiting
  | closed
  | ended
  deriving DecidableEq, Repr

structure Phase where
  emitPos : Nat
  checkedThinkPrefix : Bool
  piece : Bytes
  outcome : Outcome
  deriving DecidableEq, Repr

/-- A text, and how many of its bytes may be sent. -/
structure Window where
  buffer : Bytes
  length : Nat

namespace Window

/-- All of a text. -/
def whole (text : Bytes) : Window := ⟨text, text.length⟩

/-- The bytes that may be sent. -/
def raw (window : Window) : Bytes := window.buffer.take window.length

/-- The end of the bytes that may be sent, without blanks and without what may be the
start of a marker. -/
def beforeMarker (window : Window) (start : Nat) : Nat :=
  let limit := trimToolSeparatorWs window.buffer start window.length
  let scan :=
    if maxMarker < window.length - start then window.length - maxMarker else start
  let limit :=
    match lastIndexFrom window.buffer 60 scan window.length with
    | some marker => min limit marker
    | none => limit
  trimToolSeparatorWs window.buffer start limit

/-- `text_stream_safe_limit`. -/
def textStreamSafeLimit (window : Window) (start : Nat) (hasTools final : Bool) : Nat :=
  if window.length ≤ start then window.length
  else if hasTools then
    match findAnyToolStart (cString (window.buffer.drop start)) with
    | some tool => trimToolSeparatorWs window.buffer start (start + tool)
    | none =>
      if final then utf8StreamSafeLen window.buffer start window.length final
      else utf8StreamSafeLen window.buffer start (window.beforeMarker start) final
  else utf8StreamSafeLen window.buffer start window.length final

/-- The reasoning from a position on: it is closed by `</think>` and ends with the
text; until then, bytes that may belong to `</think>` are held back. -/
def thinkingFrom (window : Window) (final : Bool) (emitPos : Nat) : Phase :=
  match strstr (cString (window.buffer.drop emitPos)) thinkClose with
  | some close =>
    ⟨emitPos + close + thinkClose.length, true,
      slice window.buffer emitPos (emitPos + close), .closed⟩
  | none =>
    if final then
      ⟨max emitPos window.length, true, slice window.buffer emitPos window.length, .ended⟩
    else
      let hold := thinkClose.length - 1
      let limit := if hold < window.length then window.length - hold else emitPos
      let limit := utf8StreamSafeLen window.buffer emitPos limit false
      ⟨max emitPos limit, true, slice window.buffer emitPos limit, .waiting⟩

/-- The reasoning phase, which first waits until it knows whether the text starts
with `<think>`. -/
def thinkingPhase (window : Window) (final : Bool) (emitPos : Nat)
    (checkedThinkPrefix : Bool) : Phase :=
  if checkedThinkPrefix then window.thinkingFrom final emitPos
  else if window.length < thinkOpen.length ∧ startsWith thinkOpen window.raw ∧ !final then
    ⟨emitPos, false, [], .waiting⟩
  else if thinkOpen.length ≤ window.length ∧ startsWith window.buffer thinkOpen then
    window.thinkingFrom final thinkOpen.length
  else window.thinkingFrom final emitPos

/-- The visible phase: it is closed by a tool-call marker, where it leaves the
stream. -/
def textPhase (window : Window) (final hasTools : Bool) (emitPos : Nat) : Phase :=
  let limit := window.textStreamSafeLimit emitPos hasTools final
  let piece := slice window.buffer emitPos limit
  match if hasTools then findAnyToolStart (cString (window.buffer.drop emitPos))
      else none with
  | some tool => ⟨emitPos + tool, true, piece, .closed⟩
  | none => ⟨max emitPos limit, true, piece, if final then .ended else .waiting⟩

end Window

open List

open Dsml TagSearch

def markers : TagSet UInt8 where
  head := 60
  patterns := Style.all.map fun style => style.tags.toolCallsStart
  isTag := by decide

/-- The end of the reasoning. -/
def closing : TagSet UInt8 where
  head := 60
  patterns := [thinkClose]
  isTag := by decide

def bodyStart (text : Bytes) : Nat :=
  if startsWith text thinkOpen then thinkOpen.length else 0

def contentEnd (hasTools : Bool) (text : Bytes) (start : Nat) : Nat :=
  match if hasTools then markers.findFrom text start else none with
  | some marker => trimToolSeparatorWs text start marker
  | none => text.length

def reasoningOf (text : Bytes) : Bytes :=
  match closing.findFrom text (bodyStart text) with
  | some close => slice text (bodyStart text) close
  | none => slice text (bodyStart text) text.length

def contentStart (think : Bool) (text : Bytes) : Option Nat :=
  if think then
    (closing.findFrom text (bodyStart text)).map (· + thinkClose.length)
  else some 0

def shownReasoning (think : Bool) (text : Bytes) : Bytes :=
  if think then reasoningOf text else []

def shownContent (think hasTools : Bool) (text : Bytes) : Bytes :=
  match contentStart think text with
  | some start => slice text start (contentEnd hasTools text start)
  | none => []

section Slices

variable {text : Bytes} {first second third n : Nat}

theorem slice_append (le : first ≤ second) (le' : second ≤ third) :
    slice text first second ++ slice text second third = slice text first third := by
  unfold slice
  rw [show third - first = (second - first) + (third - second) by omega,
    take_add, drop_drop, Nat.add_sub_cancel' le]

theorem slice_of_le (le : second ≤ first) : slice text first second = [] := by
  simp [slice, Nat.sub_eq_zero_of_le le]

theorem slice_take (le : second ≤ n) :
    slice (text.take n) first second = slice text first second := by
  unfold slice
  rw [drop_take, take_take, Nat.min_eq_left (by omega)]

theorem length_slice (le : second ≤ text.length) :
    (slice text first second).length = second - first := by
  simp only [slice, length_take, length_drop]
  omega

theorem occursAt_slice {pat : Bytes} {start stop i : Nat} (ne : pat ≠ []) :
    ListSearch.OccursAt pat (slice text start stop) i ↔
      ListSearch.OccursAt pat text (start + i) ∧ i + pat.length ≤ stop - start := by
  rw [slice, ListSearch.occursAt_take_iff ne, ListSearch.OccursAt, ListSearch.OccursAt, drop_drop]

theorem nulFree_slice (nulFree : NulFree text) (first second : Nat) :
    NulFree (slice text first second) :=
  nulFree.take_drop first _

end Slices

section Trimming

variable {raw : Bytes} {start limit : Nat}

theorem trimToolSeparatorWs_le : trimToolSeparatorWs raw start limit ≤ limit := by
  induction limit with
  | zero => exact Nat.le_refl 0
  | succ limit ih =>
    unfold trimToolSeparatorWs
    split
    · exact ih.trans (Nat.le_succ limit)
    · exact Nat.le_refl _

theorem le_trimToolSeparatorWs (le : start ≤ limit) :
    start ≤ trimToolSeparatorWs raw start limit := by
  induction limit with
  | zero => exact le
  | succ limit ih =>
    unfold trimToolSeparatorWs
    split
    next blank => exact ih (Nat.le_of_lt_succ blank.1)
    next => exact le

theorem isSpace_of_trim {i : Nat} (le : trimToolSeparatorWs raw start limit ≤ i)
    (lt : i < limit) : isSpace (raw.getD i 0) = true := by
  induction limit with
  | zero => omega
  | succ limit ih =>
    unfold trimToolSeparatorWs at le
    split at le
    next blank =>
      rcases Nat.lt_succ_iff_lt_or_eq.mp lt with lt | rfl
      · exact ih le lt
      · exact blank.2
    next => omega

theorem trim_le_of_isSpace {i : Nat} (startLe : start ≤ i) (blank : ∀ pos, i ≤ pos → pos < limit →
      isSpace (raw.getD pos 0) = true) :
    trimToolSeparatorWs raw start limit ≤ i := by
  induction limit with
  | zero => exact Nat.zero_le _
  | succ limit ih =>
    unfold trimToolSeparatorWs
    by_cases within : i ≤ limit
    · rw [if_pos ⟨by omega, blank limit within (Nat.lt_succ_self _)⟩]
      exact ih fun pos le lt => blank pos le (by omega)
    · split
      · exact trimToolSeparatorWs_le.trans (by omega)
      · omega

theorem trim_of_blank {limit' : Nat} (le : limit ≤ limit')
    (blank : ∀ pos, limit ≤ pos → pos < limit' → isSpace (raw.getD pos 0) = true) :
    trimToolSeparatorWs raw 0 limit' = trimToolSeparatorWs raw 0 limit := by
  apply Nat.le_antisymm
  · refine trim_le_of_isSpace (Nat.zero_le _) fun pos positionLe lt => ?_
    rcases Nat.lt_or_ge pos limit with before | behind
    · exact isSpace_of_trim positionLe before
    · exact blank pos behind lt
  · refine trim_le_of_isSpace (Nat.zero_le _) fun pos positionLe lt => ?_
    exact isSpace_of_trim positionLe (Nat.lt_of_lt_of_le lt le)

theorem trim_of_le_trim (le : start ≤ trimToolSeparatorWs raw 0 limit) :
    trimToolSeparatorWs raw start limit = trimToolSeparatorWs raw 0 limit := by
  apply Nat.le_antisymm
  · exact trim_le_of_isSpace le fun _ => isSpace_of_trim
  · exact trim_le_of_isSpace (Nat.zero_le _) fun _ => isSpace_of_trim

theorem lt_trim_of_not_isSpace {i : Nat} (lt : i < limit)
    (visible : isSpace (raw.getD i 0) = false) :
    i < trimToolSeparatorWs raw start limit := by
  by_contra trimmed
  rw [isSpace_of_trim (Nat.le_of_not_lt trimmed) lt] at visible
  cases visible

end Trimming

section Searching

variable {raw text : Bytes} {n : Nat}

theorem lastIndexFrom_eq_some_iff {byte : UInt8} {scan i : Nat} :
    lastIndexFrom raw byte scan n = some i ↔ scan ≤ i ∧ i < n ∧ raw.getD i 0 = byte ∧
        ∀ later, i < later → later < n → raw.getD later 0 ≠ byte := by
  induction n with
  | zero => simp [lastIndexFrom]
  | succ n ih =>
    unfold lastIndexFrom
    split
    next within =>
      split
      next here =>
        constructor
        · intro same
          cases same
          exact ⟨by omega, by omega, here, fun later lt lt' => by omega⟩
        · rintro ⟨_, lt, _, last⟩
          by_contra differs
          have : i ≠ n := fun same => differs (congrArg some same.symm)
          exact last n (by omega) (Nat.lt_succ_self _) here
      next missing =>
        rw [ih]
        constructor
        · rintro ⟨le, lt, here, last⟩
          refine ⟨le, by omega, here, fun later lt' lt'' => ?_⟩
          rcases Nat.lt_succ_iff_lt_or_eq.mp lt'' with lt'' | rfl
          · exact last later lt' lt''
          · exact missing
        · rintro ⟨le, lt, here, last⟩
          have : i ≠ n := fun same => missing (same ▸ here)
          exact ⟨le, by omega, here, fun later lt' lt'' => last later lt' (by omega)⟩
    next outside =>
      constructor
      · intro same
        cases same
      · rintro ⟨le, lt, _⟩
        omega

variable {start : Nat}

theorem backOverContinuation_le {pos : Nat} : backOverContinuation raw start n pos ≤ pos := by
  induction n generalizing pos with
  | zero => exact Nat.le_refl _
  | succ n ih =>
    unfold backOverContinuation
    split
    · exact ih.trans (Nat.sub_le _ _)
    · exact Nat.le_refl _

variable {limit : Nat}

theorem wholeCharacters_le {pos : Nat} (le : pos ≤ limit) :
    wholeCharacters raw start limit pos ≤ limit := by
  unfold wholeCharacters
  split
  · split <;> omega
  split
  · omega
  · dsimp only
    split <;> omega

theorem utf8StreamSafeLen_le {final : Bool} : utf8StreamSafeLen raw start limit final ≤ limit := by
  unfold utf8StreamSafeLen
  split
  · exact Nat.le_refl _
  · exact wholeCharacters_le backOverContinuation_le

theorem getD_take {i : Nat} (lt : i < n) : (text.take n).getD i 0 = text.getD i 0 := by
  rw [getD_eq_getElem?_getD, getD_eq_getElem?_getD, getElem?_take_of_lt lt]

theorem findFrom_markers (nulFree : NulFree raw) (start : Nat) :
    markers.findFrom raw start = (findAnyToolStart (cString (raw.drop start))).map (start + ·) := by
  rw [cString_of_nulFree (nulFree.drop start)]
  rfl

theorem findFrom_closing_eq (raw : Bytes) (start : Nat) :
    closing.findFrom raw start = (strstr (raw.drop start) thinkClose).map (start + ·) := by
  unfold TagSet.findFrom findAny strstr
  simp only [closing, map_cons, map_nil, foldr_cons, foldr_nil]
  cases ListSearch.find thinkClose (raw.drop start) <;> rfl

theorem findFrom_closing (nulFree : NulFree raw) (start : Nat) : closing.findFrom raw start =
      (strstr (cString (raw.drop start)) thinkClose).map (start + ·) := by
  rw [cString_of_nulFree (nulFree.drop start), findFrom_closing_eq]

theorem trimToolSeparatorWs_take (le : limit ≤ n) :
    trimToolSeparatorWs (text.take n) start limit = trimToolSeparatorWs text start limit := by
  induction limit with
  | zero => rfl
  | succ limit ih =>
    unfold trimToolSeparatorWs
    rw [getD_take (by omega), ih (by omega)]

end Searching

section Holding

variable {text : Bytes} {n start marker : Nat}

theorem length_marker_le {pat : Bytes} (mem : pat ∈ markers.patterns) : pat.length ≤ maxMarker := by
  revert pat
  decide

theorem beforeMarker_le_trim_length {window : Window} :
    window.beforeMarker start ≤ trimToolSeparatorWs window.buffer start window.length := by
  unfold Window.beforeMarker
  refine trimToolSeparatorWs_le.trans ?_
  split
  · exact Nat.min_le_left _ _
  · exact Nat.le_refl _

theorem lastIndexFrom_cut {pat : Bytes} (mem : pat ∈ markers.patterns)
    (occurs : ListSearch.OccursAt pat text marker) (startLe : start ≤ marker)
    (seen : marker < n) (cut : n < marker + pat.length) :
    lastIndexFrom (text.take n) 60 (if maxMarker < n - start then n - maxMarker else start) n =
        some marker := by
  have tag := markers.isTag pat mem
  have lengthLe := length_marker_le mem
  rw [lastIndexFrom_eq_some_iff]
  refine ⟨by split <;> omega, seen, ?_, ?_⟩
  · rw [getD_take seen, getD_eq_getElem?_getD, tag.getElem?_start occurs]
    rfl
  · intro later lt lt' same
    rw [getD_take lt', getD_eq_getElem?_getD] at same
    refine tag.getElem?_inside occurs lt (by omega) ?_
    cases found : text[later]? with
    | none =>
      rw [found] at same
      cases same
    | some byte =>
      rw [found] at same
      exact congrArg some same

theorem beforeMarker_le_trim (missing : markers.findFrom (text.take n) start = none)
    (found : markers.findFrom text start = some marker) :
    (Window.whole (text.take n)).beforeMarker start ≤ trimToolSeparatorWs text start marker := by
  obtain ⟨pat, mem, occurs, cut⟩ := markers.cut_of_findFrom_take missing found
  have markerLe := (markers.findFrom_eq_some_iff.mp found).1
  have patternEnd := occurs.end_le (markers.isTag pat mem).ne_nil
  have keptLe : start ≤ trimToolSeparatorWs text start marker := le_trimToolSeparatorWs markerLe
  have blank : ∀ pos, trimToolSeparatorWs text start marker ≤ pos → pos < marker →
      pos < n → isSpace ((text.take n).getD pos 0) = true := by
    intro pos le lt lt'
    rw [getD_take lt']
    exact isSpace_of_trim le lt
  have lengthEq : (text.take n).length = min n text.length := length_take
  rcases Nat.lt_or_ge marker n with seen | unseen
  · have whole : (text.take n).length = n := by omega
    simp only [Window.beforeMarker, Window.whole, whole,
      lastIndexFrom_cut mem occurs markerLe seen cut]
    refine trim_le_of_isSpace keptLe fun pos le lt => ?_
    have lt' := Nat.lt_of_lt_of_le lt (Nat.min_le_right _ _)
    exact blank pos le lt' (by omega)
  · have trimmed : trimToolSeparatorWs (text.take n) start
        (text.take n).length ≤ trimToolSeparatorWs text start marker := by
      refine trim_le_of_isSpace keptLe fun pos le lt => ?_
      exact blank pos le (by omega) (by omega)
    exact beforeMarker_le_trim_length.trans trimmed

end Holding

section Phases

variable {text : Bytes} {n start : Nat} {final : Bool}

theorem slice_max {limit : Nat} : slice text start (max start limit) = slice text start limit := by
  rcases Nat.le_total start limit with le | le
  · rw [Nat.max_eq_right le]
  · rw [Nat.max_eq_left le, slice_of_le le, slice_of_le (Nat.le_refl start)]

theorem slice_take_max {limit : Nat} (le : limit ≤ start ∨ limit ≤ n) :
    slice (text.take n) start limit = slice text start (max start limit) := by
  rw [slice_max]
  rcases Nat.lt_or_ge start limit with startLt | limitLe
  · exact slice_take (by omega)
  · rw [slice_of_le limitLe, slice_of_le limitLe]

theorem contentEnd_of_marker {marker : Nat} (found : markers.findFrom text start = some marker) :
    contentEnd true text start = trimToolSeparatorWs text start marker := by
  simp [contentEnd, found]

variable {hasTools : Bool}

theorem contentEnd_of_free (free : hasTools = true → markers.findFrom text start = none) :
    contentEnd hasTools text start = text.length := by
  unfold contentEnd
  cases hasTools with
  | false => rfl
  | true => rw [if_pos rfl, free rfl]

theorem le_contentEnd (le : start ≤ text.length) : start ≤ contentEnd hasTools text start := by
  unfold contentEnd
  split
  next marker found =>
    obtain ⟨_, found⟩ := Option.ite_none_right_eq_some.mp found
    exact le_trimToolSeparatorWs (markers.findFrom_eq_some_iff.mp found).1
  next => exact le

theorem contentEnd_of_le {emitPos : Nat} (le : start ≤ emitPos)
    (le' : emitPos ≤ contentEnd hasTools text start) :
    contentEnd hasTools text emitPos = contentEnd hasTools text start := by
  cases hasTools with
  | false => rfl
  | true =>
    cases found : markers.findFrom text start with
    | none =>
      have later : markers.findFrom text emitPos = none := by
        rw [markers.findFrom_eq_none_iff] at found ⊢
        exact fun i indexLe => found i (le.trans indexLe)
      rw [contentEnd_of_free fun _ => found, contentEnd_of_free fun _ => later]
    | some marker =>
      rw [contentEnd_of_marker found] at le' ⊢
      obtain ⟨startLe, _, least⟩ := markers.findFrom_eq_some_iff.mp found
      have markerLe := le'.trans trimToolSeparatorWs_le
      have later : markers.findFrom text emitPos = some marker := by
        rw [markers.findFrom_of_free le, found]
        exact fun i indexLe lt => least i indexLe (by omega)
      rw [contentEnd_of_marker later]
      apply Nat.le_antisymm
      · exact trim_le_of_isSpace le' fun _ => isSpace_of_trim
      · exact trim_le_of_isSpace (le.trans (le_trimToolSeparatorWs markerLe))
          fun _ => isSpace_of_trim

theorem close_end_le {close : Nat} (found : closing.findFrom text start = some close) :
    close + thinkClose.length ≤ text.length := by
  obtain ⟨_, ⟨pat, mem, occurs⟩, _⟩ := closing.findFrom_eq_some_iff.mp found
  obtain rfl : pat = thinkClose := mem_singleton.mp mem
  exact occurs.end_le (by decide)

/-- A window on a prefix of the text that shows nothing behind the cut. -/
structure Window.Below (text : Bytes) (cut : Nat) (window : Window) : Prop where
  isPrefix : window.buffer <+: text
  le : window.length ≤ window.buffer.length
  leCut : window.length ≤ cut

variable {cut : Nat} {window : Window}

theorem Window.Below.buffer_eq (below : window.Below text cut) :
    window.buffer = text.take window.buffer.length :=
  prefix_iff_eq_take.mp below.isPrefix

theorem Window.Below.nulFree (below : window.Below text cut) (nulFree : NulFree text) :
    NulFree window.buffer := by
  rw [below.buffer_eq]
  exact nulFree.take _

theorem Window.below_whole : (Window.whole (text.take cut)).Below text cut where
  isPrefix := take_prefix cut text
  le := Nat.le_refl _
  leCut := (length_take_le cut text : (text.take cut).length ≤ cut)

theorem Window.Below.raw_isPrefix (below : window.Below text cut) :
    window.raw <+: text.take cut := by
  rw [Window.raw, below.buffer_eq, take_take, Nat.min_eq_left below.le]
  exact take_prefix_take_left below.leCut

theorem findFrom_of_isPrefix {tags : TagSet UInt8} {buf : Bytes} {i : Nat}
    (pre : buf <+: text) (found : tags.findFrom buf start = some i) :
    tags.findFrom text start = some i := by
  rw [prefix_iff_eq_take.mp pre] at found
  exact tags.findFrom_of_take found

theorem slice_of_isPrefix {buf : Bytes} {stop : Nat} (pre : buf <+: text)
    (le : stop ≤ start ∨ stop ≤ buf.length) :
    slice buf start stop = slice text start (max start stop) := by
  conv_lhs => rw [prefix_iff_eq_take.mp pre]
  exact slice_take_max le

/-- What the reasoning phase does on a window. -/
inductive ThinksIn (text : Bytes) (window : Window) (start : Nat) (final : Bool) :
    Phase → Prop
  | closed {close : Nat} (seen : closing.At window.buffer close)
      (found : closing.findFrom text start = some close) :
      ThinksIn text window start final
        ⟨close + thinkClose.length, true, slice text start close, .closed⟩
  | waiting {next : Nat} (notFinal : final = false) (startLe : start ≤ next)
      (le : next ≤ max start window.length)
      (before : ∀ close, closing.findFrom text start = some close → next ≤ close) :
      ThinksIn text window start final
        ⟨next, true, slice text start next, .waiting⟩
  | ended (isFinal : final = true) (missing : closing.findFrom window.buffer start = none) :
      ThinksIn text window start final ⟨max start window.length, true,
        slice text start (max start window.length), .ended⟩

theorem thinkingFrom_of_close (nulFree : NulFree window.buffer) {close : Nat}
    (found : closing.findFrom window.buffer start = some close) :
    window.thinkingFrom final start =
      ⟨close + thinkClose.length, true, slice window.buffer start close, .closed⟩ := by
  rw [findFrom_closing nulFree] at found
  obtain ⟨off, search, rfl⟩ := Option.map_eq_some_iff.mp found
  rw [Window.thinkingFrom, search]

theorem thinksIn_thinkingFrom (nulFree : NulFree text) (below : window.Below text cut) :
    ThinksIn text window start final (window.thinkingFrom final start) := by
  have nulFreeBuffer := below.nulFree nulFree
  have lengthLe := below.le
  cases search : closing.findFrom window.buffer start with
  | some close =>
    have seen := (closing.findFrom_eq_some_iff.mp search).2.1
    have inside := close_end_le search
    rw [thinkingFrom_of_close nulFreeBuffer search,
      slice_of_isPrefix below.isPrefix (by omega), slice_max]
    exact .closed seen (findFrom_of_isPrefix below.isPrefix search)
  | none =>
    have missing := search
    rw [findFrom_closing nulFreeBuffer, Option.map_eq_none_iff] at missing
    rw [Window.thinkingFrom, missing]
    dsimp only
    split
    next isFinal =>
      rw [slice_of_isPrefix below.isPrefix (by omega)]
      exact .ended isFinal search
    next notFinal =>
      have closeLength : thinkClose.length = 8 := rfl
      generalize limitEq : utf8StreamSafeLen window.buffer start _ false = limit
      have limitLe : limit ≤ if thinkClose.length - 1 < window.length then
          window.length - (thinkClose.length - 1) else start :=
        limitEq ▸ utf8StreamSafeLen_le
      have bounded : limit ≤ start ∨ limit + 7 ≤ window.length := by split at limitLe <;> omega
      rw [slice_of_isPrefix below.isPrefix (by omega)]
      refine .waiting (by simpa using notFinal) (Nat.le_max_left _ _) (by omega)
        fun close closeFound => ?_
      rw [below.buffer_eq] at search
      obtain ⟨pat, mem, _, crosses⟩ := closing.cut_of_findFrom_take search closeFound
      have startLeClose := (closing.findFrom_eq_some_iff.mp closeFound).1
      obtain rfl : pat = thinkClose := mem_singleton.mp mem
      omega

theorem lastIndexFrom_congr {raw other : Bytes} {byte : UInt8} {scan n : Nat}
    (same : ∀ i < n, raw.getD i 0 = other.getD i 0) :
    lastIndexFrom raw byte scan n = lastIndexFrom other byte scan n := by
  induction n with
  | zero => rfl
  | succ n ih =>
    unfold lastIndexFrom
    rw [same n (Nat.lt_succ_self _), ih fun i lt => same i (by omega)]

theorem beforeMarker_eq (below : window.Below text cut) :
    window.beforeMarker start = (Window.whole (text.take window.length)).beforeMarker start := by
  have lengthLe := below.le.trans below.isPrefix.length_le
  have lengthEq : (text.take window.length).length = window.length := by
    rw [length_take, Nat.min_eq_left lengthLe]
  have rawEq : text.take window.length = window.buffer.take window.length := by
    rw [below.buffer_eq, take_take, Nat.min_eq_left below.le]
  have trimmed {limit : Nat} (le : limit ≤ window.length) :
      trimToolSeparatorWs (text.take window.length) start limit =
        trimToolSeparatorWs window.buffer start limit := by
    rw [rawEq, trimToolSeparatorWs_take le]
  have scanned (scan : Nat) : lastIndexFrom (text.take window.length) 60 scan window.length =
        lastIndexFrom window.buffer 60 scan window.length := by
    rw [rawEq]
    exact lastIndexFrom_congr fun i lt => getD_take lt
  simp only [Window.beforeMarker, Window.whole, lengthEq, scanned, trimmed (Nat.le_refl _)]
  refine (trimmed ?_).symm
  split
  · exact (Nat.min_le_left _ _).trans trimToolSeparatorWs_le
  · exact trimToolSeparatorWs_le

/-- What the content phase does on a window. -/
inductive TalksIn (hasTools : Bool) (text : Bytes) (window : Window) (start : Nat)
    (final : Bool) : Phase → Prop
  | marker {marker limit : Nat} (tools : hasTools = true)
      (seen : markers.At window.buffer marker)
      (found : markers.findFrom text start = some marker) (startLe : start ≤ limit)
      (limitEq : window.length ≤ start ∧ limit = start ∨
        start < window.length ∧ limit = trimToolSeparatorWs text start marker) :
      TalksIn hasTools text window start final
        ⟨marker, true, slice text start limit, .closed⟩
  | waiting {next : Nat} (notFinal : final = false) (startLe : start ≤ next)
      (le : next ≤ max start window.length)
      (before : next ≤ max start (contentEnd hasTools text start)) :
      TalksIn hasTools text window start final
        ⟨next, true, slice text start next, .waiting⟩
  | ended (isFinal : final = true)
      (free : hasTools = true → markers.findFrom window.buffer start = none) :
      TalksIn hasTools text window start final ⟨max start window.length, true,
        slice text start (max start window.length), .ended⟩

theorem limit_le_length
    (noTool : hasTools = true → findAnyToolStart (cString (window.buffer.drop start)) = none) :
    window.textStreamSafeLimit start hasTools final ≤ window.length := by
  unfold Window.textStreamSafeLimit
  split
  · exact Nat.le_refl _
  split
  next tools =>
    rw [noTool tools]
    dsimp only
    split
    · exact utf8StreamSafeLen_le
    · exact utf8StreamSafeLen_le.trans (beforeMarker_le_trim_length.trans trimToolSeparatorWs_le)
  next => exact utf8StreamSafeLen_le

theorem limit_final
    (noTool : hasTools = true → findAnyToolStart (cString (window.buffer.drop start)) = none) :
    window.textStreamSafeLimit start hasTools true = window.length := by
  unfold Window.textStreamSafeLimit utf8StreamSafeLen
  split
  · rfl
  split
  next tools => simp [noTool tools]
  next => simp

theorem limit_le_contentEnd (nulFree : NulFree text)
    (below : window.Below text cut)
    (noTool : hasTools = true → findAnyToolStart (cString (window.buffer.drop start)) = none) :
    window.textStreamSafeLimit start hasTools false ≤
      max start (contentEnd hasTools text start) := by
  have lengthLe := below.le.trans below.isPrefix.length_le
  unfold Window.textStreamSafeLimit
  split
  · omega
  refine le_trans ?_ (Nat.le_max_right _ _)
  cases hasTools with
  | false =>
    rw [contentEnd_of_free (by simp)]
    exact utf8StreamSafeLen_le.trans lengthLe
  | true =>
    have missing := findFrom_markers (below.nulFree nulFree) start
    rw [noTool rfl, Option.map_none] at missing
    have missingRaw : markers.findFrom (text.take window.length) start = none := by
      cases found : markers.findFrom (text.take window.length) start with
      | none => rfl
      | some marker =>
        have inBuffer : text.take window.length <+: window.buffer := by
          rw [below.buffer_eq]
          exact take_prefix_take_left below.le
        rw [findFrom_of_isPrefix inBuffer found] at missing
        cases missing
    simp only [if_true, noTool rfl]
    refine utf8StreamSafeLen_le.trans ?_
    cases found : markers.findFrom text start with
    | none =>
      rw [contentEnd_of_free fun _ => found]
      exact beforeMarker_le_trim_length.trans (trimToolSeparatorWs_le.trans lengthLe)
    | some marker =>
      rw [contentEnd_of_marker found, beforeMarker_eq below]
      exact beforeMarker_le_trim missingRaw found

theorem textPhase_of_marker (nulFree : NulFree window.buffer) {marker : Nat}
    (found : markers.findFrom window.buffer start = some marker) :
    window.textPhase final true start = ⟨marker, true, slice window.buffer start
        (if window.length ≤ start then window.length
          else trimToolSeparatorWs window.buffer start marker), .closed⟩ := by
  rw [findFrom_markers nulFree] at found
  obtain ⟨tool, search, rfl⟩ := Option.map_eq_some_iff.mp found
  simp only [Window.textPhase, Window.textStreamSafeLimit, if_true, search]

theorem talksIn_textPhase (nulFree : NulFree text)
    (below : window.Below text cut) :
    TalksIn hasTools text window start final (window.textPhase final hasTools start) := by
  have nulFreeBuffer := below.nulFree nulFree
  have lengthLe := below.le
  cases search : if hasTools then markers.findFrom window.buffer start else none with
  | some marker =>
    obtain ⟨tools, found⟩ := Option.ite_none_right_eq_some.mp search
    subst tools
    obtain ⟨startLe, seen, _⟩ := markers.findFrom_eq_some_iff.mp found
    obtain ⟨pat, mem, occurs⟩ := seen
    have inside := occurs.end_le (markers.isTag pat mem).ne_nil
    have trimLe : trimToolSeparatorWs window.buffer start marker ≤ marker := trimToolSeparatorWs_le
    have trimEq : trimToolSeparatorWs window.buffer start marker =
        trimToolSeparatorWs text start marker := by
      conv_lhs => rw [below.buffer_eq]
      exact trimToolSeparatorWs_take (by omega)
    rw [textPhase_of_marker nulFreeBuffer found,
      slice_of_isPrefix below.isPrefix (by split <;> omega)]
    refine .marker rfl ⟨pat, mem, occurs⟩
      (findFrom_of_isPrefix below.isPrefix found) (Nat.le_max_left _ _) ?_
    split
    · exact Or.inl ⟨‹_›, by omega⟩
    · refine Or.inr ⟨by omega, ?_⟩
      rw [trimEq]
      exact Nat.max_eq_right (le_trimToolSeparatorWs startLe)
  | none =>
    have noTool : hasTools = true →
        findAnyToolStart (cString (window.buffer.drop start)) = none := by
      intro tools
      rw [if_pos tools, findFrom_markers nulFreeBuffer, Option.map_eq_none_iff] at search
      exact search
    have missing : (if hasTools then
        findAnyToolStart (cString (window.buffer.drop start)) else none) = none := by
      split
      · exact noTool ‹_›
      · rfl
    have limitLe : window.textStreamSafeLimit start hasTools final ≤ window.length :=
      limit_le_length noTool
    rw [Window.textPhase, missing]
    dsimp only
    rw [slice_of_isPrefix below.isPrefix (by omega)]
    cases final with
    | true =>
      rw [limit_final noTool]
      exact .ended rfl fun tools => by rwa [if_pos tools] at search
    | false =>
      have before := limit_le_contentEnd nulFree below noTool
      exact .waiting rfl (Nat.le_max_left _ _) (by omega) (by omega)

theorem thinkingPhase_cases (below : window.Below text cut)
    (whole : final = true → window.raw = text.take cut) :
    (final = false ∧ window.length < thinkOpen.length ∧ window.raw <+: thinkOpen) ∧
        window.thinkingPhase final 0 false = ⟨0, false, [], .waiting⟩ ∨
      window.thinkingPhase final 0 false =
        window.thinkingFrom final (bodyStart (text.take cut)) := by
  have rawPrefix := below.raw_isPrefix
  have lengthEq : window.raw.length = window.length := by
    rw [Window.raw, length_take, Nat.min_eq_left below.le]
  unfold Window.thinkingPhase
  rw [if_neg Bool.false_ne_true]
  split
  next short =>
    exact Or.inl ⟨⟨by simpa using short.2.2, short.1, startsWith_iff.mp short.2.1⟩, rfl⟩
  rename_i known
  right
  have same : (thinkOpen.length ≤ window.length ∧ startsWith window.buffer thinkOpen = true) ↔
        startsWith (text.take cut) thinkOpen = true := by
    rw [startsWith_iff, startsWith_iff]
    constructor
    · rintro ⟨long, opens⟩
      have inRaw : thinkOpen <+: window.raw := prefix_take_iff.mpr ⟨opens, long⟩
      exact inRaw.trans rawPrefix
    · intro opens
      have long : thinkOpen.length ≤ window.length := by
        by_contra short
        have seen : window.raw <+: thinkOpen :=
          prefix_of_prefix_length_le rawPrefix opens (by omega)
        refine known ⟨by omega, startsWith_iff.mpr seen, ?_⟩
        cases final with
        | false => rfl
        | true =>
          have all := congrArg List.length (whole rfl)
          have bound := opens.length_le
          omega
      refine ⟨long, ?_⟩
      have inRaw : thinkOpen <+: window.raw := prefix_of_prefix_length_le opens rawPrefix (by omega)
      exact inRaw.trans (List.take_prefix _ _)
  unfold bodyStart
  by_cases opens : startsWith (text.take cut) thinkOpen = true
  · rw [if_pos (same.mpr opens), if_pos opens]
  · rw [if_neg (opens ∘ same.mp), if_neg opens]

end Phases

end LnaLang.StreamText
