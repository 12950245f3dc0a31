import LnaLang.AnthropicBlocks
import LnaLang.OpenaiVisible

/-!
# When a stream shows what the parser returns

The stream decides from the request whether a text starts with reasoning, and it
looks for tool-call markers only behind `</think>`.  The parser looks for a block
anywhere, prefers one style over another, and splits what comes before it at the
first `</think>`.  This file says exactly on which texts the two agree.
-/

namespace LnaLang

namespace StreamText

open Dsml TagSearch

/-- The texts of which the stream and the parser see the same parts.  A text that
is to start with reasoning has to end it, and the first marker behind the
reasoning has to be the one that the parser takes; any other text must not end a
reasoning before the parser's marker, which has to be the first one. -/
def SameParts (think hasTools : Bool) (text : Bytes) : Prop :=
  if think then
    text = [] ∨ ∃ close, closing.findFrom text (bodyStart text) = some close ∧
        (parserMarker text = none ∨ hasTools = true ∧
          markers.findFrom text (close + thinkClose.length) = parserMarker text)
  else
    match parserMarker text with
    | none => closing.findFrom text (bodyStart text) = none
    | some marker => hasTools = true ∧ markers.findFrom text 0 = some marker ∧
        ∀ close, closing.findFrom text (bodyStart text) = some close → marker < close

section Ends

variable {text : Bytes} {hasTools : Bool} {start marker close : Nat}

theorem slice_eq_iff {stop stop' : Nat} (le : start ≤ stop) (le' : start ≤ stop')
    (within : stop ≤ text.length) (within' : stop' ≤ text.length) :
    slice text start stop = slice text start stop' ↔ stop = stop' := by
  refine ⟨fun same => ?_, fun same => same ▸ rfl⟩
  have lengths := congrArg List.length same
  rw [length_slice within, length_slice within'] at lengths
  omega

theorem contentEnd_le_length : contentEnd hasTools text start ≤ text.length := by
  unfold contentEnd
  split
  next marker found =>
    obtain ⟨-, found⟩ := Option.ite_none_right_eq_some.mp found
    obtain ⟨-, ⟨pat, mem, occurs⟩, -⟩ := markers.findFrom_eq_some_iff.mp found
    have := occurs.end_le (markers.isTag pat mem).ne_nil
    exact trimToolSeparatorWs_le.trans (by omega)
  next => exact Nat.le_refl _

theorem marker_lt_length (occurs : markers.At text marker) : marker < text.length := by
  obtain ⟨pat, mem, occursPattern⟩ := occurs
  have tag := markers.isTag pat mem
  have := occursPattern.end_le tag.ne_nil
  have := List.length_pos_iff.mpr tag.ne_nil
  omega

theorem parserEnd_of_marker (found : parserMarker text = some marker) :
    parserEnd text = trimToolSeparatorWs text 0 marker := by
  rw [parserEnd, found]

theorem parserEnd_of_none (missing : parserMarker text = none) : parserEnd text = text.length := by
  rw [parserEnd, missing]

theorem lt_parserEnd {other : Nat} (found : parserMarker text = some marker)
    (occurs : markers.At text other) (lt : other < marker) : other < parserEnd text := by
  obtain ⟨pat, mem, occursPattern⟩ := occurs
  rw [parserEnd_of_marker found]
  refine lt_trim_of_not_isSpace lt ?_
  rw [List.getD_eq_getElem?_getD, (markers.isTag pat mem).getElem?_start occursPattern]
  decide

theorem contentEnd_eq_parserEnd_iff (found : parserMarker text = some marker) (le : start ≤ marker)
    (same : trimToolSeparatorWs text start marker = parserEnd text) :
    contentEnd hasTools text start = parserEnd text ↔
      hasTools = true ∧ markers.findFrom text start = some marker := by
  have occurs := parserMarker_spec found
  cases hasTools with
  | false =>
    rw [contentEnd_of_free (by simp), parserEnd_of_marker found]
    have := marker_lt_length occurs
    have : trimToolSeparatorWs text 0 marker ≤ marker := trimToolSeparatorWs_le
    simp only [Bool.false_eq_true, false_and, iff_false]
    omega
  | true =>
    cases first : markers.findFrom text start with
    | none => exact (markers.findFrom_eq_none_iff.mp first marker le occurs).elim
    | some other =>
      obtain ⟨-, occursOther, least⟩ := markers.findFrom_eq_some_iff.mp first
      rw [contentEnd_of_marker first]
      simp only [true_and, Option.some.injEq]
      constructor
      · intro ends
        by_contra ne
        have lt : other < marker := by
          rcases Nat.lt_trichotomy other marker with lt | rfl | lt
          · exact lt
          · exact (ne rfl).elim
          · exact (least marker le lt occurs).elim
        have := lt_parserEnd found occursOther lt
        have : trimToolSeparatorWs text start other ≤ other := trimToolSeparatorWs_le
        omega
      · rintro rfl
        exact same

end Ends

section Agreement

variable {text : Bytes} {hasTools : Bool} {msg : Message}

def ShowsParsed (think hasTools : Bool) (text : Bytes) (message : Message) : Prop :=
  shownReasoning think text = message.reasoning.getD [] ∧
    shownContent think hasTools text = message.content

variable (parsed : parseGeneratedMessage text = some msg)

include parsed

theorem showsParsed_thinking_none (missing : closing.findFrom text (bodyStart text) = none) :
    ShowsParsed true hasTools text msg ↔ text = [] := by
  obtain ⟨reasoning, content⟩ := parsed_of_open parsed (by simp [missing])
  have shows : shownReasoning true text = slice text (bodyStart text) text.length := by
    simp [shownReasoning, reasoningOf, missing]
  have silent : shownContent true hasTools text = [] := by
    simp [shownContent, contentStart, missing]
  unfold ShowsParsed
  rw [shows, silent, reasoning, content, Option.getD_none]
  constructor
  · rintro ⟨noReasoning, noContent⟩
    have bodyEnd := congrArg List.length noReasoning
    have contentEnd := congrArg List.length noContent
    rw [length_slice (Nat.le_refl _), List.length_nil] at bodyEnd
    rw [length_slice parserEnd_le_length, List.length_nil] at contentEnd
    cases found : parserMarker text with
    | none =>
      rw [parserEnd_of_none found] at contentEnd
      exact List.length_eq_zero_iff.mp (by omega)
    | some marker =>
      have occurs := parserMarker_spec found
      have := bodyStart_le_marker occurs
      have := marker_lt_length occurs
      omega
  · rintro rfl
    exact ⟨rfl, rfl⟩

theorem showsParsed_thinking_some {close : Nat}
    (found : closing.findFrom text (bodyStart text) = some close) :
    ShowsParsed true hasTools text msg ↔ parserMarker text = none ∨ hasTools = true ∧
        markers.findFrom text (close + thinkClose.length) = parserMarker text := by
  have shows : shownReasoning true text = slice text (bodyStart text) close := by
    simp [shownReasoning, reasoningOf, found]
  have speaks : shownContent true hasTools text = slice text (close + thinkClose.length)
        (contentEnd hasTools text (close + thinkClose.length)) := by
    simp [shownContent, contentStart, found]
  have closeLe := close_end_le found
  unfold ShowsParsed
  rw [shows, speaks]
  cases marked : parserMarker text with
  | none =>
    have ends := parserEnd_of_none marked
    obtain ⟨reasoning, content⟩ := parsed_of_close parsed found (by omega)
    have free : markers.findFrom text (close + thinkClose.length) = none := by
      have none := parserMarker_eq_none_iff.mp marked
      rw [markers.findFrom_eq_none_iff] at none ⊢
      exact fun i _ => none i (Nat.zero_le _)
    rw [contentEnd_of_free fun _ => free, reasoning, content, ends]
    simp
  | some marker =>
    have occurs := parserMarker_spec marked
    rcases close_apart occurs found with before | behind
    · have endsBehind : close + thinkClose.length ≤ parserEnd text := by
        rw [parserEnd_of_marker marked]
        exact end_le_trim (by decide) (occursAt_close found) before
      obtain ⟨reasoning, content⟩ := parsed_of_close parsed found endsBehind
      rw [reasoning, content, slice_eq_iff (le_contentEnd closeLe) endsBehind
        contentEnd_le_length parserEnd_le_length]
      have same : trimToolSeparatorWs text (close + thinkClose.length) marker = parserEnd text := by
        rw [parserEnd_of_marker marked] at endsBehind ⊢
        exact trim_of_le_trim endsBehind
      rw [contentEnd_eq_parserEnd_iff marked before same]
      simp
    · have ends := parserEnd_of_marker marked
      have endLe : trimToolSeparatorWs text 0 marker ≤ marker := trimToolSeparatorWs_le
      have cut : ∀ other, closing.findFrom text (bodyStart text) = some other →
            parserEnd text < other + thinkClose.length := by
        intro other otherFound
        rw [found] at otherFound
        cases otherFound
        omega
      obtain ⟨reasoning, -⟩ := parsed_of_open parsed cut
      have bodyLe := bodyStart_le_marker occurs
      rw [reasoning]
      constructor
      · rintro ⟨noReasoning, -⟩
        have lengths := congrArg List.length noReasoning
        rw [length_slice (by omega), Option.getD_none, List.length_nil]
          at lengths
        omega
      · rintro (impossible | ⟨-, first⟩)
        · cases impossible
        · have := (markers.findFrom_eq_some_iff.mp first).1
          omega

theorem showsParsed_talking_none (unmarked : parserMarker text = none) :
    ShowsParsed false hasTools text msg ↔ closing.findFrom text (bodyStart text) = none := by
  have ends := parserEnd_of_none unmarked
  have free := parserMarker_eq_none_iff.mp unmarked
  have speaks : shownContent false hasTools text = slice text 0 text.length := by
    have whole : contentEnd hasTools text 0 = text.length := contentEnd_of_free fun _ => free
    rw [← whole]
    rfl
  unfold ShowsParsed
  rw [speaks]
  cases found : closing.findFrom text (bodyStart text) with
  | none =>
    obtain ⟨reasoning, content⟩ := parsed_of_open parsed (by simp [found])
    simp [reasoning, content, ends, shownReasoning]
  | some close =>
    have closeLe := close_end_le found
    obtain ⟨reasoning, content⟩ := parsed_of_close parsed found (by omega)
    simp only [reduceCtorEq, iff_false, not_and]
    intro _ same
    have lengths := congrArg List.length same
    have closeLength : thinkClose.length = 8 := rfl
    rw [content, length_slice (Nat.le_refl _), length_slice parserEnd_le_length]
      at lengths
    omega

theorem not_showsParsed_of_close {marker close : Nat} (marked : parserMarker text = some marker)
    (found : closing.findFrom text (bodyStart text) = some close)
    (before : close + thinkClose.length ≤ marker) : ¬ ShowsParsed false hasTools text msg := by
  have closeLength : thinkClose.length = 8 := rfl
  have occurs := parserMarker_spec marked
  have endsBehind : close + thinkClose.length ≤ parserEnd text := by
    rw [parserEnd_of_marker marked]
    exact end_le_trim (by decide) (occursAt_close found) before
  obtain ⟨reasoning, content⟩ := parsed_of_close parsed found endsBehind
  rintro ⟨noReasoning, same⟩
  have atBody : close = bodyStart text := by
    have bodyLe := (closing.findFrom_eq_some_iff.mp found).1
    have lengths := congrArg List.length noReasoning
    have closeLe := close_end_le found
    rw [reasoning, Option.getD_some, length_slice (by omega)] at lengths
    have : (shownReasoning false text).length = 0 := rfl
    omega
  have speaks : shownContent false hasTools text = slice text 0 (contentEnd hasTools text 0) := rfl
  rw [speaks, content] at same
  have lengths := congrArg List.length same
  rw [length_slice contentEnd_le_length, length_slice parserEnd_le_length]
    at lengths
  have parserLe : parserEnd text ≤ text.length := parserEnd_le_length
  cases hasTools with
  | false =>
    rw [contentEnd_of_free (by simp)] at lengths
    omega
  | true =>
    cases first : markers.findFrom text 0 with
    | none => exact markers.findFrom_eq_none_iff.mp first marker (Nat.zero_le _) occurs
    | some other =>
      rw [contentEnd_of_marker first] at same lengths
      obtain ⟨-, ⟨pat, mem, occursOther⟩, least⟩ := markers.findFrom_eq_some_iff.mp first
      have tag := markers.isTag pat mem
      have keptLe : trimToolSeparatorWs text 0 other ≤ other := trimToolSeparatorWs_le
      have lt : other < marker := by
        rcases Nat.lt_trichotomy other marker with lt | rfl | lt
        · exact lt
        · rw [← parserEnd_of_marker marked] at lengths
          omega
        · exact (least marker (Nat.zero_le _) lt occurs).elim
      have behind : close + thinkClose.length ≤ other := by
        have occursMarker : markers.At text other := ⟨pat, mem, occursOther⟩
        have bodyLe := bodyStart_le_marker occursMarker
        rcases close_apart occursMarker found with behind | ahead
        · exact behind
        · omega
      -- the earlier marker is inside the parser's content, but the stream's
      -- content ends in front of it
      obtain ⟨parserPattern, parserMember, occursParser⟩ := occurs
      have complete := tag.end_le_of_lt
        (markers.isTag parserPattern parserMember) occursOther occursParser lt
      have inside : other + pat.length ≤ parserEnd text := by
        rw [parserEnd_of_marker marked]
        exact end_le_trim (mem_visibleTags_of_marker mem).1 occursOther complete
      have inContent : ListSearch.OccursAt pat
          (slice text (close + thinkClose.length) (parserEnd text))
          (other - (close + thinkClose.length)) := by
        rw [occursAt_slice tag.ne_nil, Nat.add_sub_cancel' behind]
        exact ⟨occursOther, by omega⟩
      rw [← same, occursAt_slice tag.ne_nil, Nat.zero_add] at inContent
      exact least _ (Nat.zero_le _) (by omega)
        ⟨pat, mem, inContent.1⟩

theorem showsParsed_talking_some {marker : Nat} (marked : parserMarker text = some marker) :
    ShowsParsed false hasTools text msg ↔ hasTools = true ∧ markers.findFrom text 0 = some marker ∧
        ∀ close, closing.findFrom text (bodyStart text) = some close → marker < close := by
  have occurs := parserMarker_spec marked
  by_cases early : ∃ close, closing.findFrom text (bodyStart text) = some close ∧
        close + thinkClose.length ≤ marker
  · obtain ⟨close, found, before⟩ := early
    refine iff_of_false (not_showsParsed_of_close parsed marked found before) ?_
    rintro ⟨-, -, later⟩
    have := later close found
    omega
  · have later : ∀ close, closing.findFrom text (bodyStart text) = some close → marker < close := by
      intro close found
      rcases close_apart occurs found with before | behind
      · exact (early ⟨close, found, before⟩).elim
      · exact behind
    have ends := parserEnd_of_marker marked
    have endLe : trimToolSeparatorWs text 0 marker ≤ marker := trimToolSeparatorWs_le
    obtain ⟨reasoning, content⟩ := parsed_of_open parsed fun close found => by
      have := later close found
      omega
    have speaks : shownContent false hasTools text =
        slice text 0 (contentEnd hasTools text 0) := rfl
    have silent : shownReasoning false text = msg.reasoning.getD [] := by
      rw [reasoning]
      rfl
    unfold ShowsParsed
    rw [speaks, content, slice_eq_iff (Nat.zero_le _) (Nat.zero_le _)
      contentEnd_le_length parserEnd_le_length,
      contentEnd_eq_parserEnd_iff marked (Nat.zero_le _) ends.symm]
    exact ⟨fun same => ⟨same.2.1, same.2.2, later⟩,
      fun same => ⟨silent, same.1, same.2.1⟩⟩

theorem showsParsed_iff {think : Bool} :
    ShowsParsed think hasTools text msg ↔ SameParts think hasTools text := by
  unfold SameParts
  cases think with
  | true =>
    rw [if_pos rfl]
    cases found : closing.findFrom text (bodyStart text) with
    | none => simp [showsParsed_thinking_none parsed found]
    | some close =>
      have ne : text ≠ [] := by
        rintro rfl
        cases found
      simp [showsParsed_thinking_some parsed found, ne]
  | false =>
    rw [if_neg (by simp)]
    cases marked : parserMarker text with
    | none => exact showsParsed_talking_none parsed marked
    | some marker => exact showsParsed_talking_some parsed marked

end Agreement

end StreamText

section Streams

open Dsml StreamText

/-- Both streams show the reasoning and the content that the parser returns
exactly when stream and parser see the same parts of the text. -/
theorem streams_show_parsed_iff (toolIds : Nat → Bytes) (request : Request) {updates : List Bytes}
    {text : Bytes} {message : Message} (nulFree : NulFree text) (chain : Chain updates text)
    (parsed : parseGeneratedMessage text = some message) :
    ((Openai.reasoningText (Openai.run toolIds request updates text).events =
          message.reasoning.getD [] ∧
        Openai.contentText (Openai.run toolIds request updates text).events = message.content) ↔
      SameParts request.think request.hasTools text) ∧
    ((∃ live, Anthropic.streamText request updates text
          (Anthropic.anthropicSseStartLive request) = .ok ⟨⟩ live ∧
        Anthropic.blockText .thinking live.events = message.reasoning.getD [] ∧
        Anthropic.blockText .text live.events = message.content) ↔
      SameParts request.think request.hasTools text) := by
  have prefixes : ∀ raw ∈ updates, raw <+: text := fun _ => chain.begins
  constructor
  · obtain ⟨reasoning, content⟩ := Openai.run_texts toolIds request nulFree prefixes
    rw [reasoning, content]
    exact showsParsed_iff parsed
  · obtain ⟨live, events, ran, eventsEq, blocks⟩ :=
      Anthropic.streamText_blocks request nulFree prefixes
    obtain ⟨thinking, content⟩ := Anthropic.blockText_textBlocks blocks
    have start (kind) : Anthropic.blockText kind live.events = Anthropic.blockText kind events := by
      rw [eventsEq]
      rfl
    rw [← showsParsed_iff parsed]
    constructor
    · rintro ⟨other, otherRan, sameReasoning, sameContent⟩
      rw [ran] at otherRan
      cases otherRan
      rw [start, thinking] at sameReasoning
      rw [start, content] at sameContent
      exact ⟨sameReasoning, sameContent⟩
    · rintro ⟨sameReasoning, sameContent⟩
      refine ⟨live, ran, ?_, ?_⟩
      · rw [start, thinking, sameReasoning]
      · rw [start, content, sameContent]

/-- A text with reasoning, content and no marker, in two pieces. -/
theorem streams_show_parsed_iff_short : NulFree (utf8 "a</think>b") ∧
      Chain [utf8 "a</"] (utf8 "a</think>b") ∧
      parseGeneratedMessage (utf8 "a</think>b") =
        some ⟨utf8 "b", some (utf8 "a"), [], none⟩ ∧
      SameParts true true (utf8 "a</think>b") ∧
      Openai.contentText (Openai.run (fun _ => []) ⟨true, true, []⟩
        [utf8 "a</"] (utf8 "a</think>b")).events = utf8 "b" := by
  have nulFree : NulFree (utf8 "a</think>b") := by decide
  have chain : Chain [utf8 "a</"] (utf8 "a</think>b") := by
    unfold Chain
    decide
  have parsed : parseGeneratedMessage (utf8 "a</think>b") =
      some ⟨utf8 "b", some (utf8 "a"), [], none⟩ := by decide
  have same : SameParts true true (utf8 "a</think>b") := by
    refine Or.inr ⟨1, ?_, Or.inl ?_⟩ <;> decide
  have shows := (streams_show_parsed_iff (fun _ => []) ⟨true, true, []⟩ nulFree
    chain parsed).1.mpr same
  exact ⟨nulFree, chain, parsed, same, shows.2⟩

/-- A text that stops while it reasons: the stream shows it as reasoning, and the
parser returns it as content. -/
theorem streams_show_parsed_unclosed :
    parseGeneratedMessage (utf8 "so") = some ⟨utf8 "so", none, [], none⟩ ∧
      Chain [] (utf8 "so") ∧ NulFree (utf8 "so") ∧
      Openai.reasoningText (Openai.run (fun _ => []) ⟨true, true, []⟩ []
        (utf8 "so")).events = utf8 "so" ∧
      Openai.contentText (Openai.run (fun _ => []) ⟨true, true, []⟩ []
        (utf8 "so")).events = [] := by
  refine ⟨by decide, ?_, by decide, by decide, by decide⟩
  unfold Chain
  decide

end Streams

end LnaLang
