import LnaLang.ToolMap

/-!
# The blocks that the scanner finds

`find_next_dsml_tool_block` takes the earliest start of any form and the first end tag
behind it.  The parser takes the start by an order of the forms and ends where the calls
end.  Both see the same block when the scanner gets to its start, and when its end tag
does not stand inside of it.
-/

namespace LnaLang.Chat

open Dsml ListSearch TagSearch

section Scanning

variable {text : Bytes}

/-- A block of a style that starts at a place ends behind the first end tag. -/
def EndsAt (style : Style) (text : Bytes) (start stop : Nat) : Prop :=
  ∃ offset, find style.tags.toolCallsEnd (text.drop start) = some offset ∧
    stop = start + offset + style.tags.toolCallsEnd.length

def formStart (form : Style × Bytes) : Bytes :=
  form.2 ++ form.1.tags.toolCallsStart

/-- A block of one of some forms: its start tag, and the first end tag behind it. -/
def BlockOf (forms : List (Style × Bytes)) (text : Bytes) (start stop : Nat) : Prop :=
  ∃ form ∈ forms, OccursAt (formStart form) text start ∧ EndsAt form.1 text start stop

def FirstBlock (forms : List (Style × Bytes)) (text : Bytes) :
    Option (Nat × Nat) → Prop
  | none => ∀ start stop, ¬ BlockOf forms text start stop
  | some (start, stop) => BlockOf forms text start stop ∧
      ∀ other behind, BlockOf forms text other behind → start ≤ other

variable {start stop : Nat}

theorem endsAt_of_le {style : Style} {later : Nat} (le : start ≤ later)
    (ends : EndsAt style text later stop) : ∃ earlier, EndsAt style text start earlier := by
  obtain ⟨off, found, -⟩ := ends
  have occurs : OccursAt style.tags.toolCallsEnd (text.drop start) (later - start + off) := by
    have inLater : style.tags.toolCallsEnd <+: (text.drop later).drop off := occursAt_of_find found
    unfold OccursAt
    rwa [List.drop_drop, show start + (later - start + off) = later + off by omega,
      ← List.drop_drop]
  have ne : style.tags.toolCallsEnd ≠ [] := by cases style <;> decide
  have first := isFirst_find (text.drop start) ne
  cases search : find style.tags.toolCallsEnd (text.drop start) with
  | none =>
    rw [search] at first
    exact (first _ occurs).elim
  | some earlier => exact ⟨_, earlier, search, rfl⟩

theorem FirstBlock.step {forms : List (Style × Bytes)} {best : Option (Nat × Nat)}
    (isFirst : FirstBlock forms text best) (form : Style × Bytes) :
    FirstBlock (forms ++ [form]) text (earlierBlock text best form) := by
  have ne : formStart form ≠ [] := by
    unfold formStart
    cases form.1 <;> simp [Style.tags, utf8]
  have blocks {start stop : Nat} : BlockOf (forms ++ [form]) text start stop ↔
      BlockOf forms text start stop ∨
        OccursAt (formStart form) text start ∧ EndsAt form.1 text start stop := by
    simp [BlockOf, or_and_right, exists_or]
  have search := isFirst_find text ne
  have sameSearch : strstr text (form.2 ++ form.1.tags.toolCallsStart) =
      find (formStart form) text := rfl
  rw [earlierBlock, sameSearch]
  -- A round that keeps the best block so far, because the form adds no earlier one.
  have keeps (late : ∀ start stop, OccursAt (formStart form) text start →
      EndsAt form.1 text start stop → ∃ block, best = some block ∧ block.1 ≤ start) :
      FirstBlock (forms ++ [form]) text best := by
    cases best with
    | none =>
      intro start stop block
      rcases blocks.mp block with old | ⟨occurs, ends⟩
      · exact isFirst start stop old
      · obtain ⟨_, impossible, _⟩ := late start stop occurs ends
        cases impossible
    | some best =>
      refine ⟨blocks.mpr (Or.inl isFirst.1), fun other behind block => ?_⟩
      rcases blocks.mp block with old | ⟨occurs, ends⟩
      · exact isFirst.2 other behind old
      · obtain ⟨_, same, le⟩ := late other behind occurs ends
        cases same
        exact le
  cases found : find (formStart form) text with
  | none =>
    rw [found] at search
    exact keeps fun start _ occurs _ => (search start occurs).elim
  | some start =>
    rw [found] at search
    have least {other : Nat} (occurs : OccursAt (formStart form) text other) : start ≤ other := by
      by_contra before
      exact search.2 other (by omega) occurs
    dsimp only
    split
    next early =>
      obtain ⟨block, isBest, le⟩ : ∃ block, best = some block ∧ block.1 ≤ start := by
        simpa [Option.any_eq_true] using early
      exact keeps fun other _ occurs _ => ⟨block, isBest, le.trans (least occurs)⟩
    next notEarly =>
      cases ended : strstr (text.drop start) form.1.tags.toolCallsEnd with
      | none =>
        refine keeps fun other stop occurs ends => ?_
        obtain ⟨_, off, isEnd, _⟩ := endsAt_of_le (least occurs) ends
        have impossible : some off = none := isEnd.symm.trans ended
        cases impossible
      | some off =>
        refine ⟨blocks.mpr (Or.inr ⟨search.1, off, ended, rfl⟩), fun other behind block => ?_⟩
        rcases blocks.mp block with old | ⟨occurs, _⟩
        · cases best with
          | none => exact (isFirst other behind old).elim
          | some best =>
            have le := isFirst.2 other behind old
            simp only [Option.any_some, decide_eq_true_eq] at notEarly
            omega
        · exact least occurs

theorem FirstBlock.foldl {forms rest : List (Style × Bytes)} {best : Option (Nat × Nat)}
    (isFirst : FirstBlock forms text best) :
    FirstBlock (forms ++ rest) text (rest.foldl (earlierBlock text) best) := by
  induction rest generalizing forms best with
  | nil =>
    rw [List.append_nil]
    exact isFirst
  | cons form rest ih =>
    have step := ih (isFirst.step form)
    rw [List.append_assoc] at step
    exact step

def BlockAt (text : Bytes) (start stop : Nat) : Prop :=
  BlockOf startOrder text start stop

theorem firstBlock_findNext (text : Bytes) :
    FirstBlock startOrder text (findNextDsmlToolBlock text) := by
  have none : FirstBlock [] text none := by
    rintro start stop ⟨form, mem, -⟩
    cases mem
  exact none.foldl

theorem blockAt_drop {pos : Nat} : BlockAt (text.drop pos) start stop ↔
      BlockAt text (pos + start) (pos + stop) := by
  unfold BlockAt BlockOf EndsAt OccursAt
  simp only [List.drop_drop, Nat.add_assoc, Nat.add_left_cancel_iff]

theorem style_of_forms {form other : Style × Bytes} (mem : form ∈ startOrder)
    (otherMember : other ∈ startOrder) (occurs : OccursAt (formStart form) text start)
    (otherOccurs : OccursAt (formStart other) text start) : form.1 = other.1 := by
  have comparable : ∀ first ∈ startOrder, ∀ second ∈ startOrder,
      formStart first <+: formStart second → first.1 = second.1 := by decide
  rcases List.prefix_or_prefix_of_prefix occurs otherOccurs with shorter | longer
  · exact comparable form mem other otherMember shorter
  · exact (comparable other otherMember form mem longer).symm

theorem BlockAt.stop_eq {other : Nat} (block : BlockAt text start stop)
    (again : BlockAt text start other) : stop = other := by
  obtain ⟨form, mem, occurs, off, found, rfl⟩ := block
  obtain ⟨form', member', occurs', offset', found', rfl⟩ := again
  have same := style_of_forms mem member' occurs occurs'
  rw [same] at found ⊢
  obtain rfl := Option.some.inj (found.symm.trans found')
  rfl

/-- From a position up to a place the text consists of complete blocks, and of parts in
which no block starts. -/
inductive Clear (text : Bytes) (place : Nat) : Nat → Prop
  | free {position : Nat} (le : position ≤ place)
      (free : ∀ start stop, position ≤ start → start < place →
        ¬ BlockAt text start stop) : Clear text place position
  | block {position start stop : Nat} (le : position ≤ start)
      (block : BlockAt text start stop)
      (first : ∀ other behind, position ≤ other → BlockAt text other behind →
        start ≤ other)
      (rest : Clear text place stop) : Clear text place position

theorem BlockAt.lt (block : BlockAt text start stop) : start < stop := by
  obtain ⟨form, -, -, off, -, rfl⟩ := block
  have pos : 0 < form.1.tags.toolCallsEnd.length := by cases form.1 <;> decide
  omega

theorem Clear.le {place pos : Nat} (clear : Clear text place pos) : pos ≤ place := by
  induction clear with
  | free le => exact le
  | block le block _ _ ih => exact le.trans (block.lt.le.trans ih)

theorem mem_toolBlocks {block : Bytes} :
    block ∈ toolBlocks text ↔ ∃ start stop, Clear text start 0 ∧
      BlockAt text start stop ∧ block = (text.drop start).take (stop - start) := by
  have scan := blockLoop.run_induction
    (fun state result => ∀ pos, state.2 = text.drop pos → ∀ block,
      block ∈ result ↔ block ∈ state.1 ∨ ∃ start stop, Clear text start pos ∧
        BlockAt text start stop ∧ block = (text.drop start).take (stop - start))
    ?_ ?_ ([], text) 0 rfl block
  · rw [toolBlocks, scan]
    simp
  · rintro ⟨blocks, rest⟩ result halted pos rfl block
    have first := firstBlock_findNext (text.drop pos)
    simp only [blockLoop] at halted
    split at halted
    next missing =>
      cases halted
      rw [missing] at first
      refine ⟨Or.inl, ?_⟩
      rintro (old | ⟨start, stop, clear, isBlock, -⟩)
      · exact old
      · obtain ⟨off, rfl⟩ := Nat.exists_eq_add_of_le clear.le
        have lt := isBlock.lt
        obtain ⟨length, rfl⟩ := Nat.exists_eq_add_of_le (show pos ≤ stop by omega)
        exact (first off length (blockAt_drop.mpr isBlock)).elim
    · cases halted
  · rintro ⟨blocks, rest⟩ following step later pos rfl block
    have first := firstBlock_findNext (text.drop pos)
    simp only [blockLoop] at step
    split at step
    · cases step
    next start stop found =>
      cases step
      rw [found] at first
      have here : BlockAt text (pos + start) (pos + stop) := blockAt_drop.mp first.1
      have least : ∀ other behind, pos ≤ other → BlockAt text other behind →
          pos + start ≤ other := by
        intro other behind le isBlock
        obtain ⟨off, rfl⟩ := Nat.exists_eq_add_of_le le
        have lt := isBlock.lt
        obtain ⟨length, rfl⟩ := Nat.exists_eq_add_of_le (show pos ≤ behind by omega)
        have bound := first.2 off length (blockAt_drop.mpr isBlock)
        omega
      rw [later (pos + stop) (by simp [List.drop_drop]) block]
      dsimp only
      rw [List.mem_append, List.mem_singleton, List.drop_drop, or_assoc]
      apply or_congr Iff.rfl
      constructor
      · rintro (rfl | ⟨other, behind, clear, isBlock, rfl⟩)
        · refine ⟨pos + start, pos + stop, .free (Nat.le_add_right _ _) ?_, here,
            by rw [Nat.add_sub_add_left]⟩
          intro other behind le lt isBlock
          have bound := least other behind le isBlock
          omega
        · exact ⟨other, behind, .block (Nat.le_add_right _ _) here least clear, isBlock, rfl⟩
      · rintro ⟨other, behind, clear, isBlock, rfl⟩
        cases clear with
        | free le free =>
          have bound := least other behind le isBlock
          have same : other = pos + start := by
            by_contra ne
            exact free _ _ (Nat.le_add_right _ _) (by omega) here
          subst same
          obtain rfl := isBlock.stop_eq here
          left
          rw [Nat.add_sub_add_left]
        | @block _ next nextStop le nextBlock nextFirst rest =>
          have same : next = pos + start :=
            Nat.le_antisymm (nextFirst _ _ (Nat.le_add_right _ _) here) (least _ _ le nextBlock)
          subst same
          obtain rfl := nextBlock.stop_eq here
          exact Or.inr ⟨other, behind, rest, isBlock, rfl⟩

end Scanning

section Parsing

variable {tags : Tags} {text rest : Bytes}

theorem isSuffix_invokeLoop {calls done : List ToolCall}
    (read : (invokeLoop tags).run (done, text) = some (calls, rest)) :
    tags.toolCallsEnd ++ rest <:+ text := by
  refine (invokeLoop tags).run_induction
    (fun state result => ∀ calls rest, result = some (calls, rest) →
      tags.toolCallsEnd ++ rest <:+ state.2) ?_ ?_ (done, text) calls rest read
  · rintro ⟨done, text⟩ result halted calls rest rfl
    simp only [invokeLoop] at halted
    split at halted
    next ends =>
      cases halted
      obtain ⟨behind, same⟩ := startsWith_iff.mp ends
      rw [← same, List.drop_left' rfl, same]
      exact suffix_skipAsciiWs text
    · split at halted <;> cases halted
  · rintro ⟨done, text⟩ following step later calls rest read
    simp only [invokeLoop] at step
    split at step
    · cases step
    split at step
    · cases step
    next callRead =>
      cases step
      exact (later calls rest read).trans
        ((behind_parseInvoke tags callRead).1.trans (suffix_skipAsciiWs text))

theorem parse_block {msg : Message} {style : Style} {start : Nat} {raw : Bytes}
    (parsed : parseGeneratedMessage text = some msg)
    (found : findBlockStart text = some (style, start)) (recorded : msg.rawDsml = some raw) :
    (∃ form ∈ startOrder, form.1 = style ∧ OccursAt (formStart form) text start) ∧
      raw <+: text.drop start ∧ style.tags.toolCallsEnd <:+ raw := by
  rw [parseGeneratedMessage, found] at parsed
  obtain ⟨⟨calls, rest⟩, read, rfl⟩ := Option.map_eq_some_iff.mp parsed
  cases recorded
  constructor
  · obtain ⟨form, mem, startFound⟩ := List.exists_of_findSome?_eq_some found
    obtain ⟨_, occurs, same⟩ := Option.map_eq_some_iff.mp startFound
    cases same
    exact ⟨form, mem, rfl, occursAt_of_find occurs⟩
  · refine ⟨List.take_prefix _ _, ?_⟩
    unfold parseBlock at read
    split at read
    · cases read
    next pos _ =>
      obtain ⟨front, same⟩ := (isSuffix_invokeLoop read).trans (List.drop_suffix _ _)
      rw [Json.consumed, ← same, ← List.append_assoc, List.length_append,
        Nat.add_sub_cancel, List.take_left' rfl]
      exact List.suffix_append _ _

end Parsing

section Agreement

/-- The end tag of a block stands only at its end. -/
def EndsOnce (style : Style) (raw : Bytes) : Prop :=
  ∀ place, OccursAt style.tags.toolCallsEnd raw place →
    raw.length ≤ place + style.tags.toolCallsEnd.length

variable {text : Bytes}

theorem endsAt_iff_endsOnce {style : Style} {raw : Bytes} {start : Nat}
    (pre : raw <+: text.drop start) (ends : style.tags.toolCallsEnd <:+ raw) :
    EndsAt style text start (start + raw.length) ↔ EndsOnce style raw := by
  have ne : style.tags.toolCallsEnd ≠ [] := by cases style <;> decide
  have first := isFirst_find (text.drop start) ne
  have lengthLe := ends.length_le
  have inside {place : Nat} : OccursAt style.tags.toolCallsEnd raw place ↔
      OccursAt style.tags.toolCallsEnd (text.drop start) place ∧
        place + style.tags.toolCallsEnd.length ≤ raw.length := by
    conv_lhs => rw [List.prefix_iff_eq_take.mp pre]
    exact occursAt_take_iff ne
  have last : OccursAt style.tags.toolCallsEnd raw
      (raw.length - style.tags.toolCallsEnd.length) := by
    unfold OccursAt
    rw [← List.suffix_iff_eq_drop.mp ends]
  constructor
  · rintro ⟨off, found, same⟩ place occurs
    rw [found] at first
    by_contra early
    exact first.2 place (by omega) (inside.mp occurs).1
  · intro once
    refine ⟨raw.length - style.tags.toolCallsEnd.length, ?_, by omega⟩
    apply first.eq_some (inside.mp last).1
    intro before lt occurs
    have late := once before (inside.mpr ⟨occurs, by omega⟩)
    omega

/-- The block that the parser records is one of those that the scanner finds when the
scanner gets to its start and its end tag stands only at its end; and only then, if its
text stands nowhere else. -/
theorem rawDsml_mem_toolBlocks (text : Bytes) (message : Message) (style : Style) (start : Nat)
    (raw : Bytes) (parsed : parseGeneratedMessage text = some message)
    (found : findBlockStart text = some (style, start)) (recorded : message.rawDsml = some raw) :
    (Clear text start 0 ∧ EndsOnce style raw → raw ∈ toolBlocks text) ∧
      ((∀ place, OccursAt raw text place → place = start) → raw ∈ toolBlocks text →
        Clear text start 0 ∧ EndsOnce style raw) := by
  obtain ⟨⟨form, member, rfl, occurs⟩, isPrefix, ends⟩ := parse_block parsed found recorded
  have endsIff := endsAt_iff_endsOnce isPrefix ends
  have rawEq : raw = (text.drop start).take raw.length := List.prefix_iff_eq_take.mp isPrefix
  rw [mem_toolBlocks]
  constructor
  · rintro ⟨clear, once⟩
    refine ⟨start, start + raw.length, clear, ⟨form, member, occurs, endsIff.mpr once⟩, ?_⟩
    rw [Nat.add_sub_cancel_left]
    exact rawEq
  · rintro only ⟨place, stop, clear, block, same⟩
    have here : OccursAt raw text place := by
      rw [same]
      exact List.take_prefix _ _
    obtain rfl := only place here
    refine ⟨clear, endsIff.mp ?_⟩
    obtain ⟨other, otherMember, otherOccurs, stops⟩ := block
    rw [style_of_forms member otherMember occurs otherOccurs]
    have lengthEq : place + raw.length = stop := by
      obtain ⟨offset, stopFound, rfl⟩ := stops
      have bound := find_end_le stopFound
      rw [same, List.length_take]
      omega
    rw [lengthEq]
    exact stops

/-- A block with the blank line in front of it. -/
def saidBlock : Bytes :=
  utf8 ("\n\n<tool_calls><invoke name=\"f\"><parameter name=\"x\" string=\"true\">" ++
    "</tool></parameter></invoke></tool_calls>")

theorem rawDsml_mem_toolBlocks_saidBlock :
    saidBlock ∈ toolBlocks (utf8 "Hi <tool" ++ saidBlock) := by
  refine (rawDsml_mem_toolBlocks (utf8 "Hi <tool" ++ saidBlock) ⟨utf8 "Hi <tool", none,
      [⟨utf8 "f", utf8 "\x7b\"x\": \"</tool>\"\x7d"⟩], some saidBlock⟩ .plain 8 saidBlock
    (by decide +kernel) (by decide +kernel) rfl).1 ⟨.free (Nat.zero_le _) ?_, ?_⟩
  · rintro start stop - lt ⟨form, member, occurs, -⟩
    have unseen : ∀ form ∈ startOrder, ∀ start < 8,
        ¬ OccursAt (formStart form) (utf8 "Hi <tool" ++ saidBlock) start := by decide +kernel
    exact unseen form member start lt occurs
  · have isPrefix : saidBlock <+: (utf8 "Hi <tool" ++ saidBlock).drop 8 := List.prefix_rfl
    have ends : Style.plain.tags.toolCallsEnd <:+ saidBlock := by decide +kernel
    exact (endsAt_iff_endsOnce isPrefix ends).mp ⟨93, by decide +kernel, by decide +kernel⟩

/-- A call whose value holds the end tag of the block. -/
def nestedEnd : Bytes :=
  utf8 ("<tool_calls><invoke name=\"f\"><parameter name=\"x\" string=\"true\">" ++
    "</tool_calls></parameter></invoke></tool_calls>")

/-- What the parser makes of it. -/
def nestedEndMessage : Message where
  content := []
  reasoning := none
  calls := [⟨utf8 "f", utf8 "\x7b\"x\": \"</tool_calls>\"\x7d"⟩]
  rawDsml := some nestedEnd

/-- The block is recorded whole, and found only up to the end tag in the value. -/
theorem rawDsml_not_mem_toolBlocks : parseGeneratedMessage nestedEnd = some nestedEndMessage ∧
      nestedEndMessage.calls ≠ [] ∧ nestedEnd ∉ toolBlocks nestedEnd := by
  refine ⟨by decide +kernel, by decide, by decide +kernel⟩

end Agreement

end LnaLang.Chat
