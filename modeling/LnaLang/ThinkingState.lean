import LnaLang.CString

/-!
# The thinking tags of the sampled text

The decode loop follows the thinking tags by the last eight bytes, which is enough to see
every tag when its last byte arrives, however the text is cut into pieces.
-/

namespace LnaLang

open List

/-- `thinking_state`. -/
structure ThinkingState where
  inside : Bool
  tail : Bytes := []
  deriving DecidableEq, Repr

namespace ThinkingState

/-- `thinking_tail_ends_with`. -/
def tailEndsWith (tail mark : Bytes) : Bool :=
  mark.isSuffixOf tail

/-- One round of the loop of `thinking_state_feed`; the tail has room for eight bytes. -/
def feedByte (state : ThinkingState) (byte : UInt8) : ThinkingState :=
  let tail := (if state.tail.length = 8 then state.tail.drop 1 else state.tail) ++ [byte]
  { tail
    inside :=
      if tailEndsWith tail (utf8 "<think>") then true
      else if tailEndsWith tail (utf8 "</think>") then false
      else state.inside }

/-- `thinking_state_feed`. -/
def feed (state : ThinkingState) (piece : Bytes) : ThinkingState :=
  piece.foldl feedByte state

/-- An occurrence of a tag ends at a position of the text. -/
def EndsAt (mark text : Bytes) (stop : Nat) : Prop :=
  stop ≤ text.length ∧ mark <:+ text.take stop

/-- Of all tags the last to end is an opening one, or there is none and the text starts
inside. -/
def Inside (initial : Bool) (text : Bytes) : Prop :=
  (∃ stop, EndsAt (utf8 "<think>") text stop ∧ ∀ other,
    EndsAt (utf8 "<think>") text other ∨ EndsAt (utf8 "</think>") text other → other ≤ stop) ∨
  initial = true ∧ ∀ stop,
    ¬ EndsAt (utf8 "<think>") text stop ∧ ¬ EndsAt (utf8 "</think>") text stop

variable {mark text : Bytes} {byte : UInt8} {initial : Bool}

theorem endsAt_concat (stop : Nat) : EndsAt mark (text ++ [byte]) stop ↔
    EndsAt mark text stop ∨ stop = text.length + 1 ∧ mark <:+ text ++ [byte] := by
  unfold EndsAt
  rw [length_append, length_singleton]
  rcases Nat.lt_or_ge text.length stop with beyond | within
  · rw [take_of_length_le (by simpa using Nat.succ_le_of_lt beyond)]
    constructor
    · rintro ⟨le, ends⟩
      exact .inr ⟨by omega, ends⟩
    · rintro (⟨le, _⟩ | ⟨rfl, ends⟩)
      · omega
      · exact ⟨Nat.le_refl _, ends⟩
  · rw [take_append_of_le_length within]
    constructor
    · rintro ⟨_, ends⟩
      exact .inl ⟨within, ends⟩
    · rintro (⟨_, ends⟩ | ⟨rfl, _⟩)
      · exact ⟨by omega, ends⟩
      · omega

/-- A text that ends with an opening tag leaves the reader inside, one that ends with a
closing tag outside, and any other byte changes nothing. -/
theorem inside_concat : Inside initial (text ++ [byte]) ↔ utf8 "<think>" <:+ text ++ [byte] ∨
      ¬ utf8 "</think>" <:+ text ++ [byte] ∧ Inside initial text := by
  unfold Inside
  simp only [endsAt_concat]
  by_cases opens : utf8 "<think>" <:+ text ++ [byte]
  · simp only [opens, true_or, iff_true]
    refine .inl ⟨text.length + 1, .inr ⟨rfl, trivial⟩, ?_⟩
    rintro other ((⟨le, _⟩ | ⟨rfl, _⟩) | (⟨le, _⟩ | ⟨rfl, _⟩)) <;> omega
  by_cases closes : utf8 "</think>" <:+ text ++ [byte]
  · simp only [opens, closes, and_false, or_false, not_true, false_and, iff_false]
    rintro (⟨stop, ⟨le, _⟩, last⟩ | ⟨_, noTag⟩)
    · have := last (text.length + 1) (.inr (.inr ⟨rfl, trivial⟩))
      omega
    · exact (noTag (text.length + 1)).2 (.inr ⟨rfl, trivial⟩)
  · simp [opens, closes]

/-- The last eight bytes of a text. -/
def lastEight (text : Bytes) : Bytes :=
  text.drop (text.length - 8)

theorem suffix_lastEight (short : mark.length ≤ 8) : mark <:+ lastEight text ↔ mark <:+ text := by
  constructor
  · exact fun ends => ends.trans (drop_suffix _ _)
  · intro ends
    apply suffix_of_suffix_length_le ends (drop_suffix _ _)
    have := ends.length_le
    rw [length_drop]
    omega

theorem feed_inside (initial : Bool) (text : Bytes) :
    (feed ⟨initial, []⟩ text).tail = lastEight text ∧
      ((feed ⟨initial, []⟩ text).inside = true ↔ Inside initial text) := by
  induction text using reverseRecOn with
  | nil => simp [feed, lastEight, Inside, EndsAt, utf8]
  | append_singleton text byte ih =>
    obtain ⟨tail, inside⟩ := ih
    unfold feed at *
    rw [foldl_concat]
    generalize text.foldl feedByte ⟨initial, []⟩ = state at *
    have moved : (if state.tail.length = 8 then state.tail.drop 1 else state.tail) ++ [byte] =
        lastEight (text ++ [byte]) := by
      rw [tail]
      unfold lastEight
      rw [length_drop, length_append, length_singleton, drop_append_of_le_length (by omega)]
      split
      · rw [drop_drop]
        congr 2
        omega
      · congr 2
        omega
    refine ⟨moved, ?_⟩
    rw [inside_concat, ← inside]
    have opens := @suffix_lastEight (utf8 "<think>") (text ++ [byte]) (by decide)
    have closes := @suffix_lastEight (utf8 "</think>") (text ++ [byte]) (by decide)
    simp only [feedByte, moved, tailEndsWith, isSuffixOf_iff_suffix, opens, closes]
    split <;> simp [*]

/-- However the text is cut, the state says which thinking tag ended last. -/
theorem feeds_inside_iff (initial : Bool) (pieces : List Bytes) :
    (pieces.foldl feed ⟨initial, []⟩).inside = true ↔ Inside initial pieces.flatten := by
  have whole : pieces.foldl feed ⟨initial, []⟩ = feed ⟨initial, []⟩ pieces.flatten := by
    rw [feed, foldl_flatten]
    rfl
  rw [whole]
  exact (feed_inside initial pieces.flatten).2

end ThinkingState

end LnaLang
