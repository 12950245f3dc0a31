import Mathlib.Data.List.DropRight
import Mathlib.Data.Nat.ModEq

/-!
# The streaming compressor

Every token writes one row of the rolling state of a compressed layer.  When a window
of `ratio` tokens is complete, the state is pooled into one row.  With a ratio of four
the state has two halves, the window before and the current one, and the second half
becomes the first.  Rows of an earlier window stay where they are until they are
overwritten; none of them is pooled.

A state row stands for its key-value and score lanes.  Pooling, norm and rope are one
function of the rows and the position, which is left open.
-/

namespace LnaLang.Compressor

open List

variable {Row Out : Type*}

def windowStart (ratio : Nat) : Nat :=
  if ratio = 4 then ratio else 0

/-- The rolling state of `kv_cache_init`: `coff * ratio` rows. -/
def initialState (blank : Row) (ratio : Nat) : List Row :=
  List.replicate ((if ratio = 4 then 2 else 1) * ratio) blank

def stateRow (ratio pos : Nat) : Nat :=
  if ratio = 4 then ratio + pos % ratio else pos % ratio

/-- A loop over `count` rows that copies row `source + r` to row `target + r`. -/
def copyRows (target source : Nat) : Nat → List Row → List Row
  | 0, rows => rows
  | count + 1, rows =>
    let rows := copyRows target source count rows
    match rows[source + count]? with
    | some row => rows.set (target + count) row
    | none => rows

/-- The end of `compressor_decode_one` for a ratio of four: the second half is copied to
the first, and back. -/
def rollState (ratio : Nat) (rows : List Row) : List Row :=
  if ratio = 4 then copyRows ratio 0 ratio (copyRows 0 ratio ratio rows) else rows

/-- `compressor_decode_one`, behind the projections. -/
def compressorDecodeOne (pool : List Row → Nat → Out) (ratio pos : Nat) (row : Row)
    (rows : List Row) : List Row × List Out :=
  let rows := rows.set (stateRow ratio pos) row
  if (pos + 1) % ratio = 0 then (rollState ratio rows, [pool rows (pos + 1 - ratio)])
  else (rows, [])

/-- The tokens from a position on, one after the other. -/
def decodeAll (pool : List Row → Nat → Out) (ratio : Nat) :
    Nat → List Row → List Row → List Row × List Out
  | _, [], rows => (rows, [])
  | pos, row :: later, rows =>
    let (rows, out) := compressorDecodeOne pool ratio pos row rows
    let (rows, outs) := decodeAll pool ratio (pos + 1) later rows
    (rows, out ++ outs)

/-- The loop of `compressor_finish_prefill_state_cpu`. -/
def clearRows (blank : Row) (start : Nat) : Nat → List Row → List Row
  | 0, rows => rows
  | count + 1, rows => (clearRows blank start count rows).set (start + count) blank

/-- `compressor_finish_prefill_state_cpu`. -/
def compressorFinishPrefillState (blank : Row) (ratio tokens : Nat) (rows : List Row) : List Row :=
  let rest := tokens % ratio
  let clearStart := if ratio = 4 then ratio + rest else rest
  let clearEnd := if ratio = 4 then 2 * ratio else ratio
  clearRows blank clearStart (clearEnd - clearStart) rows

section Windows

variable (blank : Row) (ratio : Nat) (tokens : List Row)

def window (k : Nat) : List Row :=
  (tokens.drop (k * ratio)).take ratio

/-- What stands in front of a window in the state. -/
def before (k : Nat) : List Row :=
  if ratio = 4 then
    if k = 0 then List.replicate ratio blank else window ratio tokens (k - 1)
  else []

/-- The rows that are to be emitted for the complete windows. -/
def emissions (pool : List Row → Nat → Out) : List Out :=
  (List.range (tokens.length / ratio)).map fun k =>
    pool (before blank ratio tokens k ++ window ratio tokens k) (k * ratio)

/-- The rows of the state that are in use hold the window before and the tokens of the
current one. -/
structure Live (rows : List Row) : Prop where
  length : rows.length = windowStart ratio + ratio
  rows_eq : rows.take (windowStart ratio + tokens.length % ratio) =
    before blank ratio tokens (tokens.length / ratio) ++
      tokens.drop (tokens.length / ratio * ratio)

end Windows

section Arithmetic

variable {ratio n : Nat}

theorem stateRow_eq (ratio pos : Nat) : stateRow ratio pos = windowStart ratio + pos % ratio := by
  unfold stateRow windowStart
  split <;> simp

theorem succ_div_of_boundary (boundary : (n + 1) % ratio = 0) :
    (n + 1) / ratio = n / ratio + 1 ∧ n % ratio + 1 = ratio ∧
      n + 1 - ratio = n / ratio * ratio := by
  have divides := Nat.dvd_of_mod_eq_zero boundary
  have quotient := Nat.succ_div_of_dvd divides
  have whole := Nat.div_mul_cancel divides
  have split := Nat.div_add_mod' n ratio
  rw [quotient, Nat.add_mul, Nat.one_mul] at whole
  refine ⟨quotient, ?_, ?_⟩ <;> omega

theorem succ_div_of_inside (inside : (n + 1) % ratio ≠ 0) :
    (n + 1) / ratio = n / ratio ∧ (n + 1) % ratio = n % ratio + 1 := by
  have quotient : (n + 1) / ratio = n / ratio :=
    Nat.succ_div_of_not_dvd fun divides => inside (Nat.mod_eq_zero_of_dvd divides)
  have first := Nat.div_add_mod' n ratio
  have second := Nat.div_add_mod' (n + 1) ratio
  rw [quotient] at second
  exact ⟨quotient, by omega⟩

end Arithmetic

section Copies

variable {rows : List Row} {blank : Row}

@[simp]
theorem length_copyRows (target source n : Nat) (rows : List Row) :
    (copyRows target source n rows).length = rows.length := by
  induction n with
  | zero => rfl
  | succ n ih =>
    rw [copyRows]
    split <;> simp [ih]

@[simp]
theorem length_clearRows (start n : Nat) (rows : List Row) :
    (clearRows blank start n rows).length = rows.length := by
  induction n with
  | zero => rfl
  | succ n ih => rw [clearRows, length_set, ih]

theorem take_clearRows (start n : Nat) (rows : List Row) :
    (clearRows blank start n rows).take start = rows.take start := by
  induction n with
  | zero => rfl
  | succ n ih =>
    rw [clearRows, take_set, set_eq_of_length_le, ih]
    rw [length_take]
    omega

end Copies

section Steps

variable {blank : Row} {ratio : Nat} {tokens later rows : List Row} (pool : List Row → Nat → Out)

theorem window_append {k : Nat} (complete : (k + 1) * ratio ≤ tokens.length) :
    window ratio (tokens ++ later) k = window ratio tokens k := by
  rw [Nat.add_mul, Nat.one_mul] at complete
  rw [window, window, drop_append_of_le_length (by omega),
    take_append_of_le_length]
  rw [length_drop]
  omega

theorem before_append {k : Nat} (complete : k * ratio ≤ tokens.length) :
    before blank ratio (tokens ++ later) k = before blank ratio tokens k := by
  unfold before
  split_ifs with four first
  · rfl
  · rw [window_append (by rwa [Nat.sub_add_cancel (Nat.pos_of_ne_zero first)])]
  · rfl

theorem before_succ (tokens : List Row) (k : Nat) :
    before blank ratio tokens (k + 1) = if ratio = 4 then window ratio tokens k else [] :=
  rfl

theorem length_before {k : Nat} (complete : k * ratio ≤ tokens.length) :
    (before blank ratio tokens k).length = windowStart ratio := by
  unfold before windowStart
  split_ifs with four first
  · exact length_replicate
  · have split : k * ratio = (k - 1) * ratio + ratio := by
      rw [← Nat.succ_mul, Nat.succ_eq_add_one, Nat.sub_add_cancel (Nat.pos_of_ne_zero first)]
    rw [window, length_take, length_drop]
    omega
  · rfl

theorem emissions_append : (List.range (tokens.length / ratio)).map (fun k =>
        pool (before blank ratio (tokens ++ later) k ++
          window ratio (tokens ++ later) k) (k * ratio)) =
      emissions blank ratio tokens pool := by
  refine map_congr_left fun k mem => ?_
  have complete : (k + 1) * ratio ≤ tokens.length :=
    (Nat.mul_le_mul_right _ (mem_range.mp mem)).trans (Nat.div_mul_le_self _ _)
  have started : k * ratio ≤ tokens.length :=
    (Nat.mul_le_mul_right _ (Nat.le_succ k)).trans complete
  rw [before_append started, window_append complete]

theorem take_rollState (length : rows.length = windowStart ratio + ratio) :
    (rollState ratio rows).take (windowStart ratio) =
      if ratio = 4 then rows.drop ratio else [] := by
  unfold rollState windowStart at *
  split_ifs with four
  · subst four
    obtain ⟨a, b, c, d, e, f, g, h, rfl⟩ : ∃ a b c d e f g h, rows = [a, b, c, d, e, f, g, h] := by
      match rows, length with
      | [a, b, c, d, e, f, g, h], _ => exact ⟨a, b, c, d, e, f, g, h, rfl⟩
    rfl
  · rfl

theorem length_rollState (rows : List Row) : (rollState ratio rows).length = rows.length := by
  unfold rollState
  split <;> simp

variable (live : Live blank ratio tokens rows)

include live

theorem Live.take_set (pos : 0 < ratio) (row : Row) :
    (rows.set (stateRow ratio tokens.length) row).take
        (windowStart ratio + (tokens.length % ratio + 1)) =
      before blank ratio tokens (tokens.length / ratio) ++
        (tokens ++ [row]).drop (tokens.length / ratio * ratio) := by
  have inside : windowStart ratio + tokens.length % ratio < rows.length := by
    have := Nat.mod_lt tokens.length pos
    rw [live.length]
    omega
  rw [stateRow_eq, ← Nat.add_assoc, take_add_one, take_set_of_le (Nat.le_refl _),
    live.rows_eq, getElem?_set_self inside,
    drop_append_of_le_length (Nat.div_mul_le_self _ _), append_assoc]
  rfl

theorem Live.step (positive : 0 < ratio) (row : Row) :
    Live blank ratio (tokens ++ [row]) (compressorDecodeOne pool ratio tokens.length row rows).1 ∧
      emissions blank ratio tokens pool ++
          (compressorDecodeOne pool ratio tokens.length row rows).2 =
        emissions blank ratio (tokens ++ [row]) pool := by
  have inUse := live.take_set positive row
  have started := Nat.div_mul_le_self tokens.length ratio
  have newLength : (tokens ++ [row]).length = tokens.length + 1 := by simp
  have kept := @emissions_append _ _ blank ratio tokens [row] pool
  rw [← @before_append _ blank ratio tokens [row] _ started] at inUse
  unfold compressorDecodeOne
  by_cases boundary : (tokens.length + 1) % ratio = 0
  · -- the window is complete: all rows of the state are in use
    obtain ⟨quotient, remainder, pos⟩ := succ_div_of_boundary boundary
    have all : rows.set (stateRow ratio tokens.length) row =
        before blank ratio (tokens ++ [row]) (tokens.length / ratio) ++
          (tokens ++ [row]).drop (tokens.length / ratio * ratio) := by
      rw [← inUse, remainder, ← live.length, take_of_length_le]
      rw [length_set]
    have isWindow : (tokens ++ [row]).drop (tokens.length / ratio * ratio) =
        window ratio (tokens ++ [row]) (tokens.length / ratio) := by
      rw [window, take_of_length_le]
      rw [length_drop, newLength]
      omega
    rw [if_pos boundary]
    refine ⟨⟨?_, ?_⟩, ?_⟩
    · rw [length_rollState, length_set, live.length]
    · have nothing : (tokens ++ [row]).drop ((tokens.length / ratio + 1) * ratio) = [] := by
        rw [drop_eq_nil_iff, newLength, Nat.add_mul]
        omega
      rw [newLength, boundary, Nat.add_zero, quotient, nothing, append_nil,
        take_rollState (by rw [length_set, live.length]), all, isWindow, before_succ]
      split_ifs with four
      · have half : (before blank ratio (tokens ++ [row]) (tokens.length / ratio)).length =
            windowStart ratio := length_before (started.trans (by simp))
        rw [windowStart, if_pos four] at half
        rw [drop_left' half]
      · rfl
    · rw [← kept, emissions, newLength, quotient, range_succ, map_append, pos, all, isWindow]
      rfl
  · obtain ⟨quotient, remainder⟩ := succ_div_of_inside boundary
    rw [if_neg boundary]
    refine ⟨⟨?_, ?_⟩, ?_⟩
    · rw [length_set, live.length]
    · rw [newLength, remainder, quotient]
      exact inUse
    · rw [← kept, emissions, newLength, quotient, append_nil]

theorem Live.decodeAll (pos : 0 < ratio) (later : List Row) : Live blank ratio (tokens ++ later)
        (Compressor.decodeAll pool ratio tokens.length later rows).1 ∧
      emissions blank ratio tokens pool ++
          (Compressor.decodeAll pool ratio tokens.length later rows).2 =
        emissions blank ratio (tokens ++ later) pool := by
  induction later generalizing tokens rows with
  | nil => simpa [Compressor.decodeAll] using live
  | cons row later ih =>
    obtain ⟨next, emitted⟩ := live.step pool pos row
    have rest := ih next
    rw [length_append, length_singleton, append_assoc, singleton_append] at rest
    rw [Compressor.decodeAll]
    refine ⟨rest.1, ?_⟩
    rw [← rest.2, ← emitted, append_assoc]

omit live

theorem live_initialState : Live blank ratio [] (initialState blank ratio) := by
  constructor
  · rw [initialState, length_replicate, windowStart]
    split_ifs <;> omega
  · simp only [initialState, before, windowStart, length_nil, Nat.zero_mod, Nat.zero_div,
      Nat.add_zero, if_true, drop_nil, append_nil, take_replicate]
    split_ifs with four
    · subst four
      rfl
    · rw [Nat.zero_min]
      rfl

theorem Live.finish (live : Live blank ratio tokens rows) :
    Live blank ratio tokens (compressorFinishPrefillState blank ratio tokens.length rows) := by
  have start : (if ratio = 4 then ratio + tokens.length % ratio else tokens.length % ratio) =
      windowStart ratio + tokens.length % ratio := stateRow_eq ratio tokens.length
  simp only [compressorFinishPrefillState, start]
  constructor
  · rw [length_clearRows, live.length]
  · rw [take_clearRows, live.rows_eq]

/-- The compressor emits one row for every complete window, pooled from the window
before it and the window itself, and the end of a prefill changes none of the later
rows. -/
theorem decodeAll_emissions (blank : Row) (pool : List Row → Nat → Out) (ratio : Nat)
    (positive : 0 < ratio) (tokens : List Row) :
    (decodeAll pool ratio 0 tokens (initialState blank ratio)).2 =
        (List.range (tokens.length / ratio)).map (fun k =>
          pool (before blank ratio tokens k ++ window ratio tokens k) (k * ratio)) ∧
      ∀ later, (decodeAll pool ratio tokens.length later
          (compressorFinishPrefillState blank ratio tokens.length
            (decodeAll pool ratio 0 tokens (initialState blank ratio)).1)).2 =
        (decodeAll pool ratio tokens.length later
          (decodeAll pool ratio 0 tokens (initialState blank ratio)).1).2 := by
  have start : Live blank ratio [] (initialState blank ratio) := live_initialState
  obtain ⟨live, emitted⟩ := start.decodeAll pool positive tokens
  refine ⟨by simpa [emissions] using emitted, fun later => ?_⟩
  have plain := (live.decodeAll pool positive later).2
  have finished := (live.finish.decodeAll pool positive later).2
  exact append_cancel_left (finished.trans plain.symm)

/-- Five tokens with a ratio of four: the first window is pooled with blank rows. -/
theorem decodeAll_emissions_five :
    (decodeAll (fun rows pos => (rows, pos)) 4 0 [1, 2, 3, 4, 5] (initialState 0 4)).2 =
      [([0, 0, 0, 0, 1, 2, 3, 4], 0)] := by
  rw [(decodeAll_emissions 0 _ 4 (by decide) [1, 2, 3, 4, 5]).1]
  rfl

end Steps

end LnaLang.Compressor
