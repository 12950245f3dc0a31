import Mathlib.Data.List.Infix
import Mathlib.Data.Nat.Find

/-!
# First occurrences of patterns in a list

Byte scanners look for the first place where a fixed pattern starts.  In a truncated text
that is the place in the whole text, kept exactly when the occurrence has been seen
completely.  An automaton looks for the longest beginning of a list that it accepts.
-/

namespace ListSearch

open List

variable {α : Type*}

/-- The index of the first occurrence of `pattern`. -/
def find [DecidableEq α] (pattern : List α) : List α → Option Nat
  | [] => if pattern.isEmpty then some 0 else none
  | head :: tail =>
    if pattern.isPrefixOf (head :: tail) then some 0
    else (find pattern tail).map (· + 1)

/-- The pattern starts at the given index of the text. -/
def OccursAt (pattern text : List α) (index : Nat) : Prop :=
  pattern <+: text.drop index

instance [DecidableEq α] (pattern text : List α) (index : Nat) :
    Decidable (OccursAt pattern text index) :=
  inferInstanceAs (Decidable (pattern <+: text.drop index))

variable {text pat : List α}

theorem occursAt_zero : OccursAt pat text 0 ↔ pat <+: text := by
  simp [OccursAt]

variable {i : Nat}

theorem occursAt_cons_succ {tail : List α} {head : α} :
    OccursAt pat (head :: tail) (i + 1) ↔ OccursAt pat tail i := by
  simp [OccursAt]

theorem OccursAt.end_le (occurs : OccursAt pat text i) (ne : pat ≠ []) :
    i + pat.length ≤ text.length := by
  have lengthLe := occurs.length_le
  have patternPos := length_pos_iff.mpr ne
  simp only [length_drop] at lengthLe
  omega

theorem OccursAt.right {first second : List α} (occurs : OccursAt (first ++ second) text i) :
    OccursAt second text (i + first.length) := by
  obtain ⟨rest, split⟩ := occurs
  refine ⟨rest, ?_⟩
  rw [← drop_drop, ← split, append_assoc, drop_left]

theorem OccursAt.left {first second : List α} (occurs : OccursAt (first ++ second) text i) :
    OccursAt first text i :=
  (prefix_append first second).trans occurs

theorem occursAt_take_iff {n : Nat} (ne : pat ≠ []) : OccursAt pat (text.take n) i ↔
      OccursAt pat text i ∧ i + pat.length ≤ n := by
  constructor
  · intro occurs
    have endLe := occurs.end_le ne
    rw [length_take] at endLe
    refine ⟨?_, by omega⟩
    unfold OccursAt at *
    rw [drop_take] at occurs
    exact occurs.trans (List.take_prefix _ _)
  · rintro ⟨occurs, endLe⟩
    unfold OccursAt at *
    rw [drop_take, prefix_take_iff]
    exact ⟨occurs, by omega⟩

variable [DecidableEq α]

theorem find_eq_some_iff : find pat text = some i ↔ i ≤ text.length ∧ OccursAt pat text i ∧
        ∀ earlier < i, ¬ OccursAt pat text earlier := by
  induction text generalizing i with
  | nil =>
    cases pat with
    | nil => cases i <;> simp [find, OccursAt]
    | cons head tail => simp [find, OccursAt]
  | cons head tail ih =>
    by_cases atHead : pat <+: head :: tail
    · have v : find pat (head :: tail) = some 0 := by
        simp [find, isPrefixOf_iff_prefix.mpr atHead]
      rw [v]
      constructor
      · intro equal
        obtain rfl : 0 = i := by simpa using equal
        exact ⟨by simp, occursAt_zero.mpr atHead, by simp⟩
      · rintro ⟨_, _, first⟩
        cases i with
        | zero => rfl
        | succ i => exact (first 0 (by omega) (occursAt_zero.mpr atHead)).elim
    · have v : find pat (head :: tail) = (find pat tail).map (· + 1) := by
        simp [find, atHead]
      rw [v]
      cases i with
      | zero =>
        constructor
        · simp
        · rintro ⟨_, occurs, _⟩
          exact (atHead (occursAt_zero.mp occurs)).elim
      | succ i =>
        simp only [Option.map_eq_some_iff, Nat.add_right_cancel_iff,
          exists_eq_right, ih, length_cons, Nat.add_le_add_iff_right,
          occursAt_cons_succ]
        refine and_congr_right fun _ => and_congr_right fun _ => ?_
        constructor
        · intro first earlier earlierLt
          cases earlier with
          | zero => exact fun occurs => atHead (occursAt_zero.mp occurs)
          | succ earlier =>
            rw [occursAt_cons_succ]
            exact first earlier (by omega)
        · intro first earlier earlierLt
          have := first (earlier + 1) (by omega)
          rwa [occursAt_cons_succ] at this

theorem find_eq_none_iff : find pat text = none ↔ ∀ i ≤ text.length, ¬ OccursAt pat text i := by
  constructor
  · intro notFound i indexLe occurs
    have existing : ∃ candidate, candidate ≤ text.length ∧ OccursAt pat text candidate :=
      ⟨i, indexLe, occurs⟩
    obtain ⟨firstLe, occursFirst⟩ := Nat.find_spec existing
    have found : find pat text = some (Nat.find existing) := by
      refine find_eq_some_iff.mpr ⟨firstLe, occursFirst, ?_⟩
      intro earlier earlierLt occursEarlier
      exact Nat.find_min existing earlierLt ⟨le_trans (le_of_lt earlierLt) firstLe, occursEarlier⟩
    rw [found] at notFound
    cases notFound
  · intro never
    cases result : find pat text with
    | none => rfl
    | some i =>
      obtain ⟨indexLe, occurs, _⟩ := find_eq_some_iff.mp result
      exact (never i indexLe occurs).elim

theorem occursAt_of_find (found : find pat text = some i) : OccursAt pat text i :=
  (find_eq_some_iff.mp found).2.1

theorem find_end_le (found : find pat text = some i) : i + pat.length ≤ text.length := by
  obtain ⟨indexLe, occurs, _⟩ := find_eq_some_iff.mp found
  by_cases empty : pat = []
  · simpa [empty] using indexLe
  · exact occurs.end_le empty

end ListSearch

/-- An automaton; `none` is its dead state. -/
structure Automaton (σ α : Type*) where
  step : σ → α → Option σ
  accepting : σ → Bool

namespace Automaton

variable {σ α : Type*} (automaton : Automaton σ α)

def longest (state : σ) : List α → Option Nat
  | [] => if automaton.accepting state then some 0 else none
  | symbol :: symbols =>
    match (automaton.step state symbol).bind (longest · symbols) with
    | some count => some (count + 1)
    | none => if automaton.accepting state then some 0 else none

end Automaton
