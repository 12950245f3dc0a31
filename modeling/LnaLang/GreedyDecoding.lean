import Mathlib.Data.List.Basic

/-!
# Greedy continuations

An autoregressive generator extends a context by one symbol that is a function
of the whole context.  This file defines its continuation, says when a list of
symbols is one, and proves the rule behind speculative verification: if the
proposals agree with the symbols the generator picks after each proposed
prefix, the agreeing proposals are the generator's own continuation.
-/

namespace GreedyDecoding

variable {α : Type*} (next : List α → α)

/-- The next `count` symbols after a context. -/
def continuation : List α → Nat → List α
  | _, 0 => []
  | context, count + 1 =>
    next context :: continuation (context ++ [next context]) count

/-- The given symbols are what the generator produces after the context. -/
def Follows (context symbols : List α) : Prop :=
  symbols = continuation next context symbols.length

theorem follows_nil (context : List α) : Follows next context [] :=
  rfl

theorem follows_cons {context symbols : List α} {symbol : α} :
    Follows next context (symbol :: symbols) ↔
      symbol = next context ∧ Follows next (context ++ [symbol]) symbols := by
  constructor
  · intro follows
    obtain ⟨headEq, tailEq⟩ := List.cons.inj follows
    refine ⟨headEq, ?_⟩
    rw [headEq]
    exact tailEq
  · rintro ⟨rfl, follows⟩
    exact congrArg _ follows

theorem Follows.append {context first second : List α} (followsFirst : Follows next context first)
    (followsSecond : Follows next (context ++ first) second) :
    Follows next context (first ++ second) := by
  induction first generalizing context with
  | nil => simpa using followsSecond
  | cons symbol first ih =>
    obtain ⟨headEq, followsTail⟩ := (follows_cons next).mp followsFirst
    rw [List.cons_append, follows_cons]
    exact ⟨headEq, ih followsTail (by simpa using followsSecond)⟩

/-- The symbol picked after each proper prefix of the proposals. -/
def picks (context proposals : List α) : List α :=
  (List.range proposals.length).map fun count =>
    next (context ++ proposals.take count)

theorem picks_cons (context proposals : List α) (proposal : α) :
    picks next context (proposal :: proposals) =
      next context :: picks next (context ++ [proposal]) proposals := by
  simp [picks, List.range_succ_eq_map, Function.comp_def]

/-- The number of leading positions at which two lists agree. -/
def agreement [DecidableEq α] : List α → List α → Nat
  | pick :: picked, proposal :: proposals =>
    if pick = proposal then agreement picked proposals + 1 else 0
  | _, _ => 0

variable [DecidableEq α]

theorem agreement_le_right (picked proposals : List α) :
    agreement picked proposals ≤ proposals.length := by
  induction picked generalizing proposals with
  | nil => simp [agreement]
  | cons pick picked ih =>
    cases proposals with
    | nil => simp [agreement]
    | cons proposal proposals =>
      simp only [agreement, List.length_cons]
      split
      · exact Nat.succ_le_succ (ih proposals)
      · omega

theorem follows_take_agreement (context proposals : List α) :
    Follows next context (proposals.take (agreement (picks next context proposals) proposals)) := by
  induction proposals generalizing context with
  | nil => exact follows_nil next context
  | cons proposal proposals ih =>
    rw [picks_cons]
    simp only [agreement]
    split
    next agrees =>
      rw [List.take_succ_cons, follows_cons]
      exact ⟨agrees.symm, ih _⟩
    · exact follows_nil next context

end GreedyDecoding
