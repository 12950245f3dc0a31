import Mathlib.Data.Nat.Notation

/-!
# Loops with a decreasing measure

A `while` loop is described by its body, which either continues with a new
state or returns a result, and by a measure that every continuation decreases.
Such a loop has a total, executable run.  The run satisfies the expected
unfolding equation, and facts about it follow by induction on its iterations.
-/

/-- A loop body together with the measure that makes it terminate. -/
structure WhileLoop (σ : Type*) (ρ : Type*) where
  step : σ → σ ⊕ ρ
  measure : σ → Nat
  decreases : ∀ {state next : σ},
    step state = .inl next → measure next < measure state

namespace WhileLoop

variable {σ ρ : Type*} (loop : WhileLoop σ ρ)

/-- Run a loop whose measure is below the given number of iterations. -/
def runWithin : (fuel : Nat) → (state : σ) → loop.measure state < fuel → ρ
  | 0, _, bound => absurd bound (Nat.not_lt_zero _)
  | fuel + 1, state, bound =>
    match stepped : loop.step state with
    | .inl next =>
      runWithin fuel next (Nat.lt_of_lt_of_le (loop.decreases stepped) (Nat.le_of_lt_succ bound))
    | .inr result => result

/-- The result of running a loop to its end. -/
def run (state : σ) : ρ :=
  loop.runWithin (loop.measure state + 1) state (Nat.lt_succ_self _)

variable {state : σ}

theorem runWithin_of_step {fuel : Nat} {next : σ} (bound : loop.measure state < fuel + 1)
    (step : loop.step state = .inl next) :
    loop.runWithin (fuel + 1) state bound = loop.runWithin fuel next
        (Nat.lt_of_lt_of_le (loop.decreases step) (Nat.le_of_lt_succ bound)) := by
  rw [runWithin]
  split
  next other otherStep =>
    have equal : other = next := by
      rw [step] at otherStep
      exact (Sum.inl.inj otherStep).symm
    subst equal
    rfl
  next result halted =>
    rw [step] at halted
    cases halted

theorem runWithin_of_halt {fuel : Nat} {result : ρ} (bound : loop.measure state < fuel + 1)
    (halted : loop.step state = .inr result) : loop.runWithin (fuel + 1) state bound = result := by
  rw [runWithin]
  split
  next next step =>
    rw [halted] at step
    cases step
  next other otherHalt =>
    rw [halted] at otherHalt
    exact (Sum.inr.inj otherHalt).symm

theorem runWithin_fuel_irrelevant {first second : Nat} (firstBound : loop.measure state < first)
    (secondBound : loop.measure state < second) :
    loop.runWithin first state firstBound = loop.runWithin second state secondBound := by
  induction first generalizing second state with
  | zero => exact absurd firstBound (Nat.not_lt_zero _)
  | succ first ih =>
    cases second with
    | zero => exact absurd secondBound (Nat.not_lt_zero _)
    | succ second =>
      cases step : loop.step state with
      | inl next =>
        rw [loop.runWithin_of_step firstBound step, loop.runWithin_of_step secondBound step]
        exact ih _ _
      | inr result =>
        rw [loop.runWithin_of_halt firstBound step, loop.runWithin_of_halt secondBound step]

theorem run_of_step {next : σ} (step : loop.step state = .inl next) :
    loop.run state = loop.run next := by
  rw [run, loop.runWithin_of_step _ step]
  exact loop.runWithin_fuel_irrelevant _ _

theorem run_of_halt {result : ρ} (halted : loop.step state = .inr result) :
    loop.run state = result :=
  loop.runWithin_of_halt _ halted

theorem run_congr {first second : σ} (same : loop.step first = loop.step second) :
    loop.run first = loop.run second := by
  cases step : loop.step second with
  | inl next => rw [loop.run_of_step step, loop.run_of_step (same.trans step)]
  | inr result => rw [loop.run_of_halt step, loop.run_of_halt (same.trans step)]

/-- A relation between the entry state and the result holds of every run when
it holds at the iterations that return and is carried back over the others. -/
theorem run_induction (relation : σ → ρ → Prop)
    (halt : ∀ state result, loop.step state = .inr result → relation state result)
    (next : ∀ state following, loop.step state = .inl following →
      relation following (loop.run following) → relation state (loop.run following)) :
    ∀ state, relation state (loop.run state) := by
  intro state
  induction bound : loop.measure state using Nat.strongRecOn generalizing state with
  | ind size ih =>
    cases step : loop.step state with
    | inl following =>
      rw [loop.run_of_step step]
      refine next state following step (ih _ ?_ following rfl)
      rw [← bound]
      exact loop.decreases step
    | inr result =>
      rw [loop.run_of_halt step]
      exact halt state result step

theorem run_invariant (invariant : σ → Prop) (post : ρ → Prop)
    (halt : ∀ state result, invariant state → loop.step state = .inr result → post result)
    (next : ∀ state following, invariant state →
      loop.step state = .inl following → invariant following)
    (state : σ) (initial : invariant state) : post (loop.run state) := by
  refine loop.run_induction (fun entry result => invariant entry → post result) ?_ ?_ state initial
  · intro entry result halted holds
    exact halt entry result holds halted
  · intro entry following step later holds
    exact later (next entry following holds step)

end WhileLoop
