import Mathlib

/-!
# The row-parallel loop

`ds4_parallel_for_min_rows` posts a job for a pool of workers, runs its own share of the
rows and waits until every worker has reported.  A step of the model is what one thread
does under the mutex: the caller posts the job and later leaves its wait, a worker takes
the job and later reports.  The invocation of a thread lies between its two steps.  The
steps come in any order, and a thread that wakes up in vain makes none.
-/

namespace LnaLang.ParallelFor

open List Option

/-- An invocation of the function and context of a call on a range of rows. -/
structure Run where
  job : Nat
  lo : Nat
  hi : Nat

/-- A call, with its number for its function and context. -/
structure Call where
  job : Nat
  rows : Nat
  minRows : Nat

/-- The pool, the threads, and what has happened so far. -/
structure State where
  generation : Nat := 0
  done : Nat := 0
  job : Nat := 0
  rows : Nat := 0
  /-- the caller is between its two steps -/
  calling : Bool := false
  minRows : Nat := 0
  seen : Nat → Nat := fun _ => 0
  /-- the worker is between its two steps, with its copies of the job and the rows -/
  working : Nat → Bool := fun _ => false
  work : Nat → Nat × Nat := fun _ => (0, 0)
  calls : Nat := 0
  returned : List Call := []
  finished : List Run := []

section Program

variable (threads : Nat)

/-- `rows_per_thread`. -/
def rowsPerThread (rows : Nat) : Nat :=
  (rows + threads - 1) % 2 ^ 64 / threads

/-- The rows of a thread; the caller is thread zero. -/
def share (rows tid : Nat) : Nat × Nat :=
  let row0 := tid * rowsPerThread threads rows % 2 ^ 64
  let row1 := (row0 + rowsPerThread threads rows) % 2 ^ 64
  (row0, if row1 > rows then rows else row1)

/-- The invocation of a thread, if it has any rows. -/
def shareRuns (job rows tid : Nat) : List Run :=
  let (row0, row1) := share threads rows tid
  if row0 < row1 then [⟨job, row0, row1⟩] else []

/-- The test for serial execution, by the depth of the thread. -/
def goesSerial (depth rows minRows : Nat) : Bool :=
  depth > 0 || threads ≤ 1 || rows < minRows

/-- The serial call: `fn(ctx, 0, n_rows)` in the calling thread. -/
def State.serial (state : State) (rows minRows : Nat) : State :=
  { state with
    calls := state.calls + 1
    returned := ⟨state.calls, rows, minRows⟩ :: state.returned
    finished := ⟨state.calls, 0, rows⟩ :: state.finished }

def State.post (state : State) (rows minRows : Nat) : State :=
  { state with
    job := state.calls
    rows
    minRows
    done := 0
    generation := (state.generation + 1) % 2 ^ 32
    calling := true
    calls := state.calls + 1 }

/-- The caller has run its share, and leaves its wait. -/
def State.join (state : State) : State :=
  { state with
    calling := false
    returned := ⟨state.job, state.rows, state.minRows⟩ :: state.returned
    finished := shareRuns threads state.job state.rows 0 ++ state.finished }

/-- The worker leaves its wait with the job. -/
def State.pick (state : State) (tid : Nat) : State :=
  { state with
    seen := Function.update state.seen tid state.generation
    working := Function.update state.working tid true
    work := Function.update state.work tid (state.job, state.rows) }

/-- The worker has run its share, and reports. -/
def State.report (state : State) (tid : Nat) : State :=
  { state with
    working := Function.update state.working tid false
    done := state.done + 1
    finished := shareRuns threads (state.work tid).1 (state.work tid).2 tid ++ state.finished }

inductive Action where
  | call (rows minRows : Nat)
  | join
  | pick (tid : Nat)
  | nested (tid rows minRows : Nat)
  | report (tid : Nat)

/-- One step of a thread.  A call from inside of an invocation is serial and leaves the
pool alone. -/
def step (state : State) : Action → Option State
  | .call rows minRows =>
    if state.calling then if goesSerial threads 1 rows minRows then some state else none
    else if goesSerial threads 0 rows minRows then some (state.serial rows minRows)
    else some (state.post rows minRows)
  | .join =>
    if state.calling ∧ ¬ state.done < threads - 1 then some (state.join threads) else none
  | .pick tid =>
    if (1 ≤ tid ∧ tid < threads) ∧ ¬ state.working tid ∧ state.seen tid ≠ state.generation
    then some (state.pick tid)
    else none
  | .nested tid rows minRows =>
    if state.working tid ∧ goesSerial threads 1 rows minRows then some state else none
  | .report tid =>
    if (1 ≤ tid ∧ tid < threads) ∧ state.working tid then some (state.report threads tid)
    else none

/-- Steps in any order. -/
def run (state : State) : List Action → Option State
  | [] => some state
  | action :: actions => (step threads state action).bind (run · actions)

/-- A thread is inside of an invocation of the call. -/
def State.Running (state : State) (job : Nat) : Prop :=
  state.calling ∧ state.job = job ∨
    ∃ tid, (1 ≤ tid ∧ tid < threads) ∧ state.working tid ∧ (state.work tid).1 = job

/-- The invocation is one of the call, on a range with the row. -/
def Run.covers (job row : Nat) (run : Run) : Bool :=
  run.job = job ∧ run.lo ≤ row ∧ row < run.hi

end Program

variable {threads rows tid row : Nat}

theorem pos_of_pooled {minRows : Nat} (pooled : goesSerial threads 0 rows minRows = false) :
    0 < threads := by
  simp only [goesSerial, Bool.or_eq_false_iff, decide_eq_false_iff_not] at pooled
  omega

/-- The row is in the share of the thread. -/
def inShare (threads rows row tid : Nat) : Bool :=
  (share threads rows tid).1 ≤ row ∧ row < (share threads rows tid).2

theorem countP_shareRuns_append (job other : Nat) (runs : List Run) :
    (shareRuns threads job rows tid ++ runs).countP (Run.covers other row) =
      runs.countP (Run.covers other row) +
        if job = other ∧ inShare threads rows row tid then 1 else 0 := by
  rw [countP_append, Nat.add_comm]
  congr 1
  unfold shareRuns
  by_cases ne : (share threads rows tid).1 < (share threads rows tid).2
  · simp [ne, Run.covers, inShare, countP_cons]
  · have none : inShare threads rows row tid = false := by
      simp only [inShare, decide_eq_false_iff_not]
      omega
    simp [ne, none]

theorem share_eq (fits : rows + threads ≤ 2 ^ 64) (high : tid < threads) :
    share threads rows tid = (tid * rowsPerThread threads rows,
      min (tid * rowsPerThread threads rows + rowsPerThread threads rows) rows) := by
  have per : rowsPerThread threads rows * threads ≤ rows + threads - 1 := by
    rw [rowsPerThread, Nat.mod_eq_of_lt (by omega)]
    exact Nat.div_mul_le_self _ _
  have next : (tid + 1) * rowsPerThread threads rows ≤ threads * rowsPerThread threads rows :=
    Nat.mul_le_mul_right _ high
  rw [Nat.add_mul, Nat.one_mul, Nat.mul_comm threads] at next
  dsimp only [share]
  rw [Nat.mod_eq_of_lt (show tid * rowsPerThread threads rows < 2 ^ 64 by omega),
    Nat.mod_eq_of_lt (by omega)]
  congr 1
  split <;> omega

/-- Every row is in the share of one thread. -/
theorem countP_inShare (pos : 0 < threads) (fits : rows + threads ≤ 2 ^ 64) (row : Nat) :
    (List.range threads).countP (inShare threads rows row) = if row < rows then 1 else 0 := by
  have whole : rows ≤ threads * rowsPerThread threads rows := by
    have split := Nat.div_add_mod (rows + threads - 1) threads
    have rest := Nat.mod_lt (rows + threads - 1) pos
    rw [rowsPerThread, Nat.mod_eq_of_lt (show rows + threads - 1 < 2 ^ 64 by omega)]
    omega
  split_ifs with inside
  · have positivePer : 0 < rowsPerThread threads rows :=
      Nat.pos_of_ne_zero fun zero => by simp [zero] at whole; omega
    have owner : ∀ tid ∈ List.range threads, inShare threads rows row tid =
        (tid == row / rowsPerThread threads rows) := by
      intro tid mem
      rw [inShare, share_eq fits (mem_range.mp mem), Bool.eq_iff_iff,
        decide_eq_true_eq, beq_iff_eq, eq_comm, Nat.div_eq_iff positivePer]
      dsimp only
      omega
    rw [countP_congr fun tid mem => by rw [owner tid mem]]
    exact count_eq_one_of_mem nodup_range
      (mem_range.mpr (Nat.div_lt_of_lt_mul (by rw [Nat.mul_comm]; omega)))
  · rw [countP_eq_zero]
    intro tid mem
    rw [inShare, share_eq fits (mem_range.mp mem)]
    simp only [decide_eq_true_eq]
    omega

theorem countP_changed {p q : Nat → Bool} (was : p tid = false) {list : List Nat}
    (same : ∀ other ∈ list, other ≠ tid → q other = p other) (nodup : list.Nodup)
    (mem : tid ∈ list) : list.countP q = list.countP p + if q tid then 1 else 0 := by
  induction list with
  | nil => simp at mem
  | cons head tail ih =>
    obtain ⟨absent, nodup⟩ := nodup_cons.mp nodup
    have later := fun other inTail => same other (mem_cons_of_mem _ inTail)
    rw [countP_cons, countP_cons]
    by_cases here : head = tid
    · subst here
      have rest : tail.countP q = tail.countP p := countP_congr fun other inTail => by
        rw [later other inTail fun equal => absent (equal ▸ inTail)]
      simp [rest, was]
    · rw [ih later nodup ((mem_cons.mp mem).resolve_left (Ne.symm here)),
        same head mem_cons_self here]
      omega

/-- The worker has been counted in `done`. -/
def State.reported (state : State) (tid : Nat) : Bool :=
  tid ≠ 0 ∧ state.seen tid = state.generation ∧ ¬ state.working tid

/-- How many invocations of a call include the row. -/
def Call.tally (threads : Nat) (call : Call) (row : Nat) : Nat :=
  if goesSerial threads 0 call.rows call.minRows then if row < call.rows then 1 else 0
  else (List.range threads).countP (inShare threads call.rows row)

/-- A job is out. -/
structure Busy (threads : Nat) (state : State) : Prop where
  pooled : goesSerial threads 0 state.rows state.minRows = false
  workers : ∀ tid, 1 ≤ tid → tid < threads → state.working tid →
    state.seen tid = state.generation ∧ state.work tid = (state.job, state.rows)
  done : state.done = (List.range threads).countP state.reported
  finished : ∀ row, state.finished.countP (Run.covers state.job row) =
    (List.range threads).countP fun tid => state.reported tid && inShare threads state.rows row tid

structure Inv (threads : Nat) (state : State) : Prop where
  small : state.generation < 2 ^ 32
  quiet : ¬ state.calling → ∀ tid, 1 ≤ tid → tid < threads →
    state.seen tid = state.generation ∧ ¬ state.working tid
  busy : state.calling → Busy threads state ∧ state.job < state.calls
  fresh : ∀ job, state.calls ≤ job → ∀ row, state.finished.countP (Run.covers job row) = 0
  past : ∀ call ∈ state.returned, call.job < state.calls ∧
    (state.calling → call.job ≠ state.job) ∧
    ∀ row, state.finished.countP (Run.covers call.job row) = call.tally threads row

variable {state next : State}

theorem inv_initial : Inv threads {} where
  small := by decide
  quiet _ _ _ _ := ⟨rfl, nofun⟩
  busy := nofun
  fresh _ _ _ := rfl
  past call mem := by simp at mem

variable (inv : Inv threads state)

include inv

theorem inv_serial {minRows : Nat} (idle : ¬ state.calling)
    (serial : goesSerial threads 0 rows minRows = true) :
    Inv threads (state.serial rows minRows) := by
  refine ⟨inv.small, inv.quiet, fun out => absurd out idle, fun job new row => ?_,
    fun call mem => ?_⟩
  · have ne : state.calls ≠ job := Nat.ne_of_lt new
    simpa [State.serial, countP_cons, Run.covers, ne] using inv.fresh job (Nat.le_of_lt new) row
  · obtain rfl | mem := mem_cons.mp mem
    · refine ⟨Nat.lt_succ_self _, fun out => absurd out idle, fun row => ?_⟩
      simp only [State.serial, countP_cons, inv.fresh state.calls (Nat.le_refl _) row]
      simp [Run.covers, Call.tally, serial]
    · obtain ⟨lt, _, counts⟩ := inv.past call mem
      refine ⟨Nat.lt_succ_of_lt lt, fun out => absurd out idle, fun row => ?_⟩
      simpa [State.serial, countP_cons, Run.covers, Nat.ne_of_gt lt] using counts row

theorem inv_post {minRows : Nat} (idle : ¬ state.calling)
    (pooled : goesSerial threads 0 rows minRows = false) :
    Inv threads (state.post rows minRows) := by
  -- every worker has seen the generation before, and not yet this one
  have behind : ∀ tid ∈ List.range threads, (state.post rows minRows).reported tid = false := by
    refine fun tid mem => decide_eq_false ?_
    rintro ⟨nonzero, seen, _⟩
    have small := inv.small
    simp only [State.post] at seen
    rw [(inv.quiet idle tid (by omega) (mem_range.mp mem)).1] at seen
    omega
  refine ⟨Nat.mod_lt _ (by decide), fun quiet => absurd rfl quiet, fun _ => ⟨⟨pooled,
    fun tid low high busy => absurd busy (inv.quiet idle tid low high).2, ?_, fun row => ?_⟩,
    Nat.lt_succ_self _⟩, fun job new => inv.fresh job (Nat.le_of_lt new), fun call mem => ?_⟩
  · exact (countP_eq_zero.mpr fun tid mem => by simp [behind tid mem]).symm
  · exact (inv.fresh _ (Nat.le_refl _) row).trans
      (countP_eq_zero.mpr fun tid mem => by simp [behind tid mem]).symm
  · obtain ⟨lt, _, counts⟩ := inv.past call mem
    exact ⟨Nat.lt_succ_of_lt lt, fun _ => Nat.ne_of_lt lt, counts⟩

theorem inv_pick (low : 1 ≤ tid) (high : tid < threads)
    (late : state.seen tid ≠ state.generation) : Inv threads (state.pick tid) := by
  have out : state.calling := by
    by_contra idle
    exact late (inv.quiet idle tid low high).1
  obtain ⟨busy, older⟩ := inv.busy out
  have same : (state.pick tid).reported = state.reported := by
    funext other
    by_cases here : other = tid <;> simp [State.reported, State.pick, here, late]
  refine ⟨inv.small, fun idle => absurd out idle, fun _ => ⟨⟨busy.pooled, ?_,
    same ▸ busy.done, same ▸ busy.finished⟩, older⟩, inv.fresh, inv.past⟩
  intro other lowOther highOther active
  by_cases here : other = tid
  · simp [State.pick, here]
  · simp only [State.pick, Function.update_of_ne here] at active ⊢
    exact busy.workers other lowOther highOther active

theorem inv_report (low : 1 ≤ tid) (high : tid < threads)
    (active : state.working tid) : Inv threads (state.report threads tid) := by
  have out : state.calling := by
    by_contra idle
    exact (inv.quiet idle tid low high).2 active
  obtain ⟨busy, older⟩ := inv.busy out
  obtain ⟨current, work⟩ := busy.workers tid low high active
  have mem := mem_range.mpr high
  have was : state.reported tid = false := by simp [State.reported, active]
  have now : (state.report threads tid).reported tid := by
    simp [State.reported, State.report, current, Nat.ne_of_gt low]
  have same : ∀ other ∈ List.range threads, other ≠ tid →
      (state.report threads tid).reported other = state.reported other := fun other _ ne => by
    simp [State.reported, State.report, ne]
  have added : (state.report threads tid).finished =
      shareRuns threads state.job state.rows tid ++ state.finished := by
    rw [State.report, work]
  refine ⟨inv.small, fun idle => absurd out idle, fun _ => ⟨⟨busy.pooled, ?_, ?_, fun row => ?_⟩,
    older⟩, fun job new row => ?_, fun call mem => ?_⟩
  · intro other lowOther highOther active
    by_cases here : other = tid
    · simp [State.report, here] at active
    · simp only [State.report, Function.update_of_ne here] at active
      exact busy.workers other lowOther highOther active
  · rw [countP_changed was same nodup_range mem, ← busy.done, if_pos now, State.report]
  · rw [added, countP_shareRuns_append,
      countP_changed (p := fun tid => state.reported tid && _) (by rw [was]; rfl)
      (fun other inRange ne => by rw [same other inRange ne]) nodup_range mem, now]
    exact congrArg₂ (· + ·) (busy.finished row) (by simp [State.report])
  · have ne : state.job ≠ job := Nat.ne_of_lt (Nat.lt_of_lt_of_le older new)
    rw [added, countP_shareRuns_append, if_neg fun equal => ne equal.1]
    exact inv.fresh job new row
  · obtain ⟨lt, ne, counts⟩ := inv.past call mem
    refine ⟨lt, ne, fun row => ?_⟩
    rw [added, countP_shareRuns_append, if_neg fun equal => ne out equal.1.symm]
    exact counts row

theorem inv_join (out : state.calling)
    (all : ¬ state.done < threads - 1) : Inv threads (state.join threads) := by
  obtain ⟨busy, older⟩ := inv.busy out
  have zero : state.reported 0 = false := by simp [State.reported]
  have first := mem_range.mpr (pos_of_pooled busy.pooled)
  -- with the caller counted as well, the count is the number of the threads
  have n := countP_changed (q := Function.update state.reported 0 true) zero
    (fun other _ ne => by simp [ne]) nodup_range first
  have bound := countP_le_length (p := Function.update state.reported 0 true)
    (l := List.range threads)
  rw [Function.update_self, if_pos rfl, ← busy.done] at n
  rw [length_range] at bound
  have full := countP_eq_length.mp (show (List.range threads).countP _ =
    (List.range threads).length by rw [n, length_range]; omega)
  have reported : ∀ tid ∈ List.range threads, tid ≠ 0 → state.reported tid :=
    fun tid mem nonzero => by simpa [nonzero] using full tid mem
  refine ⟨inv.small, fun _ tid low high => ?_, nofun, fun job new row => ?_, fun call mem => ?_⟩
  · have := reported tid (mem_range.mpr high) (by omega)
    simp only [State.reported, decide_eq_true_eq] at this
    exact this.2
  · have ne : state.job ≠ job := Nat.ne_of_lt (Nat.lt_of_lt_of_le older new)
    rw [State.join, countP_shareRuns_append, if_neg fun equal => ne equal.1]
    exact inv.fresh job new row
  · obtain rfl | mem := mem_cons.mp mem
    · refine ⟨older, nofun, fun row => ?_⟩
      rw [State.join, countP_shareRuns_append, busy.finished, Call.tally, busy.pooled,
        if_neg Bool.false_ne_true,
        countP_changed (q := inShare threads state.rows row)
          (p := fun tid => state.reported tid && inShare threads state.rows row tid)
          (by rw [zero, Bool.false_and])
          (fun tid mem ne => by rw [reported tid mem ne, Bool.true_and])
          nodup_range first]
      simp
    · obtain ⟨lt, ne, counts⟩ := inv.past call mem
      refine ⟨lt, nofun, fun row => ?_⟩
      rw [State.join, countP_shareRuns_append, if_neg fun equal => ne out equal.1.symm]
      exact counts row

theorem step_inv {action : Action} (taken : step threads state action = some next) :
    Inv threads next ∧ ∀ call ∈ state.returned, call ∈ next.returned := by
  cases action with
  | call rows minRows =>
    rw [step] at taken
    split_ifs at taken with out nested serial
    · obtain rfl := Option.some.inj taken
      exact ⟨inv, fun _ => id⟩
    · obtain rfl := Option.some.inj taken
      exact ⟨inv_serial inv out serial, fun _ => mem_cons_of_mem _⟩
    · obtain rfl := Option.some.inj taken
      exact ⟨inv_post inv out (by simpa using serial), fun _ => id⟩
  | join =>
    obtain ⟨⟨out, all⟩, rfl⟩ := ite_some_none_eq_some.mp taken
    exact ⟨inv_join inv out all, fun _ => mem_cons_of_mem _⟩
  | pick tid =>
    obtain ⟨⟨⟨low, high⟩, _, late⟩, rfl⟩ := ite_some_none_eq_some.mp taken
    exact ⟨inv_pick inv low high late, fun _ => id⟩
  | nested tid rows minRows =>
    obtain ⟨_, rfl⟩ := ite_some_none_eq_some.mp taken
    exact ⟨inv, fun _ => id⟩
  | report tid =>
    obtain ⟨⟨⟨low, high⟩, active⟩, rfl⟩ := ite_some_none_eq_some.mp taken
    exact ⟨inv_report inv low high active, fun _ => id⟩

theorem run_inv {actions : List Action} (taken : run threads state actions = some next) :
    Inv threads next ∧ ∀ call ∈ state.returned, call ∈ next.returned := by
  induction actions generalizing state with
  | nil =>
    obtain rfl := Option.some.inj taken
    exact ⟨inv, fun _ => id⟩
  | cons action actions ih =>
    obtain ⟨between, first, rest⟩ := bind_eq_some_iff.mp taken
    obtain ⟨inv, kept⟩ := step_inv inv first
    obtain ⟨inv, keptLater⟩ := ih inv rest
    exact ⟨inv, fun call mem => keptLater call (kept call mem)⟩

theorem Inv.not_running {call : Call} (mem : call ∈ state.returned) :
    ¬ state.Running threads call.job := by
  obtain ⟨_, ne, _⟩ := inv.past call mem
  rintro (⟨out, same⟩ | ⟨tid, ⟨low, high⟩, active, same⟩)
  · exact ne out same.symm
  · by_cases out : state.calling
    · rw [((inv.busy out).1.workers tid low high active).2] at same
      exact ne out same.symm
    · exact (inv.quiet out tid low high).2 active

omit inv

theorem tally_iff {call : Call} (few : threads ≤ 32) (small : call.rows < 2 ^ 64) :
    (∀ row, call.tally threads row = if row < call.rows then 1 else 0) ↔
      goesSerial threads 0 call.rows call.minRows ∨ call.rows + threads ≤ 2 ^ 64 := by
  cases serial : goesSerial threads 0 call.rows call.minRows with
  | true => simp [Call.tally, serial]
  | false =>
    simp only [Call.tally, serial, Bool.false_eq_true, if_false, false_or]
    refine ⟨fun isOnce => ?_, fun fits => countP_inShare (pos_of_pooled serial) fits⟩
    by_contra wraps
    -- the sum wraps to less than the number of threads, so that no thread has a row
    have empty : rowsPerThread threads call.rows = 0 := by
      rw [rowsPerThread, Nat.div_eq_zero_iff]
      omega
    have noShare : (List.range threads).countP (inShare threads call.rows 0) = 0 :=
      countP_eq_zero.mpr fun tid _ => by simp [inShare, share, empty]
    have one := isOnce 0
    rw [noShare, if_pos (by omega)] at one
    cases one

/-- When a call has returned, and at any time after, its invocations have finished, none of
them is running, and every row is in the range of exactly one of them: exactly if the call
was serial or its rows and the threads together do not wrap. -/
theorem forkJoin_iff {before after : List Action} {state later : State} {call : Call}
    (few : threads ≤ 32) (ran : run threads {} before = some state)
    (returned : call ∈ state.returned) (more : run threads state after = some later)
    (small : call.rows < 2 ^ 64) :
    (¬ later.Running threads call.job ∧ ∀ row,
      later.finished.countP (Run.covers call.job row) = if row < call.rows then 1 else 0) ↔
      goesSerial threads 0 call.rows call.minRows ∨ call.rows + threads ≤ 2 ^ 64 := by
  obtain ⟨inv, kept⟩ := run_inv (run_inv inv_initial ran).1 more
  rw [← tally_iff few small, and_iff_right (inv.not_running (kept call returned))]
  refine forall_congr' fun row => ?_
  rw [(inv.past call (kept call returned)).2.2 row]

def twoThreads (rows : Nat) : List Action :=
  [.call rows 0, .pick 1, .report 1, .join]

theorem forkJoin_iff_twoThreads : ∃ state, run 2 {} (twoThreads 3) = some state ∧
    ¬ state.Running 2 0 ∧
    ∀ row, state.finished.countP (Run.covers 0 row) = if row < 3 then 1 else 0 :=
  ⟨_, rfl, (@forkJoin_iff 2 (twoThreads 3) [] _ _ ⟨0, 3, 0⟩ (by decide) rfl mem_cons_self
    rfl (by decide)).mpr (.inr (by decide))⟩

theorem forkJoin_loses_rows : ∃ state, run 2 {} (twoThreads (2 ^ 64 - 1)) = some state ∧
    ⟨0, 2 ^ 64 - 1, 0⟩ ∈ state.returned ∧ state.finished = [] :=
  ⟨_, rfl, mem_cons_self, rfl⟩

end LnaLang.ParallelFor
