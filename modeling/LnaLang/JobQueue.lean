import Mathlib.Data.List.Nodup

/-!
# The job queue

A job lives on the stack of its client, which waits until the worker has served it and then
leaves.  In every interleaving of the clients, the worker and the shutdown, the queue and the
worker point to jobs of waiting clients only, and every accepted job is served, in order.
-/

namespace LnaLang.JobQueue

open List Function

/-- The client that owns a `job`; it waits while `done` is false. -/
inductive Client where
  | gone
  | waiting
  | done

/-- `worker_main`: in `dequeue`, in `generate_job` or at the end. -/
inductive Worker (α : Type) where
  | ready
  | generating (job : α)
  | stopped

def Worker.jobs {α : Type} : Worker α → List α
  | .generating job => [job]
  | .ready | .stopped => []

/-- The jobs from `head` to `tail`, and the histories of `enqueue` and `generate_job`. -/
structure Server (α : Type) where
  queue : List α := []
  stopping : Bool := false
  worker : Worker α := .ready
  clients : α → Client := fun _ => .gone
  accepted : List α := []
  served : List α := []

variable {α : Type}

def dequeue (server : Server α) : Server α :=
  match server.queue with
  | [] => { server with worker := .stopped }
  | job :: queue => { server with queue, worker := .generating job }

variable [DecidableEq α]

def enqueue (job : α) (server : Server α) : Server α :=
  if server.stopping then server
  else
    { server with
      queue := server.queue ++ [job]
      clients := update server.clients job .waiting
      accepted := server.accepted ++ [job] }

/-- Every action when it can be taken. -/
inductive Step (server : Server α) : Server α → Prop where
  | enqueue (job : α) : server.clients job = .gone → Step server (enqueue job server)
  | leave (job : α) : server.clients job = .done →
      Step server { server with clients := update server.clients job .gone }
  | dequeue : server.worker = .ready → server.queue ≠ [] ∨ server.stopping = true →
      Step server (dequeue server)
  | finish (job : α) : server.worker = .generating job →
      Step server { server with
        worker := .ready
        clients := update server.clients job .done
        served := server.served ++ [job] }
  | stop : Step server { server with stopping := true }

inductive Run : Server α → Prop where
  | start : Run {}
  | step {server next : Server α} : Run server → Step server next → Run next

/-- When the worker has stopped, no client waits and all accepted jobs have been served. -/
structure Sound (server : Server α) : Prop where
  nodup : (server.worker.jobs ++ server.queue).Nodup
  waiting : ∀ job, server.clients job = .waiting ↔ job ∈ server.worker.jobs ++ server.queue
  order : server.accepted = server.served ++ (server.worker.jobs ++ server.queue)
  stopped : server.worker = .stopped → server.stopping = true ∧ server.queue = []

variable {server next : Server α}

theorem Sound.step (sound : Sound server) (step : Step server next) : Sound next := by
  cases step with
  | enqueue job gone =>
    have absent : job ∉ server.worker.jobs ++ server.queue := by
      rw [← sound.waiting, gone]
      nofun
    unfold enqueue
    split
    next => exact sound
    next running =>
      refine ⟨?_, fun other => ?_, ?_, fun stopped => absurd (sound.stopped stopped).1 running⟩
      · rw [← append_assoc, ← concat_eq_append]
        exact sound.nodup.concat absent
      · dsimp only
        rw [update_apply, ← append_assoc, mem_append, ← sound.waiting, mem_singleton]
        split <;> simp [*]
      · rw [sound.order, append_assoc, append_assoc]
  | leave job done =>
    refine { sound with waiting := fun other => ?_ }
    dsimp only
    rw [← sound.waiting, update_apply]
    split <;> simp [*]
  | dequeue ready woken =>
    obtain ⟨nodup, waiting, order, -⟩ := sound
    simp only [ready] at nodup waiting order
    unfold dequeue
    split
    next empty =>
      exact ⟨nodup, waiting, order, fun _ => ⟨woken.resolve_left (not_not_intro empty), empty⟩⟩
    next job queue isQueue =>
      rw [isQueue] at nodup order
      simp only [isQueue] at waiting
      exact ⟨nodup, waiting, order, nofun⟩
  | finish job isJob =>
    obtain ⟨nodup, waiting, order, -⟩ := sound
    simp only [isJob] at nodup waiting order
    obtain ⟨absent, nodup⟩ : job ∉ server.queue ∧ server.queue.Nodup := nodup_cons.mp nodup
    refine ⟨nodup, fun other => ?_, ?_, nofun⟩
    · dsimp only
      rw [update_apply]
      split <;> simp [*, Worker.jobs]
    · rw [order, append_assoc]
      rfl
  | stop => exact { sound with stopped := fun stopped => ⟨rfl, (sound.stopped stopped).2⟩ }

theorem run_sound (run : Run server) : Sound server := by
  induction run with
  | start => exact ⟨nodup_nil, fun _ => by simp [Worker.jobs], rfl, nofun⟩
  | step _ step ih => exact ih.step step

/-- The second job arrives while the first is served, and is served after the shutdown. -/
theorem run_sound_twoJobs : ∃ server : Server Nat, server.accepted = [7, 8] ∧
    server.served = [7] ∧ server.stopping = true ∧ Sound server := by
  have first : Run (dequeue (enqueue 7 {})) :=
    .step (.step .start (.enqueue 7 rfl)) (.dequeue rfl (.inl nofun))
  have finished := (first.step (.enqueue 8 rfl)).step (.finish 7 rfl)
  have last := (finished.step .stop).step (.dequeue rfl (.inl nofun))
  exact ⟨_, rfl, rfl, rfl, run_sound last⟩

end LnaLang.JobQueue
