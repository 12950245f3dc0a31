import LnaLang.GreedyDecoding

/-!
# The decoding graph and its device

Decoding runs on a device whose calls may fail at any moment; what a failed
call leaves behind is arbitrary.  The state of the graph is represented by the
token list whose decoding produced it.  A device is a stream of answers indexed
by the number of calls made so far: it decides which calls fail, what they
leave behind, and what the drafter says.

For each primitive one lemma says everything it can do from a graph that is in
step with a context.
-/

namespace LnaLang.SpeculativeDecode

open GreedyDecoding

structure Target (Logits : Type*) where
  logitsOf : List Int → Logits
  sampleArgmax : Logits → Int

/-- The token the target picks after a context. -/
def Target.next {Logits : Type*} (target : Target Logits) (context : List Int) : Int :=
  target.sampleArgmax (target.logitsOf context)

/-- The part of `ds4_gpu_graph` that decoding reads and writes.  `tokens` is the
context that the caches and compressor frontiers represent, `prefixOne` the
context of the captured prefix-1 frontier. -/
structure Graph (Logits : Type*) where
  tokens : List Int
  logits : Logits
  specLogits : Nat → Logits
  prefixOne : List Int
  mtpRaw : Nat
  clock : Nat

structure Draft (Logits : Type*) where
  top : Int
  logits : Logits
  mtpRaw : Nat

/-- The answers of the device: whether the call at a given time fails, what a
failed or misplaced call leaves behind and returns, and what is drafted. -/
structure Device (Logits : Type*) where
  fails : Nat → Bool
  copyFails : Nat → Bool
  wreckage : Nat → Graph Logits
  noise : Nat → List Int
  draft : Nat → Draft Logits

/-- The engine options and `DS4_MTP_*` variables that steer a cycle.  The margin
comparison on the drafter's logits is left abstract. -/
structure Engine (Logits : Type*) where
  cpu : Bool
  mtpReady : Bool
  mtpDraftTokens : Nat
  mtpDraftTokensLe : mtpDraftTokens ≤ 16
  strict : Bool
  probe : Bool
  fullLogits : Bool
  confLog : Bool
  marginPositive : Bool
  marginBelow : Logits → Bool
  batchVerify : Bool
  capturePrefix1 : Bool
  exactReplay : Bool
  forceSnapshot : Bool

/-- The decoding part of `ds4_session`. -/
structure Session (Logits : Type*) where
  graph : Graph Logits
  rawWindow : Nat
  checkpoint : List Int
  logits : Logits
  hasMtpLogits : Bool
  mtpLogits : Logits
  mtpDraftToken : Int
  ctxSize : Nat
  checkpointValid : Bool
  mtpDraftValid : Bool

/-- What a call returns: the number of accepted tokens or `-1`, the tokens
written to `accepted`, and the session. -/
structure Outcome (Logits : Type*) where
  ret : Int
  accepted : List Int
  session : Session Logits

/-- `ds4_spec_frontier`. -/
structure Frontier where
  tokens : List Int
  mtpRaw : Nat

variable {Logits : Type*}

namespace Graph

def tick (graph : Graph Logits) : Graph Logits :=
  { graph with clock := graph.clock + 1 }

@[simp]
theorem tick_tokens (graph : Graph Logits) : graph.tick.tokens = graph.tokens :=
  rfl

/-- What a failed call leaves behind. -/
def wreck (device : Device Logits) (graph : Graph Logits) : Graph Logits :=
  { device.wreckage graph.clock with clock := graph.clock + 1 }

/-- One exact decode step, meaningful at the position after the context. -/
def decodeStep (target : Target Logits) (device : Device Logits)
    (graph : Graph Logits) (token : Int) (pos : Nat) : Logits × Graph Logits :=
  if graph.tokens.length = pos then
    let tokens := graph.tokens ++ [token]
    (target.logitsOf tokens,
      { graph with
        tokens := tokens
        logits := target.logitsOf tokens
        clock := graph.clock + 1 })
  else ((device.wreckage graph.clock).logits, graph.wreck device)

/-- `metal_graph_eval_token_raw_swa`. -/
def evalTokenRawSwa (target : Target Logits) (device : Device Logits)
    (graph : Graph Logits) (token : Int) (pos : Nat) :
    Option Logits × Graph Logits :=
  if device.fails graph.clock then (none, graph.wreck device)
  else
    let (logits, next) := graph.decodeStep target device token pos
    (some logits, next)

/-- `metal_graph_eval_token_raw_swa_top`, which leaves the logits on the
device. -/
def evalTokenRawSwaTop (target : Target Logits) (device : Device Logits)
    (graph : Graph Logits) (token : Int) (pos : Nat) :
    Option Int × Graph Logits :=
  let (logits, next) := graph.evalTokenRawSwa target device token pos
  (logits.map target.sampleArgmax, next)

/-- `metal_graph_verify_suffix_tops`: the top token after every row but the
last, with all rows kept on the device. -/
def verifySuffixTops (target : Target Logits) (device : Device Logits)
    (graph : Graph Logits) (prompt : List Int) (start count : Nat)
    (capturePrefix1 : Bool) : Option (List Int) × Graph Logits :=
  if count = 0 ∨ prompt.length < start + count then (none, graph)
  else if device.fails graph.clock then (none, graph.wreck device)
  else if graph.tokens ≠ prompt.take start then
    (some (device.noise graph.clock), graph.wreck device)
  else
    let row := fun index => target.logitsOf (prompt.take (start + index + 1))
    (some ((List.range (count - 1)).map fun index => target.sampleArgmax (row index)),
      { graph with
        tokens := prompt.take (start + count)
        specLogits := row
        prefixOne :=
          if capturePrefix1 ∧ count = 2 then prompt.take (start + 1)
          else graph.prefixOne
        clock := graph.clock + 1 })

/-- `metal_graph_verify_decode2_exact`: the top token and logits after the
first token, and the logits after the second. -/
def verifyDecode2Exact (target : Target Logits) (device : Device Logits)
    (graph : Graph Logits) (token0 token1 : Int) (start : Nat) :
    Option (Int × Logits × Logits) × Graph Logits :=
  let scrap := device.wreckage graph.clock
  if device.fails graph.clock then (none, graph.wreck device)
  else if graph.tokens.length ≠ start then
    (some ((device.noise graph.clock).headD 0, scrap.logits, scrap.logits), graph.wreck device)
  else
    let logits0 := target.logitsOf (graph.tokens ++ [token0])
    let logits1 := target.logitsOf (graph.tokens ++ [token0, token1])
    (some (target.sampleArgmax logits0, logits0, logits1),
      { graph with
        tokens := graph.tokens ++ [token0, token1]
        logits := logits1
        prefixOne := graph.tokens ++ [token0]
        clock := graph.clock + 1 })

/-- A read of the logits tensor, or of a row of the verifier's logits. -/
def readTensor (device : Device Logits) (graph : Graph Logits)
    (contents : Logits) : Option Logits × Graph Logits :=
  if device.fails graph.clock then (none, graph.tick)
  else (some contents, graph.tick)

/-- `metal_graph_eval_mtp_draft` and its recursive form: the drafter shares the
scratch tensors of the graph but not its caches. -/
def evalMtpDraft (device : Device Logits) (graph : Graph Logits) :
    Option (Draft Logits) × Graph Logits :=
  let scratch := device.wreckage graph.clock
  let draft := device.draft graph.clock
  (if device.fails graph.clock then none else some draft,
    { graph with
      logits := scratch.logits
      specLogits := scratch.specLogits
      mtpRaw := draft.mtpRaw
      clock := graph.clock + 1 })

/-- `spec_frontier_snapshot`. -/
def snapshot (device : Device Logits) (graph : Graph Logits) : Option Frontier × Graph Logits :=
  (if device.copyFails graph.clock then none
    else some { tokens := graph.tokens, mtpRaw := graph.mtpRaw },
    graph.tick)

/-- `spec_frontier_restore`. -/
def restore (device : Device Logits) (frontier : Frontier)
    (graph : Graph Logits) : Bool × Graph Logits :=
  if device.copyFails graph.clock then (false, graph.wreck device)
  else
    (true, { graph with
      tokens := frontier.tokens
      mtpRaw := frontier.mtpRaw
      clock := graph.clock + 1 })

/-- `spec_frontier_commit_prefix1`. -/
def commitPrefix1 (device : Device Logits) (graph : Graph Logits) : Bool × Graph Logits :=
  if device.copyFails graph.clock then (false, graph.wreck device)
  else (true, { graph with
    tokens := graph.prefixOne
    clock := graph.clock + 1 })

theorem evalTokenRawSwa_cases (target : Target Logits) (device : Device Logits)
    (graph : Graph Logits) (token : Int) {pos : Nat} (position : graph.tokens.length = pos) :
    (∃ after, graph.evalTokenRawSwa target device token pos = (none, after)) ∨ ∃ after,
        graph.evalTokenRawSwa target device token pos =
          (some (target.logitsOf (graph.tokens ++ [token])), after) ∧
        after.tokens = graph.tokens ++ [token] ∧
        after.logits = target.logitsOf (graph.tokens ++ [token]) := by
  unfold evalTokenRawSwa
  split
  · exact .inl ⟨_, rfl⟩
  · right
    simp only [decodeStep, position, ↓reduceIte]
    exact ⟨_, rfl, rfl, rfl⟩

theorem verifySuffixTops_cases (target : Target Logits) (device : Device Logits)
    {graph : Graph Logits} {context : List Int} (inStep : graph.tokens = context) (draft : Int)
    (drafts : List Int) {n : Nat} (countEq : n = drafts.length + 1) (capture : Bool) :
    (∃ after, graph.verifySuffixTops target device (context ++ draft :: drafts)
        context.length n capture = (none, after)) ∨
      ∃ after, graph.verifySuffixTops target device (context ++ draft :: drafts)
            context.length n capture =
          (some (picks target.next (context ++ [draft]) drafts), after) ∧
        after.tokens = context ++ draft :: drafts ∧
        (∀ i, after.specLogits i = target.logitsOf (context ++ (draft :: drafts).take (i + 1))) ∧
        (capture = true → drafts.length = 1 → after.prefixOne = context ++ [draft]) := by
  have takeRow (n : Nat) : (context ++ draft :: drafts).take (context.length + n) =
        context ++ (draft :: drafts).take n := by
    rw [List.take_length_add_append]
  subst countEq
  unfold verifySuffixTops
  rw [if_neg (by simp)]
  split
  · exact .inl ⟨_, rfl⟩
  · right
    rw [if_neg (by simp [inStep])]
    refine ⟨_, Prod.ext ?_ rfl, ?_, ?_, ?_⟩
    · simp [picks, Nat.add_assoc, takeRow, Target.next]
    · simp [takeRow]
    · intro i
      simp [Nat.add_assoc, takeRow]
    · rintro rfl single
      simp [single, takeRow]

theorem verifyDecode2Exact_cases (target : Target Logits)
    (device : Device Logits) (graph : Graph Logits) (token0 token1 : Int)
    {start : Nat} (pos : graph.tokens.length = start) :
    (∃ after, graph.verifyDecode2Exact target device token0 token1 start = (none, after)) ∨ ∃ after,
        graph.verifyDecode2Exact target device token0 token1 start =
          (some (target.next (graph.tokens ++ [token0]), target.logitsOf (graph.tokens ++ [token0]),
            target.logitsOf (graph.tokens ++ [token0, token1])), after) ∧
        after.tokens = graph.tokens ++ [token0, token1] ∧
        after.prefixOne = graph.tokens ++ [token0] := by
  unfold verifyDecode2Exact
  simp only
  split
  · exact .inl ⟨_, rfl⟩
  · rw [if_neg (by simpa using pos)]
    exact .inr ⟨_, rfl, rfl, rfl⟩

theorem readTensor_cases (device : Device Logits) (graph : Graph Logits) (contents : Logits) :
    (∃ after, graph.readTensor device contents = (none, after)) ∨
      ∃ after, graph.readTensor device contents = (some contents, after) ∧
        after.tokens = graph.tokens := by
  unfold readTensor
  split
  · exact .inl ⟨_, rfl⟩
  · exact .inr ⟨_, rfl, rfl⟩

section Copies

variable {device : Device Logits} (copies : ∀ time, device.copyFails time = false)

include copies

theorem snapshot_eq (graph : Graph Logits) : graph.snapshot device =
      (some { tokens := graph.tokens, mtpRaw := graph.mtpRaw }, graph.tick) := by
  simp [snapshot, copies]

theorem restore_spec (frontier : Frontier) (graph : Graph Logits) :
    ∃ after, graph.restore device frontier = (true, after) ∧ after.tokens = frontier.tokens := by
  unfold restore
  rw [copies, if_neg (by simp)]
  exact ⟨_, rfl, rfl⟩

theorem commitPrefix1_spec (graph : Graph Logits) :
    ∃ after, graph.commitPrefix1 device = (true, after) ∧ after.tokens = graph.prefixOne ∧
      after.specLogits = graph.specLogits := by
  unfold commitPrefix1
  rw [copies, if_neg (by simp)]
  exact ⟨_, rfl, rfl, rfl⟩

end Copies

end Graph

end LnaLang.SpeculativeDecode
