import LnaLang.SpeculativeDecode

/-!
# Speculative decoding is greedy decoding

Each verifying path settles the cycle with a correct outcome, or hands a session that is
still in step with the old context to the sequential fallback.  Whatever the drafter proposes
and whichever device calls fail, a call that returns has accepted the first token and a part
of the target's own greedy continuation, and has left checkpoint, graph and logits in step
with the accepted tokens.  A call that reports an error has invalidated the checkpoint.
-/

namespace LnaLang.SpeculativeDecode

open List

open GreedyDecoding

variable {Logits : Type*} {target : Target Logits} {device : Device Logits} {engine : Engine Logits}

section Paths

variable {old : List Int} {firstToken maxTokens eosToken acceptedCap : Int} {drafts : List Int}
  {session : Session Logits} {base : Nat} {frontier : Option Frontier}

theorem microFailed_settled {start : Nat} (copies : ∀ time, device.copyFails time = false)
    (rewindable : Rewindable target (old ++ [firstToken]) start frontier session)
    (accepted : List Int) : Settled target old firstToken maxTokens eosToken acceptedCap
      (microFailed device base frontier start accepted session) := by
  unfold microFailed
  cases frontier with
  | none => exact correct_fail _ _ _ _ _ _ _
  | some saved =>
    obtain ⟨after, restored, tokens⟩ := Graph.restore_spec copies saved session.graph
    simp only [restored]
    exact ⟨rewindable.checkpoint, tokens.trans (rewindable.snapshot saved rfl),
      rewindable.logits, rewindable.valid⟩

variable
  (drafted : Drafted target old firstToken maxTokens eosToken acceptedCap drafts)

include drafted

theorem evalFirst_correct (inStep : InStep target (old ++ [firstToken]) session)
    {after : Graph Logits} (tokens : after.tokens = session.graph.tokens ++ [drafts.headD 0]) :
    Correct target old firstToken maxTokens eosToken acceptedCap
      (.accept ([firstToken] ++ [drafts.headD 0])
        (session.commit base 1 (session.checkpoint ++ [drafts.headD 0])
          (target.logitsOf (session.graph.tokens ++ [drafts.headD 0])) after)) := by
  refine drafted.correct_accept_one ?_
  rw [inStep.checkpoint]
  rw [inStep.graph] at tokens ⊢
  exact inStep_commit tokens rfl

theorem marginSkip_correct (inStep : InStep target (old ++ [firstToken]) session) :
    Correct target old firstToken maxTokens eosToken acceptedCap
      (marginSkip target device base (drafts.headD 0) [firstToken] session) := by
  unfold marginSkip
  rcases session.graph.evalTokenRawSwa_cases target device (drafts.headD 0)
      inStep.position with ⟨after, eval⟩ | ⟨after, eval, tokens, _⟩
  · rw [eval]
    exact correct_fail _ _ _ _ _ _ _
  · rw [eval]
    exact evalFirst_correct drafted inStep tokens

variable (copies : ∀ time, device.copyFails time = false)

include copies

theorem microReplay_settled {frontier : Frontier}
    {commitDrafts : Nat} (saved : frontier.tokens = old ++ [firstToken])
    (inStep : InStep target (old ++ [firstToken]) session) (pos : 0 < commitDrafts)
    (commitLe : commitDrafts ≤ drafts.length)
    (follows : Follows target.next (old ++ [firstToken]) (drafts.take commitDrafts)) :
    Settled target old firstToken maxTokens eosToken acceptedCap
      (microReplay target device eosToken acceptedCap base frontier drafts
        commitDrafts [firstToken] session) := by
  have rewindable (more : List Int) (graph : Graph Logits) :
      Rewindable target (old ++ [firstToken]) session.checkpoint.length (some frontier)
        { session with
          checkpoint := session.checkpoint ++ more, graph := graph } := by
    refine ⟨?_, ?_, inStep.logits, inStep.valid⟩
    · intro other same
      cases same
      exact saved
    · rw [take_left, inStep.checkpoint]
  unfold microReplay
  simp only
  split
  · rcases session.graph.evalTokenRawSwa_cases target device (drafts.headD 0)
        inStep.position with ⟨after, eval⟩ | ⟨after, eval, tokens, _⟩
    · rw [eval]
      have rewound := rewindable [] after
      rw [append_nil] at rewound
      exact microFailed_settled copies rewound _
    · rw [eval]
      exact evalFirst_correct drafted inStep tokens
  · obtain ⟨draft, rest, takeEq⟩ : ∃ draft rest, drafts.take commitDrafts = draft :: rest := by
      obtain ⟨rest, rfl⟩ := drafted.head
      cases commitDrafts with
      | zero => omega
      | succ n => exact ⟨_, _, rfl⟩
    have countEq : commitDrafts = rest.length + 1 := by
      have lengthEq := congrArg List.length takeEq
      rw [length_take, length_cons] at lengthEq
      omega
    have verified := session.graph.verifySuffixTops_cases target device
      (inStep.graph.trans inStep.checkpoint.symm) draft rest countEq false
    rw [← takeEq] at verified
    rcases verified with ⟨after, verify⟩ | ⟨after, verify, tokens, rows, _⟩
    · rw [verify]
      exact microFailed_settled copies (rewindable _ _) _
    · rw [verify]
      simp only
      rcases after.readTensor_cases device (after.specLogits (commitDrafts - 1)) with
        ⟨final, read⟩ | ⟨final, read, kept⟩
      · rw [read]
        exact microFailed_settled copies (rewindable _ _) _
      · rw [read]
        have accepted := acceptDrafts_eq (drafted.eos_not_mem_dropLast_take commitDrafts)
          (drafted.fits_take commitDrafts)
        have lastRow : commitDrafts - 1 + 1 = commitDrafts := by omega
        simp only [accepted, rows, lastRow, take_take, Nat.min_self]
        refine drafted.correct_accept follows ?_
        rw [inStep.checkpoint] at tokens ⊢
        exact inStep_commit (kept.trans tokens) rfl

theorem microPartial_settled {capturePrefix1 : Bool} {start : Nat} {commitDrafts : Nat}
    (rewindable : Rewindable target (old ++ [firstToken]) start frontier session)
    (captured : drafts.length = 2 → commitDrafts = 1 → capturePrefix1 = true →
      session.graph.prefixOne = old ++ [firstToken] ++ drafts.take 1 ∧ session.graph.specLogits 0 =
          target.logitsOf (old ++ [firstToken] ++ drafts.take 1))
    (pos : 0 < commitDrafts) (commitLe : commitDrafts ≤ drafts.length) (follows :
      Follows target.next (old ++ [firstToken]) (drafts.take commitDrafts)) :
    Settled target old firstToken maxTokens eosToken acceptedCap
      (microPartial target device eosToken acceptedCap base capturePrefix1
        frontier start drafts commitDrafts [firstToken] session) := by
  have rewound (graph : Graph Logits) : Rewindable target (old ++ [firstToken]) start frontier
        { session with
          checkpoint := session.checkpoint.take start, graph := graph } := by
    refine ⟨rewindable.snapshot, ?_, rewindable.logits, rewindable.valid⟩
    rw [take_take, Nat.min_self]
    exact rewindable.checkpoint
  unfold microPartial
  simp only
  split
  next partialCase =>
    obtain ⟨prefixOne, row0⟩ := captured partialCase.1 partialCase.2.1 partialCase.2.2
    obtain ⟨after, committed, tokens, rows⟩ := Graph.commitPrefix1_spec copies session.graph
    rw [committed]
    simp only
    rcases after.readTensor_cases device (after.specLogits 0) with
      ⟨final, read⟩ | ⟨final, read, kept⟩
    · rw [read]
      exact microFailed_settled copies (rewound _) _
    · rw [read]
      have takeOne : drafts.take 1 = [drafts.headD 0] := by
        obtain ⟨rest, rfl⟩ := drafted.head
        rfl
      rw [takeOne] at prefixOne row0
      refine drafted.correct_accept_one ?_
      rw [rewindable.checkpoint]
      refine inStep_commit (kept.trans (tokens.trans prefixOne)) ?_
      rw [rows, row0]
  · cases frontier with
    | none => exact microFailed_settled copies (rewound _) _
    | some saved =>
      obtain ⟨after, restored, tokens⟩ := Graph.restore_spec copies saved session.graph
      simp only [restored]
      have savedTokens := rewindable.snapshot saved rfl
      refine microReplay_settled drafted copies savedTokens ?_ pos commitLe follows
      exact ⟨rewindable.checkpoint, tokens.trans savedTokens, rewindable.logits, rewindable.valid⟩

theorem microCommit_settled
    (noReplay : engine.exactReplay = false) {capturePrefix1 : Bool} {draft : Int} {rest : List Int}
    (draftsEq : drafts = draft :: rest) (rewindable : Rewindable target (old ++ [firstToken])
      (old ++ [firstToken]).length frontier session)
    (checkpoint : session.checkpoint = old ++ [firstToken] ++ drafts)
    (tokens : session.graph.tokens = old ++ [firstToken] ++ drafts)
    (rows : ∀ i, session.graph.specLogits i =
      target.logitsOf (old ++ [firstToken] ++ drafts.take (i + 1)))
    (captured : capturePrefix1 = true → rest.length = 1 →
      session.graph.prefixOne = old ++ [firstToken] ++ [draft]) :
    Settled target old firstToken maxTokens eosToken acceptedCap
      (microCommit target device engine eosToken acceptedCap base
        capturePrefix1 frontier (old ++ [firstToken]).length drafts
        (picks target.next (old ++ [firstToken] ++ [draft]) rest) [firstToken] session) := by
  have headEq : draft = target.next (old ++ [firstToken]) := by
    obtain ⟨_, head⟩ := drafted.head
    rw [draftsEq] at head
    exact (List.cons.inj head).1
  have agreeLe := agreement_le_right (picks target.next (old ++ [firstToken] ++ [draft]) rest) rest
  have follows : Follows target.next (old ++ [firstToken]) (drafts.take (1 + agreement
        (picks target.next (old ++ [firstToken] ++ [draft]) rest) rest)) := by
    rw [draftsEq, Nat.add_comm, take_succ_cons, follows_cons]
    exact ⟨headEq, follows_take_agreement _ _ _⟩
  have captured' : drafts.length = 2 → capturePrefix1 = true →
      session.graph.prefixOne = old ++ [firstToken] ++ drafts.take 1 ∧ session.graph.specLogits 0 =
          target.logitsOf (old ++ [firstToken] ++ drafts.take 1) := by
    intro two capture
    refine ⟨?_, rows 0⟩
    rw [draftsEq] at two ⊢
    exact captured capture (by simpa using two)
  have tailEq : drafts.tail = rest := by rw [draftsEq, tail_cons]
  have lengthEq : drafts.length = rest.length + 1 := by rw [draftsEq, length_cons]
  unfold microCommit
  simp only [exactReplayDebug, noReplay, tailEq]
  split
  next all =>
    rcases session.graph.readTensor_cases device (session.graph.specLogits (drafts.length - 1)) with
      ⟨after, read⟩ | ⟨after, read, kept⟩
    · rw [read]
      refine microPartial_settled drafted copies (rewindable.withGraph _) ?_
        (by omega) (by omega) follows
      intro two one
      omega
    · rw [read]
      have fits := drafted.fits
      have accepted : acceptDrafts eosToken acceptedCap drafts [firstToken] =
          firstToken :: drafts.take drafts.length := by
        rw [acceptDrafts_eq drafted.eosLast, take_length]
        · rfl
        · rw [length_singleton]
          omega
      rw [all] at follows
      simp only [accepted, rows]
      refine drafted.correct_accept follows ?_
      have lastRow : drafts.length - 1 + 1 = drafts.length := by omega
      rw [checkpoint, lastRow, take_length]
      exact inStep_commit (kept.trans tokens) rfl
  · refine microPartial_settled drafted copies rewindable ?_ (by omega)
      (by omega) follows
    exact fun two _ capture => captured' two capture

theorem microVerify_settled (noReplay : engine.exactReplay = false)
    (snapshot : ∀ saved, frontier = some saved → saved.tokens = old ++ [firstToken])
    (inStep : InStep target (old ++ [firstToken]) session) (capture : Bool) :
    Settled target old firstToken maxTokens eosToken acceptedCap
      (microVerify target device engine eosToken acceptedCap base capture
        frontier drafts [firstToken] session) := by
  obtain ⟨rest, draftsEq⟩ := drafted.head
  have rewindable (graph : Graph Logits) :
      Rewindable target (old ++ [firstToken]) session.checkpoint.length frontier { session with
          checkpoint := session.checkpoint ++ drafts, graph := graph } := by
    refine ⟨snapshot, ?_, inStep.logits, inStep.valid⟩
    rw [take_left, inStep.checkpoint]
  have lengthEq : drafts.length = rest.length + 1 := by rw [draftsEq, length_cons]
  have verified := session.graph.verifySuffixTops_cases target device
    inStep.graph (target.next (old ++ [firstToken])) rest lengthEq capture
  rw [← draftsEq] at verified
  unfold microVerify
  simp only [inStep.checkpoint] at rewindable ⊢
  rcases verified with ⟨after, verify⟩ | ⟨after, verify, tokens, rows, captured⟩
  · rw [verify]
    exact microFailed_settled copies (rewindable _) _
  · rw [verify]
    exact microCommit_settled drafted copies noReplay draftsEq (rewindable _)
      rfl tokens rows captured

theorem microBatch_settled
    (noReplay : engine.exactReplay = false) (inStep : InStep target (old ++ [firstToken]) session) :
    Settled target old firstToken maxTokens eosToken acceptedCap
      (microBatch target device engine eosToken acceptedCap base drafts [firstToken] session) := by
  unfold microBatch
  simp only
  split
  · rw [Graph.snapshot_eq copies]
    refine microVerify_settled drafted copies noReplay ?_ ?_ _
    · intro saved same
      cases same
      exact inStep.graph
    · exact ⟨inStep.checkpoint, inStep.graph, inStep.logits, inStep.valid⟩
  · exact microVerify_settled drafted copies noReplay (by simp) inStep _

theorem decode2Exact_settled
    (two : drafts.length = 2) (inStep : InStep target (old ++ [firstToken]) session) :
    Settled target old firstToken maxTokens eosToken acceptedCap
      (decode2Exact target device acceptedCap base (drafts.getD 0 0)
        (drafts.getD 1 0) [firstToken] session) := by
  obtain ⟨draft0, draft1, rfl⟩ := length_eq_two.mp two
  have fits := drafted.fits_take 2
  obtain ⟨_, head⟩ := drafted.head
  have headEq := (List.cons.inj head).1
  unfold decode2Exact
  rw [Graph.snapshot_eq copies]
  simp only [getD_cons_zero, getD_cons_succ]
  rcases session.graph.tick.verifyDecode2Exact_cases target device draft0 draft1
      inStep.position with
    ⟨after, verify⟩ | ⟨after, verify, tokens, prefixOne⟩
  · obtain ⟨final, restored, finalTokens⟩ := Graph.restore_spec copies
      { tokens := session.graph.tokens, mtpRaw := session.graph.mtpRaw } after
    rw [verify]
    simp only [restored]
    exact ⟨inStep.checkpoint, finalTokens.trans inStep.graph, inStep.logits, inStep.valid⟩
  · rw [verify]
    simp only
    split
    next agrees =>
      have follows : Follows target.next (old ++ [firstToken]) ([draft0, draft1].take 2) := by
        rw [take_of_length_le (by simp), follows_cons, follows_cons]
        refine ⟨headEq, ?_, follows_nil _ _⟩
        rw [← inStep.graph]
        exact agrees.symm
      have room : (([firstToken] ++ [draft0]).length : Int) < acceptedCap := by
        simp only [length_cons, length_nil, take_succ_cons, length_append] at fits ⊢
        omega
      rw [if_pos room]
      refine drafted.correct_accept follows ?_
      rw [Graph.tick_tokens, inStep.graph] at tokens ⊢
      rw [inStep.checkpoint]
      exact inStep_commit tokens rfl
    · obtain ⟨final, committed, finalTokens, _⟩ := Graph.commitPrefix1_spec copies after
      rw [committed]
      exact evalFirst_correct drafted inStep (finalTokens.trans prefixOne)

end Paths

variable {Logits : Type*} {target : Target Logits} {device : Device Logits} {engine : Engine Logits}

/-- The state of the sequential fallback after a number of verified drafts. -/
structure Verifying (target : Target Logits) (context drafts : List Int)
    (count verified : Nat) (session : Session Logits) : Prop where
  follows : Follows target.next context (drafts.take count)
  checkpoint : session.checkpoint = context ++ drafts.take count
  graph : session.graph.tokens = context ++ drafts.take count
  valid : session.checkpointValid = true
  onHost : verified = 0 →
    session.logits = target.logitsOf (context ++ drafts.take count)
  onDevice : 0 < verified →
    session.graph.logits = target.logitsOf (context ++ drafts.take count)

variable {session : Session Logits} {drafts : List Int}

theorem Verifying.push {context remaining : List Int} {n verified : Nat} {draft : Int}
    {after : Graph Logits} (verifying : Verifying target context drafts n verified session)
    (dropEq : drafts.drop n = draft :: remaining)
    (agrees : target.next (context ++ drafts.take n) = draft)
    (tokens : after.tokens = session.graph.tokens ++ [draft])
    (logits : after.logits = target.logitsOf (session.graph.tokens ++ [draft])) :
    Verifying target context drafts (n + 1) (verified + 1) { session with
        graph := after, checkpoint := session.checkpoint ++ [draft] } := by
  have takeEq : drafts.take (n + 1) = drafts.take n ++ [draft] := by
    rw [take_add, dropEq]
    rfl
  have contextEq : context ++ drafts.take (n + 1) = context ++ drafts.take n ++ [draft] := by
    rw [takeEq, append_assoc]
  refine ⟨?_, ?_, ?_, verifying.valid, by simp, fun _ => ?_⟩
  · rw [takeEq]
    refine verifying.follows.append _ ?_
    rw [follows_cons]
    exact ⟨agrees.symm, follows_nil _ _⟩
  · rw [contextEq, ← verifying.checkpoint]
  · rw [contextEq, ← verifying.graph]
    exact tokens
  · rw [contextEq, ← verifying.graph]
    exact logits

/-- The loop of the fallback ends in a correct failure, or with some of the
drafts verified and accepted. -/
def Verified (target : Target Logits) (old : List Int)
    (firstToken maxTokens eosToken acceptedCap : Int) (drafts : List Int)
    (result : Outcome Logits ⊕ (List Int × Nat × Session Logits)) : Prop :=
  match result with
  | .inl outcome => Correct target old firstToken maxTokens eosToken acceptedCap outcome
  | .inr (accepted, verified, session) =>
    ∃ count, accepted = firstToken :: drafts.take count ∧
      Verifying target (old ++ [firstToken]) drafts count verified session

variable {old : List Int} {eosToken firstToken maxTokens acceptedCap : Int}

theorem sequentialLoop_verified
    (remaining : List Int) {targetTop : Int} {n verified : Nat} (dropEq : drafts.drop n = remaining)
    (top : targetTop = target.next (old ++ [firstToken] ++ drafts.take n))
    (verifying : Verifying target (old ++ [firstToken]) drafts n verified session) :
    Verified target old firstToken maxTokens eosToken acceptedCap drafts
      (sequentialLoop target device eosToken acceptedCap remaining targetTop
        (firstToken :: drafts.take n) verified session) := by
  induction remaining generalizing targetTop n verified session with
  | nil => exact ⟨n, rfl, verifying⟩
  | cons draft remaining ih =>
    rw [sequentialLoop]
    split
    next continues =>
      have takeEq : firstToken :: drafts.take n ++ [draft] =
          firstToken :: drafts.take (n + 1) := by
        rw [take_add, dropEq]
        rfl
      have agrees : target.next (old ++ [firstToken] ++ drafts.take n) = draft := by
        rw [← top, continues.2]
      have pos : session.graph.tokens.length = session.checkpoint.length := by
        rw [verifying.graph, verifying.checkpoint]
      unfold Graph.evalTokenRawSwaTop
      rcases session.graph.evalTokenRawSwa_cases target device draft
          pos with ⟨after, eval⟩ | ⟨after, eval, tokens, logits⟩
      · rw [eval]
        exact correct_fail _ _ _ _ _ _ _
      · have pushed := verifying.push dropEq agrees tokens logits
        rw [eval]
        simp only [Option.map_some, takeEq]
        split
        · exact ⟨n + 1, rfl, pushed⟩
        · refine ih ?_ ?_ pushed
          · rw [← drop_drop, dropEq, drop_one, tail_cons]
          · rw [← pushed.graph, tokens, Target.next]
    · exact ⟨n, rfl, verifying⟩

theorem sequential_correct {base : Nat}
    (drafted : Drafted target old firstToken maxTokens eosToken acceptedCap drafts)
    (inStep : InStep target (old ++ [firstToken]) session) :
    Correct target old firstToken maxTokens eosToken acceptedCap
      (sequential target device eosToken acceptedCap base drafts [firstToken] session) := by
  have start : Verifying target (old ++ [firstToken]) drafts 0 0 session := by
    refine ⟨follows_nil _ _, ?_, ?_, inStep.valid, fun _ => ?_, by simp⟩
    · simpa using inStep.checkpoint
    · simpa using inStep.graph
    · simpa using inStep.logits
  have top : target.sampleArgmax session.logits =
      target.next (old ++ [firstToken] ++ drafts.take 0) := by
    rw [start.onHost rfl, Target.next]
  have loop : Verified target old firstToken maxTokens eosToken acceptedCap
      drafts (sequentialLoop target device eosToken acceptedCap drafts
        (target.sampleArgmax session.logits) [firstToken] 0 session) :=
    sequentialLoop_verified drafts rfl top start
  unfold sequential
  generalize sequentialLoop target device eosToken acceptedCap drafts
    (target.sampleArgmax session.logits) [firstToken] 0 session = result
    at loop ⊢
  rcases result with outcome | ⟨accepted, verified, final⟩
  · exact loop
  · obtain ⟨n, rfl, verifying⟩ := loop
    simp only
    split
    next pos =>
      rcases final.graph.readTensor_cases device final.graph.logits with
        ⟨after, read⟩ | ⟨after, read, kept⟩
      · rw [read]
        exact correct_fail _ _ _ _ _ _ _
      · rw [read]
        refine drafted.correct_accept verifying.follows ?_
        exact ⟨verifying.checkpoint, kept.trans verifying.graph,
          verifying.onDevice pos, verifying.valid⟩
    next notPositive =>
      refine drafted.correct_accept verifying.follows ?_
      exact ⟨verifying.checkpoint, verifying.graph, verifying.onHost (by omega), verifying.valid⟩

theorem verifyDrafts_correct {base : Nat} (copies : ∀ time, device.copyFails time = false)
    (noReplay : engine.exactReplay = false)
    (drafted : Drafted target old firstToken maxTokens eosToken acceptedCap drafts)
    (inStep : InStep target (old ++ [firstToken]) session) :
    Correct target old firstToken maxTokens eosToken acceptedCap
      (verifyDrafts target device engine eosToken acceptedCap base drafts
        [firstToken] session) := by
  unfold verifyDrafts
  split
  · exact marginSkip_correct drafted inStep
  · simp only
    have settled : Settled target old firstToken maxTokens eosToken acceptedCap
        (if drafts.length = 2 ∧ engine.strict ∧ !engine.batchVerify then
          decode2Exact target device acceptedCap base (drafts.getD 0 0)
            (drafts.getD 1 0) [firstToken] session
        else
          microBatch target device engine eosToken acceptedCap base drafts
            [firstToken] session) := by
      split
      next exactCase =>
        exact decode2Exact_settled drafted copies exactCase.1 inStep
      · exact microBatch_settled drafted copies noReplay inStep
    split
    next outcome verdict =>
      rw [verdict] at settled
      exact settled
    next next verdict =>
      rw [verdict] at settled
      exact sequential_correct drafted settled

theorem draftLoop_spec (device : Device Logits) (needLogits : Bool) {context : List Int}
    (remaining : Nat) (inStep : InStep target context session)
    (eosLast : eosToken ∉ drafts.dropLast) (noEos : 0 < remaining → eosToken ∉ drafts) :
    InStep target context (session.draftLoop target device needLogits eosToken remaining drafts).2 ∧
      ∀ produced, (session.draftLoop target device needLogits eosToken remaining
          drafts).1 = some produced →
        drafts <+: produced ∧ eosToken ∉ produced.dropLast ∧
          produced.length ≤ drafts.length + remaining := by
  induction remaining generalizing session drafts with
  | zero =>
    refine ⟨inStep, fun produced same => ?_⟩
    cases same
    exact ⟨prefix_rfl, eosLast, Nat.le_refl _⟩
  | succ remaining ih =>
    rw [Session.draftLoop]
    have kept : (session.graph.evalMtpDraft device).2.tokens = session.graph.tokens := rfl
    generalize session.graph.evalMtpDraft device = answer at kept
    have after (logits : Logits) : InStep target context
        { session with graph := answer.2, mtpLogits := logits } :=
      ⟨inStep.checkpoint, kept.trans inStep.graph, inStep.logits, inStep.valid⟩
    rcases answer with ⟨_ | draft, graph⟩
    · exact ⟨after session.mtpLogits, by simp⟩
    · simp only
      generalize (if 0 ≤ draft.top then draft.top else _) = token
      split
      · refine ⟨after _, fun produced same => ?_⟩
        cases same
        refine ⟨prefix_append _ _, ?_, by simp⟩
        rw [dropLast_concat]
        exact noEos (by omega)
      next notEos =>
        have stillLast : eosToken ∉ (drafts ++ [token]).dropLast := by
          rw [dropLast_concat]
          exact noEos (by omega)
        have stillFree : eosToken ∉ drafts ++ [token] := by
          rw [mem_append, mem_singleton, not_or]
          exact ⟨noEos (by omega), Ne.symm notEos⟩
        obtain ⟨stays, spec⟩ := ih (after _) stillLast fun _ => stillFree
        refine ⟨stays, fun produced same => ?_⟩
        obtain ⟨grows, last, bound⟩ := spec produced same
        rw [length_append, length_singleton] at bound
        exact ⟨(prefix_append _ _).trans grows, last, by omega⟩

theorem evalInternal_spec (device : Device Logits) (engine : Engine Logits) (firstToken : Int)
    (inStep : InStep target old session) :
    (∃ after, session.evalInternal target device engine firstToken true =
        (false, after) ∧ after.checkpointValid = false) ∨
      ∃ after, session.evalInternal target device engine firstToken true =
          (true, after) ∧ InStep target (old ++ [firstToken]) after := by
  unfold Session.evalInternal
  split
  · right
    simp only [Graph.decodeStep, inStep.position, ↓reduceIte]
    refine ⟨_, rfl, ?_, ?_, ?_, rfl⟩
    · rw [inStep.checkpoint]
    · rw [inStep.graph]
    · rw [inStep.graph]
  · rcases session.graph.evalTokenRawSwa_cases target device firstToken
        inStep.position with ⟨after, eval⟩ | ⟨after, eval, tokens, _⟩
    · left
      rw [eval]
      exact ⟨_, rfl, rfl⟩
    · right
      rw [eval]
      simp only
      rw [inStep.graph] at tokens ⊢
      split
      · have kept : (after.evalMtpDraft device).2.tokens = after.tokens := rfl
        generalize after.evalMtpDraft device = answer at kept
        rcases answer with ⟨_ | draft, graph⟩
        · refine ⟨_, rfl, ?_, kept.trans tokens, rfl, inStep.valid⟩
          rw [inStep.checkpoint]
        · refine ⟨_, rfl, ?_, kept.trans tokens, rfl, inStep.valid⟩
          rw [inStep.checkpoint]
      · refine ⟨_, rfl, ?_, tokens, rfl, inStep.valid⟩
        rw [inStep.checkpoint]

theorem correct_accept_first (maxPositive : 0 < maxTokens) (capPositive : 0 < acceptedCap)
    (inStep : InStep target (old ++ [firstToken]) session) :
    Correct target old firstToken maxTokens eosToken acceptedCap
      (.accept [firstToken] session) := by
  refine .inr ⟨rfl, ?_, ⟨[], rfl, follows_nil _ _⟩, by simp [Outcome.accept],
    inStep⟩
  simp only [Outcome.accept, length_singleton]
  omega

theorem speculate_correct {draftCap : Int} (copies : ∀ time, device.copyFails time = false)
    (noReplay : engine.exactReplay = false) (inStep : InStep target (old ++ [firstToken]) session)
    (firstNeEos : firstToken ≠ eosToken) (room : 0 < draftCap)
    (fits : draftCap + 1 ≤ min maxTokens acceptedCap) :
    Correct target old firstToken maxTokens eosToken acceptedCap
      (speculate target device engine firstToken eosToken acceptedCap draftCap session) := by
  have undrafted : InStep target (old ++ [firstToken]) { session with mtpDraftValid := false } :=
    ⟨inStep.checkpoint, inStep.graph, inStep.logits, inStep.valid⟩
  have first {session : Session Logits} (inStep : InStep target (old ++ [firstToken]) session) :
      Correct target old firstToken maxTokens eosToken acceptedCap (.accept [firstToken] session) :=
    correct_accept_first (by omega) (by omega) inStep
  unfold speculate
  simp only
  split
  · exact first undrafted
  next agrees =>
    have headEq : session.mtpDraftToken = target.next (old ++ [firstToken]) := by
      rw [Target.next, ← inStep.logits]
      exact (not_not.mp agrees).symm
    generalize capEq : (if session.mtpDraftToken = eosToken then 1 else draftCap) = limit
    have limitLe : limit ≤ draftCap ∧ 0 < limit := by
      rw [← capEq]
      split <;> omega
    have noEos : 0 < limit.toNat - 1 → eosToken ∉ [session.mtpDraftToken] := by
      intro more
      rw [mem_singleton]
      rintro rfl
      simp only [↓reduceIte] at capEq
      omega
    generalize (engine.confLog || engine.fullLogits ||
      (!engine.strict && engine.marginPositive)) = needLogits
    obtain ⟨stays, spec⟩ := draftLoop_spec device needLogits (limit.toNat - 1)
      undrafted (not_mem_nil (a := eosToken)) noEos
    generalize Session.draftLoop target device needLogits eosToken _
      (limit.toNat - 1) [session.mtpDraftToken] = result at stays spec
    rcases result with ⟨_ | drafts, drafted⟩
    · exact first stays
    · obtain ⟨⟨rest, draftsEq⟩, eosLast, lengthLe⟩ := spec drafts rfl
      rw [length_singleton] at lengthLe
      refine verifyDrafts_correct copies noReplay ⟨⟨rest, ?_⟩, eosLast, firstNeEos, by omega⟩ stays
      rw [← headEq, ← draftsEq]
      rfl

/-- Every call either fails and invalidates the checkpoint, or accepts the
first token followed by the target's greedy continuation, within both limits
and with the end token at most last, and leaves tokens and logits in step. -/
theorem evalSpeculativeArgmax_greedy (target : Target Logits) (device : Device Logits)
    (engine : Engine Logits) (session : Session Logits) (old : List Int)
    (firstToken maxTokens eosToken acceptedCap : Int)
    (copies : ∀ time, device.copyFails time = false) (noReplay : engine.exactReplay = false)
    (inStep : InStep target old session) (maxPositive : 0 < maxTokens)
    (capPositive : 0 < acceptedCap) :
    Correct target old firstToken maxTokens eosToken acceptedCap
      (evalSpeculativeArgmax target device engine session firstToken maxTokens
        eosToken acceptedCap) := by
  unfold evalSpeculativeArgmax
  rcases evalInternal_spec device engine firstToken inStep with
    ⟨after, eval, invalid⟩ | ⟨after, eval, evaluated⟩
  · rw [eval]
    split
    · rw [if_neg (by omega)]
      exact .inl ⟨rfl, invalid⟩
    · rw [if_neg (by omega)]
      exact .inl ⟨rfl, invalid⟩
  · have first : Correct target old firstToken maxTokens eosToken acceptedCap
        (.accept [firstToken] after) :=
      correct_accept_first maxPositive capPositive evaluated
    rw [eval]
    split
    · rw [if_neg (by omega)]
      exact first
    rw [if_neg (by omega)]
    simp only
    split
    · exact first
    rename_i notShort
    split
    · exact first
    split
    · exact first
    rename_i room
    exact speculate_correct copies noReplay evaluated (by tauto) (by omega)
      (by omega)

/-- A target whose next token is the length of the context. -/
def countingTarget : Target Nat where
  logitsOf := List.length
  sampleArgmax := fun length => length

/-- A device whose last draft is wrong and whose batch verification fails, so
that the cycle ends in the sequential fallback. -/
def flakyDevice : Device Nat where
  fails := fun time => time == 6
  copyFails := fun _ => false
  wreckage := fun time =>
    { tokens := [], logits := 0, specLogits := fun _ => 0, prefixOne := [],
      mtpRaw := 0, clock := time }
  noise := fun _ => []
  draft := fun time =>
    { top := if time < 4 then time else 9, logits := 0, mtpRaw := 1 }

/-- An engine that drafts four tokens and verifies them in one batch. -/
def batchEngine : Engine Nat where
  cpu := false
  mtpReady := true
  mtpDraftTokens := 4
  mtpDraftTokensLe := by decide
  strict := false
  probe := false
  fullLogits := false
  confLog := false
  marginPositive := true
  marginBelow := fun _ => false
  batchVerify := false
  capturePrefix1 := false
  exactReplay := false
  forceSnapshot := false

def freshSession : Session Nat where
  graph :=
    { tokens := [], logits := 0, specLogits := fun _ => 0, prefixOne := [],
      mtpRaw := 0, clock := 0 }
  rawWindow := 8
  checkpoint := []
  logits := 0
  hasMtpLogits := true
  mtpLogits := 0
  mtpDraftToken := -1
  ctxSize := 100
  checkpointValid := true
  mtpDraftValid := false

theorem evalSpeculativeArgmax_greedy_flaky :
    let outcome := evalSpeculativeArgmax countingTarget flakyDevice batchEngine
      freshSession 7 8 100 8
    outcome.accepted = [7, 1, 2, 3] ∧ Correct countingTarget [] 7 8 100 8 outcome :=
  ⟨by decide,
    evalSpeculativeArgmax_greedy countingTarget flakyDevice batchEngine
      freshSession [] 7 8 100 8 (fun _ => rfl) rfl ⟨rfl, rfl, rfl, rfl⟩
      (by decide) (by decide)⟩

end LnaLang.SpeculativeDecode
