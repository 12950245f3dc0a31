import LnaLang.SpeculativeDevice

/-!
# Speculative decoding

`ds4_session_eval_speculative_argmax` commits one target token, lets a drafter
propose a short suffix, verifies the suffix with the target, and commits the
accepted part.  Its paths are the low-margin decode, the exact two-token
verifier, the micro-batch verifier with full, prefix-1 and replayed commits, and
the sequential fallback.

A correct cycle accepts a part of the target's greedy continuation and ends with the
session in step with it.
-/

namespace LnaLang.SpeculativeDecode

variable {Logits : Type*}

namespace Session

/-- `DS4_MTP_KEEP_ACCEPTED`. -/
def keepAccepted (session : Session Logits) (base count : Nat) : Session Logits :=
  { session with
    graph := { session.graph with
      mtpRaw := min (base + count) session.rawWindow } }

/-- The assignments that every accepting path makes. -/
def commit (session : Session Logits) (base count : Nat)
    (checkpoint : List Int) (logits : Logits) (graph : Graph Logits) :
    Session Logits :=
  keepAccepted
    { session with
      graph := graph
      checkpoint := checkpoint
      logits := logits
      checkpointValid := true
      mtpDraftValid := false } base count

/-- `ds4_session_eval_internal`; the flag tells whether it succeeded. -/
def evalInternal (target : Target Logits) (device : Device Logits)
    (engine : Engine Logits) (session : Session Logits) (token : Int)
    (probeMtp : Bool) : Bool × Session Logits :=
  if engine.cpu then
    let (logits, graph) := session.graph.decodeStep target device token session.checkpoint.length
    (true, { session with
      graph := graph
      logits := logits
      checkpoint := session.checkpoint ++ [token]
      checkpointValid := true
      mtpDraftValid := false })
  else
    let shouldDraft := probeMtp && engine.mtpReady && session.hasMtpLogits &&
      (1 < engine.mtpDraftTokens || engine.probe)
    let draftValid := !probeMtp && session.mtpDraftValid
    match session.graph.evalTokenRawSwa target device token session.checkpoint.length with
    | (none, graph) =>
      (false, { session with
        graph := graph
        logits := graph.logits
        mtpDraftValid := draftValid
        checkpointValid := false })
    | (some logits, graph) =>
      let pushed := { session with
        graph := graph
        logits := logits
        checkpoint := session.checkpoint ++ [token]
        mtpDraftValid := draftValid }
      if shouldDraft then
        match graph.evalMtpDraft device with
        | (none, graph) => (true, { pushed with graph := graph })
        | (some draft, graph) =>
          let mtpLogits :=
            if engine.fullLogits then draft.logits else pushed.mtpLogits
          (true, { pushed with
            graph := graph
            mtpLogits := mtpLogits
            mtpDraftToken :=
              if 0 ≤ draft.top then draft.top
              else target.sampleArgmax mtpLogits
            mtpDraftValid := true })
      else (true, pushed)

/-- The drafting loop: `none` when a drafter call failed. -/
def draftLoop (target : Target Logits) (device : Device Logits)
    (needLogits : Bool) (eosToken : Int) :
    Session Logits → Nat → List Int → Option (List Int) × Session Logits
  | session, 0, drafts => (some drafts, session)
  | session, remaining + 1, drafts =>
    match session.graph.evalMtpDraft device with
    | (none, graph) => (none, { session with graph := graph })
    | (some draft, graph) =>
      let mtpLogits :=
        if needLogits then draft.logits else session.mtpLogits
      let token :=
        if 0 ≤ draft.top then draft.top
        else target.sampleArgmax mtpLogits
      let session :=
        { session with graph := graph, mtpLogits := mtpLogits }
      if token = eosToken then (some (drafts ++ [token]), session)
      else
        draftLoop target device needLogits eosToken session remaining (drafts ++ [token])

end Session

/-- The loop that copies verified drafts to `accepted`. -/
def acceptDrafts (eosToken acceptedCap : Int) :
    List Int → List Int → List Int
  | [], accepted => accepted
  | draft :: drafts, accepted =>
    if (accepted.length : Int) < acceptedCap then
      if draft = eosToken then accepted ++ [draft]
      else acceptDrafts eosToken acceptedCap drafts (accepted ++ [draft])
    else accepted

namespace Outcome

/-- `return n_accept`. -/
def accept (accepted : List Int) (session : Session Logits) : Outcome Logits :=
  { ret := accepted.length, accepted := accepted, session := session }

/-- `s->checkpoint_valid = false; return -1`. -/
def fail (accepted : List Int) (session : Session Logits) : Outcome Logits :=
  { ret := -1
    accepted := accepted
    session := { session with checkpointValid := false } }

end Outcome

section Paths

variable (target : Target Logits) (device : Device Logits)
  (engine : Engine Logits) (eosToken acceptedCap : Int) (base : Nat)

/-- The low-margin path: commit the first draft by one exact decode. -/
def marginSkip (draft0 : Int) (accepted : List Int) (session : Session Logits) : Outcome Logits :=
  match session.graph.evalTokenRawSwa target device draft0 session.checkpoint.length with
  | (none, graph) => .fail accepted { session with graph := graph }
  | (some rowLogits, graph) =>
    .accept (accepted ++ [draft0])
      (session.commit base 1 (session.checkpoint ++ [draft0]) rowLogits graph)

/-- The exact two-token verifier.  It returns an outcome, or the session with
which the sequential fallback continues. -/
def decode2Exact (draft0 draft1 : Int) (accepted : List Int)
    (session : Session Logits) : Outcome Logits ⊕ Session Logits :=
  match session.graph.snapshot device with
  | (none, graph) => .inr { session with graph := graph }
  | (some frontier, graph) =>
    match graph.verifyDecode2Exact target device draft0 draft1 session.checkpoint.length with
    | (none, graph) => .inr { session with graph := (graph.restore device frontier).2 }
    | (some (row0Top, row0Logits, rowLogits), graph) =>
      if row0Top = draft1 then
        let once := accepted ++ [draft0]
        .inl (.accept (if (once.length : Int) < acceptedCap then once ++ [draft1]
            else once)
          (session.commit base 2 (session.checkpoint ++ [draft0, draft1]) rowLogits graph))
      else
        match graph.commitPrefix1 device with
        | (true, graph) =>
          .inl (.accept (accepted ++ [draft0])
            (session.commit base 1 (session.checkpoint ++ [draft0]) row0Logits graph))
        | (false, graph) => .inr { session with graph := (graph.restore device frontier).2 }

/-- The end of the micro-batch block when nothing was committed. -/
def microFailed (frontier : Option Frontier) (start : Nat)
    (accepted : List Int) (session : Session Logits) :
    Outcome Logits ⊕ Session Logits :=
  let rewound := { session with checkpoint := session.checkpoint.take start }
  match frontier with
  | some frontier =>
    .inr { rewound with
      graph := (rewound.graph.restore device frontier).2 }
  | none => .inl (.fail accepted (rewound.keepAccepted base 0))

/-- The replay of a partial accept after the frontier was restored: one exact
decode for a single token, the verifier again for more. -/
def microReplay (frontier : Frontier) (drafts : List Int) (commitDrafts : Nat)
    (accepted : List Int) (session : Session Logits) :
    Outcome Logits ⊕ Session Logits :=
  let start := session.checkpoint.length
  if drafts.length = 2 ∧ commitDrafts = 1 then
    let draft0 := drafts.headD 0
    match session.graph.evalTokenRawSwa target device draft0 start with
    | (some rowLogits, graph) =>
      .inl (.accept (accepted ++ [draft0])
        (session.commit base 1 (session.checkpoint ++ [draft0]) rowLogits graph))
    | (none, graph) =>
      microFailed device base (some frontier) start accepted
        { session with graph := graph }
  else
    let pushed := { session with
      checkpoint := session.checkpoint ++ drafts.take commitDrafts }
    match pushed.graph.verifySuffixTops target device pushed.checkpoint start
        commitDrafts false with
    | (none, graph) =>
      microFailed device base (some frontier) start accepted
        { pushed with graph := graph }
    | (some _, graph) =>
      match graph.readTensor device (graph.specLogits (commitDrafts - 1)) with
      | (none, graph) =>
        microFailed device base (some frontier) start accepted
          { pushed with graph := graph }
      | (some rowLogits, graph) =>
        .inl (.accept (acceptDrafts eosToken acceptedCap (drafts.take commitDrafts) accepted)
          (pushed.commit base commitDrafts pushed.checkpoint rowLogits graph))

/-- A partial accept, or a full accept whose logits could not be read: commit
the captured prefix-1 frontier, or restore the snapshot and replay. -/
def microPartial (capturePrefix1 : Bool) (frontier : Option Frontier)
    (start : Nat) (drafts : List Int) (commitDrafts : Nat)
    (accepted : List Int) (session : Session Logits) :
    Outcome Logits ⊕ Session Logits :=
  let rewound := { session with checkpoint := session.checkpoint.take start }
  if drafts.length = 2 ∧ commitDrafts = 1 ∧ capturePrefix1 then
    let draft0 := drafts.headD 0
    match rewound.graph.commitPrefix1 device with
    | (false, graph) =>
      microFailed device base frontier start accepted
        { rewound with graph := graph }
    | (true, graph) =>
      match graph.readTensor device (graph.specLogits 0) with
      | (none, graph) =>
        microFailed device base frontier start accepted
          { rewound with graph := graph }
      | (some rowLogits, graph) =>
        .inl (.accept (accepted ++ [draft0])
          (rewound.commit base 1 (rewound.checkpoint ++ [draft0]) rowLogits graph))
  else
    match frontier with
    | none => microFailed device base none start accepted rewound
    | some frontier =>
      match rewound.graph.restore device frontier with
      | (false, graph) =>
        microFailed device base (some frontier) start accepted
          { rewound with graph := graph }
      | (true, graph) =>
        microReplay target device eosToken acceptedCap base frontier drafts
          commitDrafts accepted { rewound with graph := graph }

/-- The replay loop of `DS4_MTP_EXACT_REPLAY`, with the last logits row. -/
def exactReplay : List Int → Logits → Session Logits → Option Logits × Session Logits
  | [], rowLogits, session => (some rowLogits, session)
  | draft :: drafts, _, session =>
    match session.graph.evalTokenRawSwa target device draft session.checkpoint.length with
    | (none, graph) => (none, { session with graph := graph })
    | (some rowLogits, graph) =>
      exactReplay drafts rowLogits
        { session with
          graph := graph
          checkpoint := session.checkpoint ++ [draft] }

def exactReplayDebug (frontier : Option Frontier) (start : Nat)
    (drafts : List Int) (commitDrafts : Nat) (accepted : List Int)
    (session : Session Logits) : Outcome Logits ⊕ Session Logits :=
  match engine.exactReplay, frontier with
  | true, some frontier =>
    let rewound :=
      { session with checkpoint := session.checkpoint.take start }
    match rewound.graph.restore device frontier with
    | (false, graph) => .inr { rewound with graph := graph }
    | (true, graph) =>
      match exactReplay target device (drafts.take commitDrafts)
          rewound.logits { rewound with graph := graph } with
      | (none, replayed) => .inr replayed
      | (some rowLogits, replayed) =>
        .inl (.accept (acceptDrafts eosToken acceptedCap (drafts.take commitDrafts) accepted)
          (replayed.commit base commitDrafts replayed.checkpoint rowLogits replayed.graph))
  | _, _ => .inr session

/-- After a successful verification: commit all drafts if all of them agree,
otherwise the agreeing part. -/
def microCommit (capturePrefix1 : Bool) (frontier : Option Frontier)
    (start : Nat) (drafts rowTops : List Int) (accepted : List Int)
    (session : Session Logits) : Outcome Logits ⊕ Session Logits :=
  let commitDrafts := 1 + GreedyDecoding.agreement rowTops drafts.tail
  match exactReplayDebug target device engine eosToken acceptedCap base frontier
      start drafts commitDrafts accepted session with
  | .inl outcome => .inl outcome
  | .inr session =>
    if commitDrafts = drafts.length then
      match session.graph.readTensor device (session.graph.specLogits (drafts.length - 1)) with
      | (some rowLogits, graph) =>
        .inl (.accept (acceptDrafts eosToken acceptedCap drafts accepted)
          (session.commit base drafts.length session.checkpoint rowLogits graph))
      | (none, graph) =>
        microPartial target device eosToken acceptedCap base capturePrefix1
          frontier start drafts commitDrafts accepted
          { session with graph := graph }
    else
      microPartial target device eosToken acceptedCap base capturePrefix1
        frontier start drafts commitDrafts accepted session

/-- Push the drafts, verify them in one batch, and commit. -/
def microVerify (capturePrefix1 : Bool) (frontier : Option Frontier)
    (drafts accepted : List Int) (session : Session Logits) :
    Outcome Logits ⊕ Session Logits :=
  let start := session.checkpoint.length
  let pushed := { session with checkpoint := session.checkpoint ++ drafts }
  match pushed.graph.verifySuffixTops target device pushed.checkpoint start
      drafts.length capturePrefix1 with
  | (none, graph) =>
    microFailed device base frontier start accepted
      { pushed with graph := graph }
  | (some rowTops, graph) =>
    microCommit target device engine eosToken acceptedCap base capturePrefix1
      frontier start drafts rowTops accepted { pushed with graph := graph }

/-- The micro-batch block.  A snapshot that fails before the verifier has run
leads straight to the sequential fallback. -/
def microBatch (drafts accepted : List Int) (session : Session Logits) :
    Outcome Logits ⊕ Session Logits :=
  let capturePrefix1 :=
    drafts.length == 2 && (!engine.strict || engine.capturePrefix1)
  let snapshotRequired :=
    2 < drafts.length || (drafts.length == 2 && (!capturePrefix1 || engine.exactReplay)) ||
      engine.forceSnapshot
  if snapshotRequired then
    match session.graph.snapshot device with
    | (none, graph) => .inr { session with graph := graph }
    | (some frontier, graph) =>
      microVerify target device engine eosToken acceptedCap base
        capturePrefix1 (some frontier) drafts accepted
        { session with graph := graph }
  else
    microVerify target device engine eosToken acceptedCap base capturePrefix1
      none drafts accepted session

/-- The loop of the sequential fallback: the accepted tokens, the number of
verified drafts and the session, or the failure of a decode. -/
def sequentialLoop : List Int → Int → List Int → Nat → Session Logits →
    Outcome Logits ⊕ (List Int × Nat × Session Logits)
  | [], _, accepted, verified, session => .inr (accepted, verified, session)
  | draft :: drafts, targetTop, accepted, verified, session =>
    if (accepted.length : Int) < acceptedCap ∧ targetTop = draft then
      match session.graph.evalTokenRawSwaTop target device draft session.checkpoint.length with
      | (none, graph) => .inl (.fail accepted { session with graph := graph })
      | (some nextTop, graph) =>
        let pushed := { session with
          graph := graph
          checkpoint := session.checkpoint ++ [draft] }
        if draft = eosToken then
          .inr (accepted ++ [draft], verified + 1, pushed)
        else
          sequentialLoop drafts nextTop (accepted ++ [draft]) (verified + 1) pushed
    else .inr (accepted, verified, session)

def sequential (drafts accepted : List Int) (session : Session Logits) : Outcome Logits :=
  match sequentialLoop target device eosToken acceptedCap drafts
      (target.sampleArgmax session.logits) accepted 0 session with
  | .inl outcome => outcome
  | .inr (accepted, verified, session) =>
    if 0 < verified then
      match session.graph.readTensor device session.graph.logits with
      | (none, graph) => .fail accepted { session with graph := graph }
      | (some logits, graph) =>
        .accept accepted (Session.keepAccepted
            { session with graph := graph, logits := logits } base verified)
    else .accept accepted (session.keepAccepted base verified)

def verifyDrafts (drafts accepted : List Int) (session : Session Logits) : Outcome Logits :=
  if !engine.strict ∧ drafts.length = 2 ∧ engine.marginPositive ∧
      engine.marginBelow session.mtpLogits then
    marginSkip target device base (drafts.headD 0) accepted session
  else
    let verdict :=
      if drafts.length = 2 ∧ engine.strict ∧ !engine.batchVerify then
        decode2Exact target device acceptedCap base (drafts.getD 0 0)
          (drafts.getD 1 0) accepted session
      else
        microBatch target device engine eosToken acceptedCap base drafts accepted session
    match verdict with
    | .inl outcome => outcome
    | .inr session => sequential target device eosToken acceptedCap base drafts accepted session

end Paths

/-- From the first draft on: check it against the target's logits, draft a
suffix, and verify. -/
def speculate (target : Target Logits) (device : Device Logits)
    (engine : Engine Logits) (firstToken eosToken acceptedCap draftCap : Int)
    (session : Session Logits) : Outcome Logits :=
  let draft0 := session.mtpDraftToken
  let session := { session with mtpDraftValid := false }
  if target.sampleArgmax session.logits ≠ draft0 then
    .accept [firstToken] session
  else
    let draftCap := if draft0 = eosToken then 1 else draftCap
    let needLogits := engine.confLog || engine.fullLogits ||
      (!engine.strict && engine.marginPositive)
    match session.draftLoop target device needLogits eosToken (draftCap.toNat - 1) [draft0] with
    | (none, drafted) => .accept [firstToken] drafted
    | (some drafts, drafted) =>
      verifyDrafts target device engine eosToken acceptedCap
        session.graph.mtpRaw drafts [firstToken] drafted

/-- `ds4_session_eval_speculative_argmax`. -/
def evalSpeculativeArgmax (target : Target Logits) (device : Device Logits)
    (engine : Engine Logits) (session : Session Logits)
    (firstToken maxTokens eosToken acceptedCap : Int) : Outcome Logits :=
  if engine.cpu then
    if acceptedCap ≤ 0 then .accept [] session
    else
      match session.evalInternal target device engine firstToken true with
      | (false, session) => { ret := -1, accepted := [], session := session }
      | (true, session) => .accept [firstToken] session
  else if maxTokens ≤ 0 ∨ acceptedCap ≤ 0 then .accept [] session
  else
    match session.evalInternal target device engine firstToken true with
    | (false, session) => { ret := -1, accepted := [], session := session }
    | (true, session) =>
      let draftCap := min (min (min (engine.mtpDraftTokens : Int)
        (maxTokens - 1)) (acceptedCap - 1))
        (session.ctxSize - session.checkpoint.length - 1)
      if firstToken = eosToken ∨ maxTokens = 1 ∨ acceptedCap ≤ 1 then
        .accept [firstToken] session
      else if !engine.mtpReady ∨ !session.mtpDraftValid ∨ engine.mtpDraftTokens ≤ 1 then
        .accept [firstToken] session
      else if draftCap ≤ 0 then .accept [firstToken] session
      else
        speculate target device engine firstToken eosToken acceptedCap draftCap session

open List

open GreedyDecoding

variable {target : Target Logits}

/-- Checkpoint, graph and logits all describe the given context. -/
structure InStep (target : Target Logits) (context : List Int)
    (session : Session Logits) : Prop where
  checkpoint : session.checkpoint = context
  graph : session.graph.tokens = context
  logits : session.logits = target.logitsOf context
  valid : session.checkpointValid = true

variable {session : Session Logits} {context : List Int}

theorem InStep.position (inStep : InStep target context session) :
    session.graph.tokens.length = session.checkpoint.length := by
  rw [inStep.graph, inStep.checkpoint]

/-- A session whose graph is lost but which can go back to the context: the
checkpoint still starts with it, the logits are untouched, and a snapshot, if
there is one, was taken there. -/
structure Rewindable (target : Target Logits) (context : List Int)
    (start : Nat) (frontier : Option Frontier) (session : Session Logits) :
    Prop where
  snapshot : ∀ saved, frontier = some saved → saved.tokens = context
  checkpoint : session.checkpoint.take start = context
  logits : session.logits = target.logitsOf context
  valid : session.checkpointValid = true

theorem Rewindable.withGraph {start : Nat} {frontier : Option Frontier}
    (rewindable : Rewindable target context start frontier session) (graph : Graph Logits) :
    Rewindable target context start frontier { session with graph := graph } :=
  ⟨rewindable.snapshot, rewindable.checkpoint, rewindable.logits, rewindable.valid⟩

/-- What a cycle that starts from the old context must have achieved. -/
def Correct (target : Target Logits) (old : List Int)
    (firstToken maxTokens eosToken acceptedCap : Int)
    (outcome : Outcome Logits) : Prop :=
  (outcome.ret = -1 ∧ outcome.session.checkpointValid = false) ∨
    outcome.ret = outcome.accepted.length ∧ outcome.ret ≤ min maxTokens acceptedCap ∧
      (∃ rest, outcome.accepted = firstToken :: rest ∧
        Follows target.next (old ++ [firstToken]) rest) ∧
      eosToken ∉ outcome.accepted.dropLast ∧
      InStep target (old ++ outcome.accepted) outcome.session

theorem correct_fail (accepted : List Int) (session : Session Logits)
    (old : List Int) (firstToken maxTokens eosToken acceptedCap : Int) :
    Correct target old firstToken maxTokens eosToken acceptedCap (.fail accepted session) :=
  .inl ⟨rfl, rfl⟩

section Cycle

variable (target) (old : List Int) (firstToken maxTokens eosToken acceptedCap : Int)

/-- What is known of the drafts when they are verified: the first one is the
target's own choice, an end token can only be the last one, and all of them fit
next to the first token. -/
structure Drafted (drafts : List Int) : Prop where
  head : ∃ rest, drafts = target.next (old ++ [firstToken]) :: rest
  eosLast : eosToken ∉ drafts.dropLast
  firstNeEos : firstToken ≠ eosToken
  fits : (drafts.length : Int) + 1 ≤ min maxTokens acceptedCap

/-- A path either returns a correct outcome or continues with a session that is
still in step with the old context and the first token. -/
def Settled (verdict : Outcome Logits ⊕ Session Logits) : Prop :=
  match verdict with
  | .inl outcome => Correct target old firstToken maxTokens eosToken acceptedCap outcome
  | .inr session => InStep target (old ++ [firstToken]) session

end Cycle

section Drafts

variable {old : List Int} {firstToken maxTokens eosToken acceptedCap : Int} {drafts : List Int}
  (drafted : Drafted target old firstToken maxTokens eosToken acceptedCap drafts)

include drafted

theorem Drafted.eos_not_mem_dropLast_take (n : Nat) : eosToken ∉ (drafts.take n).dropLast := by
  intro mem
  refine drafted.eosLast ?_
  rw [dropLast_eq_take] at mem ⊢
  rw [take_take] at mem
  refine (take_prefix_take_left (l := drafts) ?_).subset mem
  rw [length_take]
  omega

theorem Drafted.correct_accept {n : Nat} {session : Session Logits}
    (follows : Follows target.next (old ++ [firstToken]) (drafts.take n))
    (inStep : InStep target (old ++ [firstToken] ++ drafts.take n) session) :
    Correct target old firstToken maxTokens eosToken acceptedCap
      (.accept (firstToken :: drafts.take n) session) := by
  have fits := drafted.fits
  have takeLe := length_take_le' n drafts
  rw [append_assoc] at inStep
  refine .inr ⟨rfl, ?_, ⟨_, rfl, follows⟩, ?_, inStep⟩
  · simp only [Outcome.accept, length_cons]
    omega
  · simp only [Outcome.accept]
    cases taken : drafts.take n with
    | nil => simp
    | cons draft rest =>
      have notMember := drafted.eos_not_mem_dropLast_take n
      rw [taken] at notMember
      rw [dropLast_cons_of_ne_nil (by simp), mem_cons, not_or]
      exact ⟨drafted.firstNeEos.symm, notMember⟩

theorem Drafted.follows_one : Follows target.next (old ++ [firstToken]) (drafts.take 1) := by
  obtain ⟨rest, rfl⟩ := drafted.head
  rw [take_succ_cons, take_zero, follows_cons]
  exact ⟨rfl, follows_nil _ _⟩

theorem Drafted.correct_accept_one {session : Session Logits}
    (inStep : InStep target (old ++ [firstToken] ++ [drafts.headD 0]) session) :
    Correct target old firstToken maxTokens eosToken acceptedCap
      (.accept ([firstToken] ++ [drafts.headD 0]) session) := by
  have takeOne : drafts.take 1 = [drafts.headD 0] := by
    obtain ⟨rest, rfl⟩ := drafted.head
    rfl
  rw [← takeOne] at inStep ⊢
  exact drafted.correct_accept drafted.follows_one inStep

theorem Drafted.fits_take (n : Nat) :
    (([firstToken].length : Nat) : Int) + (drafts.take n).length ≤ acceptedCap := by
  have fits := drafted.fits
  have takeLe := length_take_le' n drafts
  rw [length_singleton]
  omega

end Drafts

theorem acceptDrafts_eq {eosToken acceptedCap : Int} {drafts accepted : List Int}
    (eosLast : eosToken ∉ drafts.dropLast)
    (fits : (accepted.length : Int) + drafts.length ≤ acceptedCap) :
    acceptDrafts eosToken acceptedCap drafts accepted = accepted ++ drafts := by
  induction drafts generalizing accepted with
  | nil => simp [acceptDrafts]
  | cons draft drafts ih =>
    simp only [length_cons] at fits
    rw [acceptDrafts, if_pos (by omega)]
    cases drafts with
    | nil => split <;> simp [acceptDrafts]
    | cons second drafts =>
      rw [dropLast_cons_of_ne_nil (by simp), mem_cons,
        not_or] at eosLast
      have fitsRest : ((accepted ++ [draft]).length : Int) +
          (second :: drafts).length ≤ acceptedCap := by
        rw [length_append, length_singleton]
        omega
      rw [if_neg (Ne.symm eosLast.1), ih eosLast.2 fitsRest]
      simp

theorem inStep_commit {base n : Nat} {logits : Logits} {graph : Graph Logits}
    (tokens : graph.tokens = context) (logitsEq : logits = target.logitsOf context) :
    InStep target context (session.commit base n context logits graph) :=
  ⟨rfl, tokens, logitsEq, rfl⟩

end LnaLang.SpeculativeDecode
