import LnaLang.KvCacheTranscript
import Mathlib

/-!
# Checkpoints of a long generation

The decode loop stores the live checkpoint whenever the token count at its head is a
multiple of the continued step.  No multiple is left out as long as every round appends at
most one token.
-/

namespace LnaLang.KvCache

/-- `kv_cache_continued_step`.  The sum is that of two C integers, which wraps around; a
step that has become negative by it is caught. -/
def kvCacheContinuedStep (kv : DiskCache) : Int :=
  let step := kv.opt.continuedIntervalTokens
  let align := kv.opt.boundaryAlignTokens
  if !kv.enabled ∨ step ≤ 0 then 0
  else if 0 < align then
    let aligned := ((step + align - 1).bmod (2 ^ 32)).tdiv align * align
    if aligned ≤ 0 then align else aligned
  else step

/-- `kv_cache_continued_store_target`. -/
def kvCacheContinuedStoreTarget (kv : DiskCache) (liveTokens : Int) : Int :=
  let step := kvCacheContinuedStep kv
  if step ≤ 0 then 0
  else if liveTokens < kv.opt.minTokens then 0
  else if liveTokens % step ≠ 0 then 0
  else if liveTokens ≤ kv.continuedLastStoreTokens then 0
  else liveTokens

variable {Session Memory : Type}

/-- `kv_cache_note_store`. -/
def kvCacheNoteStore (server : Server Session Memory) (tokens : Int) : Server Session Memory :=
  if server.kv.continuedLastStoreTokens < tokens then
    { server with kv := { server.kv with continuedLastStoreTokens := tokens } }
  else server

namespace Runtime

variable (rt : Runtime Session Memory)

/-- The length of `ds4_session_tokens`. -/
def liveTokens (session : Session) : Int :=
  (rt.tokens session).length

def continuedTarget (server : Server Session Memory) : Int :=
  kvCacheContinuedStoreTarget server.kv (rt.liveTokens server.session)

/-- The store of `kv_cache_maybe_store_continued`. -/
def storeContinued (io : Io) (server : Server Session Memory) : Bool × Server Session Memory :=
  rt.kvCacheStoreLivePrefix io server (rt.tokens server.session) (rt.continuedTarget server)
    .continued

/-- `kv_cache_maybe_store_continued`. -/
def kvCacheMaybeStoreContinued (io : Io) (server : Server Session Memory) :
    Server Session Memory :=
  if rt.continuedTarget server = 0 then server
  else
    match rt.storeContinued io server with
    | (true, after) => kvCacheNoteStore after (rt.continuedTarget server)
    | (false, after) => after

/-- A round of the decode loop: whether it is in a tool call, and the session when its tokens
have been evaluated. -/
structure Round (Session : Type) where
  io : Io
  inToolCall : Bool
  after : Session

/-- The calls of `kv_cache_maybe_store_continued` in the decode loop of `generate_job`, with
the server that each one finds. -/
def decodeLoop : List (Round Session) → Server Session Memory →
    List (Io × Server Session Memory)
  | [], _ => []
  | round :: rounds, server =>
    if round.inToolCall then decodeLoop rounds { server with session := round.after }
    else (round.io, server) :: decodeLoop rounds
      { rt.kvCacheMaybeStoreContinued round.io server with session := round.after }

/-- Every round appends at most one token. -/
def SingleTokens : Session → List (Round Session) → Prop
  | _, [] => True
  | session, round :: rounds =>
    rt.liveTokens round.after ≤ rt.liveTokens session + 1 ∧ SingleTokens round.after rounds

variable {rt} {server : Server Session Memory}

theorem kvCacheStoreLivePrefix_keeps (io : Io) (tokens : List Int) (storeLen : Int)
    (reason : Reason) :
    let stored := (rt.kvCacheStoreLivePrefix io server tokens storeLen reason).2
    stored.kv = server.kv ∧ stored.session = server.session := by
  have text (store : List Int) (bytes : Bytes) :
      (rt.storeText io server reason store bytes).2.kv = server.kv ∧
        (rt.storeText io server reason store bytes).2.session = server.session := by
    unfold storeText
    dsimp only
    split
    · exact ⟨rfl, rfl⟩
    · split
      · exact ⟨rfl, rfl⟩
      · exact ⟨rfl, rfl⟩
  unfold kvCacheStoreLivePrefix
  dsimp only
  repeat' split
  all_goals first | exact ⟨rfl, rfl⟩ | exact text _ _

/-- A count that is still to be stored. -/
structure Due (kv : DiskCache) (count : Int) : Prop where
  positive : 0 < kvCacheContinuedStep kv
  multiple : kvCacheContinuedStep kv ∣ count
  enough : kv.opt.minTokens ≤ count
  new : kv.continuedLastStoreTokens < count

theorem Due.target {kv : DiskCache} {n : Int} (due : Due kv n) :
    kvCacheContinuedStoreTarget kv n = n := by
  obtain ⟨pos, multiple, enough, new⟩ := due
  unfold kvCacheContinuedStoreTarget
  dsimp only
  rw [if_neg (by omega), if_neg (by omega),
    if_neg (by simpa using Int.emod_eq_zero_of_dvd multiple), if_neg (by omega)]

theorem Due.maybeStore {n : Int} (due : Due server.kv n) (io : Io)
    (before : rt.liveTokens server.session < n) :
    Due (rt.kvCacheMaybeStoreContinued io server).kv n := by
  have below : rt.continuedTarget server < n ∨ rt.continuedTarget server = 0 := by
    unfold continuedTarget kvCacheContinuedStoreTarget
    dsimp only
    repeat' split
    all_goals omega
  unfold kvCacheMaybeStoreContinued
  split
  · exact due
  next tried =>
    have kept := @kvCacheStoreLivePrefix_keeps _ _ rt server io
      (rt.tokens server.session) (rt.continuedTarget server) .continued
    split
    next after result =>
      rw [storeContinued] at result
      rw [result] at kept
      dsimp only at kept ⊢
      unfold kvCacheNoteStore
      rw [kept.1]
      split
      · exact ⟨due.positive, due.multiple, due.enough, below.resolve_right tried⟩
      · exact kept.1 ▸ due
    next after result =>
      rw [storeContinued] at result
      rw [result] at kept
      exact kept.1.symm ▸ due

theorem Due.decodeLoop {n : Int} (due : Due server.kv n)
    {rounds : List (Round Session)} (outside : ∀ round ∈ rounds, round.inToolCall = false)
    (single : rt.SingleTokens server.session rounds) (starts : rt.liveTokens server.session ≤ n)
    (passes : ∃ round ∈ rounds, n < rt.liveTokens round.after) :
    ∃ call ∈ rt.decodeLoop rounds server, rt.liveTokens call.2.session = n ∧ Due call.2.kv n := by
  induction rounds generalizing server with
  | nil => simp at passes
  | cons round rounds ih =>
    obtain ⟨here, outside⟩ := List.forall_mem_cons.mp outside
    obtain ⟨step, single⟩ := single
    rw [Runtime.decodeLoop, here, if_neg Bool.false_ne_true]
    rcases starts.lt_or_eq with before | reached
    · obtain ⟨last, mem, passed⟩ := passes
      rcases List.mem_cons.mp mem with rfl | later
      · omega
      · obtain ⟨call, called, stored⟩ := @ih
          { rt.kvCacheMaybeStoreContinued round.io server with session := round.after }
          (due.maybeStore round.io before) outside single (by dsimp only; omega)
          ⟨last, later, passed⟩
        exact ⟨call, List.mem_cons_of_mem _ called, stored⟩
    · exact ⟨_, List.mem_cons_self, reached, due⟩

section Stored

end Stored

end Runtime

end LnaLang.KvCache
