import LnaLang.HiRadixCache
import LnaLang.KeyedList

/-!
# Prefetching from the storage

The life of a prefetch on one rank.  The scheduler takes host pages for it in
`prefetch_from_storage` and puts the operation into a queue.  The prefetch thread
asks the storage how many pages it has and gives back the other ones, or all of
them; the I/O thread reads batch by batch and gives back what it did not read.  The
scheduler ends the operation in `check_prefetch_progress` or
`release_aborted_request`, and empties the queues of the threads in
`drain_storage_control_queues`.

A step here is what one thread does between two points where another thread can
come in between: one `put` into a queue, one change of the counter under its lock.
The storage decides freely how many pages it has and how many it returns, and the
scheduler may end an operation at any time, so that every stop policy is covered.
Lengths of keys and values count pages.  Requests have fresh ids, and a request
names its operation.
-/

namespace LnaLang.Prefetch

open HiRadix

variable {β δ η : Type}

structure Settings extends Config where
  prefetchThreshold : Nat
  prefetchCapacityLimit : Int
  storageBatchSize : Nat
  deriving Repr

/-- Where an operation is, with what the thread that works on it has at hand: the
pages it still has to put into the release queue, or its place in the loop over the
batches. -/
inductive Stage (η : Type) where
  | waiting
  | revoking (left : List η)
  | revoked
  | trimming (left : List η)
  | buffered
  | transferring (start : Nat)
  | reading (start previous : Nat)
  | releasing (left : List η)
  | done
  deriving DecidableEq, Repr

/-- `PrefetchOperation`, together with its entry in `ongoing_prefetch`. -/
structure Operation (β η : Type) where
  requestId : Nat
  lastHostNode : List β
  tokenIds : List β
  /-- The `host_indices` of the entry; those of the operation shrink. -/
  allocated : List η
  hostIndices : List η
  hashValue : List (List β) := []
  completed : Nat := 0
  terminated : Bool := false
  ongoing : Bool := true
  stage : Stage η := .waiting
  deriving DecidableEq, Repr

/-- The scheduler's cache, the queues, and the operation each thread works on.  The
scheduler still has to put the pages in `aborted` into the release queue.  These pages
are marked with the request they were allocated for, as those in the queue, and three
logs record which pages have been freed for a request, which have been
inserted into the tree for it, and which have been evicted from the tree. -/
structure State (β δ η : Type) where
  cache : Cache β δ η
  operations : List (Operation β η) := []
  prefetchQueue : List Nat := []
  prefetchRevokeQueue : List Nat := []
  prefetchBuffer : List Nat := []
  hostMemReleaseQueue : List (Nat × η) := []
  aborted : List (Nat × η) := []
  prefetchTokensOccupied : Int := 0
  prefetcher : Option Nat := none
  reader : Option Nat := none
  freed : List (Nat × η) := []
  inserted : List (Nat × η) := []
  evicted : List η := []
  deriving DecidableEq, Repr

def Operation.tokens (config : Config) (operation : Operation β η) : Int :=
  ((config.pageSize * operation.tokenIds.length : Nat) : Int)

def tagged (requestId : Nat) (pages : List η) : List (Nat × η) :=
  pages.map fun page => (requestId, page)

def State.operation (state : State β δ η) (requestId : Nat) : Option (Operation β η) :=
  state.operations.find? fun operation => operation.requestId = requestId

def State.replace (operation : Operation β η) (state : State β δ η) : State β δ η :=
  { state with
    operations := KeyedList.update Operation.requestId operation.requestId
      (fun _ => operation) state.operations }

section Scheduler

variable [DecidableEq β] (settings : Settings)

/-- `protect_host`. -/
def protectHost (path : List β) (cache : Cache β δ η) : Cache β δ η :=
  { cache with
    nodes := modifyAt path
      (fun node => { node with hostRefCounter := node.hostRefCounter + 1 })
      cache.nodes }

/-- `release_host`. -/
def releaseHost (path : List β) (cache : Cache β δ η) : Cache β δ η :=
  { cache with
    nodes := modifyAt path
      (fun node => { node with hostRefCounter := node.hostRefCounter - 1 })
      cache.nodes }

/-- `prefetch_from_storage`, below a node of the tree or the root. -/
def prefetchFromStorage (requestId : Nat) (path key : List β)
    (victims : Victims β δ η) (state : State β δ η) : Option (State β δ η) :=
  if requestId ∈ state.operations.map Operation.requestId ∨
      (path ≠ [] ∧ nodeAt state.cache.nodes path = none) then none
  else if settings.pageSize * key.length < settings.prefetchThreshold ∨
      settings.prefetchCapacityLimit ≤ state.prefetchTokensOccupied then some state
  else
    let guarded := protectHost path state.cache
    let ready :=
      if key.length ≤ guarded.hostFree.length then guarded
      else evictHost settings.toConfig victims (settings.pageSize * key.length) guarded
    if key.length ≤ ready.hostFree.length then
      let operation : Operation β η := {
        requestId := requestId
        lastHostNode := path
        tokenIds := key
        allocated := ready.hostFree.take key.length
        hostIndices := ready.hostFree.take key.length }
      some { state with
        cache := { ready with hostFree := ready.hostFree.drop key.length }
        operations := operation :: state.operations
        prefetchQueue := state.prefetchQueue ++ [requestId]
        prefetchTokensOccupied := state.prefetchTokensOccupied +
          operation.tokens settings.toConfig
        evicted := state.evicted ++ ready.hostFree.drop state.cache.hostFree.length }
    else
      some { state with
        cache := releaseHost path ready
        evicted := state.evicted ++ ready.hostFree.drop state.cache.hostFree.length }

/-- `mark_terminate`, by the scheduler. -/
def terminatePrefetch (requestId : Nat) (state : State β δ η) : Option (State β δ η) :=
  (state.operation requestId).bind fun operation =>
    if operation.ongoing then
      some (state.replace { operation with terminated := true })
    else none

/-- The entry leaves `ongoing_prefetch`. -/
def closeEntry (operation : Operation β η) (state : State β δ η) : State β δ η :=
  let closed := state.replace { operation with ongoing := false }
  { closed with
    cache := releaseHost operation.lastHostNode closed.cache
    prefetchTokensOccupied := closed.prefetchTokensOccupied -
      operation.tokens settings.toConfig }

/-- `check_prefetch_progress`, once the operation is marked: the pages read so far go
to the tree, and those that were there already are freed. -/
def checkPrefetchProgress (requestId : Nat) (state : State β δ η) : Option (State β δ η) :=
  (state.operation requestId).bind fun operation =>
    if operation.ongoing && operation.terminated then
      let fetched := operation.tokenIds.take operation.completed
      let written := operation.allocated.take operation.completed
      let hashes := operation.hashValue.take operation.completed
      let matched := (hostInsertLoop (fetched.length + 1) operation.lastHostNode fetched
        written hashes 0 state.cache.nodes).2
      some (closeEntry settings operation { state with
        cache := completePrefetch operation.lastHostNode fetched written hashes
          state.cache
        freed := state.freed ++ tagged requestId (written.take matched)
        inserted := state.inserted ++ tagged requestId (written.drop matched) })
    else none

/-- `release_aborted_request`, once the operation is marked. -/
def releaseAbortedRequest (requestId : Nat) (state : State β δ η) : Option (State β δ η) :=
  (state.operation requestId).bind fun operation =>
    if operation.ongoing && operation.terminated then
      some (closeEntry settings operation { state with
        aborted := state.aborted ++
          tagged requestId (operation.allocated.take operation.completed) })
    else none

/-- `append_host_mem_release`, as `release_aborted_request` calls it last: the next
page goes into the queue. -/
def appendHostMemRelease (state : State β δ η) : Option (State β δ η) :=
  match state.aborted with
  | [] => none
  | page :: left =>
    some { state with
      hostMemReleaseQueue := state.hostMemReleaseQueue ++ [page]
      aborted := left }

/-- One revoke in `drain_storage_control_queues`; nothing is done when the operation
has been ended before. -/
def drainRevoke (state : State β δ η) : Option (State β δ η) :=
  match state.prefetchRevokeQueue with
  | [] => none
  | requestId :: rest =>
    let popped := { state with prefetchRevokeQueue := rest }
    match state.operation requestId with
    | none => some popped
    | some operation =>
      if operation.ongoing then some (closeEntry settings operation popped)
      else some popped

/-- One page in `drain_storage_control_queues`. -/
def drainRelease (state : State β δ η) : Option (State β δ η) :=
  match state.hostMemReleaseQueue with
  | [] => none
  | page :: rest =>
    some { state with
      hostMemReleaseQueue := rest
      cache := { state.cache with hostFree := state.cache.hostFree ++ [page.2] }
      freed := state.freed ++ [page] }

end Scheduler

section Prefetcher

variable (settings : Settings)

/-- `prefetch_thread_func` takes an operation and asks the storage, which has the
first `hit` pages. -/
def storageHitQuery (hit : Nat) (state : State β δ η) : Option (State β δ η) :=
  match state.prefetcher, state.prefetchQueue with
  | none, requestId :: rest =>
    (state.operation requestId).bind fun operation =>
      if hit ≤ operation.tokenIds.length then
        let taken := { state with prefetchQueue := rest, prefetcher := some requestId }
        if settings.pageSize * hit < settings.prefetchThreshold then
          some { taken.replace { operation with
              stage := .revoking operation.hostIndices } with
            prefetchRevokeQueue := state.prefetchRevokeQueue ++ [requestId] }
        else
          some (taken.replace { operation with
            hashValue := (hashChain operation.lastHostNode operation.tokenIds).take hit
            stage := .trimming (operation.hostIndices.drop hit) })
      else none
  | _, _ => none

/-- The prefetch thread puts one page into the release queue, or is through with the
operation. -/
def prefetchThread (state : State β δ η) : Option (State β δ η) :=
  state.prefetcher.bind fun requestId =>
    (state.operation requestId).bind fun operation =>
      match operation.stage with
      | .revoking (page :: left) =>
        some { state.replace { operation with stage := .revoking left } with
          hostMemReleaseQueue := state.hostMemReleaseQueue ++ [(requestId, page)] }
      | .revoking [] =>
        some { state.replace { operation with stage := .revoked } with
          prefetcher := none }
      | .trimming (page :: left) =>
        some { state.replace { operation with stage := .trimming left } with
          hostMemReleaseQueue := state.hostMemReleaseQueue ++ [(requestId, page)] }
      | .trimming [] =>
        some { state.replace { operation with
            hostIndices := operation.hostIndices.take operation.hashValue.length
            stage := .buffered } with
          prefetcher := none
          prefetchBuffer := state.prefetchBuffer ++ [requestId] }
      | _ => none

end Prefetcher

section Reader

variable (settings : Settings)

/-- `prefetch_io_aux_func` takes an operation. -/
def readerTake (state : State β δ η) : Option (State β δ η) :=
  match state.reader, state.prefetchBuffer with
  | none, requestId :: rest =>
    (state.operation requestId).bind fun operation =>
      some { state.replace { operation with stage := .transferring 0 } with
        prefetchBuffer := rest
        reader := some requestId }
  | _, _ => none

/-- `len(batch_hashes)` for the batch from a page on. -/
def Operation.batchLength (operation : Operation β η) (start : Nat) : Nat :=
  min settings.storageBatchSize (operation.hashValue.length - start)

/-- `increment`: some pages of the batch have been read.  The zero-copy read counts
once for the batch, the generic one after each page. -/
def increment (count : Nat) (state : State β δ η) : Option (State β δ η) :=
  state.reader.bind fun requestId =>
    (state.operation requestId).bind fun operation =>
      match operation.stage with
      | .reading start previous =>
        if operation.completed + count ≤ previous + operation.batchLength settings start then
          if operation.terminated then some state
          else
            some (state.replace { operation with
              completed := operation.completed + count })
        else none
      | _ => none

/-- The I/O thread goes on in `_page_transfer`: it begins a batch, compares the counter
with the batch, or gives back the pages that were not read. -/
def readerNext (state : State β δ η) : Option (State β δ η) :=
  state.reader.bind fun requestId =>
    (state.operation requestId).bind fun operation =>
      match operation.stage with
      | .transferring start =>
        if start < operation.hashValue.length then
          some (state.replace { operation with
            stage := .reading start operation.completed })
        else
          some (state.replace { operation with
            stage := .releasing (operation.hostIndices.drop operation.completed) })
      | .reading start previous =>
        if operation.completed = previous + operation.batchLength settings start then
          some (state.replace { operation with
            stage := .transferring (start + settings.storageBatchSize) })
        else
          some (state.replace { operation with
            terminated := true
            stage := .releasing (operation.hostIndices.drop operation.completed) })
      | .releasing (page :: left) =>
        some { state.replace { operation with stage := .releasing left } with
          hostMemReleaseQueue := state.hostMemReleaseQueue ++ [(requestId, page)] }
      | .releasing [] =>
        some { state.replace { operation with stage := .done } with reader := none }
      | _ => none

end Reader

section Runs

variable [DecidableEq β] (settings : Settings)

/-- The scheduler ends one call before it begins the next one. -/
def State.scheduled (state : State β δ η) (next : Option (State β δ η)) : Option (State β δ η) :=
  if state.aborted.isEmpty then next else none

/-- What the three threads can do next. -/
inductive Action (β δ η : Type) where
  | prefetchFromStorage (requestId : Nat) (path key : List β) (victims : Victims β δ η)
  | terminatePrefetch (requestId : Nat)
  | checkPrefetchProgress (requestId : Nat)
  | releaseAbortedRequest (requestId : Nat)
  | drainRevoke
  | drainRelease
  | appendHostMemRelease
  | storageHitQuery (hit : Nat)
  | prefetchThread
  | readerTake
  | increment (count : Nat)
  | readerNext

def step (state : State β δ η) : Action β δ η → Option (State β δ η)
  | .prefetchFromStorage requestId path key victims =>
    state.scheduled (prefetchFromStorage settings requestId path key victims state)
  | .terminatePrefetch requestId => state.scheduled (terminatePrefetch requestId state)
  | .checkPrefetchProgress requestId =>
    state.scheduled (checkPrefetchProgress settings requestId state)
  | .releaseAbortedRequest requestId =>
    state.scheduled (releaseAbortedRequest settings requestId state)
  | .drainRevoke => state.scheduled (drainRevoke settings state)
  | .drainRelease => state.scheduled (drainRelease state)
  | .appendHostMemRelease => appendHostMemRelease state
  | .storageHitQuery hit => storageHitQuery settings hit state
  | .prefetchThread => prefetchThread state
  | .readerTake => readerTake state
  | .increment count => increment settings count state
  | .readerNext => readerNext settings state

/-- The states of all interleavings, from a tree without prefetches. -/
inductive Run (start : Cache β δ η) : State β δ η → Prop where
  | start : Run start { cache := start }
  | step {state next : State β δ η} (action : Action β δ η) :
      Run start state → step settings state action = some next → Run start next

end Runs

end LnaLang.Prefetch
