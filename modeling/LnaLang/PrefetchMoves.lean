import LnaLang.PrefetchThreads
import LnaLang.HiRadixTiers

/-!
# Where the operations of the prefetches are

An operation waits in a queue until the thread behind the queue takes it, and each
thread works on one operation at a time.  So the queues and the threads together have
every operation that is not finished exactly once.

Which of its pages an operation still accounts for depends on its stage and on whether the
scheduler has ended it: everything up to the number of hits, or of pages read, and
from the part that the scheduler has taken on.  What a thread does to an operation
only moves pages from the operation to the release queue.
-/

namespace LnaLang.Prefetch

open List Option

open HiRadix

variable {β δ η : Type}

section Replacements

variable {state : State β δ η} {operations : List (Operation β η)}
  {operation changed : Operation β η}

theorem mem_of_operation {requestId : Nat} (found : state.operation requestId = some operation) :
    operation ∈ state.operations ∧ operation.requestId = requestId :=
  ⟨mem_of_find?_eq_some found, by simpa using find?_some found⟩

/-- The operations with another one for its request. -/
abbrev withReplaced (changed : Operation β η) (operations : List (Operation β η)) :
    List (Operation β η) :=
  KeyedList.update Operation.requestId changed.requestId (fun _ => changed) operations

/-- The operations other than one of them. -/
abbrev rest (operation : Operation β η) (operations : List (Operation β η)) :
    List (Operation β η) :=
  KeyedList.others Operation.requestId operation.requestId operations

variable (ids : (operations.map Operation.requestId).Nodup)

include ids

theorem perm_rest
    (mem : operation ∈ operations) : operations.Perm (operation :: rest operation operations) :=
  KeyedList.perm_cons ids mem

theorem replaced_perm
    (mem : operation ∈ operations) (sameId : changed.requestId = operation.requestId) :
    (withReplaced changed operations).Perm (changed :: rest operation operations) := by
  rw [withReplaced, sameId]
  exact KeyedList.update_perm ids mem fun _ => changed

theorem nodup_replaced (changed : Operation β η) :
    ((withReplaced changed operations).map Operation.requestId).Nodup := by
  rw [KeyedList.map_name_update fun _ _ _ => rfl]
  exact ids

end Replacements

section Places

/-- Who has an operation. -/
inductive Place where
  | prefetchQueue
  | prefetcher
  | prefetchBuffer
  | reader
  | nobody
  deriving DecidableEq, Repr

def Stage.place : Stage η → Place
  | .waiting => .prefetchQueue
  | .revoking _ | .trimming _ => .prefetcher
  | .buffered => .prefetchBuffer
  | .transferring _ | .reading _ _ | .releasing _ => .reader
  | .revoked | .done => .nobody

theorem Stage.eq_waiting {stage : Stage η} (atPlace : stage.place = .prefetchQueue) :
    stage = .waiting := by
  cases stage <;> simp [Stage.place] at atPlace ⊢

theorem Stage.eq_buffered {stage : Stage η} (atPlace : stage.place = .prefetchBuffer) :
    stage = .buffered := by
  cases stage <;> simp [Stage.place] at atPlace ⊢

def State.has (state : State β δ η) : Place → List Nat
  | .prefetchQueue => state.prefetchQueue
  | .prefetcher => state.prefetcher.toList
  | .prefetchBuffer => state.prefetchBuffer
  | .reader => state.reader.toList
  | .nobody => []

def placedAt (place : Place) (operations : List (Operation β η)) : List Nat :=
  (operations.filter fun operation => operation.stage.place = place).map Operation.requestId

structure Placed (state : State β δ η) : Prop where
  ids : (state.operations.map Operation.requestId).Nodup
  places : ∀ place, place ≠ .nobody →
    (state.has place).Perm (placedAt place state.operations)

variable {state next : State β δ η} {operation changed : Operation β η}
  {operations others : List (Operation β η)} {place : Place}

theorem placedAt_cons (place : Place) (operation : Operation β η)
    (operations : List (Operation β η)) :
    placedAt place (operation :: operations) =
      (if operation.stage.place = place then [operation.requestId] else []) ++
        placedAt place operations := by
  by_cases there : operation.stage.place = place <;> simp [placedAt, there]

theorem placedAt_perm (same : operations.Perm others) :
    (placedAt place operations).Perm (placedAt place others) :=
  (same.filter _).map _

/-- The operation is passed on from who has it to who is to have it. -/
def Shifts (operation changed : Operation β η) (state next : State β δ η) : Prop :=
  ∀ place, place ≠ .nobody →
    ((if operation.stage.place = place then [operation.requestId] else []) ++ next.has place).Perm
      ((if changed.stage.place = place then [operation.requestId] else []) ++ state.has place)

theorem shifts_of_same (samePlace : changed.stage.place = operation.stage.place)
    (has : next.has = state.has) : Shifts operation changed state next := by
  intro place _
  rw [samePlace, has]

variable (placed : Placed state)

include placed

theorem Placed.exists_operation {requestId : Nat}
    (inhabited : place ≠ .nobody) (there : requestId ∈ state.has place) :
    ∃ operation, state.operation requestId = some operation ∧ operation.stage.place = place := by
  rw [(placed.places place inhabited).mem_iff] at there
  obtain ⟨operation, inPlace, rfl⟩ := mem_map.mp there
  obtain ⟨mem, atPlace⟩ := mem_filter.mp inPlace
  have isSome : (state.operation operation.requestId).isSome :=
    find?_isSome.mpr ⟨operation, mem, by simp⟩
  obtain ⟨found, foundEq⟩ := isSome_iff_exists.mp isSome
  obtain ⟨foundMem, sameId⟩ := mem_of_operation foundEq
  obtain rfl := KeyedList.eq_of_name placed.ids foundMem mem sameId
  exact ⟨found, foundEq, by simpa using atPlace⟩

theorem Placed.place_eq (inhabited : place ≠ .nobody) {requestId : Nat}
    (there : requestId ∈ state.has place) (found : state.operation requestId = some operation) :
    operation.stage.place = place := by
  obtain ⟨other, otherFound, atPlace⟩ := placed.exists_operation inhabited there
  rw [found] at otherFound
  cases otherFound
  exact atPlace

theorem Placed.finished (mem : operation ∈ state.operations)
    (gone : ∀ place, operation.requestId ∉ state.has place) : operation.stage.place = .nobody := by
  by_contra inhabited
  apply gone operation.stage.place
  rw [(placed.places _ inhabited).mem_iff]
  exact mem_map_of_mem (mem_filter.mpr ⟨mem, by simp⟩)

theorem Placed.moved (changed : Operation β η) (mem : operation ∈ state.operations)
    (sameId : changed.requestId = operation.requestId)
    (operations : next.operations = withReplaced changed state.operations)
    (shifts : Shifts operation changed state next) : Placed next where
  ids := by
    rw [operations]
    exact nodup_replaced placed.ids changed
  places := by
    intro place inhabited
    have before := (placed.places place inhabited).trans (placedAt_perm (perm_rest placed.ids mem))
    have after := @placedAt_perm _ _ _ _ place (replaced_perm placed.ids mem sameId)
    have shift := shifts place inhabited
    rw [placedAt_cons] at before after
    rw [operations]
    apply List.Perm.trans _ after.symm
    rw [sameId]
    rw [perm_iff_count] at *
    intro requestId
    have first := before requestId
    have second := shift requestId
    simp only [count_append] at *
    omega

theorem Placed.congr (operations : next.operations = state.operations)
    (has : next.has = state.has) : Placed next where
  ids := by
    rw [operations]
    exact placed.ids
  places := by
    intro place inhabited
    rw [operations, has]
    exact placed.places place inhabited

end Places

theorem eq_some_of_scheduled {state next : State β δ η} {result : Option (State β δ η)}
    (taken : state.scheduled result = some next) : result = some next := by
  unfold State.scheduled at taken
  split at taken
  · exact taken
  · cases taken

/-- The thread that works on the operation accounts for the pages below this one. -/
def Operation.top (operation : Operation β η) : Nat :=
  match operation.stage with
  | .waiting => operation.allocated.length
  | .revoking _ | .revoked => 0
  | .trimming _ | .buffered | .transferring _ | .reading _ _ => operation.hashValue.length
  | .releasing _ | .done => operation.completed

/-- The scheduler has taken the pages below this one. -/
def Operation.bottom (operation : Operation β η) : Nat :=
  if operation.ongoing then 0 else operation.completed

/-- The pages that are on their way to the release queue. -/
def Operation.left (operation : Operation β η) : List η :=
  match operation.stage with
  | .revoking left | .trimming left | .releasing left => left
  | _ => []

/-- The pages that the operation still accounts for. -/
def Operation.held (operation : Operation β η) : List η :=
  (operation.allocated.take operation.top).drop operation.bottom ++ operation.left

def Operation.isRevoked (operation : Operation β η) : Bool :=
  match operation.stage with
  | .revoking _ | .revoked => true
  | _ => false

/-- The counter and the indices fit the stage. -/
def Operation.Fits (settings : Settings) (operation : Operation β η) : Prop :=
  match operation.stage with
  | .waiting | .trimming _ => operation.completed = 0 ∧ operation.hostIndices = operation.allocated
  | .revoking _ | .revoked => operation.completed = 0
  | .buffered => operation.completed = 0 ∧
      operation.hostIndices = operation.allocated.take operation.hashValue.length
  | .transferring start =>
    operation.completed = min start operation.hashValue.length ∧
      operation.hostIndices = operation.allocated.take operation.hashValue.length
  | .reading start previous =>
    previous = start ∧ start < operation.hashValue.length ∧
      operation.completed ≤ start + operation.batchLength settings start ∧
        operation.hostIndices = operation.allocated.take operation.hashValue.length
  | .releasing _ | .done => True

structure Operation.Ok (settings : Settings) (operation : Operation β η) : Prop where
  lengths : operation.allocated.length = operation.tokenIds.length
  hits : operation.hashValue.length ≤ operation.tokenIds.length
  fits : operation.Fits settings
  completedLe : operation.completed ≤ operation.tokenIds.length
  closed : operation.ongoing = false →
    operation.terminated = true ∨ operation.isRevoked = true

theorem Operation.Ok.completed_le_top {settings : Settings} {op : Operation β η}
    (ok : op.Ok settings) : op.completed ≤ op.top := by
  have fits := ok.fits
  unfold Operation.Fits Operation.top at *
  cases stage : op.stage <;> rw [stage] at fits <;> dsimp only at fits ⊢
  case reading start previous =>
    have bound := fits.2.2.1
    rw [Operation.batchLength] at bound
    omega
  all_goals omega

section Moves

variable {settings : Settings} {op : Operation β η}

/-- The entry of an operation stays what it is while a thread works on it, and the
pages it gives back go to the release queue. -/
structure Moves (settings : Settings) (before after : Operation β η)
    (put : List η) : Prop where
  ok : after.Ok settings
  requestId : after.requestId = before.requestId
  lastHostNode : after.lastHostNode = before.lastHostNode
  tokenIds : after.tokenIds = before.tokenIds
  allocated : after.allocated = before.allocated
  ongoing : after.ongoing = before.ongoing
  held : before.held.Perm (put ++ after.held)
  revoked : before.isRevoked = true → after.isRevoked = true

theorem Operation.bottom_eq_zero (untouched : op.completed = 0) : op.bottom = 0 := by
  unfold Operation.bottom
  split
  · rfl
  · exact untouched

variable (ok : op.Ok settings)

include ok

theorem moves_terminate : Moves settings op { op with terminated := true } [] where
  ok := { ok with closed := fun _ => .inl rfl }
  requestId := rfl
  lastHostNode := rfl
  tokenIds := rfl
  allocated := rfl
  ongoing := rfl
  held := .refl _
  revoked isRevoked := isRevoked

theorem moves_trim (stage : op.stage = .waiting) {hit : Nat} (le : hit ≤ op.tokenIds.length) :
    Moves settings op { op with
      hashValue := (hashChain op.lastHostNode op.tokenIds).take hit
      stage := .trimming (op.hostIndices.drop hit) } [] := by
  have fits := ok.fits
  rw [Operation.Fits, stage] at fits
  have hitLength : ((hashChain op.lastHostNode op.tokenIds).take hit).length = hit := by
    rw [length_take, length_hashChain]
    omega
  exact {
    ok := { ok with
      hits := hitLength.trans_le le
      fits := fits
      closed := by
        intro ended
        rcases ok.closed ended with terminated | isRevoked
        · exact .inl terminated
        · simp [Operation.isRevoked, stage] at isRevoked }
    requestId := rfl
    lastHostNode := rfl
    tokenIds := rfl
    allocated := rfl
    ongoing := rfl
    held := by
      have untouched := Operation.bottom_eq_zero fits.1
      simp only [Operation.held, Operation.top, Operation.left, stage, hitLength,
        fits.2, nil_append]
      rw [untouched]
      simp only [Operation.bottom, fits.1, ite_self, drop_zero, take_length,
        append_nil, take_append_drop]
      exact List.Perm.refl _
    revoked := by simp [Operation.isRevoked, stage] }

theorem moves_stage {stage : Stage η} {put : List η}
    (fits : ({ op with stage := stage } : Operation β η).Fits settings)
    (held : op.held.Perm (put ++ ({ op with stage := stage } : Operation β η).held))
    (revoked : op.isRevoked = true →
      ({ op with stage := stage } : Operation β η).isRevoked = true) :
    Moves settings op { op with stage := stage } put where
  ok := { ok with fits, closed := fun ended => (ok.closed ended).imp id revoked }
  requestId := rfl
  lastHostNode := rfl
  tokenIds := rfl
  allocated := rfl
  ongoing := rfl
  held := held
  revoked := revoked

theorem moves_revoke (stage : op.stage = .waiting) :
    Moves settings op { op with stage := .revoking op.hostIndices } [] := by
  have fits := ok.fits
  rw [Operation.Fits, stage] at fits
  refine moves_stage ok fits.1 ?_ fun _ => rfl
  simp [Operation.held, Operation.top, Operation.left, stage, fits.2,
    Operation.bottom_eq_zero fits.1]

omit ok

theorem Moves.trans {first second third : Operation β η} {front back : List η}
    (firstMoves : Moves settings first second front)
    (secondMoves : Moves settings second third back) :
    Moves settings first third (front ++ back) where
  ok := secondMoves.ok
  requestId := secondMoves.requestId.trans firstMoves.requestId
  lastHostNode := secondMoves.lastHostNode.trans firstMoves.lastHostNode
  tokenIds := secondMoves.tokenIds.trans firstMoves.tokenIds
  allocated := secondMoves.allocated.trans firstMoves.allocated
  ongoing := secondMoves.ongoing.trans firstMoves.ongoing
  held := by
    rw [append_assoc]
    exact firstMoves.held.trans (secondMoves.held.append_left _)
  revoked isRevoked := secondMoves.revoked (firstMoves.revoked isRevoked)

variable (ok : op.Ok settings)

include ok

theorem moves_put {page : η} {left : List η} {stage : Stage η}
    (isLeft : (op.stage = .revoking (page :: left) ∧ stage = .revoking left) ∨
      (op.stage = .trimming (page :: left) ∧ stage = .trimming left) ∨
      (op.stage = .releasing (page :: left) ∧ stage = .releasing left)) :
    Moves settings op { op with stage := stage } [page] := by
  have fits := ok.fits
  rw [Operation.Fits] at fits
  rcases isLeft with ⟨before, rfl⟩ | ⟨before, rfl⟩ | ⟨before, rfl⟩ <;>
  · rw [before] at fits
    refine moves_stage ok fits ?_ ?_
    · simp only [Operation.held, Operation.top, Operation.left, Operation.bottom, before]
      exact perm_middle
    · simp [Operation.isRevoked, before]

theorem moves_buffer (stage : op.stage = .trimming []) : Moves settings op { op with
      hostIndices := op.hostIndices.take op.hashValue.length
      stage := .buffered } [] := by
  have fits := ok.fits
  rw [Operation.Fits, stage] at fits
  exact {
    ok := { ok with
      fits := ⟨fits.1, by rw [fits.2]⟩
      closed := by
        intro ended
        rcases ok.closed ended with terminated | isRevoked
        · exact .inl terminated
        · simp [Operation.isRevoked, stage] at isRevoked }
    requestId := rfl
    lastHostNode := rfl
    tokenIds := rfl
    allocated := rfl
    ongoing := rfl
    held := by simp [Operation.held, Operation.top, Operation.left, Operation.bottom, stage]
    revoked := by simp [Operation.isRevoked, stage] }

theorem moves_release (reading : op.top = op.hashValue.length) (nothingLeft : op.left = [])
    (indices : op.hostIndices = op.allocated.take op.hashValue.length)
    (notRevoked : op.isRevoked = false) :
    Moves settings op { op with
      stage := .releasing (op.hostIndices.drop op.completed) } [] := by
  have le := ok.completed_le_top
  have bottomLe : op.bottom ≤ op.completed := by
    unfold Operation.bottom
    split <;> omega
  refine moves_stage ok trivial ?_ ?_
  · have parts : op.allocated.take op.hashValue.length = op.allocated.take op.completed ++
          (op.allocated.take op.hashValue.length).drop op.completed := by
      conv_lhs => rw [← take_append_drop op.completed (op.allocated.take op.hashValue.length)]
      rw [take_take, Nat.min_eq_left (by omega)]
    have held : op.held = (op.allocated.take op.completed).drop
        op.bottom ++ (op.allocated.take op.hashValue.length).drop op.completed := by
      have bottomIn : op.bottom ≤ (op.allocated.take op.completed).length := by
        have := ok.lengths
        have := ok.completedLe
        rw [length_take]
        omega
      rw [Operation.held, reading, nothingLeft, append_nil]
      conv_lhs => rw [parts]
      exact drop_append_of_le_length bottomIn
    rw [held, indices]
    exact List.Perm.refl _
  · simp [notRevoked]

theorem moves_increment {start previous n : Nat} (stage : op.stage = .reading start previous)
    (le : op.completed + n ≤ previous + op.batchLength settings start)
    (running : op.terminated = false) :
    Moves settings op { op with completed := op.completed + n } [] := by
  have fits := ok.fits
  rw [Operation.Fits, stage] at fits
  have hits := ok.hits
  have ongoing : op.ongoing = true := by
    by_contra ended
    rcases ok.closed (by simpa using ended) with terminated | isRevoked
    · rw [running] at terminated
      cases terminated
    · simp [Operation.isRevoked, stage] at isRevoked
  have batch : op.batchLength settings start ≤ op.hashValue.length - start := Nat.min_le_right _ _
  exact {
    ok := { ok with
      fits := by
        rw [Operation.Fits]
        simp only [stage]
        exact ⟨fits.1, fits.2.1, fits.1 ▸ le, fits.2.2.2⟩
      completedLe := by
        dsimp only
        omega }
    requestId := rfl
    lastHostNode := rfl
    tokenIds := rfl
    allocated := rfl
    ongoing := rfl
    held := by
      simp [Operation.held, Operation.top, Operation.left, Operation.bottom, stage, ongoing]
    revoked := by simp [Operation.isRevoked, stage] }

theorem held_close (ongoing : op.ongoing = true) : op.held.Perm (op.allocated.take op.completed ++
      ({ op with ongoing := false } : Operation β η).held) := by
  have parts : op.allocated.take op.top = op.allocated.take op.completed ++
        (op.allocated.take op.top).drop op.completed := by
    conv_lhs => rw [← take_append_drop op.completed (op.allocated.take op.top)]
    rw [take_take, Nat.min_eq_left ok.completed_le_top]
  have before : op.held = op.allocated.take op.top ++ op.left := by
    rw [Operation.held, Operation.bottom, if_pos ongoing, drop_zero]
  have after : ({ op with ongoing := false } : Operation β η).held =
      (op.allocated.take op.top).drop op.completed ++ op.left := rfl
  rw [before, after, ← append_assoc, ← parts]

theorem Operation.Ok.completed_eq_zero (isRevoked : op.isRevoked = true) : op.completed = 0 := by
  have fits := ok.fits
  unfold Operation.Fits at fits
  unfold Operation.isRevoked at isRevoked
  cases stage : op.stage <;> rw [stage] at fits isRevoked <;>
    first | exact fits | cases isRevoked

omit ok

theorem Operation.held_eq_nil (ended : op.ongoing = false)
    (finished : op.stage.place = .nobody) : op.held = [] := by
  have ends : op.stage = .revoked ∨ op.stage = .done := by
    cases stage : op.stage <;> simp [stage, Stage.place] at finished ⊢
  rcases ends with stage | stage <;>
    simp [Operation.held, Operation.top, Operation.bottom, Operation.left, stage, ended]

end Moves

end LnaLang.Prefetch
