import LnaLang.PrefetchMoves

/-!
# Who owns the host pages of a prefetch

Every step of the scheduler and of the two threads only moves pages between the free
list, the tree, the release queue and the operations, and records what it frees or
inserts.  So at any time every page has one owner, and what has become of the pages of
a prefetch is settled once it has ended everywhere.
-/

namespace LnaLang.Prefetch

open List Option

open PrefixForest HiRadix

variable {β δ η : Type}

/-- The pages that are in the release queue or the scheduler puts there. -/
def State.released (state : State β δ η) : List (Nat × η) :=
  state.hostMemReleaseQueue ++ state.aborted

/-- All pages that are neither free nor in the tree, with their requests. -/
def State.inFlight (state : State β δ η) : List (Nat × η) :=
  state.released ++ state.operations.flatMap fun operation =>
      tagged operation.requestId operation.held

def State.allocated (state : State β δ η) : List (Nat × η) :=
  state.operations.flatMap fun operation => tagged operation.requestId operation.allocated

/-- How often the ongoing operations protect a node. -/
def guards [DecidableEq β] (operations : List (Operation β η)) (path : List β) : Nat :=
  operations.countP fun operation => operation.ongoing && operation.lastHostNode = path

/-- The nodes have the protection that is asked for. -/
def Guarded (wanted : List β → Nat) (nodes : List (Node β δ η)) : Prop :=
  ∀ path, path ≠ [] → 0 < wanted path →
    ∃ node ∈ nodes, node.full = path ∧ wanted path ≤ node.hostRefCounter

/-- The invariant of all interleavings. -/
structure Sound [DecidableEq β] (settings : Settings) (start : Cache β δ η)
    (state : State β δ η) : Prop extends Placed state where
  tree : HiRadix.Ok state.cache.nodes
  operations : ∀ operation ∈ state.operations, operation.Ok settings
  revoked : ∀ requestId ∈ state.prefetchRevokeQueue, ∃ operation ∈ state.operations,
    operation.requestId = requestId ∧ operation.isRevoked = true
  guarded : Guarded (guards state.operations) state.cache.nodes
  slots : (state.cache.hostFree ++ hostSlots state.cache.nodes ++
    state.inFlight.map Prod.snd).Perm (hostSlots start.nodes ++ start.hostFree)
  ledger : state.allocated.Perm (state.freed ++ state.inserted ++ state.inFlight)
  distinct : state.allocated.Nodup
  treePages : (hostSlots start.nodes ++ state.inserted.map Prod.snd).Perm
    (hostSlots state.cache.nodes ++ state.evicted)
  tokens : state.prefetchTokensOccupied =
    ((state.operations.filter Operation.ongoing).map
      (Operation.tokens settings.toConfig)).sum

section Guards

variable {nodes : List (Node β δ η)} {wanted : List β → Nat}

theorem hostSlots_counts {change : Node β δ η → Node β δ η} (counts : Counts change)
    (nodes : List (Node β δ η)) : hostSlots (nodes.map change) = hostSlots nodes := by
  rw [hostSlots, flatMap_map]
  apply flatMap_congr
  intro node _
  rw [counts.hostValue]

theorem Guarded.evicted {before after : Cache β δ η} (guarded : Guarded wanted before.nodes)
    (evicted : HostEvicted before after) : Guarded wanted after.nodes := by
  intro path ne pos
  obtain ⟨node, mem, ends, enough⟩ := guarded path ne pos
  obtain ⟨keep, keepEq, keepEvicted⟩ := evicted.nodes
  refine ⟨node, ?_, ends, enough⟩
  rw [keepEq, mem_filter]
  refine ⟨mem, ?_⟩
  by_contra dropped
  have := (keepEvicted node mem (by simpa using dropped)).2
  omega

variable [DecidableEq β]

theorem counts_hostRef (path : List β) (update : Nat → Nat) :
    Counts fun node : Node β δ η => if node.full = path then
      { node with hostRefCounter := update node.hostRefCounter } else node :=
  (counts_hostRefCounter update).ite fun node => node.full = path

theorem hostSlots_protectHost (path : List β) (cache : Cache β δ η) :
    hostSlots (protectHost path cache).nodes = hostSlots cache.nodes :=
  hostSlots_counts (counts_hostRef path (· + 1)) cache.nodes

variable {cache : Cache β δ η}

theorem ok_protectHost (ok : HiRadix.Ok cache.nodes)
    (path : List β) : HiRadix.Ok (protectHost path cache).nodes :=
  (counts_hostRef path (· + 1)).ok_map ok

theorem hostSlots_releaseHost (path : List β) (cache : Cache β δ η) :
    hostSlots (releaseHost path cache).nodes = hostSlots cache.nodes :=
  hostSlots_counts (counts_hostRef path (· - 1)) cache.nodes

theorem ok_releaseHost (ok : HiRadix.Ok cache.nodes)
    (path : List β) : HiRadix.Ok (releaseHost path cache).nodes :=
  (counts_hostRef path (· - 1)).ok_map ok

theorem guards_perm {operations others : List (Operation β η)}
    (same : operations.Perm others) : guards operations = guards others := by
  funext path
  exact same.countP_eq _

theorem guards_cons (operation : Operation β η) (operations : List (Operation β η))
    (path : List β) : guards (operation :: operations) path = guards operations path +
      if operation.ongoing ∧ operation.lastHostNode = path then 1 else 0 := by
  simp [guards, countP_cons]

theorem Guarded.protectHost (guarded : Guarded wanted cache.nodes) {path : List β}
    (place : path ≠ [] → ∃ node ∈ cache.nodes, node.full = path) :
    Guarded (fun other => wanted other + if path = other then 1 else 0)
      (protectHost path cache).nodes := by
  intro other nonempty pos
  have found : ∃ node ∈ cache.nodes, node.full = other ∧ wanted other ≤ node.hostRefCounter := by
    rcases Nat.eq_zero_or_pos (wanted other) with none | some
    · have there : path = other := by
        by_contra ne
        simp [none, ne] at pos
      obtain ⟨node, mem, ends⟩ := place (there ▸ nonempty)
      exact ⟨node, mem, ends.trans there, by omega⟩
    · exact guarded other nonempty some
  obtain ⟨node, mem, ends, enough⟩ := found
  refine ⟨_, mem_map_of_mem mem, ?_⟩
  split
  case isTrue there =>
    refine ⟨ends, ?_⟩
    dsimp only
    split <;> omega
  case isFalse elsewhere =>
    have ne : path ≠ other := fun same => elsewhere (ends.trans same.symm)
    refine ⟨ends, ?_⟩
    dsimp only
    rw [if_neg ne]
    exact enough

theorem Guarded.releaseHost {path : List β}
    (guarded : Guarded (fun other => wanted other + if path = other then 1 else 0) cache.nodes) :
    Guarded wanted (releaseHost path cache).nodes := by
  intro other ne pos
  obtain ⟨node, mem, ends, enough⟩ := guarded other ne (Nat.add_pos_left pos _)
  dsimp only at enough
  refine ⟨_, mem_map_of_mem mem, ?_⟩
  split
  case isTrue there =>
    rw [if_pos (there.symm.trans ends)] at enough
    refine ⟨ends, ?_⟩
    dsimp only
    omega
  case isFalse => exact ⟨ends, by omega⟩

theorem Guarded.hostInsertLoop (guarded : Guarded wanted nodes) (fuel : Nat)
    (path key : List β) (host : List η) (hashes : List (List β)) (matched : Nat) :
    Guarded wanted (hostInsertLoop fuel path key host hashes matched nodes).1 := by
  induction fuel generalizing path key host hashes matched nodes with
  | zero => exact guarded
  | succ fuel ih =>
    cases key with
    | nil => exact guarded
    | cons page key =>
      rw [HiRadix.hostInsertLoop]
      split
      case h_1 =>
        intro other ne pos
        obtain ⟨node, mem, found⟩ := guarded other ne pos
        exact ⟨node, mem_cons_of_mem _ mem, found⟩
      case h_2 child _ =>
        apply ih
        unfold matchChild
        split
        case isFalse => exact guarded
        case isTrue =>
          intro other ne pos
          obtain ⟨node, mem, ends, enough⟩ := guarded other ne pos
          by_cases there : node.full = child.full
          · refine ⟨node.lower (keyMatch child.key (page :: key)), mem_flatMap.mpr ⟨node, mem, ?_⟩,
              Node.lower_full.trans ends, enough⟩
            rw [if_pos there]
            simp
          · refine ⟨node, mem_flatMap.mpr ⟨node, mem, ?_⟩, ends, enough⟩
            rw [if_neg there]
            simp

end Guards

section Replacements

variable {operations : List (Operation β η)} {operation changed : Operation β η}

theorem tagged_append (requestId : Nat) (first second : List η) :
    tagged requestId (first ++ second) = tagged requestId first ++ tagged requestId second :=
  map_append

theorem map_snd_tagged (requestId : Nat) (pages : List η) :
    (tagged requestId pages).map Prod.snd = pages := by
  simp [tagged]

theorem held_replaced (ids : (operations.map Operation.requestId).Nodup)
    (mem : operation ∈ operations) (sameId : changed.requestId = operation.requestId)
    {out : List η} (held : operation.held.Perm (out ++ changed.held)) :
    (operations.flatMap fun operation => tagged operation.requestId operation.held).Perm
      (tagged operation.requestId out ++ (withReplaced changed operations).flatMap fun operation =>
            tagged operation.requestId operation.held) := by
  refine ((perm_rest ids mem).flatMap_right _).trans (.trans ?_
    (((replaced_perm ids mem sameId).flatMap_right _).symm.append_left _))
  rw [flatMap_cons, flatMap_cons, ← append_assoc, sameId, ← tagged_append]
  exact (held.map _).append_right _

variable [DecidableEq β] {settings : Settings} {start : Cache β δ η} {state next : State β δ η}
  (sound : Sound settings start state)

include sound

theorem Sound.revoked_replace (changed : Operation β η)
    (mem : operation ∈ state.operations) (sameId : changed.requestId = operation.requestId)
    (stays : operation.isRevoked = true → changed.isRevoked = true) {requestId : Nat}
    (queued : requestId ∈ state.prefetchRevokeQueue) :
    ∃ other ∈ withReplaced changed state.operations,
      other.requestId = requestId ∧ other.isRevoked = true := by
  obtain ⟨found, foundMem, foundId, isRevoked⟩ := sound.revoked requestId queued
  refine ⟨_, mem_map_of_mem foundMem, ?_⟩
  split
  case isFalse => exact ⟨foundId, isRevoked⟩
  case isTrue there =>
    have same : found = operation :=
      KeyedList.eq_of_name sound.ids foundMem mem (there.trans sameId)
    exact ⟨there.symm.trans foundId, stays (same ▸ isRevoked)⟩

theorem Sound.operations_replace (changed : Operation β η) (ok : changed.Ok settings) :
    ∀ other ∈ withReplaced changed state.operations, other.Ok settings := by
  intro other otherMem
  rcases KeyedList.mem_update otherMem with ⟨_, _, _, rfl⟩ | ⟨old, _⟩
  · exact ok
  · exact sound.operations other old

theorem Sound.moves (mem : operation ∈ state.operations) {put : List η}
    (moves : Moves settings operation changed put)
    (operations : next.operations = withReplaced changed state.operations)
    (queue : next.hostMemReleaseQueue = state.hostMemReleaseQueue ++ tagged operation.requestId put)
    (aborted : next.aborted = state.aborted)
    (revokes : ∀ requestId ∈ next.prefetchRevokeQueue, requestId ∈ state.prefetchRevokeQueue ∨
        (requestId = operation.requestId ∧ changed.isRevoked = true))
    (cache : next.cache = state.cache)
    (tokens : next.prefetchTokensOccupied = state.prefetchTokensOccupied)
    (freed : next.freed = state.freed) (inserted : next.inserted = state.inserted)
    (evicted : next.evicted = state.evicted) (shifts : Shifts operation changed state next) :
    Sound settings start next := by
  have whole := perm_rest sound.ids mem
  have replaced := replaced_perm sound.ids mem moves.requestId
  have inFlight : next.inFlight.Perm state.inFlight := by
    have held := held_replaced sound.ids mem moves.requestId moves.held
    rw [State.inFlight, State.inFlight, State.released, State.released, queue, aborted, operations]
    classical
    rw [perm_iff_count] at *
    intro page
    have first := held page
    simp only [count_append] at *
    omega
  have same : next.allocated.Perm state.allocated := by
    rw [State.allocated, State.allocated, operations]
    refine (replaced.flatMap_right _).trans (.trans ?_ (whole.flatMap_right _).symm)
    rw [flatMap_cons, flatMap_cons, moves.requestId, moves.allocated]
  exact { sound.toPlaced.moved changed mem moves.requestId operations shifts with
    tree := cache ▸ sound.tree
    operations := operations ▸ sound.operations_replace changed moves.ok
    revoked := by
      intro requestId queued
      rw [operations]
      rcases revokes requestId queued with earlier | ⟨rfl, isRevoked⟩
      · exact sound.revoked_replace changed mem moves.requestId moves.revoked earlier
      · exact ⟨changed, replaced.mem_iff.mpr mem_cons_self, moves.requestId, isRevoked⟩
    guarded := by
      have same : guards next.operations = guards state.operations := by
        rw [operations, guards_perm replaced, guards_perm whole]
        funext path
        rw [guards_cons, guards_cons, moves.ongoing, moves.lastHostNode]
      rw [cache, same]
      exact sound.guarded
    slots := by
      rw [cache]
      exact ((inFlight.map _).append_left _).trans sound.slots
    ledger := by
      rw [freed, inserted]
      exact same.trans (sound.ledger.trans (inFlight.symm.append_left _))
    distinct := same.nodup_iff.mpr sound.distinct
    treePages := by
      rw [inserted, cache, evicted]
      exact sound.treePages
    tokens := by
      have same : ((next.operations.filter Operation.ongoing).map
          (Operation.tokens settings.toConfig)).sum =
          ((state.operations.filter Operation.ongoing).map
            (Operation.tokens settings.toConfig)).sum := by
        rw [operations, ((replaced.filter _).map _).sum_eq,
          ((whole.filter _).map _).sum_eq, filter_cons, filter_cons,
          moves.ongoing]
        split
        · simp only [map_cons, sum_cons, Operation.tokens, moves.tokenIds]
        · rfl
      rw [tokens, sound.tokens, same] }

end Replacements

section Steps

variable {settings : Settings} {start : Cache β δ η} {state next : State β δ η} [DecidableEq β]
  (sound : Sound settings start state)

include sound

theorem Sound.replace {operation changed : Operation β η}
    (mem : operation ∈ state.operations) (moves : Moves settings operation changed [])
    (samePlace : changed.stage.place = operation.stage.place) :
    Sound settings start (state.replace changed) :=
  sound.moves mem moves rfl (append_nil _).symm rfl (fun _ queued => .inl queued)
    rfl rfl rfl rfl rfl (shifts_of_same samePlace rfl)

theorem Sound.terminatePrefetch {requestId : Nat}
    (taken : terminatePrefetch requestId state = some next) : Sound settings start next := by
  obtain ⟨operation, found, moved⟩ := bind_eq_some_iff.mp taken
  obtain ⟨mem, _⟩ := mem_of_operation found
  split at moved
  case isFalse => cases moved
  case isTrue =>
    cases moved
    exact sound.replace mem (moves_terminate (sound.operations operation mem)) rfl

theorem Sound.storageHitQuery {hit : Nat} (taken : storageHitQuery settings hit state = some next) :
    Sound settings start next := by
  unfold Prefetch.storageHitQuery at taken
  split at taken
  case h_2 => cases taken
  case h_1 requestId queue idle queueEq =>
    obtain ⟨operation, found, moved⟩ := bind_eq_some_iff.mp taken
    have waiting : operation.stage = .waiting := by
      apply Stage.eq_waiting
      exact sound.toPlaced.place_eq (by decide) (by simp [State.has, queueEq]) found
    obtain ⟨mem, rfl⟩ := mem_of_operation found
    have ok := sound.operations operation mem
    split at moved
    case isFalse => cases moved
    case isTrue le =>
      dsimp only at moved
      split at moved
      case isTrue =>
        cases moved
        refine sound.moves mem (moves_revoke ok waiting) rfl
          (append_nil _).symm rfl ?_ rfl rfl rfl rfl rfl ?_
        · intro requestId queued
          rcases mem_append.mp queued with earlier | new
          · exact .inl earlier
          · exact .inr ⟨mem_singleton.mp new, rfl⟩
        · intro place inhabited
          cases place <;>
            simp [State.has, State.replace, Stage.place, waiting, idle, queueEq] at inhabited ⊢
      case isFalse =>
        cases moved
        refine sound.moves mem (moves_trim ok waiting le) rfl
          (append_nil _).symm rfl (fun _ queued => .inl queued) rfl rfl rfl rfl rfl ?_
        intro place inhabited
        cases place <;>
          simp [State.has, State.replace, Stage.place, waiting, idle, queueEq] at inhabited ⊢

theorem Sound.prefetchThread
    (taken : prefetchThread state = some next) : Sound settings start next := by
  obtain ⟨requestId, working, named⟩ := bind_eq_some_iff.mp taken
  obtain ⟨operation, found, moved⟩ := bind_eq_some_iff.mp named
  obtain ⟨mem, rfl⟩ := mem_of_operation found
  have ok := sound.operations operation mem
  split at moved
  case h_1 page left stage =>
    cases moved
    exact sound.moves mem (moves_put ok (.inl ⟨stage, rfl⟩)) rfl rfl rfl
      (fun _ queued => .inl queued) rfl rfl rfl rfl rfl
      (shifts_of_same (by rw [stage]; rfl) rfl)
  case h_2 stage =>
    cases moved
    have fits := ok.fits
    rw [Operation.Fits, stage] at fits
    have moves : Moves settings operation { operation with stage := .revoked } [] := by
      refine moves_stage ok fits ?_ ?_
      · simp [Operation.held, Operation.top, Operation.left, Operation.bottom, stage]
      · exact fun _ => rfl
    refine sound.moves mem moves rfl (append_nil _).symm rfl
      (fun _ queued => .inl queued) rfl rfl rfl rfl rfl ?_
    intro place inhabited
    cases place <;>
      simp [State.has, State.replace, Stage.place, stage, working] at inhabited ⊢
  case h_3 page left stage =>
    cases moved
    exact sound.moves mem (moves_put ok (.inr (.inl ⟨stage, rfl⟩))) rfl rfl rfl
      (fun _ queued => .inl queued) rfl rfl rfl rfl rfl
      (shifts_of_same (by rw [stage]; rfl) rfl)
  case h_4 stage =>
    cases moved
    refine sound.moves mem (moves_buffer ok stage) rfl (append_nil _).symm rfl
      (fun _ queued => .inl queued) rfl rfl rfl rfl rfl ?_
    intro place inhabited
    cases place <;>
      simp [State.has, State.replace, Stage.place, stage, working] at inhabited ⊢
  case h_5 => cases moved

theorem Sound.readerTake
    (taken : readerTake state = some next) : Sound settings start next := by
  unfold Prefetch.readerTake at taken
  split at taken
  case h_2 => cases taken
  case h_1 requestId queue idle queueEq =>
    obtain ⟨operation, found, moved⟩ := bind_eq_some_iff.mp taken
    have stage : operation.stage = .buffered := by
      apply Stage.eq_buffered
      exact sound.toPlaced.place_eq (by decide) (by simp [State.has, queueEq]) found
    obtain ⟨mem, rfl⟩ := mem_of_operation found
    have ok := sound.operations operation mem
    cases moved
    have fits := ok.fits
    rw [Operation.Fits, stage] at fits
    have moves : Moves settings operation { operation with stage := .transferring 0 } [] := by
      apply moves_stage ok
      · exact ⟨by rw [fits.1, Nat.zero_min], fits.2⟩
      · simp [Operation.held, Operation.top, Operation.left, Operation.bottom, stage]
      · simp [Operation.isRevoked, stage]
    refine sound.moves mem moves rfl (append_nil _).symm rfl
      (fun _ queued => .inl queued) rfl rfl rfl rfl rfl ?_
    intro place inhabited
    cases place <;>
      simp [State.has, State.replace, Stage.place, stage, idle, queueEq] at inhabited ⊢

theorem Sound.increment {n : Nat}
    (taken : increment settings n state = some next) : Sound settings start next := by
  obtain ⟨requestId, _, named⟩ := bind_eq_some_iff.mp taken
  obtain ⟨operation, found, moved⟩ := bind_eq_some_iff.mp named
  obtain ⟨mem, rfl⟩ := mem_of_operation found
  split at moved
  case h_2 => cases moved
  case h_1 first previous stage =>
    split at moved
    case isFalse => cases moved
    case isTrue le =>
      split at moved
      case isTrue =>
        cases moved
        exact sound
      case isFalse running =>
        cases moved
        exact sound.replace mem (moves_increment (sound.operations operation mem)
          stage le (by simpa using running)) rfl

theorem Sound.readerNext
    (taken : readerNext settings state = some next) : Sound settings start next := by
  obtain ⟨requestId, working, named⟩ := bind_eq_some_iff.mp taken
  obtain ⟨operation, found, moved⟩ := bind_eq_some_iff.mp named
  obtain ⟨mem, rfl⟩ := mem_of_operation found
  have ok := sound.operations operation mem
  have fits := ok.fits
  rw [Operation.Fits] at fits
  split at moved
  case h_1 first stage =>
    rw [stage] at fits
    split at moved
    case isTrue more =>
      cases moved
      refine sound.replace mem (moves_stage ok ?_ ?_ ?_) (by simp [Stage.place, stage])
      · have completed : operation.completed = first := by
          rw [fits.1]
          omega
        refine ⟨completed, more, ?_, fits.2⟩
        dsimp only
        omega
      · simp [Operation.held, Operation.top, Operation.left, Operation.bottom, stage]
      · simp [Operation.isRevoked, stage]
    case isFalse =>
      cases moved
      exact sound.replace mem (moves_release ok (by simp [Operation.top, stage])
        (by simp [Operation.left, stage]) fits.2 (by simp [Operation.isRevoked, stage]))
        (by simp [Stage.place, stage])
  case h_2 first previous stage =>
    rw [stage] at fits
    split at moved
    case isTrue whole =>
      cases moved
      refine sound.replace mem (moves_stage ok ?_ ?_ ?_) (by simp [Stage.place, stage])
      · refine ⟨?_, fits.2.2.2⟩
        have more := fits.2.1
        rw [Operation.batchLength, fits.1] at whole
        dsimp only
        omega
      · simp [Operation.held, Operation.top, Operation.left, Operation.bottom, stage]
      · simp [Operation.isRevoked, stage]
    case isFalse =>
      cases moved
      have released := moves_release ok (by simp [Operation.top, stage])
        (by simp [Operation.left, stage]) fits.2.2.2
        (by simp [Operation.isRevoked, stage])
      exact sound.replace mem (released.trans (moves_terminate released.ok))
        (by simp [Stage.place, stage])
  case h_3 page left stage =>
    cases moved
    exact sound.moves mem (moves_put ok (.inr (.inr ⟨stage, rfl⟩))) rfl rfl rfl
      (fun _ queued => .inl queued) rfl rfl rfl rfl rfl
      (shifts_of_same (by rw [stage]; rfl) rfl)
  case h_4 stage =>
    cases moved
    have moves : Moves settings operation { operation with stage := .done } [] := by
      refine moves_stage ok trivial ?_ ?_
      · simp [Operation.held, Operation.top, Operation.left, Operation.bottom, stage]
      · simp [Operation.isRevoked, stage]
    refine sound.moves mem moves rfl (append_nil _).symm rfl
      (fun _ queued => .inl queued) rfl rfl rfl rfl rfl ?_
    intro place inhabited
    cases place <;>
      simp [State.has, State.replace, Stage.place, stage, working] at inhabited ⊢
  case h_5 => cases moved

end Steps

section Closing

variable {settings : Settings} {start : Cache β δ η} {state middle next : State β δ η}
  {operation : Operation β η} [DecidableEq β] (sound : Sound settings start state)

include sound

theorem Sound.closeEntry (mem : operation ∈ state.operations) (ongoing : operation.ongoing = true)
    (ended : operation.terminated = true ∨ operation.isRevoked = true)
    (tree : HiRadix.Ok middle.cache.nodes)
    (guarded : Guarded (guards state.operations) middle.cache.nodes)
    (operations : middle.operations = state.operations) (has : middle.has = state.has)
    (revokes : ∀ requestId ∈ middle.prefetchRevokeQueue, requestId ∈ state.prefetchRevokeQueue)
    (tokens : middle.prefetchTokensOccupied = state.prefetchTokensOccupied)
    (slots : (middle.cache.hostFree ++ hostSlots middle.cache.nodes ++
        middle.released.map Prod.snd).Perm
      (state.cache.hostFree ++ hostSlots state.cache.nodes ++ state.released.map Prod.snd ++
          operation.allocated.take operation.completed))
    (ledger : (middle.freed ++ middle.inserted ++ middle.released).Perm
      (state.freed ++ state.inserted ++ state.released ++
        tagged operation.requestId (operation.allocated.take operation.completed)))
    (treePages : (hostSlots start.nodes ++ middle.inserted.map Prod.snd).Perm
      (hostSlots middle.cache.nodes ++ middle.evicted)) :
    Sound settings start (closeEntry settings operation middle) := by
  have ok := sound.operations operation mem
  have whole := perm_rest sound.ids mem
  have replaced := @replaced_perm _ _ _ _ { operation with ongoing := false } sound.ids mem rfl
  have held := @held_replaced _ _ _ _ { operation with ongoing := false } sound.ids
    mem rfl _ (held_close ok ongoing)
  have nextOperations : (Prefetch.closeEntry settings operation middle).operations =
      withReplaced { operation with ongoing := false } state.operations := by
    rw [← operations]
    rfl
  have allocated : (Prefetch.closeEntry settings operation middle).allocated.Perm
      state.allocated := by
    rw [State.allocated, State.allocated, nextOperations]
    refine (replaced.flatMap_right _).trans (.trans ?_ (whole.flatMap_right _).symm)
    exact List.Perm.refl _
  have sameSlots : hostSlots (Prefetch.closeEntry settings operation middle).cache.nodes =
      hostSlots middle.cache.nodes :=
    hostSlots_releaseHost operation.lastHostNode middle.cache
  exact { sound.toPlaced.moved { operation with ongoing := false } mem rfl nextOperations
      (shifts_of_same rfl has) with
    tree := ok_releaseHost tree operation.lastHostNode
    operations := nextOperations ▸ sound.operations_replace
      { operation with ongoing := false } { ok with closed := fun _ => ended }
    revoked := by
      intro requestId queued
      rw [nextOperations]
      exact sound.revoked_replace { operation with ongoing := false } mem rfl id
        (revokes requestId queued)
    guarded := by
      have wanted : guards state.operations = fun path =>
          guards (Prefetch.closeEntry settings operation middle).operations path +
            if operation.lastHostNode = path then 1 else 0 := by
        funext path
        rw [nextOperations, guards_perm replaced, guards_perm whole, guards_cons, guards_cons]
        simp [ongoing]
      rw [wanted] at guarded
      exact guarded.releaseHost
    slots := by
      rw [sameSlots]
      refine .trans ?_ sound.slots
      have moved := held.map Prod.snd
      rw [map_append, map_snd_tagged] at moved
      rw [State.inFlight, nextOperations]
      change (middle.cache.hostFree ++ hostSlots middle.cache.nodes ++
        (middle.released ++ _).map Prod.snd).Perm _
      rw [State.inFlight, map_append, map_append]
      classical
      rw [perm_iff_count] at *
      intro page
      have first := slots page
      have second := moved page
      simp only [count_append] at *
      omega
    ledger := by
      refine allocated.trans (sound.ledger.trans ?_)
      rw [State.inFlight, State.inFlight, nextOperations]
      change (state.freed ++ state.inserted ++ (state.released ++ _)).Perm
        (middle.freed ++ middle.inserted ++ (middle.released ++ _))
      classical
      rw [perm_iff_count] at *
      intro page
      have first := ledger page
      have second := held page
      simp only [count_append] at *
      omega
    distinct := allocated.nodup_iff.mpr sound.distinct
    treePages := by
      rw [sameSlots]
      exact treePages
    tokens := by
      have before := sound.tokens
      rw [((whole.filter _).map _).sum_eq, filter_cons_of_pos ongoing, map_cons, sum_cons] at before
      rw [nextOperations, ((replaced.filter _).map _).sum_eq, filter_cons_of_neg (by simp)]
      change middle.prefetchTokensOccupied - operation.tokens settings.toConfig = _
      rw [tokens, before]
      ring }

theorem Sound.isPlace (mem : operation ∈ state.operations)
    (ongoing : operation.ongoing = true) : IsPlace state.cache.nodes operation.lastHostNode := by
  rw [isPlace_iff]
  by_cases atRoot : operation.lastHostNode = []
  · exact .inl atRoot
  · have wanted : 0 < guards state.operations operation.lastHostNode :=
      countP_pos_iff.mpr ⟨operation, mem, by simp [ongoing]⟩
    obtain ⟨node, nodeMem, ends, _⟩ := sound.guarded _ atRoot wanted
    exact .inr ⟨node, nodeMem, ends⟩

theorem Sound.checkPrefetchProgress {requestId : Nat}
    (taken : checkPrefetchProgress settings requestId state = some next) :
    Sound settings start next := by
  obtain ⟨operation, found, moved⟩ := bind_eq_some_iff.mp taken
  obtain ⟨mem, rfl⟩ := mem_of_operation found
  have ok := sound.operations operation mem
  split at moved
  case isFalse => cases moved
  case isTrue marked =>
    rw [Bool.and_eq_true] at marked
    cases moved
    have completedLe := ok.completedLe
    have lengths := ok.lengths
    have fits : (operation.allocated.take operation.completed).length =
        (operation.tokenIds.take operation.completed).length := by
      rw [length_take, length_take]
      omega
    have place := sound.isPlace mem marked.1
    have inserted := sound.tree.hostInserted
      (operation.hashValue.take operation.completed) fits place
    generalize matchedEq : (hostInsertLoop
      ((operation.tokenIds.take operation.completed).length + 1) operation.lastHostNode
      (operation.tokenIds.take operation.completed)
      (operation.allocated.take operation.completed)
      (operation.hashValue.take operation.completed) 0 state.cache.nodes).2 = matched
      at inserted
    have pages := take_append_drop matched (operation.allocated.take operation.completed)
    have treeSlots := inserted.slots
    apply sound.closeEntry mem marked.1 (.inl marked.2) inserted.ok
    · exact sound.guarded.hostInsertLoop _ _ _ _ _ _
    · rfl
    · rfl
    · exact fun _ queued => queued
    · rfl
    · simp only [completePrefetch, matchedEq, State.released]
      generalize operation.allocated.take operation.completed = written at *
      classical
      rw [perm_iff_count] at *
      intro page
      have first := treeSlots page
      have second := congrArg (List.count page) pages
      simp only [count_append] at *
      omega
    · dsimp only [State.released]
      generalize operation.allocated.take operation.completed = written at *
      have parts : tagged operation.requestId written =
          tagged operation.requestId (written.take matched) ++
            tagged operation.requestId (written.drop matched) := by
        rw [← tagged_append, pages]
      rw [parts]
      classical
      rw [perm_iff_count]
      intro page
      simp only [count_append]
      omega
    · dsimp only
      rw [map_append, map_snd_tagged]
      have before := sound.treePages
      generalize operation.allocated.take operation.completed = written at *
      classical
      rw [perm_iff_count] at *
      intro page
      have first := treeSlots page
      have second := before page
      simp only [count_append, completePrefetch] at *
      omega

theorem Sound.releaseAbortedRequest {requestId : Nat}
    (taken : releaseAbortedRequest settings requestId state = some next) :
    Sound settings start next := by
  obtain ⟨operation, found, moved⟩ := bind_eq_some_iff.mp taken
  obtain ⟨mem, rfl⟩ := mem_of_operation found
  split at moved
  case isFalse => cases moved
  case isTrue marked =>
    rw [Bool.and_eq_true] at marked
    cases moved
    refine sound.closeEntry mem marked.1 (.inl marked.2) ?_ ?_ ?_ ?_ ?_ ?_ ?_ ?_ ?_
    · exact sound.tree
    · exact sound.guarded
    · rfl
    · rfl
    · exact fun _ queued => queued
    · rfl
    · simp [State.released, map_snd_tagged]
    · simp [State.released]
    · exact sound.treePages

theorem Sound.drainRevoke
    (taken : drainRevoke settings state = some next) : Sound settings start next := by
  unfold Prefetch.drainRevoke at taken
  split at taken
  case h_1 => cases taken
  case h_2 requestId rest queueEq =>
    have popped : Sound settings start { state with prefetchRevokeQueue := rest } := { sound with
      revoked := fun other queued => sound.revoked other (queueEq ▸ mem_cons_of_mem _ queued) }
    dsimp only at taken
    split at taken
    case h_1 =>
      cases taken
      exact popped
    case h_2 operation found =>
      obtain ⟨mem, rfl⟩ := mem_of_operation found
      split at taken
      case isFalse =>
        cases taken
        exact popped
      case isTrue ongoing =>
        cases taken
        obtain ⟨other, otherMem, sameId, isRevoked⟩ :=
          sound.revoked operation.requestId (queueEq ▸ mem_cons_self)
        obtain rfl := KeyedList.eq_of_name sound.ids otherMem mem sameId
        have untouched := (sound.operations other mem).completed_eq_zero isRevoked
        refine popped.closeEntry mem ongoing (.inr isRevoked) sound.tree sound.guarded
          rfl rfl (fun _ queued => queued) rfl ?_ ?_ sound.treePages
        · rw [untouched, take_zero, append_nil]
        · rw [untouched, take_zero]
          exact List.Perm.of_eq (append_nil _).symm

theorem Sound.drainRelease
    (taken : drainRelease state = some next) : Sound settings start next := by
  unfold Prefetch.drainRelease at taken
  split at taken
  case h_1 => cases taken
  case h_2 page queue queueEq =>
    cases taken
    exact { sound with
      slots := by
        refine .trans ?_ sound.slots
        rw [State.inFlight, State.inFlight, State.released, State.released, queueEq]
        classical
        rw [perm_iff_count]
        intro other
        simp only [count_append, map_append, map_cons, cons_append, count_cons, count_nil]
        omega
      ledger := by
        refine sound.ledger.trans ?_
        rw [State.inFlight, State.inFlight, State.released, State.released, queueEq]
        classical
        rw [perm_iff_count]
        intro other
        simp only [count_append, cons_append, count_cons, count_nil]
        omega }

theorem Sound.appendHostMemRelease
    (taken : appendHostMemRelease state = some next) : Sound settings start next := by
  unfold Prefetch.appendHostMemRelease at taken
  split at taken
  case h_1 => cases taken
  case h_2 page left abortedEq =>
    cases taken
    have inFlight : State.inFlight { state with
        hostMemReleaseQueue := state.hostMemReleaseQueue ++ [page]
        aborted := left } = state.inFlight := by
      simp [State.inFlight, State.released, abortedEq]
    exact { sound with
      slots := inFlight ▸ sound.slots
      ledger := inFlight ▸ sound.ledger }

end Closing

section Start

variable [DecidableEq β] {settings : Settings} {start : Cache β δ η} {state next : State β δ η}

/-- The host pool is ready for a prefetch below a path: its node has been protected once
more, and pages may have been evicted. -/
structure Readied (start : Cache β δ η) (state : State β δ η) (path : List β)
    (ready : Cache β δ η) : Prop where
  tree : HiRadix.Ok ready.nodes
  guarded : Guarded (fun other => guards state.operations other + if path = other then 1 else 0)
    ready.nodes
  slots : (ready.hostFree ++ hostSlots ready.nodes ++ state.inFlight.map Prod.snd).Perm
    (hostSlots start.nodes ++ start.hostFree)
  treePages : (hostSlots start.nodes ++ state.inserted.map Prod.snd).Perm
    (hostSlots ready.nodes ++ (state.evicted ++ ready.hostFree.drop state.cache.hostFree.length))

variable (sound : Sound settings start state) {path : List β} {ready : Cache β δ η}

include sound

theorem Sound.readied (inTree : path ≠ [] → ∃ node ∈ state.cache.nodes, node.full = path)
    (evicted : HostEvicted (protectHost path state.cache) ready) :
    Readied start state path ready := by
  obtain ⟨pages, freeEq, treeSlots⟩ := evicted.released
  rw [hostSlots_protectHost] at treeSlots
  have freeEq : ready.hostFree = state.cache.hostFree ++ pages := freeEq
  refine ⟨evicted.ok, (sound.guarded.protectHost inTree).evicted evicted, ?_, ?_⟩
  · refine .trans ?_ sound.slots
    rw [freeEq]
    classical
    rw [perm_iff_count] at *
    intro page
    have first := treeSlots page
    simp only [count_append] at *
    omega
  · refine sound.treePages.trans ?_
    rw [freeEq, drop_left]
    classical
    rw [perm_iff_count] at *
    intro page
    have first := treeSlots page
    simp only [count_append] at *
    omega

/-- A new operation takes its pages from the free ones. -/
theorem Sound.addOperation (pool : (hostSlots start.nodes ++ start.hostFree).Nodup)
    {operation : Operation β η} (readied : Readied start state operation.lastHostNode ready)
    (ok : operation.Ok settings)
    (fresh : operation.requestId ∉ state.operations.map Operation.requestId)
    (waits : operation.stage = .waiting) (ongoing : operation.ongoing = true)
    (held : operation.held = operation.allocated) {remaining : List η}
    (parts : operation.allocated ++ remaining = ready.hostFree) :
    Sound settings start { state with
      cache := { ready with hostFree := remaining }
      operations := operation :: state.operations
      prefetchQueue := state.prefetchQueue ++ [operation.requestId]
      prefetchTokensOccupied := state.prefetchTokensOccupied + operation.tokens settings.toConfig
      evicted := state.evicted ++ ready.hostFree.drop state.cache.hostFree.length } where
  ids := nodup_cons.mpr ⟨fresh, sound.ids⟩
  places := by
    intro place inhabited
    have before := sound.places place inhabited
    rw [placedAt_cons]
    cases place <;> simp [State.has, Stage.place, waits] at inhabited before ⊢
    case prefetchQueue => exact perm_append_comm.trans (before.cons _)
    all_goals exact before
  tree := readied.tree
  operations := forall_mem_cons.mpr ⟨ok, sound.operations⟩
  revoked := by
    intro other queued
    obtain ⟨operation, mem, found⟩ := sound.revoked other queued
    exact ⟨operation, mem_cons_of_mem _ mem, found⟩
  guarded := by
    have wanted : guards (operation :: state.operations) = fun other =>
        guards state.operations other + if operation.lastHostNode = other then 1 else 0 := by
      funext other
      rw [guards_cons]
      simp [ongoing]
    exact wanted ▸ readied.guarded
  slots := by
    refine .trans ?_ readied.slots
    rw [State.inFlight, State.inFlight]
    dsimp only [State.released]
    rw [flatMap_cons, held, ← parts]
    classical
    rw [perm_iff_count]
    intro page
    simp only [count_append, map_append, map_snd_tagged]
    omega
  ledger := by
    have before := sound.ledger
    rw [State.allocated, State.inFlight] at *
    dsimp only [State.released] at *
    rw [flatMap_cons, flatMap_cons, held]
    classical
    rw [perm_iff_count] at *
    intro page
    have first := before page
    simp only [count_append] at *
    omega
  distinct := by
    have whole := readied.slots.nodup_iff.mpr pool
    rw [← parts, append_assoc, append_assoc] at whole
    rw [State.allocated]
    dsimp only
    rw [flatMap_cons, nodup_append]
    refine ⟨?_, sound.distinct, ?_⟩
    · exact (nodup_append.mp whole).1.map fun _ _ same => (Prod.mk.inj same).2
    · intro page pageMem other otherMem same
      obtain ⟨earlier, mem, inEarlier⟩ := mem_flatMap.mp otherMem
      obtain ⟨_, _, rfl⟩ := mem_map.mp pageMem
      obtain ⟨_, _, rfl⟩ := mem_map.mp inEarlier
      have sameId : operation.requestId = earlier.requestId := congrArg Prod.fst same
      exact fresh (sameId ▸ mem_map_of_mem mem)
  treePages := readied.treePages
  tokens := by
    dsimp only
    rw [filter_cons_of_pos ongoing, map_cons, sum_cons, sound.tokens]
    ring

theorem Sound.prefetchFromStorage (pool : (hostSlots start.nodes ++ start.hostFree).Nodup)
    {requestId : Nat} {key : List β} {victims : Victims β δ η}
    (taken : prefetchFromStorage settings requestId path key victims state = some next) :
    Sound settings start next := by
  unfold Prefetch.prefetchFromStorage at taken
  split at taken
  case isTrue => cases taken
  case isFalse allowed =>
    push Not at allowed
    obtain ⟨fresh, place⟩ := allowed
    split at taken
    case isTrue =>
      cases taken
      exact sound
    case isFalse =>
      dsimp only at taken
      have guardedOk := ok_protectHost sound.tree path
      have inTree : path ≠ [] → ∃ node ∈ state.cache.nodes, node.full = path := by
        intro ne
        obtain ⟨node, found⟩ := ne_none_iff_exists'.mp (place ne)
        exact ⟨node, mem_of_nodeAt found⟩
      generalize readyEq : (if key.length ≤ (protectHost path state.cache).hostFree.length then
          protectHost path state.cache
        else evictHost settings.toConfig victims (settings.pageSize * key.length)
          (protectHost path state.cache)) = ready at taken
      have evicted : HostEvicted (protectHost path state.cache) ready := by
        rw [← readyEq]
        split
        · exact .refl guardedOk
        · exact hostEvicted_evictHost settings.toConfig victims _ guardedOk
      have readied := sound.readied inTree evicted
      split at taken
      case isFalse =>
        cases taken
        have sameSlots := hostSlots_releaseHost path ready
        exact { sound with
          tree := ok_releaseHost readied.tree path
          guarded := readied.guarded.releaseHost
          slots := sameSlots ▸ readied.slots
          treePages := sameSlots ▸ readied.treePages }
      case isTrue enough =>
        cases taken
        refine sound.addOperation pool readied ?_ fresh rfl rfl ?_ (take_append_drop _ _)
        · exact {
            lengths := length_take_of_le enough
            hits := Nat.zero_le _
            fits := ⟨rfl, rfl⟩
            completedLe := Nat.zero_le _
            closed := fun ended => by cases ended }
        · simp [Operation.held, Operation.top, Operation.bottom, Operation.left]

end Start

section Interleavings

variable {settings : Settings} {start : Cache β δ η} {state next : State β δ η}

/-- The scheduler has ended the operation, the threads are through with it, and none of
its pages is on its way through the release queue. -/
structure State.Finished (state : State β δ η) (operation : Operation β η) : Prop where
  ended : operation.ongoing = false
  prefetchQueue : operation.requestId ∉ state.prefetchQueue
  prefetcher : state.prefetcher ≠ some operation.requestId
  prefetchBuffer : operation.requestId ∉ state.prefetchBuffer
  reader : state.reader ≠ some operation.requestId
  released : ∀ page, (operation.requestId, page) ∉ state.released

variable {operation : Operation β η}

theorem Placed.held_eq_nil (placed : Placed state) (mem : operation ∈ state.operations)
    (finished : state.Finished operation) : operation.held = [] := by
  apply Operation.held_eq_nil finished.ended
  apply placed.finished mem
  intro place
  cases place with
  | prefetchQueue => exact finished.prefetchQueue
  | prefetcher => simpa [State.has] using finished.prefetcher
  | prefetchBuffer => exact finished.prefetchBuffer
  | reader => simpa [State.has] using finished.reader
  | nobody => simp [State.has]

variable [DecidableEq β]

theorem Sound.step (sound : Sound settings start state)
    (pool : (hostSlots start.nodes ++ start.hostFree).Nodup) {action : Action β δ η}
    (taken : step settings state action = some next) : Sound settings start next := by
  cases action with
  | prefetchFromStorage => exact sound.prefetchFromStorage pool (eq_some_of_scheduled taken)
  | terminatePrefetch => exact sound.terminatePrefetch (eq_some_of_scheduled taken)
  | checkPrefetchProgress => exact sound.checkPrefetchProgress (eq_some_of_scheduled taken)
  | releaseAbortedRequest => exact sound.releaseAbortedRequest (eq_some_of_scheduled taken)
  | drainRevoke => exact sound.drainRevoke (eq_some_of_scheduled taken)
  | drainRelease => exact sound.drainRelease (eq_some_of_scheduled taken)
  | appendHostMemRelease => exact sound.appendHostMemRelease taken
  | storageHitQuery => exact sound.storageHitQuery taken
  | prefetchThread => exact sound.prefetchThread taken
  | readerTake => exact sound.readerTake taken
  | increment => exact sound.increment taken
  | readerNext => exact sound.readerNext taken

theorem Run.sound (tree : HiRadix.Ok start.nodes)
    (pool : (hostSlots start.nodes ++ start.hostFree).Nodup)
    (run : Run settings start state) : Sound settings start state := by
  induction run with
  | start =>
    exact {
      ids := nodup_nil
      places := by
        intro place _
        cases place <;> exact List.Perm.refl _
      tree := tree
      operations := by simp
      revoked := by simp
      guarded := by
        intro path _ wanted
        simp [guards] at wanted
      slots := by
        simp only [State.inFlight, State.released, flatMap_nil, append_nil, map_nil]
        exact perm_append_comm
      ledger := List.Perm.refl _
      distinct := nodup_nil
      treePages := List.Perm.refl _
      tokens := rfl }
  | step action _ taken ih => exact ih.step pool taken

/-- Every page of the pool is free, in one node of the tree, or in flight for one
prefetch.  For one request no page is freed twice, or freed and inserted; what has been
inserted is in the tree until it is evicted.  All pages of a finished prefetch have been
freed or inserted, and none of them is in flight for it. -/
structure OwnedOnce (settings : Settings) (start : Cache β δ η) (state : State β δ η) :
    Prop where
  slots : (state.cache.hostFree ++ hostSlots state.cache.nodes ++
    state.inFlight.map Prod.snd).Perm (hostSlots start.nodes ++ start.hostFree)
  once : (state.cache.hostFree ++ hostSlots state.cache.nodes ++
    state.inFlight.map Prod.snd).Nodup
  logs : (state.freed ++ state.inserted).Nodup
  treePages : (hostSlots start.nodes ++ state.inserted.map Prod.snd).Perm
    (hostSlots state.cache.nodes ++ state.evicted)
  finished : ∀ operation ∈ state.operations, state.Finished operation →
    ∀ page ∈ operation.allocated,
      ((operation.requestId, page) ∈ state.freed ∨
        (operation.requestId, page) ∈ state.inserted) ∧
      (operation.requestId, page) ∉ state.inFlight
  tokens : state.prefetchTokensOccupied =
    ((state.operations.filter Operation.ongoing).map
      (Operation.tokens settings.toConfig)).sum

theorem Sound.not_inFlight (sound : Sound settings start state)
    (mem : operation ∈ state.operations) (finished : state.Finished operation) (page : η) :
    (operation.requestId, page) ∉ state.inFlight := by
  intro inFlight
  rcases mem_append.mp inFlight with queued | held
  · exact finished.released page queued
  · obtain ⟨other, otherMem, inOther⟩ := mem_flatMap.mp held
    obtain ⟨_, inHeld, same⟩ := mem_map.mp inOther
    obtain rfl := KeyedList.eq_of_name sound.ids otherMem mem (congrArg Prod.fst same)
    rw [sound.toPlaced.held_eq_nil mem finished] at inHeld
    cases inHeld

theorem Sound.finished (sound : Sound settings start state)
    (mem : operation ∈ state.operations) (finished : state.Finished operation) {page : η}
    (pageMem : page ∈ operation.allocated) :
    ((operation.requestId, page) ∈ state.freed ∨ (operation.requestId, page) ∈ state.inserted) ∧
    (operation.requestId, page) ∉ state.inFlight := by
  have gone := sound.not_inFlight mem finished page
  have inLedger : (operation.requestId, page) ∈ state.allocated :=
    mem_flatMap.mpr ⟨operation, mem, mem_map_of_mem pageMem⟩
  rw [sound.ledger.mem_iff, mem_append, mem_append] at inLedger
  exact ⟨inLedger.resolve_right gone, gone⟩

/-- In every interleaving of the scheduler, the prefetch thread and the I/O thread the
host pages of the prefetches have one owner each. -/
theorem prefetch_owned_once (tree : HiRadix.Ok start.nodes)
    (pool : (hostSlots start.nodes ++ start.hostFree).Nodup)
    (run : Run settings start state) : OwnedOnce settings start state := by
  have sound := run.sound tree pool
  exact { sound with
    once := sound.slots.nodup_iff.mpr pool
    logs := (nodup_append.mp (sound.ledger.nodup_iff.mp sound.distinct)).1
    finished := fun _ member finished _ pageMem => sound.finished member finished pageMem }

theorem run_of_foldlM {actions : List (Action β δ η)} (run : Run settings start state)
    (taken : actions.foldlM (step settings) state = some next) : Run settings start next := by
  induction actions generalizing state with
  | nil =>
    cases taken
    exact run
  | cons action actions ih =>
    obtain ⟨middle, first, rest⟩ := bind_eq_some_iff.mp taken
    exact ih (run.step action first) rest

end Interleavings

def onePageActions : List (Action Nat Nat Nat) :=
  [.prefetchFromStorage 7 [] [1, 2] fun _ => [], .storageHitQuery 1, .prefetchThread,
    .prefetchThread, .readerTake, .readerNext, .increment 1, .readerNext, .readerNext,
    .readerNext, .terminatePrefetch 7, .checkPrefetchProgress 7, .drainRelease]

def onePageSettings : Settings :=
  { pageSize := 1
    writeThroughThreshold := 1
    enableStorage := true
    prefetchThreshold := 1
    prefetchCapacityLimit := 8
    storageBatchSize := 4 }

def onePageStart : Cache Nat Nat Nat := { deviceFree := [], hostFree := [21, 22] }

def onePageEnd : State Nat Nat Nat :=
  (onePageActions.foldlM (step onePageSettings) { cache := onePageStart }).getD
    { cache := onePageStart }

theorem prefetch_owned_once_onePage :
    onePageEnd.inserted = [(7, 21)] ∧ onePageEnd.freed = [(7, 22)] ∧
      OwnedOnce onePageSettings onePageStart onePageEnd := by
  have tree : HiRadix.Ok onePageStart.nodes :=
    ⟨⟨by simp [onePageStart], by simp [onePageStart], by simp [onePageStart]⟩,
      by simp [onePageStart], by simp [onePageStart]⟩
  have taken : onePageActions.foldlM (step onePageSettings) { cache := onePageStart } =
      some onePageEnd := by decide +kernel
  exact ⟨by decide +kernel, by decide +kernel,
    prefetch_owned_once tree (by decide) (run_of_foldlM .start taken)⟩

end LnaLang.Prefetch
