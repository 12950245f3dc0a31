import LnaLang.HiRadixCache
import LnaLang.KeyedList

/-!
# What the operations do to the tree

The invariant of the tree is kept by the small changes of which the operations are
made: looking a node up, changing a field of it, splitting it, and the two
evictions.  `evict_host` takes away evicted nodes only; `evict` leaves alone whatever
stands below locked and evicted nodes.
-/

namespace LnaLang.HiRadix

open List

open PrefixForest

variable {β δ η : Type} {nodes : List (Node β δ η)}

section Places

variable {node : Node β δ η} {path : List β}

/-- A path that is the end of a node, or the root. -/
def IsPlace (nodes : List (Node β δ η)) (path : List β) : Prop :=
  Boundary (nodes.map Node.toSegment) path

theorem isPlace_iff : IsPlace nodes path ↔ path = [] ∨ ∃ node ∈ nodes, node.full = path := by
  simp [IsPlace, Boundary, Node.full]

theorem Ok.isPlace_start (ok : Ok nodes) (mem : node ∈ nodes) : IsPlace nodes node.start :=
  ok.forest.rooted _ (mem_map_of_mem mem)

theorem Ok.nodup_full (ok : Ok nodes) : (nodes.map Node.full).Nodup := by
  have nodup := ok.forest.nodup_full
  rwa [map_map] at nodup

theorem Ok.eq_of_full (ok : Ok nodes) {other : Node β δ η} (mem : node ∈ nodes)
    (otherMem : other ∈ nodes) (same : node.full = other.full) : node = other :=
  inj_on_of_nodup_map ok.nodup_full mem otherMem same

end Places

section Changes

variable {node : Node β δ η} {change : Node β δ η → Node β δ η}

theorem Ok.map (ok : Ok nodes) (segment : ∀ node ∈ nodes, (change node).toSegment = node.toSegment)
    (fits : ∀ node ∈ nodes, (change node).Ok)
    (tier : ∀ node ∈ nodes, (change node).evicted = node.evicted) :
    Ok (nodes.map change) where
  forest := by
    have same : (nodes.map change).map Node.toSegment = nodes.map Node.toSegment := by
      rw [map_map]
      exact map_congr_left segment
    rw [same]
    exact ok.forest
  fits node mem := by
    obtain ⟨old, oldMem, rfl⟩ := mem_map.mp mem
    exact fits old oldMem
  device node mem onDevice parent parentMem ends := by
    obtain ⟨old, oldMem, rfl⟩ := mem_map.mp mem
    obtain ⟨above, aboveMem, rfl⟩ := mem_map.mp parentMem
    rw [tier above aboveMem]
    rw [tier old oldMem] at onDevice
    apply ok.device old oldMem onDevice above aboveMem
    have sameFull := congrArg Segment.full (segment above aboveMem)
    have sameStart := congrArg Segment.start (segment old oldMem)
    exact sameFull.symm.trans (ends.trans sameStart)

structure Counts (change : Node β δ η → Node β δ η) : Prop where
  segment : ∀ node, (change node).toSegment = node.toSegment
  value : ∀ node, (change node).value = node.value
  hostValue : ∀ node, (change node).hostValue = node.hostValue
  hashValue : ∀ node, (change node).hashValue = node.hashValue

variable (counts : Counts change)

include counts

theorem Counts.ok (nodeOk : node.Ok) : (change node).Ok where
  value value member := by
    rw [counts.value] at member
    rw [counts.segment]
    exact nodeOk.value value member
  hostValue value member := by
    rw [counts.hostValue] at member
    rw [counts.segment]
    exact nodeOk.hostValue value member
  backed := by
    have backed := nodeOk.backed
    unfold Node.evicted Node.backuped at *
    rwa [counts.value, counts.hostValue]

theorem Counts.ok_map (ok : Ok nodes) : Ok (nodes.map change) :=
  ok.map (fun node _ => counts.segment node) (fun node mem => counts.ok (ok.fits node mem))
    (fun node _ => by rw [Node.evicted, counts.value, Node.evicted])

theorem Counts.hostPages (nodes : List (Node β δ η)) :
    hostPages (nodes.map change) = hostPages nodes := by
  rw [HiRadix.hostPages, flatMap_map]
  apply flatMap_congr
  intro node _
  simp only [Node.hostPages, counts.segment, counts.hostValue]

theorem Counts.ite (there : Node β δ η → Prop) [DecidablePred there] :
    Counts fun node => if there node then change node else node where
  segment node := by split <;> simp [counts.segment]
  value node := by split <;> simp [counts.value]
  hostValue node := by split <;> simp [counts.hostValue]
  hashValue node := by split <;> simp [counts.hashValue]

omit counts

theorem Counts.comp {first second : Node β δ η → Node β δ η} (back : Counts second)
    (front : Counts first) : Counts (second ∘ first) where
  segment node := (back.segment _).trans (front.segment node)
  value node := (back.value _).trans (front.value node)
  hostValue node := (back.hostValue _).trans (front.hostValue node)
  hashValue node := (back.hashValue _).trans (front.hashValue node)

variable (update : Nat → Nat)

include update

theorem counts_lockRef :
    Counts fun node : Node β δ η => { node with lockRef := update node.lockRef } :=
  ⟨fun _ => rfl, fun _ => rfl, fun _ => rfl, fun _ => rfl⟩

theorem counts_hitCount :
    Counts fun node : Node β δ η => { node with hitCount := update node.hitCount } :=
  ⟨fun _ => rfl, fun _ => rfl, fun _ => rfl, fun _ => rfl⟩

theorem counts_hostRefCounter : Counts fun node : Node β δ η =>
      { node with hostRefCounter := update node.hostRefCounter } :=
  ⟨fun _ => rfl, fun _ => rfl, fun _ => rfl, fun _ => rfl⟩

end Changes

section Lookup

variable [DecidableEq β] {node : Node β δ η} {path : List β}

theorem mem_of_nodeAt (found : nodeAt nodes path = some node) : node ∈ nodes ∧ node.full = path :=
  ⟨mem_of_find?_eq_some found, by simpa using find?_some found⟩

theorem Ok.nodeAt_eq (ok : Ok nodes) (mem : node ∈ nodes) : nodeAt nodes node.full = some node := by
  cases found : nodeAt nodes node.full with
  | none =>
    have missing := find?_eq_none.mp found node mem
    simp at missing
  | some other =>
    obtain ⟨otherMem, same⟩ := mem_of_nodeAt found
    rw [ok.eq_of_full otherMem mem same]

theorem nodeAt_eq_none (missing : nodeAt nodes path = none) : ∀ node ∈ nodes, node.full ≠ path := by
  intro node mem
  simpa using find?_eq_none.mp missing node mem

theorem mem_of_childOf {page : β} (found : childOf nodes path page = some node) :
    node ∈ nodes ∧ node.start = path ∧ node.key.head? = some page := by
  refine ⟨mem_of_find?_eq_some found, ?_⟩
  simpa using find?_some found

theorem childOf_eq_none {page : β} (missing : childOf nodes path page = none) :
    ∀ node ∈ nodes, node.start = path → node.key.head? ≠ some page := by
  intro node mem starts
  have := find?_eq_none.mp missing node mem
  simpa [starts] using this

theorem Ok.perm_cons (ok : Ok nodes) (mem : node ∈ nodes) :
    nodes.Perm (node :: nodes.filter fun other => other.full ≠ node.full) :=
  KeyedList.perm_cons ok.nodup_full mem

theorem Ok.modifyAt_perm (ok : Ok nodes) (mem : node ∈ nodes)
    (change : Node β δ η → Node β δ η) : (modifyAt node.full change nodes).Perm
      (change node :: nodes.filter fun other => other.full ≠ node.full) :=
  KeyedList.update_perm ok.nodup_full mem change

theorem Ok.splitNode_perm (ok : Ok nodes) (mem : node ∈ nodes) (length : Nat) :
    (splitNode node.full length nodes).Perm (node.upper length :: node.lower length ::
        nodes.filter fun other => other.full ≠ node.full) := by
  refine ((ok.perm_cons mem).flatMap_right _).trans ?_
  have others : (nodes.filter fun other => other.full ≠ node.full).flatMap
      (fun other => if other.full = node.full then
        [other.upper length, other.lower length] else [other]) =
      nodes.filter fun other => other.full ≠ node.full := by
    rw [flatMap_congr (g := fun other => [other]), flatMap_singleton']
    intro other otherMem
    have ne : other.full ≠ node.full := by simpa using (mem_filter.mp otherMem).2
    exact if_neg ne
  rw [flatMap_cons, if_pos rfl, others]
  rfl

end Lookup

def hostSlots (nodes : List (Node β δ η)) : List η :=
  nodes.flatMap fun node => node.hostValue.getD []

def deviceSlots (nodes : List (Node β δ η)) : List δ :=
  nodes.flatMap fun node => node.value.getD []

theorem Node.Ok.map_snd_devicePages {node : Node β δ η} (ok : node.Ok) :
    node.devicePages.map Prod.snd = node.value.getD [] := by
  unfold Node.devicePages
  cases v : node.value with
  | none => cases node.key <;> rfl
  | some slots => exact map_snd_pagesFrom (ok.value slots v)

theorem Ok.map_snd_devicePages (ok : Ok nodes) :
    (devicePages nodes).map Prod.snd = deviceSlots nodes := by
  rw [devicePages, map_flatMap]
  apply flatMap_congr
  intro node mem
  exact (ok.fits node mem).map_snd_devicePages

theorem flatMap_filter_of_nil {γ : Type} {pages : Node β δ η → List γ} {keep : Node β δ η → Bool}
    (empty : ∀ node ∈ nodes, keep node = false → pages node = []) :
    (nodes.filter keep).flatMap pages = nodes.flatMap pages := by
  induction nodes with
  | nil => rfl
  | cons node nodes ih =>
    have tail := ih fun other mem => empty other (by simp [mem])
    cases kept : keep node with
    | true => rw [filter_cons_of_pos kept, flatMap_cons, flatMap_cons, tail]
    | false =>
      rw [filter_cons_of_neg (by simp [kept]), flatMap_cons,
        empty node (by simp) kept, tail]
      rfl

theorem devicePages_filter {keep : Node β δ η → Bool}
    (evicted : ∀ node ∈ nodes, keep node = false → node.evicted = true) :
    devicePages (nodes.filter keep) = devicePages nodes := by
  apply flatMap_filter_of_nil
  intro node mem dropped
  have noValue : node.value = none := by simpa [Node.evicted] using evicted node mem dropped
  rw [Node.devicePages, noValue]
  cases node.key <;> rfl

section HostEviction

/-- The effect of `evict_host`: evicted nodes are taken away and their pages freed. -/
structure HostEvicted (before after : Cache β δ η) : Prop where
  ok : Ok after.nodes
  nodes : ∃ keep : Node β δ η → Bool, after.nodes = before.nodes.filter keep ∧
    ∀ node ∈ before.nodes, keep node = false →
      node.evicted = true ∧ node.hostRefCounter = 0
  released : ∃ pages, after.hostFree = before.hostFree ++ pages ∧
    (hostSlots before.nodes).Perm (hostSlots after.nodes ++ pages)
  frame : after = { before with nodes := after.nodes, hostFree := after.hostFree }

variable {cache : Cache β δ η}

theorem HostEvicted.refl (ok : Ok cache.nodes) : HostEvicted cache cache where
  ok := ok
  nodes := ⟨fun _ => true, by simp, by simp⟩
  released := ⟨[], (append_nil _).symm, by rw [append_nil]⟩
  frame := rfl

theorem HostEvicted.trans {first second third : Cache β δ η}
    (front : HostEvicted first second) (back : HostEvicted second third) :
    HostEvicted first third where
  ok := back.ok
  nodes := by
    obtain ⟨keep, keepEq, keepEvicted⟩ := front.nodes
    obtain ⟨stay, stayEq, stayEvicted⟩ := back.nodes
    refine ⟨fun node => keep node && stay node, ?_, ?_⟩
    · rw [stayEq, keepEq, filter_filter]
      simp only [Bool.and_comm]
    · intro node mem dropped
      cases kept : keep node with
      | false => exact keepEvicted node mem kept
      | true =>
        simp only [kept, Bool.true_and] at dropped
        refine stayEvicted node ?_ dropped
        rw [keepEq]
        exact mem_filter.mpr ⟨mem, kept⟩
  released := by
    obtain ⟨pages, freeEq, slots⟩ := front.released
    obtain ⟨more, moreEq, moreSlots⟩ := back.released
    refine ⟨pages ++ more, by rw [moreEq, freeEq, append_assoc], slots.trans ?_⟩
    refine (moreSlots.append_right pages).trans ?_
    rw [append_assoc]
    exact perm_append_comm.append_left _
  frame := by rw [back.frame, front.frame]

variable {before after : Cache β δ η} {node : Node β δ η} (evicted : HostEvicted before after)

include evicted

theorem HostEvicted.mem_of_device
    (mem : node ∈ before.nodes) (onDevice : node.evicted = false) : node ∈ after.nodes := by
  obtain ⟨keep, keepEq, keepEvicted⟩ := evicted.nodes
  rw [keepEq, mem_filter]
  refine ⟨mem, ?_⟩
  by_contra dropped
  have := (keepEvicted node mem (by simpa using dropped)).1
  rw [onDevice] at this
  cases this

theorem HostEvicted.subset (mem : node ∈ after.nodes) : node ∈ before.nodes := by
  obtain ⟨keep, keepEq, _⟩ := evicted.nodes
  rw [keepEq] at mem
  exact (mem_filter.mp mem).1

theorem HostEvicted.devicePages : devicePages after.nodes = devicePages before.nodes := by
  obtain ⟨keep, keepEq, keepEvicted⟩ := evicted.nodes
  rw [keepEq, devicePages_filter fun node mem dropped => (keepEvicted node mem dropped).1]

omit evicted

variable [DecidableEq β]

theorem hostEvicted_removeHost (ok : Ok cache.nodes) (mem : node ∈ cache.nodes)
    (evicted : node.evicted = true) (unprotected : node.hostRefCounter = 0)
    (leaf : ∀ other ∈ cache.nodes, other.start ≠ node.full) :
    HostEvicted cache (removeHost node cache) where
  ok := by
    apply ok.filter
    intro above aboveMem other otherMem ends _
    have ne : above.full ≠ node.full := by
      rw [ends]
      exact leaf other otherMem
    simpa using ne
  nodes := by
    refine ⟨_, rfl, ?_⟩
    intro other otherMem dropped
    have same : other.full = node.full := by simpa using dropped
    rw [ok.eq_of_full otherMem mem same]
    exact ⟨evicted, unprotected⟩
  released := by
    have split : (hostSlots cache.nodes).Perm (node.hostValue.getD [] ++
        hostSlots (removeHost node cache).nodes) :=
      (ok.perm_cons mem).flatMap_right _
    exact ⟨_, rfl, split.trans perm_append_comm⟩
  frame := rfl

variable (config : Config)

theorem hostEvicted_evictHostLoop {numTokens : Nat} (order heap : List (List β)) (numEvicted : Nat)
    (ok : Ok cache.nodes) (leaves : ∀ path ∈ heap, ∀ node ∈ cache.nodes, node.start ≠ path) :
    HostEvicted cache (evictHostLoop config numTokens order heap numEvicted cache) := by
  induction order generalizing heap numEvicted cache with
  | nil => exact .refl ok
  | cons path order ih =>
    have smaller : ∀ other ∈ heap.erase path, ∀ node ∈ cache.nodes, node.start ≠ other :=
      fun other mem => leaves other (mem_of_mem_erase mem)
    rw [evictHostLoop]
    split
    case isFalse => exact .refl ok
    case isTrue popped =>
      split
      case h_1 => exact ih _ _ ok smaller
      case h_2 node found =>
        obtain ⟨mem, rfl⟩ := mem_of_nodeAt found
        split
        case isFalse => exact ih _ _ ok smaller
        case isTrue free =>
          rw [Bool.and_eq_true, beq_iff_eq] at free
          have removed := hostEvicted_removeHost ok mem free.1 free.2 (leaves node.full popped.2)
          apply removed.trans
          apply ih _ _ removed.ok
          intro other otherMem kept keptMem
          unfold pushHostParent at otherMem
          split at otherMem
          case isFalse => exact smaller other otherMem kept (removed.subset keptMem)
          case isTrue childless =>
            rcases mem_cons.mp otherMem with rfl | inHeap
            · simp only [Bool.and_eq_true, Bool.not_eq_true', hasChild,
                any_eq_false, decide_eq_true_eq] at childless
              exact childless.1 kept keptMem
            · exact smaller other inHeap kept (removed.subset keptMem)

theorem hostEvicted_evictHost (victims : Victims β δ η) (numTokens : Nat) (ok : Ok cache.nodes) :
    HostEvicted cache (evictHost config victims numTokens cache) := by
  apply hostEvicted_evictHostLoop config _ _ _ ok
  intro path mem node nodeMem
  obtain ⟨leaf, leafMem, rfl⟩ := mem_map.mp mem
  have childless := (mem_filter.mp leafMem).2
  simp only [Bool.not_eq_true', hasChild, any_eq_false, decide_eq_true_eq] at childless
  exact childless node nodeMem

end HostEviction

section Eviction

/-- On the way to the path everything is evicted or locked. -/
def Shielded (nodes : List (Node β δ η)) (path : List β) : Prop :=
  ∀ node ∈ nodes, node.full <+: path → node.evicted = true ∨ 0 < node.lockRef

/-- The effect of `evict`: nodes lose their device pages or leave the tree, but not
behind a shield. -/
structure DeviceEvicted (before after : Cache β δ η) : Prop where
  ok : Ok after.nodes
  nodes : ∀ node ∈ after.nodes, ∃ old ∈ before.nodes,
    node = old ∨ node = { old with value := none }
  shielded : ∀ node ∈ before.nodes, Shielded before.nodes node.full →
    node ∈ after.nodes
  frame : after = { before with
    nodes := after.nodes
    deviceFree := after.deviceFree
    evictableSize := after.evictableSize }

variable {cache : Cache β δ η}

theorem DeviceEvicted.refl (ok : Ok cache.nodes) : DeviceEvicted cache cache where
  ok := ok
  nodes node mem := ⟨node, mem, .inl rfl⟩
  shielded _ mem _ := mem
  frame := rfl

theorem DeviceEvicted.shield {before after : Cache β δ η} (evicted : DeviceEvicted before after)
    {path : List β} (shielded : Shielded before.nodes path) : Shielded after.nodes path := by
  intro node mem onPath
  obtain ⟨old, oldMem, rfl | rfl⟩ := evicted.nodes node mem
  · exact shielded _ oldMem onPath
  · exact .inl rfl

theorem DeviceEvicted.trans {first second third : Cache β δ η}
    (front : DeviceEvicted first second) (back : DeviceEvicted second third) :
    DeviceEvicted first third where
  ok := back.ok
  nodes node mem := by
    obtain ⟨middle, middleMem, change⟩ := back.nodes node mem
    obtain ⟨old, oldMem, oldChange⟩ := front.nodes middle middleMem
    refine ⟨old, oldMem, ?_⟩
    rcases change with rfl | rfl
    · exact oldChange
    · rcases oldChange with rfl | rfl
      · exact .inr rfl
      · exact .inr rfl
  shielded node mem shielded :=
    back.shielded node (front.shielded node mem shielded) (front.shield shielded)
  frame := by rw [back.frame, front.frame]

variable [DecidableEq β] (config : Config) {node : Node β δ η} (ok : Ok cache.nodes)

include ok

theorem deviceEvicted_evictBackuped (member : node ∈ cache.nodes)
    (unlocked : node.lockRef = 0) (backuped : node.backuped = true)
    (leaf : ∀ other ∈ cache.nodes, other.start = node.full → other.evicted = true) :
    DeviceEvicted cache (evictBackuped config node cache) where
  ok := by
    have changedOk : ({ node with value := none } : Node β δ η).Ok := {
      value := by simp
      hostValue := (ok.fits node member).hostValue
      backed := fun _ => backuped }
    have sameSegment : ({ node with value := none } : Node β δ η).toSegment = node.toSegment := rfl
    have replaced := (ok.perm (ok.perm_cons member)).replace sameSegment changedOk
      (fun impossible => by cases impossible)
      (fun _ child childMem => leaf child (mem_filter.mp childMem).1)
    exact replaced.perm (ok.modifyAt_perm member fun node => { node with value := none }).symm
  nodes := by
    intro changed changedMem
    obtain ⟨old, oldMem, rfl⟩ := mem_map.mp changedMem
    refine ⟨old, oldMem, ?_⟩
    split
    · exact .inr rfl
    · exact .inl rfl
  shielded := by
    intro other otherMem shielded
    refine mem_map.mpr ⟨other, otherMem, ?_⟩
    split
    case isFalse => rfl
    case isTrue same =>
      obtain rfl := ok.eq_of_full otherMem member same
      rcases shielded other member prefix_rfl with evicted | locked
      · have noValue : other.value = none := by simpa [Node.evicted] using evicted
        simp [← noValue]
      · omega
  frame := rfl

theorem deviceEvicted_evictRegular (mem : node ∈ cache.nodes)
    (unlocked : node.lockRef = 0) (notBackuped : node.backuped = false) :
    DeviceEvicted cache (evictRegular config node cache) where
  ok := by
    apply ok.filter
    intro above _ other _ ends kept
    have startIn : above.full <+: other.full := by
      rw [ends]
      exact prefix_append _ _
    simp only [decide_eq_true_eq] at kept ⊢
    exact fun below => kept (below.trans startIn)
  nodes other otherMem := ⟨other, (mem_filter.mp otherMem).1, .inl rfl⟩
  shielded := by
    intro other otherMem shielded
    refine mem_filter.mpr ⟨otherMem, ?_⟩
    simp only [decide_eq_true_eq]
    intro below
    rcases shielded node mem below with evicted | locked
    · have := (ok.fits node mem).backed evicted
      rw [notBackuped] at this
      cases this
    · omega
  frame := rfl

theorem deviceEvicted_evictNode (mem : node ∈ cache.nodes) (unlocked : node.lockRef = 0)
    (leaf : ∀ other ∈ cache.nodes, other.start = node.full → other.evicted = true) :
    DeviceEvicted cache (evictNode config node cache) := by
  unfold evictNode
  split
  case isTrue backuped => exact deviceEvicted_evictBackuped config ok mem unlocked backuped leaf
  case isFalse notBackuped =>
    exact deviceEvicted_evictRegular config ok mem unlocked (by simpa using notBackuped)

omit ok

theorem deviceEvicted_evictLoop {numTokens : Nat} (order heap : List (List β))
    (numEvicted : Nat) (ok : Ok cache.nodes)
    (leaves : ∀ path ∈ heap, ∀ node ∈ cache.nodes, node.start = path → node.evicted = true) :
    DeviceEvicted cache (evictLoop config numTokens order heap numEvicted cache) := by
  induction order generalizing heap numEvicted cache with
  | nil => exact .refl ok
  | cons path order ih =>
    have smaller : ∀ other ∈ heap.erase path, ∀ node ∈ cache.nodes,
        node.start = other → node.evicted = true :=
      fun other mem => leaves other (mem_of_mem_erase mem)
    rw [evictLoop]
    split
    case isFalse => exact .refl ok
    case isTrue popped =>
      split
      case h_1 => exact ih _ _ ok smaller
      case h_2 node found =>
        obtain ⟨mem, rfl⟩ := mem_of_nodeAt found
        split
        case isTrue => exact ih _ _ ok smaller
        case isFalse unlocked =>
          have step := deviceEvicted_evictNode config ok mem (by omega)
            (leaves node.full popped.2)
          apply step.trans
          apply ih _ _ step.ok
          have kept : ∀ other ∈ heap.erase node.full, ∀ child ∈ (evictNode config node cache).nodes,
                child.start = other → child.evicted = true := by
            intro other otherMem child childMem starts
            obtain ⟨old, oldMem, rfl | rfl⟩ := step.nodes child childMem
            · exact smaller other otherMem _ oldMem starts
            · rfl
          intro other otherMem
          split at otherMem
          case isFalse => exact kept other otherMem
          case isTrue allEvicted =>
            rcases mem_cons.mp otherMem with rfl | inHeap
            · intro child childMem starts
              have := all_eq_true.mp allEvicted child childMem
              simpa [starts] using this
            · exact kept other inHeap

theorem deviceEvicted_evict (victims : Victims β δ η) (numTokens : Nat) (ok : Ok cache.nodes) :
    DeviceEvicted cache (evict config victims numTokens cache) := by
  apply deviceEvicted_evictLoop config _ _ _ ok
  intro path mem node nodeMem starts
  obtain ⟨leaf, leafMem, rfl⟩ := mem_map.mp mem
  have isLeaf := (mem_filter.mp leafMem).2
  rw [Bool.and_eq_true] at isLeaf
  have := all_eq_true.mp isLeaf.2 node nodeMem
  simpa [starts] using this

end Eviction

section Backups

/-- What happens to the tree between two matches of an insert: counters change,
evicted nodes leave, and nodes on the device get host pages. -/
structure Kept (before after : Cache β δ η) : Prop where
  ok : Ok after.nodes
  device : devicePages after.nodes = devicePages before.nodes
  place : ∀ node ∈ before.nodes, node.evicted = false →
    ∃ same ∈ after.nodes, same.toSegment = node.toSegment ∧ same.evicted = false
  sizes : after.evictableSize + after.protectedSize =
    before.evictableSize + before.protectedSize

variable {cache : Cache β δ η}

theorem Kept.refl (ok : Ok cache.nodes) : Kept cache cache :=
  ⟨ok, rfl, fun node mem onDevice => ⟨node, mem, rfl, onDevice⟩, rfl⟩

theorem Kept.trans {first second third : Cache β δ η} (front : Kept first second)
    (back : Kept second third) : Kept first third where
  ok := back.ok
  device := back.device.trans front.device
  place node mem onDevice := by
    obtain ⟨middle, middleMem, sameSegment, middleOn⟩ := front.place node mem onDevice
    obtain ⟨last, lastMem, lastSegment, lastOn⟩ := back.place middle middleMem middleOn
    exact ⟨last, lastMem, lastSegment.trans sameSegment, lastOn⟩
  sizes := back.sizes.trans front.sizes

theorem HostEvicted.kept {before after : Cache β δ η}
    (evicted : HostEvicted before after) : Kept before after where
  ok := evicted.ok
  device := evicted.devicePages
  place node mem onDevice := ⟨node, evicted.mem_of_device mem onDevice, rfl, onDevice⟩
  sizes := by rw [evicted.frame]

theorem kept_map {before after : Cache β δ η} {change : Node β δ η → Node β δ η}
    (nodesEq : after.nodes = before.nodes.map change) (ok : Ok after.nodes)
    (segment : ∀ node, (change node).toSegment = node.toSegment)
    (v : ∀ node, (change node).value = node.value)
    (sizes : after.evictableSize + after.protectedSize =
      before.evictableSize + before.protectedSize) : Kept before after where
  ok := ok
  device := by
    rw [nodesEq, HiRadix.devicePages, flatMap_map]
    apply flatMap_congr
    intro node _
    simp only [Node.devicePages, segment, v]
  place node mem onDevice := by
    refine ⟨change node, ?_, segment node, ?_⟩
    · rw [nodesEq]
      exact mem_map_of_mem mem
    · rwa [Node.evicted, v]
  sizes := sizes

variable {node : Node β δ η}

theorem Node.Ok.length_value (ok : node.Ok) (onDevice : node.evicted = false) :
    (node.value.getD []).length = node.key.length := by
  cases v : node.value with
  | none => simp [Node.evicted, v] at onDevice
  | some slots => exact ok.value slots v

variable [DecidableEq β] (config : Config) (ok : Ok cache.nodes)

include ok

theorem Ok.incLockRef (path : List β) : Ok (incLockRef config path cache).nodes :=
  ((counts_lockRef (· + 1)).ite fun node => node.full <+: path).ok_map ok

theorem Ok.decLockRef (path : List β) : Ok (decLockRef config path cache).nodes :=
  ((counts_lockRef (· - 1)).ite fun node => node.full <+: path).ok_map ok

theorem kept_incLockRef (path : List β) : Kept cache (incLockRef config path cache) := by
  have counts : Counts fun node : Node β δ η =>
      if node.full <+: path then { node with lockRef := node.lockRef + 1 } else node :=
    (counts_lockRef (· + 1)).ite fun node => node.full <+: path
  apply kept_map rfl (ok.incLockRef config path) counts.segment counts.value
  simp only [HiRadix.incLockRef]
  ring

theorem Ok.reserveHost {count : Nat} (member : node ∈ cache.nodes)
    (countEq : count = node.key.length) (enough : count ≤ cache.hostFree.length) :
    Ok (reserveHost node.full count cache).nodes := by
  have tier : ∀ other : Node β δ η, (if other.full = node.full then
      { other with hostValue := some (cache.hostFree.take count) }
      else other).evicted = other.evicted := by
    intro other
    split <;> rfl
  apply ok.map
  · intro other _
    split <;> rfl
  · intro other otherMem
    split
    case isFalse => exact ok.fits other otherMem
    case isTrue same =>
      obtain rfl := ok.eq_of_full otherMem member same
      exact {
        value := (ok.fits other otherMem).value
        hostValue := by
          rintro host ⟨rfl⟩
          exact (length_take_of_le enough).trans countEq
        backed := fun _ => rfl }
  · exact fun other _ => tier other

theorem kept_startWrite {n : Nat} (mem : node ∈ cache.nodes)
    (countEq : n = node.key.length) (enough : n ≤ cache.hostFree.length) :
    Kept cache (startWrite config node.full n cache) := by
  have reserved : Kept cache (reserveHost node.full n cache) := by
    have nodesEq : (reserveHost node.full n cache).nodes =
        cache.nodes.map fun other => if other.full = node.full then
          { other with hostValue := some (cache.hostFree.take n) } else other := rfl
    apply kept_map nodesEq (ok.reserveHost mem countEq enough)
    · intro other
      split <;> rfl
    · intro other
      split <;> rfl
    · rfl
  exact reserved.trans (kept_incLockRef config reserved.ok node.full)

omit ok

theorem kept_writeBackup (victims : Victims β δ η) {path : List β} (ok : Ok cache.nodes)
    (onDevice : ∀ node ∈ cache.nodes, node.full = path → node.evicted = false) :
    Kept cache (writeBackup config victims path cache) := by
  unfold writeBackup
  split
  case h_1 => exact .refl ok
  case h_2 node found =>
    obtain ⟨mem, rfl⟩ := mem_of_nodeAt found
    have nodeOn := onDevice node mem rfl
    have countEq := (ok.fits node mem).length_value nodeOn
    dsimp only
    split
    case isTrue enough => exact kept_startWrite config ok mem countEq enough
    case isFalse =>
      have evicted := hostEvicted_evictHost config victims
        (config.pageSize * (node.value.getD []).length) ok
      split
      case isFalse => exact evicted.kept
      case isTrue enough =>
        exact evicted.kept.trans (kept_startWrite config evicted.ok
          (evicted.mem_of_device mem nodeOn) countEq enough)

theorem kept_countHit (ok : Ok cache.nodes) (path : List β) : Kept cache (countHit path cache) := by
  have counts : Counts fun node : Node β δ η =>
      if node.full = path then { node with hitCount := node.hitCount + 1 } else node :=
    (counts_hitCount (· + 1)).ite fun node => node.full = path
  exact kept_map rfl (counts.ok_map ok) counts.segment counts.value rfl

theorem kept_incHitCount (victims : Victims β δ η) (chunked : Bool) {path : List β}
    (ok : Ok cache.nodes)
    (onDevice : ∀ node ∈ cache.nodes, node.full = path → node.evicted = false) :
    Kept cache (incHitCount config victims chunked path cache) := by
  unfold incHitCount
  split
  case isTrue => exact .refl ok
  case isFalse =>
    have counted := kept_countHit ok path
    dsimp only
    split
    case h_1 => exact counted
    case h_2 node _ =>
      split
      case isFalse => exact counted
      case isTrue =>
        apply counted.trans
        apply kept_writeBackup config victims counted.ok
        intro other otherMem ends
        obtain ⟨old, oldMem, rfl⟩ := mem_map.mp otherMem
        have oldOn := onDevice old oldMem
        split at ends
        next same =>
          rw [if_pos same]
          exact oldOn same
        next differs =>
          exact (differs ends).elim

variable (ok : Ok cache.nodes)

include ok

theorem Ok.writeBackupStorage (path : List β) : Ok (writeBackupStorage path cache).nodes := by
  unfold HiRadix.writeBackupStorage
  split
  · exact ok
  · exact ((counts_hostRefCounter (· + 1)).ite fun node => node.full = path).ok_map ok

theorem Ok.ackWrite : Ok (ackWrite config cache).nodes := by
  unfold HiRadix.ackWrite
  split
  case h_1 => exact ok
  case h_2 path rest _ =>
    have acked : Ok (HiRadix.decLockRef config path
        { cache with ongoingWriteThrough := rest }).nodes :=
      ((counts_lockRef (· - 1)).ite _).ok_map ok
    dsimp only
    split
    · exact acked.writeBackupStorage path
    · exact acked

theorem Ok.ackLoad : Ok (ackLoad config cache).nodes := by
  unfold HiRadix.ackLoad
  split
  · exact ok
  · exact ((counts_lockRef (· - 1)).ite _).ok_map ok

theorem Ok.ackBackup : Ok (ackBackup cache).nodes := by
  unfold HiRadix.ackBackup
  split
  · exact ok
  · exact ((counts_hostRefCounter (· - 1)).ite _).ok_map ok

end Backups

end LnaLang.HiRadix
