import LnaLang.HiRadixRuns

/-!
# From the device to the host and on to the storage

Two promises about the lower tiers.  Evicting from the device should not lose a page
of the host: it does when a node without a host copy is deleted while a node below
it has one.  And every page that is backed up on the host should be offered to the
storage: it is not when its node is split between the start of the backup and the
acknowledgement, since only the lower part is still known under the name of the
node.
-/

namespace LnaLang

namespace HiRadix

open List

open PrefixForest

variable {β δ η : Type} {nodes : List (Node β δ η)}

section Eviction

/-- No unlocked node without a host copy stands above one with a host copy. -/
def HostClosed (nodes : List (Node β δ η)) : Prop :=
  ∀ above ∈ nodes, ∀ below ∈ nodes, above.full <+: below.full → above.lockRef = 0 →
    below.backuped = true → above.backuped = true

structure HostKept (before after : Cache β δ η) : Prop where
  closed : HostClosed after.nodes
  slots : hostSlots after.nodes = hostSlots before.nodes
  hostFree : after.hostFree = before.hostFree

theorem HostKept.trans {first second third : Cache β δ η} (front : HostKept first second)
    (back : HostKept second third) : HostKept first third :=
  ⟨back.closed, back.slots.trans front.slots, back.hostFree.trans front.hostFree⟩

theorem hostSlots_filter {keep : Node β δ η → Bool}
    (noCopy : ∀ node ∈ nodes, keep node = false → node.backuped = false) :
    hostSlots (nodes.filter keep) = hostSlots nodes := by
  apply flatMap_filter_of_nil
  intro node mem dropped
  have noValue : node.hostValue = none := by simpa [Node.backuped] using noCopy node mem dropped
  rw [noValue]
  rfl

variable [DecidableEq β] (config : Config)

theorem hostKept_evictBackuped {cache : Cache β δ η} (closed : HostClosed cache.nodes)
    (node : Node β δ η) : HostKept cache (evictBackuped config node cache) where
  closed := by
    intro above aboveMem below belowMem isAbove unlocked hasCopy
    obtain ⟨oldAbove, oldAboveMem, rfl⟩ := mem_map.mp aboveMem
    obtain ⟨oldBelow, oldBelowMem, rfl⟩ := mem_map.mp belowMem
    have old := closed oldAbove oldAboveMem oldBelow oldBelowMem
    split at isAbove <;> split at isAbove <;> simp_all [Node.backuped, Node.full]
  slots := by
    simp only [evictBackuped, modifyAt, hostSlots, flatMap_map]
    apply flatMap_congr
    intro other _
    split <;> rfl
  hostFree := rfl

theorem hostKept_evictRegular {cache : Cache β δ η} (closed : HostClosed cache.nodes)
    {node : Node β δ η} (mem : node ∈ cache.nodes) (unlocked : node.lockRef = 0)
    (noCopy : node.backuped = false) : HostKept cache (evictRegular config node cache) where
  closed above aboveMem below belowMem :=
    closed above (mem_filter.mp aboveMem).1 below (mem_filter.mp belowMem).1
  slots := by
    apply hostSlots_filter
    intro below belowMem dropped
    by_contra hasCopy
    have isBelow : node.full <+: below.full := by simpa using dropped
    have := closed node mem below belowMem isBelow unlocked (by simpa using hasCopy)
    rw [noCopy] at this
    cases this
  hostFree := rfl

theorem hostKept_evictLoop {numTokens : Nat} (order heap : List (List β))
    (numEvicted : Nat) {cache : Cache β δ η} (closed : HostClosed cache.nodes) :
    HostKept cache (evictLoop config numTokens order heap numEvicted cache) := by
  induction order generalizing heap numEvicted cache with
  | nil => exact ⟨closed, rfl, rfl⟩
  | cons path order ih =>
    rw [evictLoop]
    split
    case isFalse => exact ⟨closed, rfl, rfl⟩
    case isTrue =>
      split
      case h_1 => exact ih _ _ closed
      case h_2 node found =>
        obtain ⟨mem, _⟩ := mem_of_nodeAt found
        split
        case isTrue => exact ih _ _ closed
        case isFalse notLocked =>
          have unlocked : node.lockRef = 0 := Nat.eq_zero_of_not_pos notLocked
          have step : HostKept cache (evictNode config node cache) := by
            unfold evictNode
            split
            case isTrue => exact hostKept_evictBackuped config closed node
            case isFalse noCopy =>
              exact hostKept_evictRegular config closed mem unlocked (by simpa using noCopy)
          exact step.trans (ih _ _ step.closed)

/-- `evict` loses no host page when no unlocked node without a host copy stands above
one with a host copy. -/
theorem evict_keeps_hostSlots (victims : Victims β δ η) (numTokens : Nat)
    {cache : Cache β δ η} (closed : HostClosed cache.nodes) :
    ∀ slot ∈ hostSlots cache.nodes, slot ∈ hostSlots (evict config victims numTokens cache).nodes ∨
        slot ∈ (evict config victims numTokens cache).hostFree := by
  intro slot member
  left
  have kept : HostKept cache (evict config victims numTokens cache) :=
    hostKept_evictLoop config _ _ _ closed
  rw [kept.slots]
  exact member

def backedLeaf : Cache Nat Nat Nat where
  nodes := [⟨⟨[], [1]⟩, some [11], some [21], [], 0, 0, 0⟩]
  deviceFree := []
  hostFree := []

theorem evict_keeps_hostSlots_backedLeaf : hostSlots backedLeaf.nodes = [21] ∧
    ∀ slot ∈ hostSlots backedLeaf.nodes,
      slot ∈ hostSlots (evict ⟨1, 1, false, 10⟩ (fun _ => [[1]]) 1 backedLeaf).nodes ∨
        slot ∈ (evict ⟨1, 1, false, 10⟩ (fun _ => [[1]]) 1 backedLeaf).hostFree := by
  refine ⟨rfl, ?_⟩
  apply evict_keeps_hostSlots
  intro above aboveMem _ _ _ _ _
  rw [mem_singleton.mp aboveMem]
  rfl

/-- With one host page left the first node of two pages is not backed up, but the
node of one page below it is. -/
def starvedBackup : Cache Nat Nat Nat :=
  [Op.insert false [1, 2] [11, 12], .insert false [1, 2, 3] [11, 12, 13],
    .ackWrite].foldl (Op.apply ⟨1, 1, false, 10⟩ fun _ => [])
    { deviceFree := [], hostFree := [21] }

theorem reachable_starvedBackup : Reachable ⟨1, 1, false, 10⟩ starvedBackup :=
  .step (fun _ => []) .ackWrite (.step (fun _ => []) (.insert false [1, 2, 3] [11, 12, 13])
      (.step (fun _ => []) (.insert false [1, 2] [11, 12]) (.empty [] [21]) rfl) rfl)
    trivial

/-- Evicting all three pages deletes the upper node, and the host page is gone. -/
theorem evict_loses_starvedBackup :
    Reachable ⟨1, 1, false, 10⟩ starvedBackup ∧ 21 ∈ hostSlots starvedBackup.nodes ∧
      21 ∉ hostSlots (evict ⟨1, 1, false, 10⟩ (fun _ => [[1, 2, 3], [1, 2]]) 3
        starvedBackup).nodes ∧
      21 ∉ (evict ⟨1, 1, false, 10⟩ (fun _ => [[1, 2, 3], [1, 2]]) 3 starvedBackup).hostFree :=
  ⟨reachable_starvedBackup, by decide +kernel, by decide +kernel, by decide +kernel⟩

end Eviction

section Hashes

theorem hashChain_append (last first second : List β) : hashChain last (first ++ second) =
      hashChain last first ++ hashChain (last ++ first) second := by
  induction first generalizing last with
  | nil => simp [hashChain]
  | cons page first ih =>
    rw [cons_append, hashChain, hashChain, ih, append_assoc]
    rfl

variable (last key : List β)

include last key

theorem length_hashChain : (hashChain last key).length = key.length := by
  induction key generalizing last with
  | nil => rfl
  | cons page key ih => rw [hashChain, length_cons, ih, length_cons]

theorem take_hashChain (length : Nat) :
    (hashChain last key).take length = hashChain last (key.take length) := by
  have split := hashChain_append last (key.take length) (key.drop length)
  rw [take_append_drop] at split
  rw [split]
  rcases Nat.lt_or_ge length key.length with lt | ge
  · exact take_left' (by rw [length_hashChain, length_take]; omega)
  · rw [drop_eq_nil_iff.mpr ge, hashChain, append_nil]
    apply take_of_length_le
    rw [length_hashChain, length_take]
    omega

theorem drop_hashChain (length : Nat) (le : length ≤ key.length) :
    (hashChain last key).drop length = hashChain (last ++ key.take length) (key.drop length) := by
  have split := hashChain_append last (key.take length) (key.drop length)
  rw [take_append_drop] at split
  rw [split]
  exact drop_left' (by rw [length_hashChain, length_take]; omega)

theorem getElem?_hashChain (i : Nat) (lt : i < key.length) :
    (hashChain last key)[i]? = some (last ++ key.take (i + 1)) := by
  induction key generalizing last i with
  | nil => simp at lt
  | cons page key ih =>
    cases i with
    | zero => simp [hashChain]
    | succ i =>
      rw [hashChain, getElem?_cons_succ, ih _ _ (by simpa using lt)]
      simp

theorem getLast?_hashChain (ne : key ≠ []) :
    (hashChain last key).getLast? = some (last ++ key) := by
  have pos := length_pos_iff.mpr ne
  rw [getLast?_eq_getElem?, length_hashChain, getElem?_hashChain last key _ (by omega),
    show key.length - 1 + 1 = key.length by omega, take_length]

omit last key

def Hashed (nodes : List (Node β δ η)) : Prop :=
  ∀ node ∈ nodes, node.hashValue = hashChain node.start node.key

variable [DecidableEq β]

/-- `compute_node_hash_values` goes on from the parent, so its hashes are those of the
pages on their paths. -/
theorem Hashed.computeHashValues (hashed : Hashed nodes) (ok : Ok nodes)
    {path : List β} (place : IsPlace nodes path) (key : List β) :
    computeHashValues nodes path key = hashChain path key := by
  rcases isPlace_iff.mp place with rfl | ⟨node, mem, rfl⟩
  · have noNode : nodeAt nodes [] = none := by
      rw [nodeAt, find?_eq_none]
      intro node mem
      simp only [decide_eq_true_eq]
      intro atRoot
      exact ok.key_ne_nil mem (append_eq_nil_iff.mp atRoot).2
    rw [HiRadix.computeHashValues, noNode]
    rfl
  · rw [HiRadix.computeHashValues, ok.nodeAt_eq mem, Option.bind_some,
      hashed node mem, getLast?_hashChain _ _ (ok.key_ne_nil mem)]
    rfl

end Hashes

section Offers

/-- A page has been passed to `write_storage`, with its hash and from its host page. -/
def Offered (writes : List (StorageWrite β η)) (path : List β) (slot : η) : Prop :=
  ∃ write ∈ writes, ∃ index : Nat, write.hashValue[index]? = some path ∧
    write.key[index]? = path.getLast? ∧ write.hostValue[index]? = some slot

/-- The page belongs to a node whose write is not acknowledged yet. -/
def Pending (cache : Cache β δ η) (path : List β) : Prop :=
  ∃ node ∈ cache.nodes, node.full ∈ cache.ongoingWriteThrough ∧ node.toSegment.Covers path

/-- Every page on the host has been offered to the storage, or comes from it, or its
write is under way. -/
structure Backed (fetched : List (List β)) (cache : Cache β δ η) : Prop where
  ok : Ok cache.nodes
  hashed : Hashed cache.nodes
  pages : ∀ path slot, (path, slot) ∈ hostPages cache.nodes →
    Offered cache.storageWrites path slot ∨ path ∈ fetched ∨ Pending cache path

/-- The nodes are old ones, up to counters and device values; a node gets host pages
only when its write is under way. -/
structure Descends (before after : Cache β δ η) : Prop where
  nodes : ∀ node ∈ after.nodes, ∃ old ∈ before.nodes,
    old.toSegment = node.toSegment ∧ old.hashValue = node.hashValue ∧
      (old.hostValue = node.hostValue ∨ node.full ∈ after.ongoingWriteThrough)
  pending : ∀ path ∈ before.ongoingWriteThrough, path ∈ after.ongoingWriteThrough
  writes : after.storageWrites = before.storageWrites

theorem Descends.refl (cache : Cache β δ η) : Descends cache cache :=
  ⟨fun node mem => ⟨node, mem, rfl, rfl, .inl rfl⟩, fun _ mem => mem, rfl⟩

theorem Descends.trans {first second third : Cache β δ η}
    (front : Descends first second) (back : Descends second third) :
    Descends first third where
  nodes node mem := by
    obtain ⟨middle, middleMem, segment, hash, host⟩ := back.nodes node mem
    obtain ⟨old, oldMem, oldSegment, oldHash, oldHost⟩ := front.nodes middle middleMem
    refine ⟨old, oldMem, oldSegment.trans segment, oldHash.trans hash, ?_⟩
    rcases host with same | underWay
    · rcases oldHost with oldSame | oldUnderWay
      · exact .inl (oldSame.trans same)
      · have sameFull : middle.full = node.full := congrArg Segment.full segment
        exact .inr (back.pending _ (sameFull ▸ oldUnderWay))
    · exact .inr underWay
  pending path mem := back.pending path (front.pending path mem)
  writes := back.writes.trans front.writes

theorem descends_map {before after : Cache β δ η} {change : Node β δ η → Node β δ η}
    (nodesEq : after.nodes = before.nodes.map change)
    (segment : ∀ node, (change node).toSegment = node.toSegment)
    (hash : ∀ node, (change node).hashValue = node.hashValue)
    (host : ∀ node, (change node).hostValue = node.hostValue)
    (pending : after.ongoingWriteThrough = before.ongoingWriteThrough)
    (writes : after.storageWrites = before.storageWrites) :
    Descends before after where
  nodes node mem := by
    rw [nodesEq] at mem
    obtain ⟨old, oldMem, rfl⟩ := mem_map.mp mem
    exact ⟨old, oldMem, (segment old).symm, (hash old).symm, .inl (host old).symm⟩
  pending path mem := pending ▸ mem
  writes := writes

theorem Counts.descends {before after : Cache β δ η} {change : Node β δ η → Node β δ η}
    (counts : Counts change) (nodesEq : after.nodes = before.nodes.map change)
    (pending : after.ongoingWriteThrough = before.ongoingWriteThrough)
    (writes : after.storageWrites = before.storageWrites) : Descends before after :=
  descends_map nodesEq counts.segment counts.hashValue counts.hostValue pending writes

theorem HostEvicted.descends {before after : Cache β δ η}
    (evicted : HostEvicted before after) : Descends before after where
  nodes node mem := ⟨node, evicted.subset mem, rfl, rfl, .inl rfl⟩
  pending path mem := by
    rw [evicted.frame]
    exact mem
  writes := by rw [evicted.frame]

theorem DeviceEvicted.descends {before after : Cache β δ η}
    (evicted : DeviceEvicted before after) : Descends before after where
  nodes node mem := by
    obtain ⟨old, oldMem, rfl | rfl⟩ := evicted.nodes node mem
    · exact ⟨_, oldMem, rfl, rfl, .inl rfl⟩
    · exact ⟨old, oldMem, rfl, rfl, .inl rfl⟩
  pending path mem := by
    rw [evicted.frame]
    exact mem
  writes := by rw [evicted.frame]

theorem mem_hostPages_covers {node : Node β δ η} {path : List β} {slot : η}
    (mem : (path, slot) ∈ node.hostPages) : node.toSegment.Covers path := by
  obtain ⟨i, lt, pathEq, _⟩ := mem_pagesFrom_iff.mp mem
  exact covers_iff.mpr ⟨i, lt, pathEq⟩

theorem Hashed.offered (hashed : Hashed nodes) {node : Node β δ η}
    (mem : node ∈ nodes) {path : List β} {slot : η}
    (inNode : (path, slot) ∈ node.hostPages) {writes : List (StorageWrite β η)}
    (written : ⟨node.hostValue.getD [], node.key, node.hashValue⟩ ∈ writes) :
    Offered writes path slot := by
  obtain ⟨i, lt, rfl, found⟩ := mem_pagesFrom_iff.mp inNode
  refine ⟨_, written, i, ?_, ?_, found⟩
  · rw [hashed node mem]
    exact getElem?_hashChain _ _ _ lt
  · rw [take_succ_eq_append_getElem lt, ← append_assoc, getLast?_concat]
    exact getElem?_eq_getElem lt

variable {fetched : List (List β)}

theorem Descends.backed {before after : Cache β δ η} (descends : Descends before after)
    (backed : Backed fetched before) (ok : Ok after.nodes) : Backed fetched after where
  ok := ok
  hashed node mem := by
    obtain ⟨old, oldMem, segment, hash, _⟩ := descends.nodes node mem
    rw [← hash, backed.hashed old oldMem, segment]
  pages path slot mem := by
    obtain ⟨node, nodeMem, inNode⟩ := mem_flatMap.mp mem
    have covers := mem_hostPages_covers inNode
    obtain ⟨old, oldMem, segment, _, host⟩ := descends.nodes node nodeMem
    rcases host with sameHost | underWay
    · have inOld : (path, slot) ∈ old.hostPages := by rwa [Node.hostPages, segment, sameHost]
      rcases backed.pages path slot (mem_flatMap.mpr ⟨old, oldMem, inOld⟩) with
        offered | isFetched | ⟨other, otherMem, pending, otherCovers⟩
      · exact .inl (descends.writes ▸ offered)
      · exact .inr (.inl isFetched)
      · have same := backed.ok.forest.unique_cover (mem_map_of_mem otherMem)
          (mem_map_of_mem oldMem) otherCovers (mem_hostPages_covers inOld)
        have sameFull : other.full = node.full := congrArg Segment.full (same.trans segment)
        exact .inr (.inr ⟨node, nodeMem, descends.pending _ (sameFull ▸ pending), covers⟩)
    · exact .inr (.inr ⟨node, nodeMem, underWay, covers⟩)

theorem Backed.fetch {cache : Cache β δ η} (backed : Backed fetched cache)
    (more : List (List β)) : Backed (fetched ++ more) cache where
  ok := backed.ok
  hashed := backed.hashed
  pages path slot mem := by
    rcases backed.pages path slot mem with offered | isFetched | pending
    · exact .inl offered
    · exact .inr (.inl (mem_append_left _ isFetched))
    · exact .inr (.inr pending)

theorem Backed.acked {cache after : Cache β δ η} (backed : Backed fetched cache)
    {change : Node β δ η → Node β δ η} (counts : Counts change) {path : List β}
    {writes : List (StorageWrite β η)}
    (pendingEq : cache.ongoingWriteThrough = path :: after.ongoingWriteThrough)
    (nodesEq : after.nodes = cache.nodes.map change)
    (writesEq : after.storageWrites = cache.storageWrites ++ writes)
    (written : ∀ node ∈ cache.nodes, node.full = path →
      ⟨node.hostValue.getD [], node.key, node.hashValue⟩ ∈ writes) :
    Backed fetched after where
  ok := nodesEq ▸ counts.ok_map backed.ok
  hashed node mem := by
    rw [nodesEq] at mem
    obtain ⟨old, oldMem, rfl⟩ := mem_map.mp mem
    rw [counts.hashValue, counts.segment, backed.hashed old oldMem]
  pages page slot mem := by
    rw [nodesEq, counts.hostPages] at mem
    rcases backed.pages page slot mem with
      ⟨write, writeMem, offered⟩ | isFetched | ⟨other, otherMem, pending, otherCovers⟩
    · rw [writesEq]
      exact .inl ⟨write, mem_append_left _ writeMem, offered⟩
    · exact .inr (.inl isFetched)
    · rw [pendingEq] at pending
      rcases mem_cons.mp pending with rfl | later
      · -- the page belongs to the acknowledged node
        obtain ⟨node, nodeMem, inNode⟩ := mem_flatMap.mp mem
        have same := backed.ok.forest.unique_cover (mem_map_of_mem nodeMem)
          (mem_map_of_mem otherMem) (mem_hostPages_covers inNode) otherCovers
        left
        rw [writesEq]
        exact backed.hashed.offered nodeMem inNode (mem_append_right _
          (written node nodeMem (congrArg Segment.full same)))
      · refine .inr (.inr ⟨change other, ?_, ?_, ?_⟩)
        · rw [nodesEq]
          exact mem_map_of_mem otherMem
        · rwa [Node.full, counts.segment]
        · rwa [counts.segment]

end Offers

section Splits

variable {key : List β} {n length : Nat} {child : Node β δ η}

/-- The key leaves the tree, or ends, in the middle of the node. -/
def EndsInside (key : List β) (node : Node β δ η) : Prop :=
  ∃ length, node.start.length < length ∧ length < node.full.length ∧
    length ≤ key.length ∧ key.take length <+: node.full ∧
      (length < key.length → ¬ key.take (length + 1) <+: node.full)

/-- From a page on, the key does not end in the middle of a node whose write is under
way. -/
def SparedFrom (count : Nat) (key : List β) (cache : Cache β δ η) : Prop :=
  ∀ node ∈ cache.nodes, node.full ∈ cache.ongoingWriteThrough →
    count ≤ node.start.length → ¬ EndsInside key node

theorem Follows.endsInside (follows : Follows nodes key n child length)
    (partly : length < child.key.length) : EndsInside key child := by
  have within := follows.within
  have startLength : child.start.length = n := by
    rw [follows.start, length_take]
    omega
  have pos := follows.positive
  refine ⟨n + length, by omega, ?_, within, ?_, ?_⟩
  · rw [Node.full, Segment.full, length_append]
    omega
  · rw [← follows.matched]
    exact (prefix_append_right_inj _).mpr (List.take_prefix _ _)
  · intro more inChild
    refine follows.longest partly more (stored_iff.mpr ⟨child, follows.member, ?_, inChild⟩)
    rw [length_take]
    omega

variable [DecidableEq β] {fetched : List (List β)}

theorem Backed.splitNode {cache : Cache β δ η} (backed : Backed fetched cache)
    (mem : child ∈ cache.nodes) (pos : 0 < length) (lt : length < child.key.length)
    (settled : child.full ∉ cache.ongoingWriteThrough) :
    Backed fetched { cache with nodes := splitNode child.full length cache.nodes } := by
  have cut := backed.ok.splitNode_perm mem length
  exact {
    ok := backed.ok.splitNode mem pos lt
    hashed := by
      intro node nodeMem
      have childHash := backed.hashed child mem
      rcases mem_cons.mp (cut.mem_iff.mp nodeMem) with rfl | inRest
      · exact (congrArg (List.take length) childHash).trans (take_hashChain _ _ _)
      · rcases mem_cons.mp inRest with rfl | inOthers
        · exact (congrArg (List.drop length) childHash).trans (drop_hashChain _ _ _ lt.le)
        · exact backed.hashed node (mem_filter.mp inOthers).1
    pages := by
      intro path slot inPages
      have old := (backed.ok.sameView_splitNode mem).host.mem_iff.mpr inPages
      rcases backed.pages path slot old with
        offered | isFetched | ⟨node, nodeMem, pending, covers⟩
      · exact .inl offered
      · exact .inr (.inl isFetched)
      · refine .inr (.inr ⟨node, cut.mem_iff.mpr ?_, pending, covers⟩)
        have ne : node.full ≠ child.full := by
          intro same
          exact settled (same ▸ pending)
        simp [nodeMem, ne] }

theorem Backed.matchChild {cache : Cache β δ η} (backed : Backed fetched cache)
    (follows : Follows cache.nodes key n child length) (spared : SparedFrom n key cache) :
    Backed fetched { cache with nodes := matchChild child length cache.nodes } ∧
      SparedFrom (n + length) key
        { cache with nodes := HiRadix.matchChild child length cache.nodes } := by
  have startLength : child.start.length = n := by
    have within := follows.within
    rw [follows.start, length_take]
    omega
  unfold HiRadix.matchChild
  split
  case isTrue partly =>
    have settled : child.full ∉ cache.ongoingWriteThrough := fun pending =>
      spared child follows.member pending startLength.ge (follows.endsInside partly)
    refine ⟨backed.splitNode follows.member follows.positive partly settled, ?_⟩
    intro node nodeMem pending ge
    have cut := backed.ok.splitNode_perm follows.member length
    rcases mem_cons.mp (cut.mem_iff.mp nodeMem) with rfl | inRest
    · have pos := follows.positive
      have : (child.upper length).start.length = child.start.length := rfl
      omega
    · rcases mem_cons.mp inRest with rfl | inOthers
      · exact (settled (Node.lower_full ▸ pending)).elim
      · exact spared node (mem_filter.mp inOthers).1 pending (by omega)
  case isFalse =>
    exact ⟨backed, fun node nodeMem pending ge => spared node nodeMem pending (by omega)⟩

end Splits

section Hits

/-- Moreover only the write of one node is begun. -/
structure Hit (path : List β) (before after : Cache β δ η) : Prop
    extends Descends before after where
  fresh : ∀ other ∈ after.ongoingWriteThrough,
    other ∈ before.ongoingWriteThrough ∨ other = path

theorem Descends.hit {before after : Cache β δ η} (descends : Descends before after)
    (pending : after.ongoingWriteThrough = before.ongoingWriteThrough)
    (path : List β) : Hit path before after :=
  ⟨descends, fun _ mem => .inl (pending ▸ mem)⟩

theorem Hit.trans {path : List β} {first second third : Cache β δ η}
    (front : Hit path first second) (back : Hit path second third) :
    Hit path first third where
  toDescends := front.toDescends.trans back.toDescends
  fresh other mem := by
    rcases back.fresh other mem with earlier | same
    · exact front.fresh other earlier
    · exact .inr same

theorem HostEvicted.hit {before after : Cache β δ η} (evicted : HostEvicted before after)
    (path : List β) : Hit path before after :=
  evicted.descends.hit (by rw [evicted.frame]) path

theorem SparedFrom.hit {key : List β} {n : Nat} {before after : Cache β δ η}
    (spared : SparedFrom n key before) (hit : Hit (key.take n) before after)
    (ok : Ok after.nodes) : SparedFrom n key after := by
  rintro node mem pending ge ends
  obtain ⟨old, oldMem, segment, _, _⟩ := hit.nodes node mem
  have sameFull : old.full = node.full := congrArg Segment.full segment
  rcases hit.fresh _ pending with earlier | begun
  · refine spared old oldMem (sameFull ▸ earlier) (segment ▸ ge) ?_
    rwa [EndsInside, sameFull, segment]
  · have keyPos := length_pos_iff.mpr (ok.key_ne_nil mem)
    have lengths := congrArg List.length begun
    simp only [Node.full, Segment.full, length_append, length_take] at lengths
    omega

variable [DecidableEq β] (config : Config) (path : List β)

include path

theorem hit_countHit (cache : Cache β δ η) : Hit path cache (countHit path cache) := by
  have counts : Counts fun node : Node β δ η =>
      if node.full = path then { node with hitCount := node.hitCount + 1 } else node :=
    (counts_hitCount (· + 1)).ite fun node => node.full = path
  have descends : Descends cache (countHit path cache) := counts.descends rfl rfl rfl
  exact descends.hit rfl path

theorem descends_incLockRef (cache : Cache β δ η) :
    Descends cache (incLockRef config path cache) := by
  have counts : Counts fun node : Node β δ η =>
      if node.full <+: path then { node with lockRef := node.lockRef + 1 } else node :=
    (counts_lockRef (· + 1)).ite fun node => node.full <+: path
  exact counts.descends rfl rfl rfl

theorem descends_decLockRef (cache : Cache β δ η) :
    Descends cache (decLockRef config path cache) := by
  have counts : Counts fun node : Node β δ η =>
      if node.full <+: path then { node with lockRef := node.lockRef - 1 } else node :=
    (counts_lockRef (· - 1)).ite fun node => node.full <+: path
  exact counts.descends rfl rfl rfl

theorem hit_startWrite (n : Nat) (cache : Cache β δ η) :
    Hit path cache (startWrite config path n cache) := by
  have reserved : Hit path cache (reserveHost path n cache) := {
    nodes := by
      intro node mem
      obtain ⟨old, oldMem, rfl⟩ := mem_map.mp mem
      refine ⟨old, oldMem, ?_⟩
      split
      case isTrue there => exact ⟨rfl, rfl, .inr (mem_append_right _ (by simpa))⟩
      case isFalse => exact ⟨rfl, rfl, .inl rfl⟩
    pending := fun _ mem => mem_append_left _ mem
    writes := rfl
    fresh := by
      intro other mem
      simpa [reserveHost] using mem }
  exact reserved.trans ((descends_incLockRef config path _).hit rfl path)

omit path

theorem hit_incHitCount (victims : Victims β δ η) (chunked : Bool) (path : List β)
    {cache : Cache β δ η} (ok : Ok cache.nodes) :
    Hit path cache (incHitCount config victims chunked path cache) := by
  have unchanged : ∀ same : Cache β δ η, Hit path same same := fun same =>
    (Descends.refl same).hit rfl path
  unfold incHitCount
  split
  case isTrue => exact unchanged cache
  case isFalse =>
    have counted := hit_countHit path cache
    have countedOk := (kept_countHit ok path).ok
    dsimp only
    split
    case h_1 => exact counted
    case h_2 =>
      split
      case isFalse => exact counted
      case isTrue =>
        apply counted.trans
        unfold writeBackup
        split
        case h_1 => exact unchanged _
        case h_2 node _ =>
          dsimp only
          split
          case isTrue => exact hit_startWrite config path _ _
          case isFalse =>
            have evicted := hostEvicted_evictHost config victims
              (config.pageSize * (node.value.getD []).length) countedOk
            split
            case isTrue => exact (evicted.hit path).trans (hit_startWrite config path _ _)
            case isFalse => exact evicted.hit path

theorem hit_adopt (path : List β) (slots : List δ) (cache : Cache β δ η) :
    Hit path cache (adopt config path slots cache) := by
  have descends : Descends cache (adopt config path slots cache) := by
    have nodesEq : (adopt config path slots cache).nodes = cache.nodes.map fun node =>
        if node.full = path then { node with value := some slots } else node := rfl
    apply descends_map nodesEq
    · intro node
      split <;> rfl
    · intro node
      split <;> rfl
    · intro node
      split <;> rfl
    · rfl
    · rfl
  exact descends.hit rfl path

end Hits

section Steps

variable [DecidableEq β] {fetched : List (List β)} {key : List β} {n : Nat}

theorem Backed.addNode {config : Config} (storage : config.enableStorage = true)
    {cache : Cache β δ η} (backed : Backed fetched cache) {path rest : List β} {v : List δ}
    (place : IsPlace cache.nodes path) (ok : Ok (addNode config path rest v cache).nodes) :
    Backed fetched (addNode config path rest v cache) where
  ok := ok
  hashed node mem := by
    rcases mem_cons.mp mem with rfl | old
    · rw [if_pos storage, backed.hashed.computeHashValues backed.ok place]
    · exact backed.hashed node old
  pages path slot mem := by
    rw [hostPages, HiRadix.addNode, flatMap_cons] at mem
    rcases mem_append.mp mem with inNew | inOld
    · obtain ⟨i, _, _, found⟩ := mem_pagesFrom_iff.mp inNew
      simp at found
    · rcases backed.pages path slot inOld with
        offered | isFetched | ⟨node, nodeMem, pending, covers⟩
      · exact .inl offered
      · exact .inr (.inl isFetched)
      · exact .inr (.inr ⟨node, mem_cons_of_mem _ nodeMem, pending, covers⟩)

theorem Backed.insertLoop {config : Config} (storage : config.enableStorage = true)
    (victims : Victims β δ η) (chunked : Bool) {v : List δ} {cache : Cache β δ η}
    (backed : Backed fetched cache) (fits : v.length = key.length) (fuel total : Nat)
    (le : n ≤ key.length) (place : DevicePlace cache.nodes (key.take n))
    (spared : SparedFrom n key cache) :
    Backed fetched (insertLoop config victims chunked fuel (key.take n)
      (key.drop n) (v.drop n) total cache).1 := by
  induction fuel generalizing n total cache with
  | zero => exact backed
  | succ fuel ih =>
    cases restEq : key.drop n with
    | nil => exact backed
    | cons page rest =>
      rw [HiRadix.insertLoop]
      split
      case h_1 missing =>
        have addedOk := ok_addNode config backed.ok fits place restEq missing
        have added := backed.addNode storage place.place addedOk
        exact (hit_incHitCount config victims chunked _ addedOk).backed added
          (inserted_addNode victims chunked backed.ok fits place restEq missing).ok
      case h_2 child found =>
        have follows := backed.ok.follows le restEq found
        generalize keyMatch child.key (page :: rest) = length at *
        have nextRest : (page :: rest).drop length = key.drop (n + length) := by
          rw [← restEq, drop_drop]
        obtain ⟨matched, matchedSpared⟩ := backed.matchChild follows spared
        dsimp only
        rw [nextRest, drop_drop, follows.matched]
        split
        case isTrue =>
          have adoptedOk := ok_adopted config backed.ok fits place follows
          have hit := hit_adopt config (key.take (n + length)) ((v.drop n).take length)
            { cache with nodes := HiRadix.matchChild child length cache.nodes }
          exact ih (hit.backed matched adoptedOk) _ follows.within
            (devicePlace_adopted config _ backed.ok follows adoptedOk)
            (matchedSpared.hit hit adoptedOk)
        case isFalse onDevice =>
          have childOn : child.evicted = false := by simpa using onDevice
          have kept := kept_hit config victims chunked backed.ok follows childOn
          have hit := hit_incHitCount config victims chunked (key.take (n + length)) matched.ok
          exact ih (hit.backed matched kept.ok) _ follows.within
            (kept.devicePlace backed.ok follows childOn)
            (matchedSpared.hit hit kept.ok)

theorem Backed.matchLoop {cache : Cache β δ η} (backed : Backed fetched cache)
    (fuel : Nat) (le : n ≤ key.length) (spared : SparedFrom n key cache) :
    Backed fetched { cache with
      nodes := (matchLoop fuel (key.take n) (key.drop n) cache.nodes).nodes } := by
  induction fuel generalizing n with
  | zero => exact backed
  | succ fuel ih =>
    cases restEq : key.drop n with
    | nil => exact backed
    | cons page rest =>
      rw [HiRadix.matchLoop]
      split
      case h_1 => exact backed
      case h_2 child found =>
        have follows := backed.ok.follows le restEq found
        generalize keyMatch child.key (page :: rest) = length at *
        have step := backed.matchChild follows spared
        dsimp only
        unfold HiRadix.matchChild at step
        split
        case isTrue partly =>
          rw [if_pos partly] at step
          exact step.1
        case isFalse whole =>
          rw [if_neg whole] at step
          have nextFull : child.full = key.take (n + length) := by
            have := follows.le
            rw [← follows.matched, take_of_length_le (by omega)]
            rfl
          have nextRest : (page :: rest).drop length = key.drop (n + length) := by
            rw [← restEq, drop_drop]
          rw [nextFull, nextRest]
          exact ih follows.within step.2

theorem Backed.hostInsertLoop {host : List η} {cache : Cache β δ η} (backed : Backed fetched cache)
    (fuel : Nat) {matched : Nat} (le : n ≤ key.length) (fits : host.length = key.length - n)
    (place : IsPlace cache.nodes (key.take n)) (spared : SparedFrom n key cache)
    (inFetched : ∀ i, n ≤ i → i < key.length → key.take (i + 1) ∈ fetched) :
    Backed fetched { cache with
      nodes := (hostInsertLoop fuel (key.take n) (key.drop n) host
        (hashChain (key.take n) (key.drop n)) matched cache.nodes).1 } := by
  induction fuel generalizing n matched host cache with
  | zero => exact backed
  | succ fuel ih =>
    cases restEq : key.drop n with
    | nil => exact backed
    | cons page rest =>
      rw [HiRadix.hostInsertLoop]
      split
      case h_1 missing =>
        have restLength : (page :: rest).length = key.length - n := by
          rw [← restEq, length_drop]
        exact {
          ok := backed.ok.addHost (fits.trans restLength.symm) place missing
          hashed := by
            intro node mem
            rcases mem_cons.mp mem with rfl | old
            · rfl
            · exact backed.hashed node old
          pages := by
            intro path slot mem
            rw [hostPages, flatMap_cons] at mem
            rcases mem_append.mp mem with inNew | inOld
            · obtain ⟨i, lt, pathEq, _⟩ := mem_pagesFrom_iff.mp inNew
              have inRest : i < (page :: rest).length := lt
              right
              left
              rw [pathEq, ← restEq, ← take_add]
              exact inFetched (n + i) (by omega) (by omega)
            · rcases backed.pages path slot inOld with
                offered | isFetched | ⟨node, nodeMem, pending, covers⟩
              · exact .inl offered
              · exact .inr (.inl isFetched)
              · exact .inr (.inr ⟨node, mem_cons_of_mem _ nodeMem, pending, covers⟩) }
      case h_2 child found =>
        have follows := backed.ok.follows le restEq found
        generalize keyMatch child.key (page :: rest) = length at *
        have within := follows.within
        have nextRest : (page :: rest).drop length = key.drop (n + length) := by
          rw [← restEq, drop_drop]
        have nextHashes : (hashChain (key.take n) (page :: rest)).drop length =
              hashChain (key.take (n + length)) (key.drop (n + length)) := by
          rw [← restEq, drop_hashChain _ _ _ (by rw [length_drop]; omega),
            ← take_add, drop_drop]
        have step := backed.matchChild follows spared
        obtain ⟨_, _, matchedMem⟩ := backed.ok.matchChild follows.member follows.positive
        dsimp only
        rw [nextRest, nextHashes, follows.matched]
        apply ih step.1 within
        · rw [length_drop]
          omega
        · refine isPlace_iff.mpr (.inr ⟨_, matchedMem, ?_⟩)
          rw [matchedNode_full follows.le, follows.matched]
        · exact step.2
        · exact fun i ge lt => inFetched i (by omega) lt

theorem Backed.ackWrite {config : Config} (storage : config.enableStorage = true)
    {cache : Cache β δ η} (backed : Backed fetched cache) :
    Backed fetched (ackWrite config cache) := by
  unfold HiRadix.ackWrite
  split
  case h_1 => exact backed
  case h_2 path rest pendingEq =>
    have dec : Counts fun node : Node β δ η =>
        if node.full <+: path then { node with lockRef := node.lockRef - 1 } else node :=
      (counts_lockRef (· - 1)).ite fun node => node.full <+: path
    dsimp only
    rw [if_pos storage, writeBackupStorage]
    split
    case h_1 missing =>
      refine backed.acked dec pendingEq rfl (append_nil _).symm ?_
      intro node mem ends
      exact (nodeAt_eq_none missing _ (mem_map_of_mem mem)
        ((congrArg Segment.full (dec.segment node)).trans ends)).elim
    case h_2 found atPath =>
      have inc : Counts fun node : Node β δ η => if node.full = path then
          { node with hostRefCounter := node.hostRefCounter + 1 } else node :=
        (counts_hostRefCounter (· + 1)).ite fun node => node.full = path
      refine backed.acked (inc.comp dec) pendingEq (map_map ..) rfl ?_
      intro node mem ends
      obtain ⟨foundMem, foundEnds⟩ := mem_of_nodeAt atPath
      obtain ⟨old, oldMem, rfl⟩ := mem_map.mp foundMem
      have sameFull : node.full = old.full :=
        ends.trans (foundEnds.symm.trans (congrArg Segment.full (dec.segment old)))
      rw [backed.ok.eq_of_full mem oldMem sameFull, mem_singleton]
      simp only [dec.segment, dec.hostValue, dec.hashValue]

theorem Descends.assignValues {chain : List (Node β δ η)} {slots : List δ} {cache : Cache β δ η} :
    Descends cache { cache with nodes := assignValues chain slots cache.nodes } := by
  induction chain generalizing slots cache with
  | nil => exact .refl cache
  | cons node chain ih =>
    have given : Descends cache { cache with
        nodes := modifyAt node.full (fun node => { node with
          value := some (slots.take (node.hostValue.getD []).length) })
          cache.nodes } := by
      apply descends_map rfl
      · intro other
        split <;> rfl
      · intro other
        split <;> rfl
      · intro other
        split <;> rfl
      · rfl
      · rfl
    exact given.trans ih

theorem descends_loadBack (config : Config) (victims : Victims β δ η) (path : List β)
    (memQuota : Option Int) {cache : Cache β δ η} (ok : Ok cache.nodes) :
    Descends cache (loadBack config victims path memQuota cache) := by
  rw [loadBack]
  generalize nodesToLoad cache.nodes (path.length + 1) path = load
  have locked := descends_incLockRef config load.2 cache
  have lockedOk := ok.incLockRef config load.2
  dsimp only
  split
  case isTrue => exact .refl cache
  case isFalse =>
    split
    case isTrue => exact locked.trans (descends_decLockRef config load.2 _)
    case isFalse =>
      generalize (load.1.map fun node => (node.hostValue.getD []).length).sum = pages
      have evicted : Descends (incLockRef config load.2 cache)
          (if pages ≤ (incLockRef config load.2 cache).deviceFree.length then
            incLockRef config load.2 cache
          else evict config victims (config.pageSize * pages)
            (incLockRef config load.2 cache)) := by
        split
        · exact .refl _
        · exact (deviceEvicted_evict config victims _ lockedOk).descends
      generalize (if pages ≤ (incLockRef config load.2 cache).deviceFree.length then
          incLockRef config load.2 cache
        else evict config victims (config.pageSize * pages)
          (incLockRef config load.2 cache)) = ready at evicted ⊢
      have unlocked := (locked.trans evicted).trans (descends_decLockRef config load.2 ready)
      split
      case isFalse => exact unlocked
      case isTrue =>
        have loaded := unlocked.trans (@Descends.assignValues _ _ _ _ load.1
          (ready.deviceFree.take pages) (decLockRef config load.2 ready))
        have booked : Descends cache { decLockRef config load.2 ready with
            nodes := assignValues load.1 (ready.deviceFree.take pages)
              (decLockRef config load.2 ready).nodes
            deviceFree := ready.deviceFree.drop pages
            evictableSize := (decLockRef config load.2 ready).evictableSize +
              ((config.pageSize * pages : Nat) : Int)
            ongoingLoadBack := (decLockRef config load.2 ready).ongoingLoadBack ++ [path] } :=
          ⟨loaded.nodes, loaded.pending, loaded.writes⟩
        exact booked.trans (descends_incLockRef config path _)

end Steps

section Histories

variable [DecidableEq β]

/-- The pages that an operation brings from the storage, by their paths. -/
def Op.fetches : Op β δ η → List (List β)
  | .completePrefetch path key _ => hashChain path key
  | _ => []

/-- The operation splits no node whose write is under way: its key does not end in the
middle of one. -/
def Op.Spares : Op β δ η → Cache β δ η → Prop
  | .insert _ key _, cache => SparedFrom 0 key cache
  | .matchPrefix key, cache => SparedFrom 0 key cache
  | .completePrefetch path key _, cache => SparedFrom 0 (path ++ key) cache
  | _, _ => True

/-- Histories of operations of some kind, with the pages they brought from the
storage. -/
inductive History (config : Config) (allowed : Op β δ η → Cache β δ η → Prop) :
    Cache β δ η → List (List β) → Prop where
  | empty (deviceFree : List δ) (hostFree : List η) :
      History config allowed { deviceFree, hostFree } []
  | step {cache : Cache β δ η} {fetched : List (List β)} (victims : Victims β δ η)
      (op : Op β δ η) :
      History config allowed cache fetched → op.Fits cache → allowed op cache →
        History config allowed (op.apply config victims cache) (fetched ++ op.fetches)

theorem Backed.completePrefetch {fetched : List (List β)} {path key : List β} {host : List η}
    {cache : Cache β δ η} (backed : Backed fetched cache) (fits : host.length = key.length)
    (place : IsPlace cache.nodes path) (spared : SparedFrom 0 (path ++ key) cache) :
    Backed (fetched ++ hashChain path key)
      (completePrefetch path key host (hashChain path key) cache) := by
  have takeEq : (path ++ key).take path.length = path := take_left
  have dropEq : (path ++ key).drop path.length = key := drop_left
  have inFetched : ∀ i, path.length ≤ i → i < (path ++ key).length →
      (path ++ key).take (i + 1) ∈ fetched ++ hashChain path key := by
    intro i ge lt
    obtain ⟨off, rfl⟩ := Nat.exists_eq_add_of_le ge
    rw [length_append] at lt
    have inChain := getElem?_hashChain path key off (by omega)
    rw [Nat.add_assoc, take_length_add_append]
    exact mem_append_right _ (mem_of_getElem? inChain)
  have inserted := @Backed.hostInsertLoop _ _ _ _ _ (path ++ key) path.length host _
    (backed.fetch (hashChain path key)) (key.length + 1) 0
    (by rw [length_append]; omega) (by rw [length_append, fits]; omega)
    (takeEq.symm ▸ place)
    (fun node mem pending _ => spared node mem pending (Nat.zero_le _)) inFetched
  rw [takeEq, dropEq] at inserted
  exact ⟨inserted.ok, inserted.hashed, inserted.pages⟩

theorem Backed.apply {config : Config} (storage : config.enableStorage = true)
    (victims : Victims β δ η) {fetched : List (List β)} {cache : Cache β δ η}
    (backed : Backed fetched cache) (op : Op β δ η) (fits : op.Fits cache)
    (spares : op.Spares cache) :
    Backed (fetched ++ op.fetches) (op.apply config victims cache) := by
  have ok := backed.ok.apply config victims op fits
  have step (descends : Descends cache (op.apply config victims cache)) :
      Backed (fetched ++ op.fetches) (op.apply config victims cache) :=
    (descends.backed backed ok).fetch _
  cases op with
  | insert chunked key v =>
    have root : DevicePlace cache.nodes (key.take 0) := ⟨.inl rfl, fun ne => (ne rfl).elim⟩
    exact (backed.insertLoop storage victims chunked fits (key.length + 1) 0
      (Nat.zero_le _) root spares).fetch []
  | matchPrefix key =>
    exact (backed.matchLoop (key.length + 1) (Nat.zero_le key.length) spares).fetch []
  | evict numTokens => exact step (deviceEvicted_evict config victims numTokens backed.ok).descends
  | evictHost numTokens =>
    exact step (hostEvicted_evictHost config victims numTokens backed.ok).descends
  | loadBack path memQuota => exact step (descends_loadBack config victims path memQuota backed.ok)
  | ackWrite => exact (backed.ackWrite storage).fetch []
  | ackLoad =>
    apply step
    change Descends cache (HiRadix.ackLoad config cache)
    unfold HiRadix.ackLoad
    split
    case h_1 => exact .refl cache
    case h_2 path rest _ =>
      have unlocked := descends_decLockRef config path { cache with ongoingLoadBack := rest }
      exact ⟨unlocked.nodes, unlocked.pending, unlocked.writes⟩
  | ackBackup =>
    apply step
    change Descends cache (HiRadix.ackBackup cache)
    unfold HiRadix.ackBackup
    split
    case h_1 => exact .refl cache
    case h_2 path rest _ =>
      have counts : Counts fun node : Node β δ η => if node.full = path then
          { node with hostRefCounter := node.hostRefCounter - 1 } else node :=
        (counts_hostRefCounter (· - 1)).ite fun node => node.full = path
      exact counts.descends rfl rfl rfl
  | incLockRef path => exact step (descends_incLockRef config path cache)
  | decLockRef path => exact step (descends_decLockRef config path cache)
  | allocHost =>
    have same := Descends.refl cache
    exact step ⟨same.nodes, same.pending, rfl⟩
  | freeHost =>
    have same := Descends.refl cache
    exact step ⟨same.nodes, same.pending, rfl⟩
  | completePrefetch path key host => exact backed.completePrefetch fits.1 fits.2 spares

/-- When no node is split while its write is under way, every page on the host has
been offered to the storage once all writes are acknowledged. -/
theorem hostPages_reach_storage {config : Config}
    (storage : config.enableStorage = true) {cache : Cache β δ η}
    {fetched : List (List β)} (history : History config Op.Spares cache fetched)
    (acknowledged : cache.ongoingWriteThrough = []) :
    ∀ path slot, (path, slot) ∈ hostPages cache.nodes →
      Offered cache.storageWrites path slot ∨ path ∈ fetched := by
  have backed : Backed fetched cache := by
    clear acknowledged
    induction history with
    | empty =>
      exact ⟨⟨⟨by simp, by simp, by simp⟩, by simp, by simp⟩,
        fun _ member => by simp at member, fun _ _ member => by simp [hostPages] at member⟩
    | step victims op _ fits spares ih => exact ih.apply storage victims op fits spares
  intro path slot member
  rcases backed.pages path slot member with offered | isFetched | ⟨_, _, pending, _⟩
  · exact .inl offered
  · exact .inr isFetched
  · rw [acknowledged] at pending
    cases pending

def acknowledgedInsert : Cache Nat Nat Nat :=
  [Op.insert false [1, 2] [11, 12], .ackWrite].foldl
    (Op.apply ⟨1, 1, true, 10⟩ fun _ => []) { deviceFree := [], hostFree := [21, 22] }

theorem history_acknowledgedInsert : History ⟨1, 1, true, 10⟩ Op.Spares acknowledgedInsert [] :=
  .step (fun _ => []) .ackWrite
    (.step (fun _ => []) (.insert false [1, 2] [11, 12]) (.empty [] [21, 22]) rfl
      (fun node mem => by simp at mem))
    trivial trivial

theorem hostPages_reach_storage_acknowledgedInsert :
    ([1], 21) ∈ hostPages acknowledgedInsert.nodes ∧
      ∀ path slot, (path, slot) ∈ hostPages acknowledgedInsert.nodes →
        Offered acknowledgedInsert.storageWrites path slot ∨ path ∈ ([] : List (List Nat)) :=
  ⟨by decide +kernel,
    hostPages_reach_storage rfl history_acknowledgedInsert (by decide +kernel)⟩

/-- Between the insert and the acknowledgement a match splits the node. -/
def splitInsert : Cache Nat Nat Nat :=
  [Op.insert false [1, 2] [11, 12], .matchPrefix [1], .ackWrite].foldl
    (Op.apply ⟨1, 1, true, 10⟩ fun _ => []) { deviceFree := [], hostFree := [21, 22] }

/-- The first page is on the host, but only the second is offered to the storage. -/
theorem splitInsert_not_offered : History ⟨1, 1, true, 10⟩ (fun _ _ => True) splitInsert [] ∧
      splitInsert.ongoingWriteThrough = [] ∧
      ([1], 21) ∈ hostPages splitInsert.nodes ∧
      splitInsert.storageWrites = [⟨[22], [2], [[1, 2]]⟩] ∧
      ¬ Offered splitInsert.storageWrites [1] 21 := by
  have writes : splitInsert.storageWrites = [⟨[22], [2], [[1, 2]]⟩] := by decide +kernel
  refine ⟨?_, by decide +kernel, by decide +kernel, writes, ?_⟩
  · exact .step (fun _ => []) .ackWrite (.step (fun _ => []) (.matchPrefix [1])
        (.step (fun _ => []) (.insert false [1, 2] [11, 12]) (.empty [] [21, 22]) rfl
          trivial) trivial trivial) trivial trivial
  · rw [writes]
    rintro ⟨write, member, index, hash, _, host⟩
    rw [mem_singleton.mp member] at hash host
    cases index with
    | zero => simp at hash
    | succ index => simp at hash

end Histories

end HiRadix

end LnaLang
