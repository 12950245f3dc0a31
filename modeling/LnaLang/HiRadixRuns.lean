import LnaLang.HiRadixInsert

/-!
# Histories of the hierarchical cache

Every operation keeps the tree in order, so in every history from an empty tree a
match is exact and an insert adopts exactly the pages that were not on the device.
The delicate operation is `load_back`: it may evict, and must find the nodes it is
about to load untouched afterwards.
-/

namespace LnaLang

namespace HiRadix

open List

open PrefixForest

variable {β δ η : Type} {nodes others : List (Node β δ η)}

/-- The tree has the node, up to its counters. -/
def Holds (nodes : List (Node β δ η)) (node : Node β δ η) : Prop :=
  ∃ same ∈ nodes, same.toSegment = node.toSegment ∧ same.value = node.value ∧
    same.hostValue = node.hostValue

/-- Evicted nodes of the tree, each below the one before it. -/
def Chain (nodes : List (Node β δ η)) : List β → List (Node β δ η) → List β → Prop
  | top, [], bottom => bottom = top
  | top, node :: below, bottom =>
    Holds nodes node ∧ node.evicted = true ∧ node.start = top ∧ Chain nodes node.full below bottom

theorem Counts.holds {change : Node β δ η → Node β δ η} (counts : Counts change) {node : Node β δ η}
    (holds : Holds nodes node) : Holds (nodes.map change) node := by
  obtain ⟨same, mem, segment, v, hostValue⟩ := holds
  exact ⟨change same, mem_map_of_mem mem,
    (counts.segment same).trans segment, (counts.value same).trans v,
    (counts.hostValue same).trans hostValue⟩

theorem Chain.snoc {top : List β} {chain : List (Node β δ η)} {node : Node β δ η}
    (isChain : Chain nodes top chain node.start) (mem : node ∈ nodes)
    (evicted : node.evicted = true) : Chain nodes top (chain ++ [node]) node.full := by
  induction chain generalizing top with
  | nil => exact ⟨⟨node, mem, rfl, rfl, rfl⟩, evicted, isChain, rfl⟩
  | cons first chain ih =>
    obtain ⟨holds, firstEvicted, starts, below⟩ := isChain
    exact ⟨holds, firstEvicted, starts, ih below⟩

theorem Chain.imp {top bottom : List β} {chain : List (Node β δ η)}
    (isChain : Chain nodes top chain bottom)
    (still : ∀ node ∈ chain, Holds nodes node → Holds others node) :
    Chain others top chain bottom := by
  induction chain generalizing top with
  | nil => exact isChain
  | cons first chain ih =>
    obtain ⟨holds, evicted, starts, below⟩ := isChain
    exact ⟨still first (by simp) holds, evicted, starts,
      ih below fun node mem => still node (by simp [mem])⟩

theorem Chain.top_isPrefix {top bottom : List β} {chain : List (Node β δ η)}
    (isChain : Chain nodes top chain bottom) : ∀ node ∈ chain, top <+: node.start := by
  induction chain generalizing top with
  | nil => simp
  | cons first chain ih =>
    obtain ⟨_, _, starts, below⟩ := isChain
    intro node mem
    rcases mem_cons.mp mem with rfl | inChain
    · rw [starts]
    · have : first.start <+: first.full := prefix_append _ _
      rw [← starts]
      exact this.trans (ih below node inChain)

theorem Ok.key_pos_of_holds (ok : Ok nodes) {node : Node β δ η}
    (holds : Holds nodes node) : 0 < node.key.length := by
  obtain ⟨same, mem, segment, _⟩ := holds
  rw [← segment]
  exact length_pos_iff.mpr (ok.key_ne_nil mem)

theorem Ok.length_hostValue (ok : Ok nodes) {node : Node β δ η} (holds : Holds nodes node)
    (evicted : node.evicted = true) : (node.hostValue.getD []).length = node.key.length := by
  obtain ⟨same, mem, segment, v, hostValue⟩ := holds
  have sameOk := ok.fits same mem
  have sameEvicted : same.evicted = true := by rwa [Node.evicted, v]
  obtain ⟨host, hostEq⟩ := Option.isSome_iff_exists.mp (sameOk.backed sameEvicted)
  rw [← hostValue, ← segment, hostEq]
  exact sameOk.hostValue host hostEq

theorem Chain.shielded {top bottom : List β} {chain : List (Node β δ η)}
    (ok : Ok nodes) (isChain : Chain nodes top chain bottom)
    (locked : ∀ node ∈ nodes, node.full <+: top → 0 < node.lockRef) :
    ∀ node ∈ chain, Shielded nodes node.full := by
  cases chain with
  | nil => simp
  | cons first chain =>
    intro node mem other otherMem above
    have topIn : top <+: node.full := (isChain.top_isPrefix node mem).trans (prefix_append _ _)
    rcases Nat.lt_or_ge top.length other.full.length with longer | shorter
    · -- the first page behind the top belongs to an evicted node
      left
      by_contra onDevice
      obtain ⟨⟨same, sameMem, segment, v, _⟩, evicted, starts, below⟩ := isChain
      have firstIn : first.full <+: node.full := by
        rcases mem_cons.mp mem with rfl | inChain
        · exact prefix_rfl
        · exact (below.top_isPrefix node inChain).trans (prefix_append _ _)
      have firstKey := length_pos_iff.mpr (ok.key_ne_nil sameMem)
      have sameStart : same.start = top := by rw [segment, starts]
      have covers : same.toSegment.Covers (other.full.take (top.length + 1)) := by
        refine ⟨?_, ?_⟩
        · rw [sameStart, length_take]
          omega
        · apply prefix_of_prefix_length_le ((List.take_prefix _ _).trans above)
          · rw [segment]
            exact firstIn
          · rw [Segment.full, length_append, sameStart, length_take]
            omega
      have otherOn : OnDevice nodes (other.full.take other.full.length) := by
        rw [take_length, ok.evicted_iff otherMem]
        simpa using onDevice
      have pageOn := ok.onDevice_take otherOn (Nat.succ_pos top.length) longer (le_refl _)
      rw [ok.onDevice_iff_of_covers sameMem covers, Node.evicted, v] at pageOn
      rw [Node.evicted, pageOn] at evicted
      cases evicted
    · exact .inr (locked other otherMem (prefix_of_prefix_length_le above topIn shorter))

theorem DeviceEvicted.chain {before after : Cache β δ η} (evicted : DeviceEvicted before after)
    (ok : Ok before.nodes) {top bottom : List β} {chain : List (Node β δ η)}
    (isChain : Chain before.nodes top chain bottom)
    (locked : ∀ node ∈ before.nodes, node.full <+: top → 0 < node.lockRef) :
    Chain after.nodes top chain bottom := by
  have shielded := isChain.shielded ok locked
  apply isChain.imp
  rintro node mem ⟨same, sameMem, segment, rest⟩
  refine ⟨same, evicted.shielded same sameMem ?_, segment, rest⟩
  have sameFull : same.full = node.full := congrArg Segment.full segment
  rw [sameFull]
  exact shielded node mem

theorem DeviceEvicted.top {before after : Cache β δ η} (evicted : DeviceEvicted before after)
    {top : List β} (locked : ∀ node ∈ before.nodes, node.full <+: top → 0 < node.lockRef)
    (topOn : ∀ node ∈ before.nodes, node.full = top → node.evicted = false) :
    ∀ node ∈ after.nodes, node.full = top → node.evicted = false := by
  intro node mem ends
  obtain ⟨old, oldMem, change⟩ := evicted.nodes node mem
  have oldEnds : old.full = top := by rcases change with rfl | rfl <;> exact ends
  have stays : old ∈ after.nodes := by
    apply evicted.shielded old oldMem
    intro other otherMem above
    exact .inr (locked other otherMem (oldEnds ▸ above))
  rw [evicted.ok.eq_of_full mem stays (ends.trans oldEnds.symm)]
  exact topOn old oldMem oldEnds

theorem Counts.top {change : Node β δ η → Node β δ η} (counts : Counts change)
    {top : List β} (topOn : ∀ node ∈ nodes, node.full = top → node.evicted = false) :
    ∀ node ∈ nodes.map change, node.full = top → node.evicted = false := by
  intro node mem ends
  obtain ⟨old, oldMem, rfl⟩ := mem_map.mp mem
  rw [Node.evicted, counts.value]
  apply topOn old oldMem
  rw [← ends, Node.full, Node.full, counts.segment]

section LoadBack

variable [DecidableEq β]

theorem chain_nodesToLoad (ok : Ok nodes) (fuel : Nat) {path : List β}
    (enough : path.length < fuel) :
    Chain nodes (nodesToLoad nodes fuel path).2 (nodesToLoad nodes fuel path).1 path ∧
      ∀ node ∈ nodes, node.full = (nodesToLoad nodes fuel path).2 → node.evicted = false := by
  induction fuel generalizing path with
  | zero => omega
  | succ fuel ih =>
    rw [nodesToLoad]
    split
    case h_1 missing =>
      exact ⟨rfl, fun node mem ends => (nodeAt_eq_none missing node mem ends).elim⟩
    case h_2 node found =>
      obtain ⟨mem, rfl⟩ := mem_of_nodeAt found
      have keyPos := length_pos_iff.mpr (ok.key_ne_nil mem)
      split
      case isTrue evicted =>
        have shorter : node.start.length < fuel := by
          simp only [Node.full, Segment.full, length_append] at enough
          omega
        obtain ⟨isChain, top⟩ := ih shorter
        exact ⟨isChain.snoc mem evicted, top⟩
      case isFalse onDevice =>
        refine ⟨rfl, fun other otherMem ends => ?_⟩
        rw [ok.eq_of_full otherMem mem ends]
        simpa using onDevice

theorem Ok.assignValues {chain : List (Node β δ η)} (ok : Ok nodes) {slots : List δ}
    {top bottom : List β} (isChain : Chain nodes top chain bottom)
    (lengths : slots.length = (chain.map fun node => (node.hostValue.getD []).length).sum)
    (topOn : ∀ node ∈ nodes, node.full = top → node.evicted = false) :
    Ok (assignValues chain slots nodes) := by
  induction chain generalizing nodes slots top with
  | nil => exact ok
  | cons node chain ih =>
    obtain ⟨holds, evicted, starts, below⟩ := isChain
    have hostLength := ok.length_hostValue holds evicted
    have keyPos := ok.key_pos_of_holds holds
    obtain ⟨same, member, segment, value, hostValue⟩ := holds
    have sameFull : same.full = node.full := congrArg Segment.full segment
    rw [map_cons, sum_cons] at lengths
    rw [HiRadix.assignValues, ← sameFull]
    have given : Ok (modifyAt same.full (fun node => { node with
        value := some (slots.take (node.hostValue.getD []).length) }) nodes) := by
      apply ok.modifyAt_value member
      · rw [hostValue, segment, length_take]
        omega
      · intro parent parentMem ends
        rw [segment, starts] at ends
        exact topOn parent parentMem ends
    refine ih given (?_ : Chain _ node.full chain bottom) ?_ ?_
    · apply below.imp
      rintro other otherMem ⟨old, oldMem, oldSegment, rest⟩
      refine ⟨old, mem_map.mpr ⟨old, oldMem, if_neg ?_⟩, oldSegment, rest⟩
      -- the others are further down
      intro ends
      have oldKey := length_pos_iff.mpr (ok.key_ne_nil oldMem)
      have isPrefix := (below.top_isPrefix other otherMem).length_le
      rw [← sameFull, ← ends, Node.full, Segment.full, oldSegment, length_append] at isPrefix
      rw [oldSegment] at oldKey
      omega
    · rw [length_drop]
      omega
    · intro other otherMem ends
      obtain ⟨old, oldMem, rfl⟩ := mem_map.mp otherMem
      split at ends
      case isTrue there =>
        rw [if_pos there]
        rfl
      case isFalse elsewhere => exact (elsewhere (ends.trans sameFull.symm)).elim

theorem locked_incLockRef (config : Config) (top : List β) (cache : Cache β δ η) :
    ∀ node ∈ (incLockRef config top cache).nodes, node.full <+: top → 0 < node.lockRef := by
  intro node mem above
  obtain ⟨old, _, rfl⟩ := mem_map.mp mem
  split at above
  case isTrue there =>
    rw [if_pos there]
    exact Nat.succ_pos _
  case isFalse elsewhere => exact (elsewhere above).elim

theorem ok_loaded (config : Config) {cache ready : Cache β δ η} (ok : Ok cache.nodes)
    {top bottom : List β} {chain : List (Node β δ η)} (isChain : Chain cache.nodes top chain bottom)
    (topOn : ∀ node ∈ cache.nodes, node.full = top → node.evicted = false)
    (evicted : DeviceEvicted (incLockRef config top cache) ready) {slots : List δ}
    (lengths : slots.length = (chain.map fun node => (node.hostValue.getD []).length).sum) :
    Ok (assignValues chain slots (decLockRef config top ready).nodes) := by
  have inc : Counts fun node : Node β δ η =>
      if node.full <+: top then { node with lockRef := node.lockRef + 1 } else node :=
    (counts_lockRef (· + 1)).ite fun node => node.full <+: top
  have dec : Counts fun node : Node β δ η =>
      if node.full <+: top then { node with lockRef := node.lockRef - 1 } else node :=
    (counts_lockRef (· - 1)).ite fun node => node.full <+: top
  have locked := locked_incLockRef config top cache
  have lockedChain : Chain (incLockRef config top cache).nodes top chain bottom :=
    isChain.imp fun _ _ holds => inc.holds holds
  have readyChain := evicted.chain (ok.incLockRef config top) lockedChain locked
  have readyTop := evicted.top locked (inc.top topOn)
  exact (evicted.ok.decLockRef config top).assignValues
    (readyChain.imp fun _ _ holds => dec.holds holds) lengths (dec.top readyTop)

theorem Ok.loadBack (config : Config) (victims : Victims β δ η) (path : List β)
    (memQuota : Option Int) {cache : Cache β δ η} (ok : Ok cache.nodes) :
    Ok (loadBack config victims path memQuota cache).nodes := by
  obtain ⟨isChain, topOn⟩ := chain_nodesToLoad ok (path.length + 1) (Nat.lt_succ_self _)
  rw [HiRadix.loadBack]
  generalize nodesToLoad cache.nodes (path.length + 1) path = load at *
  have lockedOk := ok.incLockRef config load.2
  dsimp only
  split
  case isTrue => exact ok
  case isFalse =>
    split
    case isTrue => exact lockedOk.decLockRef config load.2
    case isFalse =>
      generalize countEq : (load.1.map fun node => (node.hostValue.getD []).length).sum = n
      have evicted : DeviceEvicted (HiRadix.incLockRef config load.2 cache)
          (if n ≤ (HiRadix.incLockRef config load.2 cache).deviceFree.length then
            HiRadix.incLockRef config load.2 cache
          else evict config victims (config.pageSize * n)
            (HiRadix.incLockRef config load.2 cache)) := by
        split
        · exact .refl lockedOk
        · exact deviceEvicted_evict config victims _ lockedOk
      generalize (if n ≤ (HiRadix.incLockRef config load.2 cache).deviceFree.length
        then HiRadix.incLockRef config load.2 cache
        else evict config victims (config.pageSize * n)
          (HiRadix.incLockRef config load.2 cache)) = ready at evicted ⊢
      split
      case isFalse => exact evicted.ok.decLockRef config load.2
      case isTrue enough =>
        apply Ok.incLockRef config
        apply ok_loaded config ok isChain topOn evicted
        rw [countEq, length_take_of_le enough]

end LoadBack

section Histories

variable [DecidableEq β]

theorem Ok.matchPrefix (config : Config) (key : List β) {cache : Cache β δ η}
    (ok : Ok cache.nodes) : Ok (matchPrefix config key cache).1.nodes := by
  obtain ⟨stop, walked⟩ := ok.matchLoop (key.length + 1) (Nat.zero_le key.length)
    (Nat.lt_succ_self _) (.inl rfl)
  exact walked.ok

theorem Ok.hostInserted {path key : List β} {host : List η} (hashes : List (List β))
    (ok : Ok nodes) (fits : host.length = key.length) (place : IsPlace nodes path) :
    HostInserted nodes (HiRadix.hostInsertLoop (key.length + 1) path key host hashes 0 nodes).1 host
      (HiRadix.hostInsertLoop (key.length + 1) path key host hashes 0 nodes).2 := by
  have takeEq : (path ++ key).take path.length = path := take_left
  have dropEq : (path ++ key).drop path.length = key := drop_left
  have lengths : host.length = (path ++ key).length - path.length := by
    rw [length_append, fits]
    omega
  obtain ⟨matched, counted, inserted⟩ := @Ok.hostInsertLoop _ _ _ _ _ (path ++ key)
    host hashes ok (key.length + 1) path.length 0
    (by rw [length_append]; omega) lengths (by rw [length_append]; omega)
    (takeEq.symm ▸ place)
  rw [takeEq, dropEq] at counted inserted
  rwa [counted, Nat.zero_add]

theorem Ok.apply (config : Config) (victims : Victims β δ η) {cache : Cache β δ η} (op : Op β δ η)
    (ok : Ok cache.nodes) (fits : op.Fits cache) : Ok (op.apply config victims cache).nodes := by
  cases op with
  | insert chunked key v =>
    obtain ⟨_, inserted, _⟩ := ok.insert config victims chunked fits
    exact inserted.ok
  | matchPrefix key => exact ok.matchPrefix config key
  | evict numTokens => exact (deviceEvicted_evict config victims numTokens ok).ok
  | evictHost numTokens => exact (hostEvicted_evictHost config victims numTokens ok).ok
  | loadBack path memQuota => exact ok.loadBack config victims path memQuota
  | ackWrite => exact ok.ackWrite config
  | ackLoad => exact ok.ackLoad config
  | ackBackup => exact ok.ackBackup
  | incLockRef path => exact ok.incLockRef config path
  | decLockRef path => exact ok.decLockRef config path
  | allocHost => exact ok
  | freeHost => exact ok
  | completePrefetch path key host => exact (ok.hostInserted (hashChain path key) fits.1 fits.2).ok

theorem Reachable.ok {config : Config} {cache : Cache β δ η}
    (reachable : Reachable config cache) : Ok cache.nodes := by
  induction reachable with
  | empty => exact ⟨⟨by simp, by simp, by simp⟩, by simp, by simp⟩
  | step victims op _ fits ih => exact ih.apply config victims op fits

end Histories

section Exactness

/-- The number of pages of the longest prefix of which every page is there. -/
def LongestHeld (held : List β → Prop) (pages : List β) (count : Nat) : Prop :=
  IsGreatest {length | length ≤ pages.length ∧
    ∀ index < length, held (pages.take (index + 1))} count

def alignedPages {τ : Type} (pageSize : Nat) (key : List τ) : List (List τ) :=
  (List.range (key.length / pageSize)).map fun index => (key.drop (index * pageSize)).take pageSize

/-- What a match of the key should return, and what it may change. -/
structure ExactMatch [DecidableEq β] (config : Config) (cache : Cache β δ η)
    (pages : List β) (device present : Nat) : Prop where
  longestDevice : LongestHeld (OnDevice cache.nodes) pages device
  longestPresent : LongestHeld (Stored cache.nodes) pages present
  deviceIndices : ∀ index < pages.length, ∀ slots,
    (matchPrefix config pages cache).2.deviceIndices[index]? = some slots ↔
      (pages.take (index + 1), slots) ∈ devicePages cache.nodes
  length : (matchPrefix config pages cache).2.deviceIndices.length = device
  evicted : ∀ index, device ≤ index → index < present → ∃ node ∈ cache.nodes,
    node.evicted = true ∧ node.toSegment.Covers (pages.take (index + 1))
  hostHitLength : (matchPrefix config pages cache).2.hostHitLength =
    config.pageSize * (present - device)
  sum : config.pageSize * (matchPrefix config pages cache).2.deviceIndices.length +
    (matchPrefix config pages cache).2.hostHitLength = config.pageSize * present
  view : SameView cache.nodes (matchPrefix config pages cache).1.nodes
  frame : (matchPrefix config pages cache).1 =
    { cache with nodes := (matchPrefix config pages cache).1.nodes }

theorem Ok.devicePages_unique (ok : Ok nodes) {path : List β} {first second : δ}
    (firstMem : (path, first) ∈ devicePages nodes)
    (secondMem : (path, second) ∈ devicePages nodes) : first = second := by
  obtain ⟨node, mem, inNode⟩ := mem_flatMap.mp firstMem
  obtain ⟨other, otherMem, inOther⟩ := mem_flatMap.mp secondMem
  obtain ⟨i, lt, pathEq, found⟩ := mem_pagesFrom_iff.mp inNode
  obtain ⟨place, placeLt, placeEq, placeFound⟩ := mem_pagesFrom_iff.mp inOther
  have segment := ok.forest.unique_cover (mem_map_of_mem mem)
    (mem_map_of_mem otherMem) (covers_iff.mpr ⟨i, lt, pathEq⟩)
    (covers_iff.mpr ⟨place, placeLt, placeEq⟩)
  obtain rfl := ok.eq_of_full mem otherMem (congrArg Segment.full segment)
  have samePlace : i = place := by
    have lengths := congrArg List.length (pathEq.symm.trans placeEq)
    simp only [length_append, length_take] at lengths
    omega
  rw [samePlace, placeFound] at found
  exact (Option.some.inj found).symm

theorem Walked.longestHeld (ok : Ok nodes) {key : List β} {stop : Nat}
    {walk : Walk β δ η} (walked : Walked nodes key 0 stop walk) :
    LongestHeld (OnDevice nodes) key walk.value.length ∧ LongestHeld (Stored nodes) key stop := by
  have stopLe := walked.le
  have valueLe := walked.valueLe
  have behind : ∀ later, stop < later → later ≤ key.length →
      ¬ Stored nodes (key.take later) := walked.ended
  refine ⟨⟨⟨by omega, ?_⟩, ?_⟩, ⟨⟨stopLe, ?_⟩, ?_⟩⟩
  · intro i lt
    have onDevice := walked.value i lt
    rw [Nat.zero_add] at onDevice
    exact ⟨_, onDevice⟩
  · rintro length ⟨le, onDevice⟩
    by_contra longer
    have next := onDevice walk.value.length (by omega)
    rcases Nat.lt_or_ge walk.value.length stop with lt | ge
    · exact walked.evicted walk.value.length (by omega) lt next
    · exact behind _ (by omega) (by omega) (next.stored ok)
  · exact fun i lt => walked.stored i (Nat.zero_le _) lt
  · rintro length ⟨le, stored⟩
    by_contra longer
    exact behind (stop + 1) (by omega) (by omega) (stored stop (by omega))

variable [DecidableEq β]

theorem Ok.exactMatch (config : Config) {cache : Cache β δ η} (ok : Ok cache.nodes)
    (pages : List β) : ∃ device present, ExactMatch config cache pages device present := by
  obtain ⟨stop, walked⟩ := ok.matchLoop (pages.length + 1) (Nat.zero_le pages.length)
    (Nat.lt_succ_self _) (.inl rfl)
  rw [take_zero, drop_zero] at walked
  obtain ⟨device, present⟩ := walked.longestHeld ok
  have stopLe := walked.le
  have valueLe := walked.valueLe
  rw [Nat.zero_add] at valueLe
  have pathLength : (HiRadix.matchLoop (pages.length + 1) [] pages
      cache.nodes).path.length = stop := by
    rw [walked.path, length_take]
    omega
  have hostHit : (HiRadix.matchPrefix config pages cache).2.hostHitLength =
      config.pageSize * (stop - (HiRadix.matchLoop (pages.length + 1) [] pages
        cache.nodes).value.length) := by
    have climbed := walked.ok.climbEvicted (stop + 1) stopLe (Nat.lt_succ_self _)
      (walked.path ▸ walked.place) valueLe
      (fun pos => walked.view.onDevice_iff.mpr (by
        have last := device.1.2 _ (Nat.sub_one_lt_of_lt pos)
        rwa [Nat.sub_one_add_one pos.ne'] at last))
      (fun i ge lt onDevice => walked.evicted i (by omega) lt
        (walked.view.onDevice_iff.mp onDevice))
    rw [HiRadix.matchPrefix]
    dsimp only
    rw [pathLength, walked.path, climbed]
  refine ⟨_, stop, {
    longestDevice := device
    longestPresent := present
    deviceIndices := ?_
    length := rfl
    evicted := ?_
    hostHitLength := hostHit
    sum := ?_
    view := walked.view
    frame := rfl }⟩
  · intro i lt slots
    constructor
    · intro found
      obtain ⟨inValue, rfl⟩ := List.getElem?_eq_some_iff.mp found
      have inTree := walked.value i inValue
      rwa [Nat.zero_add] at inTree
    · intro inTree
      rcases Nat.lt_or_ge i (HiRadix.matchLoop (pages.length + 1) [] pages
        cache.nodes).value.length with inValue | behind
      · have atIndex := walked.value i inValue
        rw [Nat.zero_add] at atIndex
        rw [ok.devicePages_unique inTree atIndex]
        exact getElem?_eq_getElem inValue
      · rcases Nat.lt_or_ge i stop with before | after
        · exact (walked.evicted i (by omega) before ⟨slots, inTree⟩).elim
        · exact (walked.ended (i + 1) (by omega) (by omega)
            (OnDevice.stored ok ⟨slots, inTree⟩)).elim
  · intro i ge lt
    obtain ⟨node, mem, covers⟩ := stored_iff.mp (walked.stored i (by omega) lt)
    refine ⟨node, mem, ?_, covers⟩
    by_contra onDevice
    exact walked.evicted i (by omega) lt
      ((ok.onDevice_iff_of_covers mem covers).mpr (by simpa using onDevice))
  · rw [hostHit, ← Nat.mul_add]
    congr 1
    have : (HiRadix.matchPrefix config pages cache).2.deviceIndices =
      (HiRadix.matchLoop (pages.length + 1) [] pages cache.nodes).value := rfl
    rw [this]
    omega

/-- In every history a match of a key returns the slots of the longest page-aligned
prefix on the device and the length of the evicted part behind it. -/
theorem matchPrefix_exact {τ : Type} [DecidableEq τ] {config : Config}
    {cache : Cache (List τ) δ η} (reachable : Reachable config cache) (key : List τ) :
    ∃ device present, ExactMatch config cache (alignedPages config.pageSize key) device present :=
  reachable.ok.exactMatch config _

def twoPages (config : Config) : Cache (List Nat) Nat Nat :=
  Op.apply config (fun _ => []) { deviceFree := [8], hostFree := [9] }
    (.insert false [[1, 2], [3, 4]] [6, 7])

theorem reachable_twoPages (config : Config) : Reachable config (twoPages config) :=
  .step (fun _ => []) (.insert false [[1, 2], [3, 4]] [6, 7]) (.empty [8] [9]) rfl

theorem matchPrefix_exact_twoPages :
    ∃ device present, ExactMatch ⟨2, 1, false, 10⟩ (twoPages ⟨2, 1, false, 10⟩)
      (alignedPages 2 [1, 2, 3, 4, 5]) device present :=
  matchPrefix_exact (reachable_twoPages ⟨2, 1, false, 10⟩) [1, 2, 3, 4, 5]

structure ExactInsert (config : Config) (before : Cache β δ η) (key : List β)
    (value : List δ) (after : Cache β δ η × Nat) (device : Nat) : Prop where
  longestDevice : LongestHeld (OnDevice before.nodes) key device
  prefixLen : after.2 = config.pageSize * device
  pages : (devicePages after.1.nodes).Perm (devicePages before.nodes ++
    pagesFrom (key.take device) (key.drop device) (value.drop device))
  slots : (deviceSlots after.1.nodes).Perm (deviceSlots before.nodes ++
    value.drop device)
  sizes : after.1.evictableSize + after.1.protectedSize =
    before.evictableSize + before.protectedSize +
      ((config.pageSize * key.length - after.2 : Nat) : Int)

theorem Ok.exactInsert (config : Config) (victims : Victims β δ η) (chunked : Bool)
    {cache : Cache β δ η} (ok : Ok cache.nodes) {key : List β} {v : List δ}
    (fits : v.length = key.length) :
    ∃ device, ExactInsert config cache key v
      (HiRadix.insert config victims chunked key v cache) device := by
  obtain ⟨device, inserted, counted⟩ := ok.insert config victims chunked fits
  have le := inserted.le
  refine ⟨device, {
    longestDevice := ⟨⟨le, fun i lt => inserted.onDevice i (Nat.zero_le _) lt⟩, ?_⟩
    prefixLen := counted
    pages := inserted.pages
    slots := ?_
    sizes := ?_ }⟩
  · rintro length ⟨within, onDevice⟩
    by_contra longer
    exact inserted.missing device (le_refl _) (by omega) (onDevice device (by omega))
  · have slots := inserted.pages.map Prod.snd
    rwa [inserted.ok.map_snd_devicePages, map_append, ok.map_snd_devicePages,
      map_snd_pagesFrom (by rw [length_drop, length_drop, fits])] at slots
  · rw [inserted.sizes, counted, Nat.mul_sub]

/-- In every history an insert adopts exactly the pages behind the longest prefix
that was on the device. -/
theorem insert_adopts_rest {config : Config} {cache : Cache β δ η}
    (reachable : Reachable config cache) (victims : Victims β δ η) (chunked : Bool)
    {key : List β} {value : List δ} (fits : value.length = key.length) :
    ∃ device, ExactInsert config cache key value
      (HiRadix.insert config victims chunked key value cache) device :=
  reachable.ok.exactInsert config victims chunked fits

theorem insert_adopts_rest_twoPages :
    ∃ device, ExactInsert ⟨2, 1, false, 10⟩ (twoPages ⟨2, 1, false, 10⟩) [[1, 2], [5, 6]] [6, 5]
      (HiRadix.insert ⟨2, 1, false, 10⟩ (fun _ => []) false [[1, 2], [5, 6]] [6, 5]
        (twoPages ⟨2, 1, false, 10⟩)) device :=
  insert_adopts_rest (reachable_twoPages ⟨2, 1, false, 10⟩) _ _ rfl

/-- The evicted nodes are the lower parts of the tree and have all their pages on the host. -/
def Tiered (nodes : List (Node β δ η)) : Prop :=
  ∀ node ∈ nodes,
    (node.evicted = true → ∃ pages, node.hostValue = some pages ∧
      pages.length = node.key.length) ∧
    (node.evicted = false → ∀ above ∈ nodes, above.full <+: node.full → above.evicted = false)

theorem reachable_tiered {config : Config} {cache : Cache β δ η}
    (reachable : Reachable config cache) : Tiered cache.nodes := by
  have ok := reachable.ok
  refine fun node mem => ⟨fun evicted => ?_, fun onDevice above aboveMem isAbove => ?_⟩
  · obtain ⟨pages, found⟩ := Option.isSome_iff_exists.mp ((ok.fits node mem).backed evicted)
    exact ⟨pages, found, (ok.fits node mem).hostValue pages found⟩
  · -- the last page of the node is on the device, and so are all pages on the way to it
    have covers := Segment.covers_full (ok.key_ne_nil aboveMem)
    have nonempty : 0 < above.full.length := Nat.zero_lt_of_lt covers.1
    have atEnd : OnDevice cache.nodes (node.full.take node.full.length) := by
      rw [take_length]
      exact (ok.onDevice_iff_of_covers mem (Segment.covers_full (ok.key_ne_nil mem))).mpr onDevice
    have atAbove := ok.onDevice_take atEnd nonempty isAbove.length_le le_rfl
    rw [← prefix_iff_eq_take.mp isAbove] at atAbove
    exact (ok.onDevice_iff_of_covers aboveMem covers).mp atAbove

theorem reachable_tiered_twoPages : Tiered (twoPages ⟨2, 1, false, 10⟩).nodes :=
  reachable_tiered (reachable_twoPages ⟨2, 1, false, 10⟩)

end Exactness

end HiRadix

end LnaLang
