import LnaLang.HiRadixTree

/-!
# The operations of the hierarchical cache

`insert`, `match_prefix`, `evict`, `evict_host`, `load_back`, the backups to the
host with their acknowledgements, and the insert of a completed prefetch, as the
patched `HiRadixCache` does them under the `write_through` policies.

The heaps of the two evictions hand out nodes in an order that depends on access
times and priorities.  Here that order is a parameter: `victims` says, for the nodes
at the time of the call, in which order the heap hands them out.  Sizes are counted
in tokens, values and free lists in pages.  A hash is represented by the chain of
pages it is computed from.
-/

namespace LnaLang.HiRadix

open PrefixForest

variable {β δ η : Type} [DecidableEq β]

/-- The settings that the operations read; the threshold is 1 for `write_through`
and 2 for `write_through_selective`. -/
structure Config where
  pageSize : Nat
  writeThroughThreshold : Nat
  enableStorage : Bool
  loadBackThreshold : Nat := 10
  deriving Repr

/-- The arguments of a `write_storage` call. -/
structure StorageWrite (β η : Type) where
  hostValue : List η
  key : List β
  hashValue : List (List β)
  deriving DecidableEq, Repr

/-- The cache: its tree, its counters, the free pages of the two pools, and the
nodes with something under way, named by their paths.  The acknowledgements of
writes come in the order of the writes. -/
structure Cache (β δ η : Type) where
  nodes : List (Node β δ η) := []
  evictableSize : Int := 0
  protectedSize : Int := 0
  deviceFree : List δ
  hostFree : List η
  ongoingWriteThrough : List (List β) := []
  ongoingLoadBack : List (List β) := []
  ongoingBackup : List (List β) := []
  storageWrites : List (StorageWrite β η) := []
  deriving DecidableEq, Repr

/-- The order in which a heap hands out the nodes of a tree. -/
abbrev Victims (β δ η : Type) := List (Node β δ η) → List (List β)

def nodeAt (nodes : List (Node β δ η)) (path : List β) : Option (Node β δ η) :=
  nodes.find? fun node => node.full = path

/-- `node.children[child_key]`, where the child key is the first page. -/
def childOf (nodes : List (Node β δ η)) (path : List β) (page : β) : Option (Node β δ η) :=
  nodes.find? fun node => node.start = path ∧ node.key.head? = some page

def modifyAt (path : List β) (change : Node β δ η → Node β δ η)
    (nodes : List (Node β δ η)) : List (Node β δ η) :=
  nodes.map fun node => if node.full = path then change node else node

/-- `_split_node`. -/
def splitNode (path : List β) (length : Nat) (nodes : List (Node β δ η)) : List (Node β δ η) :=
  nodes.flatMap fun node =>
    if node.full = path then [node.upper length, node.lower length] else [node]

/-- `key_match_fn`, in pages. -/
def keyMatch : List β → List β → Nat
  | first :: rest, second :: others =>
    if first = second then keyMatch rest others + 1 else 0
  | _, _ => 0

def hasChild (nodes : List (Node β δ η)) (path : List β) : Bool :=
  nodes.any fun node => node.start = path

def childrenEvicted (nodes : List (Node β δ η)) (path : List β) : Bool :=
  nodes.all fun node => node.start ≠ path || node.evicted

def hashChain (last : List β) : List β → List (List β)
  | [] => []
  | page :: key => (last ++ [page]) :: hashChain (last ++ [page]) key

/-- `compute_node_hash_values`: the chain goes on from the last hash of the parent. -/
def computeHashValues (nodes : List (Node β δ η)) (path key : List β) : List (List β) :=
  hashChain (((nodeAt nodes path).bind fun node => node.hashValue.getLast?).getD []) key

section Locks

variable (config : Config)

def tokensOnPath (path : List β) (lockRef : Nat) (nodes : List (Node β δ η)) : Int :=
  ((nodes.filter fun node => node.full <+: path ∧ node.lockRef = lockRef).map
    fun node => ((config.pageSize * node.key.length : Nat) : Int)).sum

/-- `inc_lock_ref`: the node and all nodes above it. -/
def incLockRef (path : List β) (cache : Cache β δ η) : Cache β δ η :=
  { cache with
    nodes := cache.nodes.map fun node =>
      if node.full <+: path then { node with lockRef := node.lockRef + 1 } else node
    evictableSize := cache.evictableSize - tokensOnPath config path 0 cache.nodes
    protectedSize := cache.protectedSize + tokensOnPath config path 0 cache.nodes }

/-- `dec_lock_ref`. -/
def decLockRef (path : List β) (cache : Cache β δ η) : Cache β δ η :=
  { cache with
    nodes := cache.nodes.map fun node =>
      if node.full <+: path then { node with lockRef := node.lockRef - 1 } else node
    evictableSize := cache.evictableSize + tokensOnPath config path 1 cache.nodes
    protectedSize := cache.protectedSize - tokensOnPath config path 1 cache.nodes }

end Locks

section HostEviction

variable (config : Config)

/-- The parent goes onto the heap of `evict_host` when it has lost its last child. -/
def pushHostParent (nodes : List (Node β δ η)) (path : List β)
    (heap : List (List β)) : List (List β) :=
  if !hasChild nodes path && (nodeAt nodes path).any Node.evicted then path :: heap
  else heap

/-- The leaf `x` of the loop of `evict_host` is removed. -/
def removeHost (node : Node β δ η) (cache : Cache β δ η) : Cache β δ η :=
  { cache with
    nodes := cache.nodes.filter fun other => other.full ≠ node.full
    hostFree := cache.hostFree ++ node.hostValue.getD [] }

/-- The loop of `evict_host`, along the order of the heap. -/
def evictHostLoop (numTokens : Nat) : List (List β) → List (List β) → Nat →
    Cache β δ η → Cache β δ η
  | [], _, _, cache => cache
  | path :: order, heap, numEvicted, cache =>
    if numEvicted < numTokens ∧ path ∈ heap then
      match nodeAt cache.nodes path with
      | none => evictHostLoop numTokens order (heap.erase path) numEvicted cache
      | some node =>
        if node.evicted && node.hostRefCounter == 0 then
          let removed := removeHost node cache
          evictHostLoop numTokens order (pushHostParent removed.nodes node.start (heap.erase path))
            (numEvicted + config.pageSize * (node.hostValue.getD []).length)
            removed
        else evictHostLoop numTokens order (heap.erase path) numEvicted cache
    else cache

/-- `evict_host`. -/
def evictHost (victims : Victims β δ η) (numTokens : Nat) (cache : Cache β δ η) : Cache β δ η :=
  let leaves := cache.nodes.filter fun node => !hasChild cache.nodes node.full
  evictHostLoop config numTokens (victims cache.nodes) (leaves.map Node.full) 0 cache

end HostEviction

section Eviction

variable (config : Config)

/-- `_evict_backuped`. -/
def evictBackuped (node : Node β δ η) (cache : Cache β δ η) : Cache β δ η :=
  { cache with
    nodes := modifyAt node.full (fun node => { node with value := none }) cache.nodes
    deviceFree := cache.deviceFree ++ node.value.getD []
    evictableSize := cache.evictableSize -
      ((config.pageSize * (node.value.getD []).length : Nat) : Int) }

/-- `_evict_regular`: the node leaves the tree, and with it what hangs below it. -/
def evictRegular (node : Node β δ η) (cache : Cache β δ η) : Cache β δ η :=
  { cache with
    nodes := cache.nodes.filter fun other => ¬ node.full <+: other.full
    deviceFree := cache.deviceFree ++ node.value.getD []
    evictableSize := cache.evictableSize -
      ((config.pageSize * node.key.length : Nat) : Int) }

def evictNode (node : Node β δ η) (cache : Cache β δ η) : Cache β δ η :=
  if node.backuped then evictBackuped config node cache
  else evictRegular config node cache

/-- The loop of `evict`, along the order of the heap. -/
def evictLoop (numTokens : Nat) : List (List β) → List (List β) → Nat → Cache β δ η → Cache β δ η
  | [], _, _, cache => cache
  | path :: order, heap, numEvicted, cache =>
    if numEvicted < numTokens ∧ path ∈ heap then
      match nodeAt cache.nodes path with
      | none => evictLoop numTokens order (heap.erase path) numEvicted cache
      | some node =>
        if node.lockRef > 0 then
          evictLoop numTokens order (heap.erase path) numEvicted cache
        else
          let after := evictNode config node cache
          evictLoop numTokens order (if childrenEvicted after.nodes node.start then
              node.start :: heap.erase path else heap.erase path)
            (numEvicted + config.pageSize * (node.value.getD []).length) after
    else cache

/-- `evict`, from the leaves of `_collect_leaves_device`. -/
def evict (victims : Victims β δ η) (numTokens : Nat) (cache : Cache β δ η) : Cache β δ η :=
  let leaves := cache.nodes.filter fun node =>
    !node.evicted && childrenEvicted cache.nodes node.full
  evictLoop config numTokens (victims cache.nodes) (leaves.map Node.full) 0 cache

end Eviction

section Backups

variable (config : Config) (victims : Victims β δ η)

/-- Host pages are taken for a node, and its write is under way. -/
def reserveHost (path : List β) (count : Nat) (cache : Cache β δ η) : Cache β δ η :=
  { cache with
    nodes := modifyAt path
      (fun node => { node with hostValue := some (cache.hostFree.take count) })
      cache.nodes
    hostFree := cache.hostFree.drop count
    ongoingWriteThrough := cache.ongoingWriteThrough ++ [path] }

/-- The successful end of `write_backup`. -/
def startWrite (path : List β) (count : Nat) (cache : Cache β δ η) : Cache β δ η :=
  incLockRef config path (reserveHost path count cache)

/-- `write_backup`: a second try follows when the pool had too few pages. -/
def writeBackup (path : List β) (cache : Cache β δ η) : Cache β δ η :=
  match nodeAt cache.nodes path with
  | none => cache
  | some node =>
    let count := (node.value.getD []).length
    if count ≤ cache.hostFree.length then startWrite config path count cache
    else
      let after := evictHost config victims (config.pageSize * count) cache
      if count ≤ after.hostFree.length then startWrite config path count after
      else after

def countHit (path : List β) (cache : Cache β δ η) : Cache β δ η :=
  { cache with
    nodes := modifyAt path
      (fun node => { node with hitCount := node.hitCount + 1 }) cache.nodes }

/-- `_inc_hit_count`. -/
def incHitCount (chunked : Bool) (path : List β) (cache : Cache β δ η) : Cache β δ η :=
  if chunked then cache
  else
    let counted := countHit path cache
    match nodeAt counted.nodes path with
    | none => counted
    | some node =>
      if !node.backuped && config.writeThroughThreshold ≤ node.hitCount then
        writeBackup config victims path counted
      else counted

/-- `write_backup_storage`. -/
def writeBackupStorage (path : List β) (cache : Cache β δ η) : Cache β δ η :=
  match nodeAt cache.nodes path with
  | none => cache
  | some node =>
    { cache with
      nodes := modifyAt path
        (fun node => { node with hostRefCounter := node.hostRefCounter + 1 })
        cache.nodes
      ongoingBackup := cache.ongoingBackup ++ [path]
      storageWrites := cache.storageWrites ++
        [⟨node.hostValue.getD [], node.key, node.hashValue⟩] }

/-- One acknowledgement in `writing_check`. -/
def ackWrite (cache : Cache β δ η) : Cache β δ η :=
  match cache.ongoingWriteThrough with
  | [] => cache
  | path :: rest =>
    let acked := decLockRef config path { cache with ongoingWriteThrough := rest }
    if config.enableStorage then writeBackupStorage path acked else acked

/-- One acknowledgement in `loading_check`. -/
def ackLoad (cache : Cache β δ η) : Cache β δ η :=
  match cache.ongoingLoadBack with
  | [] => cache
  | path :: rest => decLockRef config path { cache with ongoingLoadBack := rest }

/-- One backup acknowledgement in `drain_storage_control_queues`. -/
def ackBackup (cache : Cache β δ η) : Cache β δ η :=
  match cache.ongoingBackup with
  | [] => cache
  | path :: rest =>
    { cache with
      nodes := modifyAt path
        (fun node => { node with hostRefCounter := node.hostRefCounter - 1 })
        cache.nodes
      ongoingBackup := rest }

end Backups

section Insert

variable (config : Config) (victims : Victims β δ η) (chunked : Bool)

/-- Where the matched part of a child ends, after a split if the match is partial. -/
def matchChild (child : Node β δ η) (length : Nat) (nodes : List (Node β δ η)) :
    List (Node β δ η) :=
  if length < child.key.length then splitNode child.full length nodes else nodes

/-- An evicted node takes over the slots of the inserted value. -/
def adopt (path : List β) (slots : List δ) (cache : Cache β δ η) : Cache β δ η :=
  { cache with
    nodes := modifyAt path (fun node => { node with value := some slots }) cache.nodes
    evictableSize := cache.evictableSize +
      ((config.pageSize * slots.length : Nat) : Int) }

def addNode (path key : List β) (value : List δ) (cache : Cache β δ η) : Cache β δ η :=
  { cache with
    nodes := {
      start := path
      key := key
      value := some value
      hostValue := none
      hashValue := if config.enableStorage then
        computeHashValues cache.nodes path key else [] } :: cache.nodes
    evictableSize := cache.evictableSize +
      ((config.pageSize * value.length : Nat) : Int) }

/-- The loop of `insert` and the new node behind it; also counts the matched pages
that were on the device. -/
def insertLoop : Nat → List β → List β → List δ → Nat → Cache β δ η → Cache β δ η × Nat
  | 0, _, _, _, total, cache => (cache, total)
  | _, _, [], _, total, cache => (cache, total)
  | fuel + 1, path, page :: key, value, total, cache =>
    match childOf cache.nodes path page with
    | none =>
      (incHitCount config victims chunked (path ++ page :: key)
        (addNode config path (page :: key) value cache), total)
    | some child =>
      let length := keyMatch child.key (page :: key)
      let matched := { cache with
        nodes := matchChild child length cache.nodes }
      let next := child.start ++ child.key.take length
      if child.evicted then
        insertLoop fuel next ((page :: key).drop length) (value.drop length) total
          (adopt config next (value.take length) matched)
      else
        insertLoop fuel next ((page :: key).drop length) (value.drop length)
          (total + length) (incHitCount config victims chunked next matched)

/-- `insert`: the cache, and `prefix_len` in tokens. -/
def insert (key : List β) (value : List δ) (cache : Cache β δ η) : Cache β δ η × Nat :=
  let inserted := insertLoop config victims chunked (key.length + 1) [] key value 0 cache
  (inserted.1, config.pageSize * inserted.2)

end Insert

/-- What `_match_prefix_helper` returns, with the tree it leaves. -/
structure Walk (β δ η : Type) where
  nodes : List (Node β δ η)
  value : List δ
  path : List β

/-- `_match_prefix_helper`. -/
def matchLoop : Nat → List β → List β → List (Node β δ η) → Walk β δ η
  | 0, path, _, nodes => ⟨nodes, [], path⟩
  | _, path, [], nodes => ⟨nodes, [], path⟩
  | fuel + 1, path, page :: key, nodes =>
    match childOf nodes path page with
    | none => ⟨nodes, [], path⟩
    | some child =>
      let length := keyMatch child.key (page :: key)
      let slots := (child.value.getD []).take length
      if length < child.key.length then
        ⟨splitNode child.full length nodes, slots, child.start ++ child.key.take length⟩
      else
        let rest := matchLoop fuel child.full ((page :: key).drop length) nodes
        { rest with value := slots ++ rest.value }

/-- From a node up to the first one on the device: the host pages passed, and where
it ends. -/
def climbEvicted (nodes : List (Node β δ η)) : Nat → List β → Nat × List β
  | 0, path => (0, path)
  | fuel + 1, path =>
    match nodeAt nodes path with
    | none => (0, path)
    | some node =>
      if node.evicted then
        ((climbEvicted nodes fuel node.start).1 + (node.hostValue.getD []).length,
          (climbEvicted nodes fuel node.start).2)
      else (0, path)

/-- From a node up to the first one on the host; the root counts as backed up. -/
def climbBackuped (nodes : List (Node β δ η)) : Nat → List β → List β
  | 0, path => path
  | fuel + 1, path =>
    match nodeAt nodes path with
    | none => path
    | some node =>
      if node.backuped then path else climbBackuped nodes fuel node.start

/-- `MatchResult`. -/
structure MatchResult (β δ : Type) where
  deviceIndices : List δ
  lastDeviceNode : List β
  lastHostNode : List β
  hostHitLength : Nat
  deriving DecidableEq, Repr

/-- `match_prefix` on the pages of the aligned key. -/
def matchPrefix (config : Config) (key : List β) (cache : Cache β δ η) :
    Cache β δ η × MatchResult β δ :=
  let walk := matchLoop (key.length + 1) [] key cache.nodes
  let climbed := climbEvicted walk.nodes (walk.path.length + 1) walk.path
  ({ cache with nodes := walk.nodes },
    { deviceIndices := walk.value
      lastDeviceNode := climbed.2
      lastHostNode := climbBackuped walk.nodes (walk.path.length + 1) walk.path
      hostHitLength := config.pageSize * climbed.1 })

/-- `_insert_helper_host`: the tree, and the matched pages. -/
def hostInsertLoop : Nat → List β → List β → List η → List (List β) → Nat →
    List (Node β δ η) → List (Node β δ η) × Nat
  | 0, _, _, _, _, matched, nodes => (nodes, matched)
  | _, _, [], _, _, matched, nodes => (nodes, matched)
  | fuel + 1, path, page :: key, host, hashes, matched, nodes =>
    match childOf nodes path page with
    | none =>
      ({ start := path
         key := page :: key
         value := none
         hostValue := some host
         hashValue := hashes } :: nodes, matched)
    | some child =>
      let length := keyMatch child.key (page :: key)
      hostInsertLoop fuel (child.start ++ child.key.take length)
        ((page :: key).drop length) (host.drop length) (hashes.drop length)
        (matched + length) (matchChild child length nodes)

/-- The end of `check_prefetch_progress`: the fetched pages are inserted below the
node at a path, and the pages that were there already are freed. -/
def completePrefetch (path key : List β) (host : List η) (hashes : List (List β))
    (cache : Cache β δ η) : Cache β δ η :=
  let inserted := hostInsertLoop (key.length + 1) path key host hashes 0 cache.nodes
  { cache with
    nodes := inserted.1
    hostFree := cache.hostFree ++ host.take inserted.2 }

section LoadBack

variable (config : Config) (victims : Victims β δ η)

/-- The evicted nodes up from a path, uppermost first, and the node above them. -/
def nodesToLoad (nodes : List (Node β δ η)) : Nat → List β → List (Node β δ η) × List β
  | 0, path => ([], path)
  | fuel + 1, path =>
    match nodeAt nodes path with
    | none => ([], path)
    | some node =>
      if node.evicted then
        ((nodesToLoad nodes fuel node.start).1 ++ [node], (nodesToLoad nodes fuel node.start).2)
      else ([], path)

/-- The loaded pages are given to the nodes. -/
def assignValues : List (Node β δ η) → List δ → List (Node β δ η) → List (Node β δ η)
  | [], _, nodes => nodes
  | node :: others, slots, nodes =>
    assignValues others (slots.drop (node.hostValue.getD []).length)
      (modifyAt node.full (fun node => { node with
        value := some (slots.take (node.hostValue.getD []).length) }) nodes)

/-- `load_back`. -/
def loadBack (path : List β) (memQuota : Option Int) (cache : Cache β δ η) : Cache β δ η :=
  let load := nodesToLoad cache.nodes (path.length + 1) path
  let count := (load.1.map fun node => (node.hostValue.getD []).length).sum
  let locked := incLockRef config load.2 cache
  let delta := locked.evictableSize - cache.evictableSize
  let tokens : Nat := config.pageSize * count
  if load.1.isEmpty then cache
  else if tokens < config.loadBackThreshold ∨
      memQuota.any (fun quota => (tokens : Int) > quota + delta) then
    decLockRef config load.2 locked
  else
    let ready :=
      if count ≤ locked.deviceFree.length then locked
      else evict config victims tokens locked
    let unlocked := decLockRef config load.2 ready
    if count ≤ ready.deviceFree.length then
      incLockRef config path
        { unlocked with
          nodes := assignValues load.1 (ready.deviceFree.take count) unlocked.nodes
          deviceFree := ready.deviceFree.drop count
          evictableSize := unlocked.evictableSize + (tokens : Int)
          ongoingLoadBack := unlocked.ongoingLoadBack ++ [path] }
    else unlocked

end LoadBack

/-- The operations of a history.  A prefetch takes its host pages out of the pool
first, and brings along those it has fetched when it is completed; the rest is put
back. -/
inductive Op (β δ η : Type) where
  | insert (chunked : Bool) (key : List β) (value : List δ)
  | matchPrefix (key : List β)
  | evict (numTokens : Nat)
  | evictHost (numTokens : Nat)
  | loadBack (path : List β) (memQuota : Option Int)
  | ackWrite
  | ackLoad
  | ackBackup
  | incLockRef (path : List β)
  | decLockRef (path : List β)
  | allocHost (count : Nat)
  | freeHost (pages : List η)
  | completePrefetch (path key : List β) (host : List η)

/-- The arguments fit: a value for each page of the key, and a prefetch ends below a
node of the tree.  (Below a node that has left the tree it changes no other.) -/
def Op.Fits : Op β δ η → Cache β δ η → Prop
  | .insert _ key value, _ => value.length = key.length
  | .completePrefetch path key host, cache =>
    host.length = key.length ∧ Boundary (cache.nodes.map Node.toSegment) path
  | _, _ => True

/-- One operation. -/
def Op.apply (config : Config) (victims : Victims β δ η) (cache : Cache β δ η) :
    Op β δ η → Cache β δ η
  | .insert chunked key value => (HiRadix.insert config victims chunked key value cache).1
  | .matchPrefix key => (HiRadix.matchPrefix config key cache).1
  | .evict numTokens => HiRadix.evict config victims numTokens cache
  | .evictHost numTokens => HiRadix.evictHost config victims numTokens cache
  | .loadBack path memQuota => HiRadix.loadBack config victims path memQuota cache
  | .ackWrite => HiRadix.ackWrite config cache
  | .ackLoad => HiRadix.ackLoad config cache
  | .ackBackup => HiRadix.ackBackup cache
  | .incLockRef path => HiRadix.incLockRef config path cache
  | .decLockRef path => HiRadix.decLockRef config path cache
  | .allocHost count => { cache with hostFree := cache.hostFree.drop count }
  | .freeHost pages => { cache with hostFree := cache.hostFree ++ pages }
  | .completePrefetch path key host =>
    HiRadix.completePrefetch path key host (hashChain path key) cache

/-- The states of histories from an empty tree; the heaps may use another order at
each operation. -/
inductive Reachable (config : Config) : Cache β δ η → Prop where
  | empty (deviceFree : List δ) (hostFree : List η) :
      Reachable config { deviceFree, hostFree }
  | step {cache : Cache β δ η} (victims : Victims β δ η) (op : Op β δ η) :
      Reachable config cache → op.Fits cache →
        Reachable config (op.apply config victims cache)

end LnaLang.HiRadix
