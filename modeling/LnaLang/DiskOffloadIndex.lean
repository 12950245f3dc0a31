import LnaLang.OrderedDict

/-!
# Pages on disk

`DiskOffloadBackend` keeps pages as files of a directory together with an index of
their sizes and last accesses, which is saved to `index.json`.  Before a page is
added, the least recently used pages are removed until the rest and the new page
fit into the budget.  Pages of a host pool are written under the keys of a transfer and
read back into host pages, by the backend and by the cache controller.

After every operation the index lists the page files with their sizes and the sum of these,
and the saved index says the same to a backend that is opened on the directory.
-/

namespace LnaLang.DiskOffload

/-- What the index records about a page. -/
structure Entry where
  size : Nat
  lastAccess : Nat
  deriving DecidableEq, Repr

structure Backend where
  maxDiskBytes : Int
  index : OrderedDict String Entry
  totalBytes : Int
  dirty : Bool

/-- The directory: the page files by key, and what `index.json` holds. -/
structure Disk (ρ : Type*) where
  pages : OrderedDict String ρ
  indexFile : Option (OrderedDict String Entry × Int)

/-- What happens to a key: a successful `set` of a page, or its removal. -/
inductive Event (ρ : Type*) where
  | set (key : String) (value : ρ)
  | evicted (key : String)

/-- A backend and its directory, how often the clock has been read, and what has
happened so far, the latest first. -/
structure Store (ρ : Type*) extends Backend, Disk ρ where
  tick : Nat
  history : List (Event ρ)

/-- What the backend gets from outside: the sizes of the files that `torch.save`
writes, and the readings of `time.time()`. -/
structure Env (ρ : Type*) where
  fileSize : ρ → Nat
  clock : Nat → Nat

variable {ρ : Type*}

/-- `__init__` and `_load_index` on a directory. -/
def openBackend (maxDiskBytes : Int) (disk : Disk ρ) : Backend :=
  match disk.indexFile with
  | none => ⟨maxDiskBytes, OrderedDict.empty, 0, false⟩
  | some (index, totalBytes) => ⟨maxDiskBytes, index, totalBytes, false⟩

namespace Store

/-- `_save_index`. -/
def saveIndex (store : Store ρ) : Store ρ :=
  { store with indexFile := some (store.index, store.totalBytes) }

/-- `_mark_dirty`. -/
def markDirty (store : Store ρ) : Store ρ :=
  { store with dirty := true }

/-- `_flush_index`. -/
def flushIndex (store : Store ρ) : Store ρ :=
  if store.dirty then { store.saveIndex with dirty := false } else store

/-- `_evict_one`; a missing file is no error. -/
def evictOne (key : String) (store : Store ρ) : Store ρ :=
  match store.index.find? key with
  | none => store
  | some info =>
    { store with
      index := store.index.erase key
      totalBytes := store.totalBytes - info.size
      pages := store.pages.erase key
      history := .evicted key :: store.history
      dirty := true }

/-- The keys of the index, the least recently used first. -/
def evictable (store : Store ρ) : List String :=
  (store.index.entries.insertionSort fun first second =>
    first.2.lastAccess ≤ second.2.lastAccess).map Prod.fst

/-- One round of the loop of `_enforce_budget`; with enough room, none of the later
rounds evicts anything. -/
def makeRoom (neededBytes : Nat) (store : Store ρ) (key : String) : Store ρ :=
  if store.totalBytes ≤ store.maxDiskBytes - neededBytes then store
  else store.evictOne key

/-- `_enforce_budget`. -/
def enforceBudget (neededBytes : Nat) (store : Store ρ) : Store ρ :=
  if store.maxDiskBytes ≤ 0 then store
  else store.evictable.foldl (makeRoom neededBytes) store

section Pages

variable (env : Env ρ)

/-- `_touch_access`. -/
def touchAccess (key : String) (store : Store ρ) : Store ρ :=
  match store.index.find? key with
  | none => store
  | some info =>
    { store with
      index := store.index.insert key
        { info with lastAccess := env.clock store.tick }
      tick := store.tick + 1
      dirty := true }

/-- `get`. -/
def get (key : String) (store : Store ρ) : Store ρ × Option ρ :=
  match store.pages.find? key with
  | some data => (store.touchAccess env key, some data)
  | none => (store, none)

/-- `torch.save`. -/
def savePage (key : String) (value : ρ) (store : Store ρ) : Store ρ :=
  { store with pages := store.pages.insert key value }

def addEntry (key : String) (size : Nat) (store : Store ρ) : Store ρ :=
  { store with
    index := store.index.insert key ⟨size, env.clock store.tick⟩
    tick := store.tick + 1
    totalBytes := store.totalBytes + size }

/-- A page that is not in the index: the part of `set` behind its check. -/
def addPage (key : String) (value : ρ) (store : Store ρ) : Store ρ :=
  ((((store.savePage key value).enforceBudget (env.fileSize value)).addEntry env key
    (env.fileSize value)).markDirty).flushIndex

/-- Note a successful `set`. -/
def note (key : String) (value : ρ) (store : Store ρ) : Store ρ :=
  { store with history := .set key value :: store.history }

/-- `set`. -/
def set (key : String) (value : Option ρ) (store : Store ρ) : Store ρ × Bool :=
  match value with
  | none => (store, false)
  | some value =>
    if (store.index.find? key).isSome then
      ((store.touchAccess env key).flushIndex.note key value, true)
    else ((store.addPage env key value).note key value, true)

/-- `batch_get`. -/
def batchGet : List String → Store ρ → Store ρ × List (Option ρ)
  | [], store => (store, [])
  | key :: keys, store =>
    let (store, data) := store.get env key
    let (store, rest) := batchGet keys store
    (store, data :: rest)

/-- The loop of `batch_set`; every page is tried. -/
def setAll : List (String × Option ρ) → Store ρ → Store ρ × Bool
  | [], store => (store, true)
  | (key, value) :: rest, store =>
    let (store, ok) := store.set env key value
    let (store, restOk) := setAll rest store
    (store, ok && restOk)

/-- `batch_set`. -/
def batchSet (keys : List String) (values : Option (List (Option ρ)))
    (store : Store ρ) : Store ρ × Bool :=
  match values with
  | none => (store, false)
  | some values =>
    let (store, ok) := store.setAll env (keys.zip values)
    (store.flushIndex, ok)

/-- `clear`. -/
def clear (store : Store ρ) : Store ρ :=
  (store.index.keys.foldl (fun store key => store.evictOne key) store).flushIndex

end Pages

end Store

structure PoolApi (η ρ : Type*) where
  pageSize : Nat
  getDataPage : Nat → η → ρ
  setFromFlatDataPage : Nat → ρ → η → η

/-- `getattr(host_pool, "page_size", 1) or 1`. -/
def PoolApi.transferPageSize {η ρ : Type*} (api : PoolApi η ρ) : Nat :=
  if api.pageSize = 0 then 1 else api.pageSize

/-- `PoolTransfer`: the keys of one pool and the host indices of their pages. -/
structure PoolTransfer where
  name : String
  keys : Option (List String)
  hostIndices : Option (List Nat)

/-- A store and a host pool. -/
structure System (η ρ : Type*) where
  store : Store ρ
  host : η

/-- `_component_key`. -/
def componentKey (key poolName : String) : String :=
  if poolName = "kv" then key else key ++ "." ++ poolName

/-- The operations of a history; a host page may also be written by others. -/
inductive Op (η ρ : Type*) where
  | get (key : String)
  | set (key : String) (value : Option ρ)
  | batchSet (keys : List String) (values : Option (List (Option ρ)))
  | pageSet (keys : List String) (hostIndices : List Nat)
  | pageGet (keys : List String) (hostIndices : List Nat) (limit : Nat)
  | batchGetV2 (transfers : List PoolTransfer)
  | batchSetV2 (transfers : List PoolTransfer)
  | clear
  | hostWrite (host : η)

variable {η ρ : Type*} (env : Env ρ) (api : PoolApi η ρ)

namespace System

/-- Put a page into the host pool. -/
def restore (index : Nat) (data : ρ) (system : System η ρ) : System η ρ :=
  { system with host := api.setFromFlatDataPage index data system.host }

def writeKey (key : String) (index : Nat) (system : System η ρ) : System η ρ × Bool :=
  let (store, ok) :=
    system.store.set env key (some (api.getDataPage index system.host))
  ({ system with store }, ok)

def readKey (key : String) (index : Nat) (system : System η ρ) : System η ρ × Bool :=
  match system.store.get env key with
  | (store, none) => ({ system with store }, false)
  | (store, some data) => (({ system with store }).restore api index data, true)

/-- Write or read one page. -/
def ioKey (write : Bool) (key : String) (index : Nat) (system : System η ρ) : System η ρ × Bool :=
  if write then system.writeKey env api key index
  else system.readKey env api key index

def ioKeys (write : Bool) : List (String × Nat) → System η ρ → System η ρ × List Bool
  | [], system => (system, [])
  | (key, index) :: rest, system =>
    let (system, ok) := system.ioKey env api write key index
    let (system, oks) := ioKeys write rest system
    (system, ok :: oks)

/-- The keys of a transfer with the host indices of their pages. -/
def transferItems (pageSize : Nat) (transfer : PoolTransfer) (indices : List Nat) :
    List (String × Nat) :=
  (transfer.keys.getD []).mapIdx fun position key =>
    (componentKey key transfer.name, indices.getD (position * pageSize) 0)

/-- One transfer of `_batch_io_v2`. -/
def ioTransfer (write : Bool) (transfer : PoolTransfer) (system : System η ρ) :
    System η ρ × List Bool :=
  match transfer.hostIndices with
  | none => (system, (transfer.keys.getD []).map fun _ => false)
  | some indices =>
    if indices.length ≠ (transfer.keys.getD []).length * api.transferPageSize then
      (system, (transfer.keys.getD []).map fun _ => false)
    else
      system.ioKeys env api write (transferItems api.transferPageSize transfer indices)

/-- The loop of `_batch_io_v2` over the transfers. -/
def ioTransfers (write : Bool) : List PoolTransfer → System η ρ →
    System η ρ × List (String × List Bool)
  | [], system => (system, [])
  | transfer :: rest, system =>
    let (system, oks) := system.ioTransfer env api write transfer
    let (system, results) := ioTransfers write rest system
    (system, (transfer.name, oks) :: results)

/-- `_flush_index` of the store. -/
def flush (system : System η ρ) : System η ρ :=
  { system with store := system.store.flushIndex }

/-- `_batch_io_v2`. -/
def batchIoV2 (write : Bool) (transfers : List PoolTransfer) (system : System η ρ) :
    System η ρ × List (String × List Bool) :=
  let (system, results) := system.ioTransfers env api write transfers
  (system.flush, results)

/-- `_generic_page_set` of the cache controller: `batch_set` of host pages. -/
def genericPageSet (keys : List String) (hostIndices : List Nat)
    (system : System η ρ) : System η ρ × Bool :=
  let data := keys.mapIdx fun position _ =>
    some (api.getDataPage (hostIndices.getD (position * api.pageSize) 0) system.host)
  let (store, ok) := system.store.batchSet env keys (some data)
  ({ system with store }, ok)

/-- The loop of `_generic_page_get`: it ends at a missing page, or when the
operation has been terminated after some pages. -/
def restoreAll : Nat → List (Nat × Option ρ) → System η ρ → System η ρ
  | limit + 1, (index, some data) :: rest, system =>
    restoreAll limit rest (system.restore api index data)
  | _, _, system => system

/-- `_generic_page_get` of the cache controller: `batch_get` into host pages. -/
def genericPageGet (keys : List String) (hostIndices : List Nat) (limit : Nat)
    (system : System η ρ) : System η ρ :=
  let (store, data) := system.store.batchGet env keys
  restoreAll api limit (data.mapIdx fun position data =>
      (hostIndices.getD (position * api.pageSize) 0, data))
    { system with store }

def runOp (system : System η ρ) : Op η ρ → System η ρ
  | .get key => { system with store := (system.store.get env key).1 }
  | .set key value => { system with store := (system.store.set env key value).1 }
  | .batchSet keys values =>
    { system with store := (system.store.batchSet env keys values).1 }
  | .pageSet keys hostIndices => (system.genericPageSet env api keys hostIndices).1
  | .pageGet keys hostIndices limit => system.genericPageGet env api keys hostIndices limit
  | .batchGetV2 transfers => (system.batchIoV2 env api false transfers).1
  | .batchSetV2 transfers => (system.batchIoV2 env api true transfers).1
  | .clear => { system with store := system.store.clear }
  | .hostWrite host => { system with host }

def run (ops : List (Op η ρ)) (system : System η ρ) : System η ρ :=
  ops.foldl (runOp env api) system

end System

section Preservation

variable {env}

/-- A property of stores that the operations on single pages keep. -/
structure Stable (env : Env ρ) (property : Store ρ → Prop) : Prop where
  get : ∀ {store key}, property store → property (store.get env key).1
  set : ∀ {store key value}, property store → property (store.set env key value).1
  flush : ∀ {store}, property store → property store.flushIndex
  clear : ∀ {store}, property store → property store.clear

variable {property : Store ρ → Prop} (stable : Stable env property)
include stable

variable {store : Store ρ}

theorem Stable.batchGet (keys : List String)
    (holds : property store) : property (store.batchGet env keys).1 := by
  induction keys generalizing store with
  | nil => exact holds
  | cons key keys ih => exact ih (stable.get holds)

theorem Stable.setAll (items : List (String × Option ρ))
    (holds : property store) : property (store.setAll env items).1 := by
  induction items generalizing store with
  | nil => exact holds
  | cons item items ih => exact ih (stable.set holds)

theorem Stable.batchSet {keys : List String} {values : Option (List (Option ρ))}
    (holds : property store) :
    property (store.batchSet env keys values).1 := by
  cases values with
  | none => exact holds
  | some values => exact stable.flush (stable.setAll _ holds)

variable {system : System η ρ}

theorem Stable.ioKey (write : Bool) (key : String) (i : Nat) (holds : property system.store) :
    property (system.ioKey env api write key i).1.store := by
  cases write with
  | true =>
    rw [System.ioKey, if_pos rfl]
    exact @Stable.set _ _ _ stable _ key (some (api.getDataPage i system.host)) holds
  | false =>
    have got := @Stable.get _ _ _ stable _ key holds
    rw [System.ioKey, if_neg Bool.false_ne_true, System.readKey]
    split
    next store found => rwa [found] at got
    next store data found => rwa [found] at got

theorem Stable.ioKeys (write : Bool) (items : List (String × Nat)) (holds : property system.store) :
    property (system.ioKeys env api write items).1.store := by
  induction items generalizing system with
  | nil => exact holds
  | cons item items ih => exact ih (stable.ioKey api write _ _ holds)

theorem Stable.ioTransfer (write : Bool) (transfer : PoolTransfer) (holds : property system.store) :
    property (system.ioTransfer env api write transfer).1.store := by
  unfold System.ioTransfer
  split
  · exact holds
  · split
    · exact holds
    · exact stable.ioKeys api write _ holds

theorem Stable.ioTransfers (write : Bool) (transfers : List PoolTransfer)
    (holds : property system.store) :
    property (system.ioTransfers env api write transfers).1.store := by
  induction transfers generalizing system with
  | nil => exact holds
  | cons transfer transfers ih => exact ih (stable.ioTransfer api write _ holds)

omit stable in
theorem store_restoreAll (limit : Nat) (items : List (Nat × Option ρ))
    (system : System η ρ) : (System.restoreAll api limit items system).store = system.store := by
  induction items generalizing limit system with
  | nil => cases limit <;> rfl
  | cons item items ih =>
    obtain ⟨i, data⟩ := item
    cases limit with
    | zero => rfl
    | succ limit =>
      cases data with
      | none => rfl
      | some data => exact ih limit _

theorem Stable.runOp (holds : property system.store)
    (op : Op η ρ) : property (system.runOp env api op).store := by
  cases op with
  | get key => exact stable.get holds
  | set key v => exact stable.set holds
  | batchSet keys values => exact stable.batchSet holds
  | pageSet keys hostIndices => exact @Stable.batchSet _ _ _ stable _ keys (some _) holds
  | pageGet keys hostIndices limit =>
    rw [System.runOp, System.genericPageGet, store_restoreAll]
    exact stable.batchGet keys holds
  | batchGetV2 transfers => exact stable.flush (stable.ioTransfers api false _ holds)
  | batchSetV2 transfers => exact stable.flush (stable.ioTransfers api true _ holds)
  | clear => exact stable.clear holds
  | hostWrite host => exact holds

theorem Stable.run (holds : property system.store)
    (ops : List (Op η ρ)) : property (system.run env api ops).store := by
  induction ops generalizing system with
  | nil => exact holds
  | cons op ops ih => exact ih (stable.runOp api holds op)

end Preservation

def sizeIn (index : OrderedDict String Entry) (key : String) : Option Nat :=
  (index.find? key).map Entry.size

def sizeOnDisk (env : Env ρ) (pages : OrderedDict String ρ) (key : String) : Option Nat :=
  (pages.find? key).map env.fileSize

section Sizes

variable {env : Env ρ} {index : OrderedDict String Entry}
  {pages : OrderedDict String ρ} {key other : String}

theorem sizeIn_insert_self {entry : Entry} :
    sizeIn (index.insert key entry) key = some entry.size := by
  simp [sizeIn]

theorem sizeIn_insert_of_ne {entry : Entry} (ne : other ≠ key) :
    sizeIn (index.insert key entry) other = sizeIn index other := by
  simp [sizeIn, OrderedDict.find?_insert_of_ne ne]

theorem sizeIn_erase_self : sizeIn (index.erase key) key = none := by
  simp [sizeIn]

theorem sizeIn_erase_of_ne (ne : other ≠ key) :
    sizeIn (index.erase key) other = sizeIn index other := by
  simp [sizeIn, OrderedDict.find?_erase_of_ne ne]

theorem sizeIn_touch {info : Entry} {time : Nat} (found : index.find? key = some info) :
    sizeIn (index.insert key { info with lastAccess := time }) = sizeIn index := by
  funext other
  by_cases same : other = key
  · subst same
    rw [sizeIn_insert_self, sizeIn, found]
    rfl
  · exact sizeIn_insert_of_ne same

theorem mem_keys_iff_sizeIn : key ∈ index.keys ↔ (sizeIn index key).isSome := by
  rw [sizeIn, Option.isSome_map, OrderedDict.find?_isSome_iff]

theorem mem_keys_iff_sizeOnDisk : key ∈ pages.keys ↔ (sizeOnDisk env pages key).isSome := by
  rw [sizeOnDisk, Option.isSome_map, OrderedDict.find?_isSome_iff]

end Sizes

/-- The index lists the files with their sizes, except for a page that is being
added. -/
structure Consistent (env : Env ρ) (pending : Option String) (store : Store ρ) :
    Prop where
  sizes : ∀ key, pending ≠ some key →
    sizeIn store.index key = sizeOnDisk env store.pages key
  absent : ∀ key, pending = some key → sizeIn store.index key = none
  total : store.totalBytes = store.index.total Entry.size

/-- A backend that is opened on the directory has the same sizes and total. -/
structure Persisted (store : Store ρ) : Prop where
  sizes : ∀ key, sizeIn (openBackend store.maxDiskBytes store.toDisk).index key =
    sizeIn store.index key
  total : (openBackend store.maxDiskBytes store.toDisk).totalBytes = store.totalBytes

def SavedOrDirty (store : Store ρ) : Prop :=
  store.dirty = true ∨ Persisted store

namespace Store

variable {env : Env ρ} {store : Store ρ} {pending : Option String} {key : String}

theorem evictOne_cases (key : String) (store : Store ρ) :
    (store.index.find? key = none ∧ store.evictOne key = store) ∨
      ∃ info, store.index.find? key = some info ∧ store.evictOne key = { store with
          index := store.index.erase key
          totalBytes := store.totalBytes - info.size
          pages := store.pages.erase key
          history := .evicted key :: store.history
          dirty := true } := by
  unfold evictOne
  cases found : store.index.find? key with
  | none => exact Or.inl ⟨rfl, rfl⟩
  | some info => exact Or.inr ⟨info, rfl, rfl⟩

theorem consistent_evictOne (consistent : Consistent env pending store) :
    Consistent env pending (store.evictOne key) := by
  rcases evictOne_cases key store with ⟨_, same⟩ | ⟨info, found, evicted⟩
  · rw [same]
    exact consistent
  · rw [evicted]
    have known : sizeIn store.index key = some info.size := by
      rw [sizeIn, found]
      rfl
    refine ⟨fun other notPending => ?_, fun other isPending => ?_, ?_⟩
    · by_cases same : other = key
      · subst same
        rw [sizeIn_erase_self, sizeOnDisk, OrderedDict.find?_erase_self]
        rfl
      · rw [sizeIn_erase_of_ne same, consistent.sizes other notPending, sizeOnDisk,
          sizeOnDisk, OrderedDict.find?_erase_of_ne same]
    · have absent := consistent.absent other isPending
      have ne : other ≠ key := by
        rintro rfl
        rw [known] at absent
        cases absent
      rw [sizeIn_erase_of_ne ne]
      exact absent
    · have erased : (store.index.erase key).total Entry.size + info.size =
          store.index.total Entry.size := OrderedDict.total_erase found
      have total := consistent.total
      dsimp only
      omega

theorem savedOrDirty_evictOne (saved : SavedOrDirty store) : SavedOrDirty (store.evictOne key) := by
  rcases evictOne_cases key store with ⟨_, same⟩ | ⟨info, _, evicted⟩
  · rw [same]
    exact saved
  · rw [evicted]
    exact Or.inl rfl

theorem enforceBudget_induction {property : Store ρ → Prop}
    (evict : ∀ store key, property store → property (store.evictOne key)) (holds : property store)
    (needed : Nat) : property (store.enforceBudget needed) := by
  unfold enforceBudget
  split
  case isTrue => exact holds
  case isFalse limited =>
    clear limited
    generalize store.evictable = keys
    induction keys generalizing store with
    | nil => exact holds
    | cons key keys ih =>
      rw [List.foldl_cons]
      refine ih ?_
      unfold makeRoom
      split
      · exact holds
      · exact evict _ _ holds

theorem flushIndex_eq (store : Store ρ) :
    store.flushIndex.toBackend = { store.toBackend with dirty := false } ∧
      store.flushIndex.pages = store.pages ∧
      store.flushIndex.history = store.history := by
  unfold flushIndex
  split
  · exact ⟨rfl, rfl, rfl⟩
  next clean =>
    refine ⟨?_, rfl, rfl⟩
    obtain ⟨⟨maxDiskBytes, index, total, dirty⟩, disk, tick, history⟩ := store
    cases dirty with
    | true => exact (clean rfl).elim
    | false => rfl

theorem persisted_flushIndex (saved : SavedOrDirty store) : Persisted store.flushIndex := by
  unfold flushIndex
  split
  next dirty => exact ⟨fun key => rfl, rfl⟩
  next clean => exact saved.resolve_left clean

theorem touchAccess_cases (env : Env ρ) (key : String) (store : Store ρ) :
    (store.index.find? key = none ∧ store.touchAccess env key = store) ∨
      ∃ info, store.index.find? key = some info ∧ store.touchAccess env key = { store with
          index := store.index.insert key { info with lastAccess := env.clock store.tick }
          tick := store.tick + 1
          dirty := true } := by
  unfold touchAccess
  cases found : store.index.find? key with
  | none => exact Or.inl ⟨rfl, rfl⟩
  | some info => exact Or.inr ⟨info, rfl, rfl⟩

theorem consistent_touchAccess (consistent : Consistent env pending store) :
    Consistent env pending (store.touchAccess env key) := by
  rcases touchAccess_cases env key store with ⟨_, same⟩ | ⟨info, found, touched⟩
  · rw [same]
    exact consistent
  · rw [touched]
    refine ⟨?_, ?_, ?_⟩
    · dsimp only
      rw [sizeIn_touch found]
      exact consistent.sizes
    · dsimp only
      rw [sizeIn_touch found]
      exact consistent.absent
    · have sameTotal : (store.index.insert key
          { info with lastAccess := env.clock store.tick }).total Entry.size =
            store.index.total Entry.size :=
        OrderedDict.total_insert_of_some found rfl
      dsimp only
      rw [sameTotal]
      exact consistent.total

theorem persisted_touchAccess (persisted : Persisted store) :
    Persisted (store.touchAccess env key) := by
  rcases touchAccess_cases env key store with ⟨_, same⟩ | ⟨info, found, touched⟩
  · rw [same]
    exact persisted
  · rw [touched]
    refine ⟨?_, persisted.total⟩
    dsimp only
    rw [sizeIn_touch found]
    exact persisted.sizes

theorem consistent_flushIndex (consistent : Consistent env pending store) :
    Consistent env pending store.flushIndex := by
  unfold flushIndex
  split
  · exact ⟨consistent.sizes, consistent.absent, consistent.total⟩
  · exact consistent

variable {value : ρ}

theorem consistent_savePage (consistent : Consistent env none store)
    (fresh : store.index.find? key = none) :
    Consistent env (some key) (store.savePage key value) := by
  refine ⟨fun other notPending => ?_, fun other isPending => ?_, consistent.total⟩
  · have ne : other ≠ key := fun same => notPending (same ▸ rfl)
    rw [savePage, consistent.sizes other (by simp), sizeOnDisk, sizeOnDisk,
      OrderedDict.find?_insert_of_ne ne]
  · cases isPending
    rw [savePage, sizeIn, fresh]
    rfl

theorem pages_evictOne (absent : sizeIn store.index key = none)
    (saved : store.pages.find? key = some value) (other : String) :
    sizeIn (store.evictOne other).index key = none ∧
      (store.evictOne other).pages.find? key = some value := by
  rcases evictOne_cases other store with ⟨_, same⟩ | ⟨info, found, evicted⟩
  · rw [same]
    exact ⟨absent, saved⟩
  · have ne : key ≠ other := by
      rintro rfl
      rw [sizeIn, found] at absent
      cases absent
    rw [evicted]
    exact ⟨(sizeIn_erase_of_ne ne).trans absent, (OrderedDict.find?_erase_of_ne ne).trans saved⟩

theorem consistent_addEntry (consistent : Consistent env (some key) store)
    (saved : store.pages.find? key = some value) :
    Consistent env none (store.addEntry env key (env.fileSize value)) := by
  refine ⟨fun other _ => ?_, fun other isPending => ?_, ?_⟩
  case refine_2 => cases isPending
  · by_cases same : other = key
    · subst same
      rw [addEntry, sizeIn_insert_self, sizeOnDisk, saved]
      rfl
    · rw [addEntry, sizeIn_insert_of_ne same]
      exact consistent.sizes other fun pending => same (Option.some.inj pending).symm
  · have fresh : store.index.find? key = none :=
      Option.map_eq_none_iff.mp (consistent.absent key rfl)
    have total := consistent.total
    have inserted : (store.index.insert key ⟨env.fileSize value,
        env.clock store.tick⟩).total Entry.size =
          store.index.total Entry.size + env.fileSize value :=
      OrderedDict.total_insert_of_none fresh
    dsimp only [addEntry]
    omega

theorem consistent_addPage (consistent : Consistent env none store)
    (fresh : store.index.find? key = none) : Consistent env none (store.addPage env key value) := by
  have room : Consistent env (some key)
        ((store.savePage key value).enforceBudget (env.fileSize value)) ∧
      sizeIn ((store.savePage key value).enforceBudget (env.fileSize value)).index key = none ∧
      ((store.savePage key value).enforceBudget
        (env.fileSize value)).pages.find? key = some value := by
    refine @enforceBudget_induction ρ _ (fun store =>
      Consistent env (some key) store ∧ sizeIn store.index key = none ∧
        store.pages.find? key = some value) ?_ ?_ _
    · rintro store other ⟨consistent, absent, saved⟩
      exact ⟨consistent_evictOne consistent, pages_evictOne absent saved other⟩
    · refine ⟨consistent_savePage consistent fresh, ?_, ?_⟩
      · rw [savePage, sizeIn, fresh]
        rfl
      · exact OrderedDict.find?_insert_self
  have added := consistent_addEntry room.1 room.2.2
  exact consistent_flushIndex ⟨added.sizes, added.absent, added.total⟩

theorem persisted_addPage : Persisted (store.addPage env key value) :=
  persisted_flushIndex (Or.inl rfl)

end Store

structure Indexed (env : Env ρ) (store : Store ρ) : Prop where
  consistent : Consistent env none store
  persisted : Persisted store

theorem stable_indexed (env : Env ρ) : Stable env (Indexed env) where
  get := fun {store key} indexed => by
    unfold Store.get
    split
    · exact ⟨Store.consistent_touchAccess indexed.consistent,
        Store.persisted_touchAccess indexed.persisted⟩
    · exact indexed
  set := fun {store key value} indexed => by
    unfold Store.set
    split
    · exact indexed
    · split
      · have touched : Consistent env none (store.touchAccess env key).flushIndex :=
          Store.consistent_flushIndex (Store.consistent_touchAccess indexed.consistent)
        have saved : Persisted (store.touchAccess env key).flushIndex :=
          Store.persisted_flushIndex (Or.inr (Store.persisted_touchAccess indexed.persisted))
        exact ⟨⟨touched.sizes, touched.absent, touched.total⟩, saved.sizes, saved.total⟩
      next value fresh =>
        have added : Consistent env none (store.addPage env key value) :=
          Store.consistent_addPage indexed.consistent (Option.not_isSome_iff_eq_none.mp fresh)
        have saved : Persisted (store.addPage env key value) := Store.persisted_addPage
        exact ⟨⟨added.sizes, added.absent, added.total⟩, saved.sizes, saved.total⟩
  flush := fun {store} indexed =>
    ⟨Store.consistent_flushIndex indexed.consistent,
      Store.persisted_flushIndex (Or.inr indexed.persisted)⟩
  clear := fun {store} indexed => by
    have evicted : Consistent env none (store.index.keys.foldl
          (fun store key => store.evictOne key) store) ∧
        SavedOrDirty (store.index.keys.foldl (fun store key => store.evictOne key) store) := by
      have start : Consistent env none store ∧ SavedOrDirty store :=
        ⟨indexed.consistent, Or.inr indexed.persisted⟩
      clear indexed
      generalize store.index.keys = keys
      induction keys generalizing store with
      | nil => exact start
      | cons key keys ih =>
        exact ih ⟨Store.consistent_evictOne start.1, Store.savedOrDirty_evictOne start.2⟩
    exact ⟨Store.consistent_flushIndex evicted.1, Store.persisted_flushIndex evicted.2⟩

/-- A backend on an empty directory. -/
def Store.fresh (maxDiskBytes : Int) : Store ρ where
  toBackend := openBackend maxDiskBytes (⟨OrderedDict.empty, none⟩ : Disk ρ)
  toDisk := ⟨OrderedDict.empty, none⟩
  tick := 0
  history := []

theorem indexed_fresh (env : Env ρ) (maxDiskBytes : Int) : Indexed env (Store.fresh maxDiskBytes) :=
  ⟨⟨fun _ _ => rfl, fun _ isPending => (by cases isPending), rfl⟩, fun _ => rfl, rfl⟩

/-- After any operations on a directory that was empty, the index has exactly the
page files, with their sizes and the sum of these as the total, and a backend that
is opened on the directory has the same keys, sizes and total. -/
theorem index_after_run {η : Type*} (env : Env ρ) (api : PoolApi η ρ)
    (maxDiskBytes : Int) (host : η) (ops : List (Op η ρ)) :
    let store := (System.run env api ops ⟨Store.fresh maxDiskBytes, host⟩).store
    let opened := openBackend store.maxDiskBytes store.toDisk
    (∀ key, key ∈ store.index.keys ↔ key ∈ store.pages.keys) ∧
      store.totalBytes = store.index.total Entry.size ∧
      (∀ key entry value, store.index.find? key = some entry →
        store.pages.find? key = some value → entry.size = env.fileSize value) ∧
      (∀ key, key ∈ opened.index.keys ↔ key ∈ store.index.keys) ∧
      (∀ key, sizeIn opened.index key = sizeIn store.index key) ∧
      opened.totalBytes = store.totalBytes := by
  intro store opened
  have indexed : Indexed env store :=
    (stable_indexed env).run api (indexed_fresh env maxDiskBytes) ops
  have sizes : ∀ key, sizeIn store.index key = sizeOnDisk env store.pages key :=
    fun key => indexed.consistent.sizes key (by simp)
  refine ⟨fun key => ?_, indexed.consistent.total, ?_, fun key => ?_,
    indexed.persisted.sizes, indexed.persisted.total⟩
  · rw [mem_keys_iff_sizeIn, sizes, ← mem_keys_iff_sizeOnDisk]
  · intro key entry value recorded stored
    have same := sizes key
    rw [sizeIn, recorded, sizeOnDisk, stored] at same
    exact Option.some.inj same
  · rw [mem_keys_iff_sizeIn, mem_keys_iff_sizeIn]
    exact iff_of_eq (congrArg (fun size => size.isSome = true) (indexed.persisted.sizes key))

end LnaLang.DiskOffload
