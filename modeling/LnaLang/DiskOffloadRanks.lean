import LnaLang.DiskOffloadIndex

/-!
# Several backends on one directory

The backends of several ranks keep an index each and save it to the same file.  As
long as a single rank writes, the saved index lists the pages of the directory and
the pages fit into the budget and the last page.  They fit into the budget itself when each
page does.
-/

namespace LnaLang.DiskOffload

variable {ρ : Type*}

/-- The backends by rank, their directory, and the size of the last page that was
written. -/
structure Ranks (ρ : Type*) where
  backends : Nat → Backend
  disk : Disk ρ
  tick : Nat
  history : List (Event ρ)
  lastSize : Nat

inductive Call (ρ : Type*) where
  | get (rank : Nat) (key : String)
  | set (rank : Nat) (key : String) (value : Option ρ)

namespace Ranks

/-- What a rank works on. -/
def storeOf (ranks : Ranks ρ) (rank : Nat) : Store ρ :=
  ⟨ranks.backends rank, ranks.disk, ranks.tick, ranks.history⟩

def put (ranks : Ranks ρ) (rank : Nat) (store : Store ρ) : Ranks ρ where
  backends := Function.update ranks.backends rank store.toBackend
  disk := store.toDisk
  tick := store.tick
  history := store.history
  lastSize := ranks.lastSize

variable (env : Env ρ)

/-- The size of the page that a `set` writes, if it writes one. -/
def writtenSize (store : Store ρ) (key : String) (value : Option ρ) : Option Nat :=
  match value with
  | some value =>
    if (store.index.find? key).isSome then none else some (env.fileSize value)
  | none => none

/-- One whole call. -/
def step (ranks : Ranks ρ) : Call ρ → Ranks ρ
  | .get rank key => ranks.put rank ((ranks.storeOf rank).get env key).1
  | .set rank key value =>
    { ranks.put rank ((ranks.storeOf rank).set env key value).1 with
      lastSize :=
        (writtenSize env (ranks.storeOf rank) key value).getD ranks.lastSize }

def run (calls : List (Call ρ)) (ranks : Ranks ρ) : Ranks ρ :=
  calls.foldl (step env) ranks

/-- The keys that `index.json` lists. -/
def listed (ranks : Ranks ρ) : List String :=
  (openBackend 0 ranks.disk).index.keys

/-- The directory has the pages that `index.json` lists, and they fit into the budget
and the last page. -/
structure Shared (maxDiskBytes : Int) (ranks : Ranks ρ) : Prop where
  listed : ∀ key, key ∈ ranks.disk.pages.keys ↔ key ∈ ranks.listed
  fits : ranks.disk.pages.total env.fileSize ≤ maxDiskBytes + ranks.lastSize

/-- The ranks on an empty directory. -/
def fresh (maxDiskBytes : Int) : Ranks ρ where
  backends := fun _ => openBackend maxDiskBytes (⟨OrderedDict.empty, none⟩ : Disk ρ)
  disk := ⟨OrderedDict.empty, none⟩
  tick := 0
  history := []
  lastSize := 0

end Ranks

section Budget

variable {env : Env ρ} {store : Store ρ} {key : String}

theorem find?_evictOne_of_none (other : String) (absent : store.index.find? key = none) :
    (store.evictOne other).index.find? key = none := by
  rcases Store.evictOne_cases other store with ⟨_, same⟩ | ⟨info, _, evicted⟩
  · rw [same]
    exact absent
  · rw [evicted]
    by_cases isOther : key = other
    · rw [isOther]
      exact OrderedDict.find?_erase_self
    · exact (OrderedDict.find?_erase_of_ne isOther).trans absent

theorem find?_evictOne_self : (store.evictOne key).index.find? key = none := by
  rcases Store.evictOne_cases key store with ⟨absent, same⟩ | ⟨info, _, evicted⟩
  · rw [same]
    exact absent
  · rw [evicted]
    exact OrderedDict.find?_erase_self

theorem maxDiskBytes_evictOne : (store.evictOne key).maxDiskBytes = store.maxDiskBytes := by
  rcases Store.evictOne_cases key store with ⟨_, same⟩ | ⟨info, _, evicted⟩
  · rw [same]
  · rw [evicted]

theorem foldl_makeRoom_of_room {needed : Nat}
    (room : store.totalBytes ≤ store.maxDiskBytes - needed) (keys : List String) :
    keys.foldl (Store.makeRoom needed) store = store := by
  induction keys with
  | nil => rfl
  | cons key keys ih => rw [List.foldl_cons, Store.makeRoom, if_pos room, ih]

theorem room_of_evictions (needed : Nat) (keys : List String) (store : Store ρ) :
    (∀ key, store.index.find? key = none →
        (keys.foldl (Store.makeRoom needed) store).index.find? key = none) ∧
      ((keys.foldl (Store.makeRoom needed) store).totalBytes ≤ store.maxDiskBytes - needed ∨
        ∀ key ∈ keys, (keys.foldl (Store.makeRoom needed) store).index.find? key = none) := by
  induction keys generalizing store with
  | nil => exact ⟨fun _ absent => absent, Or.inr (by simp)⟩
  | cons key keys ih =>
    by_cases room : store.totalBytes ≤ store.maxDiskBytes - needed
    · rw [foldl_makeRoom_of_room room]
      exact ⟨fun _ absent => absent, Or.inl room⟩
    · rw [List.foldl_cons, Store.makeRoom, if_neg room]
      obtain ⟨absent, rest⟩ := ih (store.evictOne key)
      rw [maxDiskBytes_evictOne] at rest
      refine ⟨fun other gone => absent other (find?_evictOne_of_none key gone), ?_⟩
      refine rest.imp id fun gone other mem => ?_
      rcases List.mem_cons.mp mem with rfl | later
      · exact absent _ find?_evictOne_self
      · exact gone other later

theorem mem_evictable (listed : key ∈ store.index.keys) : key ∈ store.evictable := by
  obtain ⟨entry, mem, rfl⟩ := List.mem_map.mp listed
  exact List.mem_map_of_mem ((List.perm_insertionSort _ _).mem_iff.mpr mem)

theorem total_of_no_keys {i : OrderedDict String Entry}
    (empty : ∀ key, i.find? key = none) : i.total Entry.size = 0 := by
  have same : i.total Entry.size =
      (OrderedDict.empty : OrderedDict String Entry).total Entry.size :=
    OrderedDict.total_congr fun key => by rw [empty]; rfl
  rw [same]
  rfl

theorem totalBytes_addPage {v : ρ} (consistent : Consistent env none store)
    (fresh : store.index.find? key = none) (limited : 0 < store.maxDiskBytes) :
    (store.addPage env key v).totalBytes ≤ max store.maxDiskBytes (env.fileSize v) := by
  obtain ⟨flushed, -, -⟩ := Store.flushIndex_eq
    ((((store.savePage key v).enforceBudget (env.fileSize v)).addEntry env key
      (env.fileSize v)).markDirty)
  have totalEq : (store.addPage env key v).totalBytes =
      ((store.savePage key v).enforceBudget (env.fileSize v)).totalBytes + env.fileSize v :=
    congrArg Backend.totalBytes flushed
  have room : Consistent env (some key) ((store.savePage key v).enforceBudget (env.fileSize v)) :=
    Store.enforceBudget_induction (fun _ _ => Store.consistent_evictOne)
      (Store.consistent_savePage consistent fresh) _
  obtain ⟨absent, enough⟩ := room_of_evictions (env.fileSize v)
    (store.savePage key v).evictable (store.savePage key v)
  have unfolded : (store.savePage key v).enforceBudget (env.fileSize v) =
      (store.savePage key v).evictable.foldl
        (Store.makeRoom (env.fileSize v)) (store.savePage key v) :=
    if_neg (not_le.mpr limited)
  rw [← unfolded] at absent enough
  rcases enough with fits | gone
  · have sameMax : (store.savePage key v).maxDiskBytes = store.maxDiskBytes := rfl
    omega
  · have empty : ∀ other, ((store.savePage key v).enforceBudget
        (env.fileSize v)).index.find? other = none := by
      intro other
      by_cases listed : other ∈ (store.savePage key v).index.keys
      · exact gone other (mem_evictable listed)
      · exact absent other (OrderedDict.find?_eq_none_iff.mpr listed)
    have noBytes := room.total
    rw [total_of_no_keys empty] at noBytes
    omega

end Budget

section OneWriter

variable {env : Env ρ} {ranks : Ranks ρ} {maxDiskBytes : Int} {writer : Nat}

/-- A `get`, or a `set` of the writer. -/
def Call.WrittenBy (writer : Nat) : Call ρ → Prop
  | .get _ _ => True
  | .set rank _ _ => rank = writer

structure WriterIndexed (env : Env ρ) (maxDiskBytes : Int) (writer : Nat)
    (ranks : Ranks ρ) : Prop where
  indexed : Indexed env (ranks.storeOf writer)
  limit : (ranks.backends writer).maxDiskBytes = maxDiskBytes
  fits : (ranks.backends writer).totalBytes ≤ maxDiskBytes + ranks.lastSize

theorem touchAccess_backend (key : String) (store : Store ρ) :
    (store.touchAccess env key).maxDiskBytes = store.maxDiskBytes ∧
      (store.touchAccess env key).totalBytes = store.totalBytes ∧
      (store.touchAccess env key).toDisk = store.toDisk := by
  rcases Store.touchAccess_cases env key store with ⟨_, same⟩ | ⟨info, _, touched⟩
  · rw [same]
    exact ⟨rfl, rfl, rfl⟩
  · rw [touched]
    exact ⟨rfl, rfl, rfl⟩

theorem get_backend (key : String) (store : Store ρ) :
    (store.get env key).1.maxDiskBytes = store.maxDiskBytes ∧
      (store.get env key).1.totalBytes = store.totalBytes ∧
      (store.get env key).1.toDisk = store.toDisk := by
  unfold Store.get
  split
  · exact touchAccess_backend key store
  · exact ⟨rfl, rfl, rfl⟩

theorem maxDiskBytes_flushIndex (store : Store ρ) :
    store.flushIndex.maxDiskBytes = store.maxDiskBytes ∧
      store.flushIndex.totalBytes = store.totalBytes := by
  rw [(Store.flushIndex_eq store).1]
  exact ⟨rfl, rfl⟩

theorem maxDiskBytes_addPage (key : String) (v : ρ) (store : Store ρ) :
    (store.addPage env key v).maxDiskBytes = store.maxDiskBytes := by
  have room : ((store.savePage key v).enforceBudget
      (env.fileSize v)).maxDiskBytes = store.maxDiskBytes :=
    @Store.enforceBudget_induction ρ (store.savePage key v)
      (fun other => other.maxDiskBytes = store.maxDiskBytes)
      (fun _ _ same => maxDiskBytes_evictOne.trans same) rfl _
  exact (maxDiskBytes_flushIndex _).1.trans room

theorem indexed_of_same {store other : Store ρ} (indexed : Indexed env store)
    (sameBackend : other.toBackend = store.toBackend)
    (sameDisk : other.toDisk = store.toDisk) : Indexed env other := by
  obtain ⟨backend, disk, tick, history⟩ := store
  obtain ⟨otherBackend, otherDisk, otherTick, otherHistory⟩ := other
  cases sameBackend
  cases sameDisk
  obtain ⟨⟨sizes, absent, total⟩, persistedSizes, persistedTotal⟩ := indexed
  exact ⟨⟨sizes, absent, total⟩, persistedSizes, persistedTotal⟩

theorem writerIndexed_get (indexed : WriterIndexed env maxDiskBytes writer ranks) (rank : Nat)
    (key : String) : WriterIndexed env maxDiskBytes writer (ranks.step env (.get rank key)) := by
  obtain ⟨sameMax, sameTotal, sameDisk⟩ := @get_backend ρ env key (ranks.storeOf rank)
  by_cases same : rank = writer
  · subst same
    have updated : (ranks.step env (.get rank key)).backends rank =
        ((ranks.storeOf rank).get env key).1.toBackend := Function.update_self _ _ _
    refine ⟨?_, ?_, ?_⟩
    · exact indexed_of_same
        (@Stable.get _ _ _ (stable_indexed env) _ key indexed.indexed) updated rfl
    · rw [updated]
      exact sameMax.trans indexed.limit
    · rw [updated]
      exact (le_of_eq sameTotal).trans indexed.fits
  · have unchanged : (ranks.step env (.get rank key)).backends writer =
        ranks.backends writer := Function.update_of_ne (Ne.symm same) _ _
    refine ⟨indexed_of_same indexed.indexed unchanged sameDisk, ?_, ?_⟩
    · rw [unchanged]
      exact indexed.limit
    · rw [unchanged]
      exact indexed.fits

theorem set_backend {store : Store ρ} (consistent : Consistent env none store)
    (limited : 0 < store.maxDiskBytes) (key : String) (v : Option ρ) :
    (store.set env key v).1.maxDiskBytes = store.maxDiskBytes ∧
      (store.set env key v).1.totalBytes ≤ (Ranks.writtenSize env store key v).elim
        store.totalBytes fun size => max store.maxDiskBytes size := by
  unfold Store.set Ranks.writtenSize
  cases v with
  | none => exact ⟨rfl, le_rfl⟩
  | some v =>
    dsimp only
    split
    next =>
      obtain ⟨sameMax, sameTotal, -⟩ := @touchAccess_backend ρ env key store
      obtain ⟨flushedMax, flushedTotal⟩ := maxDiskBytes_flushIndex (store.touchAccess env key)
      exact ⟨flushedMax.trans sameMax, le_of_eq (flushedTotal.trans sameTotal)⟩
    next notListed =>
      have fresh := Option.not_isSome_iff_eq_none.mp notListed
      exact ⟨maxDiskBytes_addPage key v _, totalBytes_addPage consistent fresh limited⟩

variable (indexed : WriterIndexed env maxDiskBytes writer ranks)

include indexed

theorem totalBytes_set (limited : 0 < maxDiskBytes) (key : String) (v : Option ρ) :
    ((ranks.storeOf writer).set env key v).1.maxDiskBytes = maxDiskBytes ∧
      ((ranks.storeOf writer).set env key v).1.totalBytes ≤ maxDiskBytes +
        ((Ranks.writtenSize env (ranks.storeOf writer) key v).getD ranks.lastSize : Nat) := by
  have limit : (ranks.storeOf writer).maxDiskBytes = maxDiskBytes := indexed.limit
  obtain ⟨sameMax, fits⟩ := set_backend indexed.indexed.consistent (limit.symm ▸ limited) key v
  refine ⟨sameMax.trans limit, fits.trans ?_⟩
  rw [limit]
  cases Ranks.writtenSize env (ranks.storeOf writer) key v with
  | none => exact indexed.fits
  | some size =>
    dsimp only [Option.elim, Option.getD]
    omega

theorem writerIndexed_step
    (limited : 0 < maxDiskBytes) {call : Call ρ} (allowed : call.WrittenBy writer) :
    WriterIndexed env maxDiskBytes writer (ranks.step env call) := by
  cases call with
  | get rank key => exact writerIndexed_get indexed rank key
  | set rank key v =>
    obtain rfl : rank = writer := allowed
    obtain ⟨sameMax, fits⟩ := totalBytes_set indexed limited key v
    have unchanged : (ranks.step env (.set rank key v)).backends rank =
        ((ranks.storeOf rank).set env key v).1.toBackend :=
      Function.update_self _ _ _
    refine ⟨?_, ?_, ?_⟩
    · exact indexed_of_same (@Stable.set _ _ _ (stable_indexed env) _ key v indexed.indexed)
        unchanged rfl
    · rw [unchanged]
      exact sameMax
    · rw [unchanged]
      exact fits

theorem shared_of_writerIndexed : Ranks.Shared env maxDiskBytes ranks := by
  have sizes : ∀ key, sizeIn (ranks.backends writer).index key =
      sizeOnDisk env ranks.disk.pages key :=
    fun key => indexed.indexed.consistent.sizes key (by simp)
  have saved : ∀ key, sizeIn (openBackend 0 ranks.disk).index key =
      sizeIn (ranks.backends writer).index key := by
    intro key
    have sameIndex : (openBackend 0 ranks.disk).index =
        (openBackend (ranks.backends writer).maxDiskBytes ranks.disk).index := by
      unfold openBackend
      cases ranks.disk.indexFile <;> rfl
    rw [sameIndex]
    exact indexed.indexed.persisted.sizes key
  refine ⟨fun key => ?_, ?_⟩
  · rw [Ranks.listed, mem_keys_iff_sizeIn, saved, sizes, mem_keys_iff_sizeOnDisk]
  · have sameTotal : ranks.disk.pages.total env.fileSize =
        (ranks.backends writer).index.total Entry.size :=
      OrderedDict.total_congr fun key => (sizes key).symm
    rw [sameTotal]
    exact (le_of_eq indexed.indexed.consistent.total.symm).trans indexed.fits

end OneWriter

/-- If one rank does all the writing, on an empty directory and with a budget, then
after any calls `index.json` lists the pages of the directory, which fit into the
budget and the last page. -/
theorem shared_of_one_writer (env : Env ρ) {maxDiskBytes : Int} (limited : 0 < maxDiskBytes)
    {writer : Nat} {calls : List (Call ρ)} (oneWriter : ∀ call ∈ calls, call.WrittenBy writer) :
    Ranks.Shared env maxDiskBytes (Ranks.run env calls (Ranks.fresh maxDiskBytes)) := by
  suffices general : ∀ ranks, WriterIndexed env maxDiskBytes writer ranks →
      WriterIndexed env maxDiskBytes writer (Ranks.run env calls ranks) by
    refine shared_of_writerIndexed (general _ ⟨?_, rfl, ?_⟩)
    · exact indexed_of_same (indexed_fresh env maxDiskBytes) rfl rfl
    · exact Int.add_nonneg (le_of_lt limited) (Int.natCast_nonneg _)
  induction calls with
  | nil => exact fun ranks indexed => indexed
  | cons call calls ih =>
    intro ranks indexed
    have first := writerIndexed_step indexed limited (oneWriter call List.mem_cons_self)
    exact ih (fun call member => oneWriter call (List.mem_cons_of_mem _ member)) _ first

theorem shared_of_one_writer_two_ranks : Ranks.Shared ⟨id, id⟩ 100 (Ranks.run ⟨id, id⟩
      [.set 0 "a" (some 60), .get 1 "a", .set 0 "b" (some 70)] (Ranks.fresh 100)) :=
  shared_of_one_writer ⟨id, id⟩ (by decide)
    (by simp [Call.WrittenBy] : ∀ call ∈ [Call.set 0 "a" (some 60), .get 1 "a",
      .set 0 "b" (some 70)], call.WrittenBy 0)

/-- Two ranks write a page each, and only the second one is in the saved index. -/
theorem two_writers_lose_page :
    let ranks : Ranks Nat := Ranks.run ⟨id, id⟩
      [.set 0 "a" (some 1), .set 1 "b" (some 1)] (Ranks.fresh 100)
    ranks.disk.pages.keys = ["a", "b"] ∧ ranks.listed = ["b"] := by
  decide

/-- With pages that each fit into the budget, the page files of one backend fit into it after
any `set`s on an empty directory. -/
theorem pages_within_budget (env : Env ρ) {maxDiskBytes : Int} (positive : 0 < maxDiskBytes)
    (sets : List (String × Option ρ))
    (small : ∀ key page, (key, some page) ∈ sets → env.fileSize page ≤ maxDiskBytes) :
    (((Store.fresh maxDiskBytes).setAll env sets).1.pages.total env.fileSize : Int) ≤
      maxDiskBytes := by
  have run {store : Store ρ} (indexed : Indexed env store)
      (limit : store.maxDiskBytes = maxDiskBytes) (fits : store.totalBytes ≤ maxDiskBytes) :
      Indexed env (store.setAll env sets).1 ∧
        (store.setAll env sets).1.totalBytes ≤ maxDiskBytes := by
    induction sets generalizing store with
    | nil => exact ⟨indexed, fits⟩
    | cons item sets ih =>
      obtain ⟨key, value⟩ := item
      obtain ⟨sameMax, total⟩ := set_backend indexed.consistent (limit.symm ▸ positive) key value
      refine ih (fun key page member => small key page (List.mem_cons_of_mem _ member))
        ((stable_indexed env).set indexed) (sameMax.trans limit) (total.trans ?_)
      unfold Ranks.writtenSize
      cases value with
      | none => exact fits
      | some page =>
        dsimp only
        split
        · exact fits
        · exact max_le limit.le (small key page List.mem_cons_self)
  obtain ⟨⟨consistent, _⟩, fits⟩ := run (indexed_fresh env maxDiskBytes) rfl positive.le
  rw [← OrderedDict.total_congr fun key => consistent.sizes key (by simp), ← consistent.total]
  exact fits

theorem pages_within_budget_small : (((Store.fresh 1048576).setAll (⟨id, id⟩ : Env Nat)
      [("first", some 700000), ("second", some 400000)]).1.pages.total id : Int) ≤ 1048576 :=
  pages_within_budget ⟨id, id⟩ (by decide) _ (by simp +contextual [or_imp])

/-- A page of more than the whole budget stays on disk. -/
theorem large_page_beyond_budget : 1048576 < (((Store.fresh 1048576).setAll (⟨id, id⟩ : Env Nat)
      [("page", some 2097152)]).1.pages.total id : Int) := by
  decide +kernel

end LnaLang.DiskOffload
