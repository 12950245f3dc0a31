import LnaLang.DiskOffloadIndex

/-!
# What is found and read back on disk

The page of a key is the one that the first `set` since the key was last removed has
written.  Every page that is put into the host pool comes from that `set`.

A lookup over several pools counts the pages of the KV pool up to the first that is
missing.  Every further pool has a boundary of its own below that, and the least boundary is
the result.  A pool that needs only its trailing pages may have them at its own boundary
and not at a smaller one.
-/

namespace LnaLang.DiskOffload

open Option

variable {η ρ : Type*}

/-- The page of the earliest successful `set` of a key since the key was last
evicted; the latest event comes first. -/
def origin (key : String) : List (Event ρ) → Option ρ
  | [] => none
  | .set other value :: older =>
    if other = key then (origin key older).or (some value) else origin key older
  | .evicted other :: older => if other = key then none else origin key older

/-- The files are those of the history, except for a page that is being added. -/
def Recorded (pending : Option String) (store : Store ρ) : Prop :=
  ∀ key, pending ≠ some key → store.pages.find? key = origin key store.history

namespace Store

variable {env : Env ρ} {store : Store ρ} {pending : Option String} {key : String}

theorem recorded_evictOne (recorded : Recorded pending store) :
    Recorded pending (store.evictOne key) := by
  rcases evictOne_cases key store with ⟨_, same⟩ | ⟨info, _, evicted⟩
  · rw [same]
    exact recorded
  · rw [evicted]
    intro other notPending
    dsimp only
    rw [origin]
    by_cases same : other = key
    · subst same
      rw [if_pos rfl, OrderedDict.find?_erase_self]
    · rw [if_neg (Ne.symm same), OrderedDict.find?_erase_of_ne same]
      exact recorded other notPending

theorem touchAccess_pages (env : Env ρ) (key : String) (store : Store ρ) :
    (store.touchAccess env key).pages = store.pages ∧
      (store.touchAccess env key).history = store.history := by
  rcases touchAccess_cases env key store with ⟨_, same⟩ | ⟨info, _, touched⟩
  · rw [same]
    exact ⟨rfl, rfl⟩
  · rw [touched]
    exact ⟨rfl, rfl⟩

theorem get_spec (env : Env ρ) (key : String) (store : Store ρ) :
    (store.get env key).2 = store.pages.find? key ∧ (store.get env key).1.pages = store.pages ∧
      (store.get env key).1.history = store.history := by
  have touched := touchAccess_pages env key store
  unfold get
  split
  next data found => exact ⟨found.symm, touched⟩
  next missing => exact ⟨missing.symm, rfl, rfl⟩

theorem batchGet_spec (env : Env ρ) (keys : List String) (store : Store ρ) :
    (store.batchGet env keys).2 = keys.map store.pages.find? ∧
      (store.batchGet env keys).1.pages = store.pages ∧
      (store.batchGet env keys).1.history = store.history := by
  induction keys generalizing store with
  | nil => exact ⟨rfl, rfl, rfl⟩
  | cons key keys ih =>
    obtain ⟨data, pages, history⟩ := get_spec env key store
    obtain ⟨rest, restPages, restHistory⟩ := ih (store.get env key).1
    refine ⟨?_, restPages.trans pages, restHistory.trans history⟩
    rw [pages] at rest
    rw [List.map_cons, ← data, ← rest]
    rfl

theorem origin_of_index (consistent : Consistent env none store) (recorded : Recorded none store)
    (listed : (store.index.find? key).isSome) : ∃ v, origin key store.history = some v := by
  have sameSize := consistent.sizes key (by simp)
  have stored : (store.pages.find? key).isSome := by
    have known : (sizeIn store.index key).isSome := by
      rw [sizeIn, isSome_map]
      exact listed
    rw [sameSize, sizeOnDisk, isSome_map] at known
    exact known
  rw [recorded key (by simp)] at stored
  exact isSome_iff_exists.mp stored

theorem recorded_note_of_origin {v old : ρ} (recorded : Recorded none store)
    (known : origin key store.history = some old) : Recorded none (store.note key v) := by
  intro other notPending
  rw [note, origin]
  by_cases same : key = other
  · subst same
    rw [if_pos rfl, known, some_or]
    exact (recorded key notPending).trans known
  · rw [if_neg same]
    exact recorded other notPending

theorem recorded_flushIndex (recorded : Recorded pending store) :
    Recorded pending store.flushIndex := by
  obtain ⟨-, pages, history⟩ := flushIndex_eq store
  intro other notPending
  rw [pages, history]
  exact recorded other notPending

/-- A page is being added: it is in its file, and nothing is known of its key. -/
structure Adding (key : String) (value : ρ) (store : Store ρ) : Prop where
  recorded : Recorded (some key) store
  absent : sizeIn store.index key = none
  saved : store.pages.find? key = some value
  unknown : origin key store.history = none

theorem adding_evictOne {v : ρ} (adding : Adding key v store)
    (other : String) : Adding key v (store.evictOne other) := by
  obtain ⟨absent, saved⟩ := pages_evictOne adding.absent adding.saved other
  refine ⟨recorded_evictOne adding.recorded, absent, saved, ?_⟩
  rcases evictOne_cases other store with ⟨_, same⟩ | ⟨info, _, evicted⟩
  · rw [same]
    exact adding.unknown
  · rw [evicted]
    dsimp only
    rw [origin]
    split
    · rfl
    · exact adding.unknown

theorem adding_savePage {v : ρ} (consistent : Consistent env none store)
    (recorded : Recorded none store) (fresh : store.index.find? key = none) :
    Adding key v (store.savePage key v) := by
  have absent : sizeIn store.index key = none := by
    rw [sizeIn, fresh]
    rfl
  have missing : store.pages.find? key = none := by
    have sameSize := consistent.sizes key (by simp)
    rw [absent, sizeOnDisk] at sameSize
    exact map_eq_none_iff.mp sameSize.symm
  refine ⟨fun other notPending => ?_, absent, OrderedDict.find?_insert_self, ?_⟩
  · have ne : other ≠ key := fun same => notPending (same ▸ rfl)
    rw [savePage, OrderedDict.find?_insert_of_ne ne]
    exact recorded other (by simp)
  · exact (recorded key (by simp)).symm.trans missing

theorem recorded_addPage {v : ρ} (consistent : Consistent env none store)
    (recorded : Recorded none store) (fresh : store.index.find? key = none) :
    Recorded none ((store.addPage env key v).note key v) := by
  have room : Adding key v ((store.savePage key v).enforceBudget (env.fileSize v)) :=
    @enforceBudget_induction ρ _ (Adding key v) (fun _ other adding => adding_evictOne adding other)
      (adding_savePage consistent recorded fresh) _
  obtain ⟨-, pages, history⟩ := flushIndex_eq
    ((((store.savePage key v).enforceBudget (env.fileSize v)).addEntry env key
      (env.fileSize v)).markDirty)
  intro other _
  rw [note, origin]
  dsimp only
  rw [addPage, pages, history]
  dsimp only [addEntry, markDirty]
  by_cases same : key = other
  · subst same
    rw [if_pos rfl, room.unknown, room.saved]
    rfl
  · rw [if_neg same]
    exact room.recorded other fun pending => same (Option.some.inj pending)

end Store

/-- The store, with its files as in its history. -/
structure Faithful (env : Env ρ) (store : Store ρ) : Prop where
  consistent : Consistent env none store
  recorded : Recorded none store

theorem stable_faithful (env : Env ρ) : Stable env (Faithful env) where
  get := fun {store key} faithful => by
    obtain ⟨-, pages, history⟩ := Store.get_spec env key store
    refine ⟨?_, fun other notPending => ?_⟩
    · unfold Store.get
      split
      · exact Store.consistent_touchAccess faithful.consistent
      · exact faithful.consistent
    · rw [pages, history]
      exact faithful.recorded other notPending
  set := fun {store key v} faithful => by
    unfold Store.set
    split
    · exact faithful
    · split
      next v listed =>
        have touched : Consistent env none (store.touchAccess env key).flushIndex :=
          Store.consistent_flushIndex (Store.consistent_touchAccess faithful.consistent)
        obtain ⟨old, known⟩ := Store.origin_of_index faithful.consistent faithful.recorded listed
        obtain ⟨pages, history⟩ := Store.touchAccess_pages env key store
        obtain ⟨-, flushedPages, flushedHistory⟩ := Store.flushIndex_eq (store.touchAccess env key)
        have recorded : Recorded none (store.touchAccess env key).flushIndex := by
          intro other notPending
          rw [flushedPages, flushedHistory, pages, history]
          exact faithful.recorded other notPending
        rw [← history, ← flushedHistory] at known
        exact ⟨⟨touched.sizes, touched.absent, touched.total⟩,
          Store.recorded_note_of_origin recorded known⟩
      next v notListed =>
        have fresh := not_isSome_iff_eq_none.mp notListed
        have added : Consistent env none (store.addPage env key v) :=
          Store.consistent_addPage faithful.consistent fresh
        exact ⟨⟨added.sizes, added.absent, added.total⟩,
          Store.recorded_addPage faithful.consistent faithful.recorded fresh⟩
  flush := fun {store} faithful =>
    ⟨Store.consistent_flushIndex faithful.consistent, Store.recorded_flushIndex faithful.recorded⟩
  clear := fun {store} faithful => by
    have evicted : Faithful env (store.index.keys.foldl
        (fun store key => store.evictOne key) store) := by
      generalize store.index.keys = keys
      induction keys generalizing store with
      | nil => exact faithful
      | cons key keys ih =>
        exact ih ⟨Store.consistent_evictOne faithful.consistent,
          Store.recorded_evictOne faithful.recorded⟩
    exact ⟨Store.consistent_flushIndex evicted.consistent,
      Store.recorded_flushIndex evicted.recorded⟩

section Reads

variable {env : Env ρ} {api : PoolApi η ρ} {system : System η ρ}

end Reads

inductive PoolHitPolicy where
  | allPages
  | trailingPages
  deriving DecidableEq, Repr

/-- `PoolTransfer` with its `hit_policy`. -/
structure PoolQuery extends PoolTransfer where
  hitPolicy : PoolHitPolicy

/-- `max(1, len(transfer.keys) if transfer.keys else 1)`. -/
def PoolQuery.trailing (query : PoolQuery) : Nat :=
  max 1 (query.keys.getD []).length

namespace Store

variable {ρ : Type*} (store : Store ρ) (keys : List String)

/-- `exists`. -/
def keyExists (key : String) : Bool :=
  (store.index.find? key).isSome && (store.pages.find? key).isSome

/-- `has_component`. -/
def hasComponent (query : PoolQuery) (page : Nat) : Bool :=
  store.keyExists (componentKey (keys.getD page "") query.name)

/-- The components of the last `trailing` pages of a prefix are there. -/
def hasTrailing (query : PoolQuery) (prefixLen : Nat) : Bool :=
  ((List.range prefixLen).drop (prefixLen - query.trailing)).all (store.hasComponent keys query)

/-- The search for the longest prefix with its trailing pages. -/
def trailingBoundary (query : PoolQuery) : Nat → Nat
  | 0 => 0
  | prefixLen + 1 =>
    if store.hasTrailing keys query (prefixLen + 1) then prefixLen + 1
    else trailingBoundary query prefixLen

def boundary (kvPages : Nat) (query : PoolQuery) : Nat :=
  match query.hitPolicy with
  | .allPages => (List.range kvPages).findIdx fun page => !store.hasComponent keys query page
  | .trailingPages => store.trailingBoundary keys query kvPages

/-- The loop over the transfers. -/
def hitLoop (kvPages : Nat) : List PoolQuery → Nat → OrderedDict String Nat →
    Nat × OrderedDict String Nat
  | [], finalPages, hitCount => (finalPages, hitCount)
  | query :: rest, finalPages, hitCount =>
    if finalPages = 0 then (finalPages, hitCount)
    else
      let boundary := store.boundary keys kvPages query
      hitLoop kvPages rest (min finalPages boundary)
        (if boundary = 0 then hitCount else hitCount.insert query.name boundary)

def kvPages : Nat :=
  keys.findIdx fun key => !store.keyExists key

/-- `batch_exists_v2`: `kv_hit_pages` and the hits of the pools. -/
def batchExistsV2 (queries : List PoolQuery) : Nat × OrderedDict String Nat :=
  let kvPages := store.kvPages keys
  store.hitLoop keys kvPages queries kvPages
    (if kvPages = 0 then OrderedDict.empty else OrderedDict.empty.insert "kv" kvPages)

/-- A pool has the pages that its policy asks for in a prefix. -/
def Suits (query : PoolQuery) (pages : Nat) : Prop :=
  match query.hitPolicy with
  | .allPages => ∀ page < pages, store.hasComponent keys query page = true
  | .trailingPages => store.hasTrailing keys query pages = true

/-- The prefix suits all pools. -/
def Usable (queries : List PoolQuery) (pages : Nat) : Prop :=
  (∀ key ∈ keys.take pages, store.keyExists key = true) ∧
    ∀ query ∈ queries, store.Suits keys query pages

variable {store keys} {query : PoolQuery}

theorem trailingBoundary_spec (n : Nat) :
    store.trailingBoundary keys query n ≤ n ∧
      store.hasTrailing keys query (store.trailingBoundary keys query n) = true := by
  induction n with
  | zero => simp [trailingBoundary, hasTrailing]
  | succ n ih =>
    rw [trailingBoundary]
    split
    next has => exact ⟨le_rfl, has⟩
    next => exact ⟨ih.1.trans n.le_succ, ih.2⟩

theorem le_trailingBoundary {n pages : Nat} (le : pages ≤ n)
    (has : store.hasTrailing keys query pages = true) :
    pages ≤ store.trailingBoundary keys query n := by
  induction n with
  | zero => exact le
  | succ n ih =>
    rw [trailingBoundary]
    split
    next => exact le
    next lacks =>
      refine ih (Nat.le_of_lt_succ (le.lt_of_ne ?_))
      rintro rfl
      exact lacks has

/-- The boundary of a pool is the longest prefix that suits it. -/
theorem isGreatest_boundary (n : Nat) :
    IsGreatest { pages | pages ≤ n ∧ store.Suits keys query pages }
      (store.boundary keys n query) := by
  unfold boundary Suits
  cases query.hitPolicy with
  | allPages =>
    dsimp only
    have le := @List.findIdx_le_length _ (fun page => !store.hasComponent keys query page)
      (List.range n)
    rw [List.length_range] at le
    refine ⟨⟨le, fun page lt => by simpa using List.not_of_lt_findIdx lt⟩, ?_⟩
    rintro pages ⟨le, has⟩
    by_contra beyond
    have lt := Nat.lt_of_not_le beyond
    have missing := List.findIdx_getElem (w := (lt.trans_le le).trans_eq List.length_range.symm)
    rw [List.getElem_range, has _ lt] at missing
    cases missing
  | trailingPages =>
    exact ⟨trailingBoundary_spec n, fun pages suits => le_trailingBoundary suits.1 suits.2⟩

theorem hitLoop_le {kvPages finalPages : Nat} {queries : List PoolQuery}
    {hitCount : OrderedDict String Nat} :
    let pages := (store.hitLoop keys kvPages queries finalPages hitCount).1
    pages ≤ finalPages ∧
      (pages = 0 ∨ ∀ query ∈ queries, pages ≤ store.boundary keys kvPages query) := by
  induction queries generalizing finalPages hitCount with
  | nil => exact ⟨Nat.le_refl _, .inr fun _ mem => nomatch mem⟩
  | cons query rest ih =>
    rw [hitLoop]
    split
    next nothing => exact ⟨Nat.le_refl _, .inl nothing⟩
    next =>
      obtain ⟨le, bounded⟩ := @ih (min finalPages (store.boundary keys kvPages query)) _
      refine ⟨le.trans (Nat.min_le_left _ _), bounded.imp_right fun bounded => ?_⟩
      exact List.forall_mem_cons.mpr ⟨le.trans (Nat.min_le_right _ _), bounded⟩

theorem le_hitLoop {kvPages finalPages pages : Nat} {queries : List PoolQuery}
    {hitCount : OrderedDict String Nat} (le : pages ≤ finalPages)
    (within : ∀ query ∈ queries, pages ≤ store.boundary keys kvPages query) :
    pages ≤ (store.hitLoop keys kvPages queries finalPages hitCount).1 := by
  induction queries generalizing finalPages hitCount with
  | nil => exact le
  | cons query rest ih =>
    rw [hitLoop]
    split
    next => exact le
    next =>
      obtain ⟨here, within⟩ := List.forall_mem_cons.mp within
      exact ih (Nat.le_min.mpr ⟨le, here⟩) within

theorem hitLoop_attained {kvPages finalPages : Nat} {queries : List PoolQuery}
    {hitCount : OrderedDict String Nat} :
    let pages := (store.hitLoop keys kvPages queries finalPages hitCount).1
    pages = finalPages ∨ ∃ query ∈ queries, pages = store.boundary keys kvPages query := by
  induction queries generalizing finalPages hitCount with
  | nil => exact .inl rfl
  | cons query rest ih =>
    rw [hitLoop]
    split
    next => exact .inl rfl
    next =>
      rcases @ih (min finalPages (store.boundary keys kvPages query)) _ with here | later
      · rcases Nat.le_total finalPages (store.boundary keys kvPages query) with le | le
        · exact .inl (here.trans (Nat.min_eq_left le))
        · exact .inr ⟨query, List.mem_cons_self, here.trans (Nat.min_eq_right le)⟩
      · obtain ⟨other, mem, same⟩ := later
        exact .inr ⟨other, List.mem_cons_of_mem _ mem, same⟩

/-- The result is usable exactly when some prefix of the stored pages suits all pools and is
the longest one for the keys or for one of the pools. -/
theorem batchExistsV2_usable_iff (store : Store ρ) (keys : List String) (queries : List PoolQuery) :
    store.Usable keys queries (store.batchExistsV2 keys queries).1 ↔
      ∃ pages ≤ store.kvPages keys, (∀ query ∈ queries, store.Suits keys query pages) ∧
        (pages = store.kvPages keys ∨ ∃ query ∈ queries, ∀ more ≤ store.kvPages keys,
          store.Suits keys query more → more ≤ pages) := by
  have greatest (query : PoolQuery) :=
    @isGreatest_boundary _ store keys query (store.kvPages keys)
  constructor
  · rintro ⟨-, suits⟩
    refine ⟨_, hitLoop_le.1, suits, ?_⟩
    rcases hitLoop_attained with all | ⟨query, mem, same⟩
    · exact .inl all
    · refine .inr ⟨query, mem, fun more le suitsMore => ?_⟩
      exact ((greatest query).2 ⟨le, suitsMore⟩).trans_eq same.symm
  · rintro ⟨pages, le, suits, tight⟩
    have atLeast : pages ≤ (store.batchExistsV2 keys queries).1 :=
      le_hitLoop le fun query mem => (greatest query).2 ⟨le, suits query mem⟩
    have atMost : (store.batchExistsV2 keys queries).1 ≤ pages := by
      rcases tight with all | ⟨query, mem, longest⟩
      · exact hitLoop_le.1.trans_eq all.symm
      · rcases hitLoop_le.2 with nothing | bounded
        · exact nothing.trans_le (Nat.zero_le _)
        · exact (bounded query mem).trans (longest _ (greatest query).1.1 (greatest query).1.2)
    rw [Nat.le_antisymm atMost atLeast]
    refine ⟨fun key mem => ?_, suits⟩
    obtain ⟨page, lt, rfl⟩ := List.mem_take_iff_getElem.mp mem
    simpa using List.not_of_lt_findIdx ((Nat.lt_min.mp lt).1.trans_le le)

/-- Two pages; one pool has its component of the first, the other of the second. -/
def twoPools : Store Nat where
  maxDiskBytes := 0
  index := ⟨[("a", ⟨1, 0⟩), ("b", ⟨1, 0⟩), ("b.swa", ⟨1, 0⟩), ("a.dsa", ⟨1, 0⟩)], by decide⟩
  totalBytes := 4
  dirty := false
  pages := ⟨[("a", 0), ("b", 0), ("b.swa", 0), ("a.dsa", 0)], by decide⟩
  indexFile := none
  tick := 0
  history := []

/-- The second pool leaves one page, for which the first has nothing. -/
theorem twoPools_not_usable :
    let queries := [⟨⟨"swa", none, none⟩, .trailingPages⟩, ⟨⟨"dsa", none, none⟩, .allPages⟩]
    (twoPools.batchExistsV2 ["a", "b"] queries).1 = 1 ∧
      ¬ twoPools.Usable ["a", "b"] queries 1 := by
  refine ⟨by decide +kernel, fun usable => ?_⟩
  have trailing : twoPools.hasTrailing ["a", "b"]
      ⟨⟨"swa", none, none⟩, .trailingPages⟩ 1 = true := usable.2 _ List.mem_cons_self
  exact absurd trailing (by decide +kernel)

end Store

/-- After any operations on a directory that was empty, all pages that a lookup counts are read
back, as their histories have them. -/
theorem hits_readBack (env : Env ρ) (api : PoolApi η ρ) (maxDiskBytes : Int) (host : η)
    (ops : List (Op η ρ)) (keys : List String) (queries : List PoolQuery) :
    let store := (System.run env api ops ⟨Store.fresh maxDiskBytes, host⟩).store
    let found := keys.take (store.batchExistsV2 keys queries).1
    let reads := (store.batchGet env found).2
    reads = found.map (origin · store.history) ∧ none ∉ reads := by
  intro store found reads
  have faithful : Faithful env store :=
    (stable_faithful env).run api ⟨(indexed_fresh env maxDiskBytes).consistent, fun _ _ => rfl⟩ ops
  have read : reads = found.map store.pages.find? := (store.batchGet_spec env found).1
  refine ⟨read.trans (List.map_congr_left fun key _ => faithful.recorded key nofun), ?_⟩
  rw [read]
  intro missing
  obtain ⟨key, mem, absent⟩ := List.mem_map.mp missing
  obtain ⟨page, lt, rfl⟩ := List.mem_take_iff_getElem.mp mem
  have exist := List.not_of_lt_findIdx ((Nat.lt_min.mp lt).1.trans_le Store.hitLoop_le.1)
  simp [Store.keyExists, absent] at exist

end LnaLang.DiskOffload
