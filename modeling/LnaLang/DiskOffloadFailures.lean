import LnaLang.DiskOffloadIndex

/-!
# Failures of the disk tier

Removing a victim is the only file-system call of `set` whose error is dropped.  Every other
error makes `set` of a new page return `False`, but what it has changed until then stays.

A backend that cannot parse `index.json` makes a new index from the names in the page
directory.  The pages of keys with a `/` lie in directories below it and are not found, and a
backend without the file does not even look.
-/

namespace LnaLang.DiskOffload

open List

/-- How `torch.save` raises: the file could not be opened, or is left incomplete. -/
inductive SaveFault where
  | opening
  | writing
  deriving DecidableEq

/-- Which calls of a `set` raise; writing and replacing the index are one. -/
structure Faults where
  makedirs : Bool
  save : Option SaveFault
  getsize : Bool
  remove : String → Bool
  saveIndex : Bool

variable {ρ : Type*}

namespace Store

/-- `_evict_one`; a file that cannot be removed stays. -/
def evictOneWith (faults : Faults) (store : Store ρ) (key : String) : Store ρ :=
  if faults.remove key then { store.evictOne key with pages := store.pages }
  else store.evictOne key

/-- `_enforce_budget`. -/
def enforceBudgetWith (faults : Faults) (neededBytes : Nat) (store : Store ρ) : Store ρ :=
  if store.maxDiskBytes ≤ 0 then store
  else store.evictable.foldl (fun store key =>
    if store.totalBytes ≤ store.maxDiskBytes - neededBytes then store
    else store.evictOneWith faults key) store

/-- `set`; there is no result when it raises itself. -/
def setWith (env : Env ρ) (faults : Faults) (key : String) (value : Option ρ) (store : Store ρ) :
    Store ρ × Option Bool :=
  match value with
  | none => (store, some false)
  | some page =>
    if (store.index.find? key).isSome then
      let touched := store.touchAccess env key
      if faults.saveIndex && touched.dirty then (touched, none)
      else (touched.flushIndex, some true)
    else if faults.makedirs then (store, some false)
    else
      match faults.save with
      | some .opening => (store, some false)
      | some .writing => ({ store with pages := store.pages.erase key }, some false)
      | none =>
        let saved := store.savePage key page
        if faults.getsize then (saved, some false)
        else
          let added := ((saved.enforceBudgetWith faults (env.fileSize page)).addEntry env key
            (env.fileSize page)).markDirty
          if faults.saveIndex then (added, some false) else (added.flushIndex, some true)

/-- The index, the total and the complete page files are those from before. -/
def SameAs (after before : Store ρ) : Prop :=
  after.index = before.index ∧ after.totalBytes = before.totalBytes ∧
    ∀ key, after.pages.find? key = before.pages.find? key

/-- The errors behind which a `set` of a new page leaves nothing changed. -/
def Traceless (faults : Faults) (key : String) (page : ρ) (store : Store ρ) : Prop :=
  faults.makedirs = true ∨
    match faults.save with
    | some .opening => True
    | some .writing => store.pages.find? key = none
    | none => if faults.getsize then store.pages.find? key = some page else faults.saveIndex = false

variable {env : Env ρ} {faults : Faults} {key : String} {page : ρ} {store : Store ρ}

theorem sameAs_erase : SameAs { store with pages := store.pages.erase key } store ↔
    store.pages.find? key = none := by
  constructor
  · intro same
    exact (same.2.2 key).symm.trans OrderedDict.find?_erase_self
  · intro absent
    refine ⟨rfl, rfl, fun other => ?_⟩
    by_cases isKey : other = key
    · rw [isKey, absent]
      exact OrderedDict.find?_erase_self
    · exact OrderedDict.find?_erase_of_ne isKey

theorem sameAs_savePage : SameAs (store.savePage key page) store ↔
    store.pages.find? key = some page := by
  constructor
  · intro same
    exact (same.2.2 key).symm.trans OrderedDict.find?_insert_self
  · intro present
    refine ⟨rfl, rfl, fun other => ?_⟩
    by_cases isKey : other = key
    · rw [isKey, present]
      exact OrderedDict.find?_insert_self
    · exact OrderedDict.find?_insert_of_ne isKey

/-- A `set` of a new page that returns `False` leaves no trace exactly behind some errors. -/
theorem setWith_new_iff (fresh : store.index.find? key = none) :
    ((store.setWith env faults key (some page)).2 = some false →
        SameAs (store.setWith env faults key (some page)).1 store) ↔
      Traceless faults key page store := by
  have same : SameAs store store := ⟨rfl, rfl, fun _ => rfl⟩
  unfold setWith Traceless
  simp only [fresh, Option.isSome_none, Bool.false_eq_true, if_false]
  cases faults.makedirs with
  | true => simp [same]
  | false =>
    simp only [Bool.false_eq_true, if_false, false_or]
    cases faults.save with
    | some fault =>
      cases fault with
      | opening => simp [same]
      | writing => simpa using sameAs_erase
    | none =>
      cases faults.getsize with
      | true => simpa using sameAs_savePage
      | false =>
        cases faults.saveIndex with
        | false => simp
        | true =>
          -- The index has the new key already.
          simp only [Bool.false_eq_true, if_false, if_true, forall_const, reduceCtorEq, iff_false]
          intro same
          have added := congrArg (fun i => i.find? key) same.1
          rw [fresh] at added
          exact absurd (added.symm.trans OrderedDict.find?_insert_self) (by simp)

/-- A `set` that returns `False` leaves no trace, whatever it is given, exactly when it is no
`set` of a new page behind another error. -/
theorem failed_set_traceless_iff (env : Env ρ) (faults : Faults) (key : String)
    (value : Option ρ) (store : Store ρ) :
    ((store.setWith env faults key value).2 = some false →
        SameAs (store.setWith env faults key value).1 store) ↔
      ∀ page, value = some page → store.index.find? key = none →
        Traceless faults key page store := by
  cases value with
  | none => simp [setWith, SameAs]
  | some page =>
    cases known : store.index.find? key with
    | none => simpa [known] using @setWith_new_iff _ env faults key page store known
    | some info =>
      simp only [setWith, known, Option.isSome_some, if_true, reduceCtorEq, false_imp_iff,
        imp_true_iff, iff_true]
      split
      · simp
      · simp

/-- A page whose size cannot be read stays on disk without an entry. -/
theorem failed_getsize_leaves_page :
    let after := (Store.fresh 1048576).setWith (⟨id, id⟩ : Env Nat)
      ⟨false, none, true, fun _ => false, false⟩ "page" (some 100)
    after.2 = some false ∧ after.1.pages.find? "page" = some 100 ∧ after.1.index.keys = [] := by
  decide +kernel

end Store

/-- What `json.load` makes of the bytes of `index.json`: a dictionary with pages and a total,
`JSONDecodeError`, or what is not caught (another exception such as `UnicodeDecodeError` or
`RecursionError`, or a value without them, whose use raises). -/
inductive JsonLoad where
  | data (pages : OrderedDict String Entry) (totalBytes : Int)
  | decodeError
  | uncaught

/-- `_page_path`, from the page directory on. -/
def pagePath (key : String) : String :=
  key ++ ".pt"

/-- The key of a file name of the page directory. -/
def keyOfName (name : String) : Option String :=
  if ".pt".toList.isSuffixOf name.toList then
    some (String.ofList (name.toList.take (name.toList.length - 3)))
  else none

/-- Pages that have been stored, and the names and sizes in the page directory.  The pages of
keys without a `/` lie in it themselves, the others leave directories or nothing there. -/
structure PageDir (env : Env ρ) where
  pages : OrderedDict String ρ
  listing : List (String × Nat)
  distinct : (listing.map Prod.fst).Nodup
  plain : ∀ item ∈ listing, '/' ∉ item.1.toList
  listed : (∀ key ∈ pages.keys, '/' ∉ key.toList) →
    listing.Perm (pages.entries.map fun item => (pagePath item.1, env.fileSize item.2))

/-- `_rebuild_index`. -/
def rebuildIndex (mtime : String → Nat) (listing : List (String × Nat)) :
    OrderedDict String Entry × Int :=
  listing.foldl (fun (index, total) (name, size) =>
    match keyOfName name with
    | none => (index, total)
    | some key => (index.insert key ⟨size, mtime name⟩, total + size)) (OrderedDict.empty, 0)

variable {env : Env ρ}

/-- `_load_index` of a file that may be missing. -/
def PageDir.loadIndex (dir : PageDir env) (mtime : String → Nat)
    (jsonLoad : List UInt8 → JsonLoad) :
    Option (List UInt8) → Option (OrderedDict String Entry × Int)
  | none => some (OrderedDict.empty, 0)
  | some bytes =>
    match jsonLoad bytes with
    | .data pages totalBytes => some (pages, totalBytes)
    | .decodeError => some (rebuildIndex mtime dir.listing)
    | .uncaught => none

/-- The loaded index has the stored pages with their sizes and the sum of these. -/
def PageDir.Recovered (dir : PageDir env) (loaded : Option (OrderedDict String Entry × Int)) :
    Prop :=
  ∃ index total, loaded = some (index, total) ∧
    (∀ key, sizeIn index key = sizeOnDisk env dir.pages key) ∧
    total = dir.pages.total env.fileSize

theorem keyOfName_eq_some_iff {name key : String} :
    keyOfName name = some key ↔ name = pagePath key := by
  have text (key : String) : (pagePath key).toList = key.toList ++ ".pt".toList :=
    String.toList_append
  have kept (key : List Char) : (key ++ ".pt".toList).take ((key ++ ".pt".toList).length - 3) =
      key := by
    rw [length_append]
    exact take_left' rfl
  unfold keyOfName
  constructor
  · intro named
    obtain ⟨isPage, named⟩ := Option.ite_none_right_eq_some.mp named
    obtain ⟨before, same⟩ := isSuffixOf_iff_suffix.mp isPage
    rw [← same, kept] at named
    cases named
    rw [← String.toList_inj, text, String.toList_ofList, same]
  · rintro rfl
    rw [text, if_pos (isSuffixOf_iff_suffix.mpr (suffix_append _ _)), kept, String.ofList_toList]

theorem pagePath_injective : Function.Injective pagePath := by
  intro first second same
  have named := keyOfName_eq_some_iff.mpr same
  rw [keyOfName_eq_some_iff.mpr rfl] at named
  exact Option.some.inj named

/-- The names of pages are read back, with their sizes. -/
theorem rebuildIndex_spec (mtime : String → Nat) {listing : List (String × Nat)}
    (distinct : (listing.map Prod.fst).Nodup) :
    (∀ key size, sizeIn (rebuildIndex mtime listing).1 key = some size ↔
        (pagePath key, size) ∈ listing) ∧
      ((∀ item ∈ listing, ∃ key, item.1 = pagePath key) →
        (rebuildIndex mtime listing).2 = (listing.map Prod.snd).sum) := by
  induction listing using reverseRecOn with
  | nil => exact ⟨fun key size => iff_of_false nofun not_mem_nil, fun _ => rfl⟩
  | append_singleton listing item ih =>
    rw [map_append, nodup_append] at distinct
    obtain ⟨found, total⟩ := ih distinct.1
    have step : rebuildIndex mtime (listing ++ [item]) =
        match keyOfName item.1 with
        | none => rebuildIndex mtime listing
        | some key => ((rebuildIndex mtime listing).1.insert key ⟨item.2, mtime item.1⟩,
            (rebuildIndex mtime listing).2 + item.2) := by
      rw [rebuildIndex, foldl_append]
      rfl
    rw [step]
    refine ⟨fun key size => ?_, fun isPage => ?_⟩
    · rw [mem_append, mem_singleton, Prod.ext_iff, eq_comm (a := pagePath key),
        ← keyOfName_eq_some_iff]
      cases named : keyOfName item.1 with
      | none => simp [found]
      | some other =>
        by_cases same : key = other
        · subst same
          have new : (pagePath key, size) ∉ listing := fun mem =>
            distinct.2.2 _ (mem_map_of_mem mem) _ (mem_singleton_self _)
              (keyOfName_eq_some_iff.mp named).symm
          rw [sizeIn_insert_self]
          simp [new, eq_comm]
        · rw [sizeIn_insert_of_ne same, found]
          simp [Ne.symm same]
    · obtain ⟨other, isOther⟩ := isPage item (by simp)
      rw [keyOfName_eq_some_iff.mpr isOther, map_append, sum_append]
      simp [total fun item mem => isPage item (mem_append_left _ mem)]

theorem PageDir.recovered_of_plain (dir : PageDir env) (mtime : String → Nat)
    (plain : ∀ key ∈ dir.pages.keys, '/' ∉ key.toList) :
    dir.Recovered (some (rebuildIndex mtime dir.listing)) := by
  have listed := dir.listed plain
  obtain ⟨found, total⟩ := rebuildIndex_spec mtime dir.distinct
  refine ⟨(rebuildIndex mtime dir.listing).1, _, rfl, fun key => Option.ext fun size => ?_, ?_⟩
  · have pages := @OrderedDict.mem_sizes_iff _ _ _ dir.pages env.fileSize (key, size)
    rw [found, listed.mem_iff, sizeOnDisk, ← pages, mem_map, mem_map]
    simp [Prod.ext_iff, pagePath_injective.eq_iff]
  · change (rebuildIndex mtime dir.listing).2 = _
    rw [total fun item mem => ?_, (listed.map Prod.snd).sum_nat, map_map]
    · rfl
    · obtain ⟨page, _, rfl⟩ := mem_map.mp (listed.mem_iff.mp mem)
      exact ⟨page.1, rfl⟩

theorem PageDir.plain_of_recovered (dir : PageDir env) (mtime : String → Nat)
    (recovered : dir.Recovered (some (rebuildIndex mtime dir.listing))) :
    ∀ key ∈ dir.pages.keys, '/' ∉ key.toList := by
  intro key member slash
  obtain ⟨index, total, isIndex, sizes, _⟩ := recovered
  have rebuilt : (rebuildIndex mtime dir.listing).1 = index :=
    congrArg Prod.fst (Option.some.inj isIndex)
  rw [@mem_keys_iff_sizeOnDisk _ env, ← sizes, ← rebuilt] at member
  obtain ⟨size, known⟩ := Option.isSome_iff_exists.mp member
  refine dir.plain _ (((rebuildIndex_spec mtime dir.distinct).1 key size).mp known) ?_
  rw [show (pagePath key).toList = _ from String.toList_append]
  exact mem_append_left _ slash

theorem PageDir.recovered_empty_iff (dir : PageDir env) :
    dir.Recovered (some (OrderedDict.empty, 0)) ↔ dir.pages.keys = [] := by
  constructor
  · rintro ⟨index, total, isEmpty, sizes, _⟩
    cases isEmpty
    refine eq_nil_iff_forall_not_mem.mpr fun key member => ?_
    rw [@mem_keys_iff_sizeOnDisk _ env, ← sizes] at member
    cases member
  · intro nothing
    have noEntries : dir.pages = OrderedDict.empty := OrderedDict.ext (map_eq_nil_iff.mp nothing)
    refine ⟨_, _, rfl, fun key => ?_, ?_⟩ <;> rw [noEntries] <;> rfl

/-- The index comes back exactly when there is no file and nothing has been stored, when
`json.load` raises `JSONDecodeError` and no stored key has a `/`, or when the dictionary that
it returns is right. -/
theorem lost_index_recovered_iff (dir : PageDir env) (mtime : String → Nat)
    (jsonLoad : List UInt8 → JsonLoad) (file : Option (List UInt8)) :
    dir.Recovered (dir.loadIndex mtime jsonLoad file) ↔
      (file = none ∧ dir.pages.keys = []) ∨
        ∃ bytes, file = some bytes ∧
          ((jsonLoad bytes = .decodeError ∧ ∀ key ∈ dir.pages.keys, '/' ∉ key.toList) ∨
            ∃ pages totalBytes, jsonLoad bytes = .data pages totalBytes ∧
              (∀ key, sizeIn pages key = sizeOnDisk env dir.pages key) ∧
              totalBytes = dir.pages.total env.fileSize) := by
  cases file with
  | none => simp [PageDir.loadIndex, dir.recovered_empty_iff]
  | some bytes =>
    cases loaded : jsonLoad bytes with
    | data pages totalBytes => simp [PageDir.loadIndex, loaded, PageDir.Recovered]
    | uncaught => simp [PageDir.loadIndex, loaded, PageDir.Recovered]
    | decodeError =>
      have rebuilt : dir.Recovered (some (rebuildIndex mtime dir.listing)) ↔
          ∀ key ∈ dir.pages.keys, '/' ∉ key.toList :=
        ⟨dir.plain_of_recovered mtime, dir.recovered_of_plain mtime⟩
      simp [PageDir.loadIndex, loaded, rebuilt]

/-- One page under a plain key. -/
def onePageDir : PageDir (⟨id, id⟩ : Env Nat) where
  pages := OrderedDict.empty.insert "page" 100
  listing := [("page.pt", 100)]
  distinct := by simp
  plain := by simp
  listed := fun _ => .refl _

/-- Without `index.json` the page is forgotten. -/
theorem missing_index_not_recovered :
    ¬ onePageDir.Recovered (onePageDir.loadIndex (fun _ => 0) (fun _ => .decodeError) none) := by
  rintro ⟨index, total, isEmpty, sizes, _⟩
  cases isEmpty
  exact absurd (sizes "page") (by decide +kernel)

end LnaLang.DiskOffload
