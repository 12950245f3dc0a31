import LnaLang.OrderedDict
import LnaLang.ToolHeapPut

/-!
# The tool memory is a bounded map

The memory with its pointers and a map that forgets what was used least recently, side by
side: the entries of the recency list are the keys of the map in their order, with the
values that the map has.  Every operation does to one what it does to the other.
-/

namespace LnaLang.Chat

open ListNeighbors Option

/-- What the keys and the different values of a map take in the memory. -/
def lruBytes (map : LruMap Bytes Bytes) : Nat :=
  (map.recency.map entryBytes).sum +
    ∑ dsml ∈ (map.recency.filterMap map.contents).toFinset, blockBytes dsml

/-- A map has more keys or takes more bytes than it may. -/
def beyond (maxEntries maxBytes : Nat) (map : LruMap Bytes Bytes) : Bool :=
  maxEntries < map.recency.length || maxBytes < lruBytes map

namespace ToolHeap.Operation

def puts : Operation → List (Bytes × Bytes)
  | put id dsml _ => [(id, dsml)].filter fun pair => pair.1 ≠ [] ∧ pair.2 ≠ []
  | remember calls =>
    (calls.list.map fun call => (call.id.getD [], calls.rawDsml.getD [])).filter fun pair =>
      pair.1 ≠ [] ∧ pair.2 ≠ []
  | lookup _ => []
  | prune => []

/-- An operation on a map within bounds, with the value that a lookup returns. -/
def onMap (exceeds : LruMap Bytes Bytes → Bool) (map : LruMap Bytes Bytes)
    (operation : Operation) : LruMap Bytes Bytes × List (Option Bytes) :=
  match operation with
  | lookup id => (map.use id, [map.contents id])
  | prune => (map.evict exceeds, [])
  | put _ _ _ | remember _ =>
    (operation.puts.foldl (fun map pair => map.put exceeds pair.1 pair.2) map, [])

def runOnMap (exceeds : LruMap Bytes Bytes → Bool) :
    List Operation → LruMap Bytes Bytes → LruMap Bytes Bytes × List (Option Bytes)
  | [], map => (map, [])
  | operation :: operations, map =>
    let (map, answer) := operation.onMap exceeds map
    let (map, answers) := runOnMap exceeds operations map
    (map, answer ++ answers)

def lastPut (operations : List Operation) (id : Bytes) : Option Bytes :=
  ((operations.flatMap puts).reverse.find? fun pair => pair.1 = id).map Prod.snd

end ToolHeap.Operation

section History

variable {exceeds : LruMap Bytes Bytes → Bool} {map : LruMap Bytes Bytes}
  {puts : List (Bytes × Bytes)}

/-- A map has, of some puts, only what was put last. -/
def KeepsLast (puts : List (Bytes × Bytes)) (map : LruMap Bytes Bytes) : Prop :=
  ∀ id, map.contents id = none ∨
    map.contents id = (puts.reverse.find? fun pair => pair.1 = id).map Prod.snd

variable (keeps : KeepsLast puts map)

include keeps

theorem KeepsLast.evict (exceeds : LruMap Bytes Bytes → Bool) :
    KeepsLast puts (map.evict exceeds) := by
  intro id
  rcases LruMap.contents_evict exceeds map id with none | same
  · exact Or.inl none
  · rw [same]
    exact keeps id

theorem KeepsLast.put (exceeds : LruMap Bytes Bytes → Bool)
    (pair : Bytes × Bytes) : KeepsLast (puts ++ [pair]) (map.put exceeds pair.1 pair.2) := by
  apply KeepsLast.evict
  intro id
  rw [List.reverse_append, List.reverse_singleton, List.singleton_append, List.find?_cons]
  by_cases same : id = pair.1
  · subst same
    right
    rw [decide_eq_true rfl]
    exact Function.update_self _ _ _
  · rw [decide_eq_false (Ne.symm same)]
    have unchanged : (map.set pair.1 pair.2).contents id = map.contents id :=
      Function.update_of_ne same _ _
    rw [unchanged]
    exact keeps id

theorem KeepsLast.foldl (more : List (Bytes × Bytes)) :
    KeepsLast (puts ++ more) (more.foldl (fun map pair => map.put exceeds pair.1 pair.2) map) := by
  induction more generalizing puts map with
  | nil =>
    rw [List.append_nil]
    exact keeps
  | cons pair more ih =>
    have step := ih (keeps.put exceeds pair)
    rw [List.append_assoc] at step
    exact step

open ToolHeap.Operation in
theorem KeepsLast.runOnMap (operations : List ToolHeap.Operation) :
    KeepsLast (puts ++ operations.flatMap ToolHeap.Operation.puts)
      (runOnMap exceeds operations map).1 := by
  induction operations generalizing puts map with
  | nil =>
    rw [List.flatMap_nil, List.append_nil]
    exact keeps
  | cons op operations ih =>
    have step : KeepsLast (puts ++ op.puts) (op.onMap exceeds map).1 := by
      cases op with
      | lookup id =>
        intro other
        rw [ToolHeap.Operation.puts, List.append_nil]
        change (map.use id).contents other = none ∨ (map.use id).contents other = _
        rw [LruMap.contents_use]
        exact keeps other
      | prune =>
        rw [ToolHeap.Operation.puts, List.append_nil]
        exact keeps.evict exceeds
      | put id dsml source => exact keeps.foldl _
      | remember calls => exact keeps.foldl _
    rw [List.flatMap_cons, ← List.append_assoc]
    exact ih step

end History

section Bounds

variable {maxEntries maxBytes : Nat} {map : LruMap Bytes Bytes}

theorem beyond_evict (maxEntries maxBytes : Nat) (map : LruMap Bytes Bytes) :
    beyond maxEntries maxBytes (map.evict (beyond maxEntries maxBytes)) = false := by
  rcases LruMap.evict_within (beyond maxEntries maxBytes) map with within | none
  · exact within
  · rw [beyond, lruBytes, none]
    simp

theorem beyond_use (maxEntries maxBytes : Nat) (map : LruMap Bytes Bytes) (id : Bytes) :
    beyond maxEntries maxBytes (map.use id) = beyond maxEntries maxBytes map := by
  have perm : (map.use id).recency.Perm map.recency := by
    apply (List.perm_ext_iff_of_nodup (map.use id).nodup map.nodup).mpr
    intro key
    rw [LruMap.mem_recency, LruMap.mem_recency, LruMap.contents_use]
  rw [beyond, beyond, lruBytes, lruBytes, perm.length_eq, (perm.map _).sum_eq,
    LruMap.contents_use, List.toFinset_eq_of_perm _ _ (perm.filterMap _)]

theorem beyond_foldl (within : beyond maxEntries maxBytes map = false)
    (puts : List (Bytes × Bytes)) :
    beyond maxEntries maxBytes (puts.foldl (fun map pair =>
      map.put (beyond maxEntries maxBytes) pair.1 pair.2) map) = false := by
  induction puts generalizing map with
  | nil => exact within
  | cons pair puts ih => exact ih (beyond_evict maxEntries maxBytes _)

theorem beyond_onMap (within : beyond maxEntries maxBytes map = false) (op : ToolHeap.Operation) :
    beyond maxEntries maxBytes (op.onMap (beyond maxEntries maxBytes) map).1 = false := by
  cases op with
  | lookup id => exact (beyond_use maxEntries maxBytes map id).trans within
  | prune => exact beyond_evict maxEntries maxBytes map
  | put id dsml source => exact beyond_foldl within _
  | remember calls => exact beyond_foldl within _

end Bounds

namespace ToolHeap

variable {m : ToolHeap} {recent : List Nat} {lists : Nat → List Nat} {e : Nat}
  {map : LruMap Bytes Bytes}

/-- The entries in the order of their last use are those of the map. -/
structure Represents (m : ToolHeap) (recent : List Nat) (map : LruMap Bytes Bytes) :
    Prop where
  ids : (recent.map fun a => (m.pair a).map Prod.fst) = map.recency.map some
  texts : ∀ a ∈ recent, ∀ id dsml, m.pair a = some (id, dsml) →
    map.contents id = some dsml

variable (represents : m.Represents recent map)

include represents

theorem Represents.congr {next : ToolHeap}
    (same : ∀ a ∈ recent, next.pair a = m.pair a) : next.Represents recent map := by
  constructor
  · rw [← represents.ids]
    exact List.map_congr_left fun a mem => by rw [same a mem]
  · intro a mem id dsml isPair
    exact represents.texts a mem id dsml ((same a mem).symm.trans isPair)

theorem Represents.nodup_ids : (recent.map fun a => (m.pair a).map Prod.fst).Nodup := by
  rw [represents.ids]
  exact map.nodup.map (some_injective _)

theorem Represents.remove (mem : e ∈ recent)
    {id dsml : Bytes} (isPair : m.pair e = some (id, dsml)) (nodup : recent.Nodup) :
    m.Represents (recent.erase e) (map.remove id) := by
  constructor
  · rw [ListNeighbors.map_erase represents.nodup_ids mem, represents.ids, isPair,
      LruMap.recency_remove, List.map_erase (some_injective _)]
    rfl
  · intro a inRest other otherText isOther
    obtain ⟨ne, inRecent⟩ := nodup.mem_erase_iff.mp inRest
    have otherId : other ≠ id := by
      rintro rfl
      have injective := List.inj_on_of_nodup_map represents.nodup_ids
      exact ne (injective inRecent mem (by rw [isOther, isPair]; rfl))
    exact (Function.update_of_ne otherId _ _).trans
      (represents.texts a inRecent other otherText isOther)

theorem Represents.cons {id dsml : Bytes}
    (isNew : id ∉ map.recency) (isPair : m.pair e = some (id, dsml)) :
    m.Represents (e :: recent) (map.set id dsml) := by
  constructor
  · rw [LruMap.recency_set_of_notMem map isNew, List.map_cons, List.map_cons, isPair,
      represents.ids]
    rfl
  · intro a mem other otherText isOther
    rcases List.mem_cons.mp mem with rfl | inRest
    · cases isPair.symm.trans isOther
      exact Function.update_self _ _ _
    · have known := represents.texts a inRest other otherText isOther
      have otherId : other ≠ id := by
        rintro rfl
        exact isNew ((map.mem_recency other).mpr (isSome_of_eq_some known))
      exact (Function.update_of_ne otherId _ _).trans known

theorem Represents.find (sound : m.Sound recent lists) (id : Bytes) :
    match m.findEntry id with
    | some e => e ∈ recent ∧ ∃ dsml, m.pair e = some (id, dsml) ∧ map.contents id = some dsml
    | none => map.contents id = none := by
  have lookup : m.findEntry id = m.byId.bind fun i => i.lookup id := by
    rw [findEntry]
    split
    next isEmpty =>
      cases found : m.byId.bind fun i => i.lookup id with
      | none => rfl
      | some a =>
        obtain ⟨cell, atA, sameId⟩ := map_eq_some_iff.mp ((sound.byId id a).mp found)
        exact absurd (sameId.trans isEmpty) (sound.entry_sizes a cell atA).1
    · rfl
  rw [lookup]
  cases found : m.byId.bind fun i => i.lookup id with
  | some a =>
    obtain ⟨cell, atA, rfl⟩ := map_eq_some_iff.mp ((sound.byId id a).mp found)
    obtain ⟨block, -, isPair⟩ := sound.pair_eq atA
    have mem := sound.listed a cell atA
    exact ⟨mem, block.dsml, isPair, represents.texts a mem _ _ isPair⟩
  | none =>
    cases known : map.contents id with
    | none => rfl
    | some dsml =>
      -- A key of the map is the id of an entry, which the index would find.
      have isKey : id ∈ map.recency := (map.mem_recency id).mpr (isSome_of_eq_some known)
      have listed : some id ∈ recent.map fun a => (m.pair a).map Prod.fst := by
        rw [represents.ids]
        exact List.mem_map_of_mem isKey
      obtain ⟨a, mem, isId⟩ := List.mem_map.mp listed
      obtain ⟨cell, atA⟩ := sound.live a mem
      obtain ⟨block, -, isPair⟩ := sound.pair_eq atA
      rw [isPair] at isId
      have sameId : cell.id = id := Option.some.inj isId
      have indexed := (sound.byId id a).mpr (sameId ▸ idOf_eq atA)
      rw [found] at indexed
      cases indexed

theorem Represents.bytes (sound : m.Sound recent lists) : m.bytes = lruBytes map := by
  have pairAt {a : Nat} (mem : a ∈ recent) : ∃ cell block, m.entryCells.read a = some cell ∧
      m.blockCells.read cell.block = some block ∧ m.pair a = some (cell.id, block.dsml) := by
    obtain ⟨cell, atA⟩ := sound.live a mem
    obtain ⟨block, atBlock, isPair⟩ := sound.pair_eq atA
    exact ⟨cell, block, atA, atBlock, isPair⟩
  -- Every entry once, in the order of the recency list.
  have entryTotal : m.entryCells.total EntryCell.bytes = (map.recency.map entryBytes).sum := by
    have live (a : Nat) : a ∈ recent ↔ a ∈ m.entryCells.keys := by
      rw [CellHeap.mem_keys_iff]
      exact ⟨sound.live a, fun ⟨cell, atA⟩ => sound.listed a cell atA⟩
    have ids := congrArg (List.map fun id : Option Bytes => (id.map entryBytes).getD 0)
      represents.ids
    rw [List.map_map, List.map_map] at ids
    rw [CellHeap.total_eq_sum sound.nodup live]
    refine congrArg List.sum (Eq.trans (List.map_congr_left fun a mem => ?_) ids)
    obtain ⟨cell, block, atA, -, isPair⟩ := pairAt mem
    rw [Function.comp_apply, atA, isPair]
    exact (sound.entry_sizes a cell atA).2
  -- Every block once, by its text.
  have blockTotal : m.blockCells.total BlockCell.bytes =
      ∑ dsml ∈ (map.recency.filterMap map.contents).toFinset, blockBytes dsml := by
    have texts : (map.recency.filterMap map.contents).toFinset =
        m.blockCells.keys.image fun b => (m.dsmlOf b).getD [] := by
      ext dsml
      rw [List.mem_toFinset, List.mem_filterMap, Finset.mem_image]
      constructor
      · rintro ⟨id, isKey, known⟩
        have listed : some id ∈ recent.map fun a => (m.pair a).map Prod.fst := by
          rw [represents.ids]
          exact List.mem_map_of_mem isKey
        obtain ⟨a, mem, isId⟩ := List.mem_map.mp listed
        obtain ⟨cell, block, -, atBlock, isPair⟩ := pairAt mem
        rw [isPair] at isId
        cases Option.some.inj isId
        refine ⟨cell.block, CellHeap.mem_keys_iff.mpr ⟨block, atBlock⟩, ?_⟩
        rw [dsmlOf_eq atBlock]
        exact Option.some.inj ((represents.texts a mem _ _ isPair).symm.trans known)
      · rintro ⟨b, isLive, rfl⟩
        obtain ⟨block, atBlock⟩ := CellHeap.mem_keys_iff.mp isLive
        obtain ⟨a, inList⟩ := List.exists_mem_of_ne_nil _ ((sound.blocks b).mpr ⟨block, atBlock⟩)
        obtain ⟨cell, atA, isBlock⟩ := map_eq_some_iff.mp ((sound.groups.mem_iff b a).mp inList)
        have mem := sound.listed a cell atA
        obtain ⟨other, otherBlock, atA', atOther, isPair⟩ := pairAt mem
        cases atA.symm.trans atA'
        rw [isBlock, atBlock] at atOther
        cases atOther
        have known := represents.texts a mem _ _ isPair
        refine ⟨cell.id, (map.mem_recency _).mpr (isSome_of_eq_some known), ?_⟩
        rw [known, dsmlOf_eq atBlock]
        rfl
    have injective : Set.InjOn (fun b => (m.dsmlOf b).getD []) m.blockCells.keys := by
      intro b bLive c cLive same
      obtain ⟨block, atBlock⟩ := CellHeap.mem_keys_iff.mp bLive
      obtain ⟨other, atOther⟩ := CellHeap.mem_keys_iff.mp cLive
      simp only [dsmlOf_eq atBlock, dsmlOf_eq atOther, getD_some] at same
      exact sound.byBlock.injective (dsmlOf_eq atOther) (same ▸ dsmlOf_eq atBlock)
    rw [texts, Finset.sum_image injective, CellHeap.total]
    apply Finset.sum_congr rfl
    intro b isLive
    obtain ⟨block, atBlock⟩ := CellHeap.mem_keys_iff.mp isLive
    rw [atBlock, dsmlOf_eq atBlock]
    exact (sound.block_sizes b block atBlock).2.2
  rw [sound.bytes, entryTotal, blockTotal, lruBytes]

theorem Represents.length : map.recency.length = recent.length := by
  have lengths := congrArg List.length represents.ids
  rw [List.length_map, List.length_map] at lengths
  exact lengths.symm

theorem Represents.full (sound : m.Sound recent lists) :
    m.full = beyond m.entryLimit m.byteLimit map := by
  rw [ToolHeap.full, beyond, represents.bytes sound, represents.length, sound.entries]

omit represents

theorem SameLimits.limits {next : ToolHeap} (same : m.SameLimits next) :
    next.entryLimit = m.entryLimit ∧ next.byteLimit = m.byteLimit := by
  rw [entryLimit, byteLimit, same.maxEntries, same.maxBytes]
  exact ⟨rfl, rfl⟩

theorem SameLimits.trans {next last : ToolHeap} (first : m.SameLimits next)
    (second : next.SameLimits last) : m.SameLimits last :=
  ⟨second.maxEntries.trans first.maxEntries, second.maxBytes.trans first.maxBytes,
    second.byId.trans first.byId, second.byBlock.trans first.byBlock⟩

section Steps

/-- A memory stands for a map. -/
def Refines (m : ToolHeap) (map : LruMap Bytes Bytes) : Prop :=
  ∃ recent lists, m.Sound recent lists ∧ m.Represents recent map

theorem removeEntry_refines (sound : m.Sound recent lists) (represents : m.Represents recent map)
    (mem : e ∈ recent) {id dsml : Bytes} (isPair : m.pair e = some (id, dsml)) :
    ∃ next after, m.removeEntry e = some next ∧ next.Sound (recent.erase e) after ∧
      next.Represents (recent.erase e) (map.remove id) ∧ m.SameLimits next := by
  obtain ⟨cell, found⟩ := sound.live e mem
  obtain ⟨next, removed, soundNext, same, pairs⟩ := removeEntry_spec sound found
  refine ⟨next, _, removed, soundNext, ?_, same⟩
  apply (represents.remove mem isPair sound.nodup).congr
  intro a inRest
  exact pairs a (sound.nodup.mem_erase_iff.mp inRest).1

theorem pruneLoop_refines {steps : Nat} (enough : recent.length < steps)
    (sound : m.Sound recent lists) (represents : m.Represents recent map) :
    ∃ next, pruneLoop steps m = some next ∧
      next.Refines (map.evict (beyond m.entryLimit m.byteLimit)) ∧ m.SameLimits next := by
  induction steps generalizing m recent lists map with
  | zero => exact absurd enough (Nat.not_lt_zero _)
  | succ steps ih =>
    have full := represents.full sound
    unfold pruneLoop
    cases isTail : m.tail with
    | none =>
      have none : recent = [] := by
        rw [sound.tail] at isTail
        exact List.getLast?_eq_none_iff.mp isTail
      have noKeys : map.recency = [] := by
        rw [← List.length_eq_zero_iff, represents.length, none]
        rfl
      refine ⟨m, rfl, ?_, ⟨rfl, rfl, rfl, rfl⟩⟩
      rw [LruMap.evict_of_nil noKeys]
      exact ⟨recent, lists, sound, represents⟩
    | some e =>
      dsimp only
      split
      next isFull =>
        rw [sound.tail] at isTail
        have mem := List.mem_of_getLast? isTail
        obtain ⟨cell, found⟩ := sound.live e mem
        obtain ⟨block, -, isPair⟩ := sound.pair_eq found
        -- The last entry is the last key.
        have lastKey : map.recency.getLast? = some cell.id := by
          have lasts := congrArg List.getLast? represents.ids
          rw [List.getLast?_map, List.getLast?_map, isTail, map_some, isPair] at lasts
          obtain ⟨key, isLast, same⟩ := map_eq_some_iff.mp lasts.symm
          rw [isLast]
          exact same
        obtain ⟨next, after, removed, soundNext, representsNext, same⟩ :=
          removeEntry_refines sound represents mem isPair
        have pos := List.length_pos_of_mem mem
        obtain ⟨last, pruned, refines, sameLast⟩ := ih
          (by rw [List.length_erase_of_mem mem]; omega) soundNext representsNext
        rw [removed, LruMap.evict_of_beyond (full ▸ isFull) lastKey]
        rw [same.limits.1, same.limits.2] at refines
        exact ⟨last, pruned, refines, same.trans sameLast⟩
      next notFull =>
        refine ⟨m, rfl, ?_, ⟨rfl, rfl, rfl, rfl⟩⟩
        rw [LruMap.evict_of_within (by rw [← full]; simpa using notFull)]
        exact ⟨recent, lists, sound, represents⟩

variable (sound : m.Sound recent lists)

include sound

theorem prune_refines (represents : m.Represents recent map) : ∃ next, m.prune = some next ∧
      next.Refines (map.evict (beyond m.entryLimit m.byteLimit)) ∧ m.SameLimits next := by
  apply pruneLoop_refines _ sound represents
  rw [← List.toFinset_card_of_nodup sound.nodup]
  refine Nat.lt_succ_of_le (Finset.card_le_card fun a listed => ?_)
  exact CellHeap.mem_keys_iff.mpr (sound.live a (List.mem_toFinset.mp listed))

theorem touch_refines (represents : m.Represents recent map)
    (mem : e ∈ recent) {id dsml : Bytes} (isPair : m.pair e = some (id, dsml)) :
    ∃ next, m.touch e = some next ∧ next.Sound (e :: recent.erase e) lists ∧
      next.Represents (e :: recent.erase e) (map.set id dsml) ∧ m.SameLimits next ∧
      next.pair e = some (id, dsml) := by
  obtain ⟨next, touched, soundNext, same, pairs⟩ := touch_spec sound mem
  have isPairNext : next.pair e = some (id, dsml) := (pairs e).trans isPair
  refine ⟨next, touched, soundNext, ?_, same, isPairNext⟩
  rw [← LruMap.set_remove]
  apply Represents.cons _ (map.notMem_recency_remove id) isPairNext
  exact (represents.remove mem isPair sound.nodup).congr fun a _ => pairs a

theorem init_sound : m.init.Sound recent lists ∧ m.init.byId.isSome ∧ m.init.byBlock.isSome := by
  unfold init
  split
  next both =>
    rw [Bool.and_eq_true] at both
    exact ⟨sound, both⟩
  next notBoth =>
    -- Without one of the indexes there are no entries and no blocks.
    have noEntries : ∀ a, m.entryCells.read a = none := by
      intro a
      by_contra some
      obtain ⟨cell, atA⟩ := ne_none_iff_exists'.mp some
      obtain ⟨block, atBlock, -⟩ := sound.pair_eq atA
      have inIds := (sound.byId cell.id a).mpr (idOf_eq atA)
      have inBlocks := (sound.byBlock block.dsml cell.block).mpr (dsmlOf_eq atBlock)
      obtain ⟨ids, isIds, -⟩ := bind_eq_some_iff.mp inIds
      obtain ⟨texts, isTexts, -⟩ := bind_eq_some_iff.mp inBlocks
      simp [isIds, isTexts] at notBoth
    have noBlocks : ∀ b, m.blockCells.read b = none := by
      intro b
      by_contra some
      obtain ⟨block, atB⟩ := ne_none_iff_exists'.mp some
      obtain ⟨a, inList⟩ := List.exists_mem_of_ne_nil _ ((sound.blocks b).mpr ⟨block, atB⟩)
      have inBlock := (sound.groups.mem_iff b a).mp inList
      rw [blockOf, noEntries] at inBlock
      cases inBlock
    refine ⟨{ sound with byId := fun key a => ?_, byBlock := fun key b => ?_ }, rfl, rfl⟩
    · refine iff_of_false (by rintro ⟨⟩) ?_
      change (m.entryCells.read a).map EntryCell.id ≠ some key
      rw [noEntries]
      simp
    · refine iff_of_false (by rintro ⟨⟩) ?_
      change (m.blockCells.read b).map BlockCell.dsml ≠ some key
      rw [noBlocks]
      simp

omit sound

theorem init_eq (m : ToolHeap) : m.init.pair = m.pair ∧ m.init.maxEntries = m.maxEntries ∧
    m.init.maxBytes = m.maxBytes := by
  unfold init
  split <;> exact ⟨rfl, rfl, rfl⟩

variable (allocator : CellHeap.Allocator)

theorem addEntry_refines (sound : m.Sound recent lists) (represents : m.Represents recent map)
    {id dsml : Bytes} (idNonempty : id ≠ []) (ne : dsml ≠ []) (source : MemorySource)
    (readyId : m.byId.isSome) (readyBlock : m.byBlock.isSome) (isNew : map.contents id = none) :
    ∃ next, (do let m ← m.addEntry allocator id dsml source; m.prune) = some next ∧
      next.Refines (map.put (beyond m.entryLimit m.byteLimit) id dsml) ∧
      m.SameLimits next := by
  have notFound : m.findEntry id = none := by
    have find := represents.find sound id
    split at find
    · obtain ⟨-, dsml, -, known⟩ := find
      rw [isNew] at known
      cases known
    · assumption
  obtain ⟨e, after, next, added, absent, soundNext, same, isPair, pairs⟩ :=
    addEntry_spec allocator sound idNonempty ne source readyId readyBlock notFound
  have notKey : id ∉ map.recency := by
    rw [map.mem_recency, isNew]
    simp
  have representsNext : next.Represents (e :: recent) (map.set id dsml) := by
    apply Represents.cons _ notKey isPair
    exact represents.congr fun a mem => pairs a fun isE => absent (isE ▸ mem)
  obtain ⟨last, pruned, refines, sameLast⟩ := prune_refines soundNext representsNext
  rw [same.limits.1, same.limits.2] at refines
  exact ⟨last, by rw [added]; exact pruned, refines, same.trans sameLast⟩

variable (refines : m.Refines map)

include refines

theorem put_refines (id dsml : Bytes) (source : MemorySource) :
    ∃ next, m.put allocator id dsml source = some next ∧
      next.Refines (if id = [] ∨ dsml = [] then map
        else map.put (beyond m.entryLimit m.byteLimit) id dsml) ∧
      next.maxEntries = m.maxEntries ∧ next.maxBytes = m.maxBytes := by
  unfold put
  split
  · exact ⟨m, rfl, refines, rfl, rfl⟩
  rename_i ne
  obtain ⟨idNonempty, dsmlNonempty⟩ := not_or.mp ne
  obtain ⟨recent, lists, soundOld, representsOld⟩ := refines
  obtain ⟨sound, readyId, readyBlock⟩ := init_sound soundOld
  obtain ⟨pairs, sameEntries, sameBytes⟩ := init_eq m
  have represents := representsOld.congr fun a _ => congrFun pairs a
  have limits : m.init.entryLimit = m.entryLimit ∧ m.init.byteLimit = m.byteLimit := by
    rw [entryLimit, byteLimit, sameEntries, sameBytes]
    exact ⟨rfl, rfl⟩
  rw [← limits.1, ← limits.2, ← sameEntries, ← sameBytes]
  have find := represents.find sound id
  clear limits sameEntries sameBytes pairs representsOld soundOld
  generalize m.init = m at *
  dsimp only
  cases search : m.findEntry id with
  | none =>
    rw [search] at find
    obtain ⟨next, done, refines, same⟩ := addEntry_refines allocator sound represents
      idNonempty dsmlNonempty source readyId readyBlock find
    exact ⟨next, done, refines, same.maxEntries, same.maxBytes⟩
  | some old =>
    rw [search] at find
    obtain ⟨mem, text, isPair, known⟩ := find
    obtain ⟨cell, found⟩ := sound.live old mem
    obtain ⟨block, foundBlock, isPair'⟩ := sound.pair_eq found
    cases isPair.symm.trans isPair'
    simp only [found, foundBlock, bind_eq_bind, bind_some]
    split
    next same =>
      -- The source may change, and the entry is touched.
      obtain ⟨-, rfl⟩ := same
      obtain ⟨cells, changed, reads⟩ := CellHeap.change_eq_some found fun cell =>
        if source = .ram then { cell with source := .ram } else cell
      have readsAll (a : Nat) : cells.read a = (m.entryCells.read a).map fun cell =>
          { cell with source := if a = old ∧ source = .ram then .ram else cell.source } := by
        rw [reads]
        by_cases isOld : a = old
        · subst isOld
          rw [if_pos rfl, found, map_some]
          cases source <;> simp
        · simp only [isOld, if_false, false_and]
          cases m.entryCells.read a <;> rfl
      obtain ⟨soundChanged, sameChanged, pairsChanged⟩ := sound.relinked readsAll
        (fun _ _ => ⟨rfl, rfl, rfl, rfl⟩) (List.Perm.refl recent) sound.linked m.clock
      rw [← sound.head, ← sound.tail] at soundChanged sameChanged pairsChanged
      obtain ⟨touched, isTouched, soundTouched, representsTouched, sameTouched, -⟩ :=
        touch_refines soundChanged (represents.congr fun a _ => pairsChanged a) mem
          ((pairsChanged old).trans isPair)
      obtain ⟨last, pruned, refines, sameLast⟩ := prune_refines soundTouched representsTouched
      have sameAll := sameChanged.trans sameTouched
      rw [sameAll.limits.1, sameAll.limits.2] at refines
      refine ⟨last, ?_, refines, (sameAll.trans sameLast).maxEntries,
        (sameAll.trans sameLast).maxBytes⟩
      simp only [changeEntry, changed, bind_eq_bind, bind_some, pure_def]
      rw [isTouched, bind_some, pruned]
    · obtain ⟨removed, after, isRemoved, soundRemoved, representsRemoved, sameRemoved⟩ :=
        removeEntry_refines sound represents mem isPair
      obtain ⟨next, done, refines, same⟩ := addEntry_refines allocator soundRemoved
        representsRemoved idNonempty dsmlNonempty source (sameRemoved.byId.trans readyId)
        (sameRemoved.byBlock.trans readyBlock) (Function.update_self _ _ _)
      rw [sameRemoved.limits.1, sameRemoved.limits.2, LruMap.put, LruMap.set_remove] at refines
      have sameAll := sameRemoved.trans same
      refine ⟨next, ?_, refines, sameAll.maxEntries, sameAll.maxBytes⟩
      rw [isRemoved, bind_some]
      exact done

theorem lookup_refines (id : Bytes) :
    ∃ next found, m.lookup id = some (next, found) ∧ found.map Prod.fst = map.contents id ∧
      next.Refines (map.use id) ∧ next.maxEntries = m.maxEntries ∧ next.maxBytes = m.maxBytes := by
  obtain ⟨recent, lists, sound, represents⟩ := refines
  have find := represents.find sound id
  unfold lookup
  cases search : m.findEntry id with
  | none =>
    rw [search] at find
    have unused : map.use id = map := by rw [LruMap.use, show map.contents id = none from find]
    rw [unused]
    exact ⟨m, none, rfl, find.symm, ⟨recent, lists, sound, represents⟩, rfl, rfl⟩
  | some e =>
    rw [search] at find
    obtain ⟨mem, dsml, isPair, known⟩ := find
    obtain ⟨next, touched, soundNext, representsNext, same, isPairNext⟩ :=
      touch_refines sound represents mem isPair
    obtain ⟨cell, found⟩ := soundNext.live e List.mem_cons_self
    obtain ⟨block, foundBlock, isPair'⟩ := soundNext.pair_eq found
    cases isPairNext.symm.trans isPair'
    have used : map.use cell.id = map.set cell.id block.dsml := by rw [LruMap.use, known]
    rw [used, known]
    refine ⟨next, some (block.dsml, cell.source, cell.block), ?_, rfl,
      ⟨_, _, soundNext, representsNext⟩, same.maxEntries, same.maxBytes⟩
    simp only [touched, found, foundBlock, bind_eq_bind, bind_some, pure_def]

theorem rememberCalls_refines (dsml : Bytes) (calls : List Call) :
    ∃ next, rememberCalls allocator dsml calls m = some next ∧
      next.Refines (((calls.map fun call => (call.id.getD [], dsml)).filter fun pair =>
        pair.1 ≠ [] ∧ pair.2 ≠ []).foldl (fun map pair =>
          map.put (beyond m.entryLimit m.byteLimit) pair.1 pair.2) map) ∧
      next.maxEntries = m.maxEntries ∧ next.maxBytes = m.maxBytes := by
  induction calls generalizing m map with
  | nil => exact ⟨m, rfl, refines, rfl, rfl⟩
  | cons call calls ih =>
    obtain ⟨first, isFirst, refinesFirst, sameEntries, sameBytes⟩ :=
      put_refines allocator refines (call.id.getD []) dsml .ram
    obtain ⟨next, isNext, refinesNext, sameEntriesNext, sameBytesNext⟩ := ih refinesFirst
    refine ⟨next, ?_, ?_, sameEntriesNext.trans sameEntries, sameBytesNext.trans sameBytes⟩
    · rw [rememberCalls, isFirst]
      exact isNext
    · have limits : first.entryLimit = m.entryLimit ∧ first.byteLimit = m.byteLimit := by
        rw [entryLimit, byteLimit, sameEntries, sameBytes]
        exact ⟨rfl, rfl⟩
      rw [limits.1, limits.2] at refinesNext
      rw [List.map_cons, List.filter_cons]
      split at refinesNext
      next isEmpty =>
        rw [if_neg (by simpa using fun idNonempty => isEmpty.resolve_left idNonempty)]
        exact refinesNext
      next ne =>
        rw [if_pos (by simpa using not_or.mp ne)]
        exact refinesNext

theorem perform_refines (op : Operation) : ∃ next, m.perform allocator op =
        some (next, (op.onMap (beyond m.entryLimit m.byteLimit) map).2) ∧
      next.Refines (op.onMap (beyond m.entryLimit m.byteLimit) map).1 ∧
      next.maxEntries = m.maxEntries ∧ next.maxBytes = m.maxBytes := by
  cases op with
  | put id dsml source =>
    obtain ⟨next, isNext, refinesNext, same⟩ := put_refines allocator refines id dsml source
    refine ⟨next, ?_, ?_, same⟩
    · rw [perform, isNext]
      rfl
    · rw [Operation.onMap, Operation.puts, List.filter_cons, List.filter_nil]
      split at refinesNext
      next isEmpty =>
        rw [if_neg (by simpa using fun idNonempty => isEmpty.resolve_left idNonempty)]
        exact refinesNext
      next ne =>
        rw [if_pos (by simpa using not_or.mp ne)]
        exact refinesNext
  | lookup id =>
    obtain ⟨next, found, isNext, answer, refinesNext, same⟩ := lookup_refines refines id
    refine ⟨next, ?_, refinesNext, same⟩
    rw [perform, isNext, Operation.onMap, ← answer]
    rfl
  | prune =>
    obtain ⟨recent, lists, sound, represents⟩ := refines
    obtain ⟨next, isNext, refinesNext, same⟩ := prune_refines sound represents
    refine ⟨next, ?_, refinesNext, same.maxEntries, same.maxBytes⟩
    rw [perform, isNext]
    rfl
  | remember calls =>
    obtain ⟨next, isNext, refinesNext, same⟩ := rememberCalls_refines allocator refines
      (calls.rawDsml.getD []) calls.list
    by_cases isEmpty : calls.rawDsml.getD [] = []
    · refine ⟨m, ?_, ?_, rfl, rfl⟩
      · rw [perform, remember, if_pos isEmpty]
        rfl
      · rw [Operation.onMap, Operation.puts, isEmpty, List.filter_eq_nil_iff.mpr]
        · exact refines
        · intro pair mem
          obtain ⟨call, -, rfl⟩ := List.mem_map.mp mem
          simp
    · refine ⟨next, ?_, refinesNext, same⟩
      rw [perform, remember, if_neg isEmpty, isNext]
      rfl

theorem run_refines (operations : List Operation)
    (within : beyond m.entryLimit m.byteLimit map = false) :
    ∃ next, run allocator operations m = some (next,
        (Operation.runOnMap (beyond m.entryLimit m.byteLimit) operations map).2) ∧
      next.Refines (Operation.runOnMap (beyond m.entryLimit m.byteLimit) operations map).1 ∧
      beyond m.entryLimit m.byteLimit
        (Operation.runOnMap (beyond m.entryLimit m.byteLimit) operations map).1 = false ∧
      next.maxEntries = m.maxEntries ∧ next.maxBytes = m.maxBytes := by
  induction operations generalizing m map with
  | nil => exact ⟨m, rfl, refines, within, rfl, rfl⟩
  | cons op operations ih =>
    obtain ⟨first, isFirst, refinesFirst, sameEntries, sameBytes⟩ :=
      perform_refines allocator refines op
    have limits : first.entryLimit = m.entryLimit ∧ first.byteLimit = m.byteLimit := by
      rw [entryLimit, byteLimit, sameEntries, sameBytes]
      exact ⟨rfl, rfl⟩
    have hypothesis := ih refinesFirst
    rw [limits.1, limits.2] at hypothesis
    obtain ⟨next, isNext, refinesNext, withinNext, sameEntriesNext, sameBytesNext⟩ :=
      hypothesis (beyond_onMap within op)
    refine ⟨next, ?_, refinesNext, withinNext, sameEntriesNext.trans sameEntries,
      sameBytesNext.trans sameBytes⟩
    rw [run, isFirst]
    simp only [bind_eq_bind, bind_some, isNext, pure_def, Operation.runOnMap]

end Steps

/-- From an empty memory, every sequence of operations does what it does to a map within
the limits that forgets what was used least recently: no pointer leads nowhere, the lookups
return the same, the structures agree, and the limits are kept. -/
theorem run_refines_lru (allocator : CellHeap.Allocator) (maxEntries maxBytes : Nat)
    (entriesPositive : 0 < maxEntries) (bytesPositive : 0 < maxBytes)
    (operations : List Operation) :
    let (map, answers) := Operation.runOnMap (beyond maxEntries maxBytes) operations .empty
    ∃ memory recent lists,
      run allocator operations (empty maxEntries maxBytes) = some (memory, answers) ∧
      memory.Sound recent lists ∧ memory.Represents recent map ∧
      memory.entries ≤ maxEntries ∧ memory.bytes ≤ maxBytes ∧
      ∀ id, map.contents id = none ∨ map.contents id = Operation.lastPut operations id := by
  have limits : (empty maxEntries maxBytes).entryLimit = maxEntries ∧
      (empty maxEntries maxBytes).byteLimit = maxBytes := by
    rw [entryLimit, byteLimit]
    exact ⟨if_pos entriesPositive, if_pos bytesPositive⟩
  have start : (empty maxEntries maxBytes).Refines .empty :=
    ⟨[], fun _ => [], sound_empty maxEntries maxBytes, rfl, fun _ mem => by cases mem⟩
  have hypothesis := run_refines allocator start operations
  rw [limits.1, limits.2] at hypothesis
  obtain ⟨memory, ran, ⟨recent, lists, sound, represents⟩, within, sameEntries, sameBytes⟩ :=
    hypothesis (by simp [beyond, lruBytes, LruMap.empty])
  have notBeyond := within
  simp only [beyond, Bool.or_eq_false_iff, decide_eq_false_iff_not, Nat.not_lt] at notBeyond
  rw [represents.length, ← sound.entries, ← represents.bytes sound] at notBeyond
  have keeps : KeepsLast [] LruMap.empty := fun _ => Or.inl rfl
  exact ⟨memory, recent, lists, ran, sound, represents, notBeyond.1, notBeyond.2,
    keeps.runOnMap operations⟩

def nextAddress : CellHeap.Allocator where
  pick _ live := live.sup id + 1
  pick_notMem _ live mem := by
    have bound : live.sup id + 1 ≤ live.sup id := Finset.le_sup (f := id) mem
    omega

/-- Two calls with one text, of which the first is used again, and a third. -/
def threePuts : List Operation :=
  [.put (utf8 "a") (utf8 "X") .ram, .put (utf8 "b") (utf8 "X") .ram, .lookup (utf8 "a"),
    .put (utf8 "c") (utf8 "Y") .disk, .lookup (utf8 "a"), .lookup (utf8 "b")]

/-- With room for two, the second goes. -/
theorem run_refines_lru_threePuts : ∃ memory, run nextAddress threePuts (empty 2 1000) =
        some (memory, [some (utf8 "X"), some (utf8 "X"), none]) ∧
      memory.entries ≤ 2 ∧ memory.bytes ≤ 1000 := by
  have refined := run_refines_lru nextAddress 2 1000 (by decide) (by decide) threePuts
  have answers : (Operation.runOnMap (beyond 2 1000) threePuts .empty).2 =
      [some (utf8 "X"), some (utf8 "X"), none] := by decide +kernel
  obtain ⟨memory, _, _, ran, -, -, entries, bytes, -⟩ := refined
  exact ⟨memory, ran.trans (congrArg (fun answers => some (memory, answers)) answers),
    entries, bytes⟩

end ToolHeap

end LnaLang.Chat
