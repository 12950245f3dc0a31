import LnaLang.ToolHeap

/-!
# The structures of the tool memory agree

The recency list, the index of the ids and the lists of the blocks hold the same entries,
the counts of the blocks and of the memory are right, and the counter of bytes is the sum
over all objects.  Every operation finds the objects that it follows pointers to, and
keeps it so.
-/

namespace LnaLang

namespace Chat

open ListNeighbors Option Function

section Indexes

def Indexes (index : Option Rax) (names : Nat → Option Bytes) : Prop :=
  ∀ key a, (index.bind fun index => index.lookup key) = some a ↔ names a = some key

variable {index : Option Rax} {names : Nat → Option Bytes} {e : Nat} {key : Bytes}

theorem Indexes.injective (indexes : Indexes index names) {a : Nat}
    (name : names e = some key) (same : names a = some key) : a = e :=
  Option.some.inj (((indexes key a).mpr same).symm.trans ((indexes key e).mpr name))

theorem Indexes.erase (indexes : Indexes index names) (name : names e = some key) :
    Indexes (index.map fun index => index.erase key) (update names e none) := by
  intro other a
  have lookup : ((index.map fun index => index.erase key).bind fun index =>
      index.lookup other) =
        if other = key then none else index.bind fun index => index.lookup other := by
    cases index with
    | none => exact (ite_self none).symm
    | some index =>
      rw [map_some, bind_some, bind_some]
      split
      next same =>
        rw [same]
        exact Finmap.lookup_erase key index
      next ne =>
        exact Finmap.lookup_erase_ne ne
  rw [lookup]
  by_cases isGone : a = e
  · subst isGone
    rw [update_self]
    refine iff_of_false ?_ (by simp)
    split
    · simp
    next ne =>
      rw [indexes, name]
      exact fun same => ne (Option.some.inj same).symm
  · rw [update_of_ne isGone, ← indexes]
    split
    next same =>
      subst same
      refine iff_of_false (by simp) fun found => isGone ?_
      exact indexes.injective name ((indexes other a).mp found)
    · exact Iff.rfl

theorem Indexes.insert {index : Rax} (indexes : Indexes (some index) names)
    (unnamed : names e = none) (isNew : index.lookup key = none) :
    raxInsert index key e = some (index.insert key e) ∧
      Indexes (some (index.insert key e)) (update names e (some key)) := by
  refine ⟨if_neg (Finmap.lookup_eq_none.mp isNew), fun other a => ?_⟩
  rw [bind_some]
  by_cases same : other = key
  · subst same
    rw [Finmap.lookup_insert]
    by_cases isNewObject : a = e
    · subst isNewObject
      rw [update_self]
      exact iff_of_true rfl rfl
    · rw [update_of_ne isNewObject]
      refine iff_of_false (fun found => isNewObject (Option.some.inj found).symm) fun found => ?_
      have known := (indexes other a).mpr found
      rw [bind_some, isNew] at known
      cases known
  · rw [Finmap.lookup_insert_of_ne index same]
    by_cases isNewObject : a = e
    · subst isNewObject
      rw [update_self]
      refine iff_of_false (fun found => ?_) fun found => same (Option.some.inj found).symm
      have known := (indexes other a).mp found
      rw [unnamed] at known
      cases known
    · rw [update_of_ne isNewObject]
      exact indexes other a

end Indexes

section Groups

structure Groups (groupOf : Nat → Option Nat) (lists : Nat → List Nat) : Prop where
  nodup : ∀ b, (lists b).Nodup
  mem_iff : ∀ b a, a ∈ lists b ↔ groupOf a = some b

variable {groupOf : Nat → Option Nat} {lists : Nat → List Nat} {e b : Nat}

theorem Groups.erase (groups : Groups groupOf lists) (inGroup : groupOf e = some b) :
    Groups (update groupOf e none) (update lists b ((lists b).erase e)) := by
  constructor
  · intro other
    by_cases same : other = b
    · subst same
      rw [update_self]
      exact (groups.nodup other).erase e
    · rw [update_of_ne same]
      exact groups.nodup other
  · intro other a
    by_cases isGone : a = e
    · subst isGone
      rw [update_self]
      refine iff_of_false ?_ (by simp)
      by_cases same : other = b
      · subst same
        rw [update_self]
        exact (groups.nodup other).not_mem_erase
      · rw [update_of_ne same, groups.mem_iff, inGroup]
        exact fun isOther => same (Option.some.inj isOther).symm
    · rw [update_of_ne isGone, ← groups.mem_iff]
      by_cases same : other = b
      · subst same
        rw [update_self, List.mem_erase_of_ne isGone]
      · rw [update_of_ne same]

theorem Groups.cons (groups : Groups groupOf lists) (isNew : groupOf e = none) (b : Nat) :
    Groups (update groupOf e (some b)) (update lists b (e :: lists b)) := by
  have absent (other : Nat) : e ∉ lists other := by
    rw [groups.mem_iff, isNew]
    simp
  constructor
  · intro other
    by_cases same : other = b
    · subst same
      rw [update_self]
      exact List.nodup_cons.mpr ⟨absent other, groups.nodup other⟩
    · rw [update_of_ne same]
      exact groups.nodup other
  · intro other a
    by_cases isEntry : a = e
    · subst isEntry
      rw [update_self]
      by_cases same : other = b
      · subst same
        rw [update_self]
        exact iff_of_true List.mem_cons_self rfl
      · rw [update_of_ne same]
        exact iff_of_false (absent other) fun isOther => same (Option.some.inj isOther).symm
    · rw [update_of_ne isEntry, ← groups.mem_iff]
      by_cases same : other = b
      · subst same
        rw [update_self]
        exact ⟨List.mem_of_ne_of_mem isEntry, List.mem_cons_of_mem _⟩
      · rw [update_of_ne same]

end Groups

namespace ToolHeap

def idOf (m : ToolHeap) (a : Nat) : Option Bytes := (m.entryCells.read a).map EntryCell.id

def blockOf (m : ToolHeap) (a : Nat) : Option Nat := (m.entryCells.read a).map EntryCell.block

/-- The text of a block. -/
def dsmlOf (m : ToolHeap) (b : Nat) : Option Bytes := (m.blockCells.read b).map BlockCell.dsml

/-- The id of an entry and the text of its block. -/
def pair (m : ToolHeap) (a : Nat) : Option (Bytes × Bytes) := do
  let id ← m.idOf a
  let b ← m.blockOf a
  let dsml ← m.dsmlOf b
  pure (id, dsml)

/-- The structures agree, for the entries in the order of their last use and for the
lists of the blocks. -/
structure Sound (m : ToolHeap) (recent : List Nat) (lists : Nat → List Nat) : Prop
    extends m.Shows recent where
  listed : ∀ a cell, m.entryCells.read a = some cell → a ∈ recent
  linked : ∀ a cell, m.entryCells.read a = some cell → cell.Linked a recent
  byId : Indexes m.byId m.idOf
  groups : Groups m.blockOf lists
  blockNext : ∀ a cell, m.entryCells.read a = some cell →
    cell.blockNext = follower a (lists cell.block)
  blocks : ∀ b, lists b ≠ [] ↔ ∃ block, m.blockCells.read b = some block
  block : ∀ b block, m.blockCells.read b = some block →
    block.entries = (lists b).head? ∧ block.refs = (lists b).length
  byBlock : Indexes m.byBlock m.dsmlOf
  entry_sizes : ∀ a cell, m.entryCells.read a = some cell →
    cell.id ≠ [] ∧ cell.bytes = entryBytes cell.id
  block_sizes : ∀ b block, m.blockCells.read b = some block →
    block.dsml ≠ [] ∧ block.len = block.dsml.length ∧ block.bytes = blockBytes block.dsml
  entries : m.entries = recent.length
  bytes : m.bytes =
    m.entryCells.total EntryCell.bytes + m.blockCells.total BlockCell.bytes

/-- What no operation changes, once the indexes are there. -/
structure SameLimits (m next : ToolHeap) : Prop where
  maxEntries : next.maxEntries = m.maxEntries
  maxBytes : next.maxBytes = m.maxBytes
  byId : next.byId.isSome = m.byId.isSome
  byBlock : next.byBlock.isSome = m.byBlock.isSome

variable {m : ToolHeap} {recent : List Nat} {lists : Nat → List Nat} {e : Nat}

theorem sound_empty (maxEntries maxBytes : Nat) :
    (empty maxEntries maxBytes).Sound [] fun _ => [] where
  nodup := List.nodup_nil
  live := fun _ mem => absurd mem List.not_mem_nil
  head := rfl
  tail := rfl
  listed := by rintro a cell ⟨⟩
  linked := by rintro a cell ⟨⟩
  byId := fun key a => iff_of_false (by rintro ⟨⟩) (by rintro ⟨⟩)
  groups := ⟨fun _ => List.nodup_nil, fun b a => iff_of_false (by rintro ⟨⟩) (by rintro ⟨⟩)⟩
  blockNext := by rintro a cell ⟨⟩
  blocks := fun b => iff_of_false (fun ne => ne rfl) (by rintro ⟨block, ⟨⟩⟩)
  block := by rintro b block ⟨⟩
  byBlock := fun key b => iff_of_false (by rintro ⟨⟩) (by rintro ⟨⟩)
  entry_sizes := by rintro a cell ⟨⟩
  block_sizes := by rintro b block ⟨⟩
  entries := rfl
  bytes := rfl

theorem idOf_eq {cell : EntryCell} (found : m.entryCells.read e = some cell) :
    m.idOf e = some cell.id := by rw [idOf, found, map_some]

theorem blockOf_eq {cell : EntryCell} (found : m.entryCells.read e = some cell) :
    m.blockOf e = some cell.block := by rw [blockOf, found, map_some]

theorem dsmlOf_eq {b : Nat} {block : BlockCell} (found : m.blockCells.read b = some block) :
    m.dsmlOf b = some block.dsml := by rw [dsmlOf, found, map_some]

variable (sound : m.Sound recent lists)

include sound

theorem Sound.showsBlock {cell : EntryCell} (found : m.entryCells.read e = some cell) :
    m.ShowsBlock cell.block (lists cell.block) ∧ e ∈ lists cell.block := by
  have mem : e ∈ lists cell.block := (sound.groups.mem_iff _ e).mpr (blockOf_eq found)
  obtain ⟨block, foundBlock⟩ := (sound.blocks cell.block).mp (List.ne_nil_of_mem mem)
  refine ⟨⟨sound.groups.nodup _, ⟨block, foundBlock, (sound.block _ block foundBlock).1⟩,
    fun a listed => ?_⟩, mem⟩
  obtain ⟨other, atA, sameBlock⟩ := map_eq_some_iff.mp ((sound.groups.mem_iff _ a).mp listed)
  exact ⟨other, atA, sameBlock ▸ sound.blockNext a other atA⟩

theorem Sound.pair_eq {cell : EntryCell} (found : m.entryCells.read e = some cell) :
    ∃ block, m.blockCells.read cell.block = some block ∧ m.pair e = some (cell.id, block.dsml) := by
  obtain ⟨block, foundBlock, -⟩ := (sound.showsBlock found).1.block
  refine ⟨block, foundBlock, ?_⟩
  rw [pair, idOf_eq found, blockOf_eq found]
  simp only [bind_eq_bind, bind_some, dsmlOf_eq foundBlock, pure_def]

theorem Sound.relinked {cells : CellHeap EntryCell} {change : Nat → EntryCell → EntryCell}
    (reads : ∀ a, cells.read a = (m.entryCells.read a).map (change a))
    (keeps : ∀ a cell, (change a cell).id = cell.id ∧ (change a cell).block = cell.block ∧
      (change a cell).bytes = cell.bytes ∧ (change a cell).blockNext = cell.blockNext)
    {after : List Nat} (perm : after.Perm recent)
    (linked : ∀ a cell, m.entryCells.read a = some cell → (change a cell).Linked a after)
    (clock : UInt64) :
    let next := { m with
      entryCells := cells, head := after.head?, tail := after.getLast?, clock }
    next.Sound after lists ∧ m.SameLimits next ∧ ∀ a, next.pair a = m.pair a := by
  -- A cell afterwards is a changed one.
  have back {a : Nat} {cell : EntryCell} (found : cells.read a = some cell) :
      ∃ before, m.entryCells.read a = some before ∧ cell = change a before := by
    rw [reads] at found
    obtain ⟨before, atA, rfl⟩ := map_eq_some_iff.mp found
    exact ⟨before, atA, rfl⟩
  have field {α : Type} (read : EntryCell → α)
      (same : ∀ a cell, read (change a cell) = read cell) (a : Nat) :
      (cells.read a).map read = (m.entryCells.read a).map read := by
    rw [reads, map_map]
    cases m.entryCells.read a with
    | none => rfl
    | some cell => exact congrArg some (same a cell)
  intro next
  have ids : next.idOf = m.idOf := funext (field EntryCell.id fun a cell => (keeps a cell).1)
  have blocks : next.blockOf = m.blockOf :=
    funext (field EntryCell.block fun a cell => (keeps a cell).2.1)
  have total : next.entryCells.total EntryCell.bytes = m.entryCells.total EntryCell.bytes :=
    CellHeap.total_congr (field EntryCell.bytes fun a cell => (keeps a cell).2.2.1)
  refine ⟨{
    nodup := perm.nodup_iff.mpr sound.nodup
    live := fun a mem => ?_
    head := rfl
    tail := rfl
    listed := fun a cell found => ?_
    linked := fun a cell found => ?_
    byId := ids ▸ sound.byId
    groups := blocks ▸ sound.groups
    blockNext := fun a cell found => ?_
    blocks := sound.blocks
    block := sound.block
    byBlock := sound.byBlock
    entry_sizes := fun a cell found => ?_
    block_sizes := sound.block_sizes
    entries := sound.entries.trans perm.length_eq.symm
    bytes := total ▸ sound.bytes }, ⟨rfl, rfl, rfl, rfl⟩, fun a => ?_⟩
  · obtain ⟨cell, found⟩ := sound.live a (perm.mem_iff.mp mem)
    exact ⟨_, (reads a).trans (by rw [found, map_some])⟩
  · obtain ⟨before, atA, -⟩ := back found
    exact perm.mem_iff.mpr (sound.listed a before atA)
  · obtain ⟨before, atA, rfl⟩ := back found
    exact linked a before atA
  · obtain ⟨before, atA, rfl⟩ := back found
    obtain ⟨-, block, -, next⟩ := keeps a before
    rw [block, next]
    exact sound.blockNext a before atA
  · obtain ⟨before, atA, rfl⟩ := back found
    obtain ⟨id, -, bytes, -⟩ := keeps a before
    rw [id, bytes]
    exact sound.entry_sizes a before atA
  · rw [pair, pair, ids, blocks]
    rfl

theorem touch_spec (mem : e ∈ recent) :
    ∃ next, m.touch e = some next ∧ next.Sound (e :: recent.erase e) lists ∧
      m.SameLimits next ∧ ∀ a, next.pair a = m.pair a := by
  obtain ⟨cell, found⟩ := sound.live e mem
  obtain ⟨stamped, changed, reads⟩ := CellHeap.change_eq_some found
    fun cell => { cell with stamp := m.clock + 1 }
  have readsAll (a : Nat) : stamped.read a = (m.entryCells.read a).map fun cell =>
      { cell with stamp := if a = e then m.clock + 1 else cell.stamp } := by
    rw [reads]
    split
    next same =>
      subst same
      rw [found, map_some]
    · cases m.entryCells.read a <;> rfl
  have touched : m.touch e =
      if m.head = some e then
        some { m with entryCells := stamped, clock := m.clock + 1 }
      else (unlink { m with entryCells := stamped, clock := m.clock + 1 } e).bind
        fun m => m.linkHead e := by
    simp only [touch, changeEntry, changed, bind_eq_bind, bind_some, pure_def]
  rw [touched]
  split
  next isHead =>
    have same : e :: recent.erase e = recent := by
      rw [sound.head] at isHead
      obtain ⟨rest, rfl⟩ := List.head?_eq_some_iff.mp isHead
      rw [List.erase_cons_head]
    rw [same]
    have kept := sound.relinked readsAll (fun _ _ => ⟨rfl, rfl, rfl, rfl⟩)
      (List.Perm.refl recent) (fun a cell atA => sound.linked a cell atA) (m.clock + 1)
    rw [← sound.head, ← sound.tail] at kept
    exact ⟨_, rfl, kept⟩
  · have shows : Shows { m with entryCells := stamped, clock := m.clock + 1 } recent := by
      refine ⟨sound.nodup, fun a listed => ?_, sound.head, sound.tail⟩
      obtain ⟨other, atA⟩ := sound.live a listed
      change ∃ cell, stamped.read a = some cell
      rw [readsAll, atA]
      exact ⟨_, rfl⟩
    have linkedStamped : ∀ a cell, stamped.read a = some cell → cell.Linked a recent := by
      intro a cell atA
      rw [readsAll] at atA
      obtain ⟨before, atBefore, rfl⟩ := map_eq_some_iff.mp atA
      exact sound.linked a before atBefore
    obtain ⟨cut, unlinked, readsCut⟩ := unlink_spec shows mem linkedStamped
    have showsCut : Shows { m with
        entryCells := cut
        head := (recent.erase e).head?
        tail := (recent.erase e).getLast?
        clock := m.clock + 1 } (recent.erase e) := by
      refine ⟨sound.nodup.erase e, fun a listed => ?_, rfl, rfl⟩
      obtain ⟨other, atA⟩ := shows.live a (List.mem_of_mem_erase listed)
      change ∃ cell, cut.read a = some cell
      rw [readsCut, atA]
      exact ⟨_, rfl⟩
    have liveCut : ∃ cell, cut.read e = some cell := by
      obtain ⟨other, atE⟩ := shows.live e mem
      rw [readsCut, atE]
      exact ⟨_, rfl⟩
    obtain ⟨cells, linked, readsCells⟩ := linkHead_spec showsCut sound.nodup.not_mem_erase
      liveCut fun a cell atA _ => by
        change cut.read a = some cell at atA
        rw [readsCut] at atA
        obtain ⟨before, -, rfl⟩ := map_eq_some_iff.mp atA
        exact ⟨rfl, rfl⟩
    rw [unlinked, bind_some, linked]
    have readsFinal (a : Nat) : cells.read a = (m.entryCells.read a).map fun cell =>
        ({ cell with stamp := if a = e then m.clock + 1 else cell.stamp } :
          EntryCell).relink a (e :: recent.erase e) := by
      rw [readsCells]
      change (cut.read a).map _ = _
      rw [readsCut]
      change ((stamped.read a).map _).map _ = _
      rw [readsAll]
      cases m.entryCells.read a <;> rfl
    exact ⟨_, rfl, sound.relinked readsFinal (fun _ _ => ⟨rfl, rfl, rfl, rfl⟩)
      (List.perm_cons_erase mem).symm (fun _ _ _ => ⟨rfl, rfl⟩) (m.clock + 1)⟩

omit sound

theorem releaseBlock_spec {b : Nat} {block : BlockCell} (found : m.blockCells.read b = some block) :
    ∃ blockCells : CellHeap BlockCell, m.releaseBlock b = some { m with
        blockCells
        byBlock := if 1 < block.refs then m.byBlock
          else m.byBlock.map fun index => index.erase block.dsml
        bytes := if 1 < block.refs then m.bytes else m.bytes - block.bytes } ∧
      (∀ other, blockCells.read other =
        if other = b then
          if 1 < block.refs then some { block with refs := block.refs - 1 } else none
        else m.blockCells.read other) ∧
      blockCells.total BlockCell.bytes + (if 1 < block.refs then 0 else block.bytes) =
        m.blockCells.total BlockCell.bytes := by
  obtain ⟨changed, change, reads⟩ := CellHeap.change_eq_some found
    fun block => { block with refs := block.refs - 1 }
  have foundChanged : changed.read b = some { block with refs := block.refs - 1 } := by
    rw [reads, if_pos rfl]
  have total : changed.total BlockCell.bytes = m.blockCells.total BlockCell.bytes := by
    apply CellHeap.total_congr
    intro other
    rw [reads]
    split
    next same =>
      rw [same, found]
      rfl
    · rfl
  have refsIff : 0 < block.refs - 1 ↔ 1 < block.refs := by omega
  have released : m.releaseBlock b =
      if 1 < block.refs then some { m with blockCells := changed }
      else some { m with
        byBlock := m.byBlock.map fun index => index.erase block.dsml
        bytes := m.bytes - block.bytes
        blockCells := changed.erase b } := by
    simp only [releaseBlock, changeBlock, change, bind_eq_bind, bind_some,
      pure_def, foundChanged, refsIff]
  rw [released]
  split
  next more =>
    refine ⟨changed, rfl, fun other => ?_, total⟩
    rw [reads]
  next last =>
    refine ⟨changed.erase b, rfl, fun other => ?_, ?_⟩
    · rw [CellHeap.read_erase, reads]
      split <;> rfl
    · rw [← total]
      have erased := @CellHeap.total_erase _ _ _ _ BlockCell.bytes foundChanged
      exact erased

/-- The memory behind the removal of an entry of a block, with the objects that are left. -/
def without (m : ToolHeap) (e : Nat) (cell : EntryCell) (block : BlockCell)
    (recent : List Nat) (entryCells : CellHeap EntryCell)
    (blockCells : CellHeap BlockCell) : ToolHeap :=
  { m with
    entryCells
    blockCells
    byId := m.byId.map fun index => index.erase cell.id
    byBlock := if 1 < block.refs then m.byBlock
      else m.byBlock.map fun index => index.erase block.dsml
    head := (recent.erase e).head?
    tail := (recent.erase e).getLast?
    entries := m.entries - 1
    bytes := if 1 < block.refs then m.bytes - cell.bytes
      else m.bytes - cell.bytes - block.bytes }

/-- The objects that are left. -/
structure Removed (m : ToolHeap) (e : Nat) (cell : EntryCell) (block : BlockCell)
    (recent list : List Nat) (entryCells : CellHeap EntryCell)
    (blockCells : CellHeap BlockCell) : Prop where
  entries : ∀ a, entryCells.read a =
    if a = e then none
    else (m.entryCells.read a).map fun other =>
      { other.relink a (recent.erase e) with
        blockNext := if a ∈ list then follower a (list.erase e) else other.blockNext }
  blocks : ∀ b, blockCells.read b =
    if b = cell.block then
      if 1 < block.refs then
        some { block with entries := (list.erase e).head?, refs := block.refs - 1 }
      else none
    else m.blockCells.read b
  entryTotal : entryCells.total EntryCell.bytes + cell.bytes =
    m.entryCells.total EntryCell.bytes
  blockTotal : blockCells.total BlockCell.bytes +
    (if 1 < block.refs then 0 else block.bytes) = m.blockCells.total BlockCell.bytes

theorem removeEntry_eq (shows : m.Shows recent) (mem : e ∈ recent)
    (linked : ∀ a cell, m.entryCells.read a = some cell → cell.Linked a recent) {cell : EntryCell}
    {block : BlockCell} {list : List Nat} (found : m.entryCells.read e = some cell)
    (foundBlock : m.blockCells.read cell.block = some block)
    (showsBlock : m.ShowsBlock cell.block list) (inList : e ∈ list) :
    ∃ (entryCells : CellHeap EntryCell) (blockCells : CellHeap BlockCell),
      m.removeEntry e = some (m.without e cell block recent entryCells blockCells) ∧
      Removed m e cell block recent list entryCells blockCells := by
  -- The entry leaves the recency list,
  obtain ⟨cut, unlinked, readsCut⟩ := @unlink_spec
    { m with byId := m.byId.map fun index => index.erase cell.id } recent e
    ⟨shows.nodup, shows.live, shows.head, shows.tail⟩ mem linked
  change ∀ a, cut.read a = (m.entryCells.read a).map _ at readsCut
  -- then the list of its block,
  have liveCut : ∀ a ∈ list, ∃ cell, cut.read a = some cell ∧ cell.blockNext = follower a list := by
    intro a listed
    obtain ⟨other, atA, next⟩ := showsBlock.live a listed
    rw [readsCut, atA]
    exact ⟨_, rfl, next⟩
  obtain ⟨taken, blockCut, blockUnlinked, readsTaken, readsBlockCut⟩ :=
    @blockUnlinkEntry_spec { m with
      byId := m.byId.map fun index => index.erase cell.id
      entryCells := cut
      head := (recent.erase e).head?
      tail := (recent.erase e).getLast? } cell.block e list
    ⟨showsBlock.nodup, showsBlock.block, liveCut⟩ inList
  change ∀ a, taken.read a = (cut.read a).map _ at readsTaken
  change ∀ a, blockCut.read a = (m.blockCells.read a).map _ at readsBlockCut
  have foundCut : blockCut.read cell.block =
      some { block with entries := (list.erase e).head? } := by
    rw [readsBlockCut, foundBlock, map_some, if_pos rfl]
  -- then the block, which may go with it.
  obtain ⟨blockCells, released, readsBlocks, totalBlocks⟩ := @releaseBlock_spec { m with
      byId := m.byId.map fun index => index.erase cell.id
      entryCells := taken
      blockCells := blockCut
      head := (recent.erase e).head?
      tail := (recent.erase e).getLast?
      bytes := m.bytes - cell.bytes
      entries := m.entries - 1 } cell.block _ foundCut
  have readsAll (a : Nat) : taken.read a = (m.entryCells.read a).map fun other =>
      { other.relink a (recent.erase e) with
        blockNext := if a ∈ list then follower a (list.erase e) else other.blockNext } := by
    rw [readsTaken, readsCut]
    cases m.entryCells.read a <;> rfl
  refine ⟨taken.erase e, blockCells, ?_, fun a => ?_, fun other => ?_, ?_, ?_⟩
  · simp only [removeEntry, found, bind_eq_bind, bind_some]
    rw [unlinked]
    simp only [bind_some]
    rw [blockUnlinked]
    simp only [bind_some]
    rw [released]
    rfl
  · rw [CellHeap.read_erase, readsAll]
  · rw [readsBlocks]
    change (if other = cell.block then _ else blockCut.read other) = _
    split
    · rfl
    next ne =>
      rw [readsBlockCut]
      simp only [ne, if_false]
      cases m.blockCells.read other <;> rfl
  · have foundTaken := readsAll e
    rw [found, map_some] at foundTaken
    have erased := @CellHeap.total_erase _ _ _ _ EntryCell.bytes foundTaken
    have total : taken.total EntryCell.bytes = m.entryCells.total EntryCell.bytes := by
      apply CellHeap.total_congr
      intro a
      rw [readsAll, map_map]
      cases m.entryCells.read a <;> rfl
    rw [← total]
    exact erased
  · have total : blockCut.total BlockCell.bytes = m.blockCells.total BlockCell.bytes := by
      apply CellHeap.total_congr
      intro a
      rw [readsBlockCut, map_map]
      cases m.blockCells.read a <;> rfl
    rw [← total]
    exact totalBlocks

section Left

variable {cell : EntryCell} {block : BlockCell} {entryCells : CellHeap EntryCell}
  {blockCells : CellHeap BlockCell}

theorem Removed.back {list : List Nat}
    (removed : Removed m e cell block recent list entryCells blockCells) {a : Nat}
    {after : EntryCell} (atA : entryCells.read a = some after) :
    a ≠ e ∧ ∃ other, m.entryCells.read a = some other ∧
      after = { other.relink a (recent.erase e) with
        blockNext := if a ∈ list then follower a (list.erase e) else other.blockNext } := by
  rw [removed.entries] at atA
  split at atA
  · cases atA
  next ne =>
    obtain ⟨other, atOther, rfl⟩ := map_eq_some_iff.mp atA
    exact ⟨ne, other, atOther, rfl⟩

theorem Removed.backBlock {list : List Nat}
    (removed : Removed m e cell block recent list entryCells blockCells) {b : Nat}
    {after : BlockCell} (atB : blockCells.read b = some after) :
    b = cell.block ∧ 1 < block.refs ∧
        after = { block with entries := (list.erase e).head?, refs := block.refs - 1 } ∨
      b ≠ cell.block ∧ m.blockCells.read b = some after := by
  rw [removed.blocks] at atB
  split at atB
  next same =>
    rw [ite_none_right_eq_some] at atB
    exact Or.inl ⟨same, atB.1, (Option.some.inj atB.2).symm⟩
  next ne =>
    exact Or.inr ⟨ne, atB⟩

theorem Removed.field {list : List Nat}
    (removed : Removed m e cell block recent list entryCells blockCells) {α : Type}
    (read : EntryCell → α) (same : ∀ (other : EntryCell) prev next inList,
      read { other with prev, next, blockNext := inList } = read other) :
    (fun a => (entryCells.read a).map read) =
      update (fun a => (m.entryCells.read a).map read) e none := by
  funext a
  rw [removed.entries]
  by_cases isEntry : a = e
  · rw [if_pos isEntry, isEntry, update_self]
    rfl
  · rw [if_neg isEntry, update_of_ne isEntry, map_map]
    cases m.entryCells.read a with
    | none => rfl
    | some other => exact congrArg some (same other _ _ _)

theorem Removed.dsmlOf {list : List Nat}
    (removed : Removed m e cell block recent list entryCells blockCells)
    (foundBlock : m.blockCells.read cell.block = some block) :
    (m.without e cell block recent entryCells blockCells).dsmlOf =
      if 1 < block.refs then m.dsmlOf else update m.dsmlOf cell.block none := by
  funext b
  change (blockCells.read b).map BlockCell.dsml = _
  rw [removed.blocks]
  by_cases same : b = cell.block
  · rw [if_pos same]
    split
    · rw [same, dsmlOf_eq foundBlock, map_some]
    · rw [same, update_self]
      rfl
  · rw [if_neg same]
    split
    · rfl
    · rw [update_of_ne same]
      rfl

variable (removed : Removed m e cell block recent (lists cell.block) entryCells blockCells)
  (sound : m.Sound recent lists) (found : m.entryCells.read e = some cell)
  (foundBlock : m.blockCells.read cell.block = some block)

include found foundBlock in
theorem Sound.length_erase (sound : m.Sound recent lists) :
    ((lists cell.block).erase e).length = block.refs - 1 := by
  rw [List.length_erase_of_mem (sound.showsBlock found).2, (sound.block _ block foundBlock).2]

theorem Sound.mem_block_iff (sound : m.Sound recent lists) {a : Nat} {other : EntryCell}
    (atA : m.entryCells.read a = some other) {b : Nat} : a ∈ lists b ↔ other.block = b := by
  rw [sound.groups.mem_iff, blockOf_eq atA, Option.some.injEq]

include removed sound in
theorem Removed.blockNext {a : Nat} {after : EntryCell} (atA : entryCells.read a = some after) :
    after.blockNext = follower a (update lists cell.block
      ((lists cell.block).erase e) after.block) := by
  obtain ⟨-, other, atOther, rfl⟩ := removed.back atA
  change (if a ∈ lists cell.block then _ else other.blockNext) =
    follower a (update lists cell.block _ other.block)
  by_cases same : other.block = cell.block
  · rw [if_pos ((sound.mem_block_iff atOther).mpr same), same, update_self]
  · rw [if_neg fun listed => same ((sound.mem_block_iff atOther).mp listed),
      update_of_ne same]
    exact sound.blockNext a other atOther

include removed sound found foundBlock in
theorem Removed.liveBlocks (b : Nat) : update lists cell.block ((lists cell.block).erase e) b ≠ [] ↔
      ∃ after, blockCells.read b = some after := by
  have length := sound.length_erase found foundBlock
  rw [removed.blocks]
  by_cases same : b = cell.block
  · rw [same, update_self, if_pos rfl, ← List.length_pos_iff, length]
    split
    next more =>
      exact iff_of_true (by omega) ⟨_, rfl⟩
    next last =>
      exact iff_of_false (by omega) (by simp)
  · rw [update_of_ne same, if_neg same]
    exact sound.blocks b

include removed sound found foundBlock in
theorem Removed.blockCounts {b : Nat} {after : BlockCell} (atB : blockCells.read b = some after) :
    after.entries = (update lists cell.block ((lists cell.block).erase e) b).head? ∧
      after.refs = (update lists cell.block ((lists cell.block).erase e) b).length := by
  rcases removed.backBlock atB with ⟨rfl, -, rfl⟩ | ⟨ne, atB⟩
  · rw [update_self, sound.length_erase found foundBlock]
    exact ⟨rfl, rfl⟩
  · rw [update_of_ne ne]
    exact sound.block b after atB

include removed sound found foundBlock in
theorem Removed.pair {a : Nat} (ne : a ≠ e) :
    (m.without e cell block recent entryCells blockCells).pair a = m.pair a := by
  have ids : (m.without e cell block recent entryCells blockCells).idOf = _ :=
    removed.field EntryCell.id fun _ _ _ _ => rfl
  have blocks : (m.without e cell block recent entryCells blockCells).blockOf = _ :=
    removed.field EntryCell.block fun _ _ _ _ => rfl
  rw [ToolHeap.pair, ToolHeap.pair, ids, blocks, update_of_ne ne,
    update_of_ne ne, removed.dsmlOf foundBlock]
  cases atA : m.entryCells.read a with
  | none =>
    rw [idOf, atA]
    rfl
  | some other =>
    rw [idOf, atA, blockOf_eq atA]
    simp only [map_some, bind_eq_bind, bind_some]
    split
    · rfl
    next last =>
      -- Another entry of the block would have kept it.
      have otherBlock : other.block ≠ cell.block := by
        intro same
        have left := List.length_pos_of_mem ((List.mem_erase_of_ne ne).mpr
          ((sound.mem_block_iff atA).mpr same))
        have length := sound.length_erase found foundBlock
        omega
      rw [update_of_ne otherBlock]

end Left

theorem removeEntry_spec (sound : m.Sound recent lists) {cell : EntryCell}
    (found : m.entryCells.read e = some cell) : ∃ next, m.removeEntry e = some next ∧
      next.Sound (recent.erase e) (update lists cell.block ((lists cell.block).erase e)) ∧
      m.SameLimits next ∧ ∀ a, a ≠ e → next.pair a = m.pair a := by
  have mem := sound.listed e cell found
  obtain ⟨showsBlock, inList⟩ := sound.showsBlock found
  obtain ⟨block, foundBlock, -⟩ := showsBlock.block
  obtain ⟨entryCells, blockCells, isRemoved, removed⟩ :=
    removeEntry_eq sound.toShows mem sound.linked found foundBlock showsBlock inList
  have ids : (m.without e cell block recent entryCells blockCells).idOf =
      update m.idOf e none := removed.field EntryCell.id fun _ _ _ _ => rfl
  have blocks : (m.without e cell block recent entryCells blockCells).blockOf =
      update m.blockOf e none := removed.field EntryCell.block fun _ _ _ _ => rfl
  refine ⟨_, isRemoved, {
    nodup := sound.nodup.erase e
    live := fun a listed => ?_
    head := rfl
    tail := rfl
    listed := fun a after atA => ?_
    linked := fun a after atA => ?_
    byId := ids ▸ sound.byId.erase (idOf_eq found)
    groups := blocks ▸ sound.groups.erase (blockOf_eq found)
    blockNext := fun a after atA => removed.blockNext sound atA
    blocks := removed.liveBlocks sound found foundBlock
    block := fun b after atB => removed.blockCounts sound found foundBlock atB
    byBlock := ?_
    entry_sizes := fun a after atA => ?_
    block_sizes := fun b after atB => ?_
    entries := ?_
    bytes := ?_ }, ⟨rfl, rfl, isSome_map, ?_⟩,
    fun a ne => removed.pair sound found foundBlock ne⟩
  · obtain ⟨ne, listed⟩ := sound.nodup.mem_erase_iff.mp listed
    obtain ⟨other, atA⟩ := sound.live a listed
    exact ⟨_, (removed.entries a).trans (by rw [if_neg ne, atA, map_some])⟩
  · obtain ⟨ne, other, atOther, -⟩ := removed.back atA
    exact sound.nodup.mem_erase_iff.mpr ⟨ne, sound.listed a other atOther⟩
  · obtain ⟨-, other, -, rfl⟩ := removed.back atA
    exact ⟨rfl, rfl⟩
  · rw [removed.dsmlOf foundBlock]
    change Indexes (if 1 < block.refs then m.byBlock else _) _
    split
    · exact sound.byBlock
    · exact sound.byBlock.erase (dsmlOf_eq foundBlock)
  · obtain ⟨-, other, atOther, rfl⟩ := removed.back atA
    exact sound.entry_sizes a other atOther
  · rcases removed.backBlock atB with ⟨rfl, -, rfl⟩ | ⟨-, atB⟩
    · exact sound.block_sizes _ block foundBlock
    · exact sound.block_sizes b after atB
  · rw [List.length_erase_of_mem mem, ← sound.entries]
    rfl
  · have bytes := sound.bytes
    obtain ⟨-, -, entryTotal, blockTotal⟩ := removed
    change (if 1 < block.refs then _ else _) = entryCells.total EntryCell.bytes +
      blockCells.total BlockCell.bytes
    split
    next more =>
      rw [if_pos more] at blockTotal
      omega
    next last =>
      rw [if_neg last] at blockTotal
      omega
  · change (if 1 < block.refs then m.byBlock else _).isSome = m.byBlock.isSome
    split
    · rfl
    · exact isSome_map

end ToolHeap

end Chat

end LnaLang
