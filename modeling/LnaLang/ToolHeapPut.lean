import LnaLang.ToolHeapSound

/-!
# Puts into the tool memory

A put makes an entry, and its block if there is none with its text; then entries go until
the memory is within its limits.
-/

namespace LnaLang.Chat

open ListNeighbors Option Function

namespace ToolHeap

variable {m : ToolHeap} {recent : List Nat} {lists : Nat → List Nat} {e : Nat}

section Adding

/-- The block of a text, with the entries it has. -/
structure Got (m : ToolHeap) (lists : Nat → List Nat) (dsml : Bytes) (b : Nat)
    (block : BlockCell) (blockCells : CellHeap BlockCell) (index : Rax) : Prop where
  found : blockCells.read b = some block
  others : ∀ other, other ≠ b → blockCells.read other = m.blockCells.read other
  isText : block.dsml = dsml
  sizes : block.len = dsml.length ∧ block.bytes = blockBytes dsml
  list : block.entries = (lists b).head? ∧ block.refs = (lists b).length
  known : lists b ≠ [] → m.dsmlOf b = some dsml
  index : Indexes (some index) fun other => (blockCells.read other).map BlockCell.dsml

variable (allocator : CellHeap.Allocator)

theorem getBlock_spec (sound : m.Sound recent lists) {dsml : Bytes} (nonempty : dsml ≠ [])
    (ready : m.byBlock.isSome) :
    ∃ (b : Nat) (block : BlockCell) (blockCells : CellHeap BlockCell) (i : Rax) (turn : Nat),
      m.getBlock allocator dsml = some (b, { m with
        blockCells
        byBlock := some i
        turn
        bytes := m.entryCells.total EntryCell.bytes + blockCells.total BlockCell.bytes }) ∧
      Got m lists dsml b block blockCells i := by
  obtain ⟨i, isIndex⟩ := isSome_iff_exists.mp ready
  have indexes := sound.byBlock
  rw [isIndex] at indexes
  have find : m.findBlock dsml = i.lookup dsml := by
    rw [findBlock, if_neg nonempty, isIndex, bind_some]
  unfold getBlock
  rw [find]
  cases search : i.lookup dsml with
  | some b =>
    have named : m.dsmlOf b = some dsml := (indexes dsml b).mp (by
      rw [bind_some, search])
    obtain ⟨block, found, isText⟩ := map_eq_some_iff.mp named
    obtain ⟨-, sizes⟩ := sound.block_sizes b block found
    refine ⟨b, block, m.blockCells, i, m.turn, ?_, found, fun _ _ => rfl, isText,
      isText ▸ sizes, sound.block b block found, fun _ => named, indexes⟩
    rw [← sound.bytes, ← isIndex]
    rfl
  | none =>
    -- A new block has no entries yet.
    set b := allocator.pick m.turn m.blockCells.keys with isPick
    have free : b ∉ m.blockCells.keys := allocator.pick_notMem _ _
    have unread := CellHeap.notMem_keys_iff.mp free
    have noEntries : lists b = [] := by
      by_contra some
      obtain ⟨block, found⟩ := (sound.blocks b).mp some
      rw [unread] at found
      cases found
    have unnamed : m.dsmlOf b = none := by
      rw [dsmlOf, unread]
      rfl
    obtain ⟨inserted, indexesNew⟩ := indexes.insert unnamed search
    set block : BlockCell :=
      { dsml, len := dsml.length, bytes := blockBytes dsml, refs := 0, entries := none }
      with isBlock
    refine ⟨b, block, m.blockCells.insert b block, i.insert dsml b, m.turn + 1, ?_,
      ?_, fun other ne => ?_, rfl, ⟨rfl, rfl⟩, ?_, fun some => absurd noEntries some,
      ?_⟩
    · simp only [isIndex, bind_eq_bind, bind_some, inserted, pure_def]
      rw [CellHeap.total_insert free, ← Nat.add_assoc, ← sound.bytes]
    · rw [CellHeap.read_insert, if_pos rfl]
    · rw [CellHeap.read_insert, if_neg ne]
    · rw [noEntries]
      exact ⟨rfl, rfl⟩
    · convert indexesNew using 1
      funext other
      rw [CellHeap.read_insert]
      by_cases same : other = b
      · subst same
        rw [if_pos rfl, update_self]
        rfl
      · rw [if_neg same, update_of_ne same]
        rfl

/-- The entry that a put makes. -/
def newCell (m : ToolHeap) (id : Bytes) (source : MemorySource) (b : Nat)
    (block : BlockCell) : EntryCell :=
  { id, block := b, bytes := entryBytes id, stamp := m.clock + 1, source
    prev := none, next := none, blockNext := block.entries }

/-- The objects with the new entry, which is the first in the list of its block and in the
recency list. -/
structure Added (m : ToolHeap) (e b : Nat) (cell : EntryCell) (block : BlockCell)
    (recent : List Nat) (entryCells : CellHeap EntryCell)
    (blockCells : CellHeap BlockCell) : Prop where
  free : m.entryCells.read e = none
  entries : ∀ a, entryCells.read a =
    (if a = e then some cell else m.entryCells.read a).map fun other => other.relink a (e :: recent)
  blocks : ∀ other, blockCells.read other =
    if other = b then some { block with entries := some e, refs := block.refs + 1 }
    else m.blockCells.read other
  entryTotal : entryCells.total EntryCell.bytes =
    m.entryCells.total EntryCell.bytes + cell.bytes

theorem addEntry_eq (sound : m.Sound recent lists) {id dsml : Bytes} (idNonempty : id ≠ [])
    (nonempty : dsml ≠ []) (source : MemorySource) (readyId : m.byId.isSome)
    (readyBlock : m.byBlock.isSome) (isNew : m.findEntry id = none) :
    ∃ (e b : Nat) (block : BlockCell) (blocks : CellHeap BlockCell) (blockIndex idIndex : Rax)
      (turn : Nat) (entryCells : CellHeap EntryCell) (blockCells : CellHeap BlockCell),
      m.addEntry allocator id dsml source = some { m with
        entryCells
        blockCells
        turn
        byId := some idIndex
        byBlock := some blockIndex
        head := some e
        tail := (e :: recent).getLast?
        entries := m.entries + 1
        bytes := m.entryCells.total EntryCell.bytes + blockCells.total BlockCell.bytes +
          entryBytes id
        clock := m.clock + 1 } ∧
      Got m lists dsml b block blocks blockIndex ∧
      Indexes (some idIndex) (update m.idOf e (some id)) ∧
      Added m e b (m.newCell id source b block) block recent entryCells blockCells := by
  obtain ⟨b, block, blocks, blockIndex, turn, isGot, got⟩ :=
    getBlock_spec allocator sound nonempty readyBlock
  obtain ⟨idIndex, isIdIndex⟩ := isSome_iff_exists.mp readyId
  set e := allocator.pick turn m.entryCells.keys with isPick
  have free : e ∉ m.entryCells.keys := allocator.pick_notMem _ _
  have unread := CellHeap.notMem_keys_iff.mp free
  have absent : e ∉ recent := by
    intro mem
    obtain ⟨cell, atE⟩ := sound.live e mem
    rw [unread] at atE
    cases atE
  -- The entry is made, and put in front of the list of its block.
  set made := m.entryCells.insert e (m.newCell id source b block) with isMade
  have readsMade (a : Nat) : CellHeap.read made a =
      if a = e then some (m.newCell id source b block) else m.entryCells.read a :=
    CellHeap.read_insert _ _ _ _
  obtain ⟨blockCells, changed, readsBlocks⟩ := CellHeap.change_eq_some got.found
    fun block => { block with entries := some e, refs := block.refs + 1 }
  have blockTotal : blockCells.total BlockCell.bytes = blocks.total BlockCell.bytes := by
    apply CellHeap.total_congr
    intro other
    rw [readsBlocks]
    split
    next same =>
      rw [same, got.found]
      rfl
    · rfl
  -- It gets its id,
  have unnamed : m.idOf e = none := by
    rw [idOf, unread]
    rfl
  have indexes := sound.byId
  rw [isIdIndex] at indexes
  have isNewId : idIndex.lookup id = none := by
    rw [findEntry, if_neg idNonempty, isIdIndex, bind_some] at isNew
    exact isNew
  obtain ⟨inserted, indexesId⟩ := indexes.insert unnamed isNewId
  -- and is the first of the recency list.
  obtain ⟨cells, linked, readsCells⟩ := @linkHead_spec { m with
      entryCells := made
      blockCells
      turn := turn + 1
      byId := some (idIndex.insert id e)
      byBlock := some blockIndex
      bytes := m.entryCells.total EntryCell.bytes + blocks.total BlockCell.bytes
      clock := m.clock + 1 } recent e
    ⟨sound.nodup, fun a mem => by
      obtain ⟨other, atA⟩ := sound.live a mem
      have ne : a ≠ e := fun same => absent (same ▸ mem)
      exact ⟨other, (readsMade a).trans ((if_neg ne).trans atA)⟩,
      sound.head, sound.tail⟩ absent ⟨_, (readsMade e).trans (if_pos rfl)⟩
    (fun a other atA ne => by
      change CellHeap.read made a = some other at atA
      rw [readsMade, if_neg ne] at atA
      exact sound.linked a other atA)
  change ∀ a, cells.read a = (CellHeap.read made a).map _ at readsCells
  refine ⟨e, b, block, blocks, blockIndex, idIndex.insert id e, turn + 1, cells, blockCells,
    ?_, got, indexesId, unread, fun a => ?_, fun other => ?_, ?_⟩
  · rw [blockTotal]
    simp only [addEntry, isGot, bind_eq_bind, bind_some, got.found, changeBlock,
      changed, pure_def, isIdIndex, inserted, ← isPick]
    change ((linkHead { m with
      entryCells := made
      blockCells
      turn := turn + 1
      byId := some (idIndex.insert id e)
      byBlock := some blockIndex
      bytes := m.entryCells.total EntryCell.bytes + blocks.total BlockCell.bytes
      clock := m.clock + 1 } e).bind _) = _
    rw [linked]
    rfl
  · rw [readsCells, readsMade]
  · rw [readsBlocks]
    split
    · rfl
    next ne =>
      exact got.others other ne
  · rw [← @CellHeap.total_insert _ _ _ EntryCell.bytes free (m.newCell id source b block)]
    apply CellHeap.total_congr
    intro a
    rw [readsCells, map_map]
    change _ = (CellHeap.read made a).map EntryCell.bytes
    cases CellHeap.read made a <;> rfl

section More

variable {b : Nat} {cell : EntryCell} {block : BlockCell} {entryCells : CellHeap EntryCell}
  {blockCells : CellHeap BlockCell}
  (added : Added m e b cell block recent entryCells blockCells)

include added

theorem Added.back {a : Nat} {after : EntryCell} (atA : entryCells.read a = some after) :
    a = e ∧ after = cell.relink e (e :: recent) ∨
      a ≠ e ∧ ∃ other, m.entryCells.read a = some other ∧ after = other.relink a (e :: recent) := by
  rw [added.entries] at atA
  split at atA
  next isEntry =>
    subst isEntry
    exact Or.inl ⟨rfl, (Option.some.inj atA).symm⟩
  next ne =>
    obtain ⟨other, atOther, rfl⟩ := map_eq_some_iff.mp atA
    exact Or.inr ⟨ne, other, atOther, rfl⟩

theorem Added.field {α : Type} (read : EntryCell → α) (same : ∀ (other : EntryCell) prev next,
    read { other with prev, next } = read other) :
    (fun a => (entryCells.read a).map read) =
      update (fun a => (m.entryCells.read a).map read) e (some (read cell)) := by
  funext a
  rw [added.entries, map_map]
  by_cases isEntry : a = e
  · rw [if_pos isEntry, isEntry, update_self]
    exact congrArg some (same cell _ _)
  · rw [if_neg isEntry, update_of_ne isEntry]
    cases m.entryCells.read a with
    | none => rfl
    | some other => exact congrArg some (same other _ _)

variable (sound : m.Sound recent lists)

include sound

theorem Added.absent : e ∉ recent := by
  intro mem
  obtain ⟨cell, atE⟩ := sound.live e mem
  rw [added.free] at atE
  cases atE

theorem Added.blockNext (isBlock : cell.block = b)
    (isNext : cell.blockNext = (lists b).head?) {a : Nat} {after : EntryCell}
    (atA : entryCells.read a = some after) :
    after.blockNext = follower a (update lists b (e :: lists b) after.block) := by
  rcases added.back atA with ⟨rfl, rfl⟩ | ⟨ne, other, atOther, rfl⟩
  · change cell.blockNext = follower a (update lists b _ cell.block)
    rw [isBlock, update_self, follower_cons_self, isNext]
  · change other.blockNext = follower a (update lists b _ other.block)
    rw [sound.blockNext a other atOther]
    by_cases same : other.block = b
    · rw [same, update_self, follower_cons_of_ne ne]
    · rw [update_of_ne same]

theorem Added.liveBlocks (other : Nat) : update lists b (e :: lists b) other ≠ [] ↔
      ∃ after, blockCells.read other = some after := by
  rw [added.blocks]
  by_cases same : other = b
  · rw [same, update_self, if_pos rfl]
    exact iff_of_true (List.cons_ne_nil _ _) ⟨_, rfl⟩
  · rw [update_of_ne same, if_neg same]
    exact sound.blocks other

theorem Added.blockCounts (isRefs : block.refs = (lists b).length)
    {other : Nat} {after : BlockCell} (atOther : blockCells.read other = some after) :
    after.entries = (update lists b (e :: lists b) other).head? ∧
      after.refs = (update lists b (e :: lists b) other).length := by
  rw [added.blocks] at atOther
  by_cases same : other = b
  · rw [if_pos same] at atOther
    cases atOther
    rw [same, update_self, List.head?_cons, List.length_cons, ← isRefs]
    exact ⟨rfl, rfl⟩
  · rw [if_neg same] at atOther
    rw [update_of_ne same]
    exact sound.block other after atOther

end More

theorem addEntry_spec (sound : m.Sound recent lists) {id dsml : Bytes} (idNonempty : id ≠ [])
    (nonempty : dsml ≠ []) (source : MemorySource) (readyId : m.byId.isSome)
    (readyBlock : m.byBlock.isSome) (isNew : m.findEntry id = none) :
    ∃ (e : Nat) (after : Nat → List Nat) (next : ToolHeap),
      m.addEntry allocator id dsml source = some next ∧ e ∉ recent ∧
      next.Sound (e :: recent) after ∧ m.SameLimits next ∧
      next.pair e = some (id, dsml) ∧ ∀ a, a ≠ e → next.pair a = m.pair a := by
  obtain ⟨e, b, block, blocks, blockIndex, idIndex, turn, entryCells, blockCells, isAdded, got,
    indexesId, added⟩ := addEntry_eq allocator sound idNonempty nonempty source readyId
      readyBlock isNew
  have absent := added.absent sound
  have noBlock : m.blockOf e = none := by
    rw [blockOf, added.free]
    rfl
  refine ⟨e, update lists b (e :: lists b), _, isAdded, absent, ?_⟩
  set next : ToolHeap := { m with
    entryCells
    blockCells
    turn
    byId := some idIndex
    byBlock := some blockIndex
    head := some e
    tail := (e :: recent).getLast?
    entries := m.entries + 1
    bytes := m.entryCells.total EntryCell.bytes + blockCells.total BlockCell.bytes + entryBytes id
    clock := m.clock + 1 } with isNext
  have ids : next.idOf = update m.idOf e (some id) := added.field EntryCell.id fun _ _ _ => rfl
  have blockOfs : next.blockOf = update m.blockOf e (some b) :=
    added.field EntryCell.block fun _ _ _ => rfl
  have texts : next.dsmlOf = fun other => (blocks.read other).map BlockCell.dsml := by
    funext other
    rw [dsmlOf, show next.blockCells.read other = _ from added.blocks other]
    split
    next same =>
      rw [same, got.found]
      rfl
    next ne =>
      rw [got.others other ne]
  refine ⟨{
    nodup := List.nodup_cons.mpr ⟨absent, sound.nodup⟩
    live := fun a mem => ?_
    head := rfl
    tail := rfl
    listed := fun a after atA => ?_
    linked := fun a after atA => ?_
    byId := ids ▸ indexesId
    groups := blockOfs ▸ sound.groups.cons noBlock b
    blockNext := fun a after atA => added.blockNext sound rfl got.list.1 atA
    blocks := added.liveBlocks sound
    block := fun other after atOther => added.blockCounts sound got.list.2 atOther
    byBlock := texts ▸ got.index
    entry_sizes := fun a after atA => ?_
    block_sizes := fun other after atOther => ?_
    entries := ?_
    bytes := ?_ }, ⟨rfl, rfl, readyId.symm, readyBlock.symm⟩, ?_, fun a ne => ?_⟩
  · rw [show next.entryCells.read a = _ from added.entries a]
    split
    · exact ⟨_, rfl⟩
    next ne =>
      obtain ⟨other, atA⟩ := sound.live a (List.mem_of_ne_of_mem ne mem)
      rw [atA]
      exact ⟨_, rfl⟩
  · rcases added.back atA with ⟨rfl, -⟩ | ⟨-, other, atOther, -⟩
    · exact List.mem_cons_self
    · exact List.mem_cons_of_mem _ (sound.listed a other atOther)
  · rcases added.back atA with ⟨rfl, rfl⟩ | ⟨-, other, -, rfl⟩ <;> exact ⟨rfl, rfl⟩
  · rcases added.back atA with ⟨rfl, rfl⟩ | ⟨-, other, atOther, rfl⟩
    · exact ⟨idNonempty, rfl⟩
    · exact sound.entry_sizes a other atOther
  · rw [show next.blockCells.read other = _ from added.blocks other] at atOther
    split at atOther
    · cases atOther
      change block.dsml ≠ [] ∧ block.len = block.dsml.length ∧ block.bytes = blockBytes block.dsml
      rw [got.isText]
      exact ⟨nonempty, got.sizes⟩
    · exact sound.block_sizes other after atOther
  · rw [List.length_cons, ← sound.entries]
  · have entryTotal := added.entryTotal
    change _ = m.entryCells.total EntryCell.bytes + entryBytes id at entryTotal
    change m.entryCells.total EntryCell.bytes + blockCells.total BlockCell.bytes +
      entryBytes id = entryCells.total EntryCell.bytes + blockCells.total BlockCell.bytes
    omega
  · rw [pair, ids, blockOfs, update_self, update_self, texts]
    simp only [bind_eq_bind, bind_some, got.found, map_some, got.isText, pure_def]
  · rw [pair, pair, ids, blockOfs, update_of_ne ne, update_of_ne ne, texts]
    cases atA : m.entryCells.read a with
    | none =>
      rw [idOf, atA]
      rfl
    | some other =>
      rw [blockOf_eq atA]
      simp only [bind_eq_bind, bind_some]
      by_cases same : other.block = b
      · have listed : a ∈ lists b := (sound.mem_block_iff atA).mpr same
        rw [same, got.found, got.known (List.ne_nil_of_mem listed), map_some, got.isText]
      · rw [got.others _ same]
        rfl

end Adding

end ToolHeap

end LnaLang.Chat
