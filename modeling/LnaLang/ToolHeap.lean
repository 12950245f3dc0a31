import LnaLang.KeyedList
import LnaLang.ToolMemory

/-!
# The tool memory with its pointers

The objects of `tool_memory` as they stand in memory: entries in a doubly linked list in
the order of their last use, blocks with a linked list of their entries and a count of
them, and two indexes.  An operation yields nothing if it follows a pointer to an object
that is not there, inserts a key that an index has, or runs around a list in a circle.
The last part says what the assignments to the links make of the lists.
-/

namespace LnaLang.Chat

/-- `tool_memory_source`. -/
inductive MemorySource where
  | ram
  | disk
  deriving DecidableEq, Repr

/-- `tool_memory_entry`. -/
structure EntryCell where
  id : Bytes
  block : Nat
  bytes : Nat
  stamp : UInt64
  source : MemorySource
  prev : Option Nat
  next : Option Nat
  blockNext : Option Nat
  deriving DecidableEq, Repr

/-- `tool_memory_block`. -/
structure BlockCell where
  dsml : Bytes
  len : Nat
  bytes : Nat
  refs : Nat
  entries : Option Nat
  deriving DecidableEq, Repr

/-- A `rax` of pointers: a finite map. -/
abbrev Rax := Finmap fun _ : Bytes => Nat

/-- `raxInsert`, which is used for new keys only. -/
def raxInsert (index : Rax) (key : Bytes) (value : Nat) : Option Rax :=
  if key ∈ index then none else some (index.insert key value)

/-- `tool_memory`, with the live objects that it points to and the number of objects
that have been made. -/
structure ToolHeap where
  entryCells : CellHeap EntryCell
  blockCells : CellHeap BlockCell
  turn : Nat
  byId : Option Rax
  byBlock : Option Rax
  head : Option Nat
  tail : Option Nat
  entries : Nat
  maxEntries : Nat
  bytes : Nat
  maxBytes : Nat
  clock : UInt64

namespace ToolHeap

/-- A memory that nothing has been put into. -/
def empty (maxEntries maxBytes : Nat) : ToolHeap where
  entryCells := ∅
  blockCells := ∅
  turn := 0
  byId := none
  byBlock := none
  head := none
  tail := none
  entries := 0
  maxEntries
  bytes := 0
  maxBytes
  clock := 0

def changeEntry (m : ToolHeap) (e : Nat) (update : EntryCell → EntryCell) :
    Option ToolHeap := do
  let entryCells ← m.entryCells.change e update
  pure { m with entryCells }

def changeBlock (m : ToolHeap) (b : Nat) (update : BlockCell → BlockCell) :
    Option ToolHeap := do
  let blockCells ← m.blockCells.change b update
  pure { m with blockCells }

/-- `tool_memory_max_entries`, with `DS4_TOOL_MEMORY_DEFAULT_MAX_IDS`. -/
def entryLimit (m : ToolHeap) : Nat :=
  if 0 < m.maxEntries then m.maxEntries else 100000

/-- `tool_memory_max_bytes`. -/
def byteLimit (m : ToolHeap) : Nat :=
  if 0 < m.maxBytes then m.maxBytes else maxMemoryBytes

/-- `tool_memory_init_locked`. -/
def init (m : ToolHeap) : ToolHeap :=
  if m.byId.isSome && m.byBlock.isSome then m
  else { m with byId := some ∅, byBlock := some ∅ }

/-- The assignment of `tool_memory_unlink` in front of an entry: to the `next` of the
entry there, or to the head. -/
def setForward (m : ToolHeap) (prev value : Option Nat) : Option ToolHeap :=
  match prev with
  | some prev => m.changeEntry prev fun cell => { cell with next := value }
  | none => pure { m with head := value }

/-- The assignment of `tool_memory_unlink` and `tool_memory_link_head` behind an entry: to
the `prev` of the entry there, or to the tail. -/
def setBackward (m : ToolHeap) (next value : Option Nat) : Option ToolHeap :=
  match next with
  | some next => m.changeEntry next fun cell => { cell with prev := value }
  | none => pure { m with tail := value }

/-- `tool_memory_link_head`. -/
def linkHead (m : ToolHeap) (e : Nat) : Option ToolHeap := do
  let m ← m.changeEntry e fun cell => { cell with prev := none, next := m.head }
  let m ← m.setBackward m.head (some e)
  pure { m with head := some e }

/-- `tool_memory_unlink`. -/
def unlink (m : ToolHeap) (e : Nat) : Option ToolHeap := do
  let cell ← m.entryCells.read e
  let m ← m.setForward cell.prev cell.next
  let cell ← m.entryCells.read e
  let m ← m.setBackward cell.next cell.prev
  m.changeEntry e fun cell => { cell with prev := none, next := none }

/-- `tool_memory_touch`. -/
def touch (m : ToolHeap) (e : Nat) : Option ToolHeap := do
  let clock := m.clock + 1
  let m ← changeEntry { m with clock } e fun cell => { cell with stamp := clock }
  if m.head = some e then pure m
  else
    let m ← m.unlink e
    m.linkHead e

/-- What the pointer `p` of `tool_block_unlink_entry` points to. -/
inductive Slot where
  | entries (b : Nat)
  | blockNext (e : Nat)
  deriving DecidableEq, Repr

def readSlot (m : ToolHeap) : Slot → Option (Option Nat)
  | .entries b => (m.blockCells.read b).map BlockCell.entries
  | .blockNext e => (m.entryCells.read e).map EntryCell.blockNext

def writeSlot (m : ToolHeap) (value : Option Nat) : Slot → Option ToolHeap
  | .entries b => m.changeBlock b fun block => { block with entries := value }
  | .blockNext e => m.changeEntry e fun cell => { cell with blockNext := value }

/-- The loop of `tool_block_unlink_entry`, for a number of steps. -/
def blockUnlinkLoop (m : ToolHeap) (e : Nat) : Nat → Slot → Option ToolHeap
  | 0, _ => none
  | steps + 1, slot => do
    match ← m.readSlot slot with
    | none => pure m
    | some other =>
      if other = e then
        let cell ← m.entryCells.read e
        let m ← m.writeSlot cell.blockNext slot
        m.changeEntry e fun cell => { cell with blockNext := none }
      else m.blockUnlinkLoop e steps (.blockNext other)

/-- `tool_block_unlink_entry`.  A list that does not run in a circle has at most all live
entries. -/
def blockUnlinkEntry (m : ToolHeap) (b e : Nat) : Option ToolHeap :=
  m.blockUnlinkLoop e (m.entryCells.keys.card + 1) (.entries b)

/-- `tool_memory_find_block_locked`. -/
def findBlock (m : ToolHeap) (dsml : Bytes) : Option Nat :=
  if dsml = [] then none else m.byBlock.bind fun index => index.lookup dsml

/-- `tool_memory_get_block_locked`. -/
def getBlock (allocator : CellHeap.Allocator) (m : ToolHeap) (dsml : Bytes) :
    Option (Nat × ToolHeap) :=
  match m.findBlock dsml with
  | some b => pure (b, m)
  | none => do
    let b := allocator.pick m.turn m.blockCells.keys
    let block : BlockCell :=
      { dsml, len := dsml.length, bytes := blockBytes dsml, refs := 0, entries := none }
    let index ← m.byBlock
    let index ← raxInsert index dsml b
    pure (b, { m with
      blockCells := m.blockCells.insert b block
      turn := m.turn + 1
      byBlock := some index
      bytes := m.bytes + block.bytes })

/-- `tool_memory_release_block_locked`. -/
def releaseBlock (m : ToolHeap) (b : Nat) : Option ToolHeap := do
  let m ← m.changeBlock b fun block => { block with refs := block.refs - 1 }
  let block ← m.blockCells.read b
  if 0 < block.refs then pure m
  else
    pure { m with
      byBlock := m.byBlock.map fun index : Rax => index.erase block.dsml
      bytes := m.bytes - block.bytes
      blockCells := m.blockCells.erase b }

section Operations

/-- `tool_memory_remove_entry_locked`. -/
def removeEntry (m : ToolHeap) (e : Nat) : Option ToolHeap := do
  let cell ← m.entryCells.read e
  let m := { m with byId := m.byId.map fun index : Rax => index.erase cell.id }
  let m ← m.unlink e
  let m ← m.blockUnlinkEntry cell.block e
  let m := { m with bytes := m.bytes - cell.bytes, entries := m.entries - 1 }
  let m ← m.releaseBlock cell.block
  pure { m with entryCells := m.entryCells.erase e }

/-- The memory is beyond one of its limits. -/
def full (m : ToolHeap) : Bool :=
  m.entryLimit < m.entries || m.byteLimit < m.bytes

/-- The loop of `tool_memory_prune_locked`, for a number of steps. -/
def pruneLoop : Nat → ToolHeap → Option ToolHeap
  | 0, _ => none
  | steps + 1, m =>
    match m.tail with
    | some e =>
      if m.full then do
        let m ← m.removeEntry e
        pruneLoop steps m
      else pure m
    | none => pure m

/-- `tool_memory_prune_locked`. -/
def prune (m : ToolHeap) : Option ToolHeap :=
  pruneLoop (m.entryCells.keys.card + 1) m

/-- `tool_memory_find_entry_locked`. -/
def findEntry (m : ToolHeap) (id : Bytes) : Option Nat :=
  if id = [] then none else m.byId.bind fun index => index.lookup id

variable (allocator : CellHeap.Allocator)

/-- The part of `tool_memory_put_locked` that makes an entry. -/
def addEntry (m : ToolHeap) (id dsml : Bytes) (source : MemorySource) :
    Option ToolHeap := do
  let (b, m) ← m.getBlock allocator dsml
  let block ← m.blockCells.read b
  let e := allocator.pick m.turn m.entryCells.keys
  let clock := m.clock + 1
  let cell : EntryCell :=
    { id, block := b, bytes := entryBytes id, stamp := clock, source
      prev := none, next := none, blockNext := block.entries }
  let m := { m with
    entryCells := m.entryCells.insert e cell
    turn := m.turn + 1
    clock }
  let m ← m.changeBlock b fun block =>
    { block with entries := some e, refs := block.refs + 1 }
  let index ← m.byId
  let index ← raxInsert index id e
  let m ← linkHead { m with byId := some index } e
  pure { m with entries := m.entries + 1, bytes := m.bytes + cell.bytes }

/-- `tool_memory_put_locked`. -/
def put (m : ToolHeap) (id dsml : Bytes) (source : MemorySource) : Option ToolHeap :=
  if id = [] ∨ dsml = [] then pure m
  else
    let m := m.init
    match m.findEntry id with
    | none => do
      let m ← m.addEntry allocator id dsml source
      m.prune
    | some old => do
      let cell ← m.entryCells.read old
      let block ← m.blockCells.read cell.block
      if block.len = dsml.length ∧ block.dsml = dsml then
        let m ← m.changeEntry old fun cell =>
          if source = .ram then { cell with source := .ram } else cell
        let m ← m.touch old
        m.prune
      else
        let m ← m.removeEntry old
        let m ← m.addEntry allocator id dsml source
        m.prune

/-- `tool_memory_lookup_locked`: the text, the source and the block. -/
def lookup (m : ToolHeap) (id : Bytes) : Option (ToolHeap × Option (Bytes × MemorySource × Nat)) :=
  match m.findEntry id with
  | none => pure (m, none)
  | some e => do
    let m ← m.touch e
    let cell ← m.entryCells.read e
    let block ← m.blockCells.read cell.block
    pure (m, some (block.dsml, cell.source, cell.block))

/-- The loop of `tool_memory_remember`. -/
def rememberCalls (dsml : Bytes) : List Call → ToolHeap → Option ToolHeap
  | [], m => pure m
  | call :: calls, m => do
    let m ← m.put allocator (call.id.getD []) dsml .ram
    rememberCalls dsml calls m

/-- `tool_memory_remember`. -/
def remember (m : ToolHeap) (calls : ToolCalls) : Option ToolHeap :=
  if calls.rawDsml.getD [] = [] then pure m
  else rememberCalls allocator (calls.rawDsml.getD []) calls.list m

/-- What is done with a memory. -/
inductive Operation where
  | put (id dsml : Bytes) (source : MemorySource)
  | lookup (id : Bytes)
  | prune
  | remember (calls : ToolCalls)

/-- One operation, with the text that a lookup returns. -/
def perform (m : ToolHeap) : Operation → Option (ToolHeap × List (Option Bytes))
  | .put id dsml source => do
    let m ← m.put allocator id dsml source
    pure (m, [])
  | .lookup id => do
    let (m, found) ← m.lookup id
    pure (m, [found.map Prod.fst])
  | .prune => do
    let m ← m.prune
    pure (m, [])
  | .remember calls => do
    let m ← m.remember allocator calls
    pure (m, [])

/-- A sequence of operations, with the texts of the lookups. -/
def run : List Operation → ToolHeap → Option (ToolHeap × List (Option Bytes))
  | [], m => pure (m, [])
  | operation :: operations, m => do
    let (m, answer) ← m.perform allocator operation
    let (m, answers) ← run operations m
    pure (m, answer ++ answers)

end Operations

end ToolHeap

open ListNeighbors Option

namespace EntryCell

/-- The cell of an entry as a member of a recency list. -/
def relink (cell : EntryCell) (e : Nat) (recent : List Nat) : EntryCell :=
  { cell with prev := follower e recent.reverse, next := follower e recent }

/-- The cell holds the neighbors of its entry in a recency list. -/
def Linked (cell : EntryCell) (e : Nat) (recent : List Nat) : Prop :=
  cell.prev = follower e recent.reverse ∧ cell.next = follower e recent

end EntryCell

namespace ToolHeap

section Recency

variable {m : ToolHeap} {recent : List Nat} {e : Nat}

theorem setForward_spec {prev v : Option Nat}
    (live : ∀ q, prev = some q → ∃ cell, m.entryCells.read q = some cell) :
    ∃ cells : CellHeap EntryCell, m.setForward prev v = some { m with
        entryCells := cells, head := if prev = none then v else m.head } ∧
      ∀ a, cells.read a = (m.entryCells.read a).map fun cell =>
        { cell with next := if prev = some a then v else cell.next } := by
  cases prev with
  | none =>
    refine ⟨m.entryCells, rfl, fun a => ?_⟩
    cases m.entryCells.read a <;> rfl
  | some q =>
    obtain ⟨cell, found⟩ := live q rfl
    obtain ⟨cells, changed, reads⟩ := CellHeap.change_eq_some found
      fun cell => { cell with next := v }
    refine ⟨cells, ?_, fun a => ?_⟩
    · rw [setForward, changeEntry, changed]
      rfl
    · rw [reads]
      split
      next same =>
        subst same
        rw [found, map_some, if_pos rfl]
      next ne =>
        have other : some q ≠ some a := fun same => ne (Option.some.inj same).symm
        simp only [other, if_false]
        cases m.entryCells.read a <;> rfl

theorem setBackward_spec {next v : Option Nat}
    (live : ∀ q, next = some q → ∃ cell, m.entryCells.read q = some cell) :
    ∃ cells : CellHeap EntryCell, m.setBackward next v = some { m with
        entryCells := cells, tail := if next = none then v else m.tail } ∧
      ∀ a, cells.read a = (m.entryCells.read a).map fun cell =>
        { cell with prev := if next = some a then v else cell.prev } := by
  cases next with
  | none =>
    refine ⟨m.entryCells, rfl, fun a => ?_⟩
    cases m.entryCells.read a <;> rfl
  | some q =>
    obtain ⟨cell, found⟩ := live q rfl
    obtain ⟨cells, changed, reads⟩ := CellHeap.change_eq_some found
      fun cell => { cell with prev := v }
    refine ⟨cells, ?_, fun a => ?_⟩
    · rw [setBackward, changeEntry, changed]
      rfl
    · rw [reads]
      split
      next same =>
        subst same
        rw [found, map_some, if_pos rfl]
      next ne =>
        have other : some q ≠ some a := fun same => ne (Option.some.inj same).symm
        simp only [other, if_false]
        cases m.entryCells.read a <;> rfl

/-- The fields of the memory show a list of live entries. -/
structure Shows (m : ToolHeap) (recent : List Nat) : Prop where
  nodup : recent.Nodup
  live : ∀ a ∈ recent, ∃ cell, m.entryCells.read a = some cell
  head : m.head = recent.head?
  tail : m.tail = recent.getLast?

theorem linkHead_spec (shows : m.Shows recent) (absent : e ∉ recent)
    (live : ∃ cell, m.entryCells.read e = some cell)
    (linked : ∀ a cell, m.entryCells.read a = some cell → a ≠ e → cell.Linked a recent) :
    ∃ cells : CellHeap EntryCell, m.linkHead e = some { m with
        entryCells := cells, head := some e, tail := (e :: recent).getLast? } ∧
      ∀ a, cells.read a = (m.entryCells.read a).map fun cell =>
        cell.relink a (e :: recent) := by
  obtain ⟨cell, found⟩ := live
  obtain ⟨first, changed, readsFirst⟩ := CellHeap.change_eq_some found
    fun cell => { cell with prev := none, next := m.head }
  have liveHead : ∀ q, m.head = some q → ∃ cell, first.read q = some cell := by
    intro q isHead
    rw [readsFirst]
    split
    · exact ⟨_, rfl⟩
    · rw [shows.head] at isHead
      exact shows.live q (List.mem_of_head? isHead)
  obtain ⟨cells, set, reads⟩ := @setBackward_spec { m with entryCells := first } m.head
    (some e) liveHead
  refine ⟨cells, ?_, fun a => ?_⟩
  · simp only [linkHead, changeEntry, changed, bind_eq_bind, bind_some, pure_def]
    rw [set]
    simp only [bind_some, Option.some.injEq, ToolHeap.mk.injEq, true_and, and_true]
    rw [shows.head, shows.tail]
    cases recent with
    | nil => rfl
    | cons first rest => rw [List.head?_cons, if_neg (by simp), List.getLast?_cons_cons]
  · rw [reads]
    change (first.read a).map _ = _
    rw [readsFirst]
    have absentReverse : e ∉ recent.reverse := by rwa [List.mem_reverse]
    by_cases same : a = e
    · subst same
      have notHead : m.head ≠ some a := by
        rw [shows.head]
        exact fun isHead => absent (List.mem_of_head? isHead)
      rw [if_pos rfl, map_some, found, map_some, if_neg notHead,
        EntryCell.relink, follower_cons_self, shows.head, List.reverse_cons,
        follower_concat absentReverse, if_neg absentReverse]
    · rw [if_neg same]
      cases atA : m.entryCells.read a with
      | none => rfl
      | some other =>
        obtain ⟨prev, next⟩ := linked a other atA same
        rw [map_some, map_some, EntryCell.relink,
          follower_cons_of_ne same, ← next, List.reverse_cons,
          follower_concat absentReverse]
        congr 2
        -- The old head gets the new entry before it.
        rw [prev, shows.head]
        split
        next isHead =>
          have mem : a ∈ recent.reverse := List.mem_reverse.mpr (List.mem_of_head? isHead)
          have isFirst := (follower_eq_none_iff (List.nodup_reverse.mpr shows.nodup)
            mem).mpr (by rwa [List.getLast?_reverse])
          rw [if_pos mem, isFirst, none_or]
        next notHead =>
          split
          next mem =>
            have notFirst : follower a recent.reverse ≠ none := by
              intro isFirst
              have isHead := (follower_eq_none_iff (List.nodup_reverse.mpr shows.nodup)
                mem).mp isFirst
              rw [List.getLast?_reverse] at isHead
              exact notHead isHead
            obtain ⟨before, isBefore⟩ := ne_none_iff_exists.mp notFirst
            rw [← isBefore, some_or]
          next notMem =>
            exact follower_eq_none notMem

theorem unlink_spec (shows : m.Shows recent) (mem : e ∈ recent)
    (linked : ∀ a cell, m.entryCells.read a = some cell → cell.Linked a recent) :
    ∃ cells : CellHeap EntryCell, m.unlink e = some { m with
        entryCells := cells
        head := (recent.erase e).head?
        tail := (recent.erase e).getLast? } ∧
      ∀ a, cells.read a = (m.entryCells.read a).map fun cell =>
        cell.relink a (recent.erase e) := by
  obtain ⟨cell, found⟩ := shows.live e mem
  obtain ⟨prev, next⟩ := linked e cell found
  have nodupReverse := List.nodup_reverse.mpr shows.nodup
  have memReverse := List.mem_reverse.mpr mem
  have livePrev : ∀ q, cell.prev = some q → ∃ cell, m.entryCells.read q = some cell := by
    intro q isPrev
    rw [prev] at isPrev
    exact shows.live q (List.mem_reverse.mp (mem_of_follower isPrev).2)
  obtain ⟨first, setFirst, readsFirst⟩ := @setForward_spec m cell.prev cell.next livePrev
  have notSelf : cell.prev ≠ some e := by
    rw [prev]
    exact follower_ne_self nodupReverse
  have foundFirst : first.read e = some cell := by rw [readsFirst, found, map_some, if_neg notSelf]
  have liveNext : ∀ q, cell.next = some q → ∃ cell, first.read q = some cell := by
    intro q isNext
    rw [next] at isNext
    obtain ⟨other, atQ⟩ := shows.live q (mem_of_follower isNext).2
    rw [readsFirst, atQ]
    exact ⟨_, rfl⟩
  obtain ⟨second, setSecond, readsSecond⟩ := @setBackward_spec
    { m with entryCells := first, head := if cell.prev = none then cell.next else m.head }
    cell.next cell.prev liveNext
  have notNext : cell.next ≠ some e := by
    rw [next]
    exact follower_ne_self shows.nodup
  have foundSecond : second.read e = some cell := by
    rw [readsSecond]
    change (first.read e).map _ = _
    rw [foundFirst, map_some, if_neg notNext]
  obtain ⟨third, changed, readsThird⟩ := CellHeap.change_eq_some foundSecond
    fun cell => { cell with prev := none, next := none }
  refine ⟨third, ?_, fun a => ?_⟩
  · simp only [unlink, found, bind_eq_bind, bind_some]
    rw [setFirst]
    simp only [bind_some, foundFirst]
    rw [setSecond]
    simp only [bind_some, changeEntry, bind_eq_bind, changed, pure_def,
      Option.some.injEq, ToolHeap.mk.injEq, true_and, and_true]
    have headIff : cell.prev = none ↔ recent.head? = some e := by
      rw [prev, follower_eq_none_iff nodupReverse memReverse, List.getLast?_reverse]
    have tailIff : cell.next = none ↔ recent.reverse.head? = some e := by
      rw [next, follower_eq_none_iff shows.nodup mem, List.head?_reverse]
    constructor
    · rw [head?_erase shows.nodup mem, ← next, shows.head]
      simp only [headIff]
    · rw [← List.head?_reverse, reverse_erase shows.nodup, head?_erase nodupReverse memReverse,
        ← prev, shows.tail, ← List.head?_reverse]
      simp only [tailIff]
  · rw [readsThird]
    by_cases same : a = e
    · subst same
      have gone : a ∉ recent.erase a := shows.nodup.not_mem_erase
      rw [if_pos rfl, found, map_some, EntryCell.relink, follower_eq_none gone,
        follower_eq_none (by rwa [List.mem_reverse])]
    · rw [if_neg same, readsSecond]
      change (first.read a).map _ = _
      rw [readsFirst]
      cases atA : m.entryCells.read a with
      | none => rfl
      | some other =>
        obtain ⟨otherPrev, otherNext⟩ := linked a other atA
        have prevIff : cell.prev = some a ↔ follower a recent = some e := by
          rw [prev, follower_reverse shows.nodup]
        have nextIff : cell.next = some a ↔ follower a recent.reverse = some e := by
          rw [next, ← follower_reverse nodupReverse, List.reverse_reverse]
        rw [map_some, map_some, map_some, EntryCell.relink,
          follower_erase shows.nodup same, reverse_erase shows.nodup,
          follower_erase nodupReverse same, ← prev, ← next, ← otherPrev, ← otherNext]
        rw [← otherNext] at prevIff
        rw [← otherPrev] at nextIff
        simp only [prevIff, nextIff]

end Recency

section Blocks

variable {m : ToolHeap} {b e : Nat} {list : List Nat}

structure ShowsBlock (m : ToolHeap) (b : Nat) (list : List Nat) : Prop where
  nodup : list.Nodup
  block : ∃ block, m.blockCells.read b = some block ∧ block.entries = list.head?
  live : ∀ a ∈ list, ∃ cell, m.entryCells.read a = some cell ∧
    cell.blockNext = follower a list

def PointsTo (b : Nat) (list : List Nat) (target : Option Nat) : Slot → Prop
  | .entries block => block = b ∧ list.head? = target
  | .blockNext a => a ∈ list ∧ follower a list = target

variable (shows : m.ShowsBlock b list)

include shows

theorem ShowsBlock.readSlot {slot : Slot} {target : Option Nat}
    (points : PointsTo b list target slot) : m.readSlot slot = some target := by
  cases slot with
  | entries block =>
    obtain ⟨rfl, isHead⟩ := points
    obtain ⟨cell, found, entries⟩ := shows.block
    rw [ToolHeap.readSlot, found, map_some, entries, isHead]
  | blockNext a =>
    obtain ⟨mem, follows⟩ := points
    obtain ⟨cell, found, next⟩ := shows.live a mem
    rw [ToolHeap.readSlot, found, map_some, next, follows]

theorem blockUnlinkLoop_spec {done rest : List Nat}
    (parts : list = done ++ rest) (mem : e ∈ rest) {steps : Nat} (enough : rest.length ≤ steps)
    {slot : Slot} (points : PointsTo b list rest.head? slot) :
    ∃ place, PointsTo b list (some e) place ∧
      m.blockUnlinkLoop e steps slot = (m.writeSlot (follower e list) place).bind
        fun m => m.changeEntry e fun cell => { cell with blockNext := none } := by
  induction rest generalizing done steps slot with
  | nil => cases mem
  | cons first rest ih =>
    cases steps with
    | zero => exact absurd enough (by simp)
    | succ steps =>
      have reads := shows.readSlot points
      have inList : first ∈ list := by simp [parts]
      obtain ⟨cell, found, next⟩ := shows.live first inList
      simp only [blockUnlinkLoop, reads, List.head?_cons, bind_eq_bind, bind_some]
      by_cases isEntry : first = e
      · subst isEntry
        refine ⟨slot, points, ?_⟩
        rw [if_pos rfl, found, bind_some, next]
      · rw [if_neg isEntry]
        have nodup := shows.nodup
        rw [parts, List.nodup_append] at nodup
        have notDone : first ∉ done := fun inDone =>
          nodup.2.2 first inDone first List.mem_cons_self rfl
        have follows : follower first list = rest.head? := by
          rw [parts]
          exact follower_append_cons notDone
        exact @ih (done ++ [first]) (by simp [parts])
          (List.mem_of_ne_of_mem (Ne.symm isEntry) mem) steps
          (Nat.le_of_succ_le_succ enough) (.blockNext first) ⟨inList, follows⟩

theorem blockUnlinkEntry_spec (mem : e ∈ list) :
    ∃ (entryCells : CellHeap EntryCell) (blockCells : CellHeap BlockCell),
      m.blockUnlinkEntry b e = some { m with entryCells, blockCells } ∧
      (∀ a, entryCells.read a = (m.entryCells.read a).map fun cell =>
        { cell with blockNext :=
          if a ∈ list then follower a (list.erase e) else cell.blockNext }) ∧
      ∀ other, blockCells.read other = (m.blockCells.read other).map fun block =>
        { block with entries :=
          if other = b then (list.erase e).head? else block.entries } := by
  have nodup := shows.nodup
  have few : list.length ≤ m.entryCells.keys.card + 1 := by
    rw [← List.toFinset_card_of_nodup nodup]
    refine (Finset.card_le_card fun a listed => ?_).trans (Nat.le_succ _)
    obtain ⟨cell, found, -⟩ := shows.live a (List.mem_toFinset.mp listed)
    exact CellHeap.mem_keys_iff.mpr ⟨cell, found⟩
  obtain ⟨block, foundBlock, isEntries⟩ := shows.block
  obtain ⟨cell, found, -⟩ := shows.live e mem
  obtain ⟨place, points, loop⟩ := @blockUnlinkLoop_spec m b e list shows [] list rfl mem _ few
    (.entries b) ⟨rfl, rfl⟩
  have gone : e ∉ list.erase e := nodup.not_mem_erase
  -- The entries whose followers do not change.
  have keeps {a : Nat} (ne : a ≠ e) (before : follower a list ≠ some e) :
      follower a (list.erase e) = follower a list := by
    rw [follower_erase nodup ne, if_neg before]
  have same {a : Nat} {other : EntryCell} (atA : m.entryCells.read a = some other)
      (ne : a ≠ e) (before : follower a list ≠ some e) :
      { other with blockNext :=
        if a ∈ list then follower a (list.erase e) else other.blockNext } = other := by
    split
    next listed =>
      obtain ⟨_, atA', next⟩ := shows.live a listed
      cases atA.symm.trans atA'
      rw [keeps ne before, ← next]
    · rfl
  rw [blockUnlinkEntry, loop]
  cases place with
  | entries block =>
    obtain ⟨rfl, isHead⟩ := points
    obtain ⟨blockCells, wrote, readsBlock⟩ := CellHeap.change_eq_some foundBlock
      fun block => { block with entries := follower e list }
    obtain ⟨entryCells, changed, reads⟩ := CellHeap.change_eq_some found
      fun cell => { cell with blockNext := none }
    refine ⟨entryCells, blockCells, ?_, fun a => ?_, fun other => ?_⟩
    · simp only [writeSlot, changeBlock, wrote, bind_eq_bind, bind_some,
        pure_def, changeEntry, changed]
    · rw [reads]
      split
      next isEntry =>
        subst isEntry
        rw [found, map_some, if_pos mem, follower_eq_none gone]
      next ne =>
        cases atA : m.entryCells.read a with
        | none => rfl
        | some other => rw [map_some, same atA ne (follower_ne_head nodup isHead)]
    · rw [readsBlock, head?_erase nodup mem, if_pos isHead]
      split
      next isBlock =>
        subst isBlock
        rw [foundBlock, map_some]
      · cases m.blockCells.read other <;> rfl
  | blockNext q =>
    obtain ⟨memQ, follows⟩ := points
    have ne : q ≠ e := by
      rintro rfl
      exact follower_ne_self nodup follows
    obtain ⟨before, atQ, -⟩ := shows.live q memQ
    obtain ⟨middle, wrote, readsMiddle⟩ := CellHeap.change_eq_some atQ
      fun cell => { cell with blockNext := follower e list }
    have foundMiddle : middle.read e = some cell := by
      rw [readsMiddle, if_neg (Ne.symm ne), found]
    obtain ⟨entryCells, changed, reads⟩ := CellHeap.change_eq_some foundMiddle
      fun cell => { cell with blockNext := none }
    have notHead : list.head? ≠ some e := fun isHead => follower_ne_head nodup isHead follows
    refine ⟨entryCells, m.blockCells, ?_, fun a => ?_, fun other => ?_⟩
    · simp only [writeSlot, changeEntry, wrote, bind_eq_bind, bind_some, pure_def, changed]
    · rw [reads]
      split
      next isEntry =>
        subst isEntry
        rw [found, map_some, if_pos mem, follower_eq_none gone]
      next notEntry =>
        rw [readsMiddle]
        split
        next isBefore =>
          subst isBefore
          rw [atQ, map_some, if_pos memQ, follower_erase nodup ne, if_pos follows]
        next notBefore =>
          cases atA : m.entryCells.read a with
          | none => rfl
          | some other =>
            rw [map_some, same atA notEntry fun also => notBefore (follower_inj nodup also follows)]
    · cases atOther : m.blockCells.read other with
      | none => rfl
      | some otherBlock =>
        rw [map_some]
        split
        next isBlock =>
          subst isBlock
          cases atOther.symm.trans foundBlock
          rw [head?_erase nodup mem, if_neg notHead, ← isEntries]
        · rfl

end Blocks

end ToolHeap

end LnaLang.Chat
