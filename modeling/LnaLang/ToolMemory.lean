import LnaLang.ChatPrompt
import Mathlib

/-!
# Remembered tool calls

The server remembers under the id of every generated call the block of text that
the model has sampled, so that a later prompt can repeat it byte by byte.  The memory
is bounded; the entries used least recently go first.  The counter of bytes is the sum
over the entries and over the blocks, each once, so pruning keeps it within its limits.
-/

namespace LnaLang.Chat

open List

/-- `tool_memory_entry`: an id and the text of its block. -/
structure MemoryEntry where
  id : Bytes
  dsml : Bytes
  deriving DecidableEq, Repr

/-- `tool_memory`.  The same entries stand in the order of their last use, the latest
first, and in the order in which they were made, the latest first; the entries of a
block are those of the second list that have its text. -/
structure ToolMemory where
  recent : List MemoryEntry
  made : List MemoryEntry
  bytes : Nat
  maxEntries : Nat
  deriving DecidableEq, Repr

/-- `DS4_TOOL_MEMORY_MAX_BYTES`. -/
def maxMemoryBytes : Nat := 512 * 1024 * 1024

/-- The `bytes` of an entry: its id, a NUL, and the structure. -/
def entryBytes (id : Bytes) : Nat := id.length + 1 + 64

/-- The `bytes` of a block: its text, a NUL, and the structure. -/
def blockBytes (dsml : Bytes) : Nat := dsml.length + 1 + 48

namespace ToolMemory

/-- `tool_memory_max_entries`, with `DS4_TOOL_MEMORY_DEFAULT_MAX_IDS`. -/
def entryLimit (memory : ToolMemory) : Nat :=
  if 0 < memory.maxEntries then memory.maxEntries else 100000

/-- A memory without entries. -/
def empty (maxEntries : Nat) : ToolMemory := ⟨[], [], 0, maxEntries⟩

/-- `tool_memory_find_entry_locked`. -/
def findEntry (memory : ToolMemory) (id : Bytes) : Option MemoryEntry :=
  if id = [] then none else memory.made.find? fun entry => entry.id = id

/-- `tool_memory_find_block_locked`: the entries of a block, if there is one. -/
def blockEntries (memory : ToolMemory) (dsml : Bytes) : List MemoryEntry :=
  memory.made.filter fun entry => entry.dsml = dsml

/-- `tool_memory_touch`. -/
def touch (entry : MemoryEntry) (memory : ToolMemory) : ToolMemory :=
  { memory with recent := entry :: memory.recent.erase entry }

/-- `tool_memory_remove_entry_locked`: the block goes with its last entry. -/
def removeEntry (entry : MemoryEntry) (memory : ToolMemory) : ToolMemory :=
  let made := memory.made.erase entry
  { memory with
    recent := memory.recent.erase entry
    made
    bytes := memory.bytes - entryBytes entry.id -
      if made.any fun other => other.dsml = entry.dsml then 0
      else blockBytes entry.dsml }

/-- The memory is beyond one of its limits. -/
def full (memory : ToolMemory) : Bool :=
  memory.entryLimit < memory.recent.length || maxMemoryBytes < memory.bytes

/-- The loop of `tool_memory_prune_locked`. -/
def pruneLoop : WhileLoop ToolMemory ToolMemory where
  step memory :=
    match memory.recent.getLast? with
    | some entry =>
      if memory.full then .inl (memory.removeEntry entry) else .inr memory
    | none => .inr memory
  measure memory := memory.recent.length
  decreases := by
    intro memory next stepped
    split at stepped
    next entry last =>
      split at stepped
      · cases stepped
        have mem := List.mem_of_getLast? last
        have positive := List.length_pos_of_mem mem
        rw [removeEntry, List.length_erase_of_mem mem]
        exact Nat.sub_lt positive Nat.one_pos
      · cases stepped
    · cases stepped

/-- `tool_memory_prune_locked`. -/
def prune (memory : ToolMemory) : ToolMemory :=
  pruneLoop.run memory

/-- The part of `tool_memory_put_locked` that makes an entry. -/
def addEntry (entry : MemoryEntry) (memory : ToolMemory) : ToolMemory :=
  { memory with
    recent := entry :: memory.recent
    made := entry :: memory.made
    bytes := memory.bytes +
      (if memory.made.any fun other => other.dsml = entry.dsml then 0
      else blockBytes entry.dsml) + entryBytes entry.id }

/-- `tool_memory_put_locked`. -/
def put (id dsml : Bytes) (memory : ToolMemory) : ToolMemory :=
  if id = [] ∨ dsml = [] then memory
  else
    match memory.findEntry id with
    | none => (memory.addEntry ⟨id, dsml⟩).prune
    | some old =>
      if old.dsml = dsml then (memory.touch old).prune
      else ((memory.removeEntry old).addEntry ⟨id, dsml⟩).prune

/-- `tool_memory_lookup_locked`. -/
def lookup (id : Bytes) (memory : ToolMemory) : ToolMemory × Option Bytes :=
  match memory.findEntry id with
  | none => (memory, none)
  | some entry => (memory.touch entry, some entry.dsml)

end ToolMemory

structure Replay where
  memory : ToolMemory
  disableExactDsmlToolReplay : Bool

namespace Replay

/-- `tool_memory_has_id`. -/
def hasId (server : Replay) (id : Bytes) : Bool :=
  !server.disableExactDsmlToolReplay && (server.memory.findEntry id).isSome

/-- `tool_memory_remember`. -/
def remember (calls : ToolCalls) (server : Replay) : Replay :=
  if server.disableExactDsmlToolReplay then server
  else
    { server with
      memory := calls.list.foldl
        (fun memory call => memory.put (call.id.getD []) (calls.rawDsml.getD []))
        server.memory }

/-- The loop over the calls of a message: the block that matches so far, and whether
all calls have it. -/
def matchCall (state : ToolMemory × Option Bytes × Bool) (call : Call) :
    ToolMemory × Option Bytes × Bool :=
  let (memory, found) := state.1.lookup (call.id.getD [])
  match found, state.2.1 with
  | none, matched => (memory, matched, false)
  | some dsml, none => (memory, some dsml, state.2.2)
  | some dsml, some matched => (memory, some matched, state.2.2 && decide (matched = dsml))

/-- One message of `tool_memory_attach_to_messages`. -/
def attachToMessage (memory : ToolMemory) (msg : ChatMsg) : ToolMemory × ChatMsg :=
  if msg.calls.list = [] ∨ msg.calls.rawDsml.isSome then (memory, msg)
  else
    match msg.calls.list.foldl matchCall (memory, none, true) with
    | (memory, some dsml, true) =>
      (memory, { msg with calls := { msg.calls with rawDsml := some dsml } })
    | (memory, _, _) => (memory, msg)

/-- The loop of `tool_memory_attach_to_messages`. -/
def attachAll : ToolMemory → List ChatMsg → ToolMemory × List ChatMsg
  | memory, [] => (memory, [])
  | memory, msg :: msgs =>
    let (memory, msg) := attachToMessage memory msg
    let (memory, msgs) := attachAll memory msgs
    (memory, msg :: msgs)

/-- `tool_memory_attach_to_messages`. -/
def attachToMessages (server : Replay) (msgs : List ChatMsg) : Replay × List ChatMsg :=
  if server.disableExactDsmlToolReplay then (server, msgs)
  else
    let (memory, msgs) := attachAll server.memory msgs
    ({ server with memory }, msgs)

end Replay

/-- `api_style`. -/
inductive ApiStyle where
  | openai
  | anthropic
  deriving DecidableEq, Repr

/-- `random_tool_id` from its random bytes. -/
def randomToolId (api : ApiStyle) (bytes : Bytes) : Bytes :=
  (match api with
    | .anthropic => utf8 "toolu_"
    | .openai => utf8 "call_") ++
    bytes.flatMap fun byte => [Json.hexDigit (byte.toNat / 16), Json.hexDigit (byte.toNat % 16)]

/-- The first drawn id that is not taken, and the draws behind it. -/
def freshId (taken : Bytes → Bool) (api : ApiStyle) :
    List Bytes → Option (Bytes × List Bytes)
  | [] => none
  | draw :: draws =>
    if taken (randomToolId api draw) then freshId taken api draws
    else some (randomToolId api draw, draws)

/-- The loop of `assign_tool_call_ids`; it ends if the draws contain enough ids that
are not taken. -/
def assignFrom (server : Replay) (api : ApiStyle) :
    List Call → List Call → List Bytes → Option (List Call)
  | done, [], _ => some done
  | done, call :: calls, draws =>
    if call.id.getD [] ≠ [] then assignFrom server api (done ++ [call]) calls draws
    else
      match freshId (fun id => done.any (fun other => other.id = some id) ||
          server.hasId id) api draws with
      | none => none
      | some (id, draws) =>
        assignFrom server api (done ++ [{ call with id := some id }]) calls draws

/-- `assign_tool_call_ids`. -/
def assignToolCallIds (server : Replay) (api : ApiStyle) (draws : List Bytes)
    (calls : List Call) : Option (List Call) :=
  assignFrom server api [] calls draws

namespace ToolMemory

theorem made_prune_sublist (memory : ToolMemory) : memory.prune.made.Sublist memory.made := by
  apply pruneLoop.run_induction fun before after => after.made.Sublist before.made
  · intro state result halted
    simp only [pruneLoop] at halted
    split at halted
    · split at halted
      · cases halted
      · cases halted
        exact List.Sublist.refl _
    · cases halted
      exact List.Sublist.refl _
  · intro state following step later
    simp only [pruneLoop] at step
    split at step
    · split at step
      · cases step
        exact later.trans erase_sublist
      · cases step
    · cases step

theorem made_prune_subset (memory : ToolMemory) : memory.prune.made ⊆ memory.made :=
  (made_prune_sublist memory).subset

variable {memory : ToolMemory} {id : Bytes}

theorem mem_made_put {dsml : Bytes} {entry : MemoryEntry}
    (mem : entry ∈ (memory.put id dsml).made) : entry ∈ memory.made ∨ entry = ⟨id, dsml⟩ := by
  unfold put at mem
  split at mem
  · exact Or.inl mem
  split at mem
  · rcases mem_cons.mp (made_prune_subset _ mem) with same | old
    · exact Or.inr same
    · exact Or.inl old
  split at mem
  next old found same =>
    exact Or.inl (made_prune_subset (memory.touch old) mem)
  · rcases mem_cons.mp (made_prune_subset _ mem) with same | old
    · exact Or.inr same
    · exact Or.inl (mem_of_mem_erase old)

theorem mem_of_findEntry {entry : MemoryEntry} (found : memory.findEntry id = some entry) :
    entry ∈ memory.made ∧ entry.id = id := by
  unfold findEntry at found
  split at found
  · cases found
  · exact ⟨mem_of_find?_eq_some found, by simpa using find?_some found⟩

/-- Every entry under one of some ids has the same text. -/
def Knows (ids : List Bytes) (raw : Bytes) (memory : ToolMemory) : Prop :=
  ∀ entry ∈ memory.made, entry.id ∈ ids → entry.dsml = raw

variable {ids : List Bytes} {raw : Bytes}

theorem Knows.put {dsml : Bytes} (knows : Knows ids raw memory) (same : id ∈ ids → dsml = raw) :
    Knows ids raw (memory.put id dsml) := by
  intro entry mem isId
  rcases mem_made_put mem with old | rfl
  · exact knows entry old isId
  · exact same isId

/-- What the memory answers for an id, whatever has been used before. -/
def text? (memory : ToolMemory) (id : Bytes) : Option Bytes :=
  (memory.findEntry id).map MemoryEntry.dsml

theorem lookup_snd (id : Bytes) (memory : ToolMemory) : (memory.lookup id).2 = memory.text? id := by
  unfold lookup text?
  split
  next missing =>
    rw [missing]
    rfl
  next entry found =>
    rw [found]
    rfl

theorem made_lookup (id : Bytes) (memory : ToolMemory) :
    (memory.lookup id).1.made = memory.made := by
  unfold lookup
  split <;> rfl

theorem text?_congr {other : ToolMemory} (same : memory.made = other.made) :
    memory.text? = other.text? := by
  funext id
  unfold text? findEntry
  rw [same]

theorem Knows.text? (knows : Knows ids raw memory) (listed : id ∈ ids)
    (present : (memory.findEntry id).isSome) : memory.text? id = some raw := by
  obtain ⟨entry, found⟩ := Option.isSome_iff_exists.mp present
  obtain ⟨mem, isId⟩ := mem_of_findEntry found
  rw [ToolMemory.text?, found, Option.map_some, knows entry mem (isId ▸ listed)]

/-- What may happen to the memory between two requests: lookups and puts. -/
inductive Use where
  | lookup (id : Bytes)
  | put (id dsml : Bytes)

def use (memory : ToolMemory) : Use → ToolMemory
  | .lookup id => (memory.lookup id).1
  | .put id dsml => memory.put id dsml

/-- Nothing else is put under one of some ids. -/
def Use.Keeps (ids : List Bytes) (raw : Bytes) : Use → Prop
  | lookup _ => True
  | put id dsml => id ∈ ids → dsml = raw

theorem Knows.use (knows : Knows ids raw memory) {step : Use} (keeps : step.Keeps ids raw) :
    Knows ids raw (memory.use step) := by
  cases step with
  | lookup id =>
    intro entry mem isId
    rw [ToolMemory.use, made_lookup] at mem
    exact knows entry mem isId
  | put id dsml => exact knows.put keeps

theorem Knows.uses (steps : List Use) (knows : Knows ids raw memory)
    (keeps : ∀ step ∈ steps, step.Keeps ids raw) :
    Knows ids raw (steps.foldl ToolMemory.use memory) := by
  induction steps generalizing memory with
  | nil => exact knows
  | cons step steps ih =>
    apply ih (knows.use (keeps step mem_cons_self))
    exact fun later mem => keeps later (mem_cons_of_mem _ mem)

section Keys

variable {memory : ToolMemory} {id dsml : Bytes}

/-- No id has two entries. -/
def Keyed (memory : ToolMemory) : Prop :=
  (memory.made.map MemoryEntry.id).Nodup

theorem Keyed.prune (keyed : memory.Keyed) : memory.prune.Keyed :=
  keyed.sublist ((made_prune_sublist memory).map _)

theorem Keyed.eq_of_id (keyed : memory.Keyed) {entry other : MemoryEntry}
    (mem : entry ∈ memory.made) (otherMem : other ∈ memory.made)
    (same : entry.id = other.id) : entry = other :=
  inj_on_of_nodup_map keyed mem otherMem same

theorem findEntry_eq_none (ne : id ≠ []) (missing : memory.findEntry id = none) :
    ∀ entry ∈ memory.made, entry.id ≠ id := by
  rw [findEntry, if_neg ne] at missing
  intro entry mem
  simpa using find?_eq_none.mp missing entry mem

theorem mem_made_put_keyed (keyed : memory.Keyed) (idNonempty : id ≠ []) (dsmlNonempty : dsml ≠ [])
    {entry : MemoryEntry} (mem : entry ∈ (memory.put id dsml).made) :
    entry = ⟨id, dsml⟩ ∨ entry ∈ memory.made ∧ entry.id ≠ id := by
  rw [put, if_neg (by simp [idNonempty, dsmlNonempty])] at mem
  split at mem
  next missing =>
    rcases mem_cons.mp (made_prune_subset _ mem) with same | old
    · exact Or.inl same
    · exact Or.inr ⟨old, findEntry_eq_none idNonempty missing entry old⟩
  rename_i found isFound
  obtain ⟨foundMem, rfl⟩ := mem_of_findEntry isFound
  split at mem
  next sameText =>
    have old := made_prune_subset (memory.touch found) mem
    by_cases sameId : entry.id = found.id
    · left
      rw [keyed.eq_of_id old foundMem sameId, ← sameText]
    · exact Or.inr ⟨old, sameId⟩
  · rcases mem_cons.mp (made_prune_subset _ mem) with same | old
    · exact Or.inl same
    · right
      have nodup : memory.made.Nodup := List.Nodup.of_map _ keyed
      obtain ⟨ne, oldMem⟩ := nodup.mem_erase_iff.mp old
      exact ⟨oldMem, fun sameId => ne (keyed.eq_of_id oldMem foundMem sameId)⟩

theorem Keyed.put (keyed : memory.Keyed) (id dsml : Bytes) : (memory.put id dsml).Keyed := by
  unfold ToolMemory.put
  split
  · exact keyed
  rename_i nonempty
  obtain ⟨idNonempty, -⟩ := not_or.mp nonempty
  split
  next missing =>
    apply Keyed.prune
    refine nodup_cons.mpr ⟨fun listed => ?_, keyed⟩
    obtain ⟨entry, mem, sameId⟩ := mem_map.mp listed
    exact findEntry_eq_none idNonempty missing entry mem sameId
  rename_i found isFound
  obtain ⟨foundMem, rfl⟩ := mem_of_findEntry isFound
  split
  · exact Keyed.prune keyed
  · apply Keyed.prune
    refine nodup_cons.mpr ⟨fun listed => ?_, keyed.sublist (erase_sublist.map _)⟩
    obtain ⟨entry, mem, sameId⟩ := mem_map.mp listed
    have nodup : memory.made.Nodup := List.Nodup.of_map _ keyed
    obtain ⟨ne, oldMem⟩ := nodup.mem_erase_iff.mp mem
    exact ne (keyed.eq_of_id oldMem foundMem sameId)

end Keys

end ToolMemory

namespace Replay

theorem made_matchCall (state : ToolMemory × Option Bytes × Bool) (call : Call) :
    (matchCall state call).1.made = state.1.made := by
  unfold matchCall
  split
  rename_i memory found looked
  have same := ToolMemory.made_lookup (call.id.getD []) state.1
  rw [looked] at same
  split <;> exact same

theorem made_matchCalls (calls : List Call) (state : ToolMemory × Option Bytes × Bool) :
    (calls.foldl matchCall state).1.made = state.1.made := by
  induction calls generalizing state with
  | nil => rfl
  | cons call calls ih => rw [foldl_cons, ih, made_matchCall]

theorem matchCall_snd (state : ToolMemory × Option Bytes × Bool) (call : Call) :
    (matchCall state call).2 =
      match state.1.text? (call.id.getD []), state.2.1 with
      | none, matched => (matched, false)
      | some dsml, none => (some dsml, state.2.2)
      | some dsml, some matched =>
        (some matched, state.2.2 && decide (matched = dsml)) := by
  unfold matchCall
  rw [← ToolMemory.lookup_snd]
  split
  rename_i memory found looked
  rw [looked]
  cases found with
  | none => rfl
  | some dsml => cases state.2.1 <;> rfl

theorem matchCalls_congr {memory other : ToolMemory} {calls : List Call}
    (same : ∀ call ∈ calls, memory.text? (call.id.getD []) = other.text? (call.id.getD []))
    (search : Option Bytes × Bool) :
    (calls.foldl matchCall (memory, search)).2 = (calls.foldl matchCall (other, search)).2 := by
  induction calls generalizing memory other search with
  | nil => rfl
  | cons call calls ih =>
    have first := same call mem_cons_self
    have step : (matchCall (memory, search) call).2 = (matchCall (other, search) call).2 := by
      rw [matchCall_snd, matchCall_snd, first]
    rw [foldl_cons, foldl_cons,
      show matchCall (memory, search) call = (_, _) from Prod.mk.eta.symm,
      show matchCall (other, search) call = (_, _) from Prod.mk.eta.symm, step]
    apply ih
    intro later mem
    rw [ToolMemory.text?_congr (made_matchCall (memory, search) call),
      ToolMemory.text?_congr (made_matchCall (other, search) call)]
    exact same later (mem_cons_of_mem _ mem)

theorem matchCalls_of_known {raw : Bytes} {memory : ToolMemory} {calls : List Call}
    (known : ∀ call ∈ calls, memory.text? (call.id.getD []) = some raw)
    {search : Option Bytes × Bool}
    (sofar : search = (some raw, true) ∨ search = (none, true) ∧ calls ≠ []) :
    (calls.foldl matchCall (memory, search)).2 = (some raw, true) := by
  induction calls generalizing memory search with
  | nil =>
    rcases sofar with found | ⟨-, ne⟩
    · exact found
    · exact absurd rfl ne
  | cons call calls ih =>
    have step : (matchCall (memory, search) call).2 = (some raw, true) := by
      rw [matchCall_snd, known call mem_cons_self]
      rcases sofar with rfl | ⟨rfl, -⟩ <;> simp
    rw [foldl_cons,
      show matchCall (memory, search) call = (_, _) from Prod.mk.eta.symm]
    apply ih
    · intro later mem
      rw [ToolMemory.text?_congr (made_matchCall (memory, search) call)]
      exact known later (mem_cons_of_mem _ mem)
    · exact Or.inl step

variable (memory : ToolMemory)

include memory

theorem made_attachToMessage (msg : ChatMsg) :
    (attachToMessage memory msg).1.made = memory.made := by
  have same := made_matchCalls msg.calls.list (memory, none, true)
  unfold attachToMessage
  split
  · rfl
  split <;> · rename_i found; rw [found] at same; exact same

theorem role_attachToMessage (msg : ChatMsg) : (attachToMessage memory msg).2.role = msg.role := by
  unfold attachToMessage
  split
  · rfl
  split <;> rfl

theorem attachToMessage_snd (msg : ChatMsg) : (attachToMessage memory msg).2 =
      if msg.calls.list = [] ∨ msg.calls.rawDsml.isSome then msg
      else
        match (msg.calls.list.foldl matchCall (memory, none, true)).2 with
        | (some dsml, true) =>
          { msg with calls := { msg.calls with rawDsml := some dsml } }
        | _ => msg := by
  unfold attachToMessage
  split
  · rfl
  split
  next found =>
    rw [found]
  next other found =>
    rw [found]
    split
    next dsml same =>
      obtain ⟨isSome, isTrue⟩ := Prod.mk.inj same
      exact (other dsml isSome isTrue).elim
    · rfl

theorem attachAll_append (first second : List ChatMsg) :
    attachAll memory (first ++ second) = ((attachAll (attachAll memory first).1 second).1,
        (attachAll memory first).2 ++ (attachAll (attachAll memory first).1 second).2) := by
  induction first generalizing memory with
  | nil => rfl
  | cons msg msgs ih => simp only [cons_append, attachAll, ih]

theorem made_attachAll (msgs : List ChatMsg) : (attachAll memory msgs).1.made = memory.made := by
  induction msgs generalizing memory with
  | nil => rfl
  | cons msg msgs ih => simp only [attachAll, ih, made_attachToMessage]

omit memory

theorem attachAll_congr {memory other : ToolMemory} {msgs : List ChatMsg}
    (same : ∀ msg ∈ msgs, ∀ call ∈ msg.calls.list,
      memory.text? (call.id.getD []) = other.text? (call.id.getD [])) :
    (attachAll memory msgs).2 = (attachAll other msgs).2 := by
  induction msgs generalizing memory other with
  | nil => rfl
  | cons msg msgs ih =>
    have first : (attachToMessage memory msg).2 = (attachToMessage other msg).2 := by
      rw [attachToMessage_snd, attachToMessage_snd, matchCalls_congr (same msg mem_cons_self)]
    simp only [attachAll, first]
    congr 1
    apply ih
    intro later mem call callMem
    rw [ToolMemory.text?_congr (made_attachToMessage memory msg),
      ToolMemory.text?_congr (made_attachToMessage other msg)]
    exact same later (mem_cons_of_mem _ mem) call callMem

theorem isSystem_attachAll {msgs : List ChatMsg}
    (noSystem : ∀ msg ∈ msgs, msg.role.isSystem = false) (memory : ToolMemory) :
    ∀ msg ∈ (attachAll memory msgs).2, msg.role.isSystem = false := by
  induction msgs generalizing memory with
  | nil => intro msg mem; cases mem
  | cons msg msgs ih =>
    intro later mem
    simp only [attachAll] at mem
    rcases mem_cons.mp mem with rfl | mem
    · rw [role_attachToMessage]
      exact noSystem msg mem_cons_self
    · exact ih (fun one oneMem => noSystem one (mem_cons_of_mem _ oneMem)) _ later mem

end Replay

theorem freshId_spec {taken : Bytes → Bool} {api : ApiStyle} {draws rest : List Bytes} {id : Bytes}
    (found : freshId taken api draws = some (id, rest)) : taken id = false ∧ id ≠ [] := by
  induction draws with
  | nil => cases found
  | cons draw draws ih =>
    rw [freshId] at found
    split at found
    · exact ih found
    next free =>
      cases found
      refine ⟨by simpa using free, ?_⟩
      cases api <;> simp [randomToolId, utf8]

theorem assignFrom_spec {server : Replay} {api : ApiStyle} {done calls out : List Call}
    {draws : List Bytes} (assigned : assignFrom server api done calls draws = some out)
    (unassigned : ∀ call ∈ calls, call.id = none) :
    ∃ named, out = done ++ named ∧ named.length = calls.length ∧
      ∀ call ∈ named, ∃ id, call.id = some id ∧ id ≠ [] ∧ server.hasId id = false := by
  induction calls generalizing done draws with
  | nil =>
    cases assigned
    exact ⟨[], (append_nil _).symm, rfl, fun call mem => by cases mem⟩
  | cons call calls ih =>
    rw [assignFrom, unassigned call mem_cons_self, if_neg (by simp)] at assigned
    split at assigned
    · cases assigned
    next id rest found =>
      obtain ⟨free, ne⟩ := freshId_spec found
      obtain ⟨named, rfl, n, ids⟩ := ih assigned fun later mem =>
        unassigned later (mem_cons_of_mem _ mem)
      refine ⟨{ call with id := some id } :: named, by simp, by simp [n], ?_⟩
      intro one mem
      rcases mem_cons.mp mem with rfl | mem
      · rw [Bool.or_eq_false_iff] at free
        exact ⟨id, rfl, ne, free.2⟩
      · exact ids one mem

namespace ToolMemory

/-- What the entries and their blocks take. -/
def account (entries : List MemoryEntry) : Nat :=
  (entries.map fun entry => entryBytes entry.id).sum +
    ∑ dsml ∈ (entries.map MemoryEntry.dsml).toFinset, blockBytes dsml

variable {entries : List MemoryEntry}

theorem account_perm {others : List MemoryEntry}
    (perm : entries.Perm others) : account entries = account others := by
  unfold account
  rw [(perm.map _).sum_eq, toFinset_eq_of_perm _ _ (perm.map _)]

theorem account_cons (entry : MemoryEntry) (entries : List MemoryEntry) :
    account (entry :: entries) = account entries +
      (if entries.any fun other => other.dsml = entry.dsml then 0
      else blockBytes entry.dsml) + entryBytes entry.id := by
  unfold account
  rw [map_cons, map_cons, sum_cons, toFinset_cons]
  by_cases shared : entry.dsml ∈ (entries.map MemoryEntry.dsml).toFinset
  · have known : entries.any (fun other => decide (other.dsml = entry.dsml)) := by
      simpa [any_eq_true] using shared
    rw [Finset.insert_eq_of_mem shared, if_pos known]
    omega
  · have unknown : ¬ entries.any (fun other => decide (other.dsml = entry.dsml)) := by
      simpa [any_eq_true] using shared
    rw [Finset.sum_insert shared, if_neg unknown]
    omega

variable {entry : MemoryEntry}

theorem account_erase (mem : entry ∈ entries) :
    account (entries.erase entry) = account entries - entryBytes entry.id -
      if (entries.erase entry).any fun other => other.dsml = entry.dsml then 0
      else blockBytes entry.dsml := by
  rw [account_perm (perm_cons_erase mem), account_cons]
  omega

theorem account_mono {others : List MemoryEntry} (fewer : entries.Subperm others) :
    account entries ≤ account others := by
  obtain ⟨middle, perm, sublist⟩ := fewer
  rw [← account_perm perm]
  unfold account
  apply Nat.add_le_add
  · exact (sublist.map _).sum_le_sum fun _ _ => Nat.zero_le _
  · apply Finset.sum_le_sum_of_subset
    intro dsml listed
    rw [mem_toFinset] at listed ⊢
    exact (sublist.map _).subset listed

theorem blockBytes_le_account
    (mem : entry ∈ entries) : blockBytes entry.dsml ≤ account entries := by
  have listed : entry.dsml ∈ (entries.map MemoryEntry.dsml).toFinset := by
    rw [mem_toFinset]
    exact mem_map_of_mem mem
  have single : blockBytes entry.dsml ≤
      ∑ dsml ∈ (entries.map MemoryEntry.dsml).toFinset, blockBytes dsml :=
    Finset.single_le_sum (fun dsml _ => Nat.zero_le (blockBytes dsml)) listed
  unfold account
  omega

/-- What an entry may hold: C strings that are not empty, the id a short one. -/
structure Proper (id dsml : Bytes) : Prop where
  id_ne_nil : id ≠ []
  id_le : id.length ≤ 256
  id_nulFree : NulFree id
  dsml_ne_nil : dsml ≠ []
  dsml_nulFree : NulFree dsml

/-- The two lists agree, the counter is right, and the entries are proper. -/
structure Consistent (memory : ToolMemory) : Prop where
  perm : memory.recent.Perm memory.made
  accounted : memory.bytes = account memory.made
  proper : ∀ entry ∈ memory.made, Proper entry.id entry.dsml

/-- A memory between two operations. -/
structure Sound (memory : ToolMemory) : Prop extends Consistent memory where
  entries_le : memory.made.length ≤ memory.entryLimit
  bytes_le : memory.bytes ≤ maxMemoryBytes

section Operations

variable {memory : ToolMemory} (consistent : Consistent memory)

include consistent

theorem Consistent.removeEntry {entry : MemoryEntry}
    (mem : entry ∈ memory.made) : Consistent (memory.removeEntry entry) where
  perm := consistent.perm.erase entry
  accounted := by rw [ToolMemory.removeEntry, consistent.accounted, account_erase mem]
  proper := fun other otherMem => consistent.proper other (mem_of_mem_erase otherMem)

theorem Consistent.touch {entry : MemoryEntry}
    (mem : entry ∈ memory.made) : Consistent (memory.touch entry) where
  perm := (perm_cons_erase (consistent.perm.mem_iff.mpr mem)).symm.trans consistent.perm
  accounted := consistent.accounted
  proper := consistent.proper

theorem Consistent.addEntry {entry : MemoryEntry}
    (proper : Proper entry.id entry.dsml) : Consistent (memory.addEntry entry) where
  perm := consistent.perm.cons entry
  accounted := by rw [ToolMemory.addEntry, account_cons, consistent.accounted]
  proper := by
    intro other mem
    rcases mem_cons.mp mem with rfl | mem
    · exact proper
    · exact consistent.proper other mem

theorem Consistent.sound (done : memory.recent = [] ∨ memory.full = false) : Sound memory := by
  have lengths := consistent.perm.length_eq
  rcases done with none | notFull
  · have noneMade : memory.made = [] := by
      rw [none, length_nil] at lengths
      exact length_eq_zero_iff.mp lengths.symm
    refine ⟨consistent, ?_, ?_⟩
    · rw [noneMade]
      exact Nat.zero_le _
    · rw [consistent.accounted, noneMade]
      exact Nat.zero_le _
  · simp only [full, Bool.or_eq_false_iff, decide_eq_false_iff_not, Nat.not_lt]
      at notFull
    exact ⟨consistent, lengths ▸ notFull.1, notFull.2⟩

theorem Consistent.prune : Sound memory.prune := by
  apply pruneLoop.run_invariant Consistent Sound _ _ memory consistent
  · intro state result holds halted
    simp only [pruneLoop] at halted
    split at halted
    · split at halted
      · cases halted
      next notFull =>
        cases halted
        exact holds.sound (Or.inr (by simpa using notFull))
    next noLast =>
      cases halted
      exact holds.sound (Or.inl (getLast?_eq_none_iff.mp noLast))
  · intro state following holds step
    simp only [pruneLoop] at step
    split at step
    next entry last =>
      split at step
      · cases step
        exact holds.removeEntry (holds.perm.mem_iff.mp (mem_of_getLast? last))
      · cases step
    · cases step

omit consistent

theorem maxEntries_prune (memory : ToolMemory) : memory.prune.maxEntries = memory.maxEntries := by
  apply pruneLoop.run_induction fun before after => after.maxEntries = before.maxEntries
  · intro state result halted
    simp only [pruneLoop] at halted
    split at halted
    · split at halted <;> cases halted
      rfl
    · cases halted
      rfl
  · intro state following step later
    simp only [pruneLoop] at step
    split at step
    · split at step
      · cases step
        exact later
      · cases step
    · cases step

theorem Sound.put (sound : Sound memory) {id dsml : Bytes} (short : id.length ≤ 256)
    (idFree : NulFree id) (dsmlFree : NulFree dsml) : Sound (memory.put id dsml) := by
  unfold ToolMemory.put
  split
  · exact sound
  next ne =>
    obtain ⟨idNe, dsmlNe⟩ := not_or.mp ne
    have proper : Proper id dsml := ⟨idNe, short, idFree, dsmlNe, dsmlFree⟩
    have consistent := sound.toConsistent
    split
    · exact (consistent.addEntry proper).prune
    next old found =>
      have mem := (mem_of_findEntry found).1
      split
      · exact (consistent.touch mem).prune
      · exact ((consistent.removeEntry mem).addEntry proper).prune

theorem Sound.lookup (sound : Sound memory) (id : Bytes) : Sound (memory.lookup id).1 := by
  unfold ToolMemory.lookup
  split
  · exact sound
  next entry found =>
    exact ⟨sound.touch (mem_of_findEntry found).1, sound.entries_le, sound.bytes_le⟩

theorem maxEntries_put (id dsml : Bytes) (memory : ToolMemory) :
    (memory.put id dsml).maxEntries = memory.maxEntries := by
  unfold ToolMemory.put
  split
  · rfl
  split
  · exact maxEntries_prune _
  split <;> exact maxEntries_prune _

theorem maxEntries_lookup (id : Bytes) (memory : ToolMemory) :
    (memory.lookup id).1.maxEntries = memory.maxEntries := by
  unfold ToolMemory.lookup
  split <;> rfl

end Operations

/-- A use that the server makes: it puts C strings, under ids that it has drawn or
read from a map, which are short. -/
def Use.Usual : Use → Prop
  | lookup _ => True
  | put id dsml => id.length ≤ 256 ∧ NulFree id ∧ NulFree dsml

/-- A memory that a server with a given limit can have. -/
def Reached (maxEntries : Nat) (memory : ToolMemory) : Prop :=
  ∃ uses : List Use, (∀ step ∈ uses, step.Usual) ∧
    memory = uses.foldl ToolMemory.use (.empty maxEntries)

theorem sound_empty (maxEntries : Nat) : Sound (.empty maxEntries) :=
  ⟨⟨.nil, rfl, fun entry mem => by cases mem⟩, Nat.zero_le _, Nat.zero_le _⟩

variable {memory : ToolMemory}

theorem Sound.uses (steps : List Use) (sound : Sound memory) (usual : ∀ step ∈ steps, step.Usual) :
    Sound (steps.foldl ToolMemory.use memory) ∧
      (steps.foldl ToolMemory.use memory).maxEntries = memory.maxEntries := by
  induction steps generalizing memory with
  | nil => exact ⟨sound, rfl⟩
  | cons step steps ih =>
    have usualStep := usual step mem_cons_self
    have rest : ∀ later ∈ steps, later.Usual := fun later mem => usual later (mem_cons_of_mem _ mem)
    cases step with
    | lookup id =>
      obtain ⟨soundLast, same⟩ := ih (sound.lookup id) rest
      exact ⟨soundLast, same.trans (maxEntries_lookup id memory)⟩
    | put id dsml =>
      obtain ⟨short, idFree, dsmlFree⟩ := usualStep
      obtain ⟨soundLast, same⟩ := ih (sound.put short idFree dsmlFree) rest
      exact ⟨soundLast, same.trans (maxEntries_put id dsml memory)⟩

theorem Reached.sound {maxEntries : Nat} (reached : Reached maxEntries memory) :
    Sound memory ∧ memory.maxEntries = maxEntries := by
  obtain ⟨uses, usual, rfl⟩ := reached
  exact (sound_empty maxEntries).uses uses usual

theorem Keyed.use (keyed : memory.Keyed) (step : Use) : (memory.use step).Keyed := by
  cases step with
  | lookup id =>
    rw [ToolMemory.use, Keyed, made_lookup]
    exact keyed
  | put id dsml => exact keyed.put id dsml

theorem Reached.keyed {maxEntries : Nat} (reached : Reached maxEntries memory) : memory.Keyed := by
  obtain ⟨uses, -, rfl⟩ := reached
  exact List.foldlRecOn uses ToolMemory.use nodup_nil fun _ keyed step _ => Keyed.use keyed step

theorem Sound.length_dsml_le (sound : Sound memory) (mem : entry ∈ memory.made) :
    entry.dsml.length ≤ maxMemoryBytes := by
  have block := blockBytes_le_account mem
  rw [← sound.accounted, blockBytes] at block
  have bound := sound.bytes_le
  omega

end ToolMemory

end LnaLang.Chat
