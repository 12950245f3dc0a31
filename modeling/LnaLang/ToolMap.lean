import LnaLang.KvCache
import LnaLang.ToolMemory

/-!
# The tool map of a cache file

Behind the payload a cache file may hold the remembered calls whose blocks stand in
its text.  The map starts with the number of its records; a record is the length of
an id, the length of a block, and both texts.
-/

namespace LnaLang.Chat

open List

open Dsml KvCache

/-- One form in the loop of `find_next_dsml_tool_block`: the first block found at an
earlier place wins. -/
def earlierBlock (text : Bytes) (best : Option (Nat × Nat)) (form : Style × Bytes) :
    Option (Nat × Nat) :=
  match strstr text (form.2 ++ form.1.tags.toolCallsStart) with
  | none => best
  | some start =>
    if best.any fun block => block.1 ≤ start then best
    else
      match strstr (text.drop start) form.1.tags.toolCallsEnd with
      | none => best
      | some stop => some (start, start + stop + form.1.tags.toolCallsEnd.length)

/-- `find_next_dsml_tool_block`: where a block starts and where it ends. -/
def findNextDsmlToolBlock (text : Bytes) : Option (Nat × Nat) :=
  startOrder.foldl (earlierBlock text) none

theorem earlierBlock_inside {text : Bytes} {form : Style × Bytes} {best : Option (Nat × Nat)}
    (inside : ∀ block, best = some block → block.1 < block.2 ∧ block.2 ≤ text.length)
    (block : Nat × Nat) (found : earlierBlock text best form = some block) :
    block.1 < block.2 ∧ block.2 ≤ text.length := by
  have pos : 0 < form.1.tags.toolCallsEnd.length := by cases form.1 <;> decide
  unfold earlierBlock at found
  split at found
  · exact inside block found
  split at found
  · exact inside block found
  split at found
  · exact inside block found
  next stop stops =>
    cases found
    have ends := ListSearch.find_end_le stops
    rw [length_drop] at ends
    dsimp only
    omega

theorem findNextDsmlToolBlock_inside {text : Bytes} {block : Nat × Nat}
    (found : findNextDsmlToolBlock text = some block) :
    block.1 < block.2 ∧ block.2 ≤ text.length := by
  have all : ∀ (forms : List (Style × Bytes)) (best : Option (Nat × Nat)),
      (∀ block, best = some block → block.1 < block.2 ∧ block.2 ≤ text.length) →
      ∀ block, forms.foldl (earlierBlock text) best = some block →
        block.1 < block.2 ∧ block.2 ≤ text.length := by
    intro forms
    induction forms with
    | nil => exact fun best inside block same => inside block same
    | cons form forms ih =>
      intro best inside
      exact ih _ (earlierBlock_inside inside)
  exact all startOrder none (fun block absurdity => by cases absurdity) block found

def blockLoop : WhileLoop (List Bytes × Bytes) (List Bytes) where
  step := fun state =>
    match findNextDsmlToolBlock state.2 with
    | none => .inr state.1
    | some (start, stop) =>
      .inl (state.1 ++ [(state.2.drop start).take (stop - start)], state.2.drop stop)
  measure := fun state => state.2.length
  decreases := by
    rintro ⟨blocks, text⟩ ⟨next, rest⟩ stepped
    simp only at stepped
    split at stepped
    · cases stepped
    next start stop found =>
      obtain ⟨nonempty, inside⟩ := findNextDsmlToolBlock_inside found
      cases stepped
      dsimp only at nonempty inside ⊢
      rw [List.length_drop]
      omega

def toolBlocks (text : Bytes) : List Bytes :=
  blockLoop.run ([], text)

/-- `tool_memory_count_dsml_in_text`. -/
def countDsmlInText (server : Replay) (text : Bytes) : Nat :=
  if server.disableExactDsmlToolReplay then 0
  else ((toolBlocks text).map fun block => (server.memory.blockEntries block).length).sum

def collectEntries (memory : ToolMemory) :
    List Bytes → List Bytes → List MemoryEntry
  | _, [] => []
  | seen, block :: blocks =>
    if block ∈ seen then collectEntries memory seen blocks
    else memory.blockEntries block ++ collectEntries memory (block :: seen) blocks

/-- The entries that `kv_tool_map_write` writes; it counts them in the same way
before. -/
def mapEntries (server : Replay) (text : Bytes) : List MemoryEntry :=
  if server.disableExactDsmlToolReplay then []
  else (collectEntries server.memory [] (toolBlocks text)).filter fun entry =>
    entry.id.length < 2 ^ 32 && entry.dsml.length < 2 ^ 32

def mapRecord (entry : MemoryEntry) : Bytes :=
  lePut32 (UInt32.ofNat entry.id.length) ++ lePut32 (UInt32.ofNat entry.dsml.length) ++
    entry.id ++ entry.dsml

def mapBytes (entries : List MemoryEntry) : Bytes :=
  [75, 84, 77, 1] ++ lePut32 (UInt32.ofNat entries.length) ++ entries.flatMap mapRecord

/-- `kv_tool_map_write`. -/
def kvToolMapWrite (server : Replay) (text : Bytes) : Bytes :=
  if mapEntries server text = [] then [] else mapBytes (mapEntries server text)

/-- One round of `kv_tool_map_load_from_pos`: a record, and the bytes behind it. -/
def readRecord (bytes : Bytes) : Option (MemoryEntry × Bytes) :=
  let idLen := (leGet32 (bytes.take 4)).toNat
  let dsmlLen := (leGet32 ((bytes.drop 4).take 4)).toNat
  if bytes.length < 8 then none
  else if idLen = 0 ∨ 256 < idLen ∨ dsmlLen = 0 ∨ maxMemoryBytes < dsmlLen then none
  else if bytes.length < 8 + idLen + dsmlLen then none
  else some (⟨(bytes.drop 8).take idLen, (bytes.drop (8 + idLen)).take dsmlLen⟩,
    bytes.drop (8 + idLen + dsmlLen))

/-- `id_list_contains` with an optional list. -/
def wantsId (wanted : Option (List Bytes)) (id : Bytes) : Bool :=
  match wanted with
  | none => true
  | some ids => ids.contains id

/-- The loop of `kv_tool_map_load_from_pos`: the memory and the number of records
that have been put into it. -/
def loadRecords (wanted : Option (List Bytes)) :
    Nat → Bytes → ToolMemory × Nat → ToolMemory × Nat
  | 0, _, state => state
  | count + 1, bytes, state =>
    match readRecord bytes with
    | none => state
    | some (entry, rest) =>
      loadRecords wanted count rest (if wantsId wanted (cString entry.id) then
          (state.1.put (cString entry.id) (cString entry.dsml), state.2 + 1)
        else state)

/-- `kv_tool_map_load_from_pos`. -/
def kvToolMapLoadFromPos (server : Replay) (wanted : Option (List Bytes))
    (bytes : Bytes) : ToolMemory × Nat :=
  if server.disableExactDsmlToolReplay then (server.memory, 0)
  else if bytes.length < 8 then (server.memory, 0)
  else if bytes.take 4 ≠ [75, 84, 77, 1] then (server.memory, 0)
  else
    let count := (leGet32 ((bytes.drop 4).take 4)).toNat
    if server.memory.entryLimit * 4 < count then (server.memory, 0)
    else loadRecords wanted count (bytes.drop 8) (server.memory, 0)

section Entries

theorem mem_blockEntries {memory : ToolMemory} {block : Bytes} {entry : MemoryEntry} :
    entry ∈ memory.blockEntries block ↔ entry ∈ memory.made ∧ entry.dsml = block := by
  simp [ToolMemory.blockEntries]

theorem mem_collectEntries {memory : ToolMemory} {entry : MemoryEntry} (blocks seen : List Bytes) :
    entry ∈ collectEntries memory seen blocks ↔
      entry ∈ memory.made ∧ entry.dsml ∈ blocks ∧ entry.dsml ∉ seen := by
  induction blocks generalizing seen with
  | nil => simp [collectEntries]
  | cons block blocks ih =>
    rw [collectEntries]
    split
    · rw [ih]
      grind
    · rw [mem_append, mem_blockEntries, ih]
      grind

theorem length_filter_split (entries : List MemoryEntry) {block : Bytes}
    {seen : List Bytes} (unseen : block ∉ seen) :
    (entries.filter fun entry => entry.dsml = block).length +
        (entries.filter fun entry => entry.dsml ∉ block :: seen).length =
      (entries.filter fun entry => entry.dsml ∉ seen).length := by
  induction entries with
  | nil => rfl
  | cons entry entries ih =>
    by_cases same : entry.dsml = block
    · simp [same, unseen] at ih ⊢
      omega
    · by_cases before : entry.dsml ∈ seen
      · simp [same, before] at ih ⊢
        omega
      · simp [same, before] at ih ⊢
        omega

theorem length_collectEntries_le (memory : ToolMemory) (blocks seen : List Bytes) :
    (collectEntries memory seen blocks).length ≤
      (memory.made.filter fun entry => entry.dsml ∉ seen).length := by
  induction blocks generalizing seen with
  | nil => exact Nat.zero_le _
  | cons block blocks ih =>
    rw [collectEntries]
    split
    · exact ih seen
    next unseen =>
      rw [length_append, ← length_filter_split memory.made unseen]
      exact Nat.add_le_add_left (ih (block :: seen)) _

variable {server : Replay} {text : Bytes}

theorem mem_mapEntries {entry : MemoryEntry} (mem : entry ∈ mapEntries server text) :
    entry ∈ server.memory.made := by
  unfold mapEntries at mem
  split at mem
  · cases mem
  · exact ((mem_collectEntries _ _).mp (mem_of_mem_filter mem)).1

theorem length_mapEntries_le (server : Replay) (text : Bytes) :
    (mapEntries server text).length ≤ server.memory.made.length := by
  unfold mapEntries
  split
  · exact Nat.zero_le _
  · exact (length_filter_le _ _).trans ((length_collectEntries_le _ _ _).trans
      (length_filter_le _ _))

theorem mapEntries_ne_nil (sound : server.memory.Sound)
    (counted : countDsmlInText server text ≠ 0) : mapEntries server text ≠ [] := by
  unfold countDsmlInText at counted
  split at counted
  · exact absurd rfl counted
  next replays =>
    obtain ⟨n, countMem, pos⟩ : ∃ n ∈ (toolBlocks text).map fun block =>
        (server.memory.blockEntries block).length, n ≠ 0 := by
      by_contra allZero
      push Not at allZero
      exact counted (sum_eq_zero_iff.mpr allZero)
    obtain ⟨block, blockMem, rfl⟩ := mem_map.mp countMem
    obtain ⟨entry, entryMem⟩ := exists_mem_of_length_pos (Nat.pos_of_ne_zero pos)
    obtain ⟨made, isBlock⟩ := mem_blockEntries.mp entryMem
    have idLe := (sound.proper entry made).id_le
    have dsmlLe := sound.length_dsml_le made
    rw [maxMemoryBytes] at dsmlLe
    apply ne_nil_of_mem
    rw [mapEntries, if_neg replays]
    apply mem_filter.mpr
    refine ⟨(mem_collectEntries _ _).mpr ⟨made, isBlock ▸ blockMem, by simp⟩, ?_⟩
    simp only [Bool.and_eq_true, decide_eq_true_eq]
    omega

end Entries

def loadEntry (wanted : Option (List Bytes)) (state : ToolMemory × Nat)
    (entry : MemoryEntry) : ToolMemory × Nat :=
  if wantsId wanted entry.id then
    (state.1.put entry.id entry.dsml, state.2 + 1)
  else state

theorem readRecord_mapRecord {entry : MemoryEntry} (proper : ToolMemory.Proper entry.id entry.dsml)
    (dsmlLe : entry.dsml.length ≤ maxMemoryBytes) (rest : Bytes) :
    readRecord (mapRecord entry ++ rest) = some (entry, rest) := by
  obtain ⟨id, dsml⟩ := entry
  obtain ⟨idNe, idLe, -, dsmlNe, -⟩ := proper
  dsimp only at idNe idLe dsmlNe dsmlLe
  have idPos := length_pos_iff.mpr idNe
  have dsmlPos := length_pos_iff.mpr dsmlNe
  have dsmlFits : dsml.length < 2 ^ 32 := by rw [maxMemoryBytes] at dsmlLe; omega
  have idFits : id.length < 2 ^ 32 := by omega
  set idPart := lePut32 (UInt32.ofNat id.length) with idPartEq
  set dsmlPart := lePut32 (UInt32.ofNat dsml.length) with dsmlPartEq
  have idPartLength : idPart.length = 4 := length_lePut32 _
  have dsmlPartLength : dsmlPart.length = 4 := length_lePut32 _
  have parts : mapRecord ⟨id, dsml⟩ ++ rest = idPart ++ (dsmlPart ++ (id ++ (dsml ++ rest))) := by
    simp only [mapRecord, append_assoc, idPartEq, dsmlPartEq]
  have idLen : (leGet32 ((mapRecord ⟨id, dsml⟩ ++ rest).take 4)).toNat = id.length := by
    rw [parts, take_left' idPartLength, idPartEq, leGet32_lePut32, UInt32.toNat_ofNat_of_lt' idFits]
  have dsmlLen : (leGet32 (((mapRecord ⟨id, dsml⟩ ++ rest).drop 4).take 4)).toNat =
      dsml.length := by
    rw [parts, drop_left' idPartLength, take_left' dsmlPartLength,
      dsmlPartEq, leGet32_lePut32, UInt32.toNat_ofNat_of_lt' dsmlFits]
  have total : (mapRecord ⟨id, dsml⟩ ++ rest).length =
      8 + id.length + dsml.length + rest.length := by
    rw [parts]
    simp only [length_append, idPartLength, dsmlPartLength]
    omega
  have behindHead : (mapRecord ⟨id, dsml⟩ ++ rest).drop 8 = id ++ (dsml ++ rest) := by
    rw [parts, ← append_assoc]
    exact drop_left' (by rw [length_append]; omega)
  have behindId : (mapRecord ⟨id, dsml⟩ ++ rest).drop (8 + id.length) = dsml ++ rest := by
    rw [← drop_drop, behindHead, drop_left' rfl]
  have behindAll : (mapRecord ⟨id, dsml⟩ ++ rest).drop (8 + id.length + dsml.length) = rest := by
    rw [← drop_drop, behindId, drop_left' rfl]
  simp only [readRecord, idLen, dsmlLen, total, behindHead, behindId, behindAll]
  rw [if_neg (by omega), if_neg (by omega), if_neg (by omega), take_left' rfl,
    take_left' rfl]

variable {entries : List MemoryEntry}

theorem loadRecords_mapRecords (proper : ∀ entry ∈ entries, ToolMemory.Proper entry.id entry.dsml ∧
      entry.dsml.length ≤ maxMemoryBytes)
    (wanted : Option (List Bytes)) (state : ToolMemory × Nat) :
    loadRecords wanted entries.length (entries.flatMap mapRecord) state =
      entries.foldl (loadEntry wanted) state := by
  induction entries generalizing state with
  | nil => rfl
  | cons entry entries ih =>
    obtain ⟨properEntry, dsmlLe⟩ := proper entry mem_cons_self
    rw [length_cons, loadRecords, flatMap_cons, readRecord_mapRecord properEntry dsmlLe]
    dsimp only
    rw [cString_of_nulFree properEntry.id_nulFree,
      cString_of_nulFree properEntry.dsml_nulFree, foldl_cons]
    exact ih (fun later mem => proper later (mem_cons_of_mem _ mem)) _

/-- A complete map: a server with the given limit reads all of its records. -/
def LoadsCompletely (maxEntries : Nat) (bytes : Bytes) : Prop :=
  ∃ entries : List MemoryEntry, entries ≠ [] ∧ bytes = mapBytes entries ∧
    ∀ (server : Replay) (wanted : Option (List Bytes)), server.disableExactDsmlToolReplay = false →
      server.memory.maxEntries = maxEntries →
      kvToolMapLoadFromPos server wanted bytes = entries.foldl (loadEntry wanted) (server.memory, 0)

theorem kvToolMapLoadFromPos_mapBytes {maxEntries : Nat}
    (proper : ∀ entry ∈ entries, ToolMemory.Proper entry.id entry.dsml ∧
      entry.dsml.length ≤ maxMemoryBytes)
    (few : entries.length ≤ (ToolMemory.empty maxEntries).entryLimit)
    (isInt : maxEntries < 2 ^ 31) {server : Replay} (wanted : Option (List Bytes))
    (replays : server.disableExactDsmlToolReplay = false)
    (sameLimit : server.memory.maxEntries = maxEntries) :
    kvToolMapLoadFromPos server wanted (mapBytes entries) =
      entries.foldl (loadEntry wanted) (server.memory, 0) := by
  have limit : server.memory.entryLimit = (ToolMemory.empty maxEntries).entryLimit := by
    unfold ToolMemory.entryLimit
    rw [sameLimit]
    rfl
  have limitLt : (ToolMemory.empty maxEntries).entryLimit < 2 ^ 31 := by
    unfold ToolMemory.entryLimit ToolMemory.empty
    split <;> omega
  have fits : entries.length < 2 ^ 32 := by omega
  set countPart := lePut32 (UInt32.ofNat entries.length) with countEq
  have countLength : countPart.length = 4 := length_lePut32 _
  have parts : mapBytes entries = [75, 84, 77, 1] ++ (countPart ++ entries.flatMap mapRecord) := by
    simp only [mapBytes, append_assoc, countEq]
  have n : (leGet32 (((mapBytes entries).drop 4).take 4)).toNat = entries.length := by
    have behindMagic : (mapBytes entries).drop 4 = countPart ++ entries.flatMap mapRecord := by
      rw [parts]
      rfl
    rw [behindMagic, take_left' countLength, countEq, leGet32_lePut32,
      UInt32.toNat_ofNat_of_lt' fits]
  have long : ¬ (mapBytes entries).length < 8 := by
    rw [parts]
    simp only [length_append, countLength, length_cons, length_nil]
    omega
  have magic : (mapBytes entries).take 4 = [75, 84, 77, 1] := rfl
  have records : (mapBytes entries).drop 8 = entries.flatMap mapRecord := by
    rw [parts, ← append_assoc]
    exact drop_left' (by rw [length_append, countLength]; rfl)
  rw [kvToolMapLoadFromPos, replays, if_neg Bool.false_ne_true, if_neg long, magic,
    if_neg (by simp)]
  simp only [n, records]
  rw [if_neg (by omega)]
  exact loadRecords_mapRecords proper wanted _

theorem loadsCompletely_mapBytes {maxEntries : Nat} (ne : entries ≠ [])
    (proper : ∀ entry ∈ entries, ToolMemory.Proper entry.id entry.dsml ∧
      entry.dsml.length ≤ maxMemoryBytes)
    (few : entries.length ≤ (ToolMemory.empty maxEntries).entryLimit)
    (isInt : maxEntries < 2 ^ 31) :
    LoadsCompletely maxEntries (mapBytes entries) :=
  ⟨entries, ne, rfl, fun _ wanted exact sameLimit =>
    kvToolMapLoadFromPos_mapBytes proper few isInt wanted exact sameLimit⟩

section Written

variable {maxEntries : Nat} {server : Replay} {text : Bytes}

theorem mapEntries_proper (reached : server.memory.Reached maxEntries) :
    (∀ entry ∈ mapEntries server text, ToolMemory.Proper entry.id entry.dsml ∧
      entry.dsml.length ≤ maxMemoryBytes) ∧
    (mapEntries server text).length ≤ (ToolMemory.empty maxEntries).entryLimit := by
  obtain ⟨sound, limit⟩ := reached.sound
  have sameLimit : server.memory.entryLimit = (ToolMemory.empty maxEntries).entryLimit := by
    unfold ToolMemory.entryLimit
    rw [limit]
    rfl
  constructor
  · intro entry mem
    have made := mem_mapEntries mem
    exact ⟨sound.proper entry made, sound.length_dsml_le made⟩
  · rw [← sameLimit]
    exact (length_mapEntries_le server text).trans sound.entries_le

theorem loadsCompletely_kvToolMapWrite (reached : server.memory.Reached maxEntries)
    (isInt : maxEntries < 2 ^ 31) (counted : countDsmlInText server text ≠ 0) :
    kvToolMapWrite server text ≠ [] ∧ LoadsCompletely maxEntries (kvToolMapWrite server text) := by
  have ne := mapEntries_ne_nil reached.sound.1 counted
  obtain ⟨proper, few⟩ := @mapEntries_proper maxEntries server text reached
  rw [kvToolMapWrite, if_neg ne]
  exact ⟨by simp [mapBytes], loadsCompletely_mapBytes ne proper few isInt⟩

end Written

end LnaLang.Chat
