import LnaLang.KvFileUpdates

/-!
# What a rewritten tool map forgets

`kv_cache_rewrite_tool_map` cuts the old map off and writes a new one from the memory.
A call of the old map whose block still stands in the text is in the new map when the
memory has it; one that the memory has lost, or has never loaded, is gone.
-/

namespace LnaLang

namespace Chat

namespace ToolMemory

open List

section Loading

variable {memory : ToolMemory}

theorem prune_of_not_full (notFull : memory.full = false) : memory.prune = memory := by
  apply pruneLoop.run_of_halt
  simp only [pruneLoop, notFull, Bool.false_eq_true, if_false]
  split <;> rfl

theorem put_new {entry : MemoryEntry} (consistent : Consistent memory)
    (proper : Proper entry.id entry.dsml) (isNew : ∀ other ∈ memory.made, other.id ≠ entry.id)
    (few : memory.made.length < memory.entryLimit)
    (small : account (entry :: memory.made) ≤ maxMemoryBytes) :
    memory.put entry.id entry.dsml = memory.addEntry entry := by
  have missing : memory.findEntry entry.id = none := by
    rw [findEntry, if_neg proper.id_ne_nil, find?_eq_none]
    simpa using isNew
  have added := consistent.addEntry proper
  have notFull : (memory.addEntry entry).full = false := by
    have lengths := added.perm.length_eq
    have sameLimit : (memory.addEntry entry).entryLimit = memory.entryLimit := rfl
    have accounted := added.accounted
    simp only [full, Bool.or_eq_false_iff, decide_eq_false_iff_not, Nat.not_lt]
    rw [lengths, sameLimit, accounted]
    exact ⟨few, small⟩
  rw [put, if_neg (by simp [proper.id_ne_nil, proper.dsml_ne_nil]), missing]
  exact prune_of_not_full notFull

theorem made_puts {entries : List MemoryEntry} (consistent : Consistent memory)
    (proper : ∀ entry ∈ entries, Proper entry.id entry.dsml)
    (distinct : ((entries.reverse ++ memory.made).map MemoryEntry.id).Nodup)
    (few : (entries.reverse ++ memory.made).length ≤ memory.entryLimit)
    (small : account (entries.reverse ++ memory.made) ≤ maxMemoryBytes) :
    (entries.foldl (fun memory entry => memory.put entry.id entry.dsml) memory).made =
      entries.reverse ++ memory.made := by
  induction entries generalizing memory with
  | nil => rfl
  | cons entry entries ih =>
    rw [forall_mem_cons] at proper
    rw [reverse_cons, append_assoc, singleton_append] at distinct few small ⊢
    have later : (entry :: memory.made).Sublist (entries.reverse ++ entry :: memory.made) :=
      sublist_append_right _ _
    have isNew : ∀ other ∈ memory.made, other.id ≠ entry.id := by
      have nodup := distinct.sublist (later.map MemoryEntry.id)
      rw [map_cons, nodup_cons] at nodup
      intro other mem same
      exact nodup.1 (same ▸ mem_map_of_mem mem)
    have put := put_new consistent proper.1 isNew (Nat.lt_of_succ_le (later.length_le.trans few))
      ((account_mono later.subperm).trans small)
    rw [foldl_cons, put]
    exact ih (consistent.addEntry proper.1) proper.2 distinct few small

theorem text?_eq_some_iff (keyed : memory.Keyed) {id dsml : Bytes} :
    memory.text? id = some dsml ↔ id ≠ [] ∧ ⟨id, dsml⟩ ∈ memory.made := by
  constructor
  · intro answer
    obtain ⟨entry, found, rfl⟩ := Option.map_eq_some_iff.mp answer
    obtain ⟨mem, rfl⟩ := mem_of_findEntry found
    refine ⟨?_, mem⟩
    intro empty
    rw [findEntry, if_pos empty] at found
    cases found
  · rintro ⟨ne, mem⟩
    cases missing : memory.findEntry id with
    | none => exact absurd rfl (findEntry_eq_none ne missing _ mem)
    | some entry =>
      obtain ⟨entryMem, sameId⟩ := mem_of_findEntry missing
      rw [text?, missing, keyed.eq_of_id entryMem mem sameId]
      rfl

end Loading

end ToolMemory

section Records

variable {server : Replay} {text : Bytes} {maxEntries : Nat}

theorem nodup_collectEntries {memory : ToolMemory} (nodup : memory.made.Nodup)
    (blocks seen : List Bytes) : (collectEntries memory seen blocks).Nodup := by
  induction blocks generalizing seen with
  | nil => exact List.nodup_nil
  | cons block blocks ih =>
    rw [collectEntries]
    split
    · exact ih seen
    · apply (nodup.filter _).append (ih (block :: seen))
      intro entry here later
      have isBlock := (mem_blockEntries.mp here).2
      have unseen := ((mem_collectEntries blocks (block :: seen)).mp later).2.2
      exact unseen (isBlock ▸ List.mem_cons_self)

theorem mem_mapEntries_iff (sound : server.memory.Sound)
    (enabled : server.disableExactDsmlToolReplay = false) {entry : MemoryEntry} :
    entry ∈ mapEntries server text ↔ entry ∈ server.memory.made ∧ entry.dsml ∈ toolBlocks text := by
  rw [mapEntries, enabled, if_neg Bool.false_ne_true, List.mem_filter, mem_collectEntries]
  constructor
  · rintro ⟨⟨made, block, -⟩, -⟩
    exact ⟨made, block⟩
  · rintro ⟨made, block⟩
    have idLe := (sound.proper entry made).id_le
    have dsmlLe := sound.length_dsml_le made
    rw [maxMemoryBytes] at dsmlLe
    refine ⟨⟨made, block, List.not_mem_nil⟩, ?_⟩
    simp only [Bool.and_eq_true, decide_eq_true_eq]
    omega

theorem nodup_mapEntries (keyed : server.memory.Keyed) : (mapEntries server text).Nodup := by
  unfold mapEntries
  split
  · exact List.nodup_nil
  · exact (nodup_collectEntries (List.Nodup.of_map _ keyed) _ _).filter _

theorem distinct_mapEntries (keyed : server.memory.Keyed) :
    ((mapEntries server text).map MemoryEntry.id).Nodup :=
  (nodup_mapEntries keyed).map_on fun _ mem _ otherMem same =>
    keyed.eq_of_id (mem_mapEntries mem) (mem_mapEntries otherMem) same

theorem made_load_written (reached : server.memory.Reached maxEntries)
    (isInt : maxEntries < 2 ^ 31) (counted : countDsmlInText server text ≠ 0) :
    (kvToolMapLoadFromPos ⟨.empty maxEntries, false⟩ none
      (kvToolMapWrite server text)).1.made = (mapEntries server text).reverse := by
  have ne := mapEntries_ne_nil reached.sound.1 counted
  obtain ⟨proper, few⟩ := @mapEntries_proper maxEntries server text reached
  have small : ToolMemory.account (mapEntries server text) ≤ maxMemoryBytes := by
    have fewer : (mapEntries server text).Subperm server.memory.made :=
      List.subperm_of_subset (nodup_mapEntries reached.keyed) fun _ => mem_mapEntries
    have bytes := reached.sound.1.bytes_le
    rw [reached.sound.1.accounted] at bytes
    exact (ToolMemory.account_mono fewer).trans bytes
  have puts (entries : List MemoryEntry) (state : ToolMemory × Nat) :
      (entries.foldl (loadEntry none) state).1 =
        entries.foldl (fun memory entry => memory.put entry.id entry.dsml) state.1 := by
    induction entries generalizing state with
    | nil => rfl
    | cons entry entries ih => exact ih _
  have perm := List.reverse_perm (mapEntries server text)
  rw [kvToolMapWrite, if_neg ne, kvToolMapLoadFromPos_mapBytes proper few isInt none rfl rfl, puts,
    ToolMemory.made_puts (ToolMemory.sound_empty maxEntries).toConsistent
      (fun entry mem => (proper entry mem).1)]
  · exact List.append_nil _
  · change (((mapEntries server text).reverse ++ []).map MemoryEntry.id).Nodup
    rw [List.append_nil]
    exact (perm.map _).nodup_iff.mpr (distinct_mapEntries reached.keyed)
  · change ((mapEntries server text).reverse ++ []).length ≤ _
    rw [List.append_nil, List.length_reverse]
    exact few
  · change ToolMemory.account ((mapEntries server text).reverse ++ []) ≤ _
    rw [List.append_nil, ToolMemory.account_perm perm]
    exact small

end Records

end Chat

namespace KvCache

open Chat

section Rewriting

/-- What a server with an empty memory gets from the tool map of a file, as
`kv_cache_try_load_text` loads it. -/
def loadedToolMap (maxEntries : Nat) (file : Bytes) : ToolMemory :=
  match kvReadHeader file with
  | none => .empty maxEntries
  | some (header, textBytes) =>
    if header.extFlags &&& extToolMap ≠ 0 then
      (kvToolMapLoadFromPos ⟨.empty maxEntries, false⟩ none
        (file.drop (payloadStart textBytes + header.payloadBytes.toNat))).1
    else .empty maxEntries

/-- The pairs of an old map whose blocks stand in the text are in a new one, but for
those whose ids the memory has with another block. -/
def KeepsPairs (old new memory : ToolMemory) (blocks : List Bytes) : Prop :=
  ∀ id dsml, old.text? id = some dsml → dsml ∈ blocks →
    (∀ other, memory.text? id = some other → other = dsml) → new.text? id = some dsml

/-- The memory has the ids of the pairs of an old map whose blocks stand in the text. -/
def KnowsIds (old memory : ToolMemory) (blocks : List Bytes) : Prop :=
  ∀ id dsml, old.text? id = some dsml → dsml ∈ blocks → (memory.findEntry id).isSome

theorem loadedToolMap_bytes {image : Image} (formed : image.WellFormed)
    (flagged : image.header.extFlags &&& extToolMap ≠ 0) (maxEntries : Nat) :
    loadedToolMap maxEntries image.bytes =
      (kvToolMapLoadFromPos ⟨.empty maxEntries, false⟩ none image.toolMap).1 := by
  rw [loadedToolMap, kvReadHeader_bytes formed]
  dsimp only
  rw [if_pos flagged, drop_body formed]

theorem flagged_or (flags : UInt8) : (flags ||| extToolMap) &&& extToolMap ≠ 0 := by
  have both : (flags ||| extToolMap) &&& extToolMap = extToolMap := by
    apply UInt8.toBitVec_inj.mp
    ext bit inside
    simp +contextual
  rw [both]
  decide

variable {image : Image} {server : Replay} {maxEntries : Nat}

theorem text?_rewritten (formed : image.WellFormed) (small : image.body.length < 2 ^ 63)
    (isInt : maxEntries < 2 ^ 31) (reached : server.memory.Reached maxEntries) (now : UInt64)
    (counted : countDsmlInText server (cString image.text) ≠ 0) (id dsml : Bytes) :
    (loadedToolMap maxEntries
        ((FileUpdate.rewriteToolMap server image.text now).apply image.bytes)).text? id =
        some dsml ↔
      server.memory.text? id = some dsml ∧ dsml ∈ toolBlocks (cString image.text) := by
  have enabled : server.disableExactDsmlToolReplay = false := by
    by_contra disabled
    rw [Bool.not_eq_false] at disabled
    exact counted (by rw [countDsmlInText, disabled, if_pos rfl])
  have ne := (loadsCompletely_kvToolMapWrite reached isInt counted).1
  -- The new file.
  let written : Image := { image with
    header := { image.header with
      extFlags := image.header.extFlags ||| extToolMap, lastUsed := now }
    toolMap := kvToolMapWrite server (cString image.text) }
  have formedWritten : written.WellFormed := ⟨formed.tokens, formed.quantBits,
    formed.reason, formed.text, formed.payload, formed.size⟩
  rw [FileUpdate.apply, if_neg counted, kvCacheRewriteToolMap_written formed small now ne,
    loadedToolMap_bytes formedWritten (flagged_or image.header.extFlags)]
  have made := made_load_written reached isInt counted
  have keyed : (kvToolMapLoadFromPos ⟨.empty maxEntries, false⟩ none
      (kvToolMapWrite server (cString image.text))).1.Keyed := by
    rw [ToolMemory.Keyed, made, List.map_reverse, List.nodup_reverse]
    exact distinct_mapEntries reached.keyed
  rw [ToolMemory.text?_eq_some_iff keyed, ToolMemory.text?_eq_some_iff reached.keyed, made,
    List.mem_reverse, mem_mapEntries_iff reached.sound.1 enabled, and_assoc]

variable (image server maxEntries) in
/-- A rewrite keeps the pairs of the old map whose blocks stand in the text exactly if it
leaves the file alone or the memory has all of their ids. -/
theorem rewrite_keepsPairs_iff (formed : image.WellFormed) (small : image.body.length < 2 ^ 63)
    (isInt : maxEntries < 2 ^ 31) (reached : server.memory.Reached maxEntries) (now : UInt64) :
    KeepsPairs (loadedToolMap maxEntries image.bytes) (loadedToolMap maxEntries
          ((FileUpdate.rewriteToolMap server image.text now).apply image.bytes))
        server.memory (toolBlocks (cString image.text)) ↔
      countDsmlInText server (cString image.text) = 0 ∨
        KnowsIds (loadedToolMap maxEntries image.bytes) server.memory
          (toolBlocks (cString image.text)) := by
  by_cases counted : countDsmlInText server (cString image.text) = 0
  · refine ⟨fun _ => Or.inl counted, fun _ id dsml answer _ _ => ?_⟩
    rw [FileUpdate.apply, if_pos counted]
    exact answer
  have rewritten := text?_rewritten formed small isInt reached now counted
  constructor
  · intro keeps
    right
    intro id dsml answer block
    -- An id that the memory does not have is not excepted, and so would have to be kept.
    by_contra unknown
    rw [Option.not_isSome_iff_eq_none] at unknown
    have missing : server.memory.text? id = none := by
      rw [ToolMemory.text?, unknown]
      rfl
    have kept := keeps id dsml answer block fun other found => by
      rw [missing] at found
      cases found
    have known := ((rewritten id dsml).mp kept).1
    rw [missing] at known
    cases known
  · rintro (uncounted | known) id dsml answer block excepted
    · exact absurd uncounted counted
    · obtain ⟨entry, found⟩ := Option.isSome_iff_exists.mp (known id dsml answer block)
      have current : server.memory.text? id = some entry.dsml := by
        rw [ToolMemory.text?, found]
        rfl
      obtain rfl := excepted _ current
      exact (rewritten id entry.dsml).mpr ⟨current, block⟩

end Rewriting

def otherBlock : Bytes := utf8 "<tool_calls> </tool_calls>"

def oneCall (id dsml : Bytes) : Replay := ⟨(ToolMemory.empty 4).put id dsml, false⟩

theorem reached_oneCall {id dsml : Bytes} (short : id.length ≤ 256) (idFree : NulFree id)
    (dsmlFree : NulFree dsml) : (oneCall id dsml).memory.Reached 4 :=
  ⟨[.put id dsml], List.forall_mem_singleton.mpr ⟨short, idFree, dsmlFree⟩, rfl⟩

def twoBlocks : Image where
  header := ⟨2, 1, extToolMap, 1, 0, 4096, 0, 0, 0⟩
  text := emptyBlock ++ otherBlock
  payload := []
  toolMap := kvToolMapWrite (oneCall (utf8 "call_1") emptyBlock) (emptyBlock ++ otherBlock)

theorem wellFormed_twoBlocks : twoBlocks.WellFormed where
  tokens := by decide
  quantBits := by decide
  reason := by decide
  text := by decide
  payload := rfl
  size := by decide

/-- The memory has the call of the old map. -/
theorem rewrite_keepsPairs_twoBlocks : KeepsPairs (loadedToolMap 4 twoBlocks.bytes)
      (loadedToolMap 4 ((FileUpdate.rewriteToolMap (oneCall (utf8 "call_1") emptyBlock)
        twoBlocks.text 5).apply twoBlocks.bytes))
      (oneCall (utf8 "call_1") emptyBlock).memory
      (toolBlocks (cString twoBlocks.text)) := by
  refine (rewrite_keepsPairs_iff twoBlocks (oneCall (utf8 "call_1") emptyBlock) 4
    wellFormed_twoBlocks (by decide) (by decide)
    (reached_oneCall (by decide) (by decide) (by decide)) 5).mpr (Or.inr ?_)
  intro id dsml answer _
  have same : (loadedToolMap 4 twoBlocks.bytes).made =
      (oneCall (utf8 "call_1") emptyBlock).memory.made := by decide +kernel
  rw [ToolMemory.text?_congr same] at answer
  obtain ⟨entry, found, -⟩ := Option.map_eq_some_iff.mp answer
  exact Option.isSome_of_eq_some found

/-- A memory that has only a call of the other block: the call of the old map is gone,
although its block stands in the text. -/
theorem rewrite_forgets_twoBlocks :
    let server := oneCall (utf8 "call_2") otherBlock
    let rewritten := (FileUpdate.rewriteToolMap server twoBlocks.text 5).apply twoBlocks.bytes
    twoBlocks.WellFormed ∧ server.memory.Reached 4 ∧
      (loadedToolMap 4 twoBlocks.bytes).text? (utf8 "call_1") = some emptyBlock ∧
      emptyBlock ∈ toolBlocks (cString twoBlocks.text) ∧
      server.memory.text? (utf8 "call_1") = none ∧
      (loadedToolMap 4 rewritten).text? (utf8 "call_1") = none :=
  ⟨wellFormed_twoBlocks, reached_oneCall (by decide) (by decide) (by decide),
    by decide +kernel, by decide +kernel, by decide +kernel, by decide +kernel⟩

end KvCache

end LnaLang
