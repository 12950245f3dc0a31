import LnaLang.KvCacheTranscript
import LnaLang.ToolMap

/-!
# Updates of a cache file

A stored file is touched and gets new tool maps.  All of its parts but the hits, the
time of the last use and the map stay what they were, and the map is always one that
can be read back completely.
-/

namespace LnaLang

namespace KvCache

open List

open Chat

section Reading

/-- The parts of a cache file. -/
structure Image where
  header : Header
  text : Bytes
  payload : Bytes
  toolMap : Bytes

def Image.bytes (image : Image) : Bytes :=
  kvFillHeader image.header ++ (lePut32 (UInt32.ofNat image.text.length) ++
      (image.text ++ (image.payload ++ image.toolMap)))

/-- The header of a file that the cache accepts, for the parts that are there. -/
structure Image.WellFormed (image : Image) : Prop where
  tokens : image.header.tokens ≠ 0
  quantBits : image.header.quantBits = 2 ∨ image.header.quantBits = 4
  reason : image.header.reason ≤ Reason.shutdown.code
  text : image.text.length < 2 ^ 32
  payload : image.payload.length = image.header.payloadBytes.toNat
  size : fixedHeader + 4 + image.text.length + image.payload.length < 2 ^ 64

theorem field_middle {file before middle after : Bytes} {off n : Nat}
    (parts : file = before ++ (middle ++ after)) (isOffset : before.length = off)
    (isCount : middle.length = n) : field file off n = middle := by
  rw [parts, field, drop_left' isOffset, take_left' isCount]

theorem field_kvFillHeader (header : Header) (rest : Bytes) :
    field (kvFillHeader header ++ rest) 8 4 = lePut32 header.tokens ∧
    field (kvFillHeader header ++ rest) 12 4 = lePut32 header.hits ∧
    field (kvFillHeader header ++ rest) 16 4 = lePut32 header.ctxSize ∧
    field (kvFillHeader header ++ rest) 24 8 = lePut64 header.createdAt ∧
    field (kvFillHeader header ++ rest) 32 8 = lePut64 header.lastUsed ∧
    field (kvFillHeader header ++ rest) 40 8 = lePut64 header.payloadBytes := by
  -- The parts before each field, and what comes behind it.
  let upToTokens : Bytes :=
    [75, 86, 67, 1, header.quantBits, header.reason, header.extFlags, 0]
  let upToHits := upToTokens ++ lePut32 header.tokens
  let upToCtx := upToHits ++ lePut32 header.hits
  let upToCreated := upToCtx ++ lePut32 header.ctxSize ++ [0, 0, 0, 0]
  let upToUsed := upToCreated ++ lePut64 header.createdAt
  let upToPayload := upToUsed ++ lePut64 header.lastUsed
  let fromUsed := lePut64 header.lastUsed ++ lePut64 header.payloadBytes ++ rest
  let fromCreated := [0, 0, 0, 0] ++ lePut64 header.createdAt ++ fromUsed
  let fromCtx := lePut32 header.ctxSize ++ fromCreated
  refine ⟨@field_middle _ upToTokens _ (lePut32 header.hits ++ fromCtx) _ _ ?_ ?_ ?_,
    @field_middle _ upToHits _ fromCtx _ _ ?_ ?_ ?_,
    @field_middle _ upToCtx _ fromCreated _ _ ?_ ?_ ?_,
    @field_middle _ upToCreated _ fromUsed _ _ ?_ ?_ ?_,
    @field_middle _ upToUsed _ (lePut64 header.payloadBytes ++ rest) _ _ ?_ ?_ ?_,
    @field_middle _ upToPayload _ rest _ _ ?_ ?_ ?_⟩ <;>
  simp [kvFillHeader, upToTokens, upToHits, upToCtx, upToCreated, upToUsed,
    upToPayload, fromUsed, fromCreated, fromCtx]

variable {image : Image}

theorem kvReadHeader_bytes (formed : image.WellFormed) :
    kvReadHeader image.bytes = some (image.header, UInt32.ofNat image.text.length) := by
  obtain ⟨header, text, payload, toolMap⟩ := image
  obtain ⟨tokens, quantBits, reason, -, -, -⟩ := formed
  dsimp only at tokens quantBits reason
  set rest := lePut32 (UInt32.ofNat text.length) ++ (text ++ (payload ++ toolMap))
    with restEq
  have long : fixedHeader + 4 ≤ (kvFillHeader header ++ rest).length := by
    rw [restEq]
    simp only [length_append, length_kvFillHeader, length_lePut32]
    omega
  obtain ⟨tokensField, hitsField, ctxField, createdField, usedField, payloadField⟩ :=
    field_kvFillHeader header rest
  have textField : field (kvFillHeader header ++ rest) fixedHeader 4 =
      lePut32 (UInt32.ofNat text.length) :=
    field_middle rfl (length_kvFillHeader header) (length_lePut32 _)
  have magic : (kvFillHeader header ++ rest).take 4 = [75, 86, 67, 1] := rfl
  have start : (kvFillHeader header ++ rest).getD 4 0 = header.quantBits ∧
      (kvFillHeader header ++ rest).getD 5 0 = header.reason ∧
      (kvFillHeader header ++ rest).getD 6 0 = header.extFlags := ⟨rfl, rfl, rfl⟩
  change kvReadHeader (kvFillHeader header ++ rest) = _
  unfold kvReadHeader
  rw [if_neg (by omega), magic, if_neg (by simp)]
  simp only [tokensField, hitsField, ctxField, createdField, usedField, payloadField,
    textField, start.1, start.2.1, start.2.2, leGet32_lePut32, leGet64_lePut64]
  rw [if_neg (by omega), if_pos reason, if_pos ⟨tokens, quantBits⟩]

theorem payloadStart_bytes (formed : image.WellFormed) :
    payloadStart (UInt32.ofNat image.text.length) = fixedHeader + 4 + image.text.length := by
  rw [payloadStart, UInt32.toNat_ofNat_of_lt' formed.text]

/-- The file up to the end of its payload. -/
def Image.body (image : Image) : Bytes :=
  kvFillHeader image.header ++
    (lePut32 (UInt32.ofNat image.text.length) ++ (image.text ++ image.payload))

theorem Image.bytes_eq (image : Image) : image.bytes = image.body ++ image.toolMap := by
  simp only [Image.bytes, Image.body, append_assoc]

variable (formed : image.WellFormed)

include formed

theorem length_body : image.body.length = payloadStart (UInt32.ofNat image.text.length) +
      image.header.payloadBytes.toNat := by
  rw [payloadStart_bytes formed, ← formed.payload]
  simp only [Image.body, length_append, length_kvFillHeader, length_lePut32]
  omega

theorem kvReadEntryFile_bytes (name sha : Bytes) : kvReadEntryFile name sha image.bytes =
      some ⟨sha, name, image.header, UInt32.ofNat image.text.length, image.bytes.length⟩ := by
  have bodyLength := length_body formed
  have total : image.bytes.length = image.body.length + image.toolMap.length := by
    rw [image.bytes_eq, length_append]
  have start := payloadStart_bytes formed
  have size := formed.size
  have payload := formed.payload
  have long : ¬ image.bytes.length < fixedHeader + 4 := by omega
  rw [kvReadEntryFile, if_neg long, kvReadHeader_bytes formed]
  dsimp only
  rw [if_neg (by omega)]

theorem storedText_bytes :
    storedText image.bytes (UInt32.ofNat image.text.length) = image.text := by
  have behind : (kvFillHeader image.header ++
      lePut32 (UInt32.ofNat image.text.length)).length = fixedHeader + 4 := by
    rw [length_append, length_kvFillHeader, length_lePut32]
  apply field_middle _ behind (UInt32.toNat_ofNat_of_lt' formed.text).symm
  · exact image.payload ++ image.toolMap
  · simp only [Image.bytes, append_assoc]

theorem storedPayload_bytes :
    storedPayload image.bytes image.header (UInt32.ofNat image.text.length) = image.payload := by
  have behind : (kvFillHeader image.header ++
      (lePut32 (UInt32.ofNat image.text.length) ++ image.text)).length =
        payloadStart (UInt32.ofNat image.text.length) := by
    rw [payloadStart_bytes formed]
    simp only [length_append, length_kvFillHeader, length_lePut32]
    omega
  apply field_middle _ behind formed.payload
  · exact image.toolMap
  · simp only [Image.bytes, append_assoc]

theorem drop_body : image.bytes.drop (payloadStart (UInt32.ofNat image.text.length) +
      image.header.payloadBytes.toNat) = image.toolMap := by
  rw [image.bytes_eq]
  exact drop_left' (length_body formed)

end Reading

section Updating

inductive FileUpdate where
  | touch (hits : UInt32) (now : UInt64)
  | rewriteToolMap (server : Replay) (text : Bytes) (now : UInt64)

/-- `kv_cache_touch_file`, or `kv_cache_rewrite_tool_map`. -/
def FileUpdate.apply (file : Bytes) : FileUpdate → Bytes
  | touch hits now => kvCacheTouchFile hits now fixedHeader file
  | rewriteToolMap server text now =>
    if countDsmlInText server (cString text) = 0 then file
    else
      kvCacheRewriteToolMap
        { now
          truncates := true
          mapWritten := (kvToolMapWrite server (cString text)).length
          headerWritten := fixedHeader }
        (kvToolMapWrite server (cString text)) file

def lastHits (hits : UInt32) (updates : List FileUpdate) : UInt32 :=
  updates.foldl (fun hits update =>
    match update with
    | .touch last _ => last
    | .rewriteToolMap _ _ _ => hits) hits

theorem overwrite_header (old new : Header) (rest : Bytes) :
    overwrite (kvFillHeader old ++ rest) ((kvFillHeader new).take fixedHeader) =
      kvFillHeader new ++ rest := by
  rw [take_of_length_le (Nat.le_of_eq (length_kvFillHeader new)), overwrite,
    length_kvFillHeader, drop_left' (length_kvFillHeader old)]

variable {image : Image} (formed : image.WellFormed)

include formed

theorem kvCacheTouchFile_bytes (hits : UInt32) (now : UInt64) :
    kvCacheTouchFile hits now fixedHeader image.bytes = Image.bytes { image with
        header := { image.header with hits := hits, lastUsed := now } } := by
  rw [kvCacheTouchFile, kvReadHeader_bytes formed]
  exact overwrite_header _ _ _

theorem kvCacheRewriteToolMap_written
    (small : image.body.length < 2 ^ 63) (now : UInt64) {toolMap : Bytes}
    (ne : toolMap ≠ []) :
    kvCacheRewriteToolMap ⟨now, true, toolMap.length, fixedHeader⟩ toolMap image.bytes =
      Image.bytes { image with
        header := { image.header with
          extFlags := image.header.extFlags ||| extToolMap, lastUsed := now }
        toolMap } := by
  have stop : (payloadStart (UInt32.ofNat image.text.length) +
      image.header.payloadBytes.toNat) % 2 ^ 64 = image.body.length := by
    rw [← length_body formed]
    exact Nat.mod_eq_of_lt (by omega)
  have cut : image.bytes.takeD image.body.length 0 = image.body := by
    rw [image.bytes_eq, takeD_eq_take _ (by rw [length_append]; omega),
      take_left' rfl]
  rw [kvCacheRewriteToolMap, kvReadHeader_bytes formed]
  dsimp only
  rw [stop, if_pos ⟨small, rfl⟩, cut, take_length,
    if_pos ⟨Nat.le_refl _, ne⟩, Image.body, append_assoc, overwrite_header,
    Image.bytes]
  simp only [append_assoc]

theorem kvCacheRewriteToolMap_bytes (now : UInt64) {toolMap : Bytes} (ne : toolMap ≠ []) :
    kvCacheRewriteToolMap ⟨now, true, toolMap.length, fixedHeader⟩ toolMap
        image.bytes = image.bytes ∨
      kvCacheRewriteToolMap ⟨now, true, toolMap.length, fixedHeader⟩ toolMap image.bytes =
        Image.bytes { image with
          header := { image.header with
            extFlags := image.header.extFlags ||| extToolMap, lastUsed := now }
          toolMap } := by
  by_cases small : image.body.length < 2 ^ 63
  · exact Or.inr (kvCacheRewriteToolMap_written formed small now ne)
  · left
    have size := formed.size
    have payload := formed.payload
    have start := payloadStart_bytes formed
    rw [kvCacheRewriteToolMap, kvReadHeader_bytes formed]
    dsimp only
    rw [length_body formed] at small
    rw [Nat.mod_eq_of_lt (by omega), if_neg fun both => small both.1]

omit formed

structure Image.Keeps (maxEntries : Nat) (original image : Image) (hits : UInt32) :
    Prop where
  text : image.text = original.text
  payload : image.payload = original.payload
  header : image.header = { original.header with
    hits := hits
    extFlags := image.header.extFlags
    lastUsed := image.header.lastUsed }
  toolMap : image.header.extFlags &&& extToolMap ≠ 0 →
    LoadsCompletely maxEntries image.toolMap

variable {original : Image} {maxEntries : Nat} {hits : UInt32}

theorem Image.Keeps.wellFormed (keeps : original.Keeps maxEntries image hits)
    (formed : original.WellFormed) : image.WellFormed := by
  have header := keeps.header
  obtain ⟨tokens, quantBits, reason, text, payload, size⟩ := formed
  constructor
  · rw [header]
    exact tokens
  · rw [header]
    exact quantBits
  · rw [header]
    exact reason
  · rw [keeps.text]
    exact text
  · rw [header, keeps.payload]
    exact payload
  · rw [keeps.text, keeps.payload]
    exact size

theorem Image.Keeps.apply (formed : original.WellFormed)
    (keeps : original.Keeps maxEntries image hits) (isInt : maxEntries < 2 ^ 31)
    {update : FileUpdate} (reached : ∀ server text now, update = .rewriteToolMap server text now →
      server.memory.Reached maxEntries) : ∃ next : Image, update.apply image.bytes = next.bytes ∧
      original.Keeps maxEntries next (lastHits hits [update]) := by
  have formedImage := keeps.wellFormed formed
  have header := keeps.header
  cases update with
  | touch newHits now =>
    refine ⟨_, kvCacheTouchFile_bytes formedImage newHits now, keeps.text,
      keeps.payload, ?_, keeps.toolMap⟩
    dsimp only
    rw [header]
    rfl
  | rewriteToolMap server text now =>
    by_cases nothing : countDsmlInText server (cString text) = 0
    · refine ⟨image, ?_, keeps⟩
      rw [FileUpdate.apply, if_pos nothing]
    · obtain ⟨ne, complete⟩ := loadsCompletely_kvToolMapWrite
        (reached server text now rfl) isInt nothing
      rw [FileUpdate.apply, if_neg nothing]
      rcases kvCacheRewriteToolMap_bytes formedImage now ne with same | written
      · exact ⟨image, same, keeps⟩
      · refine ⟨_, written, keeps.text, keeps.payload, ?_, fun _ => complete⟩
        dsimp only
        rw [header]
        rfl

theorem Image.Keeps.applyAll (formed : original.WellFormed)
    (isInt : maxEntries < 2 ^ 31) (updates : List FileUpdate)
    (keeps : original.Keeps maxEntries image hits)
    (reached : ∀ server text now, .rewriteToolMap server text now ∈ updates →
      server.memory.Reached maxEntries) :
    ∃ last : Image, updates.foldl FileUpdate.apply image.bytes = last.bytes ∧
      original.Keeps maxEntries last (lastHits hits updates) := by
  induction updates generalizing image hits with
  | nil => exact ⟨image, rfl, keeps⟩
  | cons update updates ih =>
    have reachedFirst : ∀ server text now, update = .rewriteToolMap server text now →
        server.memory.Reached maxEntries := by
      intro server text now same
      exact reached server text now (same ▸ mem_cons_self)
    obtain ⟨next, applied, keepsNext⟩ := keeps.apply formed isInt reachedFirst
    rw [foldl_cons, applied]
    exact ih keepsNext fun server text now mem =>
      reached server text now (mem_cons_of_mem _ mem)

end Updating

section Storing

variable {Session : Type} (rt : Runtime Session Replay)

structure Runtime.UsesToolMaps : Prop where
  count : rt.toolMapCount = countDsmlInText
  write : rt.toolMapWrite = kvToolMapWrite
  -- A saved payload has as many bytes as the session announces.
  payload : ∀ session payload, rt.savePayload session = some payload →
    payload.length = (rt.payloadBytes session).toNat

variable {rt}

def newImage (rt : Runtime Session Replay) (io : Io)
    (server : Server Session Replay) (reason : Reason) (tokens : List Int)
    (text payload : Bytes) : Image where
  header := rt.newHeader io server reason tokens text
  text := text
  payload := payload
  toolMap := rt.toolMapWrite server.memory (cString text)

theorem newFile_eq (rt : Runtime Session Replay) (io : Io) (server : Server Session Replay)
    (reason : Reason) (tokens : List Int) (text payload : Bytes) :
    rt.newFile io server reason tokens text payload =
      (newImage rt io server reason tokens text payload).bytes := rfl

theorem get?_evict_rename {io : Io} {kv : DiskCache} {directory : Directory} {name new file : Bytes}
    (found : Directory.get? (kvCacheEvict io kv (directory.rename name new)) name = some file) :
    file = new := by
  have mem := mem_kvCacheEvict (Directory.mem_of_get? found)
  rcases mem_cons.mp mem with same | old
  · exact (Prod.mk.inj same).2
  · have other := of_mem_filter old
    simp at other

theorem storeText_eq_newFile {io : Io} {server after : Server Session Replay}
    {tokens : List Int} {reason : Reason} {text file : Bytes}
    (stored : rt.storeText io server reason tokens text = (true, after))
    (notKept : (rt.kvCacheExistingCompatible io server
      (kvPathForSha (rt.sha1BytesHex text)) (rt.sha1BytesHex text) text).1 = false)
    (found : after.directory.get? (kvPathForSha (rt.sha1BytesHex text)) = some file) :
    ∃ payload, rt.savePayload server.session = some payload ∧
      file = rt.newFile io server reason tokens text payload := by
  unfold Runtime.storeText at stored
  dsimp only at stored
  split at stored
  next directory kept =>
    rw [kept] at notKept
    cases notKept
  · split at stored
    · cases stored
    next payload saving =>
      rw [Option.ite_none_right_eq_some] at saving
      cases stored
      exact ⟨payload, saving.2, get?_evict_rename found⟩

theorem storeText_of_store {io : Io} {server after : Server Session Replay}
    {tokens : List Int} {storeLen : Int} {reason : Reason}
    (stored : rt.kvCacheStoreLivePrefix io server tokens storeLen reason = (true, after)) :
    (server.quantBits = 2 ∨ server.quantBits = 4) ∧
    (tokens.take storeLen.toNat).length = (rt.tokens server.session).length ∧
    (rt.renderTokensText (tokens.take storeLen.toNat)).length < 2 ^ 32 ∧
    rt.storeText io server reason (tokens.take storeLen.toNat)
      (rt.renderTokensText (tokens.take storeLen.toNat)) = (true, after) := by
  unfold Runtime.kvCacheStoreLivePrefix at stored
  dsimp only at stored
  split at stored
  · cases stored
  split at stored
  · cases stored
  split at stored
  · cases stored
  split at stored
  · cases stored
  split at stored
  · cases stored
  split at stored
  · cases stored
  rename_i quant live payload text
  refine ⟨?_, ?_, Nat.lt_of_not_le text, stored⟩
  · by_contra neither
    push Not at neither
    exact quant neither
  · by_contra differs
    exact live (Or.inl fun same => differs same.symm)

theorem wellFormed_newImage (uses : rt.UsesToolMaps) {io : Io} {server : Server Session Replay}
    {tokens : List Int} {reason : Reason} {text payload : Bytes} {maxEntries : Nat}
    (isInt : maxEntries < 2 ^ 31) (reached : server.memory.memory.Reached maxEntries)
    (quantBits : server.quantBits = 2 ∨ server.quantBits = 4) (some_tokens : tokens ≠ [])
    (tokensFit : tokens.length < 2 ^ 32) (textFits : text.length < 2 ^ 32)
    (saved : rt.savePayload server.session = some payload)
    (size : fixedHeader + 4 + text.length + payload.length < 2 ^ 64) :
    (newImage rt io server reason tokens text payload).WellFormed ∧
      (newImage rt io server reason tokens text payload).Keeps maxEntries
        (newImage rt io server reason tokens text payload) 0 := by
  constructor
  · constructor
    · intro noTokens
      have n : (UInt32.ofNat tokens.length).toNat = 0 := by
        rw [show UInt32.ofNat tokens.length = 0 from noTokens]
        rfl
      rw [UInt32.toNat_ofNat_of_lt' tokensFit] at n
      exact some_tokens (length_eq_zero_iff.mp n)
    · change UInt8.ofNat server.quantBits.toNat = 2 ∨ UInt8.ofNat server.quantBits.toNat = 4
      rcases quantBits with two | four
      · rw [two]
        exact Or.inl rfl
      · rw [four]
        exact Or.inr rfl
    · change reason.code ≤ Reason.shutdown.code
      cases reason <;> decide
    · exact textFits
    · exact uses.payload server.session payload saved
    · exact size
  · refine ⟨rfl, rfl, rfl, ?_⟩
    intro flagged
    have counted : countDsmlInText server.memory (cString text) ≠ 0 := by
      intro nothing
      apply flagged
      change (if 0 < rt.toolMapCount server.memory (cString text) then extToolMap
        else 0) &&& extToolMap = 0
      rw [uses.count, nothing, if_neg (Nat.lt_irrefl 0)]
      rfl
    change LoadsCompletely maxEntries (rt.toolMapWrite server.memory (cString text))
    rw [uses.write]
    exact (loadsCompletely_kvToolMapWrite reached isInt counted).2

variable (rt)

/-- Whatever updates a stored file gets, it is accepted with the parts it was stored
with and the hits of the last touch, and a flagged tool map is complete. -/
theorem updates_preserve_file (uses : rt.UsesToolMaps) (io : Io)
    (server after : Server Session Replay) (tokens : List Int) (storeLen : Int)
    (reason : Reason) (file : Bytes) (maxEntries : Nat) (updates : List FileUpdate)
    (isInt : maxEntries < 2 ^ 31)
    (reached : server.memory.memory.Reached maxEntries)
    (reachedLater : ∀ replay text now, .rewriteToolMap replay text now ∈ updates →
      replay.memory.Reached maxEntries)
    -- The live session has tokens, and the file fits into a file system.
    (live : rt.tokens server.session ≠ [])
    (liveFits : (rt.tokens server.session).length < 2 ^ 32)
    (size : fixedHeader + 4 + (rt.renderTokensText (tokens.take storeLen.toNat)).length +
      (rt.payloadBytes server.session).toNat < 2 ^ 64)
    (stored : rt.kvCacheStoreLivePrefix io server tokens storeLen reason = (true, after))
    -- The file is a new one, and not one that was there before.
    (notKept : (rt.kvCacheExistingCompatible io server
      (kvPathForSha (rt.sha1BytesHex (rt.renderTokensText (tokens.take storeLen.toNat))))
      (rt.sha1BytesHex (rt.renderTokensText (tokens.take storeLen.toNat)))
      (rt.renderTokensText (tokens.take storeLen.toNat))).1 = false)
    (found : after.directory.get? (kvPathForSha (rt.sha1BytesHex
      (rt.renderTokensText (tokens.take storeLen.toNat)))) = some file)
    (name sha : Bytes) :
    ∃ payload entry, rt.savePayload server.session = some payload ∧
      kvReadEntryFile name sha (updates.foldl FileUpdate.apply file) = some entry ∧
      entry.header = { rt.newHeader io server reason (tokens.take storeLen.toNat)
          (rt.renderTokensText (tokens.take storeLen.toNat)) with
        hits := lastHits 0 updates
        extFlags := entry.header.extFlags
        lastUsed := entry.header.lastUsed } ∧
      entry.textBytes.toNat = (rt.renderTokensText (tokens.take storeLen.toNat)).length ∧
      storedText (updates.foldl FileUpdate.apply file) entry.textBytes =
        rt.renderTokensText (tokens.take storeLen.toNat) ∧
      storedPayload (updates.foldl FileUpdate.apply file) entry.header entry.textBytes = payload ∧
      (entry.header.extFlags &&& extToolMap ≠ 0 →
        LoadsCompletely maxEntries ((updates.foldl FileUpdate.apply file).drop
          (payloadStart entry.textBytes + entry.header.payloadBytes.toNat))) := by
  obtain ⟨quantBits, lengths, textFits, storedText⟩ := storeText_of_store stored
  obtain ⟨payload, saved, rfl⟩ := storeText_eq_newFile storedText notKept found
  have someTokens : tokens.take storeLen.toNat ≠ [] := by
    intro noTokens
    rw [noTokens, length_nil] at lengths
    exact live (length_eq_zero_iff.mp lengths.symm)
  have payloadLength := uses.payload server.session payload saved
  obtain ⟨formed, keeps⟩ := @wellFormed_newImage _ rt uses io server
    (tokens.take storeLen.toNat) reason _ payload maxEntries isInt reached quantBits
    someTokens (by omega) textFits saved (by omega)
  obtain ⟨last, applied, keepsLast⟩ := keeps.applyAll formed isInt updates reachedLater
  have formedLast := keepsLast.wellFormed formed
  rw [newFile_eq, applied]
  refine ⟨payload, _, saved, kvReadEntryFile_bytes formedLast name sha,
    keepsLast.header, ?_, ?_, ?_, ?_⟩
  · rw [UInt32.toNat_ofNat_of_lt' formedLast.text, keepsLast.text]
    rfl
  · rw [storedText_bytes formedLast, keepsLast.text]
    rfl
  · rw [storedPayload_bytes formedLast, keepsLast.payload]
    rfl
  · intro flagged
    rw [drop_body formedLast]
    exact keepsLast.toolMap flagged

end Storing

section Example

open LnaLang.KvCache.Runtime

def mappingRuntime : Runtime Bytes Replay where
  tokenize := byteRuntime.tokenize
  tokenText := byteRuntime.tokenText
  decode_tokenize := byteRuntime.decode_tokenize
  sha1BytesHex := byteRuntime.sha1BytesHex
  tokens := byteRuntime.tokens
  checkpointValid := byteRuntime.checkpointValid
  ctxSize := byteRuntime.ctxSize
  payloadBytes := byteRuntime.payloadBytes
  savePayload := byteRuntime.savePayload
  loadPayload := byteRuntime.loadPayload
  invalidate := byteRuntime.invalidate
  tokens_loadPayload := byteRuntime.tokens_loadPayload
  toolMapCount := countDsmlInText
  toolMapWrite := kvToolMapWrite
  toolMapLoad memory _ := memory

theorem mappingRuntime_usesToolMaps : mappingRuntime.UsesToolMaps where
  count := rfl
  write := rfl
  payload := by
    intro session payload saved
    rw [show mappingRuntime.savePayload session =
      if session.length < 2 ^ 64 then some session else none from rfl,
      Option.ite_none_right_eq_some] at saved
    obtain ⟨small, same⟩ := saved
    cases same
    exact (UInt64.toNat_ofNat_of_lt' small).symm

def emptyBlock : Bytes := utf8 "<tool_calls></tool_calls>"

/-- A server that remembers a block, which is the text of its session. -/
def blockServer : Server Bytes Replay where
  session := emptyBlock
  memory := ⟨(ToolMemory.empty 4).put (utf8 "call_1") emptyBlock, false⟩
  quantBits := 2
  kv := emptyServer.kv
  directory := []

theorem reached_blockServer : blockServer.memory.memory.Reached 4 := by
  refine ⟨[.put (utf8 "call_1") emptyBlock], ?_, rfl⟩
  intro step mem
  rw [mem_singleton.mp mem]
  exact ⟨by decide, by decide, by decide⟩

/-- A touch and a new map. -/
def twoUpdates : List FileUpdate :=
  [.touch 3 7, .rewriteToolMap blockServer.memory emptyBlock 8]

def storedBlock : Bool × Server Bytes Replay :=
  mappingRuntime.kvCacheStoreLivePrefix reliableIo blockServer
    (mappingRuntime.tokens emptyBlock) 25 .cold

theorem updates_preserve_file_block :
    ∃ payload entry, mappingRuntime.savePayload blockServer.session = some payload ∧
      kvReadEntryFile [] [] (twoUpdates.foldl FileUpdate.apply
        (mappingRuntime.newFile reliableIo blockServer .cold
          ((mappingRuntime.tokens emptyBlock).take 25) emptyBlock emptyBlock)) = some entry ∧
      entry.header.hits = 3 := by
  have kept := updates_preserve_file mappingRuntime mappingRuntime_usesToolMaps
    reliableIo blockServer storedBlock.2 (mappingRuntime.tokens emptyBlock) 25 .cold
    (mappingRuntime.newFile reliableIo blockServer .cold
      ((mappingRuntime.tokens emptyBlock).take 25) emptyBlock emptyBlock) 4 twoUpdates
    (by decide) reached_blockServer
    (by
      intro replay text now mem
      simp only [twoUpdates, mem_cons, reduceCtorEq, not_mem_nil, or_false, false_or] at mem
      cases mem
      exact reached_blockServer)
    (by decide) (by decide) (by decide +kernel)
    (Prod.ext (by decide +kernel) rfl) (by decide +kernel) (by decide +kernel) [] []
  obtain ⟨payload, entry, saved, read, header, -⟩ := kept
  exact ⟨payload, entry, saved, read, by rw [header]; rfl⟩

end Example

end KvCache

end LnaLang
