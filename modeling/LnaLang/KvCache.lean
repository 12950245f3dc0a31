import LnaLang.CString
import LnaLang.FixedBuffer
import Mathlib.Algebra.Order.Field.Rat

/-!
# The disk KV cache

A cache file is a fixed header of 48 bytes, the length of the rendered text, the
text, the session payload, and an optional tool map.  Touching a file rewrites
its header in place, and rewriting the tool map cuts the file behind the payload.
Writes to an existing file may stop after any number of bytes.

The server keeps one live session and a directory of cache files.  This file models storing
the live checkpoint, evicting files, looking up and loading the longest stored text that is a
prefix of a prompt, and how `generate_job` picks the token vector for the session.
-/

namespace LnaLang.KvCache

open List

def lePut32 (value : UInt32) : Bytes :=
  LittleEndian.encode 4 value.toNat

def lePut64 (value : UInt64) : Bytes :=
  LittleEndian.encode 8 value.toNat

def leGet32 (bytes : Bytes) : UInt32 :=
  UInt32.ofNat (LittleEndian.decode bytes)

def leGet64 (bytes : Bytes) : UInt64 :=
  UInt64.ofNat (LittleEndian.decode bytes)

theorem leGet32_lePut32 (v : UInt32) : leGet32 (lePut32 v) = v := by
  have fits : v.toNat < 256 ^ 4 := v.toNat_lt
  rw [leGet32, lePut32, LittleEndian.decode_encode fits, UInt32.ofNat_toNat]

theorem leGet64_lePut64 (v : UInt64) : leGet64 (lePut64 v) = v := by
  have fits : v.toNat < 256 ^ 8 := v.toNat_lt
  rw [leGet64, lePut64, LittleEndian.decode_encode fits, UInt64.ofNat_toNat]

@[simp]
theorem length_lePut32 (v : UInt32) : (lePut32 v).length = 4 := LittleEndian.length_encode 4 _

@[simp]
theorem length_lePut64 (v : UInt64) : (lePut64 v).length = 8 := LittleEndian.length_encode 8 _

/-- `KV_CACHE_FIXED_HEADER`. -/
def fixedHeader : Nat := 48

def extToolMap : UInt8 := 1

/-- Why a checkpoint was stored. -/
inductive Reason where
  | unknown
  | cold
  | continued
  | evict
  | shutdown
  deriving DecidableEq, Repr

/-- `kv_reason_code`. -/
def Reason.code : Reason → UInt8
  | unknown => 0
  | cold => 1
  | continued => 2
  | evict => 3
  | shutdown => 4

/-- The header fields of a `kv_entry`. -/
structure Header where
  quantBits : UInt8
  reason : UInt8
  extFlags : UInt8
  tokens : UInt32
  hits : UInt32
  ctxSize : UInt32
  createdAt : UInt64
  lastUsed : UInt64
  payloadBytes : UInt64
  deriving DecidableEq, Repr

/-- `kv_fill_header`. -/
def kvFillHeader (header : Header) : Bytes :=
  [75, 86, 67, 1, header.quantBits, header.reason, header.extFlags, 0] ++
    lePut32 header.tokens ++ lePut32 header.hits ++ lePut32 header.ctxSize ++
    [0, 0, 0, 0] ++ lePut64 header.createdAt ++ lePut64 header.lastUsed ++
    lePut64 header.payloadBytes

/-- The bytes of a file from an offset on. -/
def field (file : Bytes) (offset count : Nat) : Bytes :=
  (file.drop offset).take count

/-- `kv_read_header`: the header fields and the length of the text. -/
def kvReadHeader (file : Bytes) : Option (Header × UInt32) :=
  if file.length < fixedHeader then none
  else if file.take 4 ≠ [75, 86, 67, 1] then none
  else
    let reason := file.getD 5 0
    let header : Header :=
      { quantBits := file.getD 4 0
        reason := if reason ≤ Reason.shutdown.code then reason
          else Reason.unknown.code
        extFlags := file.getD 6 0
        tokens := leGet32 (field file 8 4)
        hits := leGet32 (field file 12 4)
        ctxSize := leGet32 (field file 16 4)
        createdAt := leGet64 (field file 24 8)
        lastUsed := leGet64 (field file 32 8)
        payloadBytes := leGet64 (field file 40 8) }
    if file.length < fixedHeader + 4 then none
    else if header.tokens ≠ 0 ∧ (header.quantBits = 2 ∨ header.quantBits = 4) then
      some (header, leGet32 (field file fixedHeader 4))
    else none

def storedText (file : Bytes) (textBytes : UInt32) : Bytes :=
  field file (fixedHeader + 4) textBytes.toNat

def payloadStart (textBytes : UInt32) : Nat :=
  fixedHeader + 4 + textBytes.toNat

/-- The bytes that `ds4_session_load_payload` may read. -/
def storedPayload (file : Bytes) (header : Header) (textBytes : UInt32) : Bytes :=
  field file (payloadStart textBytes) header.payloadBytes.toNat

/-- A `kv_entry` read from a file. -/
structure Entry where
  sha : Bytes
  name : Bytes
  header : Header
  textBytes : UInt32
  fileSize : Nat
  deriving DecidableEq, Repr

/-- `kv_read_entry_file` of a readable file. -/
def kvReadEntryFile (name sha file : Bytes) : Option Entry :=
  if file.length < fixedHeader + 4 then none
  else
    match kvReadHeader file with
    | none => none
    | some (header, textBytes) =>
      let expected := payloadStart textBytes + header.payloadBytes.toNat
      if 2 ^ 64 ≤ expected ∨ file.length < expected then none
      else some { sha, name, header, textBytes, fileSize := file.length }

/-- Write bytes at the start of an existing file. -/
def overwrite (file data : Bytes) : Bytes :=
  data ++ file.drop data.length

/-- `kv_cache_touch_file`, of whose header write only some bytes may arrive. -/
def kvCacheTouchFile (hits : UInt32) (now : UInt64) (written : Nat) (file : Bytes) : Bytes :=
  match kvReadHeader file with
  | none => file
  | some (header, _) =>
    overwrite file
      ((kvFillHeader { header with hits := hits, lastUsed := now }).take written)

/-- How far the writes of a tool map get. -/
structure RewriteIo where
  now : UInt64
  truncates : Bool
  mapWritten : Nat
  headerWritten : Nat

/-- `kv_cache_rewrite_tool_map` once the file is open, for the tool map that
`kv_tool_map_write` writes. -/
def kvCacheRewriteToolMap (io : RewriteIo) (toolMap file : Bytes) : Bytes :=
  match kvReadHeader file with
  | none => file
  | some (header, textBytes) =>
    let stop :=
      (payloadStart textBytes + header.payloadBytes.toNat) % 2 ^ 64
    if stop < 2 ^ 63 ∧ io.truncates then
      let mapped := file.takeD stop 0 ++ toolMap.take io.mapWritten
      if toolMap.length ≤ io.mapWritten ∧ toolMap ≠ [] then
        overwrite mapped ((kvFillHeader
            { header with
              extFlags := header.extFlags ||| extToolMap
              lastUsed := io.now }).take io.headerWritten)
      else mapped
    else file

/-- A file of the cache format: its header announces the payload size, and it is
followed by the text and by the region of the payload and the tool map. -/
def HasLayout (payloadBytes : UInt64) (text region file : Bytes) : Prop :=
  ∃ header : Bytes, header.length = fixedHeader ∧ header.drop 40 = lePut64 payloadBytes ∧
    file = header ++ (lePut32 (UInt32.ofNat text.length) ++ (text ++ region))

section Layout

variable {payloadBytes : UInt64} {text region file : Bytes}

theorem length_kvFillHeader (header : Header) : (kvFillHeader header).length = fixedHeader := by
  simp [kvFillHeader, fixedHeader]

theorem kvFillHeader_drop (header : Header) :
    (kvFillHeader header).drop 40 = lePut64 header.payloadBytes := by
  rw [kvFillHeader]
  refine drop_left' ?_
  simp

variable {textBytes : UInt32} {header : Header} (layout : HasLayout payloadBytes text region file)

include layout

theorem HasLayout.kvReadHeader_eq
    (fits : text.length < 2 ^ 32) (read : kvReadHeader file = some (header, textBytes)) :
    header.payloadBytes = payloadBytes ∧ textBytes.toNat = text.length := by
  obtain ⟨raw, rawLength, announced, rfl⟩ := layout
  rw [fixedHeader] at rawLength
  unfold kvReadHeader at read
  simp only [Option.ite_none_left_eq_some, Option.ite_none_right_eq_some] at read
  obtain ⟨-, -, -, -, equal⟩ := read
  cases equal
  constructor
  · simp only [field]
    rw [drop_append_of_le_length (by omega), announced,
      take_left' (length_lePut64 _), leGet64_lePut64]
  · rw [field, fixedHeader, drop_left' rawLength, take_left' (length_lePut32 _), leGet32_lePut32,
      UInt32.toNat_ofNat_of_lt' fits]

theorem HasLayout.drop_text : file.drop (fixedHeader + 4) = text ++ region := by
  obtain ⟨raw, rawLength, -, rfl⟩ := layout
  rw [← append_assoc]
  refine drop_left' ?_
  rw [length_append, rawLength, length_lePut32]

theorem HasLayout.storedText_eq
    (textLength : textBytes.toNat = text.length) : storedText file textBytes = text := by
  rw [storedText, field, layout.drop_text, textLength, take_left' rfl]

theorem HasLayout.storedPayload_eq
    (announced : header.payloadBytes = payloadBytes) (textLength : textBytes.toNat = text.length) :
    storedPayload file header textBytes = region.take payloadBytes.toNat := by
  rw [storedPayload, field, payloadStart, ← drop_drop, layout.drop_text,
    textLength, drop_left' rfl, announced]

omit layout

theorem drop_overwrite {old new : Bytes} {start : Nat} (same : new.drop start = old.drop start)
    (written : Nat) : (overwrite old (new.take written)).drop start = old.drop start := by
  let n := (new.take written).length
  have taken : new.take written = new.take n := by rw [take_eq_take_min, ← length_take]
  rw [overwrite, drop_append]
  rcases Nat.le_total n start with before | after
  · rw [drop_of_length_le before, nil_append, drop_drop, Nat.add_sub_cancel' before]
  · have rest : old.drop n = (old.drop start).drop (n - start) := by
      rw [drop_drop, Nat.add_sub_cancel' after]
    change List.drop start (new.take written) ++ (old.drop n).drop (start - n) = _
    rw [taken, drop_take, same, Nat.sub_eq_zero_of_le after, drop_zero, rest, take_append_drop]

variable (layout : HasLayout payloadBytes text region file)

include layout

theorem HasLayout.overwrite (announced : header.payloadBytes = payloadBytes) (written : Nat) :
    HasLayout payloadBytes text region (overwrite file ((kvFillHeader header).take written)) := by
  obtain ⟨raw, rawLength, rawDrop, rfl⟩ := layout
  have newLength := length_kvFillHeader header
  have takenLe : ((kvFillHeader header).take written).length ≤ raw.length := by
    rw [length_take]
    omega
  have newDrop : (kvFillHeader header).drop 40 = raw.drop 40 := by
    rw [kvFillHeader_drop, announced, rawDrop]
  refine ⟨KvCache.overwrite raw ((kvFillHeader header).take written), ?_, ?_, ?_⟩
  · rw [KvCache.overwrite, length_append, length_drop]
    omega
  · rw [drop_overwrite newDrop, rawDrop]
  · rw [KvCache.overwrite, KvCache.overwrite, drop_append_of_le_length takenLe]
    simp only [append_assoc]

theorem HasLayout.kvCacheTouchFile
    (fits : text.length < 2 ^ 32) (hits : UInt32) (now : UInt64) (written : Nat) :
    HasLayout payloadBytes text region (kvCacheTouchFile hits now written file) := by
  unfold KvCache.kvCacheTouchFile
  split
  · exact layout
  next header textBytes read =>
    refine HasLayout.overwrite layout ?_ written
    exact (layout.kvReadHeader_eq fits read).1

theorem HasLayout.truncate (complete : payloadBytes.toNat ≤ region.length) (appended : Bytes) :
    HasLayout payloadBytes text (region.take payloadBytes.toNat ++ appended)
      (file.takeD (fixedHeader + 4 + text.length + payloadBytes.toNat) 0 ++ appended) := by
  obtain ⟨raw, rawLength, rawDrop, rfl⟩ := layout
  let head := raw ++ (lePut32 (UInt32.ofNat text.length) ++ text)
  have headLength : head.length = fixedHeader + 4 + text.length := by
    simp only [head, length_append, length_lePut32, rawLength]
    omega
  have fileEq : raw ++ (lePut32 (UInt32.ofNat text.length) ++ (text ++ region)) =
      head ++ region := by
    simp only [head, append_assoc]
  refine ⟨raw, rawLength, rawDrop, ?_⟩
  rw [fileEq, takeD_eq_take _ (by rw [length_append]; omega),
    ← headLength, take_length_add_append]
  simp only [head, append_assoc]

theorem HasLayout.kvCacheRewriteToolMap
    (fits : text.length < 2 ^ 32) (complete : payloadBytes.toNat ≤ region.length)
    (small : fixedHeader + 4 + text.length + payloadBytes.toNat < 2 ^ 64) (io : RewriteIo)
    (toolMap : Bytes) :
    ∃ region', region'.take payloadBytes.toNat = region.take payloadBytes.toNat ∧
      HasLayout payloadBytes text region' (kvCacheRewriteToolMap io toolMap file) := by
  unfold KvCache.kvCacheRewriteToolMap
  split
  · exact ⟨region, rfl, layout⟩
  rename_i header textBytes read
  obtain ⟨announced, textLength⟩ := layout.kvReadHeader_eq fits read
  have stopEq : (payloadStart textBytes + header.payloadBytes.toNat) % 2 ^ 64 =
      fixedHeader + 4 + text.length + payloadBytes.toNat := by
    rw [payloadStart, announced, textLength, Nat.mod_eq_of_lt small]
  simp only [stopEq]
  split
  · have mapped : HasLayout payloadBytes text
        (region.take payloadBytes.toNat ++ toolMap.take io.mapWritten)
        (file.takeD (fixedHeader + 4 + text.length + payloadBytes.toNat) 0 ++
          toolMap.take io.mapWritten) :=
      layout.truncate complete (toolMap.take io.mapWritten)
    have kept : (region.take payloadBytes.toNat ++
          toolMap.take io.mapWritten).take payloadBytes.toNat =
        region.take payloadBytes.toNat :=
      take_left' (by rw [length_take]; omega)
    refine ⟨_, kept, ?_⟩
    split
    · refine HasLayout.overwrite mapped ?_ io.headerWritten
      exact announced
    · exact mapped
  · exact ⟨region, rfl, layout⟩

theorem HasLayout.complete_of_kvReadEntryFile
    (fits : text.length < 2 ^ 32) {name sha : Bytes} {entry : Entry}
    (readable : kvReadEntryFile name sha file = some entry) : payloadBytes.toNat ≤ region.length ∧
      fixedHeader + 4 + text.length + payloadBytes.toNat < 2 ^ 64 := by
  unfold kvReadEntryFile at readable
  split at readable
  · cases readable
  split at readable
  · cases readable
  rename_i header textBytes read
  obtain ⟨announced, textLength⟩ := layout.kvReadHeader_eq fits read
  obtain ⟨raw, rawLength, -, rfl⟩ := layout
  simp only [payloadStart, announced, textLength, length_append,
    length_lePut32, rawLength] at readable
  split at readable
  · cases readable
  · omega

end Layout

/-- What the cache uses of the engine, the session and the tool memory.  Decoding
inverts tokenization, and loading a payload restores the tokens of the session
that saved it. -/
structure Runtime (Session Memory : Type) where
  tokenize : Bytes → List Int
  tokenText : Int → Bytes
  decode_tokenize : ∀ text, NulFree text →
    (tokenize text).flatMap tokenText = text
  sha1BytesHex : Bytes → Bytes
  tokens : Session → List Int
  checkpointValid : Session → Bool
  ctxSize : Session → UInt32
  payloadBytes : Session → UInt64
  savePayload : Session → Option Bytes
  -- The session keeps whatever a failed load has left in it.
  loadPayload : Session → Bytes → Session × Bool
  invalidate : Session → Session
  tokens_loadPayload : ∀ {saved payload}, savePayload saved = some payload →
    ∀ (following : Bytes) (session loaded : Session),
      loadPayload session
        ((payload ++ following).take (payloadBytes saved).toNat) =
          (loaded, true) →
      tokens loaded = tokens saved
  toolMapCount : Memory → Bytes → Nat
  toolMapWrite : Memory → Bytes → Bytes
  toolMapLoad : Memory → Bytes → Memory

abbrev Directory := List (Bytes × Bytes)

namespace Directory

def get? (directory : Directory) (name : Bytes) : Option Bytes :=
  directory.lookup name

def unlink (directory : Directory) (name : Bytes) : Directory :=
  directory.filter (·.1 ≠ name)

/-- `rename` of a finished temporary file. -/
def rename (directory : Directory) (name file : Bytes) : Directory :=
  (name, file) :: directory.unlink name

/-- Change a file in place. -/
def update (name : Bytes) (change : Bytes → Bytes) : Directory → Directory
  | [] => []
  | (other, file) :: rest =>
    if name == other then (other, change file) :: rest
    else (other, file) :: update name change rest

end Directory

/-- `kv_cache_options`. -/
structure Options where
  minTokens : Int
  coldMaxTokens : Int
  continuedIntervalTokens : Int
  boundaryTrimTokens : Int
  boundaryAlignTokens : Int

/-- `kv_disk_cache`; its entries are read again before every use. -/
structure DiskCache where
  enabled : Bool
  budgetBytes : Nat
  rejectDifferentQuant : Bool
  opt : Options
  continuedLastStoreTokens : Int

structure Server (Session Memory : Type) where
  session : Session
  memory : Memory
  quantBits : Int
  kv : DiskCache
  directory : Directory

/-- What the file system and the clock do during one operation. -/
structure Io where
  now : UInt64
  reads : Bytes → Bool
  updates : Bytes → Bool
  unlinks : Bytes → Bool
  stores : Bool
  touchWritten : Nat
  rewrite : RewriteIo

def isXDigit (byte : UInt8) : Bool :=
  (48 ≤ byte && byte ≤ 57) || (65 ≤ byte && byte ≤ 70) || (97 ≤ byte && byte ≤ 102)

def toLower (byte : UInt8) : UInt8 :=
  if 65 ≤ byte ∧ byte ≤ 90 then byte + 32 else byte

/-- `sha_hex_name`. -/
def shaHexName (name : Bytes) : Option Bytes :=
  if name.length ≠ 43 ∨ name.drop 40 ≠ utf8 ".kv" then none
  else if (name.take 40).all isXDigit then some ((name.take 40).map toLower)
  else none

/-- `kv_path_for_sha`, within the cache directory. -/
def kvPathForSha (sha : Bytes) : Bytes :=
  sha ++ utf8 ".kv"

/-- `kv_cache_refresh`. -/
def kvCacheRefresh (io : Io) (directory : Directory) : List Entry :=
  directory.filterMap fun (name, file) =>
    match shaHexName name with
    | none => none
    | some sha => if io.reads name then kvReadEntryFile name sha file else none

/-- `kv_entry_eviction_score`, without rounding. -/
def kvEntryEvictionScore (entry : Entry) : ℚ :=
  if entry.fileSize = 0 then 0
  else (entry.header.hits.toNat + 1) * entry.header.tokens.toNat / entry.fileSize

/-- The comparison of the victim search. -/
def evictsBefore (entry victim : Entry) : Bool :=
  kvEntryEvictionScore entry < kvEntryEvictionScore victim ||
    (kvEntryEvictionScore entry == kvEntryEvictionScore victim &&
      entry.header.lastUsed < victim.header.lastUsed)

/-- The victim search: the last entry that beat the ones before it. -/
def findVictim (victim : Entry) : List Entry → Entry
  | [] => victim
  | entry :: entries => findVictim (if evictsBefore entry victim then entry else victim) entries

/-- The loop of `kv_cache_evict`; a file that cannot be removed ends it. -/
def evictLoop (io : Io) (budget : Nat) :
    Nat → List Entry → Nat → Directory → Directory
  | 0, _, _, directory => directory
  | _ + 1, [], _, directory => directory
  | fuel + 1, first :: entries, total, directory =>
    if budget < total then
      let victim := findVictim first entries
      let rest := (first :: entries).erase victim
      if io.unlinks victim.name then
        evictLoop io budget fuel rest (total - victim.fileSize) (directory.unlink victim.name)
      else evictLoop io budget fuel rest 0 directory
    else directory

/-- `kv_cache_evict`. -/
def kvCacheEvict (io : Io) (kv : DiskCache) (directory : Directory) : Directory :=
  if !kv.enabled || kv.budgetBytes == 0 then directory
  else
    let entries := kvCacheRefresh io directory
    evictLoop io kv.budgetBytes entries.length entries (entries.map Entry.fileSize).sum directory

variable {Session Memory : Type} (rt : Runtime Session Memory)

namespace Runtime

/-- `render_tokens_text`. -/
def renderTokensText (tokens : List Int) : Bytes :=
  tokens.flatMap rt.tokenText

/-- `build_prompt_from_exact_prefix_and_text_suffix`. -/
def buildPrompt (exactPrefix : List Int) (suffixText : Bytes) : List Int :=
  exactPrefix ++ rt.tokenize suffixText

/-- `kv_cache_file_text_matches` of a readable file. -/
def kvCacheFileTextMatches (file sha text : Bytes) : Bool :=
  match kvReadHeader file with
  | none => false
  | some (_, textBytes) =>
    let stored := storedText file textBytes
    textBytes.toNat == text.length && stored.length == textBytes.toNat &&
      rt.sha1BytesHex stored == sha && stored == text

/-- `kv_cache_existing_compatible`: an incompatible file is removed. -/
def kvCacheExistingCompatible (io : Io) (server : Server Session Memory)
    (name sha text : Bytes) : Bool × Directory :=
  match server.directory.get? name with
  | none => (false, server.directory)
  | some file =>
    match if io.reads name then kvReadEntryFile name sha file else none with
    | none => (false, server.directory)
    | some entry =>
      if (!server.kv.rejectDifferentQuant ||
            entry.header.quantBits == UInt8.ofNat server.quantBits.toNat) &&
          entry.header.ctxSize ≤ rt.ctxSize server.session &&
          rt.kvCacheFileTextMatches file sha text then
        (true, server.directory)
      else if io.unlinks name then
        (false, server.directory.unlink name)
      else (false, server.directory)

/-- `kv_cache_rewrite_tool_map` of one of the files. -/
def rewriteToolMap (io : Io) (server : Server Session Memory) (name text : Bytes) : Directory :=
  if rt.toolMapCount server.memory (cString text) = 0 ∨ !io.updates name then
    server.directory
  else
    server.directory.update name (kvCacheRewriteToolMap io.rewrite
        (rt.toolMapWrite server.memory (cString text)))

def newHeader (io : Io) (server : Server Session Memory) (reason : Reason)
    (tokens : List Int) (text : Bytes) : Header where
  quantBits := UInt8.ofNat server.quantBits.toNat
  reason := reason.code
  extFlags :=
    if 0 < rt.toolMapCount server.memory (cString text) then extToolMap else 0
  tokens := UInt32.ofNat tokens.length
  hits := 0
  ctxSize := rt.ctxSize server.session
  createdAt := io.now
  lastUsed := io.now
  payloadBytes := rt.payloadBytes server.session

def newFile (io : Io) (server : Server Session Memory) (reason : Reason)
    (tokens : List Int) (text payload : Bytes) : Bytes :=
  kvFillHeader (rt.newHeader io server reason tokens text) ++ (lePut32 (UInt32.ofNat text.length) ++
      (text ++ (payload ++ rt.toolMapWrite server.memory (cString text))))

/-- The end of `kv_cache_store_live_prefix`: find or write the file of a text.
A file is written under a temporary name and renamed once it is complete, so a
failed store leaves no cache file. -/
def storeText (io : Io) (server : Server Session Memory) (reason : Reason)
    (storeTokens : List Int) (text : Bytes) : Bool × Server Session Memory :=
  let sha := rt.sha1BytesHex text
  let name := kvPathForSha sha
  match rt.kvCacheExistingCompatible io server name sha text with
  | (true, directory) =>
    let server := { server with directory := directory }
    (true, { server with directory := rt.rewriteToolMap io server name text })
  | (false, directory) =>
    let server := { server with directory := directory }
    match if io.stores then rt.savePayload server.session else none with
    | none => (false, server)
    | some payload =>
      let file := rt.newFile io server reason storeTokens text payload
      (true, { server with
        directory :=
          kvCacheEvict io server.kv (server.directory.rename name file) })

/-- `kv_cache_store_live_prefix`. -/
def kvCacheStoreLivePrefix (io : Io) (server : Server Session Memory)
    (tokens : List Int) (storeLen : Int) (reason : Reason) :
    Bool × Server Session Memory :=
  let storeTokens := tokens.take storeLen.toNat
  let liveTokens := rt.tokens server.session
  let text := rt.renderTokensText storeTokens
  if !server.kv.enabled then (false, server)
  else if storeLen < server.kv.opt.minTokens then (false, server)
  else if server.quantBits ≠ 2 ∧ server.quantBits ≠ 4 then (false, server)
  else if liveTokens.length ≠ storeTokens.length ∨
      !storeTokens.isPrefixOf liveTokens then (false, server)
  else if rt.payloadBytes server.session = 0 then (false, server)
  else if 2 ^ 32 ≤ text.length then (false, server)
  else rt.storeText io server reason storeTokens text

/-- `kv_cache_store_current`. -/
def kvCacheStoreCurrent (io : Io) (server : Server Session Memory)
    (reason : Reason) : Server Session Memory :=
  (rt.kvCacheStoreLivePrefix io server (rt.tokens server.session)
    (rt.tokens server.session).length reason).2

/-- The filter and the order of `kv_cache_find_text_prefix`. -/
def eligible (server : Server Session Memory) (promptText : Bytes)
    (best : Option Entry) (entry : Entry) : Bool :=
  entry.textBytes.toNat ≤ promptText.length &&
    server.kv.opt.minTokens ≤ entry.header.tokens.toInt32.toInt &&
    entry.header.ctxSize ≤ rt.ctxSize server.session &&
    (!server.kv.rejectDifferentQuant ||
      entry.header.quantBits == UInt8.ofNat server.quantBits.toNat) &&
    (match best with
    | none => true
    | some best =>
      best.textBytes < entry.textBytes || (best.textBytes == entry.textBytes &&
          best.header.tokens < entry.header.tokens)) &&
    rt.sha1BytesHex (promptText.take entry.textBytes.toNat) == entry.sha

/-- `kv_cache_find_text_prefix`. -/
def kvCacheFindTextPrefix (io : Io) (server : Server Session Memory)
    (promptText : Bytes) : Option Entry :=
  (kvCacheRefresh io server.directory).foldl (fun best entry =>
      if rt.eligible server promptText best entry then some entry else best)
    none

/-- The checks of `kv_cache_try_load_text` before the payload is read. -/
def kvCacheOpenText (io : Io) (server : Server Session Memory)
    (promptText : Bytes) (entry : Entry) : Option (Bytes × Header × UInt32) :=
  match if io.reads entry.name then server.directory.get? entry.name
      else none with
  | none => none
  | some file =>
    match kvReadHeader file with
    | none => none
    | some (header, textBytes) =>
      let cachedText := storedText file textBytes
      if promptText.length < textBytes.toNat ∨ cachedText.length ≠ textBytes.toNat ∨
          rt.sha1BytesHex cachedText ≠ entry.sha ∨
          !cachedText.isPrefixOf promptText then none
      else some (file, header, textBytes)

/-- The file after a hit: long checkpoints are consumed, others are touched. -/
def useFile (io : Io) (server : Server Session Memory) (name : Bytes)
    (header : Header) (loaded : Nat) : Directory :=
  if 0 < server.kv.opt.coldMaxTokens ∧ server.kv.opt.coldMaxTokens < loaded then
    if io.unlinks name then server.directory.unlink name else server.directory
  else if io.updates name then
    server.directory.update name (kvCacheTouchFile (header.hits + 1) io.now io.touchWritten)
  else server.directory

/-- `kv_cache_try_load_text`: the number of loaded tokens, the effective prompt,
and the server. -/
def kvCacheTryLoadText (io : Io) (server : Server Session Memory)
    (promptText : Bytes) : Nat × List Int × Server Session Memory :=
  if !server.kv.enabled then (0, [], server)
  else if server.quantBits ≠ 2 ∧ server.quantBits ≠ 4 then (0, [], server)
  else
    match rt.kvCacheFindTextPrefix io server promptText with
    | none => (0, [], server)
    | some entry =>
      match rt.kvCacheOpenText io server promptText entry with
      | none => (0, [], server)
      | some (file, header, textBytes) =>
        match rt.loadPayload server.session (storedPayload file header textBytes) with
        | (session, false) => (0, [], { server with session := rt.invalidate session })
        | (session, true) =>
          let tokens := rt.tokens session
          if (tokens.length : Int) ≠ header.tokens.toInt32.toInt then
            (0, [], { server with
              session := rt.invalidate session
              directory :=
                if io.unlinks entry.name then
                  server.directory.unlink entry.name
                else server.directory })
          else
            let memory :=
              if header.extFlags &&& extToolMap ≠ 0 then
                rt.toolMapLoad server.memory (file.drop (payloadStart textBytes +
                    header.payloadBytes.toNat))
              else server.memory
            (tokens.length, rt.buildPrompt tokens (promptText.drop textBytes.toNat),
              { server with
                session := session
                memory := memory
                kv := { server.kv with
                  continuedLastStoreTokens := tokens.length }
                directory :=
                  useFile io server entry.name header tokens.length })

/-- A request: its prompt is the tokenization of its rendered text. -/
structure Request where
  promptText : Bytes
  prompt : List Int
  nulFree : NulFree promptText
  prompt_eq : prompt = rt.tokenize promptText

/-- The loop of `ds4_session_common_prefix`. -/
def commonLength : List Int → List Int → Nat
  | live :: lives, token :: tokens =>
    if live = token then commonLength lives tokens + 1 else 0
  | _, _ => 0

/-- `ds4_session_common_prefix`. -/
def commonPrefix (session : Session) (prompt : List Int) : Nat :=
  if rt.checkpointValid session then commonLength (rt.tokens session) prompt
  else 0

/-- The number of prompt tokens already in the session: all of its checkpoint or
nothing. -/
def memoryTokenCached (session : Session) (prompt : List Int) : Nat :=
  let oldPos := (rt.tokens session).length
  let common := rt.commonPrefix session prompt
  if common = oldPos ∧ oldPos ≤ prompt.length then common else 0

/-- `live_text_prefix_prompt`. -/
def liveTextPrefixPrompt (session : Session) (promptText : Bytes) : Option (Nat × List Int) :=
  let liveTokens := rt.tokens session
  let liveText := rt.renderTokensText liveTokens
  if liveTokens.length = 0 ∨ !liveText.isPrefixOf promptText then none
  else
    some (liveTokens.length, rt.buildPrompt liveTokens (promptText.drop liveText.length))

/-- Where the reused tokens come from. -/
inductive CacheSource where
  | memoryToken
  | memoryText
  | diskText
  | none
  deriving DecidableEq, Repr

/-- What `generate_job` hands to `ds4_session_sync`. -/
structure Selection (Session Memory : Type) where
  promptForSync : List Int
  cached : Nat
  source : CacheSource
  server : Server Session Memory

/-- Loading a checkpoint replaces the live session, so that is stored first. -/
def storeBeforeLoad (io : Io) (server : Server Session Memory) : Server Session Memory :=
  let server :=
    { server with kv := { server.kv with continuedLastStoreTokens := 0 } }
  if server.kv.enabled ∧ server.kv.opt.minTokens ≤ ((rt.tokens server.session).length : Int) then
    rt.kvCacheStoreCurrent io server .evict
  else server

/-- The disk part of the choice, for when nothing in memory can be reused. -/
def selectFromDisk (storeIo loadIo : Io) (server : Server Session Memory)
    (request : rt.Request) : Selection Session Memory :=
  let (diskCached, effectivePrompt, server) :=
    rt.kvCacheTryLoadText loadIo (rt.storeBeforeLoad storeIo server) request.promptText
  if 0 < diskCached then
    { promptForSync := effectivePrompt, cached := diskCached
      source := .diskText, server := server }
  else
    { promptForSync := request.prompt, cached := 0
      source := .none, server := server }

/-- The first part of `generate_job`. -/
def selectPrompt (storeIo loadIo : Io) (server : Server Session Memory)
    (request : rt.Request) : Selection Session Memory :=
  let cached := rt.memoryTokenCached server.session request.prompt
  if 0 < cached then
    { promptForSync := request.prompt, cached := cached
      source := .memoryToken, server := server }
  else
    match rt.liveTextPrefixPrompt server.session request.promptText with
    | some (textCached, effectivePrompt) =>
      { promptForSync := effectivePrompt, cached := textCached
        source := .memoryText, server := server }
    | none => rt.selectFromDisk storeIo loadIo server request

end Runtime

end LnaLang.KvCache
