import LnaLang.KvCache

/-!
# Reusing a checkpoint never changes the transcript

Every cache file holds the decoded text of the tokens in its payload.  Stores,
loads, evictions and touches keep this invariant, so whichever way `generate_job`
reuses a checkpoint, the token vector it synchronises the session with decodes to
the text of the request and starts with the checkpoint.
-/

namespace LnaLang.KvCache

namespace Directory

variable {directory : Directory} {name file : Bytes}

theorem mem_of_get? (found : directory.get? name = some file) : (name, file) ∈ directory := by
  induction directory with
  | nil => cases found
  | cons head rest ih =>
    obtain ⟨other, contents⟩ := head
    rw [get?, List.lookup_cons] at found
    split at found
    next same =>
      rw [beq_iff_eq] at same
      cases found
      rw [same]
      exact List.mem_cons_self
    · exact List.mem_cons_of_mem _ (ih found)

theorem mem_unlink {other : Bytes} (mem : (other, file) ∈ directory.unlink name) :
    (other, file) ∈ directory :=
  List.mem_of_mem_filter mem

theorem mem_update {other : Bytes} {change : Bytes → Bytes}
    (mem : (other, file) ∈ directory.update name change) :
    (other, file) ∈ directory ∨ ∃ old, directory.get? name = some old ∧ other = name ∧
        file = change old := by
  induction directory with
  | nil => cases mem
  | cons head rest ih =>
    obtain ⟨present, contents⟩ := head
    rw [update] at mem
    rw [get?, List.lookup_cons]
    by_cases same : (name == present) = true
    · simp only [same, ↓reduceIte, List.mem_cons, Prod.mk.injEq] at mem
      rcases mem with ⟨rfl, rfl⟩ | mem
      · right
        simp only [same]
        exact ⟨contents, rfl, (beq_iff_eq.mp same).symm, rfl⟩
      · exact .inl (List.mem_cons_of_mem _ mem)
    · simp only [same, Bool.false_eq_true, ↓reduceIte, List.mem_cons]
        at mem ⊢
      rcases mem with here | mem
      · exact .inl (.inl here)
      · rcases ih mem with kept | changed
        · exact .inl (.inr kept)
        · right
          simpa [same, get?] using changed

end Directory

theorem mem_evictLoop {io : Io} {budget fuel total : Nat} {entries : List Entry}
    {directory : Directory} {file : Bytes × Bytes}
    (mem : file ∈ evictLoop io budget fuel entries total directory) : file ∈ directory := by
  fun_induction evictLoop io budget fuel entries total directory with
  | case1 => exact mem
  | case2 => exact mem
  | case3 _ _ _ _ _ _ _ _ _ ih => exact Directory.mem_unlink (ih mem)
  | case4 _ _ _ _ _ _ _ _ _ ih => exact ih mem
  | case5 => exact mem

theorem mem_kvCacheEvict {io : Io} {kv : DiskCache} {directory : Directory} {file : Bytes × Bytes}
    (mem : file ∈ kvCacheEvict io kv directory) : file ∈ directory := by
  unfold kvCacheEvict at mem
  split at mem
  · exact mem
  · exact mem_evictLoop mem

variable {Session Memory : Type} (rt : Runtime Session Memory)

namespace Runtime

/-- The file was written for a session: it holds the session's decoded text, and
its payload region starts with what the session saved. -/
structure StoredBy (session : Session) (file : Bytes) : Prop where
  textFits : (rt.renderTokensText (rt.tokens session)).length < 2 ^ 32
  layout : ∃ payload following region,
    rt.savePayload session = some payload ∧
      region.take (rt.payloadBytes session).toNat =
        (payload ++ following).take (rt.payloadBytes session).toNat ∧
      HasLayout (rt.payloadBytes session)
        (rt.renderTokensText (rt.tokens session)) region file

def CacheFiles (directory : Directory) : Prop :=
  ∀ name file, (name, file) ∈ directory → (shaHexName name).isSome →
    ∃ session, rt.StoredBy session file

variable {rt} {directory : Directory} (files : rt.CacheFiles directory)

include files

theorem CacheFiles.of_mem {directory' : Directory}
    (kept : ∀ file ∈ directory', file ∈ directory) : rt.CacheFiles directory' :=
  fun name file mem => files name file (kept _ mem)

theorem CacheFiles.unlink (name : Bytes) : rt.CacheFiles (directory.unlink name) :=
  files.of_mem fun _ => Directory.mem_unlink

theorem CacheFiles.unlink_if (removed : Bool) (name : Bytes) :
    rt.CacheFiles (if removed then directory.unlink name else directory) := by
  split
  · exact files.unlink name
  · exact files

variable {session : Session} {file : Bytes}

theorem CacheFiles.rename (stored : rt.StoredBy session file)
    (name : Bytes) : rt.CacheFiles (directory.rename name file) := by
  intro other contents mem isFile
  rcases List.mem_cons.mp mem with here | mem
  · cases here
    exact ⟨session, stored⟩
  · exact files.unlink name other contents mem isFile

theorem CacheFiles.update {name : Bytes} {change : Bytes → Bytes}
    (keeps : ∀ session file, directory.get? name = some file →
      rt.StoredBy session file → rt.StoredBy session (change file)) :
    rt.CacheFiles (directory.update name change) := by
  intro other contents mem isFile
  rcases Directory.mem_update mem with kept | ⟨old, found, rfl, rfl⟩
  · exact files other contents kept isFile
  · obtain ⟨session, stored⟩ := files other old (Directory.mem_of_get? found) isFile
    exact ⟨session, keeps session old found stored⟩

omit files

theorem StoredBy.kvCacheTouchFile (stored : rt.StoredBy session file) (hits : UInt32) (now : UInt64)
    (written : Nat) : rt.StoredBy session (kvCacheTouchFile hits now written file) := by
  obtain ⟨textFits, payload, following, region, saved, sameStart, layout⟩ := stored
  exact ⟨textFits, payload, following, region, saved, sameStart,
    layout.kvCacheTouchFile textFits hits now written⟩

theorem CacheFiles.touch (files : rt.CacheFiles directory) (name : Bytes) (hits : UInt32)
    (now : UInt64) (written : Nat) :
    rt.CacheFiles (directory.update name (KvCache.kvCacheTouchFile hits now written)) :=
  files.update fun _ _ _ stored => stored.kvCacheTouchFile hits now written

theorem StoredBy.kvCacheRewriteToolMap {name sha : Bytes} {entry : Entry}
    (stored : rt.StoredBy session file) (readable : kvReadEntryFile name sha file = some entry)
    (io : RewriteIo) (toolMap : Bytes) :
    rt.StoredBy session (kvCacheRewriteToolMap io toolMap file) := by
  obtain ⟨textFits, payload, following, region, saved, sameStart, layout⟩ := stored
  obtain ⟨complete, small⟩ := layout.complete_of_kvReadEntryFile textFits readable
  obtain ⟨region', sameRegion, layout'⟩ :=
    layout.kvCacheRewriteToolMap textFits complete small io toolMap
  exact ⟨textFits, payload, following, region', saved, sameRegion.trans sameStart, layout'⟩

section Steps

variable {server : Server Session Memory}

/-- What the compatibility check leaves: either the named file is a readable
entry and nothing changed, or at most the named file was removed. -/
theorem kvCacheExistingCompatible_cases (io : Io)
    (server : Server Session Memory) (name sha text : Bytes) :
    (∃ file entry, server.directory.get? name = some file ∧
        kvReadEntryFile name sha file = some entry ∧
        rt.kvCacheExistingCompatible io server name sha text = (true, server.directory)) ∨
      ∃ removed : Bool, rt.kvCacheExistingCompatible io server name sha text =
          (false, if removed then server.directory.unlink name
            else server.directory) := by
  unfold kvCacheExistingCompatible
  cases found : server.directory.get? name with
  | none => exact .inr ⟨false, rfl⟩
  | some file =>
    simp only
    cases readable : if io.reads name then kvReadEntryFile name sha file
        else none with
    | none => exact .inr ⟨false, rfl⟩
    | some entry =>
      rw [Option.ite_none_right_eq_some] at readable
      simp only
      split
      · exact .inl ⟨file, entry, rfl, readable.2, rfl⟩
      · split
        · exact .inr ⟨true, rfl⟩
        · exact .inr ⟨false, rfl⟩

theorem storedBy_newFile (io : Io) (server : Server Session Memory) (reason : Reason)
    {payload : Bytes} (saved : rt.savePayload server.session = some payload)
    (textFits : (rt.renderTokensText (rt.tokens server.session)).length < 2 ^ 32) :
    rt.StoredBy server.session (rt.newFile io server reason (rt.tokens server.session)
        (rt.renderTokensText (rt.tokens server.session)) payload) := by
  let text := rt.renderTokensText (rt.tokens server.session)
  refine ⟨textFits, payload, rt.toolMapWrite server.memory (cString text), _,
    saved, rfl, _, length_kvFillHeader _, kvFillHeader_drop _, rfl⟩

variable {entry : Entry}

theorem CacheFiles.rewriteToolMap (files : rt.CacheFiles server.directory) {name sha file : Bytes}
    (found : server.directory.get? name = some file)
    (readable : kvReadEntryFile name sha file = some entry) (io : Io) (text : Bytes) :
    rt.CacheFiles (rt.rewriteToolMap io server name text) := by
  unfold Runtime.rewriteToolMap
  split
  · exact files
  · refine files.update fun session other foundOther stored => ?_
    obtain rfl : file = other := Option.some.inj (found.symm.trans foundOther)
    exact stored.kvCacheRewriteToolMap readable _ _

theorem CacheFiles.storeText (files : rt.CacheFiles server.directory) (io : Io) (reason : Reason)
    (textFits : (rt.renderTokensText (rt.tokens server.session)).length < 2 ^ 32) :
    rt.CacheFiles (rt.storeText io server reason (rt.tokens server.session)
        (rt.renderTokensText (rt.tokens server.session))).2.directory := by
  unfold Runtime.storeText
  simp only
  rcases kvCacheExistingCompatible_cases io server _ _ _ with
    ⟨file, entry, found, readable, compatible⟩ | ⟨removed, incompatible⟩
  · rw [compatible]
    exact files.rewriteToolMap found readable io _
  · rw [incompatible]
    simp only
    split
    · exact files.unlink_if removed _
    next payload saving =>
      rw [Option.ite_none_right_eq_some] at saving
      refine CacheFiles.of_mem ?_ fun _ => mem_kvCacheEvict
      exact (files.unlink_if removed _).rename
        (storedBy_newFile io { server with directory := _ } reason saving.2 textFits) _

theorem CacheFiles.store (files : rt.CacheFiles server.directory) (io : Io)
    (tokens : List Int) (storeLen : Int) (reason : Reason) :
    rt.CacheFiles (rt.kvCacheStoreLivePrefix io server tokens storeLen reason).2.directory := by
  unfold kvCacheStoreLivePrefix
  simp only
  split
  · exact files
  split
  · exact files
  split
  · exact files
  split
  · exact files
  rename_i live
  split
  · exact files
  split
  · exact files
  rename_i textFits
  have same : tokens.take storeLen.toNat = rt.tokens server.session := by
    simp only [not_or, not_not, Bool.not_eq_true, Bool.not_eq_false',
      List.isPrefixOf_iff_prefix] at live
    exact live.2.eq_of_length live.1.symm
  rw [same] at textFits ⊢
  exact files.storeText io reason (Nat.lt_of_not_le textFits)

theorem isSome_shaHexName_of_mem {io : Io} {directory : Directory}
    (mem : entry ∈ kvCacheRefresh io directory) :
    (shaHexName entry.name).isSome := by
  obtain ⟨⟨name, file⟩, -, readable⟩ := List.mem_filterMap.mp mem
  simp only at readable
  split at readable
  · cases readable
  rename_i sha isFile
  rw [Option.ite_none_right_eq_some] at readable
  obtain ⟨-, readable⟩ := readable
  unfold kvReadEntryFile at readable
  split at readable
  · cases readable
  split at readable
  · cases readable
  simp only [Option.ite_none_left_eq_some, Option.some.injEq] at readable
  obtain ⟨-, rfl⟩ := readable
  rw [isFile]
  rfl

variable {promptText : Bytes}

theorem mem_of_kvCacheFindTextPrefix {io : Io}
    (found : rt.kvCacheFindTextPrefix io server promptText = some entry) :
    entry ∈ kvCacheRefresh io server.directory := by
  unfold kvCacheFindTextPrefix at found
  refine List.foldlRecOn (kvCacheRefresh io server.directory) _
    (motive := fun best => ∀ entry, best = some entry →
      entry ∈ kvCacheRefresh io server.directory) ?_ ?_ entry found
  · intro entry impossible
    cases impossible
  · intro best previous candidate mem entry chosen
    split at chosen
    · cases chosen
      exact mem
    · exact previous entry chosen

theorem kvCacheOpenText_spec {io : Io} {file : Bytes} {header : Header} {textBytes : UInt32}
    (opened : rt.kvCacheOpenText io server promptText entry = some (file, header, textBytes)) :
    server.directory.get? entry.name = some file ∧ kvReadHeader file = some (header, textBytes) ∧
      storedText file textBytes <+: promptText := by
  unfold kvCacheOpenText at opened
  split at opened
  · cases opened
  rename_i contents found
  rw [Option.ite_none_right_eq_some] at found
  split at opened
  · cases opened
  rename_i read
  simp only [Option.ite_none_left_eq_some, Option.some.injEq, Prod.mk.injEq]
    at opened
  obtain ⟨accepted, rfl, rfl, rfl⟩ := opened
  simp only [not_or, Bool.not_eq_true, Bool.not_eq_false', List.isPrefixOf_iff_prefix] at accepted
  exact ⟨found.2, read, accepted.2.2.2⟩

theorem CacheFiles.useFile (files : rt.CacheFiles server.directory) (io : Io)
    (name : Bytes) (header : Header) (loaded : Nat) :
    rt.CacheFiles (Runtime.useFile io server name header loaded) := by
  unfold Runtime.useFile
  split
  · exact files.unlink_if _ name
  split
  · exact files.touch name _ _ _
  · exact files

theorem CacheFiles.load (files : rt.CacheFiles server.directory) (io : Io) (promptText : Bytes) :
    rt.CacheFiles (rt.kvCacheTryLoadText io server promptText).2.2.directory := by
  unfold kvCacheTryLoadText
  split
  · exact files
  split
  · exact files
  split
  · exact files
  split
  · exact files
  split
  · exact files
  simp only
  split
  · exact files.unlink_if _ _
  · exact files.useFile io _ _ _

theorem decode_buildPrompt {tokens : List Int} (nulFree : NulFree promptText)
    (pre : rt.renderTokensText tokens <+: promptText) :
    (rt.buildPrompt tokens (promptText.drop (rt.renderTokensText tokens).length)).flatMap
      rt.tokenText = promptText := by
  obtain ⟨suffix, rfl⟩ := pre
  have suffixNulFree : NulFree suffix := fun mem => nulFree (List.mem_append_right _ mem)
  rw [List.drop_left' rfl, buildPrompt, List.flatMap_append,
    rt.decode_tokenize suffix suffixNulFree]
  rfl

variable {prompt : List Int}

theorem kvCacheTryLoadText_spec (files : rt.CacheFiles server.directory) (io : Io)
    (nulFree : NulFree promptText) {loaded : Nat} {server' : Server Session Memory}
    (result : rt.kvCacheTryLoadText io server promptText = (loaded, prompt, server'))
    (hit : 0 < loaded) :
    prompt.flatMap rt.tokenText = promptText ∧ prompt.take loaded = rt.tokens server'.session := by
  have missed {server'' : Server Session Memory} {P : Prop}
      (miss : ((0, [], server'') : Nat × List Int × Server Session Memory) =
        (loaded, prompt, server')) : P := by
    cases miss
    exact absurd hit (Nat.lt_irrefl 0)
  unfold kvCacheTryLoadText at result
  split at result
  · exact missed result
  split at result
  · exact missed result
  split at result
  · exact missed result
  rename_i entry found
  split at result
  · exact missed result
  rename_i file header textBytes opened
  split at result
  · exact missed result
  rename_i session loading
  simp only at result
  split at result
  · exact missed result
  cases result
  obtain ⟨inDirectory, read, pre⟩ := kvCacheOpenText_spec opened
  have isFile := isSome_shaHexName_of_mem (mem_of_kvCacheFindTextPrefix found)
  obtain ⟨origin, textFits, payload, following, region, saved, sameStart,
    layout⟩ := files _ _ (Directory.mem_of_get? inDirectory) isFile
  obtain ⟨announced, textLength⟩ := layout.kvReadHeader_eq textFits read
  rw [layout.storedText_eq textLength] at pre
  rw [layout.storedPayload_eq announced textLength, sameStart] at loading
  have restored := rt.tokens_loadPayload saved following _ _ loading
  rw [textLength, ← restored]
  rw [← restored] at pre
  exact ⟨decode_buildPrompt nulFree pre, List.take_left' rfl⟩

theorem take_of_commonLength {live : List Int} (whole : commonLength live prompt = live.length) :
    prompt.take live.length = live := by
  fun_induction commonLength live prompt with
  | case1 lives token tokens ih =>
    simp only [List.length_cons, Nat.add_right_cancel_iff] at whole
    rw [List.length_cons, List.take_succ_cons, ih whole]
  | case2 => cases whole
  | case3 live prompt notBoth =>
    obtain rfl : live = [] := List.eq_nil_of_length_eq_zero whole.symm
    rfl

theorem take_memoryTokenCached {session : Session}
    (reused : 0 < rt.memoryTokenCached session prompt) :
    prompt.take (rt.memoryTokenCached session prompt) = rt.tokens session := by
  have whole : rt.commonPrefix session prompt = (rt.tokens session).length ∧
      (rt.tokens session).length ≤ prompt.length := by
    by_contra notWhole
    simp [memoryTokenCached, notWhole] at reused
  rw [memoryTokenCached, if_pos whole] at reused ⊢
  unfold commonPrefix at whole reused ⊢
  split at whole
  next valid =>
    rw [if_pos valid, whole.1, take_of_commonLength whole.1]
  next invalid =>
    simp [invalid] at reused

theorem CacheFiles.storeBeforeLoad (files : rt.CacheFiles server.directory)
    (io : Io) : rt.CacheFiles (rt.storeBeforeLoad io server).directory := by
  unfold Runtime.storeBeforeLoad
  simp only
  split
  · refine CacheFiles.store ?_ io _ _ _
    exact files
  · exact files

theorem selectPrompt_cases (storeIo loadIo : Io)
    (server : Server Session Memory) (req : rt.Request) :
    (0 < rt.memoryTokenCached server.session req.prompt ∧
        rt.selectPrompt storeIo loadIo server req =
          ⟨req.prompt, rt.memoryTokenCached server.session req.prompt, .memoryToken, server⟩) ∨
      (∃ cached prompt, rt.liveTextPrefixPrompt server.session req.promptText =
            some (cached, prompt) ∧
          rt.selectPrompt storeIo loadIo server req = ⟨prompt, cached, .memoryText, server⟩) ∨
      ∃ cached prompt server', rt.kvCacheTryLoadText loadIo (rt.storeBeforeLoad storeIo server)
            req.promptText = (cached, prompt, server') ∧
          ((0 < cached ∧ rt.selectPrompt storeIo loadIo server req =
              ⟨prompt, cached, .diskText, server'⟩) ∨
            rt.selectPrompt storeIo loadIo server req = ⟨req.prompt, 0, .none, server'⟩) := by
  unfold selectPrompt
  simp only
  by_cases reused : 0 < rt.memoryTokenCached server.session req.prompt
  · exact .inl ⟨reused, if_pos reused⟩
  · rw [if_neg reused]
    right
    cases live : rt.liveTextPrefixPrompt server.session req.promptText with
    | some found => exact .inl ⟨found.1, found.2, rfl, rfl⟩
    | none =>
      right
      rcases result : rt.kvCacheTryLoadText loadIo
          (rt.storeBeforeLoad storeIo server) req.promptText with
        ⟨cached, prompt, server'⟩
      refine ⟨cached, prompt, server', rfl, ?_⟩
      simp only [selectFromDisk, result]
      split
      next hit =>
        exact .inl ⟨hit, rfl⟩
      · exact .inr rfl

theorem CacheFiles.selectPrompt (files : rt.CacheFiles server.directory)
    (storeIo loadIo : Io) (req : rt.Request) :
    rt.CacheFiles (rt.selectPrompt storeIo loadIo server req).server.directory := by
  have loaded := (files.storeBeforeLoad storeIo).load loadIo req.promptText
  rcases selectPrompt_cases storeIo loadIo server req with
    ⟨-, selected⟩ | ⟨_, _, -, selected⟩ | ⟨_, _, _, result, selected⟩
  · rw [selected]
    exact files
  · rw [selected]
    exact files
  · rw [result] at loaded
    rcases selected with ⟨-, selected⟩ | selected
    · rw [selected]
      exact loaded
    · rw [selected]
      exact loaded

end Steps

section Runs

variable (rt)

/-- What can happen to the server between two requests, and the requests
themselves.  Inference changes the session and clients change the tool memory in
ways that the cache does not control; a restart may change the options. -/
inductive Event where
  | session (session : Session)
  | memory (memory : Memory)
  | restart (quantBits : Int) (kv : DiskCache)
  | store (io : Io) (tokens : List Int) (storeLen : Int) (reason : Reason)
  | load (io : Io) (promptText : Bytes)
  | evict (io : Io)
  | touch (io : Io) (name : Bytes) (hits : UInt32)
  | request (storeIo loadIo : Io) (request : rt.Request)

def step (server : Server Session Memory) : rt.Event → Server Session Memory
  | .session session => { server with session := session }
  | .memory memory => { server with memory := memory }
  | .restart quantBits kv => { server with quantBits := quantBits, kv := kv }
  | .store io tokens storeLen reason =>
    (rt.kvCacheStoreLivePrefix io server tokens storeLen reason).2
  | .load io promptText => (rt.kvCacheTryLoadText io server promptText).2.2
  | .evict io =>
    { server with directory := kvCacheEvict io server.kv server.directory }
  | .touch io name hits =>
    { server with
      directory := server.directory.update name
        (kvCacheTouchFile hits io.now io.touchWritten) }
  | .request storeIo loadIo request => (rt.selectPrompt storeIo loadIo server request).server

def run (server : Server Session Memory) (history : List rt.Event) : Server Session Memory :=
  history.foldl rt.step server

variable {rt} {server : Server Session Memory}

theorem CacheFiles.step (files : rt.CacheFiles server.directory) (event : rt.Event) :
    rt.CacheFiles (rt.step server event).directory := by
  cases event with
  | session session => exact files
  | memory memory => exact files
  | restart quantBits kv => exact files
  | store io tokens storeLen reason => exact files.store io tokens storeLen reason
  | load io promptText => exact files.load io promptText
  | evict io => exact files.of_mem fun _ => mem_kvCacheEvict
  | touch io name hits => exact files.touch name hits io.now io.touchWritten
  | request storeIo loadIo request => exact files.selectPrompt storeIo loadIo request

theorem CacheFiles.run (files : rt.CacheFiles server.directory) (history : List rt.Event) :
    rt.CacheFiles (rt.run server history).directory := by
  induction history generalizing server with
  | nil => exact files
  | cons event history ih => exact ih (files.step event)

theorem decode_prompt (req : rt.Request) : req.prompt.flatMap rt.tokenText = req.promptText := by
  rw [req.prompt_eq, rt.decode_tokenize _ req.nulFree]

theorem selectPrompt_spec (files : rt.CacheFiles server.directory) (storeIo loadIo : Io)
    (req : rt.Request) : (rt.selectPrompt storeIo loadIo server req).promptForSync.flatMap
        rt.tokenText = req.promptText ∧
      (0 < (rt.selectPrompt storeIo loadIo server req).cached →
        (rt.selectPrompt storeIo loadIo server req).promptForSync.take
            (rt.selectPrompt storeIo loadIo server req).cached =
          rt.tokens (rt.selectPrompt storeIo loadIo server req).server.session) := by
  rcases selectPrompt_cases storeIo loadIo server req with
    ⟨reused, selected⟩ | ⟨_, _, live, selected⟩ | ⟨_, _, _, result, selected⟩
  · rw [selected]
    exact ⟨decode_prompt req, fun _ => take_memoryTokenCached reused⟩
  · rw [selected]
    unfold liveTextPrefixPrompt at live
    simp only [Option.ite_none_left_eq_some, Option.some.injEq, Prod.mk.injEq]
      at live
    obtain ⟨accepted, rfl, rfl⟩ := live
    simp only [not_or, Bool.not_eq_true, Bool.not_eq_false', List.isPrefixOf_iff_prefix] at accepted
    exact ⟨decode_buildPrompt req.nulFree accepted.2, fun _ => List.take_left' rfl⟩
  · rcases selected with ⟨hit, selected⟩ | selected
    · obtain ⟨decoded, checkpoint⟩ := kvCacheTryLoadText_spec
        (files.storeBeforeLoad storeIo) loadIo req.nulFree result hit
      rw [selected]
      exact ⟨decoded, fun _ => checkpoint⟩
    · rw [selected]
      exact ⟨decode_prompt req, fun hit => absurd hit (Nat.lt_irrefl 0)⟩

/-- Reusing a checkpoint never changes the transcript: after any history from a
directory without cache files, the chosen prompt decodes to the text of the
request, and what is reused of it is the session's checkpoint. -/
theorem selectPrompt_transcript (start : Server Session Memory)
    (fresh : ∀ file ∈ start.directory, shaHexName file.1 = none) (history : List rt.Event)
    (storeIo loadIo : Io) (request : rt.Request) :
    let selection := rt.selectPrompt storeIo loadIo (rt.run start history) request
    selection.promptForSync.flatMap rt.tokenText = request.promptText ∧ (0 < selection.cached →
        selection.promptForSync.take selection.cached = rt.tokens selection.server.session) := by
  have files : rt.CacheFiles start.directory := by
    intro name file member isFile
    simp [fresh _ member] at isFile
  exact selectPrompt_spec (files.run history) storeIo loadIo request

end Runs

/-- A runtime whose tokens are bytes and whose payload is the checkpoint. -/
def byteRuntime : Runtime Bytes Unit where
  tokenize text := text.map fun byte => (byte.toNat : Int)
  tokenText token := [UInt8.ofNat token.toNat]
  decode_tokenize text _ := by simp [List.flatMap_map]
  sha1BytesHex _ := List.replicate 40 97
  tokens session := session.map fun byte => (byte.toNat : Int)
  checkpointValid _ := true
  ctxSize _ := 4096
  payloadBytes session := UInt64.ofNat session.length
  savePayload session := if session.length < 2 ^ 64 then some session else none
  loadPayload _ payload := (payload, true)
  invalidate _ := []
  tokens_loadPayload := by
    intro saved payload save following session loaded load
    rw [Option.ite_none_right_eq_some] at save
    obtain ⟨small, same⟩ := save
    cases same
    cases load
    rw [UInt64.toNat_ofNat_of_lt' small, List.take_left' rfl]
  toolMapCount _ _ := 0
  toolMapWrite _ _ := []
  toolMapLoad memory _ := memory

def reliableIo : Io where
  now := 0
  reads _ := true
  updates _ := true
  unlinks _ := true
  stores := true
  touchWritten := fixedHeader
  rewrite := { now := 0, truncates := true, mapWritten := 0, headerWritten := 0 }

def emptyServer : Server Bytes Unit where
  session := []
  memory := ()
  quantBits := 2
  kv :=
    { enabled := true
      budgetBytes := 4096
      rejectDifferentQuant := false
      opt :=
        { minTokens := 2
          coldMaxTokens := 30000
          continuedIntervalTokens := 10000
          boundaryTrimTokens := 32
          boundaryAlignTokens := 2048 }
      continuedLastStoreTokens := 0 }
  directory := []

def storedHistory : List byteRuntime.Event :=
  [.session [1, 2, 3], .store reliableIo [1, 2, 3] 3 .cold, .session [9]]

def laterRequest : byteRuntime.Request where
  promptText := [1, 2, 3, 4]
  prompt := [1, 2, 3, 4]
  nulFree := by decide
  prompt_eq := rfl

theorem selectPrompt_transcript_stored :
    let selection := byteRuntime.selectPrompt reliableIo reliableIo
      (byteRuntime.run emptyServer storedHistory) laterRequest
    selection.source = .diskText ∧ selection.cached = 3 ∧
      selection.promptForSync.flatMap byteRuntime.tokenText = [1, 2, 3, 4] ∧
      (0 < selection.cached → selection.promptForSync.take selection.cached =
          byteRuntime.tokens selection.server.session) :=
  ⟨by decide +kernel, by decide +kernel,
    selectPrompt_transcript emptyServer (by decide) storedHistory reliableIo
      reliableIo laterRequest⟩

end Runtime

end LnaLang.KvCache
