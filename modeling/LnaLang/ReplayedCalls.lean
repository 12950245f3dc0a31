import LnaLang.ChatCheckpoint

/-!
# Replayed blocks and the calls that they stand for

A message of a request gets the text of a block when all of its ids stand for this
text.  The text says what the message says when the ids are those of one generated
message, and all of them: ids that were left out, and ids of two messages with the same
text, are not noticed.
-/

namespace LnaLang.Chat

open List

open Dsml

/-- A server that has remembered the calls of generated messages, listed with the latest
first; the ids may have been drawn while the message was streamed.  In between the
server has completed the messages of requests. -/
inductive Remembers (maxEntries : Nat) : Replay → List ToolCalls → Prop
  | start : Remembers maxEntries ⟨.empty maxEntries, false⟩ []
  | generated {server : Replay} {history : List ToolCalls} {text : Bytes}
      {message : Message} {api : ApiStyle} {draws : List Bytes}
      {prepared calls : List Call} (before : Remembers maxEntries server history)
      (parsed : parseGeneratedMessage text = some message)
      (hasCalls : message.calls ≠ [])
      (prepares : prepared.map (fun call => { call with id := none }) =
        unnamedCalls message)
      (assigned : assignToolCallIds server api draws prepared = some calls) :
      Remembers maxEntries (server.remember ⟨calls, message.rawDsml⟩)
        (⟨calls, message.rawDsml⟩ :: history)
  | request {server : Replay} {history : List ToolCalls}
      (before : Remembers maxEntries server history) (msgs : List ChatMsg) :
      Remembers maxEntries (server.attachToMessages msgs).1 history

/-- The latest generated message with a call of this id. -/
def owner (history : List ToolCalls) (id : Bytes) : Option ToolCalls :=
  history.find? fun generated => id ∈ callIds generated.list

/-- All ids of a message were last given to the calls of one generated message, which
has as many calls. -/
def FromOne (history : List ToolCalls) (msg : ChatMsg) : Prop :=
  ∃ generated, (∀ id ∈ callIds msg.calls.list, owner history id = some generated) ∧
    generated.list.length = msg.calls.list.length

/-- A text is that of a generated message with exactly the ids of a message. -/
def SaysSame (history : List ToolCalls) (msg : ChatMsg) (raw : Bytes) : Prop :=
  ∃ generated ∈ history, generated.rawDsml = some raw ∧
    ∀ id, id ∈ callIds generated.list ↔ id ∈ callIds msg.calls.list

section Ownership

variable {history : List ToolCalls} {memory : ToolMemory} {server : Replay}

/-- Every entry has an id of a generated message, and the text of the latest one with
this id. -/
structure Owned (history : List ToolCalls) (memory : ToolMemory) : Prop where
  keyed : memory.Keyed
  owned : ∀ entry ∈ memory.made, ∃ generated,
    owner history entry.id = some generated ∧ generated.rawDsml = some entry.dsml

theorem owned_puts {raw : Bytes} (ne : raw ≠ []) {calls : List Call}
    (named : ∀ call ∈ calls, call.id.getD [] ≠ []) {done : List Bytes}
    (keyed : memory.Keyed)
    (sofar : ∀ entry ∈ memory.made, entry.id ∈ done ∧ entry.dsml = raw ∨
      entry.id ∉ done ∧ ∃ generated,
        owner history entry.id = some generated ∧ generated.rawDsml = some entry.dsml) :
    let after := calls.foldl (fun memory call => memory.put (call.id.getD []) raw) memory
    after.Keyed ∧ ∀ entry ∈ after.made, entry.id ∈ done ++ callIds calls ∧ entry.dsml = raw ∨
        entry.id ∉ done ++ callIds calls ∧ ∃ generated, owner history entry.id = some generated ∧
            generated.rawDsml = some entry.dsml := by
  induction calls generalizing memory done with
  | nil =>
    dsimp only
    rw [callIds, map_nil, append_nil]
    exact ⟨keyed, sofar⟩
  | cons call calls ih =>
    rw [forall_mem_cons] at named
    have step := ih named.2 (keyed.put (call.id.getD []) raw)
      (show ∀ entry ∈ (memory.put (call.id.getD []) raw).made,
        entry.id ∈ done ++ [call.id.getD []] ∧ entry.dsml = raw ∨
          entry.id ∉ done ++ [call.id.getD []] ∧ ∃ generated,
            owner history entry.id = some generated ∧ generated.rawDsml = some entry.dsml by
        intro entry mem
        rcases ToolMemory.mem_made_put_keyed keyed named.1 ne mem with
          rfl | ⟨old, otherId⟩
        · exact Or.inl ⟨by simp, rfl⟩
        · rcases sofar entry old with ⟨isDone, text⟩ | ⟨notDone, text⟩
          · exact Or.inl ⟨mem_append_left _ isDone, text⟩
          · exact Or.inr ⟨by simp [notDone, otherId], text⟩)
    rw [append_assoc] at step
    exact step

theorem assignFrom_named {api : ApiStyle} {done calls out : List Call} {draws : List Bytes}
    (assigned : assignFrom server api done calls draws = some out)
    (named : ∀ call ∈ done, call.id.getD [] ≠ []) : ∀ call ∈ out, call.id.getD [] ≠ [] := by
  induction calls generalizing done draws with
  | nil =>
    cases assigned
    exact named
  | cons call calls ih =>
    rw [assignFrom] at assigned
    split at assigned
    next hasId =>
      apply ih assigned
      rw [forall_mem_append]
      exact ⟨named, forall_mem_singleton.mpr hasId⟩
    · split at assigned
      · cases assigned
      next id rest found =>
        apply ih assigned
        rw [forall_mem_append]
        exact ⟨named, forall_mem_singleton.mpr (freshId_spec found).2⟩

theorem owner_cons (generated : ToolCalls) (history : List ToolCalls) (id : Bytes) :
    owner (generated :: history) id =
      if id ∈ callIds generated.list then some generated else owner history id := by
  unfold owner
  rw [find?_cons]
  split <;> rename_i listed <;> simp_all

theorem owner_of_mem {generated : ToolCalls} {id : Bytes}
    (once : (history.flatMap fun generated => callIds generated.list).Nodup)
    (mem : generated ∈ history) (listed : id ∈ callIds generated.list) :
    owner history id = some generated := by
  induction history with
  | nil => cases mem
  | cons first history ih =>
    rw [flatMap_cons, nodup_append] at once
    obtain ⟨-, rest, disjoint⟩ := once
    rw [owner_cons]
    rcases mem_cons.mp mem with rfl | later
    · rw [if_pos listed]
    · rw [if_neg, ih rest later]
      intro first
      exact disjoint id first id (mem_flatMap.mpr ⟨generated, later, listed⟩) rfl

theorem Owned.remember {text : Bytes} {msg : Message} {api : ApiStyle}
    {draws : List Bytes} {prepared calls : List Call} (owned : Owned history server.memory)
    (enabled : server.disableExactDsmlToolReplay = false)
    (parsed : parseGeneratedMessage text = some msg) (hasCalls : msg.calls ≠ [])
    (assigned : assignToolCallIds server api draws prepared = some calls) :
    Owned (⟨calls, msg.rawDsml⟩ :: history) (server.remember ⟨calls, msg.rawDsml⟩).memory := by
  obtain ⟨byte, raw, isRaw⟩ := rawDsml_of_parse parsed hasCalls
  have named := assignFrom_named assigned fun _ mem => absurd mem not_mem_nil
  obtain ⟨keyed, entries⟩ := @owned_puts history server.memory (byte :: raw)
    (cons_ne_nil _ _) calls named [] owned.keyed fun entry mem =>
      Or.inr ⟨not_mem_nil, owned.owned entry mem⟩
  rw [Replay.remember, enabled, if_neg Bool.false_ne_true, isRaw]
  refine ⟨keyed, fun entry mem => ?_⟩
  simp only [nil_append] at entries
  rw [owner_cons]
  rcases entries entry mem with ⟨listed, sameText⟩ | ⟨notListed, old⟩
  · rw [if_pos listed, sameText]
    exact ⟨_, rfl, rfl⟩
  · rw [if_neg notListed]
    exact old

theorem Owned.congr {other : ToolMemory} (owned : Owned history memory)
    (same : other.made = memory.made) : Owned history other := by
  obtain ⟨keyed, entries⟩ := owned
  unfold ToolMemory.Keyed at keyed
  rw [← same] at keyed entries
  exact ⟨keyed, entries⟩

theorem Remembers.owned {maxEntries : Nat} (remembers : Remembers maxEntries server history) :
    server.disableExactDsmlToolReplay = false ∧ Owned history server.memory := by
  induction remembers with
  | start => exact ⟨rfl, nodup_nil, fun _ mem => absurd mem not_mem_nil⟩
  | @generated server _ _ _ _ _ _ _ _ parsed hasCalls _ assigned ih =>
    refine ⟨?_, ih.2.remember ih.1 parsed hasCalls assigned⟩
    rw [Replay.remember, ih.1, if_neg Bool.false_ne_true]
  | @request server _ _ msgs ih =>
    rw [Replay.attachToMessages, ih.1, if_neg Bool.false_ne_true]
    exact ⟨rfl, ih.2.congr (Replay.made_attachAll server.memory msgs)⟩

theorem Owned.text? (owned : Owned history memory) {id raw : Bytes}
    (answers : memory.text? id = some raw) :
    ∃ generated, owner history id = some generated ∧ generated.rawDsml = some raw := by
  obtain ⟨entry, found, rfl⟩ := Option.map_eq_some_iff.mp answers
  obtain ⟨mem, rfl⟩ := ToolMemory.mem_of_findEntry found
  exact owned.owned entry mem

end Ownership

namespace Replay

section Attached

variable {memory : ToolMemory} {msg : ChatMsg} {raw : Bytes}

theorem text?_of_matchCalls {calls : List Call} {search : Option Bytes × Bool}
    (matched : (calls.foldl matchCall (memory, search)).2 = (some raw, true)) :
    (search.1 = none ∨ search.1 = some raw) ∧ search.2 = true ∧
      ∀ call ∈ calls, memory.text? (call.id.getD []) = some raw := by
  induction calls generalizing memory search with
  | nil =>
    cases matched
    exact ⟨Or.inr rfl, rfl, fun _ mem => absurd mem not_mem_nil⟩
  | cons call calls ih =>
    rw [foldl_cons,
      show matchCall (memory, search) call = (_, _) from Prod.mk.eta.symm] at matched
    obtain ⟨first, stillExact, rest⟩ := ih matched
    have step := matchCall_snd (memory, search) call
    have made := made_matchCall (memory, search) call
    rw [ToolMemory.text?_congr made] at rest
    dsimp only at step rest
    rw [step] at first stillExact
    obtain ⟨candidate, isExact⟩ := search
    cases answer : memory.text? (call.id.getD []) with
    | none =>
      rw [answer] at stillExact
      cases stillExact
    | some dsml =>
      rw [answer] at first stillExact
      cases candidate with
      | none =>
        have same : dsml = raw := by simpa using first
        subst same
        exact ⟨Or.inl rfl, stillExact, forall_mem_cons.mpr ⟨answer, rest⟩⟩
      | some before =>
        have same : before = raw := by simpa using first
        simp only [Bool.and_eq_true, decide_eq_true_eq] at stillExact
        obtain ⟨isTrue, rfl⟩ := stillExact
        subst same
        exact ⟨Or.inr rfl, isTrue, forall_mem_cons.mpr ⟨answer, rest⟩⟩

theorem text?_of_attached (unattached : msg.calls.rawDsml = none)
    (attached : (attachToMessage memory msg).2.calls.rawDsml = some raw) :
    msg.calls.list ≠ [] ∧ ∀ id ∈ callIds msg.calls.list, memory.text? id = some raw := by
  rw [attachToMessage_snd] at attached
  split at attached
  · rw [unattached] at attached
    cases attached
  rename_i eligible
  split at attached
  next dsml matched =>
    cases attached
    refine ⟨(not_or.mp eligible).1, fun id listed => ?_⟩
    obtain ⟨call, mem, rfl⟩ := mem_map.mp listed
    exact (text?_of_matchCalls matched).2.2 call mem
  · rw [unattached] at attached
    cases attached

theorem attachAll_eq_map (memory : ToolMemory) (msgs : List ChatMsg) :
    (attachAll memory msgs).2 = msgs.map fun msg => (attachToMessage memory msg).2 := by
  induction msgs generalizing memory with
  | nil => rfl
  | cons msg msgs ih =>
    have same := ToolMemory.text?_congr (made_attachToMessage memory msg)
    simp only [attachAll, ih, map_cons]
    congr 1
    apply map_congr_left
    intro later _
    rw [attachToMessage_snd, attachToMessage_snd,
      matchCalls_congr fun call _ => congrFun same (call.id.getD [])]

end Attached

end Replay

/-- A message that got the text of a block has the ids of one generated message with
this text, when its ids were last given to one generated message and are as many; and
only then, if no id was given twice. -/
theorem attached_says_same (maxEntries : Nat) (server : Replay) (history : List ToolCalls)
    (remembers : Remembers maxEntries server history) (msgs : List ChatMsg) (index : Nat)
    (msg answer : ChatMsg) (raw : Bytes) (incoming : msgs[index]? = some msg)
    (outgoing : (server.attachToMessages msgs).2[index]? = some answer)
    (distinct : (callIds msg.calls.list).Nodup) (unattached : msg.calls.rawDsml = none)
    (attached : answer.calls.rawDsml = some raw) :
    (FromOne history msg → SaysSame history msg raw) ∧
      ((history.flatMap fun generated => callIds generated.list).Nodup →
        SaysSame history msg raw → FromOne history msg) := by
  obtain ⟨enabled, owned⟩ := remembers.owned
  rw [Replay.attachToMessages, enabled, if_neg Bool.false_ne_true] at outgoing
  dsimp only at outgoing
  rw [Replay.attachAll_eq_map, getElem?_map, incoming] at outgoing
  obtain rfl := Option.some.inj outgoing
  obtain ⟨nonempty, answers⟩ := Replay.text?_of_attached unattached attached
  constructor
  · rintro ⟨generated, owners, sameLength⟩
    have subset : callIds msg.calls.list ⊆ callIds generated.list := by
      intro id listed
      have found := find?_some (owners id listed)
      simpa using found
    obtain ⟨first, firstMem⟩ := exists_mem_of_ne_nil _ nonempty
    have firstListed : first.id.getD [] ∈ callIds msg.calls.list := mem_map_of_mem firstMem
    have isOwner := owners _ firstListed
    obtain ⟨other, otherOwner, sameText⟩ := owned.text? (answers _ firstListed)
    obtain rfl := Option.some.inj (otherOwner.symm.trans isOwner)
    refine ⟨other, mem_of_find?_eq_some isOwner, sameText, fun id => ?_⟩
    -- As many different ids as the generated message has calls are all of its ids.
    have perm : (callIds msg.calls.list).Perm (callIds other.list) :=
      (subperm_of_subset distinct subset).perm_of_length_le
        (by rw [callIds, callIds, length_map, length_map, sameLength])
    exact perm.mem_iff.symm
  · rintro once ⟨generated, mem, -, same⟩
    refine ⟨generated, fun id listed => owner_of_mem once mem ((same id).mpr listed), ?_⟩
    have perm : (callIds generated.list).Perm (callIds msg.calls.list) :=
      (perm_ext_iff_of_nodup ((nodup_flatMap.mp once).1 generated mem) distinct).mpr same
    have lengths := perm.length_eq
    rwa [callIds, callIds, length_map, length_map] at lengths

def twoCallsText : Bytes :=
  utf8 ("<tool_calls><invoke name=\"f\"></invoke>" ++
    "<invoke name=\"g\"></invoke></tool_calls>")

/-- What the parser makes of it. -/
def twoCalls : Message where
  content := []
  reasoning := none
  calls := [⟨utf8 "f", utf8 "\x7b\x7d"⟩, ⟨utf8 "g", utf8 "\x7b\x7d"⟩]
  rawDsml := some twoCallsText

def namedCalls : List Call :=
  [{ name := utf8 "f", arguments := utf8 "\x7b\x7d"
     id := some (randomToolId .openai (List.replicate 16 0)) },
    { name := utf8 "g", arguments := utf8 "\x7b\x7d"
      id := some (randomToolId .openai (List.replicate 16 1)) }]

/-- The server that has remembered them. -/
def twoCallsReplay : Replay :=
  freshReplay.remember ⟨namedCalls, some twoCallsText⟩

theorem remembers_twoCalls : Remembers 10 twoCallsReplay [⟨namedCalls, some twoCallsText⟩] :=
  .generated .start (show parseGeneratedMessage twoCallsText = some twoCalls by decide +kernel)
    (by decide) rfl
    (show assignToolCallIds freshReplay .openai [List.replicate 16 0, List.replicate 16 1]
      (unnamedCalls twoCalls) = some namedCalls by decide +kernel)

/-- A message with some of the calls. -/
def answerWith (calls : List Call) : ChatMsg := ⟨.assistant, none, none, ⟨calls, none⟩⟩

theorem attached_says_same_twoCalls :
    SaysSame [⟨namedCalls, some twoCallsText⟩] (answerWith namedCalls) twoCallsText :=
  (attached_says_same 10 twoCallsReplay [⟨namedCalls, some twoCallsText⟩]
    remembers_twoCalls [answerWith namedCalls] 0 (answerWith namedCalls)
    ((answerWith namedCalls).withText twoCallsText) twoCallsText rfl (by decide +kernel)
    (by decide +kernel) rfl rfl).1
    ⟨⟨namedCalls, some twoCallsText⟩, by decide +kernel, rfl⟩

/-- A message with the first call only gets the text of both. -/
theorem attached_says_more : Remembers 10 twoCallsReplay [⟨namedCalls, some twoCallsText⟩] ∧
      (twoCallsReplay.attachToMessages [answerWith (namedCalls.take 1)]).2 =
        [(answerWith (namedCalls.take 1)).withText twoCallsText] ∧
      ¬ SaysSame [⟨namedCalls, some twoCallsText⟩] (answerWith (namedCalls.take 1))
        twoCallsText := by
  refine ⟨remembers_twoCalls, by decide +kernel, ?_⟩
  rintro ⟨generated, mem, -, same⟩
  obtain rfl := mem_singleton.mp mem
  have second := (same (randomToolId .openai (List.replicate 16 1))).mp (by decide +kernel)
  exact absurd second (by decide +kernel)

end LnaLang.Chat
