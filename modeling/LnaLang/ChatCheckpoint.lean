import LnaLang.ToolMemory

/-!
# The checkpoint of a finished turn

After a turn the server rewrites the live text to the form in which the next prompt
will contain it, so that the session can be continued.  After tool calls that is the
prompt and a suffix: the next request brings the calls back as JSON, and the remembered
block puts the sampled text in their place.
-/

namespace LnaLang.Chat

open List

/-- An assistant message without calls. -/
def plainAnswer (content reasoning : Option Bytes) : ChatMsg :=
  ⟨.assistant, content, reasoning, ⟨[], none⟩⟩

def userTurn (content : Option Bytes) : ChatMsg :=
  ⟨.user, content, none, ⟨[], none⟩⟩

/-- The text that `canonicalize_thinking_checkpoint` builds, if it does not give up. -/
def canonicalThinkingText (mode : ThinkMode) (promptText : Bytes)
    (content : Option Bytes) : Option Bytes :=
  if mode.enabled = false then none
  else if Dsml.thinkOpen.isSuffixOf promptText then
    some (promptText.take (promptText.length - Dsml.thinkOpen.length) ++
      Dsml.thinkClose ++ content.getD [] ++ endOfSentence)
  else none

theorem renderMsgs_answer {state : Rendering} (pending : state.pendingAssistant = true)
    (think toolContext : Bool) (last : Int) (answer : ChatMsg)
    (isAssistant : answer.role = .assistant) (i : Nat) :
    (renderMsgs think toolContext last state [(answer, i)]).out = state.out ++ assistantMark ++
        reasoningText (think && (toolContext || decide (last < i))) answer ++
        answer.content.getD [] ++ dsmlToolCallsText answer.calls ++ endOfSentence := by
  simp only [renderMsgs, foldl_cons, foldl_nil, renderMsg, isAssistant,
    pending, if_true, append_assoc]

theorem canonicalThinkingText_append {mode : ThinkMode}
    (enabled : mode.enabled = true) (text : Bytes) (content : Option Bytes) :
    canonicalThinkingText mode (text ++ Dsml.thinkOpen) content =
      some (text ++ Dsml.thinkClose ++ content.getD [] ++ endOfSentence) := by
  have ends : Dsml.thinkOpen.isSuffixOf (text ++ Dsml.thinkOpen) = true :=
    isSuffixOf_iff_suffix.mpr (suffix_append _ _)
  rw [canonicalThinkingText, enabled, if_neg (by decide), if_pos ends,
    length_append, Nat.add_sub_cancel, take_left]

section Continuing

variable {history rest : List ChatMsg} {answer : ChatMsg} {toolSchemas : Bytes} {mode : ThinkMode}

def SameEarlier (history more : List ChatMsg) (toolSchemas : Bytes) : Prop :=
  ∀ item ∈ history.zipIdx, item.1.role = .assistant →
    (chatHistoryUsesToolContext (history ++ more) toolSchemas ||
        decide (lastUserIdx (history ++ more) < item.2)) =
      (chatHistoryUsesToolContext history toolSchemas || decide (lastUserIdx history < item.2))

/-- The answer of a chat keeps its reasoning when the chat is rendered again. -/
def keepsReasoning (history more : List ChatMsg) (toolSchemas : Bytes) (mode : ThinkMode) : Bool :=
  mode.enabled && (chatHistoryUsesToolContext (history ++ more) toolSchemas ||
    decide (lastUserIdx (history ++ more) < history.length))

theorem prefix_rendered (isAssistant : answer.role = .assistant)
    (noSystem : ∀ msg ∈ rest, msg.role.isSystem = false)
    (same : SameEarlier history (answer :: rest) toolSchemas) :
    (renderMsgs mode.enabled (chatHistoryUsesToolContext (history ++ answer :: rest) toolSchemas)
        (lastUserIdx (history ++ answer :: rest)) (rendered history toolSchemas mode)
        [(answer, history.length)]).out <+:
      (rendered (history ++ answer :: rest) toolSchemas mode).out := by
  have head : promptHead (history ++ answer :: rest) toolSchemas mode =
      promptHead history toolSchemas mode := by
    apply promptHead_append
    intro msg mem
    rcases mem_cons.mp mem with rfl | mem
    · rw [isAssistant]
      rfl
    · exact noSystem msg mem
  have items : (history ++ answer :: rest).zipIdx = history.zipIdx ++ ([(answer, history.length)] ++
        rest.zipIdx (history.length + 1)) := by
    rw [zipIdx_append, zipIdx_cons, Nat.zero_add]
    rfl
  have first := @renderMsgs_congr mode.enabled _ _ _ _ history.zipIdx same
    ⟨promptHead history toolSchemas mode, false, false⟩
  rw [show rendered (history ++ answer :: rest) toolSchemas mode =
    renderMsgs _ _ _ ⟨_, false, false⟩ _ from rfl, items, renderMsgs_append,
    renderMsgs_append, head, first]
  exact prefix_renderMsgs ..

theorem prefix_render_answer (isAssistant : answer.role = .assistant)
    (noSystem : ∀ msg ∈ rest, msg.role.isSystem = false)
    (pending : (rendered history toolSchemas mode).pendingAssistant = true)
    (same : SameEarlier history (answer :: rest) toolSchemas) :
    (rendered history toolSchemas mode).out ++ assistantMark ++
        reasoningText (keepsReasoning history (answer :: rest) toolSchemas mode) answer ++
        answer.content.getD [] ++ dsmlToolCallsText answer.calls ++ endOfSentence <+:
      renderChatPromptText (history ++ answer :: rest) toolSchemas mode := by
  rw [keepsReasoning, ← renderMsgs_answer pending _ _ _ answer isAssistant, renderChatPromptText]
  exact (prefix_rendered isAssistant noSystem same).trans (prefix_append _ _)

end Continuing

section WithoutTools

variable {history : List ChatMsg} {mode : ThinkMode} (content reasoning next : Option Bytes)

theorem noTools_next (noTools : chatHistoryUsesToolContext history [] = false) :
    chatHistoryUsesToolContext
      (history ++ [plainAnswer content reasoning, userTurn next]) [] = false := by
  have answers : [plainAnswer content reasoning, userTurn next].any ChatMsg.usesTools = false := rfl
  unfold chatHistoryUsesToolContext at noTools ⊢
  rw [any_append, answers, Bool.or_false]
  exact noTools

theorem lastUserIdx_next : lastUserIdx (history ++ [plainAnswer content reasoning, userTurn next]) =
      history.length + 1 := by
  rw [show [plainAnswer content reasoning, userTurn next] =
    [plainAnswer content reasoning] ++ [userTurn next] from rfl,
    ← append_assoc, lastUserIdx_concat]
  simp [userTurn, Role.isUserLike]

theorem sameEarlier_next (noTools : chatHistoryUsesToolContext history [] = false)
    (pending : (rendered history [] mode).pendingAssistant = true) :
    SameEarlier history [plainAnswer content reasoning, userTurn next] [] := by
  intro item mem isAssistant
  have before := lt_lastUserIdx_of_pending _ _ _ _ history pending item mem isAssistant
  have bound := lastUserIdx_lt history
  rw [noTools_next content reasoning next noTools, noTools, lastUserIdx_next content reasoning next]
  simp only [Bool.false_or, decide_eq_decide]
  omega

variable (history mode)

/-- With thinking on and without tools, a finished turn is rewritten to the prompt
without its last `<think>`, `</think>`, the visible content and the end mark; and that
is a prefix of the next prompt. -/
theorem canonicalThinkingText_prefix (enabled : mode.enabled = true)
    (noTools : chatHistoryUsesToolContext history [] = false)
    (pending : (rendered history [] mode).pendingAssistant = true) :
    ∃ stable, renderChatPromptText history [] mode = stable ++ Dsml.thinkOpen ∧
      canonicalThinkingText mode (renderChatPromptText history [] mode) content =
        some (stable ++ Dsml.thinkClose ++ content.getD [] ++ endOfSentence) ∧
      stable ++ Dsml.thinkClose ++ content.getD [] ++ endOfSentence <+:
        renderChatPromptText
          (history ++ [plainAnswer content reasoning, userTurn next]) [] mode := by
  have prompt : renderChatPromptText history [] mode =
      (rendered history [] mode).out ++ assistantMark ++ Dsml.thinkOpen := by
    rw [renderChatPromptText, pending, if_pos rfl, openTurn, enabled, if_pos rfl, append_assoc]
  refine ⟨(rendered history [] mode).out ++ assistantMark, prompt, ?_, ?_⟩
  · rw [prompt]
    exact canonicalThinkingText_append enabled _ content
  · have dropped : keepsReasoning history
        [plainAnswer content reasoning, userTurn next] [] mode = false := by
      have behind : ¬ (history.length + 1 : Int) < history.length := by omega
      rw [keepsReasoning, noTools_next content reasoning next noTools,
        lastUserIdx_next content reasoning next, decide_eq_false behind, Bool.or_false,
        Bool.and_false]
    have shorter := @prefix_render_answer history [userTurn next]
      (plainAnswer content reasoning) [] mode rfl (by simp [userTurn, Role.isSystem])
      pending (sameEarlier_next content reasoning next noTools pending)
    rw [dropped] at shorter
    simpa [reasoningText, plainAnswer, dsmlToolCallsText] using shorter

end WithoutTools

/-- A chat with a system message, an answered question and a new question. -/
def secondQuestion : List ChatMsg :=
  [⟨.system, some (utf8 "Be brief."), none, ⟨[], none⟩⟩, userTurn (some (utf8 "Hi")),
    plainAnswer (some (utf8 "Hello")) (some (utf8 "greet")),
    userTurn (some (utf8 "Why?"))]

theorem canonicalThinkingText_prefix_second :
    ∃ stable, renderChatPromptText secondQuestion [] .high = stable ++ Dsml.thinkOpen ∧
      canonicalThinkingText .high (renderChatPromptText secondQuestion [] .high)
        (some (utf8 "So")) = some (stable ++ Dsml.thinkClose ++ utf8 "So" ++ endOfSentence) ∧
      stable ++ Dsml.thinkClose ++ utf8 "So" ++ endOfSentence <+:
        renderChatPromptText (secondQuestion ++
          [plainAnswer (some (utf8 "So")) (some (utf8 "think")),
            userTurn (some (utf8 "OK"))]) [] .high :=
  canonicalThinkingText_prefix secondQuestion .high (some (utf8 "So"))
    (some (utf8 "think")) (some (utf8 "OK")) rfl (by decide) (by decide)

open Dsml

/-- `build_tool_checkpoint_suffix`. -/
def toolCheckpointSuffix (mode : ThinkMode) (content : Bytes)
    (reasoning : Option Bytes) (calls : ToolCalls) : Bytes :=
  (if mode.enabled then reasoning.getD [] ++ thinkClose else []) ++ content ++
    dsmlToolCallsText calls ++ endOfSentence

variable {text : Bytes}

theorem length_invokeLoop (tags : Tags) {calls done : List Dsml.ToolCall} {rest : Bytes}
    (read : (invokeLoop tags).run (done, text) = some (calls, rest)) :
    rest.length ≤ text.length := by
  revert read
  apply (invokeLoop tags).run_induction fun state result =>
    ∀ {calls rest}, result = some (calls, rest) → rest.length ≤ state.2.length
  · rintro ⟨done, text⟩ result halted calls rest rfl
    have skipped := (suffix_skipAsciiWs text).length_le
    simp only [invokeLoop] at halted
    split at halted
    · cases halted
      dsimp only
      rw [length_drop]
      omega
    · split at halted <;> cases halted
  · rintro ⟨done, text⟩ ⟨doneNext, next⟩ step later calls rest read
    exact (later read).trans (Nat.le_of_lt ((invokeLoop tags).decreases step))

theorem length_parseBlock {style : Style} {calls : List Dsml.ToolCall} {rest : Bytes}
    (read : parseBlock style text = some (calls, rest)) : rest.length < text.length := by
  unfold parseBlock at read
  split at read
  · cases read
  next pos found =>
    have shorter := length_invokeLoop style.tags read
    have tagPos : 0 < style.tags.toolCallsStart.length := by cases style <;> decide
    have inside : pos + style.tags.toolCallsStart.length ≤ text.length :=
      ListSearch.find_end_le found
    rw [length_drop] at shorter
    omega

variable {message : Message}

theorem rawDsml_of_parse (parsed : parseGeneratedMessage text = some message)
    (calls : message.calls ≠ []) : ∃ byte raw, message.rawDsml = some (byte :: raw) := by
  unfold parseGeneratedMessage at parsed
  split at parsed
  · cases parsed
    exact absurd rfl calls
  next style start found =>
    obtain ⟨⟨list, rest⟩, read, same⟩ := Option.map_eq_some_iff.mp parsed
    cases same
    have shorter := length_parseBlock read
    simp only [Json.consumed]
    cases whole : text.drop start with
    | nil =>
      rw [whole] at shorter
      cases shorter
    | cons byte behind =>
      rw [whole, length_cons] at shorter
      obtain ⟨n, pos⟩ : ∃ n, (byte :: behind).length - rest.length = n + 1 :=
        ⟨behind.length - rest.length, by rw [length_cons]; omega⟩
      exact ⟨byte, behind.take n, by rw [pos, take_succ_cons]⟩

section Memory

def unnamedCalls (message : Message) : List Call :=
  message.calls.map fun call => { call with id := none }

def callIds (calls : List Call) : List Bytes :=
  calls.map fun call => call.id.getD []

variable {server : Replay} {api : ApiStyle} {draws : List Bytes} {calls : List Call}
  {message : Message}

theorem knows_of_assigned (replays : server.disableExactDsmlToolReplay = false)
    (assigned : assignToolCallIds server api draws (unnamedCalls message) = some calls)
    (raw : Bytes) : server.memory.Knows (callIds calls) raw := by
  obtain ⟨named, rfl, -, ids⟩ := assignFrom_spec assigned (by simp [unnamedCalls])
  intro entry mem listed
  obtain ⟨call, callMem, isId⟩ := mem_map.mp listed
  obtain ⟨id, hasId, ne, free⟩ := ids call callMem
  rw [hasId, Option.getD_some] at isId
  subst isId
  exfalso
  rw [Replay.hasId, replays, Bool.not_false, Bool.true_and, ToolMemory.findEntry, if_neg ne] at free
  have found : (server.memory.made.find? fun other => other.id = entry.id).isSome := by
    rw [find?_isSome]
    exact ⟨entry, mem, by simp⟩
  rw [found] at free
  cases free

theorem ne_nil_of_assigned
    (assigned : assignToolCallIds server api draws (unnamedCalls message) = some calls)
    (parsed : message.calls ≠ []) : calls ≠ [] := by
  obtain ⟨named, isNamed, n, -⟩ := assignFrom_spec assigned (by simp [unnamedCalls])
  intro noCalls
  rw [noCalls, nil_append] at isNamed
  rw [← isNamed, unnamedCalls, length_map, length_nil] at n
  exact parsed (length_eq_zero_iff.mp n.symm)

theorem knows_remember {ids : List Bytes} {raw : Bytes} (knows : server.memory.Knows ids raw)
    (calls : List Call) : (server.remember ⟨calls, some raw⟩).memory.Knows ids raw := by
  unfold Replay.remember
  split
  · exact knows
  · dsimp only
    generalize server.memory = memory at knows
    induction calls generalizing memory with
    | nil => exact knows
    | cons call calls ih => exact ih _ (knows.put fun _ => rfl)

end Memory

/-- The answer of a turn with tool calls as the next request brings it back: the
content, the reasoning and the ids are those of the response. -/
structure Returned (message : Message) (calls : List Call) (answer : ChatMsg) :
    Prop where
  role : answer.role = .assistant
  content : answer.content.getD [] = message.content
  reasoning : answer.reasoning.getD [] = message.reasoning.getD []
  ids : callIds answer.calls.list = callIds calls
  rawDsml : answer.calls.rawDsml = none

/-- A message whose calls are written as a given text. -/
def ChatMsg.withText (msg : ChatMsg) (raw : Bytes) : ChatMsg :=
  { msg with calls := { msg.calls with rawDsml := some raw } }

variable {answer : ChatMsg} {calls : List Call}

theorem Returned.calls_ne_nil (returned : Returned message calls answer)
    (ne : calls ≠ []) : answer.calls.list ≠ [] := by
  intro noCalls
  have ids := returned.ids
  rw [noCalls, callIds, callIds, map_nil, eq_comm, map_eq_nil_iff] at ids
  exact ne ids

theorem attach_returned {raw : Bytes} (returned : Returned message calls answer) (ne : calls ≠ [])
    {memory : ToolMemory} (known : ∀ id ∈ callIds calls, memory.text? id = some raw) :
    (Replay.attachToMessage memory answer).2 = answer.withText raw := by
  have someCalls := returned.calls_ne_nil ne
  have matched := @Replay.matchCalls_of_known raw memory answer.calls.list (by
    intro call mem
    apply known
    rw [← returned.ids]
    exact mem_map_of_mem mem) (none, true) (Or.inr ⟨rfl, someCalls⟩)
  rw [Replay.attachToMessage_snd, if_neg (by simp [someCalls, returned.rawDsml]),
    matched]
  rfl

theorem attach_next {raw : Bytes} (returned : Returned message calls answer) (ne : calls ≠ [])
    {memory : ToolMemory} (known : ∀ id ∈ callIds calls, memory.text? id = some raw)
    (history : List ChatMsg) {further : List ChatMsg}
    (noSystem : ∀ msg ∈ further, msg.role.isSystem = false) :
    ∃ rest, (∀ msg ∈ rest, msg.role.isSystem = false) ∧
      (Replay.attachToMessages ⟨memory, false⟩ (history ++ answer :: further)).2 =
        (Replay.attachAll memory history).2 ++ answer.withText raw :: rest := by
  have answered := @attach_returned _ _ _ raw returned ne (Replay.attachAll memory history).1 (by
      intro id listed
      rw [ToolMemory.text?_congr (Replay.made_attachAll memory history)]
      exact known id listed)
  refine ⟨_, Replay.isSystem_attachAll noSystem
    (Replay.attachToMessage (Replay.attachAll memory history).1 answer).1, ?_⟩
  rw [← answered, Replay.attachToMessages, if_neg Bool.false_ne_true, Replay.attachAll_append]
  rfl

variable {toolSchemas : Bytes}

theorem prompt_append_suffix {history : List ChatMsg}
    {mode : ThinkMode} (pending : (rendered history toolSchemas mode).pendingAssistant)
    {content : Bytes} {reasoning : Option Bytes} {calls : ToolCalls}
    (sameContent : answer.content.getD [] = content)
    (sameReasoning : answer.reasoning.getD [] = reasoning.getD [])
    (sameCalls : dsmlToolCallsText answer.calls = dsmlToolCallsText calls) :
    renderChatPromptText history toolSchemas mode ++
        toolCheckpointSuffix mode content reasoning calls =
      (rendered history toolSchemas mode).out ++ assistantMark ++
        reasoningText mode.enabled answer ++ answer.content.getD [] ++
        dsmlToolCallsText answer.calls ++ endOfSentence := by
  rw [renderChatPromptText, pending, if_pos rfl, openTurn, toolCheckpointSuffix,
    reasoningText, sameContent, sameReasoning, sameCalls]
  cases mode.enabled <;> simp [append_assoc]

theorem usesToolContext_of_schemas (schemas : toolSchemas ≠ [])
    (msgs : List ChatMsg) : chatHistoryUsesToolContext msgs toolSchemas = true := by
  simp [chatHistoryUsesToolContext, schemas]

theorem sameEarlier_of_schemas (schemas : toolSchemas ≠ [])
    (history more : List ChatMsg) : SameEarlier history more toolSchemas := by
  intro item mem isAssistant
  rw [usesToolContext_of_schemas schemas, usesToolContext_of_schemas schemas,
    Bool.true_or, Bool.true_or]

theorem dsmlToolCallsText_sampled {list : List Call} (ne : list ≠ []) (byte : UInt8)
    (raw : Bytes) : dsmlToolCallsText ⟨list, some (byte :: raw)⟩ = byte :: raw := by
  rw [dsmlToolCallsText, if_neg ne]

/-- A turn with tool calls, from the first request to the next one: the suffix of the
checkpoint is the answer with its calls as they were sampled, and the prompt with that
suffix is a prefix of the next prompt. -/
theorem toolCheckpoint_prefix (before atFinish : Replay) (api : ApiStyle)
    (draws : List Bytes) (uses : List ToolMemory.Use) (history further : List ChatMsg)
    (toolSchemas text : Bytes) (mode : ThinkMode) (message : Message)
    (calls : List Call) (answer : ChatMsg) (schemas : toolSchemas ≠ [])
    (replays : before.disableExactDsmlToolReplay = false ∧
      atFinish.disableExactDsmlToolReplay = false)
    (pending : (rendered (before.attachToMessages history).2 toolSchemas
      mode).pendingAssistant = true)
    (parsed : parseGeneratedMessage text = some message)
    (nonempty : message.calls ≠ [])
    (assigned : assignToolCallIds atFinish api draws (unnamedCalls message) = some calls)
    (returned : Returned message calls answer)
    -- Between the turns nothing else is put under the new ids, and they stay.
    (kept : ∀ step ∈ uses, step.Keeps (callIds calls) (message.rawDsml.getD []))
    (present : ∀ id ∈ callIds calls, ((uses.foldl ToolMemory.use
      (atFinish.remember ⟨calls, message.rawDsml⟩).memory).findEntry id).isSome)
    -- The calls of the history are answered as before.
    (sameHistory : ∀ msg ∈ history, ∀ call ∈ msg.calls.list, (uses.foldl ToolMemory.use
        (atFinish.remember ⟨calls, message.rawDsml⟩).memory).text?
          (call.id.getD []) = before.memory.text? (call.id.getD []))
    (noSystem : ∀ msg ∈ further, msg.role.isSystem = false) :
    toolCheckpointSuffix mode message.content message.reasoning ⟨calls, message.rawDsml⟩ =
        (if mode.enabled then message.reasoning.getD [] ++ thinkClose else []) ++
          message.content ++ message.rawDsml.getD [] ++ endOfSentence ∧
      renderChatPromptText (before.attachToMessages history).2 toolSchemas mode ++
          toolCheckpointSuffix mode message.content message.reasoning ⟨calls, message.rawDsml⟩ <+:
        renderChatPromptText (Replay.attachToMessages ⟨uses.foldl ToolMemory.use
              (atFinish.remember ⟨calls, message.rawDsml⟩).memory, false⟩
            (history ++ answer :: further)).2 toolSchemas mode := by
  obtain ⟨byte, raw, isRaw⟩ := rawDsml_of_parse parsed nonempty
  rw [isRaw] at kept present sameHistory ⊢
  rw [Option.getD_some] at kept
  have someCalls : calls ≠ [] := ne_nil_of_assigned assigned nonempty
  have sampled := dsmlToolCallsText_sampled someCalls byte raw
  refine ⟨by rw [toolCheckpointSuffix, sampled, Option.getD_some], ?_⟩
  have knows := (knows_remember (knows_of_assigned replays.2 assigned (byte :: raw))
    calls).uses uses kept
  generalize uses.foldl ToolMemory.use
    (atFinish.remember ⟨calls, some (byte :: raw)⟩).memory = later at *
  -- The history comes out of both memories the same, the answer with its text.
  have historySame : (Replay.attachAll later history).2 = (before.attachToMessages history).2 := by
    rw [Replay.attachToMessages, replays.1, if_neg Bool.false_ne_true]
    exact Replay.attachAll_congr sameHistory
  obtain ⟨rest, restSystem, msgs⟩ := attach_next returned someCalls
    (fun id listed => knows.text? listed (present id listed)) history noSystem
  have sameCalls : dsmlToolCallsText (answer.withText (byte :: raw)).calls =
      dsmlToolCallsText ⟨calls, some (byte :: raw)⟩ :=
    (dsmlToolCallsText_sampled (returned.calls_ne_nil someCalls) byte raw).trans sampled.symm
  have shorter := @prefix_render_answer _ _ (answer.withText (byte :: raw))
    toolSchemas mode returned.role restSystem pending
    (sameEarlier_of_schemas schemas _ _)
  rw [keepsReasoning, usesToolContext_of_schemas schemas, Bool.true_or, Bool.and_true] at shorter
  rw [msgs, historySame, prompt_append_suffix pending
    (show (answer.withText (byte :: raw)).content.getD [] = _ from returned.content)
    (show (answer.withText (byte :: raw)).reasoning.getD [] = _ from
      returned.reasoning) sameCalls]
  exact shorter

def oneCallText : Bytes :=
  utf8 "<tool_calls><invoke name=\"f\"></invoke></tool_calls>"

/-- What the parser makes of it. -/
def oneCall : Message where
  content := []
  reasoning := none
  calls := [⟨utf8 "f", utf8 "\x7b\x7d"⟩]
  rawDsml := some oneCallText

def namedCall : List Call :=
  [{ name := utf8 "f", arguments := utf8 "\x7b\x7d"
     id := some (randomToolId .openai (List.replicate 16 0)) }]

/-- A server that has remembered nothing. -/
def freshReplay : Replay := ⟨.empty 10, false⟩

def question : List ChatMsg := [userTurn (some (utf8 "q"))]

def callAnswer : ChatMsg := ⟨.assistant, none, none, ⟨namedCall, none⟩⟩

theorem parse_oneCall : parseGeneratedMessage oneCallText = some oneCall := by
  decide +kernel

theorem assign_oneCall : assignToolCallIds freshReplay .openai
    [List.replicate 16 0] (unnamedCalls oneCall) = some namedCall := by
  decide +kernel

theorem returned_oneCall : Returned oneCall namedCall callAnswer := ⟨rfl, rfl, rfl, rfl, rfl⟩

theorem present_oneCall : ∀ id ∈ callIds namedCall,
    ((freshReplay.remember ⟨namedCall, oneCall.rawDsml⟩).memory.findEntry id).isSome := by
  decide +kernel

/-- A server that remembers an earlier call. -/
def resumedReplay : Replay := ⟨freshReplay.memory.put (utf8 "g0") (utf8 "<g/>"), false⟩

/-- A chat that goes on behind the result of the earlier call. -/
def resumed : List ChatMsg :=
  question ++ [⟨.assistant, none, none, ⟨[⟨⟨utf8 "g", utf8 "\x7b\x7d"⟩, some (utf8 "g0")⟩], none⟩⟩,
    ⟨.tool, some (utf8 "1"), none, ⟨[], none⟩⟩]

/-- Other calls are asked for and put into the memory in between. -/
def otherUses : List ToolMemory.Use := [.lookup (utf8 "g0"), .put (utf8 "h0") (utf8 "<h/>")]

theorem toolCheckpoint_prefix_secondCall :
    toolCheckpointSuffix .high oneCall.content oneCall.reasoning ⟨namedCall, oneCall.rawDsml⟩ =
        thinkClose ++ oneCallText ++ endOfSentence ∧
      renderChatPromptText (resumedReplay.attachToMessages resumed).2 (utf8 "s") .high ++
          toolCheckpointSuffix .high oneCall.content oneCall.reasoning
            ⟨namedCall, oneCall.rawDsml⟩ <+:
        renderChatPromptText (Replay.attachToMessages ⟨otherUses.foldl ToolMemory.use
              (resumedReplay.remember ⟨namedCall, oneCall.rawDsml⟩).memory, false⟩
            (resumed ++ callAnswer :: question)).2 (utf8 "s") .high :=
  toolCheckpoint_prefix resumedReplay resumedReplay .openai [List.replicate 16 0] otherUses
    resumed question (utf8 "s") oneCallText .high oneCall namedCall callAnswer (by decide)
    ⟨rfl, rfl⟩ (by decide +kernel) parse_oneCall (by decide) (by decide +kernel)
    returned_oneCall (by simp [otherUses, ToolMemory.Use.Keeps]; decide +kernel)
    (by decide +kernel) (by decide +kernel) (by decide)

def systemNote : ChatMsg := ⟨.system, some (utf8 "x"), none, ⟨[], none⟩⟩

/-- With a system message among the further ones the next prompt starts with another
text. -/
theorem toolCheckpoint_system_message : parseGeneratedMessage oneCallText = some oneCall ∧
    assignToolCallIds freshReplay .openai [List.replicate 16 0]
      (unnamedCalls oneCall) = some namedCall ∧
    Returned oneCall namedCall callAnswer ∧
    (∀ id ∈ callIds namedCall, ((freshReplay.remember
      ⟨namedCall, oneCall.rawDsml⟩).memory.findEntry id).isSome) ∧
    ¬ renderChatPromptText (freshReplay.attachToMessages question).2 (utf8 "s") .high ++
        toolCheckpointSuffix .high oneCall.content oneCall.reasoning
          ⟨namedCall, oneCall.rawDsml⟩ <+:
      renderChatPromptText (Replay.attachToMessages
          ⟨(freshReplay.remember ⟨namedCall, oneCall.rawDsml⟩).memory, false⟩
          (question ++ [callAnswer, systemNote])).2 (utf8 "s") .high := by
  refine ⟨parse_oneCall, assign_oneCall, returned_oneCall, present_oneCall, ?_⟩
  intro isPrefix
  -- Behind the first mark stand the tools in one text and the note in the other.
  have first : beginOfSentence ++ utf8 "#" <+:
      renderChatPromptText (freshReplay.attachToMessages question).2 (utf8 "s")
        .high := by
    apply List.IsPrefix.trans _ (prefix_promptHead _ _ _)
    have nothing : separated (systemMessages (freshReplay.attachToMessages question).2) = [] := by
      decide +kernel
    rw [promptHead, systemText, if_neg (by decide), if_neg (by decide),
      append_nil, prefix_append_right_inj, nothing, nil_append,
      toolsPromptText, if_neg (by decide), toolsIntroduction, append_assoc,
      append_assoc]
    exact (show utf8 "#" <+: utf8 "## Tools\n\n" by decide).trans
      (prefix_append _ _)
  have second : beginOfSentence ++ utf8 "x" <+:
      renderChatPromptText (Replay.attachToMessages
          ⟨(freshReplay.remember ⟨namedCall, oneCall.rawDsml⟩).memory, false⟩
          (question ++ [callAnswer, systemNote])).2 (utf8 "s") .high := by
    apply List.IsPrefix.trans _ (prefix_promptHead _ _ _)
    have note : separated (systemMessages (Replay.attachToMessages
        ⟨(freshReplay.remember ⟨namedCall, oneCall.rawDsml⟩).memory, false⟩
        (question ++ [callAnswer, systemNote])).2) = utf8 "x\n\n" := by
      decide +kernel
    rw [promptHead, systemText, if_neg (by decide), if_neg (by decide),
      append_nil, prefix_append_right_inj, note]
    exact (show utf8 "x" <+: utf8 "x\n\n" by decide).trans (prefix_append _ _)
  have both := prefix_of_prefix_length_le
    (first.trans ((prefix_append _ _).trans isPrefix)) second (by decide)
  rw [prefix_append_right_inj] at both
  revert both
  decide

end LnaLang.Chat
