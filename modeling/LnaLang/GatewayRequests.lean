import LnaLang.JsonReader

/-!
# The gateway's request translations

The gateway turns an Anthropic Messages body and a Responses body into a chat
completion request for the server.  Both translations work on untyped JSON.  This
file models them as they stand, says what a request that keeps the conversation
looks like, and determines for which bodies the translations produce one.
-/

namespace LnaLang.Gateway

open Option

open Python

/-- `Settings`, as far as requests use it. -/
structure Settings where
  servedModel : Text
  modelAliases : List (Text × Text)
  deriving Repr

/-- `Settings.resolve_model`; a list or a dictionary cannot be looked up. -/
def resolveModel (settings : Settings) (model : Value) : Except Exc Value :=
  if model.truthy then
    match model with
    | .str name => .ok (.str ((settings.modelAliases.lookup name).getD name))
    | .list _ => .error .typeError
    | .dict _ => .error .typeError
    | other => .ok other
  else .ok (.str settings.servedModel)

def message (role : String) (content : Value) : Value :=
  .dict [(text "role", .str (text role)), (text "content", content)]

/-- The float `1.0`. -/
def one : Value :=
  .float 0x3FF0000000000000

def blockTexts : List Value → Except Exc (List Value)
  | [] => .ok []
  | block :: blocks => do
    let type ← block.get "type" .none
    if type.isText "text" then
      let content ← block.get "text" (.str [])
      let rest ← blockTexts blocks
      return content :: rest
    else blockTexts blocks

/-- A list of blocks becomes one text. -/
def flattenContent : Value → Except Exc Value
  | .list blocks => do
    let texts ← blockTexts blocks
    let joined ← join (text " ") texts
    return .str joined
  | content => .ok content

/-- The loop body of `_translate_anthropic_to_openai`. -/
def translateMessage (msg : Value) : Except Exc Value := do
  let role ← msg.get "role" (.str (text "user"))
  let content ← msg.get "content" (.str [])
  let flat ← flattenContent content
  return message (if role.isText "assistant" then "assistant" else "user") flat

/-- A first message of role `system` is set apart. -/
def takeSystem : List Value → Except Exc (Value × List Value)
  | [] => .ok (.none, [])
  | msg :: rest => do
    let role ← msg.get "role" .none
    if role.isText "system" then
      let content ← msg.get "content" (.str [])
      return (content, rest)
    else return (.none, msg :: rest)

def translateMessages : List Value → Except Exc (List Value)
  | [] => .ok []
  | msg :: rest => do
    let translated ← translateMessage msg
    let others ← translateMessages rest
    return translated :: others

/-- `_translate_anthropic_to_openai`. -/
def translateAnthropicToOpenai (settings : Settings) (body : Value) :
    Except Exc Value := do
  let messages ← body.get "messages" (.list [])
  let remaining ← messages.iterate
  let taken ← takeSystem remaining
  let openaiMessages ← translateMessages taken.2
  let messages :=
    if taken.1.truthy then message "system" taken.1 :: openaiMessages
    else openaiMessages
  let requested ← body.get "model" .none
  let model ← resolveModel settings requested
  let maxTokens ← body.get "max_tokens" (.int 1024)
  let temperature ← body.get "temperature" one
  let topP ← body.get "top_p" one
  let stream ← body.get "stream" (.bool false)
  let stop ← body.get "stop_sequences" .none
  return .dict [(text "model", model), (text "messages", .list messages),
    (text "max_tokens", maxTokens), (text "temperature", temperature),
    (text "top_p", topP), (text "stream", stream), (text "stop", stop)]

def inputContents : List Value → Except Exc (List Value)
  | [] => .ok []
  | item :: items =>
    if item.isDict then do
      let content ← item.get "content" (.str [])
      let rest ← inputContents items
      return content :: rest
    else inputContents items

def flattenInput : Value → Except Exc Value
  | .list items => do
    let contents ← inputContents items
    let joined ← join (text " ") contents
    return .str joined
  | input => .ok input

/-- `_translate_responses_to_chat`. -/
def translateResponsesToChat (settings : Settings) (body : Value) :
    Except Exc Value := do
  let input ← body.get "input" (.str [])
  let flat ← flattenInput input
  let instructions ← body.get "instructions" .none
  let messages :=
    if instructions.truthy then
      [message "system" instructions, message "user" flat]
    else [message "user" flat]
  let requested ← body.get "model" .none
  let model ← resolveModel settings requested
  let maxTokens ← body.get "max_output_tokens" (.int 1024)
  let temperature ← body.get "temperature" one
  let stream ← body.get "stream" (.bool false)
  return .dict [(text "model", model), (text "messages", .list messages),
    (text "max_tokens", maxTokens), (text "temperature", temperature),
    (text "stream", stream)]

inductive Role where
  | user
  | assistant
  | system
  deriving DecidableEq, Repr

def Role.name : Role → String
  | user => "user"
  | assistant => "assistant"
  | system => "system"

inductive Block where
  | text (content : Text)
  | toolUse (id name : Text) (input : Value)
  | toolResult (toolUseId : Text) (content : Value)
  deriving Repr

def Block.toValue : Block → Value
  | text content =>
    .dict [(Python.text "type", .str (Python.text "text")),
      (Python.text "text", .str content)]
  | toolUse id name input =>
    .dict [(Python.text "type", .str (Python.text "tool_use")),
      (Python.text "id", .str id), (Python.text "name", .str name),
      (Python.text "input", input)]
  | toolResult toolUseId content =>
    .dict [(Python.text "type", .str (Python.text "tool_result")),
      (Python.text "tool_use_id", .str toolUseId),
      (Python.text "content", content)]

inductive Content where
  | string (content : Text)
  | blocks (items : List Block)
  deriving Repr

def Content.toValue : Content → Value
  | string content => .str content
  | blocks items => .list (items.map Block.toValue)

/-- A message of a conversation; `assistant` tells its role. -/
structure Turn where
  assistant : Bool
  content : Content
  deriving Repr

def Turn.role (turn : Turn) : String :=
  if turn.assistant then "assistant" else "user"

def Turn.toValue (turn : Turn) : Value :=
  message turn.role turn.content.toValue

/-- A field that may be absent. -/
def optional (key : String) (content : Option Text) : List (Text × Value) :=
  content.toList.map fun content => (text key, .str content)

/-- An Anthropic Messages body; the other fields have other names. -/
structure MessagesBody where
  model : Option Text
  system : Option Text
  turns : List Turn
  others : List (Text × Value) := []
  fresh : ∀ entry ∈ others,
    entry.1 ∉ [text "model", text "system", text "messages"] := by simp

def MessagesBody.toValue (body : MessagesBody) : Value :=
  .dict (optional "model" body.model ++ optional "system" body.system ++
    (text "messages", .list (body.turns.map Turn.toValue)) :: body.others)

/-- The content of a Responses message: a text, or a list of text parts. -/
inductive InputContent where
  | string (content : Text)
  | parts (texts : List Text)
  deriving DecidableEq, Repr

def InputContent.toValue : InputContent → Value
  | string content => .str content
  | parts texts => .list (texts.map fun content =>
    .dict [(text "type", .str (text "input_text")), (text "text", .str content)])

def InputContent.text : InputContent → Text
  | string content => content
  | parts texts => texts.flatten

structure InputMessage where
  role : Role
  content : InputContent
  deriving DecidableEq, Repr

def InputMessage.toValue (item : InputMessage) : Value :=
  message item.role.name item.content.toValue

/-- A Responses body whose input is a list of messages; the other fields have
other names. -/
structure ResponsesBody where
  model : Option Text
  instructions : Option Text
  input : List InputMessage
  others : List (Text × Value) := []
  fresh : ∀ entry ∈ others,
    entry.1 ∉ [text "model", text "instructions", text "input"] := by simp

def ResponsesBody.toValue (body : ResponsesBody) : Value :=
  .dict (optional "model" body.model ++
    optional "instructions" body.instructions ++
    (text "input", .list (body.input.map InputMessage.toValue)) :: body.others)

theorem lookup_append (key : Text) (first second : List (Text × Value)) :
    lookup key (first ++ second) = (lookup key first).or (lookup key second) := by
  induction first with
  | nil => rfl
  | cons entry first ih =>
    simp only [List.cons_append, lookup]
    split
    · rfl
    · exact ih

theorem lookup_eq_none {key : Text} {entries : List (Text × Value)}
    (missing : ∀ entry ∈ entries, entry.1 ≠ key) : lookup key entries = none := by
  induction entries with
  | nil => rfl
  | cons entry entries ih =>
    rw [lookup, if_neg (missing entry (by simp))]
    exact ih fun other mem => missing other (by simp [mem])

theorem lookup_optional_of_ne {key other : String} (ne : text other ≠ text key)
    (content : Option Text) : lookup (text key) (optional other content) = none := by
  apply lookup_eq_none
  intro entry mem
  obtain ⟨_, _, rfl⟩ := List.mem_map.mp mem
  exact ne

theorem lookup_optional (key : String) (content : Option Text) :
    lookup (text key) (optional key content) = content.map Value.str := by
  cases content <;> simp [optional, lookup]

@[simp]
theorem get_role_message (role : String) (content default : Value) :
    (message role content).get "role" default = .ok (.str (text role)) := by
  simp [message, Value.get, lookup]

@[simp]
theorem get_content_message (role : String) (content default : Value) :
    (message role content).get "content" default = .ok content := by
  have ne : text "role" ≠ text "content" := by decide
  simp [message, Value.get, lookup, ne]

def Block.text? : Block → Option Text
  | text content => some content
  | _ => none

/-- The texts of a message, one for each text block. -/
def Content.texts : Content → List Text
  | string content => [content]
  | blocks items => items.filterMap Block.text?

/-- What the translation makes of them: one text, with a blank between two blocks. -/
def Content.joined (content : Content) : Text :=
  joinTexts (text " ") content.texts

def Content.toolBlocks : Content → List Block
  | string _ => []
  | blocks items => items.filter fun block => block.text?.isNone

def Turn.translated (turn : Turn) : Value :=
  message turn.role (.str turn.content.joined)

theorem blockTexts_toValue (blocks : List Block) :
    blockTexts (blocks.map Block.toValue) = .ok ((blocks.filterMap Block.text?).map Value.str) := by
  induction blocks with
  | nil => rfl
  | cons block blocks ih =>
    rw [List.map_cons, blockTexts, ih]
    cases block <;> rfl

theorem flattenContent_toValue (content : Content) :
    flattenContent content.toValue = .ok (.str content.joined) := by
  cases content with
  | string content =>
    simp [Content.toValue, flattenContent, Content.joined, Content.texts, joinTexts]
  | blocks items =>
    rw [Content.toValue, flattenContent, blockTexts_toValue]
    change (join _ _ >>= fun joined => pure (Value.str joined)) = _
    rw [join_map_str]
    rfl

theorem translateMessage_toValue (turn : Turn) :
    translateMessage turn.toValue = .ok turn.translated := by
  have sameRole : (if (Value.str (text turn.role)).isText "assistant" then
      "assistant" else "user") = turn.role := by
    unfold Turn.role
    cases turn.assistant <;> decide
  simp only [translateMessage, Turn.toValue, get_role_message, get_content_message,
    flattenContent_toValue, bind, Except.bind, sameRole]
  rfl

theorem translateMessages_toValue (turns : List Turn) :
    translateMessages (turns.map Turn.toValue) = .ok (turns.map Turn.translated) := by
  induction turns with
  | nil => rfl
  | cons turn turns ih =>
    rw [List.map_cons, translateMessages, translateMessage_toValue, ih]
    rfl

theorem takeSystem_toValue (turns : List Turn) :
    takeSystem (turns.map Turn.toValue) = .ok (.none, turns.map Turn.toValue) := by
  cases turns with
  | nil => rfl
  | cons turn turns =>
    have notSystem : (Value.str (text turn.role)).isText "system" = false := by
      unfold Turn.role
      cases turn.assistant <;> decide
    simp [takeSystem, Turn.toValue, notSystem, bind, Except.bind, pure, Except.pure]

def messagesOf (request : Value) : List Value :=
  match request with
  | .dict entries =>
    match lookup (text "messages") entries with
    | some (.list messages) => messages
    | _ => []
  | _ => []

theorem MessagesBody.get_messages (body : MessagesBody) : body.toValue.get "messages" (.list []) =
      .ok (.list (body.turns.map Turn.toValue)) := by
  rw [MessagesBody.toValue, Value.get, lookup_append, lookup_append,
    lookup_optional_of_ne (by decide), lookup_optional_of_ne (by decide)]
  rfl

theorem resolveModel_str (settings : Settings) (model : Option Text) :
    ∃ resolved, resolveModel settings ((model.map Value.str).getD .none) = .ok resolved := by
  cases model with
  | none => exact ⟨_, rfl⟩
  | some name =>
    unfold resolveModel
    split
    · exact ⟨_, rfl⟩
    · exact ⟨_, rfl⟩

theorem MessagesBody.get_model (body : MessagesBody) : body.toValue.get "model" .none =
      .ok ((body.model.map Value.str).getD .none) := by
  have missing : lookup (text "model") body.others = none := by
    apply lookup_eq_none
    intro entry mem same
    exact body.fresh entry mem (by simp [same])
  rw [MessagesBody.toValue, Value.get, lookup_append, lookup_append, lookup_optional,
    lookup_optional_of_ne (by decide), or_none, lookup,
    if_neg (show text "messages" ≠ text "model" by decide), missing, or_none]

theorem translateAnthropicToOpenai_toValue (settings : Settings) (body : MessagesBody) :
    ∃ req, translateAnthropicToOpenai settings body.toValue = .ok req ∧
      messagesOf req = body.turns.map Turn.translated := by
  obtain ⟨resolved, resolve⟩ := resolveModel_str settings body.model
  unfold translateAnthropicToOpenai
  rw [body.get_messages, body.get_model]
  simp only [Value.iterate, takeSystem_toValue, translateMessages_toValue, resolve,
    bind, Except.bind, MessagesBody.toValue, Value.get]
  exact ⟨_, rfl, rfl⟩

/-- Role and text of a chat message. -/
def readTurn : Value → Option (Text × Text)
  | .dict entries =>
    match lookup (text "role") entries, lookup (text "content") entries with
    | some (.str role), some (.str content) => some (role, content)
    | _, _ => none
  | _ => none

/-- The texts that are not empty. -/
def nonempty (texts : List Text) : List Text :=
  texts.filter (· ≠ [])

/-- What the user and the assistant say in a chat: each message has one text, or none
if it is empty. -/
def spoken (messages : List Value) : List (Text × List Text) :=
  ((messages.filterMap readTurn).filter fun turn =>
    turn.1 = text "user" ∨ turn.1 = text "assistant").map fun turn => (turn.1, nonempty [turn.2])

def readToolCalls : Value → List Value
  | .dict entries =>
    match lookup (text "tool_calls") entries with
    | some (.list calls) => calls
    | _ => []
  | _ => []

def readToolResult : Value → Option (Text × Value)
  | .dict entries =>
    match lookup (text "tool_call_id") entries,
        lookup (text "content") entries with
    | some (.str id), some content => some (id, content)
    | _, _ => none
  | _ => none

/-- A tool call in a chat; `dumps` writes its arguments. -/
def chatToolCall (dumps : Value → Text) (id name : Text) (input : Value) : Value :=
  .dict [(text "id", .str id), (text "type", .str (text "function")),
    (text "function", .dict [(text "name", .str name),
      (text "arguments", .str (dumps input))])]

def Block.toolCall? (dumps : Value → Text) : Block → Option Value
  | toolUse id name input => some (chatToolCall dumps id name input)
  | _ => none

def Block.toolResult? : Block → Option (Text × Value)
  | toolResult toolUseId content => some (toolUseId, content)
  | _ => none

/-- The chat messages hold the conversation of the body: its system text in front,
and in order the roles and texts of its turns, the tool calls and the results. -/
structure Keeps (dumps : Value → Text) (body : MessagesBody)
    (messages : List Value) : Prop where
  system : ∀ system, body.system = some system → system ≠ [] →
    messages.head? = some (message "system" (.str system))
  turns : spoken messages =
    body.turns.map fun turn => (text turn.role, nonempty turn.content.texts)
  toolCalls : messages.flatMap readToolCalls =
    body.turns.flatMap fun turn => turn.content.toolBlocks.filterMap (Block.toolCall? dumps)
  toolResults : messages.filterMap readToolResult =
    body.turns.flatMap fun turn => turn.content.toolBlocks.filterMap Block.toolResult?

@[simp]
theorem readTurn_message (role : String) (content : Text) :
    readTurn (message role (.str content)) = some (text role, content) := by
  have ne : text "role" ≠ text "content" := by decide
  simp [readTurn, message, lookup, ne]

@[simp]
theorem readToolCalls_message (role : String) (content : Value) :
    readToolCalls (message role content) = [] := by
  have first : text "role" ≠ text "tool_calls" := by decide
  have second : text "content" ≠ text "tool_calls" := by decide
  simp [readToolCalls, message, lookup, first, second]

@[simp]
theorem readToolResult_message (role : String) (content : Value) :
    readToolResult (message role content) = none := by
  have first : text "role" ≠ text "tool_call_id" := by decide
  have second : text "content" ≠ text "tool_call_id" := by decide
  simp [readToolResult, message, lookup, first, second]

theorem spoken_translated (turns : List Turn) : spoken (turns.map Turn.translated) =
      turns.map fun turn => (text turn.role, nonempty [turn.content.joined]) := by
  have named : ∀ turn : Turn, text turn.role = text "user" ∨ text turn.role = text "assistant" := by
    intro turn
    unfold Turn.role
    cases turn.assistant <;> simp
  induction turns with
  | nil => rfl
  | cons turn turns ih =>
    unfold spoken at ih ⊢
    have readHead : readTurn turn.translated = some (text turn.role, turn.content.joined) :=
      readTurn_message _ _
    rw [List.map_cons, List.filterMap_cons_some readHead,
      List.filter_cons_of_pos (by simpa using named turn), List.map_cons, ih, List.map_cons]

theorem joinTexts_cons_cons (separator first second : Text) (texts : List Text) :
    joinTexts separator (first :: second :: texts) =
      first ++ (separator ++ joinTexts separator (second :: texts)) := by
  simp [joinTexts]

theorem length_le_joinTexts {separator content : Text} {texts : List Text}
    (mem : content ∈ texts) : content.length ≤ (joinTexts separator texts).length := by
  induction texts with
  | nil => cases mem
  | cons first texts ih =>
    cases texts with
    | nil => simp_all [joinTexts]
    | cons second texts =>
      rw [joinTexts_cons_cons, List.length_append, List.length_append]
      rcases List.mem_cons.mp mem with rfl | mem
      · omega
      · have := ih mem
        omega

/-- The texts of several blocks are not the one text that is made of them. -/
theorem nonempty_joinTexts_iff (texts : List Text) :
    nonempty [joinTexts (text " ") texts] = nonempty texts ↔ texts.length ≤ 1 := by
  match texts with
  | [] => simp [nonempty, joinTexts]
  | [content] => simp [nonempty, joinTexts]
  | first :: second :: rest =>
    refine iff_of_false (fun same => ?_) (by simp)
    have longer : ∀ content ∈ first :: second :: rest,
        content.length < (joinTexts (text " ") (first :: second :: rest)).length := by
      intro content mem
      rw [joinTexts_cons_cons, List.length_append, List.length_append,
        show (text " ").length = 1 from rfl]
      rcases List.mem_cons.mp mem with rfl | mem
      · omega
      · have := @length_le_joinTexts (text " ") _ _ mem
        omega
    -- The joined text is not empty, so it would be one of the texts.
    have ne : joinTexts (text " ") (first :: second :: rest) ≠ [] :=
      List.ne_nil_of_length_pos (Nat.zero_lt_of_lt (longer first (by simp)))
    have listed : joinTexts (text " ") (first :: second :: rest) ∈
        nonempty (first :: second :: rest) := by
      rw [← same]
      simp [nonempty, ne]
    exact Nat.lt_irrefl _ (longer _ (List.mem_filter.mp listed).1)

theorem flatMap_readToolCalls_translated (turns : List Turn) :
    (turns.map Turn.translated).flatMap readToolCalls = [] := by
  simp [Turn.translated]

theorem filterMap_readToolResult_translated (turns : List Turn) :
    (turns.map Turn.translated).filterMap readToolResult = [] := by
  simp [Turn.translated]

theorem toolBlocks_eq_nil_iff (dumps : Value → Text) (content : Content) :
    content.toolBlocks = [] ↔ content.toolBlocks.filterMap (Block.toolCall? dumps) = [] ∧
        content.toolBlocks.filterMap Block.toolResult? = [] := by
  constructor
  · intro empty
    simp [empty]
  · rintro ⟨noCalls, noResults⟩
    rw [List.filterMap_eq_nil_iff] at noCalls noResults
    apply List.eq_nil_iff_forall_not_mem.mpr
    intro block mem
    cases block with
    | toolUse id name input => cases noCalls _ mem
    | toolResult id result => cases noResults _ mem
    | text shown =>
      cases content with
      | string => cases mem
      | blocks items => simp [Content.toolBlocks, Block.text?] at mem

theorem head?_translated_ne_system (turns : List Turn) (content : Value) :
    (turns.map Turn.translated).head? ≠ some (message "system" content) := by
  cases turns with
  | nil => simp
  | cons turn turns =>
    have ne : text turn.role ≠ text "system" := by
      unfold Turn.role
      cases turn.assistant <;> decide
    simp [Turn.translated, message, ne]

/-- The conversation is kept exactly when the body has no system text, no tool blocks,
and no message with several text blocks. -/
theorem keeps_iff (settings : Settings) (dumps : Value → Text) (body : MessagesBody) :
    (∃ request, translateAnthropicToOpenai settings body.toValue = .ok request ∧
        Keeps dumps body (messagesOf request)) ↔
      (∀ system, body.system = some system → system = []) ∧
        ∀ turn ∈ body.turns, turn.content.toolBlocks = [] ∧ turn.content.texts.length ≤ 1 := by
  obtain ⟨request, translated, messages⟩ := translateAnthropicToOpenai_toValue settings body
  have inside : (∃ request, translateAnthropicToOpenai settings body.toValue =
        .ok request ∧ Keeps dumps body (messagesOf request)) ↔
      Keeps dumps body (body.turns.map Turn.translated) := by
    rw [translated, ← messages]
    simp
  rw [inside]
  constructor
  · intro keeps
    constructor
    · intro system present
      by_contra nonempty
      exact head?_translated_ne_system _ _ (keeps.system system present nonempty)
    · have calls := keeps.toolCalls
      have results := keeps.toolResults
      rw [flatMap_readToolCalls_translated, eq_comm, List.flatMap_eq_nil_iff] at calls
      rw [filterMap_readToolResult_translated, eq_comm, List.flatMap_eq_nil_iff] at results
      have turns := (spoken_translated body.turns).symm.trans keeps.turns
      rw [List.map_inj_left] at turns
      intro turn member
      exact ⟨(toolBlocks_eq_nil_iff dumps _).mpr ⟨calls turn member, results turn member⟩,
        (nonempty_joinTexts_iff _).mp (congrArg Prod.snd (turns turn member))⟩
  · rintro ⟨noSystem, plain⟩
    exact {
      system := fun system present nonempty => (nonempty (noSystem system present)).elim
      turns := by
        rw [spoken_translated, List.map_inj_left]
        intro turn member
        exact congrArg _ ((nonempty_joinTexts_iff _).mpr (plain turn member).2)
      toolCalls := by
        rw [flatMap_readToolCalls_translated, eq_comm, List.flatMap_eq_nil_iff]
        intro turn member
        rw [(plain turn member).1, List.filterMap_nil]
      toolResults := by
        rw [filterMap_readToolResult_translated, eq_comm, List.flatMap_eq_nil_iff]
        intro turn member
        rw [(plain turn member).1, List.filterMap_nil] }

/-- Two bodies that differ in the system text and in a tool call. -/
def bareBody : MessagesBody where
  model := none
  system := none
  turns := [⟨true, .blocks []⟩]

def richBody : MessagesBody where
  model := none
  system := some (text "Be brief.")
  turns := [⟨true, .blocks [.toolUse (text "t1") (text "ls") (.dict [])]⟩]

def plainSettings : Settings where
  servedModel := text "deepseek-v4-flash"
  modelAliases := []

/-- Neither the system text nor the tool call can be told from the request. -/
theorem richBody_not_kept : translateAnthropicToOpenai plainSettings richBody.toValue =
        translateAnthropicToOpenai plainSettings bareBody.toValue ∧
      ¬ ∃ request, translateAnthropicToOpenai plainSettings richBody.toValue = .ok request ∧
          Keeps (fun _ => []) richBody (messagesOf request) := by
  refine ⟨rfl, ?_⟩
  rintro ⟨request, translated, keeps⟩
  obtain ⟨other, translatedOther, messages⟩ :=
    translateAnthropicToOpenai_toValue plainSettings richBody
  rw [translated, Except.ok.injEq] at translatedOther
  subst other
  rw [messages] at keeps
  exact head?_translated_ne_system _ _ (keeps.system _ rfl (by decide))

theorem InputMessage.isDict_toValue (item : InputMessage) : item.toValue.isDict = true :=
  rfl

theorem inputContents_toValue (items : List InputMessage) :
    inputContents (items.map InputMessage.toValue) =
      .ok (items.map fun item => item.content.toValue) := by
  induction items with
  | nil => rfl
  | cons item items ih =>
    rw [List.map_cons, inputContents, if_pos item.isDict_toValue, ih,
      InputMessage.toValue, get_content_message]
    rfl

variable {items : List InputMessage}

theorem flattenInput_of_parts {item : InputMessage}
    {texts : List Text} (mem : item ∈ items) (isParts : item.content = .parts texts) :
    ∃ error, flattenInput (.list (items.map InputMessage.toValue)) = .error error := by
  have inContents : item.content.toValue ∈ items.map fun item => item.content.toValue :=
    List.mem_map_of_mem mem
  obtain ⟨error, failed⟩ := @join_eq_error_of_mem (text " ") _ _ inContents
    (by rw [isParts]; intro content same; cases same)
  refine ⟨error, ?_⟩
  rw [flattenInput, inputContents_toValue]
  change (join _ _ >>= fun joined => pure (Value.str joined)) = _
  rw [failed]
  rfl

/-- The texts of all messages in one. -/
def joinedInput (items : List InputMessage) : Text :=
  joinTexts (text " ") (items.map fun item => item.content.text)

theorem flattenInput_of_strings
    (strings : ∀ item ∈ items, ∃ content, item.content = .string content) :
    flattenInput (.list (items.map InputMessage.toValue)) = .ok (.str (joinedInput items)) := by
  have contents : items.map (fun item => item.content.toValue) =
      (items.map fun item => item.content.text).map Value.str := by
    rw [List.map_map]
    apply List.map_congr_left
    intro item mem
    obtain ⟨content, isString⟩ := strings item mem
    simp [isString, InputContent.toValue, InputContent.text]
  rw [flattenInput, inputContents_toValue, contents]
  change (join _ _ >>= fun joined => pure (Value.str joined)) = _
  rw [join_map_str]
  rfl

variable (body : ResponsesBody)

include body

theorem ResponsesBody.get_input : body.toValue.get "input" (.str []) =
      .ok (.list (body.input.map InputMessage.toValue)) := by
  rw [ResponsesBody.toValue, Value.get, lookup_append, lookup_append,
    lookup_optional_of_ne (by decide), lookup_optional_of_ne (by decide)]
  rfl

theorem ResponsesBody.lookup_others {key : String}
    (reserved : text key ∈ [text "model", text "instructions", text "input"])
    (ne : text "input" ≠ text key) : lookup (text key) ((text "input",
      .list (body.input.map InputMessage.toValue)) :: body.others) = none := by
  rw [lookup, if_neg ne]
  apply lookup_eq_none
  intro entry mem same
  exact body.fresh entry mem (same ▸ reserved)

theorem ResponsesBody.get_model : body.toValue.get "model" .none =
      .ok ((body.model.map Value.str).getD .none) := by
  rw [ResponsesBody.toValue, Value.get, lookup_append, lookup_append, lookup_optional,
    lookup_optional_of_ne (by decide), or_none,
    body.lookup_others (by simp) (by decide), or_none]

theorem ResponsesBody.get_instructions : body.toValue.get "instructions" .none =
      .ok ((body.instructions.map Value.str).getD .none) := by
  rw [ResponsesBody.toValue, Value.get, lookup_append, lookup_append,
    lookup_optional_of_ne (by decide), lookup_optional, none_or,
    body.lookup_others (by simp) (by decide), or_none]

omit body

def ResponsesBody.systemMessages (body : ResponsesBody) : List Value :=
  match body.instructions with
  | some (point :: points) => [message "system" (.str (point :: points))]
  | _ => []

def ResponsesBody.keptMessages (body : ResponsesBody) : List Value :=
  body.systemMessages ++ body.input.map fun item => message item.role.name (.str item.content.text)

theorem translateResponsesToChat_of_parts {body : ResponsesBody}
    {item : InputMessage} {texts : List Text} (settings : Settings)
    (mem : item ∈ body.input) (isParts : item.content = .parts texts) :
    ∃ error, translateResponsesToChat settings body.toValue = .error error := by
  obtain ⟨error, failed⟩ := flattenInput_of_parts mem isParts
  refine ⟨error, ?_⟩
  rw [translateResponsesToChat, body.get_input]
  change (flattenInput _ >>= _) = _
  rw [failed]
  rfl

theorem translateResponsesToChat_of_strings {body : ResponsesBody} (settings : Settings)
    (strings : ∀ item ∈ body.input, ∃ content, item.content = .string content) :
    ∃ request, translateResponsesToChat settings body.toValue = .ok request ∧ messagesOf request =
        body.systemMessages ++ [message "user" (.str (joinedInput body.input))] := by
  obtain ⟨resolved, resolve⟩ := resolveModel_str settings body.model
  have messages : (if ((body.instructions.map Value.str).getD .none).truthy then
        [message "system" ((body.instructions.map Value.str).getD .none),
          message "user" (.str (joinedInput body.input))]
      else [message "user" (.str (joinedInput body.input))]) =
      body.systemMessages ++ [message "user" (.str (joinedInput body.input))] := by
    unfold ResponsesBody.systemMessages
    match body.instructions with
    | none => rfl
    | some [] => rfl
    | some (point :: points) => rfl
  rw [← messages, translateResponsesToChat, body.get_input, body.get_model, body.get_instructions]
  simp only [flattenInput_of_strings strings, resolve, bind, Except.bind,
    ResponsesBody.toValue, Value.get]
  exact ⟨_, rfl, rfl⟩

theorem kept_iff_of_strings (strings : ∀ item ∈ items, ∃ content, item.content = .string content) :
    [message "user" (.str (joinedInput items))] =
        items.map (fun item => message item.role.name (.str item.content.text)) ↔
      ∃ content, items = [⟨.user, .string content⟩] := by
  constructor
  · intro same
    obtain ⟨⟨role, content⟩, rfl⟩ : ∃ item, items = [item] := by
      apply List.length_eq_one_iff.mp
      simpa using (congrArg List.length same).symm
    obtain ⟨content, rfl⟩ := strings _ (List.mem_singleton_self _)
    have sameRole : text "user" = text role.name := by
      have sameMessage := (List.cons.inj same).1
      simp only [message, Value.dict.injEq, List.cons.injEq, Prod.mk.injEq,
        Value.str.injEq] at sameMessage
      exact sameMessage.1.2
    refine ⟨content, ?_⟩
    cases role with
    | user => rfl
    | assistant => exact absurd sameRole (by decide)
    | system => exact absurd sameRole (by decide)
  · rintro ⟨content, rfl⟩
    simp [joinedInput, joinTexts, InputContent.text, Role.name]

/-- The turns are kept exactly when the input is a single user message whose content
is a string. -/
theorem keptMessages_iff (settings : Settings) (body : ResponsesBody) :
    (∃ request, translateResponsesToChat settings body.toValue = .ok request ∧
        messagesOf request = body.keptMessages) ↔
      ∃ content, body.input = [⟨.user, .string content⟩] := by
  by_cases strings : ∀ item ∈ body.input, ∃ content, item.content = .string content
  · obtain ⟨request, translated, messages⟩ := translateResponsesToChat_of_strings settings strings
    rw [← kept_iff_of_strings strings, translated]
    simp [messages, ResponsesBody.keptMessages]
  · have parts : ∃ item ∈ body.input, ∃ texts, item.content = .parts texts := by
      push Not at strings
      obtain ⟨item, member, notString⟩ := strings
      refine ⟨item, member, ?_⟩
      cases content : item.content with
      | string text => exact (notString text content).elim
      | parts texts => exact ⟨texts, rfl⟩
    obtain ⟨item, member, texts, isParts⟩ := parts
    obtain ⟨error, failed⟩ := translateResponsesToChat_of_parts settings member isParts
    rw [failed]
    constructor
    · rintro ⟨_, impossible, _⟩
      cases impossible
    · intro single
      exact absurd (fun other otherMember => by
        obtain ⟨content, single⟩ := single
        rw [single, List.mem_singleton] at otherMember
        exact ⟨content, by rw [otherMember]⟩) strings

/-- A question, an answer and a question. -/
def threeTurns : ResponsesBody where
  model := none
  instructions := none
  input := [⟨.user, .string (text "Hi")⟩, ⟨.assistant, .string (text "Hello")⟩,
    ⟨.user, .string (text "Bye")⟩]

theorem threeTurns_not_kept :
    ∃ request, translateResponsesToChat plainSettings threeTurns.toValue = .ok request ∧
        messagesOf request = [message "user" (.str (text "Hi Hello Bye"))] ∧
        messagesOf request ≠ threeTurns.keptMessages := by
  obtain ⟨request, translated, messages⟩ :=
    @translateResponsesToChat_of_strings threeTurns plainSettings (by simp [threeTurns])
  refine ⟨request, translated, messages.trans rfl, ?_⟩
  rw [messages]
  intro same
  exact absurd (congrArg List.length same) (by decide)

end LnaLang.Gateway
