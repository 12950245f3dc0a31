import LnaLang.DsmlParser

/-!
# The prompt of a chat

`render_chat_prompt_text` writes the messages of a chat as one text.  The system
messages and the tool schemas come first.  How an earlier assistant message is
written depends on whether the chat uses tools and on where its last user message
stands.
-/

namespace LnaLang.Chat

open List

/-- `ds4_think_mode`. -/
inductive ThinkMode where
  | none
  | high
  | max
  deriving DecidableEq, Repr

/-- `ds4_think_mode_enabled`. -/
def ThinkMode.enabled : ThinkMode → Bool
  | none => false
  | high => true
  | max => true

inductive Role where
  | system
  | developer
  | user
  | tool
  | function
  | assistant
  | other (name : Bytes)
  deriving DecidableEq, Repr

/-- `role_is_system`. -/
def Role.isSystem : Role → Bool
  | system => true
  | developer => true
  | _ => false

/-- `role_is_user_like`. -/
def Role.isUserLike : Role → Bool
  | user => true
  | tool => true
  | function => true
  | _ => false

/-- `tool_call`. -/
structure Call extends Dsml.ToolCall where
  id : Option Bytes
  deriving DecidableEq, Repr

/-- `tool_calls`. -/
structure ToolCalls where
  list : List Call
  rawDsml : Option Bytes
  deriving DecidableEq, Repr

/-- `chat_msg`, as far as the renderer reads it. -/
structure ChatMsg where
  role : Role
  content : Option Bytes
  reasoning : Option Bytes
  calls : ToolCalls
  deriving DecidableEq, Repr

/-- `append_dsml_tool_calls_text`. -/
def dsmlToolCallsText (calls : ToolCalls) : Bytes :=
  if calls.list = [] then []
  else
    match calls.rawDsml with
    | some (byte :: raw) => byte :: raw
    | _ =>
      utf8 "\n\n<｜DSML｜tool_calls>\n" ++
        calls.list.flatMap (fun call => Dsml.dsmlInvoke call.name call.arguments) ++
        utf8 "</｜DSML｜tool_calls>"

def beginOfSentence : Bytes := utf8 "<｜begin▁of▁sentence｜>"

def endOfSentence : Bytes := utf8 "<｜end▁of▁sentence｜>"

def userMark : Bytes := utf8 "<｜User｜>"

def assistantMark : Bytes := utf8 "<｜Assistant｜>"

/-- `DS4_REASONING_EFFORT_MAX_PREFIX`. -/
def thinkMaxText : Bytes := utf8
  ("Reasoning Effort: Absolute maximum with no shortcuts permitted.\n" ++
   "You MUST be very thorough in your thinking and comprehensively decompose " ++
   "the problem to resolve the root cause, rigorously stress-testing your logic " ++
   "against all potential paths, edge cases, and adversarial scenarios.\n" ++
   "Explicitly write out your entire deliberation process, documenting every " ++
   "intermediate step, considered alternative, and rejected hypothesis to ensure " ++
   "absolutely no assumption is left unchecked.\n\n")

/-- The instructions in front of the schemas. -/
def toolsIntroduction : Bytes := utf8 "## Tools\n\n" ++ utf8
  ("You have access to a set of tools to help answer the user question. " ++
   "You can invoke tools by writing a \"<｜DSML｜tool_calls>\" block like the " ++
   "following:\n\n" ++
   "<｜DSML｜tool_calls>\n" ++
   "<｜DSML｜invoke name=\"$TOOL_NAME\">\n" ++
   "<｜DSML｜parameter name=\"$PARAMETER_NAME\" string=\"true|false\">" ++
   "$PARAMETER_VALUE</｜DSML｜parameter>\n" ++
   "...\n" ++
   "</｜DSML｜invoke>\n" ++
   "<｜DSML｜invoke name=\"$TOOL_NAME2\">\n" ++
   "...\n" ++
   "</｜DSML｜invoke>\n" ++
   "</｜DSML｜tool_calls>\n\n" ++
   "String parameters should be specified as raw text and set " ++
   "`string=\"true\"`. " ++
   "Preserve characters such as `>`, `&`, and `&&` exactly; never replace " ++
   "normal string characters with XML or HTML entity escapes. " ++
   "Only if a string value itself contains the exact closing parameter tag " ++
   "`</｜DSML｜parameter>`, write that tag as `&lt;/｜DSML｜parameter>` inside the " ++
   "value. " ++
   "For all other types (numbers, booleans, arrays, objects), pass the value in " ++
   "JSON format and set `string=\"false\"`.\n\n" ++
   "If thinking_mode is enabled (triggered by <think>), you MUST output your " ++
   "complete reasoning inside <think>...</think> BEFORE any tool calls or final " ++
   "response.\n\n" ++
   "Otherwise, output directly after </think> with tool calls or final " ++
   "response.\n\n" ++
   "### Available Tool Schemas\n\n")

/-- The instructions behind the schemas. -/
def toolsConclusion : Bytes := utf8
  ("\n\nYou MUST strictly follow the above defined tool name and parameter " ++
   "schemas to invoke tool calls. " ++
   "Use the exact parameter names from the schemas.")

/-- `append_tools_prompt_text`. -/
def toolsPromptText (toolSchemas : Bytes) : Bytes :=
  if toolSchemas = [] then []
  else toolsIntroduction ++ toolSchemas ++ toolsConclusion

def ChatMsg.usesTools (msg : ChatMsg) : Bool :=
  match msg.role with
  | .assistant => !msg.calls.list.isEmpty
  | .tool => true
  | .function => true
  | _ => false

/-- `chat_history_uses_tool_context`. -/
def chatHistoryUsesToolContext (msgs : List ChatMsg) (toolSchemas : Bytes) : Bool :=
  toolSchemas ≠ [] || msgs.any ChatMsg.usesTools

/-- Text goes behind a blank line if something stands before it. -/
def separated (text : Bytes) : Bytes :=
  if text = [] then [] else text ++ utf8 "\n\n"

def systemMessages (msgs : List ChatMsg) : Bytes :=
  msgs.foldl (fun system msg =>
    if msg.role.isSystem then separated system ++ msg.content.getD [] else system) []

/-- The text `system`. -/
def systemText (msgs : List ChatMsg) (toolSchemas : Bytes) : Bytes :=
  if toolSchemas = [] then systemMessages msgs
  else separated (systemMessages msgs) ++ toolsPromptText toolSchemas

/-- `last_user_idx`. -/
def lastUserIdx (msgs : List ChatMsg) : Int :=
  msgs.zipIdx.foldl (fun last item => if item.1.role.isUserLike then (item.2 : Int) else last) (-1)

/-- The loop over the messages: the text so far, and the two flags. -/
structure Rendering where
  out : Bytes
  pendingAssistant : Bool
  pendingToolResult : Bool
  deriving DecidableEq, Repr

/-- What is written for the reasoning of an assistant message: all of it, or only
its end. -/
def reasoningText (keepsReasoning : Bool) (msg : ChatMsg) : Bytes :=
  if keepsReasoning then
    Dsml.thinkOpen ++ msg.reasoning.getD [] ++ Dsml.thinkClose
  else Dsml.thinkClose

/-- The body of the loop for a message at a place where an assistant message keeps
its reasoning or not. -/
def renderMsg (keepsReasoning : Bool) (state : Rendering) (msg : ChatMsg) : Rendering :=
  match msg.role with
  | .system => state
  | .developer => state
  | .other _ => state
  | .user => ⟨state.out ++ userMark ++ msg.content.getD [], true, false⟩
  | .tool | .function =>
    ⟨state.out ++ (if state.pendingToolResult then [] else userMark) ++
      utf8 "<tool_result>" ++ Dsml.textEscaped (msg.content.getD []) ++
      utf8 "</tool_result>", true, true⟩
  | .assistant =>
    ⟨state.out ++ (if state.pendingAssistant then
        assistantMark ++ reasoningText keepsReasoning msg
      else []) ++
      msg.content.getD [] ++ dsmlToolCallsText msg.calls ++ endOfSentence,
      false, false⟩

/-- The loop over the messages. -/
def renderMsgs (think toolContext : Bool) (last : Int) (state : Rendering)
    (items : List (ChatMsg × Nat)) : Rendering :=
  items.foldl (fun state item =>
    renderMsg (think && (toolContext || decide (last < item.2))) state item.1) state

/-- The text in front of the messages. -/
def promptHead (msgs : List ChatMsg) (toolSchemas : Bytes) (mode : ThinkMode) : Bytes :=
  beginOfSentence ++ (if mode = .max then thinkMaxText else []) ++ systemText msgs toolSchemas

/-- The state behind the loop. -/
def rendered (msgs : List ChatMsg) (toolSchemas : Bytes) (mode : ThinkMode) : Rendering :=
  renderMsgs mode.enabled (chatHistoryUsesToolContext msgs toolSchemas)
    (lastUserIdx msgs) ⟨promptHead msgs toolSchemas mode, false, false⟩ msgs.zipIdx

/-- The start of the answer that the prompt asks for. -/
def openTurn (mode : ThinkMode) : Bytes :=
  assistantMark ++ if mode.enabled then Dsml.thinkOpen else Dsml.thinkClose

/-- `render_chat_prompt_text`. -/
def renderChatPromptText (msgs : List ChatMsg) (toolSchemas : Bytes) (mode : ThinkMode) : Bytes :=
  (rendered msgs toolSchemas mode).out ++
    if (rendered msgs toolSchemas mode).pendingAssistant then openTurn mode else []

theorem systemMessages_append {more : List ChatMsg}
    (noSystem : ∀ msg ∈ more, msg.role.isSystem = false) (msgs : List ChatMsg) :
    systemMessages (msgs ++ more) = systemMessages msgs := by
  unfold systemMessages
  rw [foldl_append]
  generalize List.foldl _ _ msgs = system
  induction more with
  | nil => rfl
  | cons msg more ih =>
    rw [foldl_cons, noSystem msg mem_cons_self]
    exact ih fun later mem => noSystem later (mem_cons_of_mem _ mem)

theorem promptHead_append {more : List ChatMsg} (noSystem : ∀ msg ∈ more, msg.role.isSystem = false)
    (msgs : List ChatMsg) (toolSchemas : Bytes) (mode : ThinkMode) :
    promptHead (msgs ++ more) toolSchemas mode = promptHead msgs toolSchemas mode := by
  simp only [promptHead, systemText, systemMessages_append noSystem]

theorem lastUserIdx_concat (msgs : List ChatMsg) (msg : ChatMsg) : lastUserIdx (msgs ++ [msg]) =
      if msg.role.isUserLike then (msgs.length : Int) else lastUserIdx msgs := by
  simp [lastUserIdx, zipIdx_append]

theorem lastUserIdx_lt (msgs : List ChatMsg) : lastUserIdx msgs < msgs.length := by
  induction msgs using List.reverseRecOn with
  | nil => decide
  | append_singleton msgs msg ih =>
    rw [lastUserIdx_concat, length_append]
    rw [length_singleton]
    split <;> omega

theorem renderMsgs_append (think toolContext : Bool) (last : Int) (state : Rendering)
    (items more : List (ChatMsg × Nat)) :
    renderMsgs think toolContext last state (items ++ more) = renderMsgs think toolContext last
        (renderMsgs think toolContext last state items) more :=
  foldl_append

theorem renderMsg_congr {one other : Bool} {msg : ChatMsg}
    (same : msg.role = .assistant → one = other) (state : Rendering) :
    renderMsg one state msg = renderMsg other state msg := by
  unfold renderMsg
  split <;> try rfl
  rename_i isAssistant
  rw [same isAssistant]

theorem renderMsgs_congr {think toolContext one : Bool} {last lastOne : Int}
    {items : List (ChatMsg × Nat)}
    (same : ∀ item ∈ items, item.1.role = .assistant → (toolContext || decide (last < item.2)) =
        (one || decide (lastOne < item.2))) (state : Rendering) :
    renderMsgs think toolContext last state items = renderMsgs think one lastOne state items := by
  unfold renderMsgs
  apply foldl_ext
  intro state item mem
  apply renderMsg_congr
  intro isAssistant
  rw [same item mem isAssistant]

theorem prefix_renderMsg (keepsReasoning : Bool) (state : Rendering)
    (msg : ChatMsg) : state.out <+: (renderMsg keepsReasoning state msg).out := by
  unfold renderMsg
  split <;> simp [append_assoc]

theorem prefix_renderMsgs (think toolContext : Bool) (last : Int) (items : List (ChatMsg × Nat))
    (state : Rendering) : state.out <+: (renderMsgs think toolContext last state items).out := by
  induction items generalizing state with
  | nil => exact prefix_rfl
  | cons item items ih => exact (prefix_renderMsg _ state item.1).trans (ih _)

theorem prefix_promptHead (msgs : List ChatMsg) (toolSchemas : Bytes) (mode : ThinkMode) :
    promptHead msgs toolSchemas mode <+: renderChatPromptText msgs toolSchemas mode :=
  (prefix_renderMsgs mode.enabled (chatHistoryUsesToolContext msgs toolSchemas)
    (lastUserIdx msgs) msgs.zipIdx
    ⟨promptHead msgs toolSchemas mode, false, false⟩).trans (prefix_append _ _)

theorem pending_renderMsg {keepsReasoning : Bool} {state : Rendering} {msg : ChatMsg}
    (pending : (renderMsg keepsReasoning state msg).pendingAssistant = true)
    (notUserLike : ¬ msg.role.isUserLike) :
    msg.role ≠ .assistant ∧ state.pendingAssistant = true := by
  unfold renderMsg at pending
  split at pending <;> simp_all [Role.isUserLike]

theorem lt_lastUserIdx_of_pending (think toolContext : Bool) (last : Int)
    (start : Rendering) (msgs : List ChatMsg)
    (pending : (renderMsgs think toolContext last start msgs.zipIdx).pendingAssistant = true) :
    ∀ item ∈ msgs.zipIdx, item.1.role = .assistant → (item.2 : Int) < lastUserIdx msgs := by
  induction msgs using List.reverseRecOn with
  | nil => simp
  | append_singleton msgs msg ih =>
    intro item mem isAssistant
    rw [zipIdx_append, renderMsgs_append] at pending
    rw [zipIdx_append, mem_append] at mem
    rw [lastUserIdx_concat]
    rw [zipIdx_singleton, Nat.zero_add, mem_singleton] at mem
    by_cases userLike : msg.role.isUserLike
    · -- Everything before a user message stands before the last one.
      rw [if_pos userLike]
      rcases mem with mem | rfl
      · have := (mem_zipIdx' mem).1
        omega
      · rw [isAssistant] at userLike
        simp [Role.isUserLike] at userLike
    · rw [if_neg userLike]
      obtain ⟨notAssistant, before⟩ := pending_renderMsg pending userLike
      rcases mem with mem | rfl
      · exact ih before item mem isAssistant
      · exact absurd isAssistant notAssistant

end LnaLang.Chat
