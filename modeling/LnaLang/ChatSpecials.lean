import LnaLang.ChatPrompt
import LnaLang.SpecialTokens

/-!
# Special tokens and tool results

The renderer escapes the angle brackets of a tool result, and six of the seven special
tokens start with one.  The only special token that a tool result can bring into a
prompt is `｜DSML｜`, and it does so whenever the result contains that text.
-/

namespace LnaLang.Chat

open List

open Dsml

def Role.isTool : Role → Bool
  | tool => true
  | function => true
  | _ => false

def ChatMsg.withoutResult (msg : ChatMsg) : ChatMsg :=
  if msg.role.isTool then { msg with content := none } else msg

/-- Two histories that differ only in the contents of their tool messages. -/
def SameButResults (msgs others : List ChatMsg) : Prop :=
  msgs.map ChatMsg.withoutResult = others.map ChatMsg.withoutResult

def toolResult (msg : ChatMsg) : Bytes :=
  utf8 "<tool_result>" ++ textEscaped (msg.content.getD []) ++ utf8 "</tool_result>"

theorem role_withoutResult (msg : ChatMsg) : msg.withoutResult.role = msg.role := by
  unfold ChatMsg.withoutResult
  split <;> rfl

theorem withoutResult_of_not_isTool {msg : ChatMsg} (other : msg.role.isTool = false) :
    msg.withoutResult = msg := by
  rw [ChatMsg.withoutResult, if_neg (by rw [other]; exact Bool.false_ne_true)]

theorem withoutResult_withoutResult (msg : ChatMsg) :
    msg.withoutResult.withoutResult = msg.withoutResult := by
  cases isTool : msg.role.isTool with
  | true =>
    rw [ChatMsg.withoutResult, ChatMsg.withoutResult, if_pos isTool]
    exact if_pos isTool
  | false => rw [withoutResult_of_not_isTool isTool, withoutResult_of_not_isTool isTool]

theorem systemMessages_withoutResult (msgs : List ChatMsg) :
    systemMessages (msgs.map ChatMsg.withoutResult) = systemMessages msgs := by
  unfold systemMessages
  rw [foldl_map]
  congr 1
  funext system msg
  rw [role_withoutResult]
  split
  next isSystem =>
    rw [withoutResult_of_not_isTool]
    cases role : msg.role with
    | tool =>
      rw [role] at isSystem
      cases isSystem
    | function =>
      rw [role] at isSystem
      cases isSystem
    | _ => rfl
  · rfl

theorem lastUserIdx_withoutResult (msgs : List ChatMsg) :
    lastUserIdx (msgs.map ChatMsg.withoutResult) = lastUserIdx msgs := by
  unfold lastUserIdx
  rw [zipIdx_map, foldl_map]
  simp only [Prod.map_fst, role_withoutResult, Prod.map_snd, id_eq]

theorem usesTools_withoutResult (msg : ChatMsg) : msg.withoutResult.usesTools = msg.usesTools := by
  unfold ChatMsg.withoutResult
  split <;> rfl

theorem usesToolContext_withoutResult (msgs : List ChatMsg) (toolSchemas : Bytes) :
    chatHistoryUsesToolContext (msgs.map ChatMsg.withoutResult) toolSchemas =
      chatHistoryUsesToolContext msgs toolSchemas := by
  unfold chatHistoryUsesToolContext
  rw [any_map]
  simp only [Function.comp_def, usesTools_withoutResult]

section Relating

variable {relates : Nat → Bytes → Bytes → Prop} {weight : ChatMsg → Nat}

/-- How much a message adds. -/
def resultWeight (weight : ChatMsg → Nat) (msg : ChatMsg) : Nat :=
  if msg.role.isTool then weight msg else 0

def RelatedStates (relates : Nat → Bytes → Bytes → Prop) (count : Nat)
    (state other : Rendering) : Prop :=
  relates count state.out other.out ∧ state.pendingAssistant = other.pendingAssistant ∧
    state.pendingToolResult = other.pendingToolResult

theorem related_renderMsg (append : ∀ {n text other} (more : Bytes), relates n text other →
      relates n (text ++ more) (other ++ more))
    {one second : ChatMsg} (same : one.withoutResult = second.withoutResult)
    (tool : one.role.isTool = true → ∀ {n text other}, relates n text other →
      relates (n + weight one) (text ++ toolResult one) (other ++ toolResult second))
    {n : Nat} {state other : Rendering} (keepsReasoning : Bool)
    (related : RelatedStates relates n state other) :
    RelatedStates relates (n + resultWeight weight one)
      (renderMsg keepsReasoning state one) (renderMsg keepsReasoning other second) := by
  obtain ⟨texts, assistants, results⟩ := related
  have roles : one.role = second.role := by rw [← role_withoutResult one, same, role_withoutResult]
  cases isTool : one.role.isTool with
  | false =>
    have equal : one = second := by
      rw [← withoutResult_of_not_isTool isTool, same,
        withoutResult_of_not_isTool (by rw [← roles]; exact isTool)]
    rw [resultWeight, isTool, ← equal]
    unfold renderMsg
    cases role : one.role with
    | user => exact ⟨append _ (append _ texts), rfl, rfl⟩
    | assistant =>
      dsimp only
      rw [assistants]
      exact ⟨append _ (append _ (append _ (append _ texts))), rfl, rfl⟩
    | tool =>
      rw [role] at isTool
      cases isTool
    | function =>
      rw [role] at isTool
      cases isTool
    | _ => exact ⟨texts, assistants, results⟩
  | true =>
    have written (state : Rendering) (msg : ChatMsg) (isTool : msg.role.isTool = true) :
        renderMsg keepsReasoning state msg =
          ⟨state.out ++ (if state.pendingToolResult then [] else userMark) ++
            toolResult msg, true, true⟩ := by
      unfold renderMsg toolResult
      cases role : msg.role with
      | tool => simp only [append_assoc]
      | function => simp only [append_assoc]
      | _ =>
        rw [role] at isTool
        cases isTool
    rw [written state one isTool, written other second (by rw [← roles]; exact isTool),
      resultWeight, if_pos isTool, results]
    exact ⟨tool isTool (append _ texts), rfl, rfl⟩

/-- A relation between texts that the same text behind them keeps, and that two tool
results keep, holds between the prompts of two histories. -/
theorem related_renderMsgs (append : ∀ {n text other} (more : Bytes), relates n text other →
      relates n (text ++ more) (other ++ more))
    {msgs others : List ChatMsg} (same : SameButResults msgs others)
    (tool : ∀ one ∈ msgs, ∀ second ∈ others, one.role.isTool = true →
      second.role.isTool = true → ∀ {n text other}, relates n text other →
        relates (n + weight one) (text ++ toolResult one) (other ++ toolResult second))
    {think toolContext : Bool} {last : Int} {start n : Nat}
    {state other : Rendering} (related : RelatedStates relates n state other) :
    RelatedStates relates (n + (msgs.map (resultWeight weight)).sum)
      (renderMsgs think toolContext last state (msgs.zipIdx start))
      (renderMsgs think toolContext last other (others.zipIdx start)) := by
  induction msgs generalizing others start n state other with
  | nil =>
    cases others with
    | nil => exact related
    | cons => cases same
  | cons msg msgs ih =>
    cases others with
    | nil => cases same
    | cons second others =>
      unfold SameButResults at same
      rw [map_cons, map_cons, List.cons.injEq] at same
      rw [map_cons, sum_cons, ← Nat.add_assoc]
      apply ih same.2
      · intro one inMsgs partner inOthers
        exact tool one (mem_cons_of_mem _ inMsgs) partner (mem_cons_of_mem _ inOthers)
      · apply related_renderMsg append same.1 _ _ related
        intro isTool _ _ _ texts
        have secondIsTool : second.role.isTool = true := by
          rw [← role_withoutResult, ← same.1, role_withoutResult]
          exact isTool
        exact tool msg mem_cons_self second mem_cons_self isTool secondIsTool texts

theorem related_prompts (refl : ∀ text, relates 0 text text)
    (append : ∀ {n text other} (more : Bytes), relates n text other →
      relates n (text ++ more) (other ++ more))
    {msgs others : List ChatMsg} (same : SameButResults msgs others)
    (tool : ∀ one ∈ msgs, ∀ second ∈ others, one.role.isTool = true →
      second.role.isTool = true → ∀ {n text other}, relates n text other →
        relates (n + weight one) (text ++ toolResult one) (other ++ toolResult second))
    (toolSchemas : Bytes) (mode : ThinkMode) :
    relates (msgs.map (resultWeight weight)).sum (renderChatPromptText msgs toolSchemas mode)
      (renderChatPromptText others toolSchemas mode) := by
  have heads : promptHead msgs toolSchemas mode = promptHead others toolSchemas mode := by
    unfold promptHead systemText
    rw [← systemMessages_withoutResult msgs, same, systemMessages_withoutResult]
  have contexts : chatHistoryUsesToolContext msgs toolSchemas =
      chatHistoryUsesToolContext others toolSchemas := by
    rw [← usesToolContext_withoutResult, same, usesToolContext_withoutResult]
  have lasts : lastUserIdx msgs = lastUserIdx others := by
    rw [← lastUserIdx_withoutResult, same, lastUserIdx_withoutResult]
  have started : RelatedStates relates 0 ⟨promptHead others toolSchemas mode, false, false⟩
      ⟨promptHead others toolSchemas mode, false, false⟩ := ⟨refl _, rfl, rfl⟩
  have finished := @related_renderMsgs relates weight append _ _ same tool mode.enabled
    (chatHistoryUsesToolContext others toolSchemas) (lastUserIdx others) 0 _ _ _ started
  rw [Nat.zero_add] at finished
  obtain ⟨texts, assistants, -⟩ := finished
  unfold renderChatPromptText rendered
  rw [heads, contexts, lasts, assistants]
  exact append _ texts

end Relating

section Results

/-- The text that the renderer lets through. -/
def mark : Bytes := SpecialToken.dsml.text

/-- No tool result contains `｜DSML｜`. -/
def ResultsWithoutMark (msgs : List ChatMsg) : Prop :=
  ∀ msg ∈ msgs, msg.role.isTool = true → ¬ mark <:+: msg.content.getD []

theorem escaped_cases (byte : UInt8) :
    textEscaped [byte] = [byte] ∨ ∃ rest, textEscaped [byte] = 38 :: rest ∧ 0xef ∉ 38 :: rest := by
  by_cases amp : byte = 38
  · rw [amp]
    exact Or.inr ⟨utf8 "amp;", by decide, by decide⟩
  by_cases less : byte = 60
  · rw [less]
    exact Or.inr ⟨utf8 "lt;", by decide, by decide⟩
  by_cases greater : byte = 62
  · rw [greater]
    exact Or.inr ⟨utf8 "gt;", by decide, by decide⟩
  · left
    simp [textEscaped, amp, less, greater]

theorem textEscaped_cons (byte : UInt8) (text : Bytes) :
    textEscaped (byte :: text) = textEscaped [byte] ++ textEscaped text := by
  simp [textEscaped]

theorem textEscaped_append (first second : Bytes) :
    textEscaped (first ++ second) = textEscaped first ++ textEscaped second :=
  flatMap_append

theorem prefix_of_prefix_textEscaped {pat text : Bytes} (plain : 38 ∉ pat)
    (starts : pat <+: textEscaped text) : pat <+: text := by
  induction text generalizing pat with
  | nil => exact starts
  | cons byte text ih =>
    cases pat with
    | nil => exact nil_prefix
    | cons first pat =>
      rw [textEscaped_cons] at starts
      rcases escaped_cases byte with same | ⟨rest, same, -⟩
      · rw [same, singleton_append, cons_prefix_cons] at starts
        rw [cons_prefix_cons]
        exact ⟨starts.1, ih (fun mem => plain (mem_cons_of_mem _ mem)) starts.2⟩
      · rw [same, cons_append, cons_prefix_cons] at starts
        exact absurd (starts.1 ▸ mem_cons_self) plain

theorem infix_of_drop_textEscaped {text : Bytes} {i : Nat}
    (starts : mark <+: (textEscaped text).drop i) : mark <:+: text := by
  induction text generalizing i with
  | nil =>
    have empty : (textEscaped []).drop i = [] := drop_nil
    rw [empty] at starts
    exact absurd (prefix_nil.mp starts) (by decide)
  | cons byte text ih =>
    have shifted {later : Nat}
        (found : mark <+: (textEscaped text).drop later) : mark <:+: byte :: text :=
      infix_cons (ih found)
    rw [textEscaped_cons] at starts
    by_cases inside : i < (textEscaped [byte]).length
    · rcases escaped_cases byte with same | ⟨rest, same, avoids⟩
      · rw [same, length_singleton] at inside
        cases Nat.lt_one_iff.mp inside
        rw [drop_zero, ← textEscaped_cons] at starts
        exact (prefix_of_prefix_textEscaped (by decide) starts).isInfix
      · exfalso
        rw [same] at starts inside
        have first := @getElem?_of_starts mark _ i 0 starts (by decide)
        rw [Nat.add_zero, getElem?_append_left inside] at first
        have isFirst : mark[0]? = some 0xef := by decide
        rw [isFirst] at first
        exact avoids (mem_of_getElem? first.symm)
    · have later : (textEscaped [byte] ++ textEscaped text).drop i =
          (textEscaped text).drop (i - (textEscaped [byte]).length) := by
        rw [drop_append, drop_of_length_le (by omega), nil_append]
      rw [later] at starts
      exact shifted starts

theorem avoids_bracket (text : Bytes) : 60 ∉ textEscaped text := by
  obtain ⟨escape, escapes, same⟩ := textEscaped_eq text
  rw [same]
  exact fun mem => escapes.avoids (by decide) mem (by decide)

theorem specials_textEscaped_eq_nil {text : Bytes} :
    specials (textEscaped text) = [] ↔ ¬ mark <:+: text := by
  rw [specials_eq_nil_iff]
  constructor
  · rintro nowhere ⟨before, after, rfl⟩
    have same : textEscaped mark = mark := by decide
    rw [textEscaped_append, textEscaped_append, same] at nowhere
    have here := nowhere (textEscaped before).length (by
      rw [length_append, length_append]
      have : 0 < mark.length := by decide
      omega)
    rw [append_assoc, drop_left' rfl] at here
    have missing := find?_eq_none.mp here .dsml (SpecialToken.mem_order _)
    exact missing (startsWith_iff.mpr (prefix_append _ _))
  · intro clean i lt
    apply find?_eq_none.mpr
    intro special _ found
    rw [startsWith_iff] at found
    have kinds : special.text[0]? = some 60 ∨ special.text = mark := by cases special <;> decide
    rcases kinds with bracket | isMark
    · have first := getElem?_of_starts found (length_pos_iff.mpr special.text_ne_nil)
      rw [bracket] at first
      exact avoids_bracket text (mem_of_getElem? first.symm)
    · rw [isMark] at found
      exact clean (infix_of_drop_textEscaped found)

theorem specials_toolResult (text more : Bytes) (msg : ChatMsg) :
    specials (text ++ toolResult msg ++ more) = specials (text ++ utf8 "<tool_result>") ++
        specials (textEscaped (msg.content.getD [])) ++
        specials (utf8 "</tool_result>" ++ more) := by
  have opening : utf8 "<tool_result>" = utf8 "<tool_result" ++ [62] := by decide
  have closing : utf8 "</tool_result>" = 60 :: utf8 "/tool_result>" := by decide
  have split : text ++ toolResult msg ++ more = ((text ++ utf8 "<tool_result") ++ [62]) ++
        (textEscaped (msg.content.getD []) ++ 60 :: (utf8 "/tool_result>" ++ more)) := by
    rw [toolResult, opening, closing]
    simp only [append_assoc, cons_append]
  rw [split, specials_behind, specials_before, opening, closing]
  simp only [append_assoc, cons_append]

variable {msgs others : List ChatMsg}

theorem specials_prompt_of_unmarked (same : SameButResults msgs others)
    (clean : ResultsWithoutMark msgs) (othersClean : ResultsWithoutMark others)
    (toolSchemas : Bytes) (mode : ThinkMode) :
    specials (renderChatPromptText msgs toolSchemas mode) =
      specials (renderChatPromptText others toolSchemas mode) := by
  have related := @related_prompts
    (fun _ text other => ∀ more, specials (text ++ more) = specials (other ++ more))
    (fun _ => 0) (fun _ _ => rfl)
    (fun more equal rest => by
      rw [append_assoc, append_assoc]
      exact equal _) _ _ same
    (by
      intro one inMsgs second inOthers isTool secondIsTool n text other equal more
      rw [specials_toolResult, specials_toolResult, equal,
        specials_textEscaped_eq_nil.mpr (clean one inMsgs isTool),
        specials_textEscaped_eq_nil.mpr (othersClean second inOthers secondIsTool)])
    toolSchemas mode
  have atEnd := related []
  rwa [append_nil, append_nil] at atEnd

theorem length_specials_prompt (same : SameButResults msgs others)
    (othersClean : ResultsWithoutMark others) (toolSchemas : Bytes) (mode : ThinkMode) :
    (specials (renderChatPromptText msgs toolSchemas mode)).length =
      (msgs.map (resultWeight fun msg =>
        (specials (textEscaped (msg.content.getD []))).length)).sum +
      (specials (renderChatPromptText others toolSchemas mode)).length := by
  have related := @related_prompts (fun n text other => ∀ more, (specials (text ++ more)).length =
      n + (specials (other ++ more)).length)
    (fun msg => (specials (textEscaped (msg.content.getD []))).length)
    (fun _ _ => (Nat.zero_add _).symm)
    (fun more equal rest => by
      rw [append_assoc, append_assoc]
      exact equal _) _ _ same
    (by
      intro one inMsgs second inOthers isTool secondIsTool n text other equal more
      rw [specials_toolResult, specials_toolResult,
        specials_textEscaped_eq_nil.mpr (othersClean second inOthers secondIsTool)]
      simp only [length_append, length_nil]
      rw [equal]
      omega)
    toolSchemas mode
  have atEnd := related []
  rwa [append_nil, append_nil] at atEnd

theorem sameButResults_withoutResult (msgs : List ChatMsg) :
    SameButResults msgs (msgs.map ChatMsg.withoutResult) := by
  unfold SameButResults
  rw [map_map]
  apply map_congr_left
  intro msg _
  exact (withoutResult_withoutResult msg).symm

theorem nulFree_withoutResults {toolSchemas : Bytes} {mode : ThinkMode}
    (nulFree : NulFree (renderChatPromptText msgs toolSchemas mode)) :
    NulFree (renderChatPromptText (msgs.map ChatMsg.withoutResult) toolSchemas mode) := by
  have related := @related_prompts (fun _ text other => NulFree text → NulFree other) (fun _ => 0)
    (fun _ free => free)
    (fun more implies both => by
      rw [nulFree_append] at both ⊢
      exact ⟨implies both.1, both.2⟩) _ _ (sameButResults_withoutResult msgs)
    (by
      intro one inMsgs second inOthers isTool secondIsTool n text other implies both
      rw [nulFree_append] at both ⊢
      refine ⟨implies both.1, ?_⟩
      obtain ⟨msg, -, rfl⟩ := mem_map.mp inOthers
      rw [role_withoutResult] at secondIsTool
      have literal : NulFree (utf8 "<tool_result>" ++ textEscaped [] ++
          utf8 "</tool_result>") := by decide
      rw [toolResult, ChatMsg.withoutResult, if_pos secondIsTool]
      exact literal)
    toolSchemas mode
  exact related nulFree

theorem resultsWithoutMark_withoutResult (msgs : List ChatMsg) :
    ResultsWithoutMark (msgs.map ChatMsg.withoutResult) := by
  intro other mem isTool contained
  obtain ⟨msg, -, rfl⟩ := mem_map.mp mem
  rw [role_withoutResult] at isTool
  rw [ChatMsg.withoutResult, if_pos isTool] at contained
  exact absurd (infix_nil.mp contained) (by decide)

/-- The special tokens of a prompt are those of every history with other, unmarked tool
results exactly when its own tool results do not contain `｜DSML｜`. -/
theorem specialTokens_prompt_iff (vocab : Vocab) (msgs : List ChatMsg) (toolSchemas : Bytes)
    (mode : ThinkMode) (nulFree : NulFree (renderChatPromptText msgs toolSchemas mode)) :
    (∀ others, SameButResults msgs others → ResultsWithoutMark others →
        NulFree (renderChatPromptText others toolSchemas mode) →
        specialTokens vocab (renderChatPromptText msgs toolSchemas mode) =
          specialTokens vocab (renderChatPromptText others toolSchemas mode)) ↔
      ResultsWithoutMark msgs := by
  constructor
  · intro agrees msg member isTool
    have equal := (specialTokens_eq_iff nulFree (nulFree_withoutResults nulFree)).mp
      (agrees _ (sameButResults_withoutResult msgs)
        (resultsWithoutMark_withoutResult msgs) (nulFree_withoutResults nulFree))
    have lengths := length_specials_prompt (sameButResults_withoutResult msgs)
      (resultsWithoutMark_withoutResult msgs) toolSchemas mode
    rw [equal] at lengths
    have noWeight : (msgs.map (resultWeight fun msg =>
        (specials (textEscaped (msg.content.getD []))).length)).sum = 0 := by omega
    have weightless := List.sum_eq_zero_iff_forall_eq_nat.mp noWeight _ (List.mem_map_of_mem member)
    rw [resultWeight, if_pos isTool, List.length_eq_zero_iff] at weightless
    exact specials_textEscaped_eq_nil.mp weightless
  · intro clean others same othersClean othersFree
    rw [specialTokens_eq_iff nulFree othersFree]
    exact specials_prompt_of_unmarked same clean othersClean toolSchemas mode

def resultHistory (content : Bytes) : List ChatMsg :=
  [⟨.user, some (utf8 "list"), none, ⟨[], none⟩⟩,
    ⟨.tool, some content, none, ⟨[], none⟩⟩]

theorem specialTokens_prompt_iff_listing : ResultsWithoutMark (resultHistory (utf8 "<User>")) ∧
      specialTokens smallVocab (renderChatPromptText (resultHistory (utf8 "<User>")) [] .none) =
        specialTokens smallVocab
          (renderChatPromptText (resultHistory (utf8 "</think>")) [] .none) := by
  have clean (content : Bytes) (free : ¬ mark <:+: content) :
      ResultsWithoutMark (resultHistory content) := by
    intro msg member isTool
    rcases mem_cons.mp member with rfl | later
    · cases isTool
    · rw [mem_singleton.mp later]
      exact free
  have unmarked := clean (utf8 "<User>") (by decide)
  exact ⟨unmarked, (specialTokens_prompt_iff smallVocab _ [] .none
    (by decide +kernel)).mpr unmarked _ rfl (clean (utf8 "</think>") (by decide))
      (by decide +kernel)⟩

theorem markedResult_adds_token : SameButResults (resultHistory mark) (resultHistory []) ∧
      specialTokens smallVocab (renderChatPromptText (resultHistory mark) [] .none) ≠
        specialTokens smallVocab (renderChatPromptText (resultHistory []) [] .none) := by
  refine ⟨rfl, ?_⟩
  rw [Ne, specialTokens_eq_iff (by decide +kernel) (by decide +kernel)]
  decide +kernel

end Results

end LnaLang.Chat
