import LnaLang.GatewayRequests

/-!
# The gateway's event stream

For a streamed Messages request the gateway reads the upstream lines and writes
its own events, most of them by putting values into a fixed text; for a request
that is not streamed it translates the finished upstream response.  This file
models both and determines when the stream is well formed and when it agrees with
the translated response.
-/

namespace LnaLang.Gateway

open Python JsonReader

/-- The events of the generator in `anthropic_messages`. -/
inductive Event where
  | messageStart (model : Text)
  | contentBlockDelta (content : Text)
  | messageDelta (stopReason : String) (outputTokens : Nat)
  | done
  deriving DecidableEq, Repr

/-- What comes before the model in the first event. -/
def startHead : Text :=
  text "\x7b\"type\":\"message_start\",\"message\":\x7b\"id\":\"msg_1\"," ++
    text "\"type\":\"message\",\"role\":\"assistant\",\"model\":\""

/-- What comes behind it. -/
def startTail : Text :=
  text "\",\"content\":[]\x7d\x7d"

/-- The text of an event behind `data: `; the model is put in as it is. -/
def Event.payload : Event → Text
  | messageStart model => startHead ++ model ++ startTail
  | contentBlockDelta content =>
    text "\x7b\"type\":\"content_block_delta\"," ++
      text "\"delta\":\x7b\"type\":\"text_delta\",\"text\":" ++
      dumps content ++ text "\x7d\x7d"
  | messageDelta stopReason outputTokens =>
    text "\x7b\"type\":\"message_delta\",\"delta\":\x7b\"stop_reason\":\"" ++
      text stopReason ++ text "\",\"stop_sequence\":null\x7d," ++
      text "\"usage\":\x7b\"output_tokens\":" ++
      text (toString outputTokens) ++ text "\x7d\x7d"
  | done => text "[DONE]"

/-- An event as it is yielded. -/
def Event.render (event : Event) : Text :=
  text "data: " ++ event.payload ++ text "\n\n"

/-- An upstream line; `loads` has been called on the text of a data line. -/
inductive Line where
  | other
  | done
  | data (loaded : Except Exc Value)

/-- The tests on a line. -/
def classify (loads : Text → Except Exc Value) (line : Text) : Line :=
  if (text "data: ").isPrefixOf line then
    let data := line.drop 6
    if data = text "[DONE]" then .done else .data (loads data)
  else .other

/-- `d.get("choices", [{}])[0].get("delta", {}).get("content", "")`. -/
def readContent (loaded : Value) : Except Exc Value := do
  let choices ← loaded.get "choices" (.list [.dict []])
  let choice ← choices.first
  let delta ← choice.get "delta" (.dict [])
  delta.get "content" (.str [])

/-- `full += content`, where `full` is a string. -/
def addText : Value → Except Exc Text
  | .str content => .ok content
  | _ => .error .typeError

/-- The body of the `try` statement: the text to be sent, if there is any. -/
def readDelta (loaded : Except Exc Value) : Except Exc (Option Text) := do
  let value ← loaded
  let content ← readContent value
  if content.truthy then
    let added ← addText content
    return some added
  else return none

/-- The loop over the upstream lines: the events, and the exception that ends it. -/
def loop : List Line → List Event × Option Exc
  | [] => ([], none)
  | .other :: lines => loop lines
  | .done :: _ => ([], none)
  | .data loaded :: lines =>
    match readDelta loaded with
    | .ok (some content) => (.contentBlockDelta content :: (loop lines).1, (loop lines).2)
    | .ok none => loop lines
    | .error error =>
      if error = .jsonDecodeError then loop lines else ([], some error)

/-- `generate` in `anthropic_messages`. -/
def generate (model : Text) (lines : List Line) : List Event × Option Exc :=
  match (loop lines).2 with
  | none =>
    (.messageStart model :: (loop lines).1 ++
      [.messageDelta "end_turn" 0, .done], none)
  | some error => (.messageStart model :: (loop lines).1, some error)

def IsDataLine (payload : Text) : Prop :=
  isJson payload = true ∧ ∀ point ∈ payload, point ≠ 10 ∧ point ≠ 13

/-- The generator has not raised, its events are JSON, and it has closed the
message. -/
structure WellFormed (output : List Event × Option Exc) : Prop where
  notRaised : output.2 = none
  dataLines : ∀ event ∈ output.1, event ≠ .done → IsDataLine event.payload
  closed : ∃ events stopReason outputTokens,
    output.1 = events ++ [.messageDelta stopReason outputTokens, .done]

/-- A JSON reader inside a string value, two objects deep. -/
def insideModel : Config :=
  ⟨.string false, [true, true]⟩

/-- The model is on one line and leaves a JSON reader where it was. -/
def ModelFits (model : Text) : Prop :=
  (∀ point ∈ model, point ≠ 10 ∧ point ≠ 13) ∧ run insideModel model = some insideModel

/-- An object with a choice whose delta has a text, or nothing that counts as a
content. -/
def Shaped (loaded : Value) : Prop :=
  ∃ entries choice rest delta content, loaded = .dict entries ∧
    (lookup (text "choices") entries).getD (.list [.dict []]) =
      .list (.dict choice :: rest) ∧
    (lookup (text "delta") choice).getD (.dict []) = .dict delta ∧
    (lookup (text "content") delta).getD (.str []) = content ∧
    (content.truthy = true → ∃ shown, content = .str shown)

/-- What `json.loads` does with a data line harms the loop not. -/
def Harmless : Except Exc Value → Prop
  | .ok loaded => Shaped loaded
  | .error error => error = .jsonDecodeError

theorem get_eq_ok_iff {v default result : Value} {key : String} :
    v.get key default = .ok result ↔ ∃ entries, v = .dict entries ∧
        (lookup (text key) entries).getD default = result := by
  cases v <;> simp [Value.get]

theorem first_dict_iff {v : Value} {entries : List (Text × Value)} :
    v.first = .ok (.dict entries) ↔ ∃ rest, v = .list (.dict entries :: rest) := by
  cases v with
  | list items => cases items <;> simp [Value.first]
  | str content => cases content <;> simp [Value.first]
  | _ => simp [Value.first]

theorem bind_eq_ok_iff {α β : Type} {first : Except Exc α} {next : α → Except Exc β} {result : β} :
    (first >>= next) = .ok result ↔ ∃ v, first = .ok v ∧ next v = .ok result := by
  cases first with
  | error error => simp [bind, Except.bind]
  | ok v => simp [bind, Except.bind]

theorem readContent_eq_ok_iff {loaded content : Value} :
    readContent loaded = .ok content ↔ ∃ entries choice rest delta, loaded = .dict entries ∧
        (lookup (text "choices") entries).getD (.list [.dict []]) =
          .list (.dict choice :: rest) ∧
        (lookup (text "delta") choice).getD (.dict []) = .dict delta ∧
        (lookup (text "content") delta).getD (.str []) = content := by
  unfold readContent
  simp only [bind_eq_ok_iff, get_eq_ok_iff]
  constructor
  · rintro ⟨choices, ⟨entries, rfl, choicesEq⟩, choice, isFirst, delta,
      ⟨inChoice, rfl, deltaEq⟩, inDelta, rfl, contentEq⟩
    obtain ⟨rest, rfl⟩ := first_dict_iff.mp isFirst
    exact ⟨entries, inChoice, rest, inDelta, rfl, choicesEq, deltaEq, contentEq⟩
  · rintro ⟨entries, choice, rest, delta, rfl, choicesEq, deltaEq, contentEq⟩
    exact ⟨_, ⟨entries, rfl, choicesEq⟩, _, first_dict_iff.mpr ⟨rest, rfl⟩, _,
      ⟨choice, rfl, deltaEq⟩, delta, rfl, contentEq⟩

theorem readContent_ne_jsonDecodeError (loaded : Value) :
    readContent loaded ≠ .error .jsonDecodeError := by
  have getNe (v default : Value) (key : String) : v.get key default ≠ .error .jsonDecodeError := by
    cases v <;> simp [Value.get]
  have firstNe (v : Value) : v.first ≠ .error .jsonDecodeError := by
    cases v with
    | list items => cases items <;> simp [Value.first]
    | str content => cases content <;> simp [Value.first]
    | _ => simp [Value.first]
  have bindNe {first : Except Exc Value} {next : Value → Except Exc Value}
      (firstOk : first ≠ .error .jsonDecodeError)
      (nextOk : ∀ v, next v ≠ .error .jsonDecodeError) :
      (first >>= next) ≠ .error .jsonDecodeError := by
    cases first with
    | error error => simpa [bind, Except.bind] using firstOk
    | ok v => exact nextOk v
  unfold readContent
  apply bindNe (getNe _ _ _)
  intro choices
  apply bindNe (firstNe choices)
  intro choice
  apply bindNe (getNe _ _ _)
  intro delta
  exact getNe _ _ _

theorem readDelta_ok (v : Value) : readDelta (.ok v) = (readContent v >>= fun content =>
      if content.truthy then addText content >>= fun added => pure (some added)
      else pure none) :=
  rfl

theorem harmless_iff (loaded : Except Exc Value) :
    Harmless loaded ↔ (∃ shown, readDelta loaded = .ok shown) ∨
      readDelta loaded = .error .jsonDecodeError := by
  cases loaded with
  | error error => simp [Harmless, readDelta, bind, Except.bind]
  | ok v =>
    rw [readDelta_ok]
    cases read : readContent v with
    | error error =>
      have ne : error ≠ .jsonDecodeError := by
        rintro rfl
        exact readContent_ne_jsonDecodeError v read
      have notShaped : ¬ Shaped v := by
        rintro ⟨entries, choice, rest, delta, content, shape⟩
        have isOk := readContent_eq_ok_iff.mpr
          ⟨entries, choice, rest, delta, shape.1, shape.2.1, shape.2.2.1, shape.2.2.2.1⟩
        rw [read] at isOk
        cases isOk
      simp [Harmless, notShaped, bind, Except.bind, ne]
    | ok content =>
      have shaped : Shaped v ↔ (content.truthy = true → ∃ shown, content = .str shown) := by
        obtain ⟨entries, choice, rest, delta, isDict, choicesEq, deltaEq,
          contentEq⟩ := readContent_eq_ok_iff.mp read
        constructor
        · rintro ⟨entries', choice', rest', delta', content', isDict',
            choicesEq', deltaEq', contentEq', isText⟩
          have again := readContent_eq_ok_iff.mpr
            ⟨entries', choice', rest', delta', isDict', choicesEq', deltaEq', contentEq'⟩
          rw [read, Except.ok.injEq] at again
          rwa [again]
        · intro isText
          exact ⟨entries, choice, rest, delta, content, isDict, choicesEq,
            deltaEq, contentEq, isText⟩
      rw [Harmless, shaped]
      cases content with
      | str shown => cases shown <;> simp [Value.truthy, bind, Except.bind, addText,
          pure, Except.pure]
      | _ =>
        simp only [bind, Except.bind, addText, pure, Except.pure]
        split <;> simp_all

theorem startTail_eq : startTail =
    [34, 44, 34, 99, 111, 110, 116, 101, 110, 116, 34, 58, 91, 93, 125, 125] := by
  decide

theorem run_startTail_literal (word : Word) (seen : Nat) (stack : List Bool) :
    run ⟨.literal word seen, stack⟩ startTail = none := by
  have noQuote : word.letters[seen]? ≠ some 34 := by
    intro found
    have mem := List.mem_of_getElem? found
    revert mem
    cases word <;> decide
  rw [startTail_eq]
  simp [run, step, noQuote]

theorem run_startTail_iff (config : Config) :
    (run config startTail).any Config.complete = true ↔ config = insideModel := by
  constructor
  · intro accepted
    obtain ⟨mode, stack⟩ := config
    have rejected (dead : run ⟨mode, stack⟩ startTail = none) :
        (⟨mode, stack⟩ : Config) = insideModel := by
      rw [dead] at accepted
      cases accepted
    cases mode with
    | string isKey =>
      cases isKey with
      | true => exact rejected (by rw [startTail_eq]; rfl)
      | false =>
        -- behind the comma a member has to follow, and two objects are closed
        rw [startTail_eq] at accepted rejected
        match stack with
        | [] => exact rejected rfl
        | false :: rest => exact rejected rfl
        | [true] => exact rejected rfl
        | true :: false :: rest => exact rejected rfl
        | [true, true] => rfl
        | true :: true :: next :: rest => cases accepted
    | literal word seen => exact rejected (run_startTail_literal word seen stack)
    | escape isKey =>
      apply rejected
      rw [startTail_eq]
      cases isKey <;> rcases stack with _ | ⟨_ | _, _⟩ <;> rfl
    | _ =>
      -- a quote is an error here, or opens a string that is closed too early
      apply rejected
      rw [startTail_eq]
      rcases stack with _ | ⟨_ | _, _⟩ <;> rfl
  · rintro rfl
    decide

theorem run_startHead : run ⟨.value, []⟩ startHead = some insideModel := by
  decide +kernel

theorem isJson_messageStart_iff (model : Text) : isJson (Event.messageStart model).payload = true ↔
      run insideModel model = some insideModel := by
  rw [isJson, Event.payload, run_append, run_append, run_startHead, Option.bind_some]
  cases read : run insideModel model with
  | none => simp
  | some config => rw [Option.bind_some, run_startTail_iff, Option.some.injEq]

theorem isDataLine_messageStart_iff (model : Text) :
    IsDataLine (Event.messageStart model).payload ↔ ModelFits model := by
  have head : ∀ point ∈ startHead, point ≠ 10 ∧ point ≠ 13 := by decide +kernel
  have tail : ∀ point ∈ startTail, point ≠ 10 ∧ point ≠ 13 := by decide +kernel
  rw [IsDataLine, isJson_messageStart_iff, ModelFits, Event.payload, and_comm,
    List.forall_mem_append, List.forall_mem_append]
  constructor
  · rintro ⟨⟨⟨_, oneLine⟩, _⟩, fits⟩
    exact ⟨oneLine, fits⟩
  · rintro ⟨oneLine, fits⟩
    exact ⟨⟨⟨head, oneLine⟩, tail⟩, fits⟩

theorem isDataLine_contentBlockDelta (content : Text) :
    IsDataLine (Event.contentBlockDelta content).payload := by
  have head : run ⟨.value, []⟩ (text "\x7b\"type\":\"content_block_delta\"," ++
      text "\"delta\":\x7b\"type\":\"text_delta\",\"text\":") =
        some ⟨.value, [true, true]⟩ := by
    decide +kernel
  constructor
  · rw [isJson, Event.payload, run_append, run_append, head, Option.bind_some, run_dumps]
    decide +kernel
  · have printable := dumps_printable content
    have front : ∀ point ∈ text "\x7b\"type\":\"content_block_delta\"," ++
        text "\"delta\":\x7b\"type\":\"text_delta\",\"text\":",
          point ≠ 10 ∧ point ≠ 13 := by
      decide +kernel
    rw [Event.payload, List.forall_mem_append, List.forall_mem_append]
    refine ⟨⟨front, ?_⟩, by decide⟩
    intro point mem
    have := printable point mem
    omega

theorem isDataLine_messageDelta : IsDataLine (Event.messageDelta "end_turn" 0).payload := by
  constructor <;> decide +kernel

theorem loop_events (lines : List Line) :
    ∀ event ∈ (loop lines).1, ∃ content, event = .contentBlockDelta content := by
  induction lines with
  | nil => simp [loop]
  | cons line lines ih =>
    cases line with
    | other => exact ih
    | done => simp [loop]
    | data loaded =>
      rw [loop]
      split
      · intro event mem
        rcases List.mem_cons.mp mem with rfl | inTail
        · exact ⟨_, rfl⟩
        · exact ih event inTail
      · exact ih
      · split
        · exact ih
        · simp

/-- The lines before the first `[DONE]`. -/
def beforeDone : List Line → List Line
  | [] => []
  | .done :: _ => []
  | line :: lines => line :: beforeDone lines

theorem loop_not_raised_iff (lines : List Line) :
    (loop lines).2 = none ↔ ∀ loaded, Line.data loaded ∈ beforeDone lines → Harmless loaded := by
  induction lines with
  | nil => simp [loop, beforeDone]
  | cons line lines ih =>
    cases line with
    | other => simpa [loop, beforeDone] using ih
    | done => simp [loop, beforeDone]
    | data loaded =>
      have head := harmless_iff loaded
      simp only [beforeDone, List.mem_cons, Line.data.injEq, forall_eq_or_imp]
      rw [loop]
      cases read : readDelta loaded with
      | ok shown =>
        have harmless : Harmless loaded := head.mpr (.inl ⟨shown, read⟩)
        cases shown <;> simpa [harmless] using ih
      | error error =>
        rw [read] at head
        by_cases same : error = .jsonDecodeError
        · subst same
          simpa [head] using ih
        · simp [head, same]

theorem wellFormed_generate_iff (model : Text) (lines : List Line) :
    WellFormed (generate model lines) ↔ ModelFits model ∧
      ∀ loaded, Line.data loaded ∈ beforeDone lines → Harmless loaded := by
  rw [← loop_not_raised_iff]
  unfold generate
  constructor
  · intro wellFormed
    cases ended : (loop lines).2 with
    | none =>
      rw [ended] at wellFormed
      refine ⟨(isDataLine_messageStart_iff model).mp ?_, rfl⟩
      exact wellFormed.dataLines (.messageStart model) (by simp) (by simp)
    | some error =>
      rw [ended] at wellFormed
      cases wellFormed.notRaised
  · rintro ⟨fits, ended⟩
    rw [ended]
    refine ⟨rfl, ?_, ⟨_, _, _, rfl⟩⟩
    intro event mem notDone
    simp only [List.cons_append, List.mem_cons, List.mem_append, List.not_mem_nil, or_false] at mem
    rcases mem with rfl | inLoop | rfl | rfl
    · exact (isDataLine_messageStart_iff model).mpr fits
    · obtain ⟨content, rfl⟩ := loop_events lines event inLoop
      exact isDataLine_contentBlockDelta content
    · exact isDataLine_messageDelta
    · exact (notDone rfl).elim

section Lines

variable (loads : Text → Except Exc Value)

theorem classify_data (data : Text) : classify loads (text "data: " ++ data) =
      if data = text "[DONE]" then .done else .data (loads data) := by
  have starts : (text "data: ").isPrefixOf (text "data: " ++ data) = true := by
    rw [List.isPrefixOf_iff_prefix]
    exact List.prefix_append _ _
  have rest : (text "data: " ++ data).drop 6 = data := List.drop_left' (by decide)
  rw [classify, if_pos starts]
  dsimp only
  rw [rest]

theorem classify_other {line : Text} (other : ¬ text "data: " <+: line) :
    classify loads line = .other := by
  rw [classify, if_neg]
  rwa [List.isPrefixOf_iff_prefix]

theorem classify_eq_done_iff {line : Text} :
    classify loads line = .done ↔ line = text "data: [DONE]" := by
  have split : text "data: [DONE]" = text "data: " ++ text "[DONE]" := by decide
  by_cases starts : text "data: " <+: line
  · obtain ⟨data, rfl⟩ := starts
    rw [classify_data, split, List.append_cancel_left_eq]
    by_cases isDone : data = text "[DONE]" <;> simp [isDone]
  · rw [classify_other loads starts]
    constructor
    · intro impossible
      cases impossible
    · rintro rfl
      exact (starts (by decide)).elim

theorem beforeDone_classify (lines : List Text) : beforeDone (lines.map (classify loads)) =
      (lines.takeWhile (· ≠ text "data: [DONE]")).map (classify loads) := by
  induction lines with
  | nil => rfl
  | cons line lines ih =>
    by_cases isDone : line = text "data: [DONE]"
    · have isDone' := (classify_eq_done_iff loads).mpr isDone
      rw [List.map_cons, isDone', List.takeWhile_cons_of_neg (by simp [isDone])]
      rfl
    · have notDone := mt (classify_eq_done_iff loads).mp isDone
      rw [List.map_cons, List.takeWhile_cons_of_pos (by simpa using isDone),
        List.map_cons, ← ih]
      cases kind : classify loads line with
      | other => rfl
      | data => rfl
      | done => exact (notDone kind).elim

/-- The stream is well formed exactly when the model fits into the first event and
no data line before `[DONE]` is a JSON value of another shape. -/
theorem wellFormed_stream_iff (model : Text) (lines : List Text) :
    WellFormed (generate model (lines.map (classify loads))) ↔ ModelFits model ∧ ∀ data,
        text "data: " ++ data ∈ lines.takeWhile (· ≠ text "data: [DONE]") →
          Harmless (loads data) := by
  rw [wellFormed_generate_iff, beforeDone_classify]
  apply and_congr_right
  intro _
  constructor
  · intro harmless data member
    have notDone : data ≠ text "[DONE]" := by
      rintro rfl
      have differs := List.mem_takeWhile_imp member
      revert differs
      decide
    apply harmless
    rw [List.mem_map]
    exact ⟨_, member, by rw [classify_data, if_neg notDone]⟩
  · intro harmless loaded member
    obtain ⟨line, inLines, kind⟩ := List.mem_map.mp member
    by_cases starts : text "data: " <+: line
    · obtain ⟨data, rfl⟩ := starts
      rw [classify_data] at kind
      split at kind
      · cases kind
      · cases kind
        exact harmless data inLines
    · rw [classify_other loads starts] at kind
      cases kind

end Lines

/-- `json.loads` on two texts. -/
def someLoads (data : Text) : Except Exc Value :=
  if data = text "5" then .ok (.int 5) else .error .jsonDecodeError

/-- A number as upstream data raises, and a quote in the model breaks the first
event. -/
theorem number_raises_and_quote_breaks :
    (generate (text "m") ([text "data: 5"].map (classify someLoads))).2 =
        some .attributeError ∧
      ¬ WellFormed (generate (text "m")
        ([text "data: 5"].map (classify someLoads))) ∧
      isJson (Event.messageStart (text "a\"b")).payload = false ∧
      ¬ WellFormed (generate (text "a\"b") []) := by
  have raised : (generate (text "m") ([text "data: 5"].map
      (classify someLoads))).2 = some .attributeError := by decide +kernel
  have broken : isJson (Event.messageStart (text "a\"b")).payload = false := by decide +kernel
  refine ⟨raised, ?_, broken, ?_⟩
  · intro wellFormed
    rw [wellFormed.notRaised] at raised
    cases raised
  · intro wellFormed
    have valid := wellFormed.dataLines (.messageStart (text "a\"b"))
      List.mem_cons_self (by simp)
    rw [valid.1] at broken
    cases broken

/-- The last lines of `_translate_openai_to_anthropic` on the finish reason. -/
def stopReason (finish : Value) : Value :=
  if finish.isText "stop" then .str (text "end_turn")
  else if finish.isText "length" then .str (text "max_tokens")
  else finish

/-- `_translate_openai_to_anthropic`. -/
def translateOpenaiToAnthropic (data : Value) (model : Text) : Except Exc Value := do
  let choices ← data.get "choices" (.list [.dict []])
  let choice ← choices.first
  let msg ← choice.get "message" (.dict [])
  let usage ← data.get "usage" (.dict [])
  let finish ← choice.get "finish_reason" .none
  let id ← data.get "id" (.str [])
  let content ← msg.get "content" (.str [])
  let inputTokens ← usage.get "prompt_tokens" (.int 0)
  let outputTokens ← usage.get "completion_tokens" (.int 0)
  return .dict [(text "id", id), (text "type", .str (text "message")),
    (text "role", .str (text "assistant")), (text "model", .str model),
    (text "content", .list [.dict [(text "type", .str (text "text")),
      (text "text", content)]]),
    (text "stop_reason", stopReason finish), (text "stop_sequence", .none),
    (text "usage", .dict [(text "input_tokens", inputTokens),
      (text "output_tokens", outputTokens)])]

/-- What a client learns from a message. -/
structure Outcome where
  text : Value
  stopReason : Value
  outputTokens : Value

/-- The outcome of a message: its first text, its stop reason and its usage. -/
def Outcome.ofMessage (response : Value) : Except Exc Outcome := do
  let blocks ← response.get "content" .none
  let block ← blocks.first
  let content ← block.get "text" .none
  let reason ← response.get "stop_reason" .none
  let usage ← response.get "usage" .none
  let tokens ← usage.get "output_tokens" .none
  return ⟨content, reason, tokens⟩

def Event.text? : Event → Option Text
  | contentBlockDelta content => some content
  | _ => none

def Event.end? : Event → Option (String × Nat)
  | messageDelta stopReason outputTokens => some (stopReason, outputTokens)
  | _ => none

/-- The outcome of a stream: its deltas together and its closing event. -/
def Outcome.ofEvents (events : List Event) : Option Outcome :=
  (events.findSome? Event.end?).map fun ended =>
    { text := .str (events.filterMap Event.text?).flatten
      stopReason := .str (Python.text ended.1)
      outputTokens := .int ended.2 }

inductive Finish where
  | stop
  | length
  | toolCalls
  deriving DecidableEq, Repr

def Finish.name : Finish → String
  | stop => "stop"
  | length => "length"
  | toolCalls => "tool_calls"

structure Generation where
  id : Text
  chunks : List Text
  finish : Finish
  usage : Option (Nat × Nat)
  deriving DecidableEq, Repr

namespace Generation

variable (generation : Generation)

def completionTokens : Nat :=
  (generation.usage.map Prod.snd).getD 0

def usageField : List (Text × Value) :=
  generation.usage.toList.map fun usage =>
    (text "usage", .dict [(text "prompt_tokens", .int usage.1),
      (text "completion_tokens", .int usage.2)])

def contentChunk (content : Text) : Value :=
  .dict [(text "choices", .list [.dict [
    (text "delta", .dict [(text "content", .str content)]),
    (text "finish_reason", .none)]])]

def lastChunk : Value :=
  .dict ((text "choices", .list [.dict [(text "delta", .dict []),
    (text "finish_reason", .str (text generation.finish.name))]]) ::
      generation.usageField)

/-- The generation as a stream. -/
def lines : List Line :=
  generation.chunks.map (fun content => .data (.ok (contentChunk content))) ++
    [.data (.ok generation.lastChunk), .done]

def response : Value :=
  .dict ((text "id", .str generation.id) ::
    (text "choices", .list [.dict [
      (text "message", .dict [(text "role", .str (text "assistant")),
        (text "content", .str generation.chunks.flatten)]),
      (text "finish_reason", .str (text generation.finish.name))]]) ::
        generation.usageField)

theorem readDelta_contentChunk (content : Text) : readDelta (.ok (contentChunk content)) =
      .ok (if content = [] then none else some content) := by
  have read : readContent (contentChunk content) = .ok (.str content) :=
    readContent_eq_ok_iff.mpr ⟨_, _, _, _, rfl, rfl, rfl, rfl⟩
  rw [readDelta_ok, read]
  cases content <;> rfl

theorem readDelta_lastChunk : readDelta (.ok generation.lastChunk) = .ok none := by
  have read : readContent generation.lastChunk = .ok (.str []) :=
    readContent_eq_ok_iff.mpr ⟨_, _, _, _, rfl, rfl, rfl, rfl⟩
  rw [readDelta_ok, read]
  rfl

theorem loop_lines :
    (loop generation.lines).2 = none ∧ ((loop generation.lines).1.filterMap Event.text?).flatten =
        generation.chunks.flatten := by
  unfold lines
  induction generation.chunks with
  | nil => simp [loop, readDelta_lastChunk]
  | cons content chunks ih =>
    rw [List.map_cons, List.cons_append, loop, readDelta_contentChunk]
    by_cases empty : content = []
    · simpa [empty] using ih
    · simpa [empty, Event.text?] using ih

theorem outcome_generate (model : Text) : Outcome.ofEvents (generate model generation.lines).1 =
      some ⟨.str generation.chunks.flatten, .str (text "end_turn"), .int 0⟩ := by
  obtain ⟨ended, texts⟩ := generation.loop_lines
  have noEnd : (loop generation.lines).1.findSome? Event.end? = none := by
    rw [List.findSome?_eq_none_iff]
    intro event mem
    obtain ⟨content, rfl⟩ := loop_events _ event mem
    rfl
  have closing : (generate model generation.lines).1.findSome? Event.end? =
      some ("end_turn", 0) := by
    simp [generate, ended, Event.end?, List.findSome?_cons, List.findSome?_append, noEnd]
  have shown : ((generate model generation.lines).1.filterMap Event.text?).flatten =
      generation.chunks.flatten := by
    simp [generate, ended, Event.text?, List.filterMap_cons, texts]
  rw [Outcome.ofEvents, closing, shown]
  rfl

theorem outcome_response (model : Text) :
    ∃ msg, translateOpenaiToAnthropic generation.response model = .ok msg ∧
      Outcome.ofMessage msg = .ok ⟨.str generation.chunks.flatten,
        stopReason (.str (text generation.finish.name)),
        .int generation.completionTokens⟩ := by
  unfold response completionTokens usageField
  cases generation.usage with
  | none => exact ⟨_, rfl, rfl⟩
  | some usage => exact ⟨_, rfl, rfl⟩

theorem stopReason_eq_end_turn_iff (finish : Finish) :
    stopReason (.str (text finish.name)) = .str (text "end_turn") ↔
      finish = .stop := by
  cases finish with
  | stop => simp [stopReason, Value.isText, Finish.name]
  | length =>
    have ne : text "max_tokens" ≠ text "end_turn" := by decide
    have notStop : text "length" ≠ text "stop" := by decide
    simp [stopReason, Value.isText, Finish.name, ne, notStop]
  | toolCalls =>
    have ne : text "tool_calls" ≠ text "end_turn" := by decide
    have notStop : text "tool_calls" ≠ text "stop" := by decide
    have notLength : text "tool_calls" ≠ text "length" := by decide
    simp [stopReason, Value.isText, Finish.name, ne, notStop, notLength]

/-- The stream and the response agree in the text always, and in all exactly when
the generation has stopped and reports no tokens. -/
theorem stream_agrees_iff (model : Text) :
    (∃ message streamed, translateOpenaiToAnthropic generation.response model = .ok message ∧
        Outcome.ofEvents (generate model generation.lines).1 = some streamed ∧
        Outcome.ofMessage message = .ok streamed) ↔
      generation.finish = .stop ∧ generation.completionTokens = 0 := by
  obtain ⟨message, translated, outcome⟩ := generation.outcome_response model
  rw [translated, generation.outcome_generate model]
  constructor
  · rintro ⟨other, streamed, sameMessage, sameStream, agrees⟩
    cases sameMessage
    cases sameStream
    rw [outcome, Except.ok.injEq, Outcome.mk.injEq] at agrees
    obtain ⟨_, reason, tokens⟩ := agrees
    refine ⟨(stopReason_eq_end_turn_iff _).mp reason, ?_⟩
    simpa using tokens
  · rintro ⟨stopped, noTokens⟩
    refine ⟨message, _, rfl, rfl, ?_⟩
    rw [outcome, (stopReason_eq_end_turn_iff _).mpr stopped, noTokens]
    rfl

def cutOff : Generation where
  id := text "chatcmpl-1"
  chunks := [text "Hel", text "lo"]
  finish := .length
  usage := some (7, 2)

/-- The stream says that the turn has ended and counts no tokens. -/
theorem cutOff_disagrees : Outcome.ofEvents (generate (text "m") cutOff.lines).1 =
        some ⟨.str (text "Hello"), .str (text "end_turn"), .int 0⟩ ∧
      (translateOpenaiToAnthropic cutOff.response (text "m") >>=
          Outcome.ofMessage) =
        .ok ⟨.str (text "Hello"), .str (text "max_tokens"), .int 2⟩ ∧
      text "end_turn" ≠ text "max_tokens" := by
  refine ⟨cutOff.outcome_generate _, ?_, by decide⟩
  obtain ⟨message, translated, outcome⟩ := cutOff.outcome_response (text "m")
  rw [translated]
  exact outcome

end Generation

end LnaLang.Gateway
