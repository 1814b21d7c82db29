import AliceSkill.Effects.Tracing
import AliceSkill.Formats.Datetime
import AliceSkill.Infra.Breaker
import AliceSkill.Infra.Budget
import AliceSkill.Services.Inputs
import AliceSkill.Services.Reply

/-!
# Calls on the OpenAI adapter

`OpenAIResponsesAdapter.generate_reply` with all it looks at in a response, as a
program whose calls are those on the circuit breaker, on the clock and on
`_create_response_with_budget`.  The calls of overlapping requests share one
breaker; `adapterMachine` interleaves them.
-/

namespace AliceSkill

open Text Effects Program Machine Formats

/-! ## Responses -/

/-- A part of the content of an output item; a text that is not there is
empty. -/
structure ResponseContent where
  type : Str
  text : Str
  refusal : Str

structure OutputItem where
  type : Str
  status : Option Str
  content : List ResponseContent

/-- What is looked at in a response of the model.  The details of an incomplete
response are given by their reason. -/
structure ModelResponse where
  outputText : Str
  output : List OutputItem
  status : Option Str
  incompleteDetails : Option (Option Str)

/-- `_incomplete_reason` -/
def incompleteReason (response : ModelResponse) : Option Str :=
  match response.incompleteDetails with
  | none => none
  | some reason => reason.bind noneIfEmpty

/-- `_response_is_incomplete` -/
def responseIsIncomplete (response : ModelResponse) : Bool :=
  if response.status = some "incomplete".toList then true
  else if (incompleteReason response).isSome then true
  else response.output.any fun item =>
    item.type = "message".toList && item.status = some "incomplete".toList

/-- The text that a part of the content contributes. -/
def contentParts (content : ResponseContent) : List Str :=
  if content.type = "output_text".toList then
    if content.text = [] then [] else [strip content.text]
  else if content.type = "refusal".toList then
    if content.refusal = [] then [] else [strip content.refusal]
  else []

/-- `_extract_response_text` -/
def extractResponseText (response : ModelResponse) : Str :=
  if strip response.outputText ≠ [] then strip response.outputText
  else
    let parts := response.output.flatMap fun item =>
      if item.type ≠ "message".toList then []
      else if item.status = some "incomplete".toList then []
      else item.content.flatMap contentParts
    strip (join [' '] (parts.filter (· ≠ [])))

/-! ## Requests -/

/-- The settings of `config.py` for the model. -/
structure OpenAISettings where
  model : Str
  maxRetries : ℕ
  webSearchEnabled : Bool
  webSearchContextSize : Str
  systemPrompt : Str

/-- A tool the model may use. -/
structure Tool where
  type : Str
  searchContextSize : Str
  deriving DecidableEq

/-- `_build_tools` -/
def buildTools (webSearchEnabled : Bool) (webSearchContextSize : Str) : List Tool :=
  if webSearchEnabled then [⟨"web_search".toList, webSearchContextSize⟩] else []

def defaultMaxOutputTokens : ℕ := 256

/-- The arguments of a request to the model. -/
structure ModelRequest where
  model : Str
  input : List InputItem
  tools : List Tool
  maxOutputTokens : ℕ
  temperature : ℚ
  requestId : Str
  channel : Str
  deriving DecidableEq

/-- The arguments of `generate_reply`. -/
structure ReplyCall where
  userText : Str
  history : List ConversationTurn
  requestId : Str
  deadlineSeconds : ℚ
  maxOutputTokens : Option ℕ

/-- Python's `max_output_tokens or _DEFAULT_MAX_OUTPUT_TOKENS`. -/
def ReplyCall.outputTokens (c : ReplyCall) : ℕ :=
  match c.maxOutputTokens with
  | some (n + 1) => n + 1
  | _ => defaultMaxOutputTokens

/-- The request of a call that is made at a time. -/
def ReplyCall.request (c : ReplyCall) (settings : OpenAISettings)
    (utcNow : Datetime) : ModelRequest where
  model := settings.model
  input := buildInputItems settings.systemPrompt c.history c.userText none
    utcNow.isoformat
  tools := buildTools settings.webSearchEnabled settings.webSearchContextSize
  maxOutputTokens := c.outputTokens
  temperature := 2 / 5
  requestId := c.requestId
  channel := "alice".toList

/-! ## The adapter -/

inductive AdapterCall where
  | allow
  | utcNow
  | create (request : ModelRequest) (deadlineSeconds : ℚ)
  | recordSuccess
  | recordFailure

@[reducible] def AdapterCall.Res : AdapterCall → Type
  | allow => Bool
  | utcNow => Datetime
  | create .. => ModelResponse
  | recordSuccess => Unit
  | recordFailure => Unit

@[reducible] def AdapterSig : Signature := ⟨AdapterCall, AdapterCall.Res⟩

abbrev AdapterCode := Program AdapterSig PyException

def circuitOpenError : PyException := ⟨.other, none⟩

def incompleteResponseError (reason : Option Str) : PyException :=
  ⟨.incompleteResponseError, reason⟩

/-- What is said when the model has sent no text. -/
def noAnswerText : Str := "Я не успел собрать ответ. Попробуй спросить иначе.".toList

/-- The text of which a reply is made. -/
def replyText (response : ModelResponse) : Str :=
  let rawText := extractResponseText response
  if rawText = [] then noAnswerText else rawText

namespace OpenAIResponsesAdapter

/-- What a call does once the breaker has let it pass. -/
def requestReply (settings : OpenAISettings) (c : ReplyCall) :
    AdapterCode LLMReply := do
  let utcNow ← @perform AdapterSig _ .utcNow
  let response ← (do
    let response ← @perform AdapterSig _
      (.create (c.request settings utcNow) c.deadlineSeconds)
    let _ ← @perform AdapterSig _ .recordSuccess
    return response : AdapterCode ModelResponse).attempt
  match response with
  | .error exc => do
      let _ ← @perform AdapterSig _ .recordFailure
      raise exc
  | .ok response =>
      if responseIsIncomplete response then
        raise (incompleteResponseError (incompleteReason response))
      else return prepareLlmReply (replyText response)

def generateReply (settings : OpenAISettings) (c : ReplyCall) :
    AdapterCode LLMReply := do
  let allowed ← @perform AdapterSig _ .allow
  if !allowed then raise circuitOpenError
  else requestReply settings c

end OpenAIResponsesAdapter

/-! ## Overlapping calls -/

/-- The breaker with the calls made on it, and the requests that
`responses.create` has been called with.  The client may send such a request
more than once by itself; that is not seen here. -/
structure AdapterState where
  breaker : SimpleCircuitBreaker
  calls : List BreakerCall
  received : List ModelRequest

/-- A new adapter. -/
def AdapterState.new : AdapterState := ⟨{}, [], []⟩

/-- What the environment decides about a call: the readings of the clocks, and
how OpenAI would answer the attempts. -/
structure AdapterAnswer where
  now : ℚ
  utc : Datetime
  attempts : ℕ → Attempt ModelResponse

/-- A call on the breaker. -/
def AdapterState.after (s : AdapterState) (call : BreakerCall) : AdapterState :=
  { s with breaker := s.breaker.after call, calls := s.calls ++ [call] }

def execAdapter (settings : OpenAISettings) :
    Handler AdapterSig PyException AdapterState AdapterAnswer
  | a, .allow, s => (.ok (s.breaker.allow a.now).1, s.after (.allow a.now))
  | a, .utcNow, s => (.ok a.utc, s)
  | a, .create request deadlineSeconds, s =>
      let run := createResponseWithBudget settings.maxRetries deadlineSeconds
        a.attempts a.now
      (run.result,
        { s with received := s.received ++ run.requests.map fun _ => request })
  | _, .recordSuccess, s => (.ok (), s.after .recordSuccess)
  | a, .recordFailure, s => (.ok (), s.after (.recordFailure a.now))

/-- Any number of calls on one adapter.  All attempts of a request are one step:
they touch nothing that the calls share, so it does not matter how the attempts
of overlapping calls alternate, and the order of `received` does not tell. -/
@[reducible] def adapterMachine (settings : OpenAISettings) :
    Machine AdapterSig PyException AdapterState AdapterAnswer ReplyCall LLMReply
      Empty where
  exec := execAdapter settings
  permits _ _ := True
  body := OpenAIResponsesAdapter.generateReply settings
  admits _ _ := True
  ambient e _ := e.elim

abbrev AdapterRun :=
  Machine.State AdapterSig PyException AdapterState ReplyCall LLMReply

end AliceSkill
