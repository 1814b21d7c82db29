import AliceSkill.Domain.Ports
import AliceSkill.Infra.World
import AliceSkill.Services.Prompting

/-!
# The conversation service

`services/conversation.py`, function by function.  Logging is left out.
-/

namespace AliceSkill

open Text Effects Ports

def fastPathMaxOutputTokens : ℕ := 256

def deferredMaxOutputTokenSteps : List ℕ := [256, 512, 1024, 2048]

def continuationButtons : FollowupMode → List AliceButtonsItem
  | .readyTail => [⟨"Подробнее".toList, true⟩]
  | .deferredOffer => [⟨"Продолжай".toList, true⟩]
  | .none => []

def presentReplyText (text : Str) (followupMode : FollowupMode) : Str :=
  if followupMode = .deferredOffer then text ++ " Скажи: продолжай.".toList
  else text

/-- A response to the payload that says `text`. -/
def respond (payload : AliceWebhookRequest) (text : Str)
    (buttons : List AliceButtonsItem) : AliceWebhookResponse where
  version := "1.0".toList
  response := renderVoiceResponse text buttons
  session := payload.session

/-- The phrases of the service itself. -/
def ownPhrases : List Str :=
  ["Скажи вопрос еще раз, коротко и без паузы.".toList,
    "Я готовлю ответ. Скажи: продолжай.".toList,
    "Я еще готовлю ответ. Скажи: продолжай.".toList,
    "Я еще готовлю предыдущий ответ. Скажи: продолжай.".toList,
    "У меня готов предыдущий ответ. Скажи: продолжай.".toList,
    "Сейчас продолжения нет. Задай новый вопрос.".toList,
    "Продолжения пока нет. Попробуй еще раз через пару секунд.".toList,
    "Не удалось подготовить ответ. Задай вопрос еще раз другими словами.".toList]

namespace ConversationService

/-! ## History and analytics -/

def appendTurns (conversationKey : Str)
    (userTurn assistantTurn : ConversationTurn) : Service Unit := do
  let outcome ← Program.attempt do
    appendTurn conversationKey userTurn
    appendTurn conversationKey assistantTurn
  match outcome with
  | .ok () => return ()
  | .error _ => return ()

def persistAnalytics (conversationKey : Str) (turns : List ConversationTurn)
    (job : Option DeferredJob) (reply : Option LLMReply) (error : Option Str) :
    Service Unit := do
  let persistJob : Service Unit :=
    match job with
    | some job => persistJobResult job reply error
    | none => return ()
  let outcome ← Program.attempt
    (if turns ≠ [] then
      (persistTurns conversationKey turns).bind fun _ => persistJob
    else persistJob)
  match outcome with
  | .ok () => return ()
  | .error _ => return ()

def recordCompletedTurns (conversationKey : Str)
    (userTurn assistantTurn : ConversationTurn) : Service Unit := do
  appendTurns conversationKey userTurn assistantTurn
  persistAnalytics conversationKey [userTurn, assistantTurn] none none none

/-! ## Deferring a request -/

/-- The response that acknowledges a deferred request. -/
def deferredResponse (payload : AliceWebhookRequest) : AliceWebhookResponse :=
  respond payload "Я готовлю ответ. Скажи: продолжай.".toList
    [⟨"Продолжай".toList, true⟩]

/-- Enqueue a job; if that fails, take back the record made for it. -/
def enqueueOrClear (conversationKey : Str) (job : DeferredJob) :
    Service Unit := do
  let outcome ← Program.attempt (enqueue job)
  match outcome with
  | .ok () => return ()
  | .error exc =>
      clearPending conversationKey (some job.jobId)
      .raise exc

def deferRequest (payload : AliceWebhookRequest) (conversationKey utterance : Str) :
    Service AliceWebhookResponse := do
  let jobId ← uuid4
  let job : DeferredJob :=
    { jobId := jobId
      requestId := payload.requestKey
      conversationKey := conversationKey
      userText := utterance
      streamId := none }
  let pending ← startPending conversationKey job
  if pending.jobId = job.jobId then
    enqueueOrClear conversationKey job
    return deferredResponse payload
  else
    return deferredResponse payload

/-! ## Requests -/

def storeImmediateFollowup (conversationKey : Str) (reply : LLMReply) :
    Service Unit := do
  if reply.followupMode = .none then
    return ()
  else
    let jobId ← uuid4
    match reply.followupMode, reply.followupText, reply.continuationRequest with
    | .readyTail, some (c :: cs), _ =>
        let _ ← markReady conversationKey jobId (c :: cs) (c :: cs) none .readyTail none
        return ()
    | .deferredOffer, _, some continuationRequest =>
        let _ ← markReady conversationKey jobId reply.shortText reply.shortText none
          .deferredOffer (some continuationRequest)
        markDelivered conversationKey jobId
    | _, _, _ => return ()

def handleActivePending (payload : AliceWebhookRequest) (conversationKey : Str)
    (pending : PendingReply) : Service (Option AliceWebhookResponse) := do
  match pending.status with
  | .processing =>
      return some (respond payload
        "Я еще готовлю предыдущий ответ. Скажи: продолжай.".toList [])
  | .ready =>
      return some (respond payload
        "У меня готов предыдущий ответ. Скажи: продолжай.".toList [])
  | .failed =>
      clearPending conversationKey (some pending.jobId)
      return none
  | .delivered =>
      -- both branches of the source for a delivered record clear it
      clearPending conversationKey (some pending.jobId)
      return none

/-- Speak the text of a READY or DELIVERED record and move the record on. -/
def deliver (payload : AliceWebhookRequest) (conversationKey : Str)
    (pending : PendingReply) (replyText : Str) :
    Service AliceWebhookResponse := do
  let response := respond payload
    (presentReplyText replyText pending.followupMode)
    (continuationButtons
      (if pending.tailText ≠ none then .readyTail else pending.followupMode))
  (if pending.status = .ready then
    markDelivered conversationKey pending.jobId
  else return ())
  match pending.tailText with
  | some (c :: cs) =>
      let updated ← markReady conversationKey pending.jobId (c :: cs) (c :: cs) none
        .readyTail none
      (if updated = none then
        clearPending conversationKey (some pending.jobId)
      else return ())
      return response
  | _ =>
      if pending.followupMode = .deferredOffer ∧
          truthy pending.continuationRequest then
        return response
      else
        clearPending conversationKey (some pending.jobId)
        return response

/-- Whether a continue request turns the record into a new job. -/
def isOpenOffer (pending : PendingReply) : Bool :=
  pending.status = .delivered ∧ pending.followupMode = .deferredOffer ∧
    truthy pending.continuationRequest

def handleContinue (payload : AliceWebhookRequest) (conversationKey : Str)
    (pending : Option PendingReply) : Service AliceWebhookResponse := do
  match pending with
  | none =>
      return respond payload
        "Сейчас продолжения нет. Задай новый вопрос.".toList []
  | some pending =>
      if pending.status = .processing then
        return respond payload "Я еще готовлю ответ. Скажи: продолжай.".toList []
      else if pending.status = .failed then
        clearPending conversationKey (some pending.jobId)
        return respond payload
          "Не удалось подготовить ответ. Задай вопрос еще раз другими словами.".toList
          []
      else if isOpenOffer pending then
        clearPending conversationKey (some pending.jobId)
        deferRequest payload conversationKey
          (orText pending.continuationRequest [])
      else if truthy pending.replyText then
        deliver payload conversationKey pending (orText pending.replyText [])
      else
        return respond payload
          "Продолжения пока нет. Попробуй еще раз через пару секунд.".toList []

/-- Cache a response and return it. -/
def storeAndReturn (payload : AliceWebhookRequest)
    (response : AliceWebhookResponse) : Service AliceWebhookResponse := do
  storeResponse payload.requestKey response.modelDump
  return response

/-- The fast path: a new question, with no record in its way. -/
def answerQuestion (cfg : Settings) (payload : AliceWebhookRequest)
    (conversationKey utterance : Str) : Service AliceWebhookResponse := do
  let history ← getHistory conversationKey
  let outcome ← Program.attempt
    (generateReply utterance history payload.requestKey
      cfg.openaiTimeoutSeconds fastPathMaxOutputTokens)
  match outcome with
  | .error _ =>
      let response ← deferRequest payload conversationKey utterance
      storeAndReturn payload response
  | .ok reply =>
      let response := respond payload
        (presentReplyText reply.shortText reply.followupMode)
        (continuationButtons reply.followupMode)
      recordCompletedTurns conversationKey ⟨.user, utterance⟩
        ⟨.assistant, reply.rawText⟩
      storeImmediateFollowup conversationKey reply
      storeAndReturn payload response

/-- `handle` after its cache miss. -/
def handleUncached (cfg : Settings) (payload : AliceWebhookRequest) :
    Service AliceWebhookResponse := do
  let conversationKey := payload.conversationKey
  let utterance := sanitizeUserText payload.utterance
  let pending ← getPending conversationKey
  if utterance = [] then
    storeAndReturn payload
      (respond payload "Скажи вопрос еще раз, коротко и без паузы.".toList [])
  else if isContinueIntent cfg.unicode utterance pending.isSome then
    let response ← handleContinue payload conversationKey pending
    storeAndReturn payload response
  else
    match pending with
    | none => answerQuestion cfg payload conversationKey utterance
    | some pending =>
        let blockingResponse ← handleActivePending payload conversationKey pending
        match blockingResponse with
        | some response => storeAndReturn payload response
        | none => answerQuestion cfg payload conversationKey utterance

def handle (cfg : Settings) (payload : AliceWebhookRequest) :
    Service AliceWebhookResponse := do
  let cached ← getCachedResponse payload.requestKey
  match cached with
  | some cached =>
      match AliceWebhookResponse.modelValidate cached with
      | .ok response => return response
      | .error e => .raise e
  | none => handleUncached cfg payload

/-! ## Jobs -/

/-- One round of the deferred generation for each remaining output budget. -/
def generateWithin (job : DeferredJob) (history : List ConversationTurn)
    (deadlineAt : ℚ) : Option PyException → List ℕ → Service LLMReply
  | none, [] => .raise ⟨.timeoutError, none⟩
  | some exc, [] => .raise exc
  | lastIncomplete, maxOutputTokens :: steps => do
      let now ← monotonic
      let remaining := deadlineAt - now
      if remaining ≤ 0 then
        match lastIncomplete with
        | some exc => .raise exc
        | none => .raise ⟨.timeoutError, none⟩
      else
        let outcome ← Program.attempt
          (generateReply job.userText history job.requestId remaining
            maxOutputTokens)
        match outcome with
        | .ok reply => return reply
        | .error exc =>
            if exc.reason ≠ some "max_output_tokens".toList then .raise exc
            else generateWithin job history deadlineAt (some exc) steps

def generateDeferredReply (job : DeferredJob) (history : List ConversationTurn)
    (deadlineSeconds : ℚ) : Service LLMReply := do
  let now ← monotonic
  generateWithin job history (now + deadlineSeconds) none
    deferredMaxOutputTokenSteps

/-- The reply of a job that is skipped. -/
def skippedReply : LLMReply where
  shortText := []
  rawText := []
  followupMode := .none
  followupText := none
  continuationRequest := none

/-- The record a worker may work on: the one of its job, still in progress. -/
def isProcessingFor (current : Option PendingReply) (jobId : JobId) : Bool :=
  match current with
  | some current => current.jobId = jobId ∧ current.status = .processing
  | none => false

def processDeferredJob (job : DeferredJob) (deadlineSeconds : ℚ) :
    Service LLMReply := do
  let currentPending ← getPending job.conversationKey
  if isProcessingFor currentPending job.jobId then
    let history ← getHistory job.conversationKey
    let reply ← generateDeferredReply job history deadlineSeconds
    let userTurn : ConversationTurn := ⟨.user, job.userText⟩
    let assistantTurn : ConversationTurn := ⟨.assistant, reply.rawText⟩
    appendTurns job.conversationKey userTurn assistantTurn
    let updated ← markReady job.conversationKey job.jobId reply.shortText
      reply.shortText reply.followupText reply.followupMode
      reply.continuationRequest
    if updated = none then
      return reply
    else
      persistAnalytics job.conversationKey [userTurn, assistantTurn] (some job)
        (some reply) none
      return reply
  else
    return skippedReply

def failDeferredJob (job : DeferredJob) (errorMessage : Str) : Service Unit := do
  markFailed job.conversationKey job.jobId errorMessage
  persistAnalytics job.conversationKey [] (some job) none (some errorMessage)

end ConversationService

end AliceSkill
