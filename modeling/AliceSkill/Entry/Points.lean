import AliceSkill.Services.Conversation

/-!
# Entry points

The webhook of `api/routes/alice.py` and the worker of
`workers/deferred_worker.py`.  The worker loop is modelled by its body: one
execution for one delivered stream entry.
-/

namespace AliceSkill

open Text Effects Ports ConversationService

/-! ## Webhook -/

/-- The webhook secret is configured and the request does not carry it. -/
def secretRejected (cfg : Settings) (secret : Option Str) : Bool :=
  match cfg.webhookSecret with
  | some expected => secret ≠ some expected
  | none => false

def rateLimitBucket (payload : AliceWebhookRequest) (clientHost : Option Str) :
    Str :=
  join ":".toList [payload.conversationKey, clientHost.getD "unknown".toList]

/-- The answer of the route to an exception; only an HTTP exception with
another status than 429 leaves it. -/
def answerException (payload : AliceWebhookRequest) (exc : PyException) :
    Service AliceWebhookResponse :=
  match exc.kind with
  | .httpException statusCode =>
      if statusCode ≠ 429 then .raise exc
      else pure (respond payload
        "Слишком много запросов подряд. Попробуй чуть позже.".toList [])
  | _ =>
      pure (respond payload
        "Сервис временно недоступен. Попробуй чуть позже.".toList [])

def aliceWebhook (cfg : Settings) (payload : AliceWebhookRequest)
    (secret clientHost : Option Str) : Service AliceWebhookResponse := do
  if secretRejected cfg secret then
    return respond payload "Запрос не прошел проверку. Попробуй позже.".toList []
  else
    -- this read is made before the route's `try`
    let cached ← getCachedResponse payload.requestKey
    let limitAndHandle : Service AliceWebhookResponse := do
      (if cached = none then checkRateLimit (rateLimitBucket payload clientHost)
      else return ())
      handle cfg payload
    let outcome ← limitAndHandle.attempt
    match outcome with
    | .ok response => return response
    | .error exc => answerException payload exc

/-! ## Worker -/

/-- Whether the entry of a job is to be acknowledged. -/
def processJob (cfg : Settings) (job : DeferredJob) : Service Bool := do
  let outcome ← (processDeferredJob job cfg.workerJobTimeoutSeconds).attempt
  match outcome with
  | .ok _ => return true
  | .error _ =>
      let failed ←
        (failDeferredJob job "deferred_generation_failed".toList).attempt
      match failed with
      | .ok () => return true
      | .error _ => return false

/-- One round of the worker loop. -/
def workJob (cfg : Settings) (job : DeferredJob) : Service Unit := do
  let shouldAck ← processJob cfg job
  match shouldAck, job.streamId with
  | true, some streamId =>
      let _ ← (Ports.ack streamId).attempt
      return ()
  | _, _ => return ()

/-- The job decoded from a stream entry. -/
def decodeJob (streamId : StreamId) (entry : StreamEntry) : DeferredJob :=
  { entry.job with streamId := some streamId }

end AliceSkill
