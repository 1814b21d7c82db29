import AliceSkill.Text.Python

/-!
# Domain records

The records of `domain/models.py`, the request and response of
`schemas/alice.py` and the keys derived from them.  Time stamps are left out:
they are written to the stores and read back, and nothing is decided on them.
Fields of the request that no code reads are left out as well.
-/

namespace AliceSkill

open Text

/-- Job ids are only ever compared for equality; `uuid4` draws a new one. -/
abbrev JobId := ℕ

/-- Position of an entry in the job stream. -/
abbrev StreamId := ℕ

inductive TurnRole where
  | user
  | assistant
  | system
  deriving DecidableEq

inductive PendingStatus where
  | processing
  | ready
  | delivered
  | failed
  deriving DecidableEq

inductive FollowupMode where
  | none
  | readyTail
  | deferredOffer
  deriving DecidableEq

structure ConversationTurn where
  role : TurnRole
  content : Str
  deriving DecidableEq

/-- The one record a conversation has while an answer is outstanding. -/
structure PendingReply where
  status : PendingStatus
  replyText : Option Str
  replyTts : Option Str
  tailText : Option Str
  errorMessage : Option Str
  jobId : JobId
  followupMode : FollowupMode
  continuationRequest : Option Str
  deriving DecidableEq

structure LLMReply where
  shortText : Str
  rawText : Str
  followupMode : FollowupMode
  followupText : Option Str
  continuationRequest : Option Str
  deriving DecidableEq

structure DeferredJob where
  jobId : JobId
  requestId : Str
  conversationKey : Str
  userText : Str
  streamId : Option StreamId
  deriving DecidableEq

/-! ## The webhook payload -/

structure AliceApplication where
  applicationId : Option Str
  deriving DecidableEq

structure AliceUser where
  userId : Option Str
  deriving DecidableEq

structure AliceDevice where
  deviceId : Option Str
  deriving DecidableEq

structure AliceSession where
  sessionId : Str
  messageId : ℤ
  userId : Option Str
  new : Bool
  application : AliceApplication
  user : AliceUser
  deriving DecidableEq

structure AliceRequestPayload where
  command : Str
  originalUtterance : Str
  deriving DecidableEq

structure AliceWebhookRequest where
  session : AliceSession
  request : AliceRequestPayload
  application : Option AliceApplication
  device : Option AliceDevice
  deriving DecidableEq

structure AliceButtonsItem where
  title : Str
  hide : Bool
  deriving DecidableEq

structure AliceResponsePayload where
  text : Str
  tts : Str
  endSession : Bool
  buttons : List AliceButtonsItem
  deriving DecidableEq

structure AliceWebhookResponse where
  version : Str
  response : AliceResponsePayload
  session : AliceSession
  deriving DecidableEq

/-- Python's `a or b` on optional texts: absent and empty both give `b`. -/
def orElse (a b : Option Str) : Option Str :=
  match a with
  | some (c :: cs) => some (c :: cs)
  | _ => b

/-- `a or b` when `b` is certainly a text. -/
def orText (a : Option Str) (b : Str) : Str := (orElse a none).getD b

/-- Python's truth value of an optional text. -/
def truthy (a : Option Str) : Bool := (orElse a none).isSome

@[simp] theorem truthy_none : truthy none = false := rfl

@[simp] theorem truthy_some (t : Str) : truthy (some t) = true ↔ t ≠ [] := by
  cases t <;> simp [truthy, orElse]

namespace AliceWebhookRequest

def utterance (payload : AliceWebhookRequest) : Str :=
  strip (if payload.request.originalUtterance ≠ [] then
    payload.request.originalUtterance else payload.request.command)

/-- The application id both keys start with. -/
def applicationId (payload : AliceWebhookRequest) : Str :=
  orText
    (orElse payload.session.application.applicationId
      (payload.application.bind AliceApplication.applicationId))
    "alice-skill".toList

/-- The user id before the default for anonymous users. -/
def userId (payload : AliceWebhookRequest) : Option Str :=
  orElse payload.session.user.userId payload.session.userId

def requestKey (payload : AliceWebhookRequest) : Str :=
  join ":".toList
    [payload.applicationId, orText payload.userId "anonymous".toList,
      payload.session.sessionId, (toString payload.session.messageId).toList]

end AliceWebhookRequest

structure UserScope where
  applicationId : Str
  userId : Option Str
  sessionId : Str
  deviceId : Option Str
  deriving DecidableEq

def UserScope.conversationKey (scope : UserScope) : Str :=
  join ":".toList
    [scope.applicationId, orText scope.userId "anonymous".toList,
      orText scope.deviceId scope.sessionId, scope.sessionId]

def buildUserScope (payload : AliceWebhookRequest) : UserScope where
  applicationId := payload.applicationId
  userId := payload.userId
  sessionId := payload.session.sessionId
  deviceId := payload.device.bind AliceDevice.deviceId

/-- The conversation a payload belongs to. -/
def AliceWebhookRequest.conversationKey (payload : AliceWebhookRequest) : Str :=
  (buildUserScope payload).conversationKey

/-! ## One conversation, for concrete runs -/

/-- A request of one user in one session. -/
def utter (messageId : ℤ) (utterance : String) : AliceWebhookRequest where
  session :=
    { sessionId := "session".toList, messageId := messageId, userId := none
      new := false, application := ⟨some "app".toList⟩
      user := ⟨some "user".toList⟩ }
  request := ⟨utterance.toList, utterance.toList⟩
  application := none
  device := none

end AliceSkill
