import AliceSkill.Domain.Models
import AliceSkill.Effects.Program
import Mathlib.Data.Rat.Defs

/-!
# Calls the service makes on its ports

`domain/ports.py`, as a signature of calls: every method of a port, together
with the two library functions whose value comes from outside (`uuid4` and
`monotonic`).  The calls on the pending store are kept apart from the others,
because they are the ones made of several Redis commands.
-/

namespace AliceSkill

open Text Effects

/-! ## Exceptions -/

inductive ExceptionKind where
  | httpException (statusCode : ℕ)
  | timeoutError
  | incompleteResponseError
  | validationError
  | other
  deriving DecidableEq

/-- An exception, with the attribute `reason` some of them carry. -/
structure PyException where
  kind : ExceptionKind
  reason : Option Str
  deriving DecidableEq

/-- A JSON object found in the response cache; `invalid` when it does not
validate as a response. -/
inductive CachedDict where
  | dump (response : AliceWebhookResponse)
  | invalid
  deriving DecidableEq

def AliceWebhookResponse.modelDump (response : AliceWebhookResponse) :
    CachedDict := .dump response

def AliceWebhookResponse.modelValidate :
    CachedDict → Except PyException AliceWebhookResponse
  | .dump response => .ok response
  | .invalid => .error ⟨.validationError, none⟩

/-! ## Calls -/

/-- Methods of `PendingReplyStore`. -/
inductive PendingCall where
  | getPending (conversationKey : Str)
  | startPending (conversationKey : Str) (job : DeferredJob)
  | markReady (conversationKey : Str) (jobId : JobId) (replyText replyTts : Str)
      (tailText : Option Str) (followupMode : FollowupMode)
      (continuationRequest : Option Str)
  | markFailed (conversationKey : Str) (jobId : JobId) (errorMessage : Str)
  | markDelivered (conversationKey : Str) (jobId : JobId)
  | clearPending (conversationKey : Str) (jobId : Option JobId)
  deriving DecidableEq

@[reducible] def PendingCall.Res : PendingCall → Type
  | getPending .. => Option PendingReply
  | startPending .. => PendingReply
  | markReady .. => Option PendingReply
  | markFailed .. => Unit
  | markDelivered .. => Unit
  | clearPending .. => Unit

/-- Methods of the other ports, each a single command or transaction. -/
inductive PortCall where
  | getCachedResponse (key : Str)
  | storeResponse (key : Str) (response : CachedDict)
  | getHistory (conversationKey : Str)
  | appendTurn (conversationKey : Str) (turn : ConversationTurn)
  | generateReply (userText : Str) (history : List ConversationTurn)
      (requestId : Str) (deadlineSeconds : ℚ) (maxOutputTokens : ℕ)
  | enqueue (job : DeferredJob)
  | ack (streamId : StreamId)
  | persistTurns (conversationKey : Str) (turns : List ConversationTurn)
  | persistJobResult (job : DeferredJob) (reply : Option LLMReply)
      (error : Option Str)
  | checkRateLimit (bucket : Str)
  | uuid4
  | monotonic
  deriving DecidableEq

@[reducible] def PortCall.Res : PortCall → Type
  | getCachedResponse .. => Option CachedDict
  | storeResponse .. => Unit
  | getHistory .. => List ConversationTurn
  | appendTurn .. => Unit
  | generateReply .. => LLMReply
  | enqueue .. => Unit
  | ack .. => Unit
  | persistTurns .. => Unit
  | persistJobResult .. => Unit
  | checkRateLimit .. => Unit
  | uuid4 => JobId
  | monotonic => ℚ

instance : (c : PendingCall) → DecidableEq c.Res
  | .getPending _ => inferInstanceAs (DecidableEq (Option PendingReply))
  | .startPending .. => inferInstanceAs (DecidableEq PendingReply)
  | .markReady .. => inferInstanceAs (DecidableEq (Option PendingReply))
  | .markFailed .. => inferInstanceAs (DecidableEq Unit)
  | .markDelivered .. => inferInstanceAs (DecidableEq Unit)
  | .clearPending .. => inferInstanceAs (DecidableEq Unit)

instance : (c : PortCall) → DecidableEq c.Res
  | .getCachedResponse _ => inferInstanceAs (DecidableEq (Option CachedDict))
  | .storeResponse .. => inferInstanceAs (DecidableEq Unit)
  | .getHistory _ => inferInstanceAs (DecidableEq (List ConversationTurn))
  | .appendTurn .. => inferInstanceAs (DecidableEq Unit)
  | .generateReply .. => inferInstanceAs (DecidableEq LLMReply)
  | .enqueue _ => inferInstanceAs (DecidableEq Unit)
  | .ack _ => inferInstanceAs (DecidableEq Unit)
  | .persistTurns .. => inferInstanceAs (DecidableEq Unit)
  | .persistJobResult .. => inferInstanceAs (DecidableEq Unit)
  | .checkRateLimit _ => inferInstanceAs (DecidableEq Unit)
  | .uuid4 => inferInstanceAs (DecidableEq ℕ)
  | .monotonic => inferInstanceAs (DecidableEq ℚ)

inductive Call where
  | pending (c : PendingCall)
  | port (c : PortCall)
  deriving DecidableEq

@[reducible] def Call.Res : Call → Type
  | pending c => c.Res
  | port c => c.Res

instance : (c : Call) → DecidableEq c.Res
  | .pending c => inferInstanceAs (DecidableEq c.Res)
  | .port c => inferInstanceAs (DecidableEq c.Res)

@[reducible] def CallSig : Signature := ⟨Call, Call.Res⟩

/-- Service code: programs over the calls on the ports. -/
abbrev Service := Program CallSig PyException

namespace Ports

/-- Make one call. -/
abbrev ask (c : Call) : Service c.Res := @Program.perform CallSig _ c

def getPending (conversationKey : Str) : Service (Option PendingReply) :=
  ask (.pending (.getPending conversationKey))

def startPending (conversationKey : Str) (job : DeferredJob) :
    Service PendingReply :=
  ask (.pending (.startPending conversationKey job))

def markReady (conversationKey : Str) (jobId : JobId) (replyText replyTts : Str)
    (tailText : Option Str) (followupMode : FollowupMode)
    (continuationRequest : Option Str) : Service (Option PendingReply) :=
  ask (.pending (.markReady conversationKey jobId replyText replyTts
    tailText followupMode continuationRequest))

def markFailed (conversationKey : Str) (jobId : JobId) (errorMessage : Str) :
    Service Unit :=
  ask (.pending (.markFailed conversationKey jobId errorMessage))

def markDelivered (conversationKey : Str) (jobId : JobId) : Service Unit :=
  ask (.pending (.markDelivered conversationKey jobId))

def clearPending (conversationKey : Str) (jobId : Option JobId) :
    Service Unit :=
  ask (.pending (.clearPending conversationKey jobId))

def getCachedResponse (key : Str) : Service (Option CachedDict) :=
  ask (.port (.getCachedResponse key))

def storeResponse (key : Str) (response : CachedDict) : Service Unit :=
  ask (.port (.storeResponse key response))

def getHistory (conversationKey : Str) : Service (List ConversationTurn) :=
  ask (.port (.getHistory conversationKey))

def appendTurn (conversationKey : Str) (turn : ConversationTurn) :
    Service Unit :=
  ask (.port (.appendTurn conversationKey turn))

def generateReply (userText : Str) (history : List ConversationTurn)
    (requestId : Str) (deadlineSeconds : ℚ) (maxOutputTokens : ℕ) :
    Service LLMReply :=
  ask (.port (.generateReply userText history requestId deadlineSeconds
    maxOutputTokens))

def enqueue (job : DeferredJob) : Service Unit :=
  ask (.port (.enqueue job))

def ack (streamId : StreamId) : Service Unit :=
  ask (.port (.ack streamId))

def persistTurns (conversationKey : Str) (turns : List ConversationTurn) :
    Service Unit :=
  ask (.port (.persistTurns conversationKey turns))

def persistJobResult (job : DeferredJob) (reply : Option LLMReply)
    (error : Option Str) : Service Unit :=
  ask (.port (.persistJobResult job reply error))

def checkRateLimit (bucket : Str) : Service Unit :=
  ask (.port (.checkRateLimit bucket))

def uuid4 : Service JobId := ask (.port .uuid4)

def monotonic : Service ℚ := ask (.port .monotonic)

end Ports

end AliceSkill
