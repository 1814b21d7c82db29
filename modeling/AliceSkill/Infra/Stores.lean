import AliceSkill.Domain.Ports

/-!
# The pending store over Redis

`RedisPendingReplyStore` of `infra/redis/stores.py`.  Each method is a program
over single commands on the key of the conversation.  A command carries the
method call it is issued for, so that a run at the level of commands still
shows which operation wrote what.

Records are written as JSON and read back unchanged; the commands move the
records themselves.
-/

namespace AliceSkill

open Text Effects

/-- Commands on the pending key of a conversation, each atomic. -/
inductive KvCommand where
  | get (key : Str)
  | set (key : Str) (value : PendingReply)
  | setNx (key : Str) (value : PendingReply)
  | delete (key : Str)
  deriving DecidableEq

@[reducible] def KvCommand.Res : KvCommand → Type
  | get .. => Option PendingReply
  | set .. => Unit
  | setNx .. => Bool
  | delete .. => Unit

/-- Commands: one on a pending key, issued for a method call, or a call on
another port. -/
inductive Command where
  | kv (caller : PendingCall) (cmd : KvCommand)
  | port (c : PortCall)
  deriving DecidableEq

@[reducible] def Command.Res : Command → Type
  | kv _ cmd => cmd.Res
  | port c => c.Res

instance : (op : Command) → DecidableEq op.Res
  | .kv _ (.get _) => inferInstanceAs (DecidableEq (Option PendingReply))
  | .kv _ (.set _ _) => inferInstanceAs (DecidableEq Unit)
  | .kv _ (.setNx _ _) => inferInstanceAs (DecidableEq Bool)
  | .kv _ (.delete _) => inferInstanceAs (DecidableEq Unit)
  | .port c => inferInstanceAs (DecidableEq c.Res)

@[reducible] def CommandSig : Signature := ⟨Command, Command.Res⟩

/-- Store code: programs over single commands. -/
abbrev StoreCode := Program CommandSig PyException

/-- Issue one command. -/
abbrev issue (c : Command) : StoreCode c.Res := @Program.perform CommandSig _ c

namespace RedisPendingReplyStore

def get (caller : PendingCall) (key : Str) : StoreCode (Option PendingReply) :=
  issue (.kv caller (.get key))

def set (caller : PendingCall) (key : Str) (value : PendingReply) :
    StoreCode Unit :=
  issue (.kv caller (.set key value))

def setNx (caller : PendingCall) (key : Str) (value : PendingReply) :
    StoreCode Bool :=
  issue (.kv caller (.setNx key value))

def delete (caller : PendingCall) (key : Str) : StoreCode Unit :=
  issue (.kv caller (.delete key))

def getPending (key : Str) : StoreCode (Option PendingReply) :=
  get (.getPending key) key

/-- The record of a job that has just been accepted. -/
def processingRecord (jobId : JobId) : PendingReply where
  status := .processing
  replyText := none
  replyTts := none
  tailText := none
  errorMessage := none
  jobId := jobId
  followupMode := .none
  continuationRequest := none

def startPending (key : Str) (job : DeferredJob) : StoreCode PendingReply := do
  let self := PendingCall.startPending key job
  let payload := processingRecord job.jobId
  let created ← setNx self key payload
  if created then
    return payload
  else
    let existing ← get self key
    match existing with
    | some existing => return existing
    | none => return payload

def readyRecord (jobId : JobId) (replyText replyTts : Str)
    (tailText : Option Str) (followupMode : FollowupMode)
    (continuationRequest : Option Str) : PendingReply where
  status := .ready
  replyText := some replyText
  replyTts := some replyTts
  tailText := tailText
  errorMessage := none
  jobId := jobId
  followupMode := followupMode
  continuationRequest := continuationRequest

/-- `current is not None and current.job_id != job_id` -/
def replacedBy (current : Option PendingReply) (jobId : JobId) : Bool :=
  match current with
  | some current => current.jobId ≠ jobId
  | none => false

def markReady (key : Str) (jobId : JobId) (replyText replyTts : Str)
    (tailText : Option Str) (followupMode : FollowupMode)
    (continuationRequest : Option Str) : StoreCode (Option PendingReply) := do
  let self := PendingCall.markReady key jobId replyText replyTts tailText
    followupMode continuationRequest
  let current ← get self key
  if replacedBy current jobId then
    return none
  else
    let payload := readyRecord jobId replyText replyTts tailText followupMode
      continuationRequest
    set self key payload
    return some payload

def failedRecord (jobId : JobId) (errorMessage : Str) : PendingReply where
  status := .failed
  replyText := none
  replyTts := none
  tailText := none
  errorMessage := some errorMessage
  jobId := jobId
  followupMode := .none
  continuationRequest := none

def markFailed (key : Str) (jobId : JobId) (errorMessage : Str) :
    StoreCode Unit := do
  let self := PendingCall.markFailed key jobId errorMessage
  let current ← get self key
  if replacedBy current jobId then
    return ()
  else
    set self key (failedRecord jobId errorMessage)

/-- The delivered copy of a record. -/
def deliveredRecord (jobId : JobId) (current : PendingReply) : PendingReply :=
  { current with status := .delivered, jobId := jobId }

def markDelivered (key : Str) (jobId : JobId) : StoreCode Unit := do
  let self := PendingCall.markDelivered key jobId
  let current ← get self key
  match current with
  | none => return ()
  | some current =>
      if current.jobId ≠ jobId then return ()
      else set self key (deliveredRecord jobId current)

def clearPending (key : Str) (jobId : Option JobId) : StoreCode Unit := do
  let self := PendingCall.clearPending key jobId
  match jobId with
  | none => delete self key
  | some jobId =>
      let current ← get self key
      match current with
      | none => return ()
      | some current =>
          if current.jobId ≠ jobId then return ()
          else delete self key

/-- The program of a method call. -/
def method : (c : PendingCall) → StoreCode c.Res
  | .getPending key => getPending key
  | .startPending key job => startPending key job
  | .markReady key jobId replyText replyTts tailText followupMode
      continuationRequest =>
      markReady key jobId replyText replyTts tailText followupMode
        continuationRequest
  | .markFailed key jobId errorMessage => markFailed key jobId errorMessage
  | .markDelivered key jobId => markDelivered key jobId
  | .clearPending key jobId => clearPending key jobId

end RedisPendingReplyStore

/-- Calls of the service as programs over commands. -/
def implement : (c : Call) → StoreCode c.Res
  | .pending c => RedisPendingReplyStore.method c
  | .port c => issue (.port c)

end AliceSkill
