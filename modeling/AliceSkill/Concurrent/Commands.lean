import AliceSkill.Concurrent.Machines
import AliceSkill.Effects.Serving

/-!
# The commands of a call

A call on the pending store issues commands on the key of its conversation; a
call on another port is a single command.
-/

namespace AliceSkill

open Text Effects Program RedisPendingReplyStore

/-- The conversation a call on the pending store is about. -/
def PendingCall.key : PendingCall → Str
  | getPending key => key
  | startPending key _ => key
  | markReady key .. => key
  | markFailed key .. => key
  | markDelivered key _ => key
  | clearPending key _ => key

/-- The commands a call may issue. -/
def Call.Issues (c : Call) : Command → Prop
  | .kv caller cmd => c = .pending caller ∧ cmd.key = caller.key
  | .port c' => c = .port c'

/-- A method reads the record and may write or delete it afterwards. -/
theorem only_get_bind {c : PendingCall} {α : Type}
    {f : Option PendingReply → StoreCode α}
    (hf : ∀ current, (f current).Only (Call.Issues (.pending c))) :
    ((get c c.key).bind f).Only (Call.Issues (.pending c)) :=
  Only.bind (only_perform ⟨rfl, rfl⟩) hf

theorem only_set {c : PendingCall} (r : PendingReply) :
    (set c c.key r).Only (Call.Issues (.pending c)) :=
  only_perform ⟨rfl, rfl⟩

theorem only_delete {c : PendingCall} :
    (delete c c.key).Only (Call.Issues (.pending c)) :=
  only_perform ⟨rfl, rfl⟩

theorem only_startPending (key : Str) (job : DeferredJob) :
    (startPending key job).Only
      (Call.Issues (.pending (.startPending key job))) := by
  refine Only.bind (only_perform ⟨rfl, rfl⟩) fun created => ?_
  split
  · trivial
  · refine Only.bind (only_perform ⟨rfl, rfl⟩) fun existing => ?_
    rcases existing with _ | existing <;> trivial

theorem only_markReady (key : Str) (jobId : JobId) (replyText replyTts : Str)
    (tailText : Option Str) (followupMode : FollowupMode)
    (continuationRequest : Option Str) :
    (markReady key jobId replyText replyTts tailText followupMode
      continuationRequest).Only
      (Call.Issues (.pending (.markReady key jobId replyText replyTts tailText
        followupMode continuationRequest))) := by
  refine only_get_bind fun current => ?_
  split
  · trivial
  · exact Only.bind (only_set _) fun _ => trivial

theorem only_markFailed (key : Str) (jobId : JobId) (errorMessage : Str) :
    (markFailed key jobId errorMessage).Only
      (Call.Issues (.pending (.markFailed key jobId errorMessage))) := by
  refine only_get_bind fun current => ?_
  split
  · trivial
  · exact only_set _

theorem only_markDelivered (key : Str) (jobId : JobId) :
    (markDelivered key jobId).Only
      (Call.Issues (.pending (.markDelivered key jobId))) := by
  refine only_get_bind fun current => ?_
  rcases current with _ | current
  · trivial
  · simp only
    split
    · trivial
    · exact only_set _

theorem only_clearPending (key : Str) (jobId : Option JobId) :
    (clearPending key jobId).Only
      (Call.Issues (.pending (.clearPending key jobId))) := by
  rcases jobId with _ | jobId
  · exact only_delete
  · refine only_get_bind fun current => ?_
    rcases current with _ | current
    · trivial
    · simp only
      split
      · trivial
      · exact only_delete

theorem only_implement (c : Call) : (implement c).Only c.Issues := by
  cases c with
  | port c => exact only_perform rfl
  | pending c =>
      cases c with
      | getPending key => exact only_perform ⟨rfl, rfl⟩
      | startPending key job => exact only_startPending key job
      | markReady key jobId replyText replyTts tailText mode request =>
          exact only_markReady key jobId replyText replyTts tailText mode request
      | markFailed key jobId errorMessage => exact only_markFailed key jobId errorMessage
      | markDelivered key jobId => exact only_markDelivered key jobId
      | clearPending key jobId => exact only_clearPending key jobId

/-- What a program over calls issues when its calls are implemented. -/
theorem only_interp_implement {α : Type} {ok : Call → Prop}
    {ok' : Command → Prop} {p : Program CallSig PyException α} (hp : p.Only ok)
    (h : ∀ c op, ok c → c.Issues op → ok' op) :
    (p.interp implement).Only ok' :=
  hp.interp fun c hc => (only_implement c).mono fun op => h c op hc

end AliceSkill
