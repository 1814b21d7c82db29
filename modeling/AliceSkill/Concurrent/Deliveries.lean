import AliceSkill.Concurrent.Calls
import AliceSkill.Services.Calls

/-!
# Deliveries of one request

The same request may be delivered more than once.  A delivery reads the cache
first and writes it last, and what happens in between it does at most once.
Deliveries that do not overlap therefore act as one; the stores and the queue
do not fail here.
-/

namespace AliceSkill

open Text Effects Program Machine RedisPendingReplyStore ConversationService

/-- What a delivery does to history, record and queue. -/
inductive Effect where
  | turn (role : TurnRole)
  | started
  | published
  | failed
  | delivered
  | cleared
  | enqueued
  deriving DecidableEq

def Call.effect : Call → Option Effect
  | .pending (.startPending ..) => some .started
  | .pending (.markReady ..) => some .published
  | .pending (.markFailed ..) => some .failed
  | .pending (.markDelivered ..) => some .delivered
  | .pending (.clearPending ..) => some .cleared
  | .port (.appendTurn _ turn) => some (.turn turn.role)
  | .port (.enqueue _) => some .enqueued
  | _ => none

/-- Calls on the response cache. -/
def Call.caches : Call → Bool
  | .port (.getCachedResponse _) => true
  | .port (.storeResponse ..) => true
  | _ => false

/-- How far a delivery has come; workers are not deliveries. -/
inductive Delivery where
  | unread (key : Str)
  | running (key : Str) (done : List Effect)
  | answered (key : Str) (response : CachedDict)
  | worker

namespace Delivery

/-- The request key of a delivery. -/
def key : Delivery → Option Str
  | unread k => some k
  | running k _ => some k
  | answered k _ => some k
  | worker => none

/-- A delivery reads the cache once, has each effect once and writes the cache
once. -/
def May : Delivery → Call → Prop
  | unread k, op => op = .port (.getCachedResponse k)
  | running k done, op => (∀ x, op.effect = some x → x ∉ done) ∧
      (op.caches = true → ∃ response : AliceWebhookResponse,
        op = .port (.storeResponse k response.modelDump))
  | answered _ _, _ => False
  | worker, op => op.caches = false

/-- Nothing raises that is not allowed to, and the cache holds responses. -/
def Possible (_ : Delivery) (op : Call) (x : Except PyException op.Res) :
    Prop :=
  (∀ e, x = .error e → op.mayRaise = true ∨
    ∃ bucket, op = .port (.checkRateLimit bucket)) ∧
  ∀ k, op = .port (.getCachedResponse k) →
    ¬HEq x (Except.ok (ε := PyException) (some CachedDict.invalid))

/-- The effect of a call is done. -/
def after (done : List Effect) (op : Call) : List Effect :=
  op.effect.toList ++ done

def next (q : Delivery) (op : Call) (x : Except PyException op.Res) :
    Delivery :=
  match q with
  | unread k =>
      match op, x with
      | .port (.getCachedResponse _), .ok none => running k []
      | .port (.getCachedResponse _), .ok (some response) => answered k response
      | _, _ => unread k
  | running k done =>
      match op with
      | .port (.storeResponse _ response) => answered k response
      | op => running k (after done op)
  | answered k response => answered k response
  | worker => worker

end Delivery

/-- The protocol of deliveries. -/
def onceEach : Protocol CallSig PyException Delivery where
  may := Delivery.May
  possible := Delivery.Possible
  next := Delivery.next

/-- The request key of a task. -/
def Task.deliveryKey : Task → Option Str
  | request payload => some payload.requestKey
  | work _ _ => none

def Task.delivery : Task → Delivery
  | request payload => .unread payload.requestKey
  | work _ _ => .worker

/-- A delivery ends with the response in the cache. -/
def Answers (k : Str) :
    Except PyException AliceWebhookResponse → Delivery → Prop :=
  fun r q => ∃ response, r = .ok response ∧ q = .answered k response.modelDump

/-- A part of a delivery ends with a value and has had the effects `done`. -/
def RunsTo {α : Type} (k : Str) (done : List Effect) :
    Except PyException α → Delivery → Prop :=
  fun r q => (∃ a, r = .ok a) ∧ q = .running k done

/-- A part of a delivery ends with a value. -/
def Runs {α : Type} (k : Str) : Except PyException α → Delivery → Prop :=
  fun r q => ∃ done, RunsTo k done r q

section Handlers

variable {cfg : Settings} {payload : AliceWebhookRequest} {key k : Str}
variable {done : List Effect}

theorem next_running {c : Call} (hcache : c.caches = false)
    (x : Except PyException c.Res) :
    onceEach.next (.running k done) c x =
      .running k (Delivery.after done c) := by
  rcases c with c | c
  · rfl
  · rcases c <;> first | rfl | cases hcache

/-- A call that cannot fail, followed by the rest of a function. -/
theorem onceEach_ask_bind {α : Type} {c : Call} {f : c.Res → Service α}
    {R : Except PyException α → Delivery → Prop}
    (hnew : ∀ x, c.effect = some x → x ∉ done) (hcache : c.caches = false)
    (hraise : c.mayRaise = false)
    (hlimit : ∀ bucket, c ≠ .port (.checkRateLimit bucket))
    (hf : ∀ a, (f a).Follows onceEach
      (.running k (Delivery.after done c)) R) :
    ((Ports.ask c).bind f).Follows onceEach (.running k done) R := by
  rw [follows_bind, Ports.ask, follows_perform]
  refine ⟨⟨hnew, by simp [hcache]⟩, fun x hx => ?_⟩
  rcases x with e | a
  · rcases hx.1 e rfl with h | ⟨bucket, h⟩
    · rw [hraise] at h
      cases h
    · exact absurd h (hlimit bucket)
  · rw [next_running hcache]
    exact hf a

/-- A call that may fail, with its exception handled. -/
theorem onceEach_attempt_bind {α : Type} {c : Call}
    {f : Except PyException c.Res → Service α}
    {R : Except PyException α → Delivery → Prop}
    (hnew : c.effect = none) (hcache : c.caches = false)
    (hf : ∀ x, (f x).Follows onceEach (.running k done) R) :
    ((Ports.ask c).attempt.bind f).Follows onceEach (.running k done) R := by
  rw [follows_bind, follows_attempt, Ports.ask, follows_perform]
  refine ⟨⟨by simp [hnew], by simp [hcache]⟩, fun x _ => ?_⟩
  have hafter : Delivery.after done c = done := by
    simp [Delivery.after, hnew]
  rw [next_running hcache, hafter]
  exact hf x

namespace ConversationService

theorem answers_storeAndReturn (response : AliceWebhookResponse) :
    (storeAndReturn payload response).Follows onceEach
      (.running payload.requestKey done) (Answers payload.requestKey) := by
  rw [storeAndReturn, bind_eq, follows_bind, Ports.storeResponse, Ports.ask,
    follows_perform]
  refine ⟨⟨by simp [Call.effect], fun _ => ⟨_, rfl⟩⟩, fun x hx => ?_⟩
  rcases x with e | _
  · rcases hx.1 e rfl with h | ⟨bucket, h⟩ <;> cases h
  · exact ⟨response, rfl, rfl⟩

theorem answers_bind_storeAndReturn {p : Service AliceWebhookResponse}
    (hp : p.Follows onceEach (.running payload.requestKey done)
      (Runs payload.requestKey)) :
    (p.bind (storeAndReturn payload)).Follows onceEach
      (.running payload.requestKey done) (Answers payload.requestKey) := by
  rw [follows_bind]
  refine hp.mono ?_
  rintro r q ⟨done', ⟨response, rfl⟩, rfl⟩
  exact answers_storeAndReturn response

theorem runs_appendTurns {u a : ConversationTurn}
    (hu : .turn u.role ∉ done) (ha : .turn a.role ∉ done)
    (hne : a.role ≠ u.role) :
    (appendTurns key u a).Follows onceEach (.running k done)
      (RunsTo k (.turn a.role :: .turn u.role :: done)) := by
  rw [appendTurns, bind_eq, follows_bind, follows_attempt]
  refine onceEach_ask_bind ?_ rfl rfl (by rintro _ ⟨⟩) fun _ => ?_
  · rintro x ⟨⟩
    exact hu
  · rw [Ports.appendTurn, Ports.ask, follows_perform]
    refine ⟨⟨?_, by simp [Call.caches]⟩, fun x _ => ?_⟩
    · rintro x ⟨⟩
      simp [Delivery.after, Call.effect, hne, ha]
    · rcases x <;> exact ⟨⟨(), rfl⟩, rfl⟩

theorem runs_persistAnalytics (turns : List ConversationTurn) :
    (persistAnalytics key turns none none none).Follows onceEach
      (.running k done) (RunsTo k done) := by
  simp only [persistAnalytics, bind_eq]
  split
  · rw [follows_bind, follows_attempt, follows_bind, Ports.persistTurns,
      Ports.ask, follows_perform]
    refine ⟨⟨by simp [Call.effect], by simp [Call.caches]⟩, fun x _ => ?_⟩
    rcases x <;> exact ⟨⟨(), rfl⟩, rfl⟩
  · exact ⟨⟨(), rfl⟩, rfl⟩

theorem runs_storeImmediateFollowup (hpublished : .published ∉ done)
    (hdelivered : .delivered ∉ done) (reply : LLMReply) :
    (storeImmediateFollowup key reply).Follows onceEach (.running k done)
      (Runs k) := by
  simp only [storeImmediateFollowup, bind_eq]
  split
  · exact ⟨_, ⟨(), rfl⟩, rfl⟩
  · refine onceEach_ask_bind (by rintro x ⟨⟩) rfl rfl (by rintro _ ⟨⟩)
      fun jobId => ?_
    have hsame : Delivery.after done (.port .uuid4) = done := rfl
    rw [hsame]
    split
    · refine onceEach_ask_bind ?_ rfl rfl (by rintro _ ⟨⟩) fun _ => ?_
      · rintro x ⟨⟩
        exact hpublished
      · exact ⟨_, ⟨(), rfl⟩, rfl⟩
    · refine onceEach_ask_bind ?_ rfl rfl (by rintro _ ⟨⟩) fun _ => ?_
      · rintro x ⟨⟩
        exact hpublished
      · rw [Ports.markDelivered, Ports.ask, follows_perform]
        refine ⟨⟨?_, by simp [Call.caches]⟩, fun x hx => ?_⟩
        · rintro x ⟨⟩
          simp [Delivery.after, Call.effect, hdelivered]
        · rcases x with e | _
          · rcases hx.1 e rfl with h | ⟨bucket, h⟩ <;> cases h
          · exact ⟨_, ⟨(), rfl⟩, rfl⟩
    · exact ⟨_, ⟨(), rfl⟩, rfl⟩

theorem runs_deferRequest (hdone : ∀ x ∈ done, x = .cleared) (u : Str) :
    (deferRequest payload key u).Follows onceEach (.running k done)
      (Runs k) := by
  have hnew : ∀ x ∈ Delivery.after done (.port .uuid4), x = .cleared := hdone
  refine onceEach_ask_bind (by rintro x ⟨⟩) rfl rfl (by rintro _ ⟨⟩)
    fun jobId => ?_
  refine onceEach_ask_bind ?_ rfl rfl (by rintro _ ⟨⟩) fun pending => ?_
  · rintro x ⟨⟩ hx
    cases hnew _ hx
  simp only
  split
  · rw [enqueueOrClear]
    simp only [bind_eq, follows_bind, follows_attempt]
    rw [Ports.enqueue, Ports.ask, follows_perform]
    refine ⟨⟨?_, by simp [Call.caches]⟩, fun x hx => ?_⟩
    · rintro x ⟨⟩ hx
      rcases List.mem_append.mp hx with hx | hx
      · simp [Call.effect] at hx
      · cases hnew _ hx
    · rcases x with e | _
      · rcases hx.1 e rfl with h | ⟨bucket, h⟩ <;> cases h
      · exact ⟨_, ⟨_, rfl⟩, rfl⟩
  · exact ⟨_, ⟨_, rfl⟩, rfl⟩

theorem runs_deliverRest (r : PendingReply) (hpublished : .published ∉ done)
    (hcleared : .cleared ∉ done) (response : AliceWebhookResponse) :
    (deliverRest key r response).Follows onceEach (.running k done)
      (Runs k) := by
  rw [deliverRest]
  split
  · refine onceEach_ask_bind ?_ rfl rfl (by rintro _ ⟨⟩) fun updated => ?_
    · rintro x ⟨⟩
      exact hpublished
    split
    · refine onceEach_ask_bind ?_ rfl rfl (by rintro _ ⟨⟩) fun _ => ?_
      · rintro x ⟨⟩
        simp [Delivery.after, Call.effect, hcleared]
      · exact ⟨_, ⟨_, rfl⟩, rfl⟩
    · exact ⟨_, ⟨_, rfl⟩, rfl⟩
  · split
    · exact ⟨_, ⟨_, rfl⟩, rfl⟩
    · refine onceEach_ask_bind ?_ rfl rfl (by rintro _ ⟨⟩) fun _ => ?_
      · rintro x ⟨⟩
        exact hcleared
      · exact ⟨_, ⟨_, rfl⟩, rfl⟩

theorem runs_deliver (r : PendingReply) (t : Str) :
    (deliver payload key r t).Follows onceEach (.running k [])
      (Runs k) := by
  rw [deliver_eq_bind]
  split
  · refine onceEach_ask_bind (by simp) rfl rfl (by rintro _ ⟨⟩) fun _ => ?_
    exact runs_deliverRest r (by simp [Delivery.after, Call.effect])
      (by simp [Delivery.after, Call.effect]) _
  · exact runs_deliverRest r (by simp) (by simp) _

theorem runs_handleContinue (pending : Option PendingReply) :
    (handleContinue payload key pending).Follows onceEach (.running k [])
      (Runs k) := by
  rcases pending with _ | r
  · exact ⟨_, ⟨_, rfl⟩, rfl⟩
  simp only [handleContinue, bind_eq]
  split_ifs
  · exact ⟨_, ⟨_, rfl⟩, rfl⟩
  · refine onceEach_ask_bind (by simp) rfl rfl (by rintro _ ⟨⟩) fun _ => ?_
    exact ⟨_, ⟨_, rfl⟩, rfl⟩
  · refine onceEach_ask_bind (by simp) rfl rfl (by rintro _ ⟨⟩) fun _ => ?_
    exact runs_deferRequest (by simp [Delivery.after, Call.effect]) _
  · exact runs_deliver r _
  · exact ⟨_, ⟨_, rfl⟩, rfl⟩

/-- A new question, after the record in its way has been cleared or not. -/
theorem answers_answerQuestion (hdone : ∀ x ∈ done, x = .cleared) (u : Str) :
    (answerQuestion cfg payload key u).Follows onceEach
      (.running payload.requestKey done) (Answers payload.requestKey) := by
  refine onceEach_ask_bind (by rintro x ⟨⟩) rfl rfl (by rintro _ ⟨⟩)
    fun history => ?_
  refine onceEach_attempt_bind rfl rfl fun outcome => ?_
  rcases outcome with e | reply
  · exact answers_bind_storeAndReturn (runs_deferRequest hdone u)
  · simp only [bind_eq]
    rw [follows_bind, recordCompletedTurns, bind_eq, follows_bind]
    have hturn : ∀ role : TurnRole, .turn role ∉ done := by
      intro role h
      cases hdone _ h
    refine (runs_appendTurns (hturn _) (hturn _) ?_).mono ?_
    · simp
    rintro r q ⟨⟨_, rfl⟩, rfl⟩
    refine (runs_persistAnalytics _).mono ?_
    rintro r q ⟨⟨_, rfl⟩, rfl⟩
    simp only
    rw [follows_bind]
    have hnew : ∀ x : Effect, x ≠ .cleared → x ∉ done :=
      fun x hx h => hx (hdone x h)
    refine (runs_storeImmediateFollowup ?_ ?_ reply).mono ?_
    · simp [hnew]
    · simp [hnew]
    rintro r q ⟨done', ⟨_, rfl⟩, rfl⟩
    exact answers_storeAndReturn _

/-- What a record of the past does to a new question. -/
theorem answers_handleActivePending (r : PendingReply) (u : Str) :
    ((handleActivePending payload key r).bind fun blockingResponse =>
      match blockingResponse with
      | some response => storeAndReturn payload response
      | none => answerQuestion cfg payload key u).Follows onceEach
      (.running payload.requestKey []) (Answers payload.requestKey) := by
  rw [handleActivePending]
  rcases r.status
  · exact answers_storeAndReturn _
  · exact answers_storeAndReturn _
  · simp only [bind_eq, Program.bind_assoc, pure_eq, ret_bind]
    refine onceEach_ask_bind (by simp) rfl rfl (by rintro _ ⟨⟩) fun _ => ?_
    exact answers_answerQuestion (by simp [Delivery.after, Call.effect]) u
  · simp only [bind_eq, Program.bind_assoc, pure_eq, ret_bind]
    refine onceEach_ask_bind (by simp) rfl rfl (by rintro _ ⟨⟩) fun _ => ?_
    exact answers_answerQuestion (by simp [Delivery.after, Call.effect]) u

theorem answers_handleUncached :
    (handleUncached cfg payload).Follows onceEach
      (.running payload.requestKey []) (Answers payload.requestKey) := by
  rw [handleUncached]
  generalize sanitizeUserText payload.utterance = u
  refine onceEach_ask_bind (by simp) rfl rfl (by rintro _ ⟨⟩) fun pending => ?_
  have hnone : Delivery.after [] (.pending (.getPending
      payload.conversationKey)) = [] := rfl
  rw [hnone]
  by_cases hempty : u = []
  · rw [if_pos hempty]
    exact answers_storeAndReturn _
  rw [if_neg hempty]
  generalize isContinueIntent cfg.unicode u (Option.isSome pending) = continues
  rcases continues with _ | _
  · rcases pending with _ | r
    · exact answers_answerQuestion (by simp) u
    · exact answers_handleActivePending r u
  · exact answers_bind_storeAndReturn (runs_handleContinue pending)

/-- A whole delivery. -/
theorem answers_handle :
    (handle cfg payload).Follows onceEach (.unread payload.requestKey)
      (Answers payload.requestKey) := by
  rw [handle, bind_eq, follows_bind, Ports.getCachedResponse, Ports.ask,
    follows_perform]
  refine ⟨rfl, fun x hx => ?_⟩
  rcases x with e | _ | response | _
  · rcases hx.1 e rfl with h | ⟨bucket, h⟩ <;> cases h
  · exact answers_handleUncached
  · exact ⟨response, rfl, rfl⟩
  · exact absurd HEq.rfl (hx.2 _ rfl)

end ConversationService

end Handlers

/-- How a thread ends. -/
def Task.Ends : Task → Except PyException (Option AliceWebhookResponse) →
    Delivery → Prop
  | request payload, r, q => ∃ response, r = .ok (some response) ∧
      q = .answered payload.requestKey response.modelDump
  | work _ _, _, q => q = .worker

/-- Every thread keeps to the protocol. -/
theorem onceEach_body (cfg : Settings) (task : Task) :
    (task.body cfg).Follows onceEach task.delivery task.Ends := by
  rcases task with payload | ⟨i, job⟩
  · rw [Task.body, follows_bind]
    refine answers_handle.mono ?_
    rintro r q ⟨response, rfl, rfl⟩
    exact ⟨response, rfl, rfl⟩
  · have hworks : ∀ op : Call, op.Works job → onceEach.may .worker op ∧
        ∀ x, onceEach.next .worker op x = .worker := by
      intro op hop
      refine ⟨?_, fun _ => rfl⟩
      rcases op with c | c
      · rfl
      · rcases c <;> first | rfl | exact (hop.elim id id).elim
    rw [Task.body, follows_bind]
    refine (Only.follows (only_workJob cfg job) hworks).mono ?_
    rintro r q rfl
    rcases r <;> rfl

end AliceSkill
