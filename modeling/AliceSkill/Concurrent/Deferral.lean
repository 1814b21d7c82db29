import AliceSkill.Concurrent.Machines
import AliceSkill.Sequential.Service
import AliceSkill.Services.Calls

/-!
# The protocol of a deferred request

Seen from the store and the queue, a request that is deferred draws an id,
tries to store the record, puts the job on the stream and, if that fails,
takes the record back.  A worker execution works until the record of its job
is no longer in progress, and acknowledges its entry only after that.
-/

namespace AliceSkill

open Text Effects Program Machine ConversationService RedisPendingReplyStore

/-- How far a thread has come.  The flag `stored` says whether the record of
the job was stored by this thread. -/
inductive Phase where
  /-- A request that has not drawn an id. -/
  | fresh
  | drawn (j : JobId)
  /-- The record was not stored; the one found is read next. -/
  | reading (job : DeferredJob)
  /-- The job is enqueued next. -/
  | entered (job : DeferredJob) (stored : Bool)
  /-- The queue failed; the record is read and deleted next. -/
  | checking (job : DeferredJob) (stored : Bool)
  | deleting (job : DeferredJob) (stored : Bool)
  /-- The request has its response. -/
  | replied (job : DeferredJob) (stored enqueued : Bool)
  | ended
  /-- A worker execution whose job may be in progress. -/
  | working (job : DeferredJob)
  /-- A worker execution whose job is no longer in progress. -/
  | settled (job : DeferredJob)

/-- Commands that neither start a job nor put it on or take it off the
stream. -/
def Command.Plain : Command → Prop
  | .kv _ (.get _) => True
  | .kv _ (.set _ r) => r.status ≠ .processing
  | .kv _ (.setNx _ _) => False
  | .kv _ (.delete _) => True
  | .port (.enqueue _) => False
  | .port (.ack _) => False
  | .port .uuid4 => False
  | .port _ => True

/-- Calls outside the pending store that neither draw an id nor touch the
stream. -/
def Call.Background : Call → Prop
  | .pending _ => False
  | .port (.enqueue _) => False
  | .port (.ack _) => False
  | .port .uuid4 => False
  | .port _ => True

/-- Commands of a worker on the record of its job. -/
def Command.WorksOn (job : DeferredJob) : Command → Prop
  | .kv self (.get key) => key = job.conversationKey ∧
      (self = .getPending key ∨ self.guard = some job.jobId)
  | .kv self (.set key r) => key = job.conversationKey ∧
      self.guard = some job.jobId ∧ r.status ≠ .processing
  | .kv _ (.setNx _ _) => False
  | .kv _ (.delete _) => False
  | .port c => (Call.port c).Background

/-- The call of `start_pending` for a job. -/
def startCall (job : DeferredJob) : PendingCall :=
  .startPending job.conversationKey job

/-- The compensating call of `clear_pending` for a job. -/
def clearCall (job : DeferredJob) : PendingCall :=
  .clearPending job.conversationKey (some job.jobId)

/-- What a thread may do in a phase. -/
def Phase.May : Phase → Command → Prop
  | fresh, op => op.Plain ∨ op = .port .uuid4
  | drawn j, op => op.Plain ∨ ∃ job : DeferredJob, job.jobId = j ∧
      op = .kv (startCall job) (.setNx job.conversationKey (processingRecord j))
  | reading job, op => op = .kv (startCall job) (.get job.conversationKey)
  | entered job _, op => op = .port (.enqueue job)
  | checking job _, op => op = .kv (clearCall job) (.get job.conversationKey)
  | deleting job _, op => op = .kv (clearCall job) (.delete job.conversationKey)
  | replied _ _ _, op => ∃ key response, op = .port (.storeResponse key response)
  | ended, _ => False
  | working job, op => op.WorksOn job
  | settled job, op =>
      (∃ i, job.streamId = some i ∧ op = .port (.ack i)) ∨
      ∃ c, op = .port c ∧ (Call.port c).Background

/-- Where the outcome of a command leads. -/
def Phase.next (q : Phase) (op : Command) (x : Except PyException op.Res) :
    Phase :=
  match q with
  | fresh =>
      match op, x with
      | .port .uuid4, .ok j => drawn j
      | _, _ => fresh
  | drawn j =>
      match op, x with
      | .kv (.startPending _ job) (.setNx _ _), .ok created =>
          if created then entered job true else reading job
      | .kv (.startPending _ _) (.setNx _ _), .error _ => ended
      | _, _ => drawn j
  | reading job =>
      match op, x with
      | .kv _ (.get _), .ok existing =>
          if replacedBy existing job.jobId then replied job false false
          else entered job false
      | _, _ => ended
  | entered job stored =>
      match x with
      | .ok _ => replied job stored true
      | .error _ => checking job stored
  | checking job stored =>
      match op, x with
      | .kv _ (.get _), .ok (some current) =>
          if current.jobId = job.jobId then deleting job stored else ended
      | _, _ => ended
  | deleting _ _ => ended
  | working job =>
      match op, x with
      | .kv (.getPending _) (.get _), .ok current =>
          if isProcessingFor current job.jobId then working job
          else settled job
      | .kv _ (.get _), .ok current =>
          if replacedBy current job.jobId then settled job else working job
      | .kv _ (.set _ _), .ok _ => settled job
      | _, _ => working job
  | replied job stored enqueued => replied job stored enqueued
  | ended => ended
  | settled job => settled job

/-- The protocol that handlers and workers keep to. -/
def deferral : Protocol CommandSig PyException Phase where
  may := Phase.May
  possible _ _ _ := True
  next := Phase.next

/-- The job whose record this thread has stored and not yet put on the stream
or taken back. -/
def Phase.unfinished : Phase → Option DeferredJob
  | entered job true => some job
  | checking job true => some job
  | deleting job true => some job
  | _ => none

/-- The phase a thread starts in. -/
def Task.phase : Task → Phase
  | request _ => .fresh
  | work _ job => .working job

/-! ## Handlers keep to the protocol -/

/-- Calls made of plain commands. -/
def Call.Plain : Call → Prop
  | .pending (.startPending ..) => False
  | .port (.enqueue _) => False
  | .port (.ack _) => False
  | .port .uuid4 => False
  | _ => True

theorem only_issue {ok : Command → Prop} {c : Command} (h : ok c) :
    (issue c).Only ok := by
  refine ⟨h, fun x => ?_⟩
  rcases x with e | a <;> trivial

theorem plain_implement {c : Call} (h : c.Plain) :
    (implement c).Only Command.Plain := by
  rcases c with c | c
  · rcases c with key | ⟨key, job⟩ |
      ⟨key, j, replyText, replyTts, tailText, mode, request⟩ |
      ⟨key, j, errorMessage⟩ | ⟨key, j⟩ | ⟨key, _ | j⟩
    · exact only_issue trivial
    · exact h.elim
    · refine Only.bind (only_issue trivial) fun current => ?_
      split
      · trivial
      · refine Only.bind (only_issue ?_) fun _ => trivial
        simp [Command.Plain, readyRecord]
    · refine Only.bind (only_issue trivial) fun current => ?_
      split
      · trivial
      · refine only_issue ?_
        simp [Command.Plain, failedRecord]
    · refine Only.bind (only_issue trivial) fun current => ?_
      rcases current with _ | current
      · trivial
      · simp only
        split
        · trivial
        · refine only_issue ?_
          simp [Command.Plain, deliveredRecord]
    · exact only_issue trivial
    · refine Only.bind (only_issue trivial) fun current => ?_
      rcases current with _ | current
      · trivial
      · simp only
        split
        · trivial
        · exact only_issue trivial
  · refine only_issue ?_
    rcases c <;> exact h

/-- Before a job has been started, and after an id has been drawn for other
purposes. -/
def Phase.Idle (q : Phase) : Prop := q = .fresh ∨ ∃ j, q = .drawn j

theorem idle_stays {q : Phase} (hq : q.Idle) {op : Command} (h : op.Plain) :
    deferral.may q op ∧ ∀ x, deferral.next q op x = q := by
  rcases hq with rfl | ⟨j, rfl⟩
  · refine ⟨Or.inl h, fun x => ?_⟩
    rcases op with ⟨self, cmd⟩ | c
    · rfl
    · rcases c <;> first | rfl | exact h.elim
  · refine ⟨Or.inl h, fun x => ?_⟩
    rcases op with ⟨self, cmd⟩ | c
    · rcases cmd with key | ⟨key, r⟩ | ⟨key, r⟩ | key
      · rcases self <;> rfl
      · rcases self <;> rfl
      · exact h.elim
      · rcases self <;> rfl
    · rfl

/-- The response is ready: nothing was started, or the request has been
deferred to the end. -/
def Phase.Responding (q : Phase) : Prop :=
  q.Idle ∨ ∃ job stored enqueued, q = .replied job stored enqueued

/-- A function that returns with the response ready. -/
def Responds : Except PyException AliceWebhookResponse → Phase → Prop
  | .ok _, q => q.Responding
  | .error _, q => q.unfinished = none

theorem Phase.Idle.unfinished {q : Phase} (hq : q.Idle) :
    q.unfinished = none := by
  rcases hq with rfl | ⟨j, rfl⟩ <;> rfl

theorem Phase.Responding.unfinished {q : Phase} (hq : q.Responding) :
    q.unfinished = none := by
  rcases hq with hq | ⟨job, stored, enqueued, rfl⟩
  · exact hq.unfinished
  · rfl

theorem idle_fresh : Phase.Idle .fresh := Or.inl rfl

/-- A function made of plain calls leaves an idle phase as it is. -/
theorem follows_plain {α : Type} {p : Service α} (hp : p.Only Call.Plain)
    {q : Phase} (hq : q.Idle) :
    (p.interp implement).Follows deferral q fun _ q' => q' = q :=
  hp.follows_interp fun _ hc => (plain_implement hc).follows fun _ hop =>
    idle_stays hq hop

theorem follows_plain_bind {α β : Type} {p : Service α} {f : α → Service β}
    (hp : p.Only Call.Plain) {q : Phase} (hq : q.Idle)
    {R : Except PyException β → Phase → Prop}
    (hf : ∀ a, ((f a).interp implement).Follows deferral q R)
    (herr : ∀ e, R (.error e) q) :
    ((p.bind f).interp implement).Follows deferral q R := by
  rw [follows_interp_bind]
  refine (follows_plain hp hq).mono fun r q' hq' => ?_
  subst hq'
  rcases r with e | a
  · exact herr e
  · exact hf a

theorem plain_of_records {c : Call} (h : c.Records) : c.Plain := by
  rcases c with c | c
  · exact h.elim
  · rcases c <;> trivial

namespace ConversationService

variable {cfg : Settings} {payload : AliceWebhookRequest} {key : Str}

theorem plain_recordCompletedTurns (u a : ConversationTurn) :
    (recordCompletedTurns key u a).Only Call.Plain :=
  Only.mono (only_recordCompletedTurns u a) fun _ => plain_of_records

theorem plain_deliver (r : PendingReply) (t : Str) :
    (deliver payload key r t).Only Call.Plain := by
  refine Only.bind ?_ fun _ => ?_
  · split
    · exact only_ask trivial
    · trivial
  · split
    · refine Only.bind (only_ask trivial) fun updated => ?_
      refine Only.bind ?_ fun _ => trivial
      split
      · exact only_ask trivial
      · trivial
    · split
      · trivial
      · exact Only.bind (only_ask trivial) fun _ => trivial

theorem plain_handleActivePending (r : PendingReply) :
    (handleActivePending payload key r).Only Call.Plain := by
  rw [handleActivePending]
  rcases r.status
  · trivial
  · trivial
  · exact Only.bind (only_ask trivial) fun _ => trivial
  · exact Only.bind (only_ask trivial) fun _ => trivial

theorem plain_storeAndReturn (response : AliceWebhookResponse) :
    (storeAndReturn payload response).Only Call.Plain :=
  Only.bind (only_ask trivial) fun _ => trivial

/-- The compensation of a failed enqueue. -/
theorem follows_compensation (job : DeferredJob) (stored : Bool) :
    (RedisPendingReplyStore.clearPending job.conversationKey
      (some job.jobId)).Follows deferral (.checking job stored)
        fun _ q => q = .ended := by
  change ((RedisPendingReplyStore.get (clearCall job)
    job.conversationKey).bind _).Follows _ _ _
  rw [follows_bind, follows_get]
  refine ⟨rfl, fun x _ => ?_⟩
  rcases x with e | _ | current
  · rfl
  · rfl
  · by_cases hj : current.jobId = job.jobId
    · simp only [hj, ne_eq, not_true_eq_false, if_false]
      change (RedisPendingReplyStore.delete (clearCall job)
        job.conversationKey).Follows deferral _ _
      rw [follows_delete]
      simp [deferral, Phase.next, Phase.May, hj]
    · simp [deferral, Phase.next, hj]

/-- Enqueueing with its compensation ends in a reply or ends the thread. -/
theorem follows_enqueueOrClear (job : DeferredJob) (stored : Bool) :
    ((enqueueOrClear job.conversationKey job).interp implement).Follows deferral
      (.entered job stored) fun r q => match r with
        | .ok _ => q = .replied job stored true
        | .error _ => q = .ended := by
  rw [enqueueOrClear, bind_eq, follows_interp_bind, follows_interp_attempt,
    Ports.enqueue, interp_perform, follows_port]
  refine ⟨rfl, fun x _ => ?_⟩
  rcases x with e | a
  · change ((Ports.clearPending job.conversationKey (some job.jobId)).bind
      fun _ => raise e).interp implement |>.Follows deferral
        (.checking job stored) _
    rw [follows_interp_bind, Ports.clearPending, interp_perform]
    refine (follows_compensation job stored).mono fun r q hq => ?_
    rcases r <;> exact hq
  · rfl

/-- Storing the record of a job. -/
theorem follows_startPending (job : DeferredJob) :
    (RedisPendingReplyStore.startPending job.conversationKey job).Follows
      deferral (.drawn job.jobId) fun r q => match r with
        | .ok pending => if pending.jobId = job.jobId
            then ∃ stored, q = .entered job stored
            else q = .replied job false false
        | .error _ => q = .ended := by
  rw [RedisPendingReplyStore.startPending, bind_eq, follows_bind, follows_setNx]
  refine ⟨Or.inr ⟨job, rfl, rfl⟩, fun x _ => ?_⟩
  rcases x with e | created
  · rfl
  rcases created with _ | _
  · simp only [Bool.false_eq_true, if_false, bind_eq, follows_bind, follows_get]
    refine ⟨rfl, fun x _ => ?_⟩
    rcases x with e | _ | existing
    · rfl
    · simp [deferral, Phase.next, replacedBy, processingRecord]
    · by_cases hj : existing.jobId = job.jobId
      · simp [deferral, Phase.next, replacedBy, hj]
      · simp [deferral, Phase.next, replacedBy, hj]
  · simp [deferral, Phase.next, processingRecord]

/-- A deferred request replies with the acknowledgement or ends the thread. -/
theorem follows_deferRequest (u : Str) :
    ((deferRequest payload key u).interp implement).Follows deferral .fresh
      Responds := by
  rw [deferRequest, bind_eq, follows_interp_bind, Ports.uuid4, interp_perform,
    follows_port]
  refine ⟨Or.inr rfl, fun x _ => ?_⟩
  rcases x with e | j
  · rfl
  change (((Ports.startPending key (deferredJob payload key u j)).bind fun pending =>
    if pending.jobId = j then
      (enqueueOrClear key (deferredJob payload key u j)).bind fun _ =>
        ret (deferredResponse payload)
    else ret (deferredResponse payload)).interp implement).Follows deferral
      (.drawn j) _
  rw [follows_interp_bind, Ports.startPending, interp_perform]
  refine (follows_startPending (deferredJob payload key u j)).mono fun r q hq => ?_
  rcases r with e | pending
  · rw [hq]
    rfl
  · by_cases hj : pending.jobId = (deferredJob payload key u j).jobId
    · simp only [hj, if_true] at hq
      obtain ⟨stored, rfl⟩ := hq
      change ((if pending.jobId = (deferredJob payload key u j).jobId then _
        else _ : Service AliceWebhookResponse).interp implement).Follows _ _ _
      rw [if_pos hj, follows_interp_bind]
      refine (follows_enqueueOrClear (deferredJob payload key u j) stored).mono
        fun r q hq => ?_
      rcases r with e | _
      · rw [hq]
        rfl
      · rw [hq]
        exact Or.inr ⟨_, _, _, rfl⟩
    · simp only [if_neg hj] at hq
      change ((if pending.jobId = (deferredJob payload key u j).jobId then _
        else _ : Service AliceWebhookResponse).interp implement).Follows _ _ _
      rw [if_neg hj, hq]
      exact Or.inr ⟨_, _, _, rfl⟩

/-- The response is cached at the end of a request. -/
theorem follows_storeAndReturn {q : Phase} (hq : q.Responding)
    (response : AliceWebhookResponse) :
    ((storeAndReturn payload response).interp implement).Follows deferral q
      fun _ q' => q' = q := by
  rcases hq with hq | ⟨job, stored, enqueued, rfl⟩
  · exact follows_plain (plain_storeAndReturn response) hq
  · rw [storeAndReturn, bind_eq, follows_interp_bind, Ports.storeResponse,
      interp_perform, follows_port]
    refine ⟨⟨_, _, rfl⟩, fun x _ => ?_⟩
    rcases x <;> rfl

theorem follows_bind_storeAndReturn {p : Service AliceWebhookResponse}
    (hp : (p.interp implement).Follows deferral .fresh Responds) :
    ((p.bind (storeAndReturn payload)).interp implement).Follows deferral
      .fresh fun _ q => q.unfinished = none := by
  rw [follows_interp_bind]
  refine hp.mono fun r q hq => ?_
  rcases r with e | response
  · exact hq
  · refine (follows_storeAndReturn hq response).mono fun r q' hq' => ?_
    rw [hq']
    exact hq.unfinished

theorem follows_handleContinue (pending : Option PendingReply) :
    ((handleContinue payload key pending).interp implement).Follows deferral
      .fresh Responds := by
  have hfresh : Phase.Responding .fresh := Or.inl idle_fresh
  rcases pending with _ | r
  · exact hfresh
  simp only [handleContinue, bind_eq]
  split_ifs
  · exact hfresh
  · refine follows_plain_bind ?_ idle_fresh (fun _ => hfresh) fun _ => rfl
    exact only_ask trivial
  · refine follows_plain_bind ?_ idle_fresh
      (fun _ => follows_deferRequest _) fun _ => rfl
    exact only_ask trivial
  · refine (follows_plain (plain_deliver r _) idle_fresh).mono fun x q hq => ?_
    subst hq
    rcases x with e | response
    · rfl
    · exact hfresh
  · exact hfresh

/-- An immediate follow-up draws an id and stores a record under it. -/
theorem follows_storeImmediateFollowup (reply : LLMReply) :
    ((storeImmediateFollowup key reply).interp implement).Follows deferral
      .fresh fun _ q => q.Idle := by
  simp only [storeImmediateFollowup, bind_eq]
  split
  · exact idle_fresh
  · rw [follows_interp_bind, Ports.uuid4, interp_perform, follows_port]
    refine ⟨Or.inr rfl, fun x _ => ?_⟩
    rcases x with e | j
    · exact idle_fresh
    · have hdrawn : Phase.Idle (.drawn j) := Or.inr ⟨j, rfl⟩
      have hphase : deferral.next .fresh (.port .uuid4) (.ok j) = .drawn j :=
        rfl
      simp only [hphase]
      split
      · refine follows_plain_bind ?_ hdrawn (fun _ => hdrawn) fun _ => hdrawn
        exact only_ask trivial
      · refine follows_plain_bind ?_ hdrawn (fun _ => ?_) fun _ => hdrawn
        · exact only_ask trivial
        · have hdelivered : (Ports.markDelivered key j).Only Call.Plain :=
            only_ask trivial
          refine (follows_plain hdelivered hdrawn).mono fun _ q hq => ?_
          rw [hq]
          exact hdrawn
      · exact hdrawn

theorem follows_answerQuestion (u : Str) :
    ((answerQuestion cfg payload key u).interp implement).Follows deferral
      .fresh fun _ q => q.unfinished = none := by
  refine follows_plain_bind ?_ idle_fresh (fun history => ?_) fun _ => rfl
  · exact only_ask trivial
  refine follows_plain_bind ?_ idle_fresh (fun outcome => ?_) fun _ => rfl
  · exact Only.attempt (only_ask trivial)
  rcases outcome with e | reply
  · exact follows_bind_storeAndReturn (follows_deferRequest u)
  · refine follows_plain_bind (plain_recordCompletedTurns _ _) idle_fresh
      (fun _ => ?_) fun _ => rfl
    rw [bind_eq, follows_interp_bind]
    refine (follows_storeImmediateFollowup reply).mono fun r q hq => ?_
    rcases r with e | _
    · exact hq.unfinished
    · refine (follows_storeAndReturn (Or.inl hq) _).mono fun r q' hq' => ?_
      rw [hq']
      exact hq.unfinished

theorem follows_handleActivePending (r : PendingReply) (u : Str) :
    (((handleActivePending payload key r).bind fun blockingResponse =>
      match blockingResponse with
      | some response => storeAndReturn payload response
      | none => answerQuestion cfg payload key u).interp implement).Follows
      deferral .fresh fun _ q => q.unfinished = none := by
  refine follows_plain_bind (plain_handleActivePending r) idle_fresh
    (fun blocking => ?_) fun _ => rfl
  rcases blocking with _ | response
  · exact follows_answerQuestion u
  · refine (follows_storeAndReturn (Or.inl idle_fresh) response).mono
      fun r q hq => ?_
    rw [hq]
    rfl

theorem follows_handleUncached :
    ((handleUncached cfg payload).interp implement).Follows deferral .fresh
      fun _ q => q.unfinished = none := by
  simp only [handleUncached, bind_eq]
  generalize sanitizeUserText payload.utterance = u
  refine follows_plain_bind ?_ idle_fresh (fun pending => ?_) fun _ => rfl
  · exact only_ask trivial
  by_cases hempty : u = []
  · rw [if_pos hempty]
    refine (follows_storeAndReturn (Or.inl idle_fresh) _).mono fun r q hq => ?_
    rw [hq]
    rfl
  rw [if_neg hempty]
  generalize isContinueIntent cfg.unicode u (Option.isSome pending) = continues
  rcases continues with _ | _
  · rcases pending with _ | r
    · exact follows_answerQuestion u
    · exact follows_handleActivePending r u
  · exact follows_bind_storeAndReturn (follows_handleContinue pending)

/-- A whole request. -/
theorem follows_handle :
    ((handle cfg payload).interp implement).Follows deferral .fresh
      fun _ q => q.unfinished = none := by
  simp only [handle, bind_eq]
  refine follows_plain_bind ?_ idle_fresh (fun cached => ?_) fun _ => rfl
  · exact only_ask trivial
  rcases cached with _ | response | _
  · exact follows_handleUncached
  · rfl
  · rfl

/-! ## Workers keep to the protocol -/

/-- Background calls keep the phase of a worker. -/
theorem background_stays {job : DeferredJob} {q : Phase}
    (hq : q = .working job ∨ q = .settled job) {c : Call}
    (hc : c.Background) :
    (implement c).Follows deferral q fun _ q' => q' = q := by
  rcases c with c | c
  · exact hc.elim
  · rw [follows_port]
    rcases hq with rfl | rfl
    · exact ⟨hc, fun x _ => rfl⟩
    · exact ⟨Or.inr ⟨c, rfl, hc⟩, fun x _ => rfl⟩

theorem follows_background {α : Type} {p : Service α}
    (hp : p.Only Call.Background) {job : DeferredJob} {q : Phase}
    (hq : q = .working job ∨ q = .settled job) :
    (p.interp implement).Follows deferral q fun _ q' => q' = q :=
  hp.follows_interp fun _ hc => background_stays hq hc

theorem background_of_records {c : Call} (h : c.Records) : c.Background := by
  rcases c with c | c
  · exact h.elim
  · rcases c <;> trivial

theorem background_of_generates {c : Call} (h : c.Generates) :
    c.Background := by
  rcases c with c | c
  · exact h.elim
  · rcases c <;> trivial

/-- Analytics may fail, but that is not seen outside. -/
theorem follows_persistAnalytics {job' : DeferredJob} {q : Phase}
    (hq : q = .working job' ∨ q = .settled job')
    (turns : List ConversationTurn) (job : Option DeferredJob)
    (reply : Option LLMReply) (error : Option Str) :
    ((persistAnalytics key turns job reply error).interp implement).Follows
      deferral q fun r q' => r = .ok () ∧ q' = q := by
  have hbackground : (persistAnalytics key turns job reply error).Only
      Call.Background :=
    Only.mono (only_persistAnalytics _ _ _ _) fun _ h =>
      background_of_records (records_of_analytics h)
  have hfollows := follows_background hbackground hq
  simp only [persistAnalytics, bind_eq] at hfollows ⊢
  rw [follows_interp_bind, follows_interp_attempt] at hfollows ⊢
  refine hfollows.mono fun r q' h => ?_
  rcases r with e | _
  · exact ⟨rfl, h⟩
  · exact ⟨rfl, h⟩

/-- Publishing the outcome of a job settles it, unless a command fails. -/
def Settles {α : Type} (job : DeferredJob) :
    Except PyException α → Phase → Prop
  | .ok _, q => q = .settled job
  | .error _, q => q = .working job

/-- The read of an operation guarded by the job: a record of another job
settles the job. -/
theorem follows_guarded_get {α : Type} {job : DeferredJob}
    {self : PendingCall} {f : Option PendingReply → StoreCode α}
    (hself : self.guard = some job.jobId)
    (hf : ∀ current, replacedBy current job.jobId = false →
      (f current).Follows deferral (.working job) (Settles job))
    (hreplaced : ∀ current, replacedBy current job.jobId = true →
      ∃ a, f current = ret a) :
    ((RedisPendingReplyStore.get self job.conversationKey).bind f).Follows
      deferral (.working job) (Settles job) := by
  have hnext : ∀ current, deferral.next (.working job)
      (.kv self (.get job.conversationKey)) (.ok current) =
      if replacedBy current job.jobId then .settled job
      else .working job := by
    intro current
    rcases self <;> first | rfl | cases hself
  rw [follows_bind, follows_get]
  refine ⟨⟨rfl, Or.inr hself⟩, fun x _ => ?_⟩
  rcases x with e | current
  · rcases self <;> rfl
  simp only [hnext]
  rcases hr : replacedBy current job.jobId with _ | _
  · exact hf current hr
  · obtain ⟨a, ha⟩ := hreplaced current hr
    rw [ha]
    rfl

theorem follows_guarded_set {job : DeferredJob}
    {self : PendingCall} {r : PendingReply}
    (hself : self.guard = some job.jobId) (hr : r.status ≠ .processing) :
    (RedisPendingReplyStore.set self job.conversationKey r).Follows deferral
      (.working job) (Settles job) := by
  rw [follows_set]
  refine ⟨⟨rfl, hself, hr⟩, fun x _ => ?_⟩
  rcases x with e | _ <;> rcases self <;> rfl

theorem follows_markReady (job : DeferredJob)
    (replyText replyTts : Str) (tailText : Option Str) (mode : FollowupMode)
    (request : Option Str) :
    (RedisPendingReplyStore.markReady job.conversationKey job.jobId replyText
      replyTts tailText mode request).Follows deferral (.working job)
        (Settles job) := by
  refine follows_guarded_get rfl (fun current hr => ?_)
    fun current hr => ⟨_, if_pos hr⟩
  rw [hr]
  simp only [Bool.false_eq_true, if_false, bind_eq, follows_bind]
  refine (follows_guarded_set rfl ?_).mono fun r q hq => ?_
  · simp [readyRecord]
  · rcases r <;> exact hq

theorem follows_markFailed (job : DeferredJob) (m : Str) :
    (RedisPendingReplyStore.markFailed job.conversationKey job.jobId m).Follows
      deferral (.working job) (Settles job) := by
  refine follows_guarded_get rfl (fun current hr => ?_)
    fun current hr => ⟨_, if_pos hr⟩
  rw [hr]
  exact follows_guarded_set rfl (by simp [failedRecord])

/-- A job is settled when its processing returns. -/
theorem follows_processDeferredJob (job : DeferredJob)
    (deadlineSeconds : ℚ) :
    ((processDeferredJob job deadlineSeconds).interp implement).Follows deferral
      (.working job) (Settles job) := by
  have hworking : ∀ {α : Type} {p : Service α} {f : α → Service LLMReply},
      p.Only Call.Background →
      (∀ a, ((f a).interp implement).Follows deferral (.working job)
        (Settles job)) →
      ((p.bind f).interp implement).Follows deferral (.working job)
        (Settles job) := by
    intro α p f hp hf
    rw [follows_interp_bind]
    refine (follows_background hp (Or.inl rfl)).mono fun r q hq => ?_
    rw [hq]
    rcases r with e | a
    · rfl
    · exact hf a
  simp only [processDeferredJob, bind_eq]
  rw [follows_interp_bind, Ports.getPending, interp_perform]
  change (RedisPendingReplyStore.get (.getPending job.conversationKey)
    job.conversationKey).Follows _ _ _
  rw [follows_get]
  refine ⟨⟨rfl, Or.inl rfl⟩, fun x _ => ?_⟩
  rcases x with e | current
  · rfl
  by_cases hrun : isProcessingFor current job.jobId = true
  · have hphase : deferral.next (.working job)
        (.kv (.getPending job.conversationKey) (.get job.conversationKey))
        (.ok current) = .working job := by
      simp [deferral, Phase.next, hrun]
    simp only [hrun, if_true, hphase]
    refine hworking ?_ fun history => ?_
    · exact only_ask trivial
    refine hworking ?_ fun reply => ?_
    · exact Only.mono (only_generateDeferredReply _ _)
        fun _ => background_of_generates
    refine hworking ?_ fun _ => ?_
    · exact Only.mono (only_appendTurns _ _) fun _ h =>
        background_of_records (records_of_appends h)
    rw [follows_interp_bind, Ports.markReady, interp_perform]
    refine (follows_markReady job _ _ _ _ _).mono fun r q hq => ?_
    rcases r with e | updated
    · exact hq
    · have hsettled : q = .settled job := hq
      subst hsettled
      by_cases hupdated : updated = none
      · simp only [hupdated, if_true]
        rfl
      · simp only [hupdated, if_false]
        rw [follows_interp_bind]
        refine (follows_persistAnalytics (Or.inr rfl) _ _ _ _).mono ?_
        rintro r q' ⟨rfl, rfl⟩
        rfl
  · simp [hrun, deferral, Phase.next, Settles]

theorem follows_failDeferredJob (job : DeferredJob) (m : Str) :
    ((failDeferredJob job m).interp implement).Follows deferral
      (.working job) (Settles job) := by
  rw [failDeferredJob, bind_eq, follows_interp_bind, Ports.markFailed,
    interp_perform]
  refine (follows_markFailed job m).mono fun r q hq => ?_
  rcases r with e | _
  · exact hq
  · have hsettled : q = .settled job := hq
    subst hsettled
    refine (follows_persistAnalytics (Or.inr rfl) _ _ _ _).mono ?_
    rintro r q' ⟨rfl, rfl⟩
    rfl

/-- An entry is to be acknowledged only when its job is settled. -/
theorem follows_processJob (cfg : Settings) (job : DeferredJob) :
    ((processJob cfg job).interp implement).Follows deferral (.working job)
      fun r q => r = .ok true ∧ q = .settled job ∨
        r = .ok false ∧ q = .working job := by
  simp only [processJob, bind_eq]
  rw [follows_interp_bind, follows_interp_attempt]
  refine (follows_processDeferredJob job _).mono fun r q hq => ?_
  rcases r with e | reply
  · have hworking : q = .working job := hq
    subst hworking
    change ((Program.attempt (failDeferredJob job _)).bind _).interp
      implement |>.Follows _ _ _
    rw [follows_interp_bind, follows_interp_attempt]
    refine (follows_failDeferredJob job _).mono fun r q hq => ?_
    rcases r with e | _
    · exact Or.inr ⟨rfl, hq⟩
    · exact Or.inl ⟨rfl, hq⟩
  · exact Or.inl ⟨rfl, hq⟩

/-- A whole worker execution. -/
theorem follows_workJob (cfg : Settings) (job : DeferredJob) :
    ((workJob cfg job).interp implement).Follows deferral (.working job)
      fun _ q => q.unfinished = none := by
  simp only [workJob, bind_eq]
  rw [follows_interp_bind]
  refine (follows_processJob cfg job).mono ?_
  rintro r q (⟨rfl, rfl⟩ | ⟨rfl, rfl⟩)
  · rcases hstream : job.streamId with _ | i
    · rfl
    · change ((Program.attempt (Ports.ack i)).bind fun _ => ret ()).interp
        implement |>.Follows _ _ _
      rw [follows_interp_bind, follows_interp_attempt, Ports.ack,
        interp_perform, follows_port]
      exact ⟨Or.inl ⟨i, hstream, rfl⟩, fun x _ => rfl⟩
  · rfl

end ConversationService

/-- Every thread keeps to the protocol. -/
theorem follows_body (cfg : Settings) (task : Task) :
    ((task.body cfg).interp implement).Follows deferral task.phase
      fun _ q => q.unfinished = none := by
  rcases task with payload | ⟨i, job⟩
  · rw [Task.body, follows_interp_bind]
    refine follows_handle.mono fun r q hq => ?_
    rcases r <;> exact hq
  · rw [Task.body, follows_interp_bind]
    refine (follows_workJob cfg job).mono fun r q hq => ?_
    rcases r <;> exact hq

end AliceSkill
