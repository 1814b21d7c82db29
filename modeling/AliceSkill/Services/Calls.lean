import AliceSkill.Effects.Protocol
import AliceSkill.Entry.Points

/-!
# Which calls are made

The calls that the parts of the service can make at all, whatever comes back
from them.
-/

namespace AliceSkill

open Text Effects Program ConversationService

/-- Calls on the analytics repository. -/
def Call.analytics : Call → Bool
  | .port (.persistTurns ..) => true
  | .port (.persistJobResult ..) => true
  | _ => false

/-- Calls that append a turn to a history. -/
def Call.Appends : Call → Prop
  | .port (.appendTurn ..) => True
  | _ => False

/-- Calls that write down what has been said. -/
def Call.Records : Call → Prop
  | .port (.appendTurn ..) => True
  | .port (.persistTurns ..) => True
  | .port (.persistJobResult ..) => True
  | _ => False

/-- Calls of the generation with its time budget. -/
def Call.Generates : Call → Prop
  | .port .monotonic => True
  | .port (.generateReply ..) => True
  | _ => False

/-- Calls of a worker execution. -/
def Call.Works (job : DeferredJob) : Call → Prop
  | .pending (.getPending key) => key = job.conversationKey
  | .pending (.markReady key jobId ..) =>
      key = job.conversationKey ∧ jobId = job.jobId
  | .pending (.markFailed key jobId _) =>
      key = job.conversationKey ∧ jobId = job.jobId
  | .pending _ => False
  | .port (.getHistory _) => True
  | .port (.ack streamId) => job.streamId = some streamId
  | c => c.Records ∨ c.Generates

/-- Calls of a request: what it publishes has no further tail. -/
def Call.Serves : Call → Prop
  | .pending (.markReady _ _ _ _ tailText _ _) => tailText = none
  | .pending (.markFailed ..) => False
  | .port (.ack _) => False
  | _ => True

/-- Calls of a request apart from those that write down what has been said. -/
def Call.Acts : Call → Prop
  | .pending (.markReady _ _ _ _ tailText _ _) => tailText = none
  | .pending (.markFailed ..) => False
  | .port (.ack _) => False
  | .port (.appendTurn ..) => False
  | .port (.persistTurns ..) => False
  | .port (.persistJobResult ..) => False
  | _ => True

/-- Calls of a worker after its execution of the job. -/
def Call.Concludes : Call → Prop
  | .pending (.markFailed ..) => True
  | .port (.persistTurns ..) => True
  | .port (.persistJobResult ..) => True
  | .port (.ack _) => True
  | _ => False

theorem records_of_appends {c : Call} (h : c.Appends) : c.Records := by
  rcases c with c | c
  · exact h.elim
  · rcases c <;> trivial

theorem records_of_analytics {c : Call} (h : c.analytics = true) :
    c.Records := by
  rcases c with c | c
  · cases h
  · rcases c <;> trivial

theorem only_ask {ok : Call → Prop} {c : Call} (h : ok c) :
    (Ports.ask c).Only ok :=
  only_perform h

/-- What `deliver` does after a READY record has been marked as delivered. -/
def deliverRest (key : Str) (r : PendingReply)
    (response : AliceWebhookResponse) : Service AliceWebhookResponse :=
  match r.tailText with
  | some (c :: cs) =>
      (Ports.markReady key r.jobId (c :: cs) (c :: cs) none .readyTail
        none).bind fun updated =>
        (if updated = none then Ports.clearPending key (some r.jobId)
        else ret ()).bind fun _ => ret response
  | _ =>
      if r.followupMode = .deferredOffer ∧ truthy r.continuationRequest then
        ret response
      else
        (Ports.clearPending key (some r.jobId)).bind fun _ => ret response

namespace ConversationService

variable {key : Str} {job : DeferredJob}

theorem only_appendTurns (u a : ConversationTurn) :
    (appendTurns key u a).Only Call.Appends := by
  refine Only.bind (Only.attempt ?_) fun r => ?_
  · exact Only.bind (only_ask trivial) fun _ => only_ask trivial
  · rcases r <;> trivial

/-- The result of a job is written down where there is a job. -/
theorem only_persistJob (job : Option DeferredJob) (reply : Option LLMReply)
    (error : Option Str) :
    (match job with
      | some job => Ports.persistJobResult job reply error
      | none => return () : Service Unit).Only
        fun c : Call => c.analytics = true := by
  cases job with
  | none => trivial
  | some job => exact only_ask rfl

theorem only_persistAnalytics (turns : List ConversationTurn)
    (job : Option DeferredJob) (reply : Option LLMReply)
    (error : Option Str) :
    (persistAnalytics key turns job reply error).Only
      fun c : Call => c.analytics = true := by
  have hjob := only_persistJob job reply error
  refine Only.bind (Only.attempt ?_) fun r => ?_
  · split
    · exact Only.bind (only_ask rfl) fun _ => hjob
    · exact hjob
  · rcases r <;> trivial

theorem only_recordCompletedTurns (u a : ConversationTurn) :
    (recordCompletedTurns key u a).Only Call.Records := by
  refine Only.bind ?_ fun _ => ?_
  · exact Only.mono (only_appendTurns u a) fun _ => records_of_appends
  · exact Only.mono (only_persistAnalytics _ _ _ _) fun _ =>
      records_of_analytics

theorem only_generateWithin (history : List ConversationTurn) (deadlineAt : ℚ)
    (last : Option PyException) (steps : List ℕ) :
    (generateWithin job history deadlineAt last steps).Only
      Call.Generates := by
  induction steps generalizing last with
  | nil => rcases last <;> trivial
  | cons maxOutputTokens steps ih =>
      unfold generateWithin
      simp only [bind_eq]
      refine Only.bind ?_ fun now => ?_
      · exact only_ask trivial
      split
      · rcases last <;> trivial
      · refine Only.bind (Only.attempt ?_) fun outcome => ?_
        · exact only_ask trivial
        · rcases outcome with e | reply
          · simp only
            split
            · trivial
            · exact ih (some e)
          · trivial

theorem only_generateDeferredReply (history : List ConversationTurn)
    (deadlineSeconds : ℚ) :
    (generateDeferredReply job history deadlineSeconds).Only
      Call.Generates := by
  refine Only.bind ?_ fun now => only_generateWithin _ _ _ _
  exact only_ask trivial

theorem works_of_records {c : Call} (h : c.Records) : c.Works job := by
  rcases c with c | c
  · exact h.elim
  · rcases c <;> first | exact Or.inl h | exact h.elim

theorem works_of_generates {c : Call} (h : c.Generates) : c.Works job := by
  rcases c with c | c
  · exact h.elim
  · rcases c <;> first | exact Or.inr h | exact h.elim

theorem only_processDeferredJob (deadlineSeconds : ℚ) :
    (processDeferredJob job deadlineSeconds).Only (Call.Works job) := by
  simp only [processDeferredJob, bind_eq]
  refine Only.bind (only_ask rfl) fun current => ?_
  split
  · refine Only.bind ?_ fun history => ?_
    · exact only_ask trivial
    refine Only.bind ?_ fun reply => ?_
    · exact Only.mono (only_generateDeferredReply _ _) fun _ => works_of_generates
    refine Only.bind ?_ fun _ => ?_
    · exact Only.mono (only_appendTurns _ _) fun _ h =>
        works_of_records (records_of_appends h)
    refine Only.bind ?_ fun updated => ?_
    · exact only_ask ⟨rfl, rfl⟩
    split
    · trivial
    · refine Only.bind ?_ fun _ => trivial
      exact Only.mono (only_persistAnalytics _ _ _ _) fun _ h =>
        works_of_records (records_of_analytics h)
  · trivial

theorem only_failDeferredJob (m : Str) :
    (failDeferredJob job m).Only (Call.Works job) := by
  refine Only.bind ?_ fun _ => ?_
  · exact only_ask ⟨rfl, rfl⟩
  · exact Only.mono (only_persistAnalytics _ _ _ _) fun _ h =>
      works_of_records (records_of_analytics h)

/-- Everything a worker execution may call. -/
theorem only_workJob (cfg : Settings) (job : DeferredJob) :
    (workJob cfg job).Only (Call.Works job) := by
  have hprocess : (processJob cfg job).Only (Call.Works job) := by
    refine Only.bind (Only.attempt (only_processDeferredJob _)) fun outcome => ?_
    rcases outcome with e | reply
    · refine Only.bind (Only.attempt (only_failDeferredJob _)) fun failed => ?_
      rcases failed <;> trivial
    · trivial
  refine Only.bind hprocess fun shouldAck => ?_
  rcases shouldAck with _ | _
  · trivial
  · rcases hstream : job.streamId with _ | streamId
    · trivial
    · refine Only.bind (Only.attempt ?_) fun _ => trivial
      exact only_ask hstream

/-! ## Requests -/

variable {payload : AliceWebhookRequest} {cfg : Settings}

theorem serves_of_records {c : Call} (h : c.Records) : c.Serves := by
  rcases c with c | c
  · exact h.elim
  · rcases c <;> trivial

theorem serves_of_acts {c : Call} (h : c.Acts) : c.Serves := by
  rcases c with c | c
  · rcases c <;> exact h
  · rcases c <;> trivial

theorem only_deferRequest (u : Str) :
    (deferRequest payload key u).Only Call.Acts := by
  simp only [deferRequest, bind_eq]
  refine Only.bind ?_ fun jobId => ?_
  · exact only_ask trivial
  refine Only.bind ?_ fun pending => ?_
  · exact only_ask trivial
  split
  · refine Only.bind ?_ fun _ => trivial
    simp only [enqueueOrClear, bind_eq]
    refine Only.bind (Only.attempt ?_) fun outcome => ?_
    · exact only_ask trivial
    rcases outcome with e | _
    · refine Only.bind ?_ fun _ => trivial
      exact only_ask trivial
    · trivial
  · trivial

theorem only_storeImmediateFollowup (reply : LLMReply) :
    (storeImmediateFollowup key reply).Only Call.Acts := by
  simp only [storeImmediateFollowup, bind_eq]
  split
  · trivial
  · refine Only.bind ?_ fun jobId => ?_
    · exact only_ask trivial
    split
    · refine Only.bind ?_ fun _ => trivial
      exact only_ask rfl
    · refine Only.bind ?_ fun _ => ?_
      · exact only_ask rfl
      · exact only_ask trivial
    · trivial

theorem deliver_eq_bind (r : PendingReply) (t : Str) :
    deliver payload key r t =
      (if r.status = .ready then Ports.markDelivered key r.jobId
      else ret ()).bind fun _ =>
        deliverRest key r (respond payload (presentReplyText t r.followupMode)
          (continuationButtons
            (if r.tailText ≠ none then .readyTail else r.followupMode))) := rfl

theorem only_deliver (r : PendingReply) (t : Str) :
    (deliver payload key r t).Only Call.Acts := by
  simp only [deliver, bind_eq]
  refine Only.bind ?_ fun _ => ?_
  · split
    · exact only_ask trivial
    · trivial
  split
  · refine Only.bind ?_ fun updated => ?_
    · exact only_ask rfl
    refine Only.bind ?_ fun _ => trivial
    split
    · exact only_ask trivial
    · trivial
  · split
    · trivial
    · refine Only.bind ?_ fun _ => trivial
      exact only_ask trivial

theorem only_handleContinue (pending : Option PendingReply) :
    (handleContinue payload key pending).Only Call.Acts := by
  rcases pending with _ | r
  · trivial
  simp only [handleContinue, bind_eq]
  split_ifs
  · trivial
  · refine Only.bind ?_ fun _ => trivial
    exact only_ask trivial
  · refine Only.bind ?_ fun _ => only_deferRequest _
    exact only_ask trivial
  · exact only_deliver r _
  · trivial

theorem only_handleActivePending (r : PendingReply) :
    (handleActivePending payload key r).Only Call.Acts := by
  rw [handleActivePending]
  rcases r.status
  · trivial
  · trivial
  · refine Only.bind ?_ fun _ => trivial
    exact only_ask trivial
  · refine Only.bind ?_ fun _ => trivial
    exact only_ask trivial

theorem only_storeAndReturn (response : AliceWebhookResponse) :
    (storeAndReturn payload response).Only Call.Acts := by
  refine Only.bind ?_ fun _ => trivial
  exact only_ask trivial

theorem only_answerQuestion (u : Str) :
    (answerQuestion cfg payload key u).Only Call.Serves := by
  simp only [answerQuestion, bind_eq]
  refine Only.bind ?_ fun history => ?_
  · exact only_ask trivial
  refine Only.bind (Only.attempt ?_) fun outcome => ?_
  · exact only_ask trivial
  rcases outcome with e | reply
  · exact Only.mono (Only.bind (only_deferRequest u) only_storeAndReturn)
      fun _ => serves_of_acts
  · refine Only.bind ?_ fun _ => ?_
    · exact Only.mono (only_recordCompletedTurns _ _) fun _ => serves_of_records
    · exact Only.mono (Only.bind (only_storeImmediateFollowup reply) fun _ =>
        only_storeAndReturn _) fun _ => serves_of_acts

/-- Everything a request may call. -/
theorem only_handle (cfg : Settings) (payload : AliceWebhookRequest) :
    (handle cfg payload).Only Call.Serves := by
  refine Only.bind ?_ fun cached => ?_
  · exact only_ask trivial
  rcases cached with _ | response | _
  · rw [handleUncached]
    generalize sanitizeUserText payload.utterance = u
    refine Only.bind ?_ fun pending => ?_
    · exact only_ask trivial
    by_cases hempty : u = []
    · rw [if_pos hempty]
      exact Only.mono (only_storeAndReturn _) fun _ => serves_of_acts
    rw [if_neg hempty]
    generalize isContinueIntent cfg.unicode u (Option.isSome pending) = continues
    rcases continues with _ | _
    · rcases pending with _ | r
      · exact only_answerQuestion u
      · refine Only.bind ?_ fun blocking => ?_
        · exact Only.mono (only_handleActivePending r) fun _ => serves_of_acts
        rcases blocking with _ | response
        · exact only_answerQuestion u
        · exact Only.mono (only_storeAndReturn response) fun _ => serves_of_acts
    · exact Only.mono (Only.bind (only_handleContinue pending)
        only_storeAndReturn) fun _ => serves_of_acts
  · trivial
  · trivial

/-! ## One exchange -/

section Exchange

variable {α β Q : Type} {P : Protocol CallSig PyException Q} {q q' : Q}

/-- The calls keep to the protocol in this phase and do not leave it. -/
def Stays (P : Protocol CallSig PyException Q) (ok : Call → Prop) (q : Q) :
    Prop :=
  ∀ op, ok op → P.may q op ∧ ∀ x, P.next q op x = q

/-- A part that stays in its phase, before the rest. -/
theorem follows_stays_bind {ok : Call → Prop} (hq : Stays P ok q)
    {p : Service α} {f : α → Service β} {R : Except PyException β → Q → Prop}
    (hp : p.Only ok) (hf : ∀ a, (f a).Follows P q R)
    (he : ∀ e, R (.error e) q) : (p.bind f).Follows P q R := by
  rw [follows_bind]
  refine (hp.follows hq).mono fun r q₁ h => ?_
  subst h
  rcases r with e | a
  · exact he e
  · exact hf a

/-- Analytics never raises in its caller. -/
theorem follows_persistAnalytics_of
    (hq : Stays P (fun c => c.analytics = true) q) {key : Str}
    {turns : List ConversationTurn} {job : Option DeferredJob}
    {reply : Option LLMReply} {error : Option Str} :
    (persistAnalytics key turns job reply error).Follows P q
      fun r q₁ => r = .ok () ∧ q₁ = q := by
  have honly := @only_persistAnalytics key turns job reply error
  change ((attempt _).bind _).Follows P q _
  rw [follows_bind, follows_attempt]
  refine ((Only.of_attempt_bind honly).follows hq).mono fun r q₁ h => ?_
  subst h
  rcases r with e | _
  · exact ⟨rfl, rfl⟩
  · exact ⟨rfl, rfl⟩

/-- What a protocol has to allow to a generation: looks at the clock and calls
of the model, all of which fail but the last one. -/
structure Generating (P : Protocol CallSig PyException Q) (q : Q)
    (R : Except PyException LLMReply → Q → Prop) : Prop where
  clock : Stays P (fun c => c = .port .monotonic) q
  asks : ∀ u history requestId timeout budget,
    P.may q (.port (.generateReply u history requestId timeout budget))
  answers : ∀ u history requestId timeout budget reply,
    P.possible q (.port (.generateReply u history requestId timeout budget))
        (.ok reply) →
      R (.ok reply) (P.next q
        (.port (.generateReply u history requestId timeout budget)) (.ok reply))
  fails : ∀ u history requestId timeout budget e,
    P.next q (.port (.generateReply u history requestId timeout budget))
      (.error e) = q
  raises : ∀ e, R (.error e) q

theorem Generating.generateWithin {R : Except PyException LLMReply → Q → Prop}
    (h : Generating P q R) {job : DeferredJob} {history : List ConversationTurn}
    {deadlineAt : ℚ} (last : Option PyException) (steps : List ℕ) :
    (generateWithin job history deadlineAt last steps).Follows P q R := by
  induction steps generalizing last with
  | nil =>
      cases last with
      | none => exact h.raises _
      | some e => exact h.raises e
  | cons maxOutputTokens steps ih =>
      unfold ConversationService.generateWithin
      simp only [bind_eq]
      refine follows_stays_bind h.clock (only_ask rfl) (fun now => ?_) h.raises
      split
      · cases last with
        | none => exact h.raises _
        | some e => exact h.raises e
      rw [follows_bind, follows_attempt, Ports.generateReply, Ports.ask,
        follows_perform]
      refine ⟨h.asks _ _ _ _ _, fun x hx => ?_⟩
      cases x with
      | ok reply => exact h.answers _ _ _ _ _ reply hx
      | error e =>
          rw [h.fails]
          simp only
          split
          · exact h.raises e
          · exact ih (some e)

theorem Generating.generateDeferredReply
    {R : Except PyException LLMReply → Q → Prop} (h : Generating P q R)
    (job : DeferredJob) (history : List ConversationTurn) (deadlineSeconds : ℚ) :
    (generateDeferredReply job history deadlineSeconds).Follows P q R :=
  follows_stays_bind h.clock (only_ask rfl)
    (fun _ => h.generateWithin none deferredMaxOutputTokenSteps) h.raises

/-- A request records at most one exchange, between calls that record nothing. -/
theorem follows_handle_of (hq : Stays P Call.Acts q)
    (hq' : Stays P Call.Acts q')
    (hrecord : ∀ key u a, (recordCompletedTurns key ⟨.user, u⟩
      ⟨.assistant, a⟩).Follows P q fun _ q₁ => q₁ = q')
    (cfg : Settings) (payload : AliceWebhookRequest) :
    (handle cfg payload).Follows P q fun _ q₁ => q₁ = q ∨ q₁ = q' := by
  have hacts : ∀ {p : Service AliceWebhookResponse}, p.Only Call.Acts →
      p.Follows P q fun _ q₁ => q₁ = q ∨ q₁ = q' :=
    fun hp => (hp.follows hq).mono fun _ _ => Or.inl
  have hanswer : ∀ key u, (answerQuestion cfg payload key u).Follows P q
      fun _ q₁ => q₁ = q ∨ q₁ = q' := by
    intro key u
    simp only [answerQuestion, bind_eq]
    refine follows_stays_bind hq (only_ask trivial) (fun history => ?_)
      fun _ => Or.inl rfl
    refine follows_stays_bind hq ?_ (fun outcome => ?_) fun _ => Or.inl rfl
    · exact Only.attempt (only_ask trivial)
    rcases outcome with e | reply
    · exact hacts (Only.bind (only_deferRequest u) only_storeAndReturn)
    · simp only
      rw [follows_bind]
      refine (hrecord key u reply.rawText).mono fun r q₁ h => ?_
      subst h
      rcases r with e | _
      · exact Or.inr rfl
      have hrest := Only.bind (@only_storeImmediateFollowup key reply) fun _ =>
        @only_storeAndReturn payload (respond payload
          (presentReplyText reply.shortText reply.followupMode)
          (continuationButtons reply.followupMode))
      exact (hrest.follows hq').mono fun _ _ => Or.inr
  refine follows_stays_bind hq (only_ask trivial) (fun cached => ?_)
    fun _ => Or.inl rfl
  rcases cached with _ | response | _
  · rw [handleUncached]
    generalize sanitizeUserText payload.utterance = u
    refine follows_stays_bind hq (only_ask trivial) (fun pending => ?_)
      fun _ => Or.inl rfl
    by_cases hempty : u = []
    · rw [if_pos hempty]
      exact hacts (only_storeAndReturn _)
    rw [if_neg hempty]
    generalize isContinueIntent cfg.unicode u (Option.isSome pending) = continues
    rcases continues with _ | _
    · rcases pending with _ | r
      · exact hanswer _ u
      · refine follows_stays_bind hq (only_handleActivePending r)
          (fun blocking => ?_) fun _ => Or.inl rfl
        rcases blocking with _ | response
        · exact hanswer _ u
        · exact hacts (only_storeAndReturn response)
    · exact hacts (Only.bind (only_handleContinue pending) only_storeAndReturn)
  · exact Or.inl rfl
  · exact Or.inl rfl

theorem not_appends_of_acts {c : Call} (h : c.Acts) : ¬c.Appends := by
  rcases c with c | c
  · exact id
  · rcases c <;> first | exact id | exact h.elim

theorem not_appends_of_generates {c : Call} (h : c.Generates) :
    ¬c.Appends := by
  rcases c with c | c
  · exact id
  · rcases c <;> first | exact id | exact h.elim

theorem not_appends_of_analytics {c : Call} (h : c.analytics = true) :
    ¬c.Appends := by
  rcases c with c | c
  · exact id
  · rcases c <;> first | exact id | cases h

theorem concludes_of_analytics {c : Call} (h : c.analytics = true) :
    c.Concludes := by
  rcases c with c | c
  · cases h
  · rcases c <;> trivial

/-- A job is acknowledged if it came from the queue and is not to be repeated. -/
theorem only_acknowledge (streamId : Option StreamId) (shouldAck : Bool) :
    (match shouldAck, streamId with
      | true, some streamId => do
          let _ ← (Ports.ack streamId).attempt
          return ()
      | _, _ => return () : Service Unit).Only Call.Concludes := by
  split
  · exact Only.bind (Only.attempt (only_ask trivial)) fun _ => trivial
  · trivial

/-- What follows the execution of a job: it is marked as failed if it raised,
and its entry is acknowledged. -/
theorem follows_workJob_of_process {G : Q → Prop} (cfg : Settings)
    (job : DeferredJob)
    (hprocess : (processDeferredJob job cfg.workerJobTimeoutSeconds).Follows P q
      fun _ q₁ => Stays P Call.Concludes q₁ ∧ G q₁) :
    (workJob cfg job).Follows P q fun _ q₁ => G q₁ := by
  rw [workJob, bind_eq, processJob, bind_eq, Program.bind_assoc, follows_bind,
    follows_attempt]
  refine hprocess.mono fun outcome q₁ hq₁ => ?_
  have honly : ∀ p : Service Unit, p.Only Call.Concludes →
      p.Follows P q₁ fun _ q₂ => G q₂ := by
    intro p hp
    refine (hp.follows hq₁.1).mono fun _ _ h => ?_
    rw [h]
    exact hq₁.2
  apply honly
  have hack := only_acknowledge job.streamId
  rcases outcome with e | reply
  · refine Only.bind (Only.bind (Only.attempt ?_) fun failed => ?_) hack
    · refine Only.bind (only_ask trivial) fun _ => ?_
      exact Only.mono (only_persistAnalytics _ _ _ _) fun _ =>
        concludes_of_analytics
    · rcases failed <;> trivial
  · exact hack true

theorem not_appends_of_concludes {c : Call} (h : c.Concludes) :
    ¬c.Appends := by
  rcases c with c | c
  · exact id
  · rcases c <;> first | exact id | exact h.elim

/-- A worker execution appends at most one exchange, between calls that append
nothing. -/
theorem follows_workJob_of (hq : Stays P (fun c => ¬c.Appends) q)
    (hq' : Stays P (fun c => ¬c.Appends) q')
    (happend : ∀ key u a, (appendTurns key ⟨.user, u⟩
      ⟨.assistant, a⟩).Follows P q fun _ q₁ => q₁ = q')
    (cfg : Settings) (job : DeferredJob) :
    (workJob cfg job).Follows P q fun _ q₁ => q₁ = q ∨ q₁ = q' := by
  have hprocess : ∀ deadlineSeconds,
      (processDeferredJob job deadlineSeconds).Follows P q
        fun _ q₁ => q₁ = q ∨ q₁ = q' := by
    intro deadlineSeconds
    simp only [processDeferredJob, bind_eq]
    refine follows_stays_bind hq (only_ask id) (fun current => ?_)
      fun _ => Or.inl rfl
    split
    · refine follows_stays_bind hq (only_ask id) (fun history => ?_)
        fun _ => Or.inl rfl
      refine follows_stays_bind hq ?_ (fun reply => ?_) fun _ => Or.inl rfl
      · exact Only.mono (only_generateDeferredReply _ _) fun _ =>
          not_appends_of_generates
      rw [follows_bind]
      refine (happend _ _ _).mono fun r q₁ h => ?_
      subst h
      rcases r with e | _
      · exact Or.inr rfl
      refine follows_stays_bind hq' (only_ask id) (fun updated => ?_)
        fun _ => Or.inr rfl
      split
      · exact Or.inr rfl
      · refine follows_stays_bind hq' ?_ (fun _ => Or.inr rfl)
          fun _ => Or.inr rfl
        exact Only.mono (only_persistAnalytics _ _ _ _) fun _ =>
          not_appends_of_analytics
    · exact Or.inl rfl
  refine follows_workJob_of_process cfg job ((hprocess _).mono ?_)
  intro r q₁ hq₁
  refine ⟨fun op hop => ?_, hq₁⟩
  rcases hq₁ with rfl | rfl
  · exact hq op (not_appends_of_concludes hop)
  · exact hq' op (not_appends_of_concludes hop)

end Exchange

end ConversationService

end AliceSkill
