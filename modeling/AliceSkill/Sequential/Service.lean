import AliceSkill.Sequential.Calls

/-!
# The service without interruption

What each function of the service does when the stores and the queue work and
nothing else runs in between: one rule for each function, in terms of the
world before it.  The later modules use these rules and do not open the
functions again.
-/

namespace AliceSkill

open Text Effects Program RedisPendingReplyStore

/-! ## The worlds the functions lead to -/

/-- The user's text, as the service works with it. -/
def AliceWebhookRequest.text (payload : AliceWebhookRequest) : Str :=
  sanitizeUserText payload.utterance

/-- The request is read as a wish to go on. -/
def AsksToContinue (cfg : Settings) (payload : AliceWebhookRequest)
    (w : World) : Prop :=
  payload.text ≠ [] ∧ isContinueIntent cfg.unicode payload.text
    (w.pending payload.conversationKey).isSome = true

/-- The request has not been answered before. -/
def Uncached (payload : AliceWebhookRequest) (w : World) : Prop :=
  w.idempotency payload.requestKey = none

/-- The job made for a deferred text. -/
def deferredJob (payload : AliceWebhookRequest) (key u : Str) (jobId : JobId) :
    DeferredJob where
  jobId := jobId
  requestId := payload.requestKey
  conversationKey := key
  userText := u
  streamId := none

/-- The record after its text has been spoken. -/
def afterSpeaking (r : PendingReply) : Option PendingReply :=
  match r.tailText with
  | some (c :: cs) =>
      some (readyRecord r.jobId (c :: cs) (c :: cs) none .readyTail none)
  | _ =>
      if r.followupMode = .deferredOffer ∧ truthy r.continuationRequest then
        some (deliveredRecord r.jobId r)
      else none

/-- The response that speaks the text of a record. -/
def spokenResponse (payload : AliceWebhookRequest) (r : PendingReply) :
    AliceWebhookResponse :=
  respond payload (presentReplyText (orText r.replyText []) r.followupMode)
    (continuationButtons
      (if r.tailText ≠ none then .readyTail else r.followupMode))

/-- The response that presents a fresh answer. -/
def freshResponse (payload : AliceWebhookRequest) (reply : LLMReply) :
    AliceWebhookResponse :=
  respond payload (presentReplyText reply.shortText reply.followupMode)
    (continuationButtons reply.followupMode)

namespace World

/-- A deferred text has been accepted. -/
def accept (w : World) (payload : AliceWebhookRequest) (key u : Str) : World :=
  (w.drawId.setPending key (some (processingRecord w.nextId))).push
    (deferredJob payload key u w.nextId)

/-- The follow-up of a fresh answer has been stored. -/
def withFollowup (w : World) (key : Str) (reply : LLMReply) : World :=
  if reply.followupMode = .none then w
  else
    match reply.followupMode, reply.followupText, reply.continuationRequest with
    | .readyTail, some (c :: cs), _ =>
        w.drawId.setPending key
          (some (readyRecord w.nextId (c :: cs) (c :: cs) none .readyTail none))
    | .deferredOffer, _, some request =>
        w.drawId.setPending key
          (some (deliveredRecord w.nextId (readyRecord w.nextId reply.shortText
            reply.shortText none .deferredOffer (some request))))
    | _, _, _ => w.drawId

/-- Both turns of an exchange have been recorded. -/
def addTurns (w : World) (cfg : Settings) (key u a : Str) : World :=
  (w.addTurn cfg key ⟨.user, u⟩).addTurn cfg key ⟨.assistant, a⟩

@[simp] theorem cache_pending (w : World) (key : Str) (r : CachedDict) :
    (w.cache key r).pending = w.pending := rfl

@[simp] theorem drawId_pending (w : World) : w.drawId.pending = w.pending := rfl

@[simp] theorem drawId_nextId (w : World) : w.drawId.nextId = w.nextId + 1 :=
  rfl

@[simp] theorem addTurn_pending (w : World) (cfg : Settings) (key : Str)
    (turn : ConversationTurn) :
    (w.addTurn cfg key turn).pending = w.pending := rfl

@[simp] theorem addTurns_pending (w : World) (cfg : Settings) (key u a : Str) :
    (w.addTurns cfg key u a).pending = w.pending := rfl

@[simp] theorem addTurns_nextId (w : World) (cfg : Settings) (key u a : Str) :
    (w.addTurns cfg key u a).nextId = w.nextId := rfl

@[simp] theorem acknowledge_pending (w : World) (i : StreamId) :
    (w.acknowledge i).pending = w.pending := rfl

@[simp] theorem push_pending (w : World) (job : DeferredJob) :
    (w.push job).pending = w.pending := rfl

theorem setPending_self {w : World} {key : Str} {r : Option PendingReply}
    (h : w.pending key = r) : w.setPending key r = w := by
  have hsame : updateAt w.pending key r = w.pending := by
    funext k
    by_cases hk : k = key
    · rw [hk, updateAt_same, h]
    · rw [updateAt_ne _ _ hk]
  rw [setPending, hsame]

@[simp] theorem accept_pending (w : World) (payload : AliceWebhookRequest)
    (key u : Str) : (w.accept payload key u).pending key =
      some (processingRecord w.nextId) := by
  simp [accept]

theorem startPending_of_none {w : World} {key : Str} (job : DeferredJob)
    (h : w.pending key = none) :
    w.startPending key job = (processingRecord job.jobId,
      w.setPending key (some (processingRecord job.jobId))) := by
  simp [startPending, h]

theorem markDelivered_of_some {w : World} {key : Str} {r : PendingReply}
    (h : w.pending key = some r) :
    w.markDelivered key r.jobId =
      w.setPending key (some (deliveredRecord r.jobId r)) := by
  simp [markDelivered, h]

theorem clearPending_of_some {w : World} {key : Str} {r : PendingReply}
    (h : w.pending key = some r) :
    w.clearPending key r.jobId = w.setPending key none := by
  simp [clearPending, h]

theorem publish_of_none {w : World} {key : Str} (jobId : JobId)
    (r : PendingReply) (h : w.pending key = none) :
    w.publish key jobId r = w.setPending key (some r) := by
  simp [publish, replacedBy, h]

theorem publish_of_some {w : World} {key : Str} {r : PendingReply}
    (r' : PendingReply) (h : w.pending key = some r) :
    w.publish key r.jobId r' = w.setPending key (some r') := by
  simp [publish, replacedBy, h]

end World

namespace ConversationService

variable {cfg : Settings} {T : Str → Prop} {w : World} {key : Str}
variable {payload : AliceWebhookRequest}

/-! ## History, analytics, deferring -/

@[simp] theorem wp_appendTurns {u a : ConversationTurn}
    {Q : Except PyException Unit → World → Prop} :
    (appendTurns key u a).wp (execCall cfg) (permits reliable T) Q w ↔
      Q (.ok ()) ((w.addTurn cfg key u).addTurn cfg key a) := by
  simp [appendTurns, Call.mayRaise]

@[simp] theorem wp_persistAnalytics {turns : List ConversationTurn}
    {job : Option DeferredJob} {reply : Option LLMReply} {error : Option Str}
    {Q : Except PyException Unit → World → Prop} :
    (persistAnalytics key turns job reply error).wp (execCall cfg)
      (permits reliable T) Q w ↔ Q (.ok ()) w := by
  have hsame : ∀ P : Prop, (P ∧ ∀ _ : PyException, P) ↔ P :=
    fun P => ⟨And.left, fun h => ⟨h, fun _ => h⟩⟩
  by_cases ht : turns = [] <;> cases job <;>
    simp [persistAnalytics, ht, Call.mayRaise, hsame]

@[simp] theorem wp_recordCompletedTurns {u a : Str}
    {Q : Except PyException Unit → World → Prop} :
    (recordCompletedTurns key ⟨.user, u⟩ ⟨.assistant, a⟩).wp (execCall cfg)
      (permits reliable T) Q w ↔ Q (.ok ()) (w.addTurns cfg key u a) := by
  simp [recordCompletedTurns, World.addTurns]

theorem wp_deferRequest {u : Str}
    {Q : Except PyException AliceWebhookResponse → World → Prop}
    (h : w.pending key = none) :
    (deferRequest payload key u).wp (execCall cfg) (permits reliable T) Q w ↔
      Q (.ok (deferredResponse payload)) (w.accept payload key u) := by
  have h' : w.drawId.pending key = none := h
  simp [deferRequest, enqueueOrClear, Call.mayRaise, deferredJob,
    World.startPending_of_none _ h', processingRecord, World.accept]

theorem wp_storeImmediateFollowup {reply : LLMReply}
    {Q : Except PyException Unit → World → Prop} (h : w.pending key = none) :
    (storeImmediateFollowup key reply).wp (execCall cfg) (permits reliable T)
      Q w ↔ Q (.ok ()) (w.withFollowup key reply) := by
  have h' : w.drawId.pending key = none := h
  obtain ⟨short, raw, mode, tail, request⟩ := reply
  cases mode with
  | none => simp [storeImmediateFollowup, World.withFollowup]
  | readyTail =>
      rcases tail with _ | _ | ⟨c, cs⟩ <;>
        simp [storeImmediateFollowup, World.withFollowup, Call.mayRaise,
          World.publish_of_none _ _ h']
  | deferredOffer =>
      cases request <;>
        simp [storeImmediateFollowup, World.withFollowup, Call.mayRaise,
          World.publish_of_none _ _ h', World.markDelivered, readyRecord]

/-! ## Requests -/

/-- What a continue request with a record does. -/
def continued (payload : AliceWebhookRequest) (key : Str) (r : PendingReply)
    (w : World) : AliceWebhookResponse × World :=
  if r.status = .processing then
    (respond payload "Я еще готовлю ответ. Скажи: продолжай.".toList [], w)
  else if r.status = .failed then
    (respond payload
      "Не удалось подготовить ответ. Задай вопрос еще раз другими словами.".toList
      [], w.setPending key none)
  else if isOpenOffer r then
    (deferredResponse payload, (w.setPending key none).accept payload key
      (orText r.continuationRequest []))
  else if truthy r.replyText then
    (spokenResponse payload r, w.setPending key (afterSpeaking r))
  else
    (respond payload
      "Продолжения пока нет. Попробуй еще раз через пару секунд.".toList [], w)

theorem wp_deliver {r : PendingReply}
    {Q : Except PyException AliceWebhookResponse → World → Prop}
    (h : w.pending key = some r)
    (hstatus : r.status = .ready ∨ r.status = .delivered)
    (hoffer : isOpenOffer r = false) :
    (deliver payload key r (orText r.replyText [])).wp (execCall cfg)
        (permits reliable T) Q w ↔
      Q (.ok (spokenResponse payload r))
        (w.setPending key (afterSpeaking r)) := by
  have hid : (deliveredRecord r.jobId r).jobId = r.jobId := rfl
  rw [deliver, spokenResponse, afterSpeaking]
  by_cases hopen : r.followupMode = .deferredOffer ∧ truthy r.continuationRequest
  · rcases hstatus with hready | hdelivered
    · rcases r.tailText with _ | _ | ⟨c, cs⟩ <;>
        simp [hready, hopen, Call.mayRaise, World.markDelivered, h,
          World.publish, replacedBy, hid]
    · simp [isOpenOffer, hdelivered, hopen] at hoffer
  · simp only [if_neg hopen]
    rcases hstatus with hstatus | hstatus <;>
      rcases r.tailText with _ | _ | ⟨c, cs⟩ <;>
        simp [hstatus, Call.mayRaise, World.markDelivered, h,
          World.clearPending, World.publish, replacedBy, hid]

theorem wp_handleContinue {r : PendingReply}
    {Q : Except PyException AliceWebhookResponse → World → Prop}
    (h : w.pending key = some r) :
    (handleContinue payload key (some r)).wp (execCall cfg)
        (permits reliable T) Q w ↔
      Q (.ok (continued payload key r w).1) (continued payload key r w).2 := by
  rw [handleContinue, continued]
  by_cases hprocessing : r.status = .processing
  · simp [hprocessing]
  by_cases hfailed : r.status = .failed
  · simp [hfailed, Call.mayRaise, World.clearPending_of_some h]
  simp only [if_neg hprocessing, if_neg hfailed]
  by_cases hopen : isOpenOffer r = true
  · simp [hopen, Call.mayRaise, World.clearPending_of_some h, wp_deferRequest]
  simp only [hopen]
  by_cases htext : truthy r.replyText = true
  · simp only [htext, if_true]
    refine wp_deliver h ?_ (by simpa using hopen)
    cases hs : r.status <;> simp_all
  · simp [htext]

/-- The response to a continue request without a record. -/
def nothingToContinue (payload : AliceWebhookRequest) : AliceWebhookResponse :=
  respond payload "Сейчас продолжения нет. Задай новый вопрос.".toList []

@[simp] theorem wp_handleContinue_none
    {Q : Except PyException AliceWebhookResponse → World → Prop} :
    (handleContinue payload key none).wp (execCall cfg) (permits reliable T)
        Q w ↔ Q (.ok (nothingToContinue payload)) w := Iff.rfl

/-- What a record says to a new question, and what is left of it. -/
def blocked (payload : AliceWebhookRequest) (key : Str) (r : PendingReply)
    (w : World) : Option AliceWebhookResponse × World :=
  match r.status with
  | .processing => (some (respond payload
      "Я еще готовлю предыдущий ответ. Скажи: продолжай.".toList []), w)
  | .ready => (some (respond payload
      "У меня готов предыдущий ответ. Скажи: продолжай.".toList []), w)
  | _ => (none, w.setPending key none)

theorem wp_handleActivePending {r : PendingReply}
    {Q : Except PyException (Option AliceWebhookResponse) → World → Prop}
    (h : w.pending key = some r) :
    (handleActivePending payload key r).wp (execCall cfg)
        (permits reliable T) Q w ↔
      Q (.ok (blocked payload key r w).1) (blocked payload key r w).2 := by
  cases hs : r.status <;>
    simp [handleActivePending, blocked, hs, Call.mayRaise,
      World.clearPending_of_some h]

@[simp] theorem wp_storeAndReturn {response : AliceWebhookResponse}
    {Q : Except PyException AliceWebhookResponse → World → Prop} :
    (storeAndReturn payload response).wp (execCall cfg) (permits reliable T)
        Q w ↔
      Q (.ok response) (w.cache payload.requestKey response.modelDump) := by
  simp [storeAndReturn, Call.mayRaise]

/-- A new question: deferred when the model fails, else answered with some
text of the model. -/
theorem wp_answerQuestion {u : Str}
    {Q : Except PyException AliceWebhookResponse → World → Prop}
    (h : w.pending key = none) :
    (answerQuestion cfg payload key u).wp (execCall cfg) (permits reliable T)
        Q w ↔
      Q (.ok (deferredResponse payload))
        ((w.accept payload key u).cache payload.requestKey
          (deferredResponse payload).modelDump) ∧
      ∀ t, T t →
        let reply := prepareLlmReply t
        Q (.ok (freshResponse payload reply))
          (((w.addTurns cfg key u reply.rawText).withFollowup key reply).cache
            payload.requestKey (freshResponse payload reply).modelDump) := by
  have hdefer : ∀ Q' : Except PyException AliceWebhookResponse → World → Prop,
      (deferRequest payload key u).wp (execCall cfg) (permits reliable T) Q' w ↔
        Q' (.ok (deferredResponse payload)) (w.accept payload key u) :=
    fun _ => wp_deferRequest h
  have hfollow : ∀ (reply : LLMReply)
      (Q' : Except PyException Unit → World → Prop),
      (storeImmediateFollowup key reply).wp (execCall cfg) (permits reliable T)
        Q' (w.addTurns cfg key u reply.rawText) ↔
        Q' (.ok ())
          ((w.addTurns cfg key u reply.rawText).withFollowup key reply) :=
    fun _ _ => wp_storeImmediateFollowup h
  have : Nonempty PyException := ⟨⟨.other, none⟩⟩
  simp only [answerQuestion, bind_eq, wp_bind, wp_getHistory, wp_attempt,
    wp_generateReply, wp_recordCompletedTurns, wp_storeAndReturn, hdefer,
    hfollow, reliable_none, reliable_some, Call.mayRaise, freshResponse]
  simp [and_comm]

/-! ## A whole request -/

section Handle

variable {Q : Except PyException AliceWebhookResponse → World → Prop}

theorem wp_handle_of_uncached (h : Uncached payload w) :
    (handle cfg payload).wp (execCall cfg) (permits reliable T) Q w ↔
      (handleUncached cfg payload).wp (execCall cfg) (permits reliable T) Q
        w := by
  have hcache : w.idempotency payload.requestKey = none := h
  simp [handle, Call.mayRaise, hcache]

theorem wp_handleUncached_empty (hempty : payload.text = []) :
    (handleUncached cfg payload).wp (execCall cfg) (permits reliable T) Q w ↔
      let response := respond payload
        "Скажи вопрос еще раз, коротко и без паузы.".toList []
      Q (.ok response)
        (w.cache payload.requestKey response.modelDump) := by
  have hempty' : sanitizeUserText payload.utterance = [] := hempty
  simp [handleUncached, hempty', Call.mayRaise]

theorem wp_handleUncached_continue {r : PendingReply}
    (h : w.pending payload.conversationKey = some r)
    (hcontinue : AsksToContinue cfg payload w) :
    (handleUncached cfg payload).wp (execCall cfg) (permits reliable T) Q w ↔
      let out := continued payload payload.conversationKey r w
      Q (.ok out.1) (out.2.cache payload.requestKey out.1.modelDump) := by
  obtain ⟨htext, hintent⟩ := hcontinue
  have htext' : sanitizeUserText payload.utterance ≠ [] := htext
  have hintent' : isContinueIntent cfg.unicode
      (sanitizeUserText payload.utterance) true = true := by
    rw [h] at hintent
    exact hintent
  simp [handleUncached, htext', h, hintent', Call.mayRaise,
    wp_handleContinue h]

theorem wp_handleUncached_nothing
    (h : w.pending payload.conversationKey = none)
    (hcontinue : AsksToContinue cfg payload w) :
    (handleUncached cfg payload).wp (execCall cfg) (permits reliable T) Q w ↔
      Q (.ok (nothingToContinue payload)) (w.cache payload.requestKey
        (nothingToContinue payload).modelDump) := by
  obtain ⟨htext, hintent⟩ := hcontinue
  have htext' : sanitizeUserText payload.utterance ≠ [] := htext
  have hintent' : isContinueIntent cfg.unicode
      (sanitizeUserText payload.utterance) false = true := by
    rw [h] at hintent
    exact hintent
  simp [handleUncached, htext', h, hintent', Call.mayRaise]

theorem wp_handleUncached_blocked {r : PendingReply}
    {response : AliceWebhookResponse}
    (h : w.pending payload.conversationKey = some r)
    (hblocked : (blocked payload payload.conversationKey r w).1 = some response)
    (htext : payload.text ≠ []) (hcontinue : ¬AsksToContinue cfg payload w) :
    (handleUncached cfg payload).wp (execCall cfg) (permits reliable T) Q w ↔
      Q (.ok response) ((blocked payload payload.conversationKey r w).2.cache
        payload.requestKey response.modelDump) := by
  have htext' : sanitizeUserText payload.utterance ≠ [] := htext
  have hintent' : isContinueIntent cfg.unicode
      (sanitizeUserText payload.utterance) true = false := by
    simpa [AsksToContinue, AliceWebhookRequest.text, htext', h] using hcontinue
  simp [handleUncached, htext', h, hintent', Call.mayRaise,
    wp_handleActivePending h, hblocked]

/-- A question with no record in its way. -/
theorem wp_handleUncached_question
    (h : w.pending payload.conversationKey = none)
    (htext : payload.text ≠ []) (hcontinue : ¬AsksToContinue cfg payload w) :
    (handleUncached cfg payload).wp (execCall cfg) (permits reliable T) Q w ↔
      (answerQuestion cfg payload payload.conversationKey payload.text).wp
        (execCall cfg) (permits reliable T) Q w := by
  have htext' : sanitizeUserText payload.utterance ≠ [] := htext
  have hintent' : isContinueIntent cfg.unicode
      (sanitizeUserText payload.utterance) false = false := by
    simpa [AsksToContinue, AliceWebhookRequest.text, htext', h] using hcontinue
  simp [handleUncached, htext', h, hintent', Call.mayRaise,
    AliceWebhookRequest.text]

/-- A question that first clears a record of the past. -/
theorem wp_handleUncached_unblocked {r : PendingReply}
    (h : w.pending payload.conversationKey = some r)
    (hblocked : (blocked payload payload.conversationKey r w).1 = none)
    (htext : payload.text ≠ []) (hcontinue : ¬AsksToContinue cfg payload w) :
    (handleUncached cfg payload).wp (execCall cfg) (permits reliable T) Q w ↔
      (answerQuestion cfg payload payload.conversationKey payload.text).wp
        (execCall cfg) (permits reliable T) Q
        (w.setPending payload.conversationKey none) := by
  have htext' : sanitizeUserText payload.utterance ≠ [] := htext
  have hintent' : isContinueIntent cfg.unicode
      (sanitizeUserText payload.utterance) true = false := by
    simpa [AsksToContinue, AliceWebhookRequest.text, htext', h] using hcontinue
  have hworld : (blocked payload payload.conversationKey r w).2 =
      w.setPending payload.conversationKey none := by
    revert hblocked
    rw [blocked]
    cases r.status <;> simp
  simp [handleUncached, htext', h, hintent', Call.mayRaise,
    wp_handleActivePending h, hblocked, hworld, AliceWebhookRequest.text]

/-- No record stands in the way of a new question. -/
def Free (w : World) (key : Str) : Prop :=
  ∀ r, w.pending key = some r → r.status ≠ .processing ∧ r.status ≠ .ready

/-- Everything an uncached request can do, up to the caching of its
response. -/
inductive Handled (cfg : Settings) (T : Str → Prop)
    (payload : AliceWebhookRequest) (w : World) :
    AliceWebhookResponse → World → Prop where
  | empty (htext : payload.text = []) :
      Handled cfg T payload w (respond payload
        "Скажи вопрос еще раз, коротко и без паузы.".toList []) w
  | nothing (hpending : w.pending payload.conversationKey = none)
      (hasks : AsksToContinue cfg payload w) :
      Handled cfg T payload w (nothingToContinue payload) w
  | continued (r : PendingReply)
      (hpending : w.pending payload.conversationKey = some r)
      (hasks : AsksToContinue cfg payload w) :
      Handled cfg T payload w
        (continued payload payload.conversationKey r w).1
        (continued payload payload.conversationKey r w).2
  | blocked (r : PendingReply) (response : AliceWebhookResponse)
      (hpending : w.pending payload.conversationKey = some r)
      (hasks : ¬AsksToContinue cfg payload w)
      (hblocked : blocked payload payload.conversationKey r w =
        (some response, w)) :
      Handled cfg T payload w response w
  | deferred (hfree : Free w payload.conversationKey)
      (hasks : ¬AsksToContinue cfg payload w) :
      Handled cfg T payload w (deferredResponse payload)
        ((w.setPending payload.conversationKey none).accept payload
          payload.conversationKey payload.text)
  | answered (hfree : Free w payload.conversationKey)
      (hasks : ¬AsksToContinue cfg payload w) (t : Str) (ht : T t) :
      Handled cfg T payload w (freshResponse payload (prepareLlmReply t))
        (((w.setPending payload.conversationKey none).addTurns cfg
          payload.conversationKey payload.text
          (prepareLlmReply t).rawText).withFollowup payload.conversationKey
            (prepareLlmReply t))

/-- A response is returned, cached, and comes about in one of the ways
above. -/
theorem wp_handle (h : Uncached payload w)
    (hQ : ∀ response w', Handled cfg T payload w response w' →
      Q (.ok response) (w'.cache payload.requestKey response.modelDump)) :
    (handle cfg payload).wp (execCall cfg) (permits reliable T) Q w := by
  rw [wp_handle_of_uncached h]
  by_cases htext : payload.text = []
  · rw [wp_handleUncached_empty htext]
    exact hQ _ _ (.empty htext)
  cases hpending : w.pending payload.conversationKey with
  | none =>
      by_cases hasks : AsksToContinue cfg payload w
      · rw [wp_handleUncached_nothing hpending hasks]
        exact hQ _ _ (.nothing hpending hasks)
      · have hfree : Free w payload.conversationKey := by
          simp [Free, hpending]
        have hdeferred := hQ _ _ (.deferred hfree hasks)
        have hanswered := fun t ht => hQ _ _ (.answered hfree hasks t ht)
        rw [World.setPending_self hpending] at hdeferred hanswered
        rw [wp_handleUncached_question hpending htext hasks,
          wp_answerQuestion hpending]
        exact ⟨hdeferred, hanswered⟩
  | some r =>
      by_cases hasks : AsksToContinue cfg payload w
      · rw [wp_handleUncached_continue hpending hasks]
        exact hQ _ _ (.continued r hpending hasks)
      cases hblocked : (blocked payload payload.conversationKey r w).1 with
      | some response =>
          have hworld : blocked payload payload.conversationKey r w =
              (some response, w) := by
            revert hblocked
            rw [blocked]
            cases r.status <;> simp
          rw [wp_handleUncached_blocked hpending hblocked htext hasks, hworld]
          exact hQ _ _ (.blocked r response hpending hasks hworld)
      | none =>
          have hfree : Free w payload.conversationKey := by
            intro r' hr'
            rw [hpending] at hr'
            cases hr'
            revert hblocked
            rw [blocked]
            cases r.status <;> simp
          rw [wp_handleUncached_unblocked hpending hblocked htext hasks,
            wp_answerQuestion (World.setPending_pending_same _ _ _)]
          exact ⟨hQ _ _ (.deferred hfree hasks),
            fun t ht => hQ _ _ (.answered hfree hasks t ht)⟩

end Handle

end ConversationService

end AliceSkill
