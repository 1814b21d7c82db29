import AliceSkill.Concurrent.Records
import AliceSkill.Sequential.Service

/-!
# Continue requests that fail

A single store or queue call of a continue request raises and the request
raises with it.  Most of the time the record is left so that a later continue
request makes good for it; this module says exactly when.
-/

namespace AliceSkill

open Text Effects Program Machine RedisPendingReplyStore ConversationService

/-- Calls on the stores and the queue. -/
def Call.onStore : Call → Bool
  | .port (.generateReply ..) => false
  | .port (.persistTurns ..) => false
  | .port (.persistJobResult ..) => false
  | .port .uuid4 => false
  | .port .monotonic => false
  | _ => true

/-- Only the call `c` may raise, and only if it is one on the stores or the
queue. -/
def onlyFails (c : Call) : Faults := fun c' fault =>
  fault = none ∨ c' = c ∧ c.onStore = true

theorem eq_of_onlyFails {c c' : Call} {e : PyException}
    (h : onlyFails c c' (some e)) : c' = c ∧ c.onStore = true :=
  h.resolve_left (Option.some_ne_none e)

/-- The texts a record has left to say. -/
def PendingReply.texts (r : PendingReply) : List Str :=
  orText r.replyText [] ::
    if truthy r.tailText then [orText r.tailText []] else []

/-- Continue requests of the conversation, handled one after the other while
the stores and the queue work, speak these texts. -/
def Speak (cfg : Settings) (key : Str) : List Str → World → Prop
  | [], _ => True
  | t :: ts, w => ∀ payload : AliceWebhookRequest,
      payload.conversationKey = key → Uncached payload w →
      AsksToContinue cfg payload w →
      (handle cfg payload).wp (execCall cfg) (permits reliable anyText)
        (fun out w' => (∃ mode buttons, out = .ok (respond payload
          (presentReplyText t mode) buttons)) ∧ Speak cfg key ts w') w

/-- The texts of the record are still there and will be spoken. -/
def StillSpeaks (cfg : Settings) (key : Str) (r : PendingReply)
    (w : World) : Prop :=
  (∃ r', w.pending key = some r' ∧ r'.texts = r.texts ∧
    isOpenOffer r' = false) ∧ Speak cfg key r.texts w

/-- The offer of the record is still there and the next continue request,
handled while the stores and the queue work, starts its job. -/
def StillOffers (cfg : Settings) (key : Str) (r : PendingReply)
    (w : World) : Prop :=
  (∃ r', w.pending key = some r' ∧ isOpenOffer r' = true ∧
    r'.continuationRequest = r.continuationRequest) ∧
  ∀ payload : AliceWebhookRequest, payload.conversationKey = key →
    Uncached payload w → AsksToContinue cfg payload w →
    (handle cfg payload).wp (execCall cfg) (permits reliable anyText)
      (fun out w' => ∃ jobId, out = .ok (deferredResponse payload) ∧
        w'.pending key = some (processingRecord jobId) ∧
        ⟨deferredJob payload key (orText r.continuationRequest []) jobId,
          false⟩ ∈ w'.stream) w

/-- Nothing of the record is lost. -/
def Recovers (cfg : Settings) (key : Str) (r : PendingReply) (w : World) :
    Prop :=
  (r.status = .ready → StillSpeaks cfg key r w) ∧
    (isOpenOffer r = true → StillOffers cfg key r w)

/-- The record waits to be heard or to be taken up. -/
def PendingReply.Waits (r : PendingReply) : Prop :=
  r.status = .ready ∧ truthy r.replyText = true ∨ isOpenOffer r = true

/-- The calls after which the record is used up although the request has not
been answered. -/
def Call.Consumes (r : PendingReply) : Call → Prop
  | .port (.storeResponse ..) => True
  | .pending (.startPending ..) => isOpenOffer r = true
  | .port (.enqueue _) => isOpenOffer r = true
  | _ => False

variable {cfg : Settings} {F : Faults} {T : Str → Prop} {w : World} {key : Str}
variable {payload : AliceWebhookRequest} {r r' : PendingReply}

/-! ## What is left is spoken -/

theorem status_of_isOpenOffer (h : isOpenOffer r = true) :
    r.status = .delivered := by
  rw [isOpenOffer, decide_eq_true_eq] at h
  exact h.1

/-- A text that is heard next. -/
theorem speak_cons (h : w.pending key = some r)
    (hstatus : r.status = .ready ∨ r.status = .delivered)
    (hoffer : isOpenOffer r = false) (htext : truthy r.replyText = true)
    {ts : List Str}
    (hrest : ∀ w', w'.pending key = afterSpeaking r → Speak cfg key ts w') :
    Speak cfg key (orText r.replyText [] :: ts) w := by
  rintro payload rfl hnew hasks
  rw [wp_handle_of_uncached hnew, wp_handleUncached_continue h hasks]
  have hcontinued : continued payload payload.conversationKey r w =
      (spokenResponse payload r,
        w.setPending payload.conversationKey (afterSpeaking r)) := by
    rcases hstatus with hstatus | hstatus <;>
      simp [continued, hstatus, hoffer, htext]
  rw [hcontinued]
  constructor
  · exact ⟨_, _, rfl⟩
  · exact hrest _ (World.setPending_pending_same _ _ _)

/-- The texts of a record are spoken in order. -/
theorem speak_texts (h : w.pending key = some r)
    (hstatus : r.status = .ready ∨ r.status = .delivered)
    (hoffer : isOpenOffer r = false) (htext : truthy r.replyText = true) :
    Speak cfg key r.texts w := by
  rw [PendingReply.texts]
  refine speak_cons h hstatus hoffer htext fun w' hw' => ?_
  rcases htail : r.tailText with _ | _ | ⟨c, cs⟩
  · trivial
  · trivial
  · have hlast : w'.pending key = some (readyRecord r.jobId (c :: cs) (c :: cs)
        none .readyTail none) := by
      rw [hw', afterSpeaking, htail]
    exact speak_cons hlast (Or.inl rfl) rfl rfl fun _ _ => trivial

/-- The record, or its copy that is marked as delivered without being an open
offer. -/
def PendingReply.KeptAs (r r' : PendingReply) : Prop :=
  r' = r ∨ r' = deliveredRecord r.jobId r ∧ isOpenOffer r' = false

theorem stillSpeaks_of_kept (h : w.pending key = some r')
    (hready : r.status = .ready) (htext : truthy r.replyText = true)
    (hkept : r.KeptAs r') : StillSpeaks cfg key r w := by
  have hr : r'.texts = r.texts ∧ isOpenOffer r' = false ∧
      (r'.status = .ready ∨ r'.status = .delivered) ∧
      truthy r'.replyText = true := by
    rcases hkept with rfl | ⟨rfl, hoffer⟩
    · exact ⟨rfl, by simp [isOpenOffer, hready], Or.inl hready, htext⟩
    · exact ⟨rfl, hoffer, Or.inr rfl, htext⟩
  obtain ⟨htexts, hoffer, hstatus, htext'⟩ := hr
  constructor
  · exact ⟨r', h, htexts, hoffer⟩
  · rw [← htexts]
    exact speak_texts h hstatus hoffer htext'

theorem stillOffers_of_kept (h : w.pending key = some r)
    (hoffer : isOpenOffer r = true) : StillOffers cfg key r w := by
  constructor
  · exact ⟨r, h, hoffer, rfl⟩
  · rintro payload rfl hnew hasks
    rw [wp_handle_of_uncached hnew, wp_handleUncached_continue h hasks]
    have hcontinued : continued payload payload.conversationKey r w =
        (deferredResponse payload,
          (w.setPending payload.conversationKey none).accept payload
            payload.conversationKey (orText r.continuationRequest [])) := by
      simp [continued, status_of_isOpenOffer hoffer, hoffer]
    rw [hcontinued]
    refine ⟨w.nextId, rfl, ?_, ?_⟩
    · exact World.accept_pending (w.setPending payload.conversationKey none)
        payload payload.conversationKey (orText r.continuationRequest [])
    · exact List.mem_append_right _ List.mem_cons_self

/-- A record that is kept is recovered. -/
theorem recovers_of_kept (h : w.pending key = some r') (hwaits : r.Waits)
    (hkept : r.KeptAs r') : Recovers cfg key r w := by
  constructor
  · intro hready
    rcases hwaits with ⟨-, htext⟩ | hoffer
    · exact stillSpeaks_of_kept h hready htext hkept
    · rw [status_of_isOpenOffer hoffer] at hready
      cases hready
  · intro hoffer
    rcases hkept with rfl | ⟨rfl, hclosed⟩
    · exact stillOffers_of_kept h hoffer
    · have hsame : isOpenOffer (deliveredRecord r.jobId r) = isOpenOffer r := by
        simp [isOpenOffer, deliveredRecord, status_of_isOpenOffer hoffer]
      rw [hsame, hoffer] at hclosed
      cases hclosed

/-- A record whose text has been taken is not recovered. -/
theorem not_recovers_of_spoken (hready : r.status = .ready)
    (h : w.pending key = afterSpeaking r) : ¬Recovers cfg key r w := by
  rintro ⟨hspeaks, -⟩
  obtain ⟨⟨r', hr', htexts, hoffer⟩, -⟩ := hspeaks hready
  rw [h, afterSpeaking] at hr'
  split at hr'
  · next c cs htail =>
    cases hr'
    simp [PendingReply.texts, htail, readyRecord] at htexts
  · split at hr'
    · next hopen =>
      cases hr'
      simp [isOpenOffer, deliveredRecord, hopen] at hoffer
    · cases hr'

/-- The conversation has no open offer. -/
def NoOffer (key : Str) (w : World) : Prop :=
  ∀ r, w.pending key = some r → isOpenOffer r = false

theorem NoOffer.clearPending (h : NoOffer key w) (jobId : JobId) :
    NoOffer key (w.clearPending key jobId) := by
  rw [World.clearPending]
  split
  · split
    · intro r' hr'
      rw [World.setPending_pending_same] at hr'
      cases hr'
    · exact h
  · exact h

/-- An offer that is gone is not recovered. -/
theorem not_recovers_of_taken (hoffer : isOpenOffer r = true)
    (h : NoOffer key w) : ¬Recovers cfg key r w := by
  rintro ⟨-, hoffers⟩
  obtain ⟨⟨r', hr', hoffer', -⟩, -⟩ := hoffers hoffer
  rw [h r' hr'] at hoffer'
  cases hoffer'

/-! ## What a failing request leaves -/

section Failing

variable {Q : Except PyException AliceWebhookResponse → World → Prop}

/-- Taking up an offer.  When starting the record or enqueueing the job fails,
no offer is left. -/
theorem wp_deferRequest_failing {u : Str} (h : w.pending key = none)
    (hoffer : isOpenOffer r = true) (huuid : ∀ e, ¬F (.port .uuid4) (some e))
    (hok : ∀ w', NoOffer key w' → Q (.ok (deferredResponse payload)) w')
    (herr : ∀ e w' c e', F c (some e') → c.Consumes r → NoOffer key w' →
      Q (.error e) w') :
    (deferRequest payload key u).wp (execCall cfg) (permits F T) Q w := by
  have hdrawn : w.drawId.pending key = none := h
  have hgone : NoOffer key (w.drawId) := by
    intro r' hr'
    rw [hdrawn] at hr'
    cases hr'
  have hnew : NoOffer key (w.drawId.setPending key
      (some (processingRecord w.nextId))) := by
    intro r' hr'
    rw [World.setPending_pending_same] at hr'
    cases hr'
    rfl
  simp only [deferRequest, bind_eq, wp_bind, wp_uuid4, wp_startPending,
    World.startPending_of_none _ hdrawn]
  refine ⟨fun _ => ⟨fun _ => ?_, fun e he => ?_⟩, fun e he => ?_⟩
  · simp only [processingRecord, if_true, wp_bind, enqueueOrClear, bind_eq,
      wp_attempt, wp_enqueue]
    refine ⟨fun _ => hok _ hnew, fun e he => ?_⟩
    rw [wp_clearPending]
    constructor
    · intro _
      exact herr e _ _ e he hoffer (hnew.clearPending w.nextId)
    · intro e' _
      exact herr e' _ _ e he hoffer hnew
  · exact herr e _ _ e he hoffer hgone
  · exact absurd he (huuid e)

theorem deliver_eq : deliver payload key r (orText r.replyText []) =
    (if r.status = .ready then Ports.markDelivered key r.jobId
    else ret ()).bind fun _ =>
      deliverRest key r (spokenResponse payload r) :=
  deliver_eq_bind r _

theorem wp_deliverRest_failing {response : AliceWebhookResponse}
    (h : w.pending key = some (deliveredRecord r.jobId r))
    (horderly : r.Orderly)
    (hok : ∀ w', w'.pending key = afterSpeaking r → Q (.ok response) w')
    (herr : ∀ e c, F c (some e) → ¬c.Consumes r →
      r.KeptAs (deliveredRecord r.jobId r) → Q (.error e) w) :
    (deliverRest key r response).wp (execCall cfg) (permits F T) Q w := by
  have hkept : ¬(r.followupMode = .deferredOffer ∧
      truthy r.continuationRequest = true) →
      r.KeptAs (deliveredRecord r.jobId r) := by
    intro hclosed
    refine Or.inr ⟨rfl, ?_⟩
    simp only [isOpenOffer, deliveredRecord, true_and, decide_eq_false_iff_not]
    exact hclosed
  have hend : (∀ c cs, r.tailText ≠ some (c :: cs)) →
      (deliverRest key r response).wp (execCall cfg) (permits F T) Q w := by
    intro htail
    rw [deliverRest]
    split
    · next c cs hsome => exact absurd hsome (htail c cs)
    · have hspoken : afterSpeaking r =
          if r.followupMode = .deferredOffer ∧ truthy r.continuationRequest then
            some (deliveredRecord r.jobId r)
          else none := by
        rw [afterSpeaking]
        split
        · next c cs hsome => exact absurd hsome (htail c cs)
        · rfl
      split
      · next hopen =>
        refine hok w ?_
        rw [hspoken, if_pos hopen, h]
      · next hclosed =>
        rw [if_neg hclosed] at hspoken
        simp only [wp_bind, wp_clearPending]
        constructor
        · intro _
          refine hok _ ?_
          change (w.clearPending key (deliveredRecord r.jobId r).jobId).pending
            key = afterSpeaking r
          rw [World.clearPending_of_some h, World.setPending_pending_same,
            hspoken]
        · intro e he
          exact herr e _ he id (hkept hclosed)
  rcases htail : r.tailText with _ | _ | ⟨c, cs⟩
  · exact hend (by simp [htail])
  · exact hend (by simp [htail])
  · have hspoken : afterSpeaking r = some (readyRecord r.jobId (c :: cs)
        (c :: cs) none .readyTail none) := by
      rw [afterSpeaking, htail]
    have hmode : r.followupMode ≠ .deferredOffer :=
      horderly (by rw [htail]; rfl)
    have hown : replacedBy (w.pending key) r.jobId = false := by
      simp [h, replacedBy, deliveredRecord]
    simp only [deliverRest, htail, wp_bind, wp_markReady, hown]
    constructor
    · intro _
      refine hok _ ?_
      change (w.publish key (deliveredRecord r.jobId r).jobId _).pending key =
        afterSpeaking r
      rw [World.publish_of_some _ h, World.setPending_pending_same, hspoken]
    · intro e he
      exact herr e _ he id (hkept fun hopen => hmode hopen.1)

/-- Speaking a text.  When one of the calls fails the text is kept. -/
theorem wp_deliver_failing (h : w.pending key = some r)
    (hready : r.status = .ready) (horderly : r.Orderly)
    (hok : ∀ w', w'.pending key = afterSpeaking r →
      Q (.ok (spokenResponse payload r)) w')
    (herr : ∀ e w' r' c, F c (some e) → ¬c.Consumes r →
      w'.pending key = some r' → r.KeptAs r' → Q (.error e) w') :
    (deliver payload key r (orText r.replyText [])).wp (execCall cfg)
      (permits F T) Q w := by
  have hpending : (w.markDelivered key r.jobId).pending key =
      some (deliveredRecord r.jobId r) := by
    rw [World.markDelivered_of_some h, World.setPending_pending_same]
  simp only [deliver_eq, wp_bind, hready, if_true, wp_markDelivered]
  constructor
  · intro _
    refine wp_deliverRest_failing hpending horderly hok fun e c he hc hkept => ?_
    exact herr e _ _ c he hc hpending hkept
  · intro e he
    exact herr e w r _ he id h (Or.inl rfl)

/-- A continue request for a waiting record. -/
theorem wp_handleContinue_failing (h : w.pending key = some r)
    (hwaits : r.Waits) (horderly : r.Orderly)
    (huuid : ∀ e, ¬F (.port .uuid4) (some e))
    (hok : ∀ response w', ¬Recovers cfg key r w' → Q (.ok response) w')
    (hkept : ∀ e c w', F c (some e) → ¬c.Consumes r → Recovers cfg key r w' →
      Q (.error e) w')
    (hlost : ∀ e c e' w', F c (some e') → c.Consumes r →
      ¬Recovers cfg key r w' → Q (.error e) w') :
    (handleContinue payload key (some r)).wp (execCall cfg) (permits F T) Q
      w := by
  rcases hwaits with ⟨hready, htext⟩ | hoffer
  · have hcontinue : handleContinue payload key (some r) =
        deliver payload key r (orText r.replyText []) := by
      simp [handleContinue, hready, htext, isOpenOffer]
    rw [hcontinue]
    refine wp_deliver_failing h hready horderly (fun w' hw' => ?_)
      fun e w' r' c he hc hr' hkeptAs => ?_
    · exact hok _ _ (not_recovers_of_spoken hready hw')
    · refine hkept e c w' he hc (recovers_of_kept hr' ?_ hkeptAs)
      exact Or.inl ⟨hready, htext⟩
  · have hcontinue : handleContinue payload key (some r) =
        (Ports.clearPending key (some r.jobId)).bind fun _ =>
          deferRequest payload key (orText r.continuationRequest []) := by
      simp [handleContinue, status_of_isOpenOffer hoffer, hoffer]
    rw [hcontinue, wp_bind, wp_clearPending]
    constructor
    · intro _
      refine wp_deferRequest_failing ?_ hoffer huuid (fun w' hw' => ?_)
        fun e w' c e' he hc hw' => ?_
      · rw [World.clearPending_of_some h, World.setPending_pending_same]
      · exact hok _ _ (not_recovers_of_taken hoffer hw')
      · exact hlost e c e' w' he hc (not_recovers_of_taken hoffer hw')
    · intro e he
      exact hkept e _ w he id (recovers_of_kept h (Or.inr hoffer) (Or.inl rfl))

/-- A request that reads a waiting record and asks to go on. -/
theorem wp_handle_failing (h : w.pending payload.conversationKey = some r)
    (hasks : AsksToContinue cfg payload w) (hwaits : r.Waits)
    (horderly : r.Orderly) (huuid : ∀ e, ¬F (.port .uuid4) (some e))
    (hok : ∀ response w', Q (.ok response) w')
    (hcached : ∀ e, ¬Uncached payload w → Q (.error e) w)
    (hkept : ∀ e c w', F c (some e) → ¬c.Consumes r →
      Recovers cfg payload.conversationKey r w' → Q (.error e) w')
    (hlost : ∀ e c e' w', Uncached payload w → F c (some e') → c.Consumes r →
      ¬Recovers cfg payload.conversationKey r w' → Q (.error e) w') :
    (handle cfg payload).wp (execCall cfg) (permits F T) Q w := by
  have hsame : Recovers cfg payload.conversationKey r w :=
    recovers_of_kept h hwaits (Or.inl rfl)
  rw [handle, bind_eq, wp_bind, wp_getCachedResponse]
  refine ⟨fun _ => ?_, fun e he => hkept e _ w he id hsame⟩
  rcases hcache : w.idempotency payload.requestKey with _ | response | _
  · have hnew : Uncached payload w := hcache
    have htext : sanitizeUserText payload.utterance ≠ [] := hasks.1
    have hcontinues : isContinueIntent cfg.unicode
        (sanitizeUserText payload.utterance) true = true := by
      have hintent := hasks.2
      rw [h] at hintent
      exact hintent
    have hstores : ∀ response w',
        ¬Recovers cfg payload.conversationKey r w' →
        (storeAndReturn payload response).wp (execCall cfg) (permits F T) Q
          w' := by
      intro response w' hw'
      rw [storeAndReturn, bind_eq, wp_bind, wp_storeResponse]
      exact ⟨fun _ => hok _ _, fun e he => hlost e _ e w' hnew he trivial hw'⟩
    change (handleUncached cfg payload).wp _ _ _ _
    rw [handleUncached, bind_eq, wp_bind, wp_getPending]
    refine ⟨fun _ => ?_, fun e he => hkept e _ w he id hsame⟩
    simp only [h, htext, if_false, Option.isSome_some, hcontinues, if_true,
      bind_eq, wp_bind]
    refine wp_handleContinue_failing h hwaits horderly huuid ?_ ?_ ?_
    · exact hstores
    · exact hkept
    · intro e c e' w' he
      exact hlost e c e' w' hnew he
  · exact hok _ _
  · exact hcached _ (by simp [Uncached, hcache])

end Failing

/-! ## Exactly when nothing is lost -/

/-- A continue request that raises because one call on the stores or the queue
failed loses nothing of a waiting record, except when the failed call is the
caching of the response, or the start or the enqueueing of an offered job. -/
theorem failed_continue_recovers_iff (cfg : Settings) {s : RedisState}
    (hs : (redisMachine cfg anyAnswer).Reachable Any World.empty s)
    {payload : AliceWebhookRequest} {r : PendingReply}
    (hpending : s.world.pending payload.conversationKey = some r)
    (hwaits : r.Waits) (hasks : AsksToContinue cfg payload s.world)
    {c : Call} {e : PyException} {w' : World}
    (hraised : (handle cfg payload).Outcome (execCall cfg)
      (permits (onlyFails c) anyText) s.world (.error e) w') :
    Recovers cfg payload.conversationKey r w' ↔
      ¬(Uncached payload s.world ∧ c.Consumes r) := by
  have horderly : r.Orderly := orderly_of_reachable hs _ _ hpending
  refine hraised.wp (Q := fun out w' => ∀ e, out = .error e →
    (Recovers cfg payload.conversationKey r w' ↔
      ¬(Uncached payload s.world ∧ c.Consumes r))) ?_ e rfl
  refine wp_handle_failing hpending hasks hwaits horderly ?_ ?_ ?_ ?_ ?_
  · intro e he
    obtain ⟨hc, hstore⟩ := eq_of_onlyFails he
    rw [← hc] at hstore
    cases hstore
  · rintro response w' e ⟨⟩
  · rintro e hcached e' -
    refine iff_of_true (recovers_of_kept hpending hwaits (Or.inl rfl)) ?_
    exact fun h => hcached h.1
  · rintro e c' w' he hc' hw' e' -
    obtain ⟨rfl, -⟩ := eq_of_onlyFails he
    exact iff_of_true hw' fun h => hc' h.2
  · rintro e c' e₁ w' hnew he hc' hw' e' -
    obtain ⟨rfl, -⟩ := eq_of_onlyFails he
    exact iff_of_false hw' (not_not_intro ⟨hnew, hc'⟩)

/-- A continue request in which only the call `c` raises. -/
def failingAt (c : Call) (payload : AliceWebhookRequest) (w : World) :
    Except PyException AliceWebhookResponse × World :=
  (handle .default payload).run (execCall .default)
    (fun _ op => if op = c then .fails ⟨.other, none⟩ else .ok) w

theorem outcome_failingAt {c : Call} (hc : c.onStore = true)
    {e : PyException} (h : (failingAt c payload w).1 = .error e) :
    (handle .default payload).Outcome (execCall .default)
      (permits (onlyFails c) anyText) w (.error e)
      (failingAt c payload w).2 := by
  rw [← h]
  refine outcome_run fun _ op => ⟨?_, fun _ _ => trivial⟩
  by_cases hop : op = c
  · exact Or.inr ⟨hop, hc⟩
  · rw [if_neg hop]
    exact Or.inl rfl

/-- A question is deferred and its worker publishes the answer. -/
def publishingSchedule : List Schedule :=
  acceptedSchedule 0 (utter 1 "что такое кит") ++
  [.spawn (.work 0 (workedJob 0 0 (utter 1 "что такое кит"))),
    .step 1 .ok, .step 1 .ok, .step 1 .ok, .step 1 .ok,
    .step 1 (.replies ['a']), .step 1 .ok, .step 1 .ok, .step 1 .ok,
    .step 1 .ok]

/-- The record of that answer. -/
def publishedAnswer : PendingReply :=
  readyRecord 0 ['a'] ['a'] none .none none

/-- After the answer has been published a continue request fails at its call
`c`, which leaves the record `left`. -/
theorem fails_after_publishing (c : Call) (left : Option PendingReply)
    (hrun : ((redisMachine .default anyAnswer).runFrom Any
      (initial World.empty) publishingSchedule).map (fun s =>
        let failed := failingAt c (utter 2 "продолжай") s.world
        (s.world.pending (utter 2 "продолжай").conversationKey,
          decide (failed.1 = .error ⟨.other, none⟩),
          failed.2.pending (utter 2 "продолжай").conversationKey,
          failed.2.idempotency (utter 3 "продолжай").requestKey)) =
      some (some publishedAnswer, true, left, none)) :
    ∃ s : RedisState,
      (redisMachine .default anyAnswer).Reachable Any World.empty s ∧
      s.world.pending (utter 2 "продолжай").conversationKey =
        some publishedAnswer ∧
      AsksToContinue .default (utter 2 "продолжай") s.world ∧
      (failingAt c (utter 2 "продолжай") s.world).1 =
        .error ⟨.other, none⟩ ∧
      (failingAt c (utter 2 "продолжай") s.world).2.pending
        (utter 2 "продолжай").conversationKey = left ∧
      Uncached (utter 3 "продолжай")
        (failingAt c (utter 2 "продолжай") s.world).2 := by
  obtain ⟨s, hs, hobs⟩ := Option.map_eq_some_iff.mp hrun
  simp only [Prod.mk.injEq, decide_eq_true_eq] at hobs
  obtain ⟨hpending, hraised, hleft, hnew⟩ := hobs
  refine ⟨s, reachable_runFrom .start hs, hpending, ⟨?_, ?_⟩, hraised, hleft,
    hnew⟩
  · decide +kernel
  · rw [hpending]
    decide +kernel

/-- A failure before the answer is taken. -/
theorem answer_kept_by_failed_mark :
    let payload := utter 2 "продолжай"
    let key := payload.conversationKey
    ∃ s : RedisState, s.world.pending key = some publishedAnswer ∧
      Recovers .default key publishedAnswer
        (failingAt (.pending (.markDelivered key 0)) payload s.world).2 := by
  intro payload key
  obtain ⟨s, hs, hpending, hasks, hraised, -, -⟩ :=
    fails_after_publishing (.pending (.markDelivered key 0))
      (some publishedAnswer) (by decide +kernel)
  refine ⟨s, hpending, ?_⟩
  refine (failed_continue_recovers_iff .default hs hpending ?_ hasks
    (outcome_failingAt rfl hraised)).mpr ?_
  · exact Or.inl ⟨rfl, rfl⟩
  · rintro ⟨-, hconsumes⟩
    exact hconsumes

/-- Without a record the next continue request does not say the answer. -/
theorem not_speak_answer {w : World}
    (h : w.pending (utter 2 "продолжай").conversationKey = none)
    (hnew : Uncached (utter 3 "продолжай") w) :
    ¬Speak .default (utter 2 "продолжай").conversationKey
      publishedAnswer.texts w := by
  intro hspeak
  have hnone : w.pending (utter 3 "продолжай").conversationKey = none := h
  have hasks : AsksToContinue .default (utter 3 "продолжай") w := by
    constructor
    · decide +kernel
    · rw [hnone]
      decide +kernel
  have hwp := hspeak (utter 3 "продолжай") rfl hnew hasks
  rw [wp_handle_of_uncached hnew, wp_handleUncached_nothing hnone hasks] at hwp
  obtain ⟨⟨mode, buttons, hout⟩, -⟩ := hwp
  have htext : (nothingToContinue (utter 3 "продолжай")).response.text =
      (respond (utter 3 "продолжай") (presentReplyText ['a'] mode)
        []).response.text :=
    congrArg (fun response => response.response.text) (Except.ok.inj hout)
  rcases mode <;> exact absurd htext (by decide +kernel)

/-- A failure after the answer has been taken: the response was not cached and
the answer is not spoken any more. -/
theorem answer_lost_by_failed_cache :
    ∃ s r c e w',
      (redisMachine .default anyAnswer).Reachable Any World.empty s ∧
      s.world.pending (utter 2 "продолжай").conversationKey = some r ∧
      r.Waits ∧ AsksToContinue .default (utter 2 "продолжай") s.world ∧
      (handle .default (utter 2 "продолжай")).Outcome (execCall .default)
        (permits (onlyFails c) anyText) s.world (.error e) w' ∧
      ¬Speak .default (utter 2 "продолжай").conversationKey r.texts w' ∧
      ¬Recovers .default (utter 2 "продолжай").conversationKey r w' := by
  let payload := utter 2 "продолжай"
  let c : Call := .port (.storeResponse payload.requestKey
    (spokenResponse payload publishedAnswer).modelDump)
  obtain ⟨s, hs, hpending, hasks, hraised, hleft, hnew⟩ :=
    fails_after_publishing c none (by decide +kernel)
  have hmute := not_speak_answer hleft hnew
  refine ⟨s, publishedAnswer, c, _, _, hs, hpending, Or.inl ⟨rfl, rfl⟩, hasks,
    outcome_failingAt rfl hraised, hmute, ?_⟩
  rintro ⟨hspeaks, -⟩
  exact hmute (hspeaks rfl).2

end AliceSkill
