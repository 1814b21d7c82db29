import AliceSkill.Effects.Protocol
import AliceSkill.Sequential.Runs

/-!
# The answer of the webhook

Whatever the calls of a request raise, the service either answers with the
session of the payload or raises what one of its calls raised.  The route
turns the latter into an answer, except where its own first read fails.
-/

namespace AliceSkill

open Text Effects Program Ports ConversationService

/-- An exception the route answers: not an HTTP exception, or the one of the
rate limiter. -/
def PyException.Answered (e : PyException) : Prop :=
  ∀ statusCode, e.kind = .httpException statusCode → statusCode = 429

/-- Calls in any order that raise only exceptions the route answers. -/
def answeredCalls : Protocol CallSig PyException Unit where
  may _ _ := True
  possible _ _ x := ∀ e, x = .error e → e.Answered
  next _ _ _ := ()

/-- The outcome is a response to the payload or an exception the route
answers. -/
def Echoes (payload : AliceWebhookRequest) :
    Except PyException AliceWebhookResponse → Unit → Prop
  | .ok response, _ => response.session = payload.session
  | .error e, _ => e.Answered

/-- The outcome is no exception the route would let through. -/
def Harmless {α : Type} : Except PyException α → Unit → Prop
  | .ok _, _ => True
  | .error e, _ => e.Answered

variable {cfg : Settings} {payload : AliceWebhookRequest} {key : Str}

theorem follows_ask {c : Call} {R : Except PyException c.Res → Unit → Prop} :
    (ask c).Follows answeredCalls () R ↔
      ∀ x, (∀ e, x = .error e → e.Answered) → R x () := by
  rw [ask, follows_perform]
  simp [answeredCalls]

/-- A call followed by the rest of a function. -/
theorem follows_ask_bind {α : Type} {c : Call} {f : c.Res → Service α}
    {R : Except PyException α → Unit → Prop}
    (hf : ∀ a, (f a).Follows answeredCalls () R)
    (herr : ∀ e, e.Answered → R (.error e) ()) :
    ((ask c).bind f).Follows answeredCalls () R := by
  rw [follows_bind, follows_ask]
  intro x hx
  cases x with
  | ok a => exact hf a
  | error e => exact herr e (hx e rfl)

/-- A function whose exceptions are handled as those of a call are. -/
theorem follows_harmless_bind {α β : Type} {p : Service α} {f : α → Service β}
    {R : Except PyException β → Unit → Prop}
    (hp : p.Follows answeredCalls () Harmless)
    (hf : ∀ a, (f a).Follows answeredCalls () R)
    (herr : ∀ e, e.Answered → R (.error e) ()) :
    (p.bind f).Follows answeredCalls () R := by
  rw [follows_bind]
  refine hp.mono fun r q hr => ?_
  cases r with
  | ok a => exact hf a
  | error e => exact herr e hr

theorem harmless_ask (c : Call) :
    (ask c).Follows answeredCalls () Harmless := by
  rw [follows_ask]
  intro x hx
  cases x with
  | ok a => trivial
  | error e => exact hx e rfl

theorem follows_attempt_any {α : Type} (p : Service α) :
    p.attempt.Follows answeredCalls () fun r _ => ∃ x, r = .ok x := by
  rw [follows_attempt]
  induction p with
  | ret a => exact ⟨_, rfl⟩
  | raise e => exact ⟨_, rfl⟩
  | call op k ih => exact ⟨trivial, fun x _ => ih x⟩

namespace ConversationService

theorem harmless_appendTurns (u a : ConversationTurn) :
    (appendTurns key u a).Follows answeredCalls () Harmless := by
  rw [appendTurns, bind_eq, follows_bind]
  refine (follows_attempt_any _).mono ?_
  rintro r q ⟨x, rfl⟩
  cases x <;> trivial

theorem harmless_persistAnalytics (turns : List ConversationTurn)
    (job : Option DeferredJob) (reply : Option LLMReply)
    (error : Option Str) :
    (persistAnalytics key turns job reply error).Follows answeredCalls ()
      Harmless := by
  simp only [persistAnalytics, bind_eq, follows_bind]
  refine (follows_attempt_any _).mono ?_
  rintro r q ⟨x, rfl⟩
  cases x <;> trivial

theorem harmless_recordCompletedTurns (u a : ConversationTurn) :
    (recordCompletedTurns key u a).Follows answeredCalls () Harmless :=
  follows_harmless_bind (harmless_appendTurns u a)
    (fun _ => harmless_persistAnalytics _ _ _ _) fun _ h => h

theorem harmless_storeImmediateFollowup (reply : LLMReply) :
    (storeImmediateFollowup key reply).Follows answeredCalls () Harmless := by
  rw [storeImmediateFollowup]
  split
  · trivial
  · refine follows_ask_bind (fun jobId => ?_) fun _ h => h
    split
    · exact follows_ask_bind (fun _ => trivial) fun _ h => h
    · exact follows_ask_bind (fun _ => harmless_ask _) fun _ h => h
    · trivial

theorem echoes_deferRequest (u : Str) :
    (deferRequest payload key u).Follows answeredCalls () (Echoes payload) := by
  refine follows_ask_bind (fun jobId => ?_) fun _ h => h
  refine follows_ask_bind (fun pending => ?_) fun _ h => h
  split
  · refine follows_harmless_bind ?_ (fun _ => rfl) fun _ h => h
    rw [enqueueOrClear]
    simp only [bind_eq, follows_bind, follows_attempt]
    refine (harmless_ask _).mono fun r q hr => ?_
    cases r with
    | ok a => trivial
    | error e =>
        exact follows_ask_bind (fun _ => hr) fun _ h => h
  · rfl

theorem echoes_deliver (r : PendingReply) (t : Str) :
    (deliver payload key r t).Follows answeredCalls () (Echoes payload) := by
  have hdelivered : (if r.status = .ready then markDelivered key r.jobId
      else ret ()).Follows answeredCalls () Harmless := by
    split
    · exact harmless_ask _
    · trivial
  refine follows_harmless_bind hdelivered (fun _ => ?_) fun _ h => h
  split
  · refine follows_ask_bind (fun updated => ?_) fun _ h => h
    refine follows_harmless_bind ?_ (fun _ => rfl) fun _ h => h
    split
    · exact harmless_ask _
    · trivial
  · split
    · rfl
    · exact follows_ask_bind (fun _ => rfl) fun _ h => h

theorem echoes_handleContinue (pending : Option PendingReply) :
    (handleContinue payload key pending).Follows answeredCalls ()
      (Echoes payload) := by
  cases pending with
  | none => rfl
  | some r =>
      rw [handleContinue]
      split_ifs
      · rfl
      · exact follows_ask_bind (fun _ => rfl) fun _ h => h
      · exact follows_ask_bind (fun _ => echoes_deferRequest _) fun _ h => h
      · exact echoes_deliver r _
      · rfl

theorem respond_session (payload : AliceWebhookRequest) (text : Str)
    (buttons : List AliceButtonsItem) :
    (respond payload text buttons).session = payload.session := rfl

theorem echoes_storeAndReturn {response : AliceWebhookResponse}
    (h : response.session = payload.session) :
    (storeAndReturn payload response).Follows answeredCalls ()
      (Echoes payload) :=
  follows_ask_bind (fun _ => h) fun _ h => h

/-- A response on its way through the cache. -/
theorem echoes_bind_storeAndReturn {p : Service AliceWebhookResponse}
    (hp : p.Follows answeredCalls () (Echoes payload)) :
    (p.bind (storeAndReturn payload)).Follows answeredCalls ()
      (Echoes payload) := by
  rw [follows_bind]
  refine hp.mono fun r q hr => ?_
  cases r with
  | ok response => exact echoes_storeAndReturn hr
  | error e => exact hr

theorem echoes_answerQuestion (u : Str) :
    (answerQuestion cfg payload key u).Follows answeredCalls ()
      (Echoes payload) := by
  refine follows_ask_bind (fun history => ?_) fun _ h => h
  rw [bind_eq, follows_bind]
  refine (follows_attempt_any _).mono ?_
  rintro r q ⟨x, rfl⟩
  cases x with
  | error e => exact echoes_bind_storeAndReturn (echoes_deferRequest u)
  | ok reply =>
      refine follows_harmless_bind (harmless_recordCompletedTurns _ _)
        (fun _ => ?_) fun _ h => h
      exact follows_harmless_bind (harmless_storeImmediateFollowup reply)
        (fun _ => echoes_storeAndReturn rfl) fun _ h => h

/-- What a record of the past does to a new question. -/
theorem echoes_handleActivePending (r : PendingReply) {u : Str} :
    ((handleActivePending payload key r).bind fun blockingResponse =>
      match blockingResponse with
      | some response => storeAndReturn payload response
      | none => answerQuestion cfg payload key u).Follows answeredCalls ()
      (Echoes payload) := by
  rw [handleActivePending]
  cases r.status with
  | processing =>
      simp only [pure_eq, ret_bind]
      exact echoes_storeAndReturn (respond_session _ _ _)
  | ready =>
      simp only [pure_eq, ret_bind]
      exact echoes_storeAndReturn (respond_session _ _ _)
  | failed =>
      simp only [bind_eq, bind_assoc, pure_eq, ret_bind]
      exact follows_ask_bind (fun _ => echoes_answerQuestion u) fun _ h => h
  | delivered =>
      simp only [bind_eq, bind_assoc, pure_eq, ret_bind]
      exact follows_ask_bind (fun _ => echoes_answerQuestion u) fun _ h => h

theorem echoes_handleUncached :
    (handleUncached cfg payload).Follows answeredCalls () (Echoes payload) := by
  rw [handleUncached]
  generalize sanitizeUserText payload.utterance = u
  refine follows_ask_bind (fun pending => ?_) fun _ h => h
  by_cases hempty : u = []
  · rw [if_pos hempty]
    exact echoes_storeAndReturn (respond_session _ _ _)
  rw [if_neg hempty]
  generalize isContinueIntent cfg.unicode u (Option.isSome pending) = continues
  cases continues with
  | true => exact echoes_bind_storeAndReturn (echoes_handleContinue pending)
  | false =>
      cases pending with
      | none => exact echoes_answerQuestion _
      | some r => exact echoes_handleActivePending r

end ConversationService

/-! ## The route -/

variable {w : World}

/-- Calls that raise only exceptions the route answers. -/
def answeredFaults : Faults := fun _ fault =>
  ∀ e, fault = some e → e.Answered

/-- Without a fault only the rate limiter raises. -/
theorem execCall_answered {a : Answer} (h : a.fault = none) {c : Call}
    {e : PyException} (he : (execCall cfg a c w).1 = .error e) :
    e.Answered := by
  cases c with
  | pending c =>
      cases c with
      | getPending k => rw [execCall_getPending h] at he; cases he
      | startPending k job => rw [execCall_startPending h] at he; cases he
      | markReady k j t s tail mode req =>
          rw [execCall_markReady h] at he
          cases he
      | markFailed k j m => rw [execCall_markFailed h] at he; cases he
      | markDelivered k j => rw [execCall_markDelivered h] at he; cases he
      | clearPending k j =>
          cases j with
          | none => rw [execCall_pending h] at he; cases he
          | some j => rw [execCall_clearPending h] at he; cases he
  | port c =>
      rw [execCall_port h] at he
      cases c <;> try cases he
      case checkRateLimit bucket =>
        simp only [PortCall.exec] at he
        split at he
        · cases he
          rintro statusCode ⟨⟩
          rfl
        · cases he

/-- The calls of the stores raise only what the route answers. -/
theorem wp_of_echoes {p : Service AliceWebhookResponse}
    (hp : p.Follows answeredCalls () (Echoes payload)) :
    p.wp (execCall cfg) (permits answeredFaults anyText)
      (fun r _ => Echoes payload r ()) w := by
  refine wp_mono (hp.wp ?_ w) fun r w' ⟨_, hr⟩ => hr
  intro q c a w' ha e he
  cases hfault : a.fault with
  | none => exact execCall_answered hfault he
  | some e' =>
      simp only [execCall, hfault, Except.error.injEq] at he
      subst he
      exact ha.1 e' hfault

/-- A request that is not in the cache is answered by the service with the
session of the payload, or raises what the route answers. -/
theorem wp_handle_echoes
    (hcache : ∀ response, w.idempotency payload.requestKey =
      some (.dump response) → response.session = payload.session) :
    (handle cfg payload).wp (execCall cfg) (permits answeredFaults anyText)
      (fun r _ => Echoes payload r ()) w := by
  have herr : ∀ e : PyException, answeredFaults
      (.port (.getCachedResponse payload.requestKey)) (some e) →
      e.Answered := fun e h => h e rfl
  rw [handle, bind_eq, wp_bind, wp_getCachedResponse]
  refine ⟨fun _ => ?_, herr⟩
  cases hc : w.idempotency payload.requestKey with
  | none => exact wp_of_echoes echoes_handleUncached
  | some cached =>
      cases cached with
      | dump response => exact hcache response hc
      | invalid =>
          intro statusCode h
          cases h

theorem answerException_of_answered (payload : AliceWebhookRequest)
    {e : PyException} (he : e.Answered) :
    ∃ response, answerException payload e = ret response ∧
      response.session = payload.session := by
  rw [answerException]
  cases hkind : e.kind with
  | httpException statusCode =>
      have h429 : statusCode = 429 := he statusCode hkind
      subst h429
      exact ⟨_, rfl, rfl⟩
  | timeoutError => exact ⟨_, rfl, rfl⟩
  | incompleteResponseError => exact ⟨_, rfl, rfl⟩
  | validationError => exact ⟨_, rfl, rfl⟩
  | other => exact ⟨_, rfl, rfl⟩

/-- The route turns every outcome of the service into an answer. -/
theorem answers_attempt {p : Service AliceWebhookResponse}
    (hp : p.wp (execCall cfg) (permits answeredFaults anyText)
      (fun r _ => Echoes payload r ()) w) :
    (p.attempt.bind fun outcome =>
      match outcome with
      | .ok response => ret response
      | .error exc => answerException payload exc).wp (execCall cfg)
      (permits answeredFaults anyText)
      (fun r _ => ∃ response, r = .ok response ∧
        response.session = payload.session) w := by
  rw [wp_bind, wp_attempt]
  refine wp_mono hp fun r w' hr => ?_
  cases r with
  | ok response => exact ⟨response, rfl, hr⟩
  | error e =>
      obtain ⟨response, hanswer, hsession⟩ := answerException_of_answered payload hr
      change (answerException payload e).wp _ _ _ _
      rw [hanswer]
      exact ⟨response, rfl, hsession⟩

/-- The rate limiter leaves the cache alone and raises only what the route
answers. -/
theorem wp_checkRateLimit {bucket : Str}
    {Q : Except PyException Unit → World → Prop}
    (hok : ∀ w' : World, w'.idempotency = w.idempotency → Q (.ok ()) w')
    (herr : ∀ e w', e.Answered → Q (.error e) w') :
    (checkRateLimit bucket).wp (execCall cfg) (permits answeredFaults anyText)
      Q w := by
  rw [checkRateLimit, ask, wp_perform]
  intro a ha
  cases hfault : a.fault with
  | some e =>
      simp only [execCall, hfault]
      exact herr e w (ha.1 e hfault)
  | none =>
      rw [execCall_port hfault]
      by_cases hlimit : ((w.rateCount bucket + 1 : ℕ) : ℤ) > cfg.rateLimitPerMinute
      · simp only [PortCall.exec, if_pos hlimit]
        refine herr _ _ ?_
        rintro statusCode ⟨⟩
        rfl
      · simp only [PortCall.exec, if_neg hlimit]
        exact hok _ rfl

/-- The part of the route inside its `try`. -/
theorem route_answers (cached : Option CachedDict) (clientHost : Option Str)
    (hcache : ∀ response, w.idempotency payload.requestKey =
      some (.dump response) → response.session = payload.session) :
    (((if cached = none then
          checkRateLimit (rateLimitBucket payload clientHost)
        else ret ()).bind fun _ => handle cfg payload).attempt.bind
      fun outcome =>
        match outcome with
        | .ok response => ret response
        | .error exc => answerException payload exc).wp (execCall cfg)
      (permits answeredFaults anyText)
      (fun r _ => ∃ response, r = .ok response ∧
        response.session = payload.session) w := by
  refine answers_attempt ?_
  rw [wp_bind]
  split
  · refine wp_checkRateLimit (fun w' hw' => ?_) fun e w' he => he
    refine wp_handle_echoes fun response hr => hcache response ?_
    rw [← hw']
    exact hr
  · exact wp_handle_echoes hcache

theorem execCall_getCachedResponse {a : Answer} {key : Str} :
    execCall cfg a (.port (.getCachedResponse key)) w =
      match a.fault with
      | some e => (.error e, w)
      | none => (.ok (w.idempotency key), w) := by
  rw [execCall]
  cases a.fault <;> rfl

/-- The webhook answers with the session of the payload exactly when its
secret check rejects the request, or the route's own read of the cache works
and no other session was cached under the key of the request.  Exceptions are
as documented: HTTP exceptions come from the rate limiter only, with 429. -/
theorem webhook_answers_iff (secret clientHost : Option Str) (w : World)
    (env : ℕ → Answer) (henv : ∀ n e, (env n).fault = some e → e.Answered) :
    (∃ response, ((aliceWebhook cfg payload secret clientHost).run
        (execCall cfg) (fun n _ => env n) w).1 = .ok response ∧
      response.session = payload.session) ↔
    secretRejected cfg secret = true ∨
      ((env 0).fault = none ∧ ∀ response,
        w.idempotency payload.requestKey = some (.dump response) →
        (env 1).fault = none → response.session = payload.session) := by
  have hread := fun n => @execCall_getCachedResponse cfg w (env n) payload.requestKey
  rw [aliceWebhook]
  cases hsecret : secretRejected cfg secret with
  | true => exact iff_of_true ⟨_, rfl, rfl⟩ (Or.inl rfl)
  | false =>
  simp only [Bool.false_eq_true, if_false, false_or]
  rw [bind_eq, getCachedResponse, ask, run_perform_bind, hread]
  cases hfirst : (env 0).fault with
  | some e => simp
  | none =>
      simp only [true_and]
      by_cases hcache : ∀ response, w.idempotency payload.requestKey =
          some (.dump response) → response.session = payload.session
      · refine iff_of_true ?_ fun response hr _ => hcache response hr
        refine (outcome_run fun n op => ⟨?_, fun _ _ => trivial⟩).wp
          (route_answers (w.idempotency payload.requestKey) clientHost hcache)
        exact fun e he => henv (n + 1) e he
      · push Not at hcache
        obtain ⟨stored, hstored, hsession⟩ := hcache
        simp only [hstored, reduceCtorEq, if_false, pure_eq, bind_eq, ret_bind,
          handle, getCachedResponse, ask, perform, call_bind, attempt, run,
          hread]
        cases hsecond : (env (0 + 1)).fault with
        | none => simp [AliceWebhookResponse.modelValidate, run]
        | some e =>
            obtain ⟨response, hanswer, hsession'⟩ :=
              answerException_of_answered payload (henv (0 + 1) e hsecond)
            refine iff_of_true ⟨response, ?_, hsession'⟩ (by simp)
            simp [hanswer, run]

/-- The exception of the service's own read of the cache is answered. -/
theorem second_read_answered :
    let payload := utter 1 "что такое кит"
    let env : ℕ → Answer := fun n => if n = 2 then .fails ⟨.other, none⟩ else .ok
    let out := ((aliceWebhook .default payload none none).run
      (execCall .default) (fun n _ => env n) World.empty).1
    (∃ response, out = .ok response ∧ response.session = payload.session) ∧
      out.toOption.map (fun response => response.response.text) =
        some "Сервис временно недоступен. Попробуй чуть позже.".toList := by
  intro payload env out
  have henv : ∀ n e, (env n).fault = some e → e.Answered := by
    intro n e he statusCode hkind
    by_cases hn : n = 2
    · simp only [env, if_pos hn, Answer.fails, Option.some.injEq] at he
      rw [← he] at hkind
      cases hkind
    · simp only [env, if_neg hn, Answer.ok, reduceCtorEq] at he
  refine ⟨?_, by decide +kernel⟩
  refine (webhook_answers_iff none none World.empty env henv).mpr (Or.inr ?_)
  exact ⟨rfl, fun response hresponse => by cases hresponse⟩

/-- The exception of the route's own read of the cache escapes. -/
theorem first_read_escapes :
    PyException.Answered ⟨.other, none⟩ ∧
    ¬∃ response, ((aliceWebhook .default (utter 1 "что такое кит") none
        none).run (execCall .default)
          (fun n _ => if n = 0 then .fails ⟨.other, none⟩ else .ok)
          World.empty).1 = .ok response ∧
      response.session = (utter 1 "что такое кит").session := by
  constructor
  · intro statusCode h
    cases h
  · rintro ⟨response, hr, -⟩
    cases hr

end AliceSkill
