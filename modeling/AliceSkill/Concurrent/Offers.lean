import AliceSkill.Concurrent.Calls
import AliceSkill.Services.Calls
import AliceSkill.Services.Followups

/-!
# Queued follow-ups

A follow-up that the model offers is kept in a record, and a later request
queues it as the question of a job.  However requests and workers are
interleaved, whatever fails and whatever expires, a queued question is that of
the request that queues it or one that the model has offered.
-/

namespace AliceSkill

open Text Effects Program Machine ConversationService

/-! ## The protocol of a thread -/

/-- A continuation request, if there is one, satisfies `Φ`. -/
def Offering (Φ : Str → Prop) (request : Option Str) : Prop :=
  ∀ c, request = some c → Φ c

/-- The question of a request; worker executions have none of their own. -/
def Task.question : Task → Option Str
  | request payload => some (sanitizeUserText payload.utterance)
  | work _ _ => none

/-- A thread may queue its own question or an offer. -/
def Queueable (Φ : Str → Prop) (own : Option Str) (question : Str) : Prop :=
  own = some question ∨ Φ question

/-- What may be published and queued. -/
def Call.Offers (Φ : Str → Prop) (own : Option Str) : Call → Prop
  | .pending (.markReady _ _ _ _ _ _ request) => Offering Φ request
  | .port (.enqueue job) => Queueable Φ own job.userText
  | _ => True

/-- What the records and the model can return. -/
def Call.OffersBack (Φ : Str → Prop) :
    (c : Call) → Except PyException c.Res → Prop
  | .pending (.getPending _), x =>
      ∀ r, x = .ok (some r) → Offering Φ r.continuationRequest
  | .port (.generateReply ..), x =>
      ∀ reply, x = .ok reply → Offering Φ reply.continuationRequest
  | _, _ => True

/-- The protocol of a thread; its phase is its own question. -/
def offers (Φ : Str → Prop) : Protocol CallSig PyException (Option Str) where
  may := Call.Offers Φ
  possible _ := Call.OffersBack Φ
  next own _ _ := own

section Follows

variable {Φ : Str → Prop} {own : Option Str} {α β : Type} {ok : Call → Prop}
variable {cfg : Settings} {payload : AliceWebhookRequest} {key u : Str}

theorem offering_none : Offering Φ none := by
  intro c h
  cases h

/-- Calls that neither publish nor queue. -/
def Call.OffersNothing : Call → Prop
  | .pending (.markReady ..) => False
  | .port (.enqueue _) => False
  | _ => True

theorem offers_of_nothing {c : Call} (h : c.OffersNothing) :
    c.Offers Φ own := by
  cases c with
  | pending c => cases c <;> trivial
  | port c => cases c <;> trivial

theorem offersNothing_of_records {c : Call} (h : c.Records) :
    c.OffersNothing := by
  cases c with
  | pending c => exact h.elim
  | port c => cases c <;> trivial

theorem offersNothing_of_concludes {c : Call} (h : c.Concludes) :
    c.OffersNothing := by
  cases c with
  | pending c => cases c <;> trivial
  | port c => cases c <;> trivial

/-- The part publishes and queues its own question and offers at most. -/
def OffersOnly (Φ : Str → Prop) (own : Option Str) (p : Service α) : Prop :=
  p.Follows (offers Φ) own fun _ q => q = own

theorem offersOnly_ret (a : α) : OffersOnly Φ own (.ret a) := rfl

theorem offersOnly_raise (e : PyException) :
    OffersOnly Φ own (.raise e : Service α) := rfl

theorem offersOnly_of_only {p : Service α} (hp : p.Only Call.OffersNothing) :
    OffersOnly Φ own p :=
  hp.follows fun _ hop => ⟨offers_of_nothing hop, fun _ => rfl⟩

theorem OffersOnly.bind {p : Service α} {f : α → Service β}
    (hp : OffersOnly Φ own p) (hf : ∀ a, OffersOnly Φ own (f a)) :
    OffersOnly Φ own (p.bind f) := by
  rw [OffersOnly, follows_bind]
  apply Follows.mono hp
  intro r q hq
  rw [hq]
  cases r with
  | error e => rfl
  | ok a => exact hf a

/-- A call, before the rest. -/
theorem offersOnly_ask_bind {c : Call} {f : c.Res → Service β}
    (hc : c.Offers Φ own)
    (hf : ∀ a, c.OffersBack Φ (.ok a) → OffersOnly Φ own (f a)) :
    OffersOnly Φ own ((Ports.ask c).bind f) := by
  rw [OffersOnly, follows_bind, Ports.ask, follows_perform]
  refine ⟨hc, fun x hx => ?_⟩
  cases x with
  | error e => rfl
  | ok a => exact hf a hx

/-- A call whose failure is handled, before the rest. -/
theorem offersOnly_attempt_bind {c : Call}
    {f : Except PyException c.Res → Service β} (hc : c.Offers Φ own)
    (hf : ∀ x, c.OffersBack Φ x → OffersOnly Φ own (f x)) :
    OffersOnly Φ own ((Ports.ask c).attempt.bind f) := by
  rw [OffersOnly, follows_bind, follows_attempt, Ports.ask, follows_perform]
  exact ⟨hc, hf⟩

/-! ### Requests -/

theorem offersOnly_enqueueOrClear {job : DeferredJob}
    (hjob : Queueable Φ own job.userText) :
    OffersOnly Φ own (enqueueOrClear key job) := by
  simp only [enqueueOrClear, bind_eq]
  refine offersOnly_attempt_bind hjob fun x hx => ?_
  cases x with
  | ok v => exact offersOnly_ret ()
  | error e => exact offersOnly_ask_bind trivial fun _ _ => offersOnly_raise e

theorem offersOnly_deferRequest (hu : Queueable Φ own u) :
    OffersOnly Φ own (deferRequest payload key u) := by
  simp only [deferRequest, bind_eq]
  refine offersOnly_ask_bind trivial fun jobId _ => ?_
  refine offersOnly_ask_bind trivial fun pending _ => ?_
  split
  · exact (offersOnly_enqueueOrClear hu).bind fun _ => offersOnly_ret _
  · exact offersOnly_ret _

theorem offersOnly_storeImmediateFollowup {reply : LLMReply}
    (hreply : Offering Φ reply.continuationRequest) :
    OffersOnly Φ own (storeImmediateFollowup key reply) := by
  rw [storeImmediateFollowup]
  split
  · exact offersOnly_ret ()
  simp only [bind_eq]
  refine offersOnly_ask_bind trivial fun jobId _ => ?_
  split
  · exact offersOnly_ask_bind offering_none fun _ _ => offersOnly_ret ()
  · next request hrequest =>
    rw [hrequest] at hreply
    refine offersOnly_ask_bind hreply fun updated _ => ?_
    exact offersOnly_of_only (only_ask trivial)
  · exact offersOnly_ret ()

theorem offersOnly_deliver (r : PendingReply) (t : Str) :
    OffersOnly Φ own (deliver payload key r t) := by
  have hclear : ∀ response : AliceWebhookResponse, OffersOnly Φ own
      ((Ports.clearPending key (some r.jobId)).bind fun _ => .ret response) :=
    fun response => offersOnly_ask_bind trivial fun _ _ => offersOnly_ret _
  simp only [deliver, bind_eq]
  apply OffersOnly.bind
  · split
    · exact offersOnly_of_only (only_ask trivial)
    · exact offersOnly_ret ()
  intro _
  split
  · refine offersOnly_ask_bind offering_none fun updated _ => ?_
    apply OffersOnly.bind
    · split
      · exact offersOnly_of_only (only_ask trivial)
      · exact offersOnly_ret ()
    · exact fun _ => offersOnly_ret _
  · split
    · exact offersOnly_ret _
    · exact hclear _

/-- A continue request queues what the record offers. -/
theorem offersOnly_handleContinue {pending : Option PendingReply}
    (hpending : ∀ r, pending = some r → Offering Φ r.continuationRequest) :
    OffersOnly Φ own (handleContinue payload key pending) := by
  cases pending with
  | none => exact offersOnly_ret _
  | some r =>
      simp only [handleContinue, bind_eq]
      split_ifs with hprocessing hfailed hopen htext
      · exact offersOnly_ret _
      · exact offersOnly_ask_bind trivial fun _ _ => offersOnly_ret _
      · refine offersOnly_ask_bind trivial fun _ _ => ?_
        apply offersOnly_deferRequest
        cases hrequest : r.continuationRequest with
        | none => simp [isOpenOffer, hrequest] at hopen
        | some request =>
            cases request with
            | nil => simp [isOpenOffer, hrequest] at hopen
            | cons ch request => exact Or.inr (hpending r rfl _ hrequest)
      · exact offersOnly_deliver r _
      · exact offersOnly_ret _

theorem offersOnly_handleActivePending (r : PendingReply) :
    OffersOnly Φ own (handleActivePending payload key r) := by
  rw [handleActivePending]
  cases r.status with
  | processing => exact offersOnly_ret _
  | ready => exact offersOnly_ret _
  | failed => exact offersOnly_ask_bind trivial fun _ _ => offersOnly_ret _
  | delivered => exact offersOnly_ask_bind trivial fun _ _ => offersOnly_ret _

theorem offersOnly_storeAndReturn (response : AliceWebhookResponse) :
    OffersOnly Φ own (storeAndReturn payload response) :=
  offersOnly_ask_bind trivial fun _ _ => offersOnly_ret _

theorem offersOnly_answerQuestion :
    OffersOnly Φ (some u) (answerQuestion cfg payload key u) := by
  simp only [answerQuestion, bind_eq]
  refine offersOnly_ask_bind trivial fun history _ => ?_
  refine offersOnly_attempt_bind trivial fun outcome houtcome => ?_
  cases outcome with
  | error e =>
      have hown : Queueable Φ (some u) u := Or.inl rfl
      exact (offersOnly_deferRequest hown).bind offersOnly_storeAndReturn
  | ok reply =>
      apply OffersOnly.bind
      · exact offersOnly_of_only (Only.mono (only_recordCompletedTurns _ _)
          fun _ => offersNothing_of_records)
      intro _
      apply OffersOnly.bind
      · exact offersOnly_storeImmediateFollowup (houtcome reply rfl)
      · exact fun _ => offersOnly_storeAndReturn _

theorem offersOnly_handle (cfg : Settings) (payload : AliceWebhookRequest) :
    OffersOnly Φ (some (sanitizeUserText payload.utterance))
      (handle cfg payload) := by
  refine offersOnly_ask_bind trivial fun cached _ => ?_
  rcases cached with _ | response | _
  · rw [handleUncached]
    generalize sanitizeUserText payload.utterance = u
    refine offersOnly_ask_bind trivial fun pending hpending => ?_
    by_cases hempty : u = []
    · rw [if_pos hempty]
      exact offersOnly_storeAndReturn _
    rw [if_neg hempty]
    generalize isContinueIntent cfg.unicode u (Option.isSome pending) = continues
    cases continues with
    | true =>
        have hoffers : ∀ r, pending = some r →
            Offering Φ r.continuationRequest := fun r hr =>
          hpending r (congrArg Except.ok hr)
        exact (offersOnly_handleContinue hoffers).bind offersOnly_storeAndReturn
    | false =>
        cases pending with
        | none => exact offersOnly_answerQuestion
        | some r =>
            apply (offersOnly_handleActivePending r).bind
            intro blocking
            cases blocking with
            | some response => exact offersOnly_storeAndReturn response
            | none => exact offersOnly_answerQuestion
  · exact offersOnly_ret response
  · exact offersOnly_raise _

/-! ### Worker executions -/

/-- The deferred generation returns an offer of the model or raises. -/
theorem offers_generating : Generating (offers Φ) own fun x q => q = own ∧
    ∀ reply, x = .ok reply → Offering Φ reply.continuationRequest where
  clock := by
    rintro op rfl
    exact ⟨trivial, fun _ => rfl⟩
  asks := fun _ _ _ _ _ => trivial
  answers := fun _ _ _ _ _ _ hreply => ⟨rfl, hreply⟩
  fails := fun _ _ _ _ _ _ => rfl
  raises := fun e => ⟨rfl, by simp⟩

theorem offersOnly_processDeferredJob (job : DeferredJob)
    (deadlineSeconds : ℚ) :
    OffersOnly Φ own (processDeferredJob job deadlineSeconds) := by
  simp only [processDeferredJob, bind_eq]
  refine offersOnly_ask_bind trivial fun current _ => ?_
  split
  · refine offersOnly_ask_bind trivial fun history _ => ?_
    rw [OffersOnly, follows_bind]
    apply Follows.mono (offers_generating.generateDeferredReply job history _)
    rintro x q ⟨rfl, hreply⟩
    cases x with
    | error e => rfl
    | ok reply =>
        apply OffersOnly.bind
        · exact offersOnly_of_only (Only.mono (only_appendTurns _ _) fun _ h =>
            offersNothing_of_records (records_of_appends h))
        intro _
        refine offersOnly_ask_bind (hreply reply rfl) fun updated _ => ?_
        split
        · exact offersOnly_ret reply
        · apply OffersOnly.bind
          · exact offersOnly_of_only (Only.mono (only_persistAnalytics _ _ _ _)
              fun _ h => offersNothing_of_records (records_of_analytics h))
          · exact fun _ => offersOnly_ret reply
  · exact offersOnly_ret _

theorem stays_concludes : Stays (offers Φ) Call.Concludes own :=
  fun _ hop => ⟨offers_of_nothing (offersNothing_of_concludes hop), fun _ => rfl⟩

/-- What a thread of either kind publishes and queues. -/
theorem offersOnly_body (cfg : Settings) (task : Task) :
    OffersOnly Φ task.question (task.body cfg) := by
  cases task with
  | request payload =>
      exact (offersOnly_handle cfg payload).bind fun _ => offersOnly_ret _
  | work i job =>
      have hwork : OffersOnly Φ none (workJob cfg job) := by
        refine follows_workJob_of_process cfg job ?_
        apply Follows.mono (offersOnly_processDeferredJob job _)
        rintro x q rfl
        exact ⟨stays_concludes, rfl⟩
      exact hwork.bind fun _ => offersOnly_ret _

end Follows

/-! ## Runs -/

section Runs

variable {Φ : Str → Prop} {cfg : Settings} {s : StoreState}
variable {permitted : Answer → Call → Prop} {w : World}

/-- Every record offers texts in `Φ`. -/
def World.Offering (Φ : Str → Prop) (w : World) : Prop :=
  ∀ key r, w.pending key = some r → AliceSkill.Offering Φ r.continuationRequest

theorem World.Offering.of_pending {w' : World} (h : w.Offering Φ)
    (heq : w'.pending = w.pending) : w'.Offering Φ := by
  intro key r hr
  rw [heq] at hr
  exact h key r hr

theorem World.Offering.expire (h : w.Offering Φ) (e : Expiry) :
    (w.expire e).Offering Φ := by
  cases e with
  | idempotency k => exact h.of_pending rfl
  | history k => exact h.of_pending rfl
  | pending k =>
      intro key r hr
      rcases setPending_cases hr with hold | ⟨-, hnew⟩
      · exact h key r hold
      · cases hnew

/-- A call keeps the records as they have to be, and returns what it may. -/
theorem World.Offering.call (h : w.Offering Φ) {own : Option Str} {a : Answer}
    {op : Call} (hmay : op.Offers Φ own) (hreply : op.asksModel = true →
      a.fault = none → AliceSkill.Offering Φ
        (prepareLlmReply a.rawText).continuationRequest) :
    op.OffersBack Φ (execCall cfg a op w).1 ∧
      (execCall cfg a op w).2.Offering Φ := by
  constructor
  · cases hfault : a.fault with
    | some e =>
        rw [execCall_fault hfault]
        cases op with
        | pending c => cases c <;> first | exact True.intro | (intro r hr; cases hr)
        | port c => cases c <;> first | exact True.intro | (intro r hr; cases hr)
    | none =>
        cases op with
        | pending c =>
            cases c
            case getPending key =>
              rw [execCall_getPending hfault]
              intro r hr
              exact h key r (Except.ok.inj hr)
            all_goals exact True.intro
        | port c =>
            cases c
            case generateReply =>
              rw [execCall_port hfault]
              intro reply hr
              have heq : prepareLlmReply a.rawText = reply := Except.ok.inj hr
              rw [← heq]
              exact hreply rfl hfault
            all_goals exact True.intro
  · intro key r hr
    rcases record_cases hr with hold | ⟨-, hstores⟩
    · exact h key r hold
    · cases hstores with
      | started key job hfree => exact offering_none
      | published key j replyText replyTts tailText mode request hown =>
          exact hmay
      | failed key j m hown => exact offering_none
      | delivered key r' hr' => exact h key r' hr'

/-- The question of the thread that makes a call. -/
def questionOf (s : StoreState) (t : ℕ) : Option Str :=
  (s.threads[t]?.map Thread.label).bind Task.question

/-- Every job that a thread queues asks its own question or an offer. -/
def QueuedFrom (Φ : Str → Prop) (s : StoreState) : Prop :=
  ∀ e ∈ s.log, ∀ job, e.op = .port (.enqueue job) →
    Queueable Φ (questionOf s e.tid) job.userText

/-- The records, the log and the phases of a run. -/
structure Offered (Φ : Str → Prop) (s : StoreState) (ph : ℕ → Option Str) :
    Prop where
  records : s.world.Offering Φ
  queued : QueuedFrom Φ s
  own : ∀ t < s.threads.length, ph t = questionOf s t

theorem questionOf_spawned {t : ℕ} {task : Task} (ht : t < s.threads.length) :
    questionOf ((storeMachine cfg permitted).spawned s task) t =
      questionOf s t := by
  rw [questionOf, questionOf, List.getElem?_eq_getElem ht, Option.map_some]
  rw [spawned_label]
  rw [List.getElem?_eq_getElem ht, Option.map_some]

theorem Offered.spawn {ph : ℕ → Option Str} {task : Task}
    (hs : ∀ e ∈ s.log, e.tid < s.threads.length) (h : Offered Φ s ph) :
    Offered Φ ((storeMachine cfg permitted).spawned s task)
      (Function.update ph s.threads.length task.question) := by
  constructor
  · exact h.records
  · intro e he job hjob
    rw [questionOf_spawned (hs e he)]
    exact h.queued e he job hjob
  · intro t ht
    by_cases heq : t = s.threads.length
    · rw [heq, Function.update_self, questionOf, spawned_threads, if_pos rfl]
      rfl
    · rw [spawned, List.length_append, List.length_singleton] at ht
      have hlt : t < s.threads.length := by omega
      rw [Function.update_of_ne heq, questionOf_spawned hlt]
      exact h.own t hlt

theorem Offered.call {ph : ℕ → Option Str} {t : ℕ} {task : Task} {op : Call}
    {k : Except PyException op.Res → Service (Option AliceWebhookResponse)}
    {a : Answer} (hget : s.threads[t]? = some ⟨task, .call op k⟩)
    (h : Offered Φ s ph) (hmay : op.Offers Φ (ph t))
    (hworld : (execCall cfg a op s.world).2.Offering Φ) :
    Offered Φ ((storeMachine cfg permitted).afterCall s t task op k a)
      (Function.update ph t (ph t)) := by
  have hsame : ∀ i, questionOf
      ((storeMachine cfg permitted).afterCall s t task op k a) i =
        questionOf s i := by
    intro i
    rw [questionOf, questionOf, afterCall_label hget]
  have hlt := (List.getElem?_eq_some_iff.mp hget).1
  constructor
  · exact hworld
  · intro e he job hjob
    rw [hsame]
    rcases List.mem_cons.mp he with hnew | hold
    · subst hnew
      replace hjob : op = .port (.enqueue job) := hjob
      subst hjob
      replace hmay : Queueable Φ (ph t) job.userText := hmay
      rw [h.own t hlt] at hmay
      exact hmay
    · exact h.queued e hold job hjob
  · intro i hi
    rw [afterCall, List.length_set] at hi
    rw [Function.update_eq_self, hsame]
    exact h.own i hi

/-- If the model offers texts in `Φ` only, nothing else is ever offered, and
whatever a thread queues is its own question or such a text. -/
theorem offered_of_reachable {C : StoreState → Schedule → Prop}
    (hmodel : ∀ a op, permitted a op → op.asksModel = true → a.fault = none →
      Offering Φ (prepareLlmReply a.rawText).continuationRequest)
    (hs : (storeMachine cfg permitted).Reachable C World.empty s) :
    s.world.Offering Φ ∧ QueuedFrom Φ s := by
  have hphases : ∃ ph, Offered Φ s ph ∧ InPhases (offers Φ)
      (fun task _ q => q = Task.question task) s ph := by
    apply hs.phases (offersOnly_body cfg) fun _ => none
    · constructor
      · intro key r hr
        cases hr
      · intro e he
        cases he
      · intro t ht
        cases ht
    · intro s ph task hreach _ _ _ h
      exact h.spawn hreach.tid_lt
    · intro s ph t task op k a _ hget _ hpermitted hmay _ h
      obtain ⟨hback, hworld⟩ := h.records.call hmay fun hasks hfault =>
        hmodel a op hpermitted hasks hfault
      exact ⟨hback, fun _ => h.call hget hmay hworld⟩
    · intro s ph e _ _ h
      exact ⟨h.records.expire e, h.queued, h.own⟩
  obtain ⟨ph, hoffered, -⟩ := hphases
  exact ⟨hoffered.records, hoffered.queued⟩

/-- Any call may fail. -/
def anyFault : Faults := fun _ _ => True

/-- Texts of the model in which no marker has an opening in its body. -/
def speakingUnnested : Answer → Call → Prop := permits anyFault Unnested

instance (a : Answer) (c : Call) : Decidable (speakingUnnested a c) :=
  inferInstanceAs (Decidable (True ∧
    (a.fault = none → c.asksModel = true → Unnested a.rawText)))

/-- Everything on offer is clean, and so is what is queued of it. -/
structure FollowupsClean (s : StoreState) : Prop where
  offered : s.world.Offering CleanRequest
  queued : QueuedFrom CleanRequest s

theorem offering_prepareLlmReply {rawText : Str} (h : Unnested rawText) :
    Offering CleanRequest (prepareLlmReply rawText).continuationRequest := by
  intro request hrequest
  have hextracted := (extracted_iff rawText).mpr h
  exact hextracted.2 request (continuationRequest_prepareLlmReply hrequest)

/-- The extraction is safe exactly for texts in which the body that is asked for
has no further opening, and as long as the model keeps to such texts, so are the
records and the queue. -/
theorem followups_clean_iff (rawText : Str) (cfg : Settings)
    (C : StoreState → Schedule → Prop) (s : StoreState) :
    (Extracted (extractFollowupRequest rawText) ↔ Unnested rawText) ∧
    ((storeMachine cfg speakingUnnested).Reachable C World.empty s →
      FollowupsClean s) := by
  refine ⟨extracted_iff rawText, fun hs => ?_⟩
  obtain ⟨hoffered, hqueued⟩ := offered_of_reachable
    (fun a op hpermitted hasks hfault =>
      offering_prepareLlmReply (hpermitted.2 hfault hasks)) hs
  exact ⟨hoffered, hqueued⟩

end Runs

/-- An answer with an offer, and a request that takes it up. -/
def offeringSchedule : List Schedule :=
  [.spawn (.request (utter 1 "что такое кит")), .step 0 .ok, .step 0 .ok,
    .step 0 .ok,
    .step 0 (.replies "Кит. [[FOLLOWUP_REQUEST: где он живет]]".toList),
    .step 0 .ok, .step 0 .ok, .step 0 .ok, .step 0 .ok, .step 0 .ok,
    .step 0 .ok, .step 0 .ok,
    .spawn (.request (utter 2 "продолжай")), .step 1 .ok, .step 1 .ok,
    .step 1 .ok, .step 1 .ok, .step 1 .ok, .step 1 .ok]

/-- The questions that have been queued, the latest first. -/
def queuedTexts (s : StoreState) : List Str :=
  s.log.filterMap fun e =>
    match e.op with
    | .port (.enqueue job) => some job.userText
    | _ => none

theorem offer_queued_clean :
    ∃ s, (storeMachine .default speakingUnnested).Reachable (fun _ _ => True)
      World.empty s ∧ queuedTexts s = ["где он живет".toList] ∧
      FollowupsClean s := by
  let M := storeMachine .default speakingUnnested
  have hrun : (M.runFrom (fun _ _ => True) (initial World.empty)
      offeringSchedule).map queuedTexts = some ["где он живет".toList] := by
    decide +kernel
  obtain ⟨s, hs, hqueued⟩ := Option.map_eq_some_iff.mp hrun
  have hreach : M.Reachable (fun _ _ => True) World.empty s :=
    reachable_runFrom .start hs
  exact ⟨s, hreach, hqueued, (followups_clean_iff [] .default _ s).2 hreach⟩

/-- A marker that begins inside another one. -/
def nestedMarkers : Str :=
  "[[FOLLOWUP_REQUEST: [[FOLLOWUP_REQUEST: x]]".toList

theorem nested_opening_survives :
    (extractFollowupRequest nestedMarkers).2 =
      some "[[FOLLOWUP_REQUEST: x".toList ∧
    ¬Extracted (extractFollowupRequest nestedMarkers) := by
  have hrequest : (extractFollowupRequest nestedMarkers).2 =
      some "[[FOLLOWUP_REQUEST: x".toList := by
    decide +kernel
  refine ⟨hrequest, fun h => ?_⟩
  exact (h.2 _ hrequest).unmarked (by decide +kernel)

end AliceSkill
