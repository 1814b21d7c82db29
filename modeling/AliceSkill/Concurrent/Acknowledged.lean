import AliceSkill.Concurrent.Commands
import AliceSkill.Concurrent.Deferral
import AliceSkill.Concurrent.Changes
import AliceSkill.Effects.Segments
import AliceSkill.Effects.Tracing

/-!
# Acknowledged questions

A request that is put off is acknowledged: `_defer_request` returns with the
promise of an answer.  Whether there is somebody to keep the promise depends on
the SET NX of `start_pending` alone.
-/

namespace AliceSkill

open Text Effects Program Machine RedisPendingReplyStore ConversationService

variable {cfg : Settings} {s : RedisState}
variable {payload : AliceWebhookRequest} {key u : Str}

/-! ## What a request defers -/

/-- A text that a request may defer after what it has seen: its own words, which
the model has failed to answer, or what the open offer it has read promises. -/
def MayDefer (cfg : Settings) (payload : AliceWebhookRequest)
    (seen : List (CallResult CommandSig PyException)) (u : Str) : Prop :=
  (u = payload.text ∧ ∃ history e,
    ⟨.port (.generateReply u history payload.requestKey
      cfg.openaiTimeoutSeconds fastPathMaxOutputTokens), .error e⟩ ∈ seen) ∨
  ∃ r : PendingReply, ⟨.kv (.getPending payload.conversationKey)
      (.get payload.conversationKey), .ok (some r)⟩ ∈ seen ∧
    isOpenOffer r = true ∧ r.continuationRequest = some u

/-- No record has been asked for so far. -/
def Unstarted (seen : List (CallResult CommandSig PyException)) : Prop :=
  ∀ o ∈ seen, ∀ job, o.op ≠ startCommand job

/-- A request asks for one record, and for a text that it may defer. -/
def DefersOnce (cfg : Settings) (payload : AliceWebhookRequest)
    (seen : List (CallResult CommandSig PyException)) (op : Command) : Prop :=
  ∀ job, op = startCommand job → Unstarted seen ∧ ∃ u j,
    job = deferredJob payload payload.conversationKey u j ∧
      MayDefer cfg payload seen u

theorem MayDefer.append {seen : List (CallResult CommandSig PyException)}
    (h : MayDefer cfg payload seen u)
    (more : List (CallResult CommandSig PyException)) :
    MayDefer cfg payload (seen ++ more) u := by
  rcases h with ⟨hu, history, e, hmem⟩ | ⟨r, hmem, hoffer⟩
  · exact Or.inl ⟨hu, history, e, List.mem_append_left _ hmem⟩
  · exact Or.inr ⟨r, List.mem_append_left _ hmem, hoffer⟩

/-- The call is `start_pending`. -/
def Call.Starts : Call → Bool
  | .pending (.startPending ..) => true
  | _ => false

theorem starts_of_plain {c : Call} (h : c.Plain) : c.Starts = false := by
  rcases c with c | c
  · rcases c <;> first | rfl | exact h.elim
  · rfl

/-- The command tells the job. -/
theorem startCommand_inj {job job' : DeferredJob}
    (h : startCommand job = startCommand job') : job = job' := by
  simp only [startCommand, startCall, Command.kv.injEq,
    PendingCall.startPending.injEq] at h
  exact h.1.2

theorem ne_startCommand {c : Call} (hc : c.Starts = false) {op : Command}
    (h : c.Issues op) (job : DeferredJob) : op ≠ startCommand job := by
  rintro rfl
  obtain ⟨rfl, -⟩ := h
  cases hc

theorem Unstarted.snoc {seen : List (CallResult CommandSig PyException)}
    (h : Unstarted seen) {op : Command} (hop : ∀ job, op ≠ startCommand job)
    (x : Except PyException op.Res) : Unstarted (seen ++ [⟨op, x⟩]) := by
  intro o ho
  rcases List.mem_append.mp ho with ho | ho
  · exact h o ho
  · rw [List.mem_singleton.mp ho]
    exact hop

/-- From here on the program asks for one record at most, and for a text that
the request may defer. -/
def DefersRight {α : Type} (cfg : Settings) (payload : AliceWebhookRequest)
    (seen : List (CallResult CommandSig PyException)) (p : Service α) : Prop :=
  Unstarted seen →
    (p.interp implement).Follows (recalling (DefersOnce cfg payload)) seen
      fun _ _ => True

namespace DefersRight

variable {α β : Type} {seen : List (CallResult CommandSig PyException)}

/-- Parts that start no job. -/
theorem calm {p : Service α} (hp : p.Only fun c : Call => c.Starts = false)
    (seen : List (CallResult CommandSig PyException)) :
    (p.interp implement).Follows (recalling (DefersOnce cfg payload)) seen
      fun _ seen' => seen <+: seen' ∧ (Unstarted seen → Unstarted seen') := by
  have hcommands : (p.interp implement).Only
      fun op => ∀ job, op ≠ startCommand job :=
    only_interp_implement hp fun c op hc h => ne_startCommand hc h
  refine hcommands.follows_of (J := fun seen' => seen <+: seen' ∧
    (Unstarted seen → Unstarted seen')) ?_ ⟨List.prefix_refl seen, id⟩
  rintro op seen' hop ⟨hseen, hunstarted⟩
  refine ⟨fun job hjob => absurd hjob (hop job), fun x => ⟨?_, fun h => ?_⟩⟩
  · exact hseen.trans (List.prefix_append seen' _)
  · exact (hunstarted h).snoc hop x

/-- A part that starts no job forgets nothing. -/
theorem calm_bind {p : Service α} {f : α → Service β}
    (hp : p.Only fun c : Call => c.Starts = false)
    (hf : ∀ a more, DefersRight cfg payload (seen ++ more) (f a)) :
    DefersRight cfg payload seen (p.bind f) := by
  intro hseen
  rw [follows_interp_bind]
  refine (calm hp seen).mono ?_
  rintro r seen' ⟨⟨more, rfl⟩, hunstarted⟩
  rcases r with e | a
  · trivial
  · exact hf a more (hunstarted hseen)

/-- Only parts that start no job come after one that does. -/
theorem bind_calm {p : Service α} {f : α → Service β}
    (hp : DefersRight cfg payload seen p)
    (hf : ∀ a, (f a).Only fun c : Call => c.Starts = false) :
    DefersRight cfg payload seen (p.bind f) := by
  intro hseen
  rw [follows_interp_bind]
  refine (hp hseen).mono fun r seen' _ => ?_
  rcases r with e | a
  · trivial
  · exact (calm (hf a) seen').mono fun _ _ _ => trivial

theorem of_calm {p : Service α}
    (hp : p.Only fun c : Call => c.Starts = false) :
    DefersRight cfg payload seen p :=
  fun _ => (calm hp seen).mono fun _ _ _ => trivial

theorem startPending (h : MayDefer cfg payload seen u) (j : JobId) :
    DefersRight cfg payload seen (Ports.startPending payload.conversationKey
      (deferredJob payload payload.conversationKey u j)) := by
  intro hseen
  rw [Ports.startPending, interp_perform]
  change (RedisPendingReplyStore.startPending payload.conversationKey
    (deferredJob payload payload.conversationKey u j)).Follows _ _ _
  rw [RedisPendingReplyStore.startPending, bind_eq, follows_bind, follows_setNx]
  refine ⟨fun job hjob => ⟨hseen, u, j, ?_, h⟩, fun x _ => ?_⟩
  · exact (@startCommand_inj (deferredJob payload payload.conversationKey u j)
      job hjob).symm
  · rcases x with e | _ | _
    · trivial
    · simp only [Bool.false_eq_true, if_false, bind_eq, follows_bind,
        follows_get]
      refine ⟨fun job hjob => ?_, fun x _ => ?_⟩
      · -- a GET is no SET NX
        simp [startCommand] at hjob
      · rcases x with e | _ | existing <;> trivial
    · trivial

theorem deferRequest (h : MayDefer cfg payload seen u) :
    DefersRight cfg payload seen
      (deferRequest payload payload.conversationKey u) := by
  refine calm_bind (only_ask rfl) fun j more => ?_
  refine bind_calm (startPending (h.append more) j) fun pending => ?_
  split
  · refine Only.bind ?_ fun _ => trivial
    refine Only.bind (Only.attempt (only_ask rfl)) fun outcome => ?_
    rcases outcome with e | _
    · exact Only.bind (only_ask rfl) fun _ => trivial
    · trivial
  · trivial

theorem only_calm {p : Service α} (hp : p.Only Call.Plain) :
    p.Only fun c : Call => c.Starts = false :=
  hp.mono fun _ => starts_of_plain

theorem only_calm_storeImmediateFollowup (reply : LLMReply) :
    (storeImmediateFollowup key reply).Only
      fun c : Call => c.Starts = false := by
  simp only [storeImmediateFollowup, bind_eq]
  split
  · trivial
  · refine Only.bind (only_ask rfl) fun jobId => ?_
    split
    · exact Only.bind (only_ask rfl) fun _ => trivial
    · exact Only.bind (only_ask rfl) fun _ => only_ask rfl
    · trivial

theorem answerQuestion (hu : u = payload.text) :
    DefersRight cfg payload seen
      (answerQuestion cfg payload payload.conversationKey u) := by
  refine calm_bind (only_ask rfl) fun history more hseen => ?_
  generalize seen ++ more = seen at hseen
  rw [bind_eq, follows_interp_bind, follows_interp_attempt,
    Ports.generateReply, interp_perform, follows_port]
  refine ⟨by rintro job ⟨⟩, fun x _ => ?_⟩
  rcases x with e | reply
  · refine bind_calm (deferRequest ?_)
      (fun response => only_calm (plain_storeAndReturn response))
      (hseen.snoc (by rintro job ⟨⟩) _)
    exact Or.inl ⟨hu, history, e,
      List.mem_append_right _ List.mem_cons_self⟩
  · refine of_calm (Only.bind ?_ fun _ => ?_) (hseen.snoc (by rintro job ⟨⟩) _)
    · exact only_calm (plain_recordCompletedTurns _ _)
    · exact Only.bind (only_calm_storeImmediateFollowup reply) fun _ =>
        only_calm (plain_storeAndReturn _)

theorem handleContinue (pending : Option PendingReply)
    (hpending : ∀ r, pending = some r →
      ⟨.kv (.getPending payload.conversationKey)
        (.get payload.conversationKey), .ok (some r)⟩ ∈ seen) :
    DefersRight cfg payload seen
      (handleContinue payload payload.conversationKey pending) := by
  rcases pending with _ | r
  · exact fun _ => trivial
  simp only [ConversationService.handleContinue, bind_eq]
  split_ifs with _ _ hoffer
  · exact fun _ => trivial
  · exact of_calm (Only.bind (only_ask rfl) fun _ => trivial)
  · refine calm_bind (only_ask rfl) fun _ more => deferRequest ?_
    obtain ⟨request, hrequest⟩ :
        ∃ request, r.continuationRequest = some request := by
      rcases hrequest : r.continuationRequest with _ | request
      · simp [isOpenOffer, hrequest] at hoffer
      · exact ⟨request, rfl⟩
    refine Or.inr ⟨r, List.mem_append_left _ (hpending r rfl), hoffer, ?_⟩
    rw [hrequest]
    rcases request <;> rfl
  · exact of_calm (only_calm (plain_deliver r _))
  · exact fun _ => trivial

theorem handleUncached :
    DefersRight cfg payload seen (handleUncached cfg payload) := by
  intro hseen
  have htext : sanitizeUserText payload.utterance = payload.text := rfl
  simp only [ConversationService.handleUncached, bind_eq]
  generalize sanitizeUserText payload.utterance = u at htext
  rw [follows_interp_bind, Ports.getPending, interp_perform]
  change (RedisPendingReplyStore.get (.getPending payload.conversationKey)
    payload.conversationKey).Follows _ _ _
  rw [follows_get]
  refine ⟨by rintro job ⟨⟩, fun x _ => ?_⟩
  rcases x with e | pending
  · trivial
  suffices h : DefersRight cfg payload _ _ from h (hseen.snoc (by rintro job ⟨⟩) _)
  by_cases hempty : u = []
  · simp only [if_pos hempty]
    exact of_calm (only_calm (plain_storeAndReturn _))
  simp only [if_neg hempty]
  generalize isContinueIntent cfg.unicode u (Option.isSome pending) = continues
  rcases continues with _ | _
  · rcases pending with _ | r
    · exact answerQuestion htext
    · refine calm_bind ?_ fun blocking more => ?_
      · exact only_calm (plain_handleActivePending r)
      rcases blocking with _ | response
      · exact answerQuestion htext
      · exact of_calm (only_calm (plain_storeAndReturn response))
  · refine bind_calm (handleContinue pending ?_) fun response =>
      only_calm (plain_storeAndReturn response)
    rintro r rfl
    exact List.mem_append_right _ List.mem_cons_self

theorem request : DefersRight cfg payload []
    ((Task.request payload).body cfg) := by
  refine bind_calm ?_ fun _ => trivial
  refine calm_bind (only_ask rfl) fun cached more => ?_
  rcases cached with _ | response | _
  · exact handleUncached
  · exact fun _ => trivial
  · exact fun _ => trivial

end DefersRight

/-! ## What `_defer_request` has done when it returns -/

/-- The job has been put on the stream. -/
def enqueueEvent (i : ℕ) (job : DeferredJob) : Event CommandSig PyException :=
  ⟨i, .port (.enqueue job), .ok ()⟩

section Executions

variable {outcomes : List (CallResult CommandSig PyException)}
variable {response : AliceWebhookResponse}

theorem executes_startPending {job : DeferredJob} {pending : PendingReply}
    (h : (RedisPendingReplyStore.startPending job.conversationKey job).Executes
      outcomes (ret pending)) :
    ∃ created, ⟨startCommand job, .ok created⟩ ∈ outcomes ∧
      (created = true → pending.jobId = job.jobId) := by
  obtain ⟨created, before, after, rfl, hset, hrest⟩ := executes_bind h
  have hbefore := executes_perform hset
  refine ⟨created, List.mem_append_left _ ?_, ?_⟩
  · rw [hbefore]
    exact List.mem_cons_self
  · rintro rfl
    obtain ⟨-, hpending⟩ := executes_ret hrest
    cases hpending
    rfl

theorem executes_enqueueOrClear {job : DeferredJob}
    (h : ((enqueueOrClear key job).interp implement).Executes outcomes
      (ret ())) :
    ⟨.port (.enqueue job), .ok ()⟩ ∈ outcomes := by
  rw [enqueueOrClear, bind_eq, interp_bind, interp_attempt] at h
  obtain ⟨r, before, after, rfl, hattempt, hrest⟩ := executes_bind h
  rcases r with e | _
  · -- a failed enqueue is raised again
    simp only [bind_eq, interp_bind] at hrest
    obtain ⟨_, _, _, -, -, hraise⟩ := executes_bind hrest
    obtain ⟨-, hret⟩ := executes_raise hraise
    cases hret
  · rw [Ports.enqueue, interp_perform] at hattempt
    rw [executes_perform (executes_attempt hattempt)]
    exact List.mem_append_left _ List.mem_cons_self

/-- A `_defer_request` that has returned has tried to store the record of a job
made of its text, and if it has stored it, it has enqueued the job. -/
theorem executes_deferRequest
    (h : ((deferRequest payload key u).interp implement).Executes outcomes
      (ret response)) :
    response = deferredResponse payload ∧ ∃ j created,
      ⟨startCommand (deferredJob payload key u j), .ok created⟩ ∈ outcomes ∧
      (created = true → ⟨.port (.enqueue (deferredJob payload key u j)),
        .ok ()⟩ ∈ outcomes) := by
  rw [deferRequest, bind_eq, interp_bind] at h
  obtain ⟨j, drawn, outcomes₁, rfl, -, h₁⟩ := executes_bind h
  rw [bind_eq, interp_bind] at h₁
  obtain ⟨pending, started, outcomes₂, rfl, hstart, h₂⟩ := executes_bind h₁
  rw [Ports.startPending, interp_perform] at hstart
  obtain ⟨created, hcreated, hown⟩ :=
    @executes_startPending started (deferredJob payload key u j) pending hstart
  split at h₂
  · rw [bind_eq, interp_bind] at h₂
    obtain ⟨_, enqueued, rest, rfl, henqueue, hret⟩ := executes_bind h₂
    obtain ⟨-, hresponse⟩ := executes_ret hret
    cases hresponse
    refine ⟨rfl, j, created, by simp [hcreated], fun _ => ?_⟩
    have hmem := executes_enqueueOrClear henqueue
    simp [deferredJob, hmem]
  · next hother =>
    obtain ⟨-, hresponse⟩ := executes_ret h₂
    cases hresponse
    refine ⟨rfl, j, created, by simp [hcreated], fun htrue => ?_⟩
    exact absurd (hown htrue) hother

/-- The record was stored and the job enqueued. -/
theorem executes_enqueued (j : JobId) :
    ((deferRequest payload key u).interp implement).Executes
      ([⟨.port .uuid4, .ok j⟩,
        ⟨startCommand (deferredJob payload key u j), .ok true⟩,
        ⟨.port (.enqueue (deferredJob payload key u j)), .ok ()⟩] :
        List (CallResult CommandSig PyException))
      (ret (deferredResponse payload)) := by
  rw [deferRequest, bind_eq, interp_bind, Ports.uuid4, interp_perform]
  refine Executes.bind_call (a := j) (.cons (.nil _)) ?_
  rw [bind_eq, interp_bind, Ports.startPending, interp_perform]
  refine Executes.bind_call (a := processingRecord j)
    (.cons (.nil _)) ?_
  rw [processingRecord, if_pos rfl, bind_eq, interp_bind, enqueueOrClear,
    bind_eq, interp_bind, interp_attempt, Ports.enqueue, interp_perform]
  exact Executes.bind_call (a := ()) (.cons (.nil _)) (.nil _)

/-- The record of another job was found. -/
theorem executes_dropped {j : JobId} {existing : PendingReply}
    (hother : existing.jobId ≠ j) :
    ((deferRequest payload key u).interp implement).Executes
      ([⟨.port .uuid4, .ok j⟩,
        ⟨startCommand (deferredJob payload key u j), .ok false⟩,
        ⟨.kv (startCall (deferredJob payload key u j)) (.get key),
          .ok (some existing)⟩] : List (CallResult CommandSig PyException))
      (ret (deferredResponse payload)) := by
  rw [deferRequest, bind_eq, interp_bind, Ports.uuid4, interp_perform]
  refine Executes.bind_call (a := j) (.cons (.nil _)) ?_
  rw [bind_eq, interp_bind, Ports.startPending, interp_perform]
  have hfound : (RedisPendingReplyStore.startPending key
      (deferredJob payload key u j)).Executes
        ([⟨startCommand (deferredJob payload key u j), .ok false⟩,
          ⟨.kv (startCall (deferredJob payload key u j)) (.get key),
            .ok (some existing)⟩] : List (CallResult CommandSig PyException))
        (ret existing) :=
    .cons (.cons (.nil _))
  refine hfound.bind ?_
  rw [if_neg hother]
  exact .nil _

end Executions

/-- The key a SET NX is for. -/
def Command.nxKey : Command → Option Str
  | .kv _ (.setNx key _) => some key
  | _ => none

/-- Every SET NX finds no record. -/
def FindsNoRecord (s : RedisState) : Schedule → Prop
  | .step tid a => ∀ key ∈ (s.next tid).bind Command.nxKey,
      a.fault = none → s.world.pending key = none
  | _ => True

instance (s : RedisState) : (act : Schedule) → Decidable (FindsNoRecord s act)
  | .spawn _ => .isTrue trivial
  | .ambient _ => .isTrue trivial
  | .step tid a => inferInstanceAs
      (Decidable (∀ key ∈ (s.next tid).bind Command.nxKey,
        a.fault = none → s.world.pending key = none))

/-- What the SET NX of a job reports. -/
theorem execCommand_start {a : Answer} {w : World} {job : DeferredJob}
    {created : Bool} :
    (execCommand cfg a (startCommand job) w).1 = .ok created ↔
      a.fault = none ∧ (w.pending job.conversationKey).isNone = created := by
  rcases hfault : a.fault with _ | e
  · have hreply : (execCommand cfg a (startCommand job) w).1 =
        .ok (w.pending job.conversationKey).isNone :=
      congrArg Prod.fst (execCommand_kv hfault (startCall job) _)
    rw [hreply]
    simp only [true_and]
    exact ⟨Except.ok.inj, congrArg Except.ok⟩
  · simp [execCommand_fault hfault]

/-- In a run in which every SET NX finds no record, each of them stores one. -/
theorem created_of_findsNoRecord {permits : Answer → Command → Prop} {w : World}
    (hs : (redisMachine cfg permits).Reachable FindsNoRecord w s) (i : ℕ)
    (job : DeferredJob) : startEvent i job false ∉ s.log := by
  intro hmem
  obtain ⟨t, a, -, ⟨task, k, hth, hfinds, -⟩, hres⟩ := hs.callsAt _ hmem
  have hreply : (execCommand cfg a (startCommand job) t.world).1 = .ok false :=
    hres.symm
  obtain ⟨hfault, hfound⟩ := execCommand_start.mp hreply
  have hnext : t.next i = some (startCommand job) :=
    State.next_eq_some.mpr ⟨task, k, hth⟩
  have hfree : t.world.pending job.conversationKey = none := by
    change ∀ key ∈ (t.next i).bind Command.nxKey, _ at hfinds
    rw [hnext] at hfinds
    exact hfinds _ rfl hfault
  rw [hfree] at hfound
  cases hfound

/-! ## The theorem -/

/-- In the thread of a request, `_defer_request` has been called for the text
`u` and has returned the response. -/
def HasDeferred (cfg : Settings) (s : RedisState) (i : ℕ)
    (payload : AliceWebhookRequest) (key u : Str)
    (response : AliceWebhookResponse) : Prop :=
  ∃ rest before during after,
    s.threads[i]?.map Thread.label = some (.request payload) ∧
    s.outcomes i = before ++ (during ++ after) ∧
    (((Task.request payload).body cfg).interp implement).Executes before
      (((deferRequest payload key u).bind rest).interp implement) ∧
    ((deferRequest payload key u).interp implement).Executes during
      (ret response)

/-- The thread has enqueued a job with the text `u`, and has stored the record of
this job. -/
def IsQueued (s : RedisState) (i : ℕ) (payload : AliceWebhookRequest)
    (key u : Str) : Prop :=
  ∃ j, enqueueEvent i (deferredJob payload key u j) ∈ s.log ∧
    Started s.log i (deferredJob payload key u j)

/-- Whenever `_defer_request` has returned the acknowledgement for a text, the
text is queued. -/
def AcknowledgedAreQueued (cfg : Settings) (s : RedisState) : Prop :=
  ∀ i payload key u,
    HasDeferred cfg s i payload key u (deferredResponse payload) →
      IsQueued s i payload key u

/-- In state `t`, on the way to `s`, the SET NX for the job is executed. -/
def SetNxAt (cfg : Settings) (t : RedisState) (i : ℕ) (job : DeferredJob)
    (s : RedisState) : Prop :=
  ∃ a, a.fault = none ∧
    (redisMachine cfg anyAnswer).CallsAt Any t i (startCommand job) a s

section Outcomes

variable {outcomes : List (CallResult CommandSig PyException)}
variable {p : Program CommandSig PyException (Option AliceWebhookResponse)}
variable {job job' : DeferredJob} {created created' : Bool}

theorem defersOnce_of_executes {before after : List (CallResult CommandSig PyException)}
    {o : CallResult CommandSig PyException}
    (h : (((Task.request payload).body cfg).interp implement).Executes
      (before ++ o :: after) p) : DefersOnce cfg payload before o.op := by
  have hnone : Unstarted [] := by
    rintro o ⟨⟩
  have hright : DefersRight cfg payload [] ((Task.request payload).body cfg) :=
    DefersRight.request
  exact Follows.recalls (hright hnone) h

/-- The record a request asks for is the one of a job for a text that it may
defer. -/
theorem text_of_start
    (h : (((Task.request payload).body cfg).interp implement).Executes outcomes p)
    (ho : ⟨startCommand job, .ok created⟩ ∈ outcomes) : ∃ u j,
      job = deferredJob payload payload.conversationKey u j ∧
        MayDefer cfg payload outcomes u := by
  obtain ⟨before, after, rfl⟩ := List.append_of_mem ho
  obtain ⟨-, u, j, hjob, hmay⟩ := defersOnce_of_executes h job rfl
  exact ⟨u, j, hjob, hmay.append _⟩

/-- A request asks for one record. -/
theorem start_unique
    (h : (((Task.request payload).body cfg).interp implement).Executes outcomes p)
    (ho : ⟨startCommand job, .ok created⟩ ∈ outcomes)
    (ho' : ⟨startCommand job', .ok created'⟩ ∈ outcomes) :
    job = job' ∧ created = created' := by
  obtain ⟨before, after, rfl⟩ := List.append_of_mem ho
  rcases List.mem_append.mp ho' with hbefore | hrest
  · have hfirst := (defersOnce_of_executes h job rfl).1 _ hbefore job'
    exact absurd rfl hfirst
  · rcases List.mem_cons.mp hrest with heq | hafter
    · obtain ⟨hop, hres⟩ := CallResult.mk.inj heq
      have hjob := startCommand_inj hop
      subst hjob
      exact ⟨rfl, (Except.ok.inj (eq_of_heq hres)).symm⟩
    · obtain ⟨between, after, rfl⟩ := List.append_of_mem hafter
      rw [← List.cons_append, ← List.append_assoc] at h
      have hfirst := (defersOnce_of_executes h job' rfl).1
        ⟨startCommand job, .ok created⟩ (by simp) job
      exact absurd rfl hfirst

end Outcomes

/-- The SET NX reports whether there was no record. -/
theorem SetNxAt.mem_outcomes {t : RedisState} {i : ℕ} {job : DeferredJob}
    (h : SetNxAt cfg t i job s) :
    ⟨startCommand job, .ok (t.world.pending job.conversationKey).isNone⟩ ∈
      s.outcomes i := by
  obtain ⟨a, hfault, hcall⟩ := h
  have hreply : (execCommand cfg a (startCommand job) t.world).1 =
      .ok (t.world.pending job.conversationKey).isNone :=
    execCommand_start.mpr ⟨hfault, rfl⟩
  have hmem := Machine.mem_outcomes.mpr hcall.mem_log
  rwa [hreply] at hmem

/-- A SET NX that has been answered was executed in some state on the way. -/
theorem exists_setNxAt {w : World} {i : ℕ} {job : DeferredJob} {created : Bool}
    (hs : (redisMachine cfg anyAnswer).Reachable Any w s)
    (h : ⟨startCommand job, .ok created⟩ ∈ s.outcomes i) :
    ∃ t, (redisMachine cfg anyAnswer).Reachable Any w t ∧
      SetNxAt cfg t i job s := by
  obtain ⟨t, a, ht, hcall, hres⟩ := hs.callsAt _ (Machine.mem_outcomes.mp h)
  have hreply : (execCommand cfg a (startCommand job) t.world).1 = .ok created :=
    hres.symm
  exact ⟨t, ht, a, (execCommand_start.mp hreply).1, hcall⟩

/-- In a run in which every SET NX finds no record, acknowledged questions are
queued; in any run an acknowledged question is queued if and only if the SET NX
of its own handler found no record. -/
theorem acknowledged_queued_iff (cfg : Settings) {s : RedisState} :
    ((redisMachine cfg anyAnswer).Reachable FindsNoRecord World.empty s →
      AcknowledgedAreQueued cfg s) ∧
    ((redisMachine cfg anyAnswer).Reachable Any World.empty s →
      ∀ i payload key u response, HasDeferred cfg s i payload key u response →
        response = deferredResponse payload ∧ key = payload.conversationKey ∧
        MayDefer cfg payload (s.outcomes i) u ∧
        (∃ t j, (redisMachine cfg anyAnswer).Reachable Any World.empty t ∧
          SetNxAt cfg t i (deferredJob payload key u j) s) ∧
        ∀ t j, SetNxAt cfg t i (deferredJob payload key u j) s →
          (IsQueued s i payload key u ↔ t.world.pending key = none)) := by
  constructor
  · rintro hs i payload key u ⟨rest, before, during, after, -, hout, -, hret⟩
    obtain ⟨-, j, created, hstart, henqueue⟩ := executes_deferRequest hret
    have hlog : ∀ {op x}, ⟨op, x⟩ ∈ during → ⟨i, op, x⟩ ∈ s.log := by
      intro op x hmem
      rw [← mem_outcomes, hout]
      simp [hmem]
    rcases created with _ | _
    · exact absurd (hlog hstart) (created_of_findsNoRecord hs i _)
    · exact ⟨j, hlog (henqueue rfl), hlog hstart⟩
  · rintro hs i payload key u response
      ⟨rest, before, during, after, hlabel, hout, -, hret⟩
    obtain ⟨hresponse, j, created, hstart, henqueue⟩ := executes_deferRequest hret
    have hmem : ∀ {o}, o ∈ during → o ∈ s.outcomes i := by
      intro o ho
      rw [hout]
      simp [ho]
    obtain ⟨⟨task, prog⟩, hth, rfl⟩ := Option.map_eq_some_iff.mp hlabel
    have hexec := hs.executes i ⟨.request payload, prog⟩ hth
    obtain ⟨u', j', hjob, hmay⟩ := text_of_start hexec (hmem hstart)
    simp only [deferredJob, DeferredJob.mk.injEq, true_and, and_true] at hjob
    obtain ⟨rfl, rfl, rfl⟩ := hjob
    refine ⟨hresponse, rfl, hmay, ?_, ?_⟩
    · obtain ⟨t, ht, hset⟩ := exists_setNxAt hs (hmem hstart)
      exact ⟨t, j, ht, hset⟩
    · intro t j' hset
      have hfound := hset.mem_outcomes
      constructor
      · rintro ⟨j₁, -, hstarted⟩
        obtain ⟨-, hfree⟩ := start_unique hexec hfound (mem_outcomes.mpr hstarted)
        exact Option.isNone_iff_eq_none.mp hfree
      · intro hfree
        obtain ⟨-, hsame⟩ := start_unique hexec hfound (hmem hstart)
        have hcreated : created = true :=
          hsame.symm.trans (Option.isNone_iff_eq_none.mpr hfree)
        subst hcreated
        exact ⟨j, mem_outcomes.mp (hmem (henqueue rfl)),
          mem_outcomes.mp (hmem hstart)⟩

/-! ## Concrete runs -/

/-- What a new question sees that the model fails to answer. -/
def failedCalls (cfg : Settings) (payload : AliceWebhookRequest)
    (history : List ConversationTurn) (e : PyException) :
    List (CallResult CommandSig PyException) :=
  let key := payload.conversationKey
  [⟨.port (.getCachedResponse payload.requestKey), .ok none⟩,
    ⟨.kv (.getPending key) (.get key), .ok none⟩,
    ⟨.port (.getHistory key), .ok history⟩,
    ⟨.port (.generateReply payload.text history payload.requestKey
      cfg.openaiTimeoutSeconds fastPathMaxOutputTokens), .error e⟩]

/-- The fast path that fails calls `_defer_request` for the question. -/
theorem executes_answerQuestion (history : List ConversationTurn)
    (e : PyException) :
    ((answerQuestion cfg payload key u).interp implement).Executes
      ([⟨.port (.getHistory key), .ok history⟩,
        ⟨.port (.generateReply u history payload.requestKey
          cfg.openaiTimeoutSeconds fastPathMaxOutputTokens), .error e⟩] :
        List (CallResult CommandSig PyException))
      (((deferRequest payload key u).bind (storeAndReturn payload)).interp
        implement) := by
  rw [answerQuestion, bind_eq, interp_bind, Ports.getHistory, interp_perform]
  refine Executes.bind_call (a := history) (.cons (.nil _)) ?_
  rw [bind_eq, interp_bind, interp_attempt, Ports.generateReply, interp_perform]
  refine Executes.bind_call (a := .error e) (.cons (.nil _)) ?_
  exact .nil _

theorem executes_failedCalls (hu : payload.text ≠ [])
    (hnew : isContinueIntent cfg.unicode payload.text false = false)
    (history : List ConversationTurn) (e : PyException) :
    (((Task.request payload).body cfg).interp implement).Executes
      (failedCalls cfg payload history e)
      (((deferRequest payload payload.conversationKey payload.text).bind
        fun response => (storeAndReturn payload response).bind fun response =>
          ret (some response)).interp implement) := by
  rw [← bind_assoc, interp_bind, Task.body, interp_bind]
  refine Executes.bind_left ?_ _
  rw [handle, bind_eq, interp_bind, Ports.getCachedResponse, interp_perform]
  refine Executes.bind_call (a := none) (.cons (.nil _)) ?_
  change ((handleUncached cfg payload).interp implement).Executes _ _
  have htext : sanitizeUserText payload.utterance = payload.text := rfl
  simp only [handleUncached, bind_eq, htext, if_neg hu]
  rw [interp_bind, Ports.getPending, interp_perform]
  refine Executes.bind_call (a := none) (.cons (.nil _)) ?_
  simp only [Option.isSome_none, hnew, Bool.false_eq_true, if_false]
  exact executes_answerQuestion history e

theorem hasDeferred_of_failedCalls {i : ℕ} {history : List ConversationTurn}
    {e : PyException} {during : List (CallResult CommandSig PyException)}
    {response : AliceWebhookResponse} (hu : payload.text ≠ [])
    (hnew : isContinueIntent cfg.unicode payload.text false = false)
    (hlabel : s.threads[i]?.map Thread.label = some (.request payload))
    (hout : s.outcomes i = failedCalls cfg payload history e ++ during)
    (hret : ((deferRequest payload payload.conversationKey
      payload.text).interp implement).Executes during (ret response)) :
    HasDeferred cfg s i payload payload.conversationKey payload.text response := by
  refine ⟨_, _, during, [], hlabel, ?_, executes_failedCalls hu hnew history e,
    hret⟩
  rw [hout, List.append_nil]

theorem lone_question_queued :
    ∃ s : RedisState,
      (redisMachine .default anyAnswer).Reachable FindsNoRecord World.empty s ∧
      let payload := utter 1 "что такое кит"
      let key := payload.conversationKey
      let u := "что такое кит".toList
      HasDeferred .default s 0 payload key u (deferredResponse payload) ∧
      IsQueued s 0 payload key u ∧
      ∃ t j, SetNxAt .default t 0 (deferredJob payload key u j) s ∧
        t.world.pending key = none := by
  let payload := utter 1 "что такое кит"
  let job := deferredJob payload payload.conversationKey payload.text 0
  have htext : payload.text = "что такое кит".toList := by decide +kernel
  have hrun : ((redisMachine .default anyAnswer).runFrom FindsNoRecord
      (initial World.empty)
      (deferringSchedule 0 payload ++ [.step 0 .ok])).map (fun s =>
        (s.threads[0]?.map Thread.label, s.outcomes 0)) =
      some (some (.request payload),
        failedCalls .default payload [] ⟨.timeoutError, none⟩ ++
          [⟨.port .uuid4, .ok 0⟩, ⟨startCommand job, .ok true⟩,
            ⟨.port (.enqueue job), .ok ()⟩]) := by
    decide +kernel
  obtain ⟨s, hs, hobs⟩ := Option.map_eq_some_iff.mp hrun
  obtain ⟨hlabel, hout⟩ := Prod.mk.inj hobs
  have hreach := reachable_runFrom .start hs
  have hdeferred : HasDeferred .default s 0 payload payload.conversationKey
      payload.text (deferredResponse payload) := by
    refine hasDeferred_of_failedCalls ?_ ?_ hlabel hout (executes_enqueued 0)
    · rw [htext]
      decide
    · rw [htext]
      decide +kernel
  rw [htext] at hdeferred
  have hqueued := (acknowledged_queued_iff .default).1 hreach 0 payload _ _
    hdeferred
  obtain ⟨-, -, -, ⟨t, j, -, ht⟩, hiff⟩ := (acknowledged_queued_iff .default).2
    (hreach.mono fun _ _ _ => trivial) 0 payload _ _ _ hdeferred
  exact ⟨s, hreach, hdeferred, hqueued, t, j, ht, (hiff t j ht).mp hqueued⟩

/-- Two questions that find no record and get no answer in time. -/
def overlappingSchedule : List Schedule :=
  let lost : PyException := ⟨.timeoutError, none⟩
  [.spawn (.request (utter 1 "что такое кит")),
    .spawn (.request (utter 2 "что такое лев")),
    .step 0 .ok, .step 0 .ok, .step 1 .ok, .step 1 .ok,
    .step 0 .ok, .step 0 (.fails lost), .step 1 .ok, .step 1 (.fails lost),
    .step 0 .ok, .step 0 .ok, .step 1 .ok, .step 1 .ok, .step 1 .ok]

/-- The second of two overlapping questions is acknowledged and dropped. -/
theorem second_question_dropped :
    ∃ s, (redisMachine .default anyAnswer).Reachable Any World.empty s ∧
      ¬AcknowledgedAreQueued .default s := by
  let payload := utter 2 "что такое лев"
  let job := deferredJob payload payload.conversationKey payload.text 1
  have htext : payload.text = "что такое лев".toList := by decide +kernel
  have hrun : ((redisMachine .default anyAnswer).runFrom Any
      (initial World.empty) overlappingSchedule).map (fun s =>
        (s.threads[1]?.map Thread.label, s.outcomes 1)) =
      some (some (.request payload),
        failedCalls .default payload [] ⟨.timeoutError, none⟩ ++
          [⟨.port .uuid4, .ok 1⟩, ⟨startCommand job, .ok false⟩,
            ⟨.kv (startCall job) (.get payload.conversationKey),
              .ok (some (processingRecord 0))⟩]) := by
    decide +kernel
  obtain ⟨s, hs, hobs⟩ := Option.map_eq_some_iff.mp hrun
  obtain ⟨hlabel, hout⟩ := Prod.mk.inj hobs
  refine ⟨s, reachable_runFrom .start hs, fun hqueued => ?_⟩
  have hdeferred : HasDeferred .default s 1 payload payload.conversationKey
      payload.text (deferredResponse payload) := by
    have hother : (processingRecord 0).jobId ≠ 1 := by decide
    refine hasDeferred_of_failedCalls ?_ ?_ hlabel hout (executes_dropped hother)
    · rw [htext]
      decide
    · rw [htext]
      decide +kernel
  obtain ⟨j, henqueued, -⟩ := hqueued 1 payload _ _ hdeferred
  have hmem := mem_outcomes.mpr henqueued
  rw [hout] at hmem
  simp [failedCalls, startCommand] at hmem

end AliceSkill
