import AliceSkill.Concurrent.Machines
import AliceSkill.Sequential.Service
import AliceSkill.Services.Calls
import Mathlib.Data.Set.Insert

/-!
# Who may use a job id

An id is drawn by one request and used under the key of its conversation.
Everybody else who writes under the id has read it in a record or was given it
with a job.  The methods of the pending store are atomic here.
-/

namespace AliceSkill

open Text Effects Program RedisPendingReplyStore ConversationService

/-- An answer that can be spoken, or has been spoken at least once. -/
def PendingReply.IsAnswer (r : PendingReply) : Prop :=
  r.status = .ready ∨ r.status = .delivered

instance (r : PendingReply) : Decidable r.IsAnswer :=
  inferInstanceAs (Decidable (_ ∨ _))

/-- The ids a thread may use. -/
structure Knowledge where
  /-- An id that was drawn and has not been used. -/
  held : Option JobId
  /-- Ids the thread has used or read, with the key of the conversation. -/
  seen : Set (Str × JobId)
  /-- Ids of answers. -/
  answered : Set (Str × JobId)

namespace Knowledge

/-- Nothing is known before the first call of a request. -/
def nothing : Knowledge := ⟨none, ∅, ∅⟩

/-- What a thread may call. -/
def May (q : Knowledge) : Call → Prop
  | .pending (.startPending key job) =>
      key = job.conversationKey ∧ q.held = some job.jobId
  | .pending (.markReady key j ..) => (key, j) ∈ q.seen ∨ q.held = some j
  | .pending (.markFailed key j _) => (key, j) ∈ q.seen
  | .pending (.markDelivered key j) => (key, j) ∈ q.answered
  | .pending (.clearPending key (some j)) => (key, j) ∈ q.seen
  | .pending (.clearPending _ none) => False
  | .port (.enqueue job) => (job.conversationKey, job.jobId) ∈ q.seen
  | _ => True

/-- The thread has read a record. -/
def read (q : Knowledge) (key : Str) (r : PendingReply) : Knowledge where
  held := q.held
  seen := insert (key, r.jobId) q.seen
  answered := if r.IsAnswer then insert (key, r.jobId) q.answered
    else q.answered

/-- The thread has used an id in a record. -/
def use (q : Knowledge) (key : Str) (j : JobId) : Knowledge where
  held := none
  seen := insert (key, j) q.seen
  answered := q.answered

/-- The thread has published an answer. -/
def publish (q : Knowledge) (key : Str) (j : JobId) : Knowledge where
  held := none
  seen := insert (key, j) q.seen
  answered := insert (key, j) q.answered

def next (q : Knowledge) (op : Call) (x : Except PyException op.Res) :
    Knowledge :=
  match op, x with
  | .port .uuid4, .ok j => { q with held := some j }
  | .pending (.getPending key), .ok (some r) => q.read key r
  | .pending (.startPending key job), _ => q.use key job.jobId
  | .pending (.markReady key j ..), .ok _ => q.publish key j
  | .pending (.markReady key j ..), .error _ => q.use key j
  | _, _ => q

end Knowledge

/-- The protocol of all threads. -/
def idUse : Protocol CallSig PyException Knowledge where
  may := Knowledge.May
  possible _ _ _ := True
  next := Knowledge.next

/-- A worker knows the id of its job. -/
def Task.knowledge : Task → Knowledge
  | request _ => .nothing
  | work _ job => ⟨none, {(job.conversationKey, job.jobId)}, ∅⟩

/-! ## Threads use ids they know -/

/-- Calls that have nothing to do with ids. -/
def Call.Idless : Call → Prop
  | .pending _ => False
  | .port .uuid4 => False
  | .port (.enqueue _) => False
  | .port _ => True

theorem idless_of_records {c : Call} (h : c.Records) : c.Idless := by
  rcases c with c | c
  · exact h.elim
  · rcases c <;> trivial

theorem idless_stays {c : Call} (h : c.Idless) (q : Knowledge) :
    idUse.may q c ∧ ∀ x, idUse.next q c x = q := by
  rcases c with c | c
  · exact h.elim
  · rcases c <;> first | exact ⟨trivial, fun _ => rfl⟩ | exact h.elim

section Handlers

variable {cfg : Settings} {payload : AliceWebhookRequest} {key : Str}
variable {q : Knowledge}

/-- An outcome after which nothing is promised. -/
abbrev anyOutcome {α : Type} (_ : Except PyException α) (_ : Knowledge) : Prop :=
  True

theorem idUse_ask_bind {α : Type} {c : Call} {f : c.Res → Service α}
    (hmay : idUse.may q c)
    (hf : ∀ a, (f a).Follows idUse (idUse.next q c (.ok a)) anyOutcome) :
    ((Ports.ask c).bind f).Follows idUse q anyOutcome := by
  rw [follows_bind, Ports.ask, follows_perform]
  refine ⟨hmay, fun x _ => ?_⟩
  rcases x with e | a
  · trivial
  · exact hf a

theorem idUse_ask {c : Call} (hmay : idUse.may q c) :
    (Ports.ask c).Follows idUse q anyOutcome := by
  rw [Ports.ask, follows_perform]
  exact ⟨hmay, fun _ _ => trivial⟩

theorem idUse_bind {α β : Type} {p : Service α} {f : α → Service β}
    (hp : p.Only Call.Idless) (hf : ∀ a, (f a).Follows idUse q anyOutcome) :
    (p.bind f).Follows idUse q anyOutcome := by
  rw [follows_bind]
  refine (hp.follows fun _ hc => idless_stays hc q).mono fun r q' hq' => ?_
  subst hq'
  rcases r with e | a
  · trivial
  · exact hf a

namespace ConversationService

theorem idUse_storeAndReturn (response : AliceWebhookResponse) :
    (storeAndReturn payload response).Follows idUse q anyOutcome :=
  idUse_ask_bind trivial fun _ => trivial

theorem idUse_bind_storeAndReturn {p : Service AliceWebhookResponse}
    (hp : p.Follows idUse q anyOutcome) :
    (p.bind (storeAndReturn payload)).Follows idUse q anyOutcome := by
  rw [follows_bind]
  refine hp.mono fun r q' _ => ?_
  rcases r with e | response
  · trivial
  · exact idUse_storeAndReturn response

theorem idUse_deferRequest (u : Str) :
    (deferRequest payload key u).Follows idUse q anyOutcome := by
  refine idUse_ask_bind trivial fun jobId => ?_
  have hheld : (idUse.next q (.port .uuid4) (.ok jobId)).held = some jobId := rfl
  generalize idUse.next q (.port .uuid4) (.ok jobId) = q₁ at hheld
  refine idUse_ask_bind ⟨rfl, hheld⟩ fun pending => ?_
  have hseen : (key, jobId) ∈
      (idUse.next q₁ (.pending (.startPending key
        (deferredJob payload key u jobId))) (.ok pending)).seen :=
    Set.mem_insert _ _
  change Follows idUse (if pending.jobId = jobId then
    (enqueueOrClear key (deferredJob payload key u jobId)).bind fun _ =>
      ret (deferredResponse payload)
    else ret (deferredResponse payload)) _ _
  split
  · rw [enqueueOrClear]
    simp only [bind_eq, follows_bind, follows_attempt]
    rw [Ports.enqueue, Ports.ask, follows_perform]
    refine ⟨hseen, fun x _ => ?_⟩
    rcases x with e | _
    · simp only [follows_bind]
      rw [Ports.clearPending, Ports.ask, follows_perform]
      refine ⟨hseen, fun x _ => ?_⟩
      rcases x <;> trivial
    · trivial
  · trivial

theorem idUse_deliverRest {r : PendingReply} (hseen : (key, r.jobId) ∈ q.seen)
    (response : AliceWebhookResponse) :
    (deliverRest key r response).Follows idUse q anyOutcome := by
  rw [deliverRest]
  split
  · refine idUse_ask_bind (Or.inl hseen) fun updated => ?_
    rw [follows_bind]
    split
    · refine (idUse_ask ?_).mono fun x q' _ => ?_
      · exact Set.mem_insert _ _
      · rcases x <;> trivial
    · trivial
  · split
    · trivial
    · exact idUse_ask_bind hseen fun _ => trivial

theorem idUse_deliver {r : PendingReply} (hseen : (key, r.jobId) ∈ q.seen)
    (hanswered : r.status = .ready → (key, r.jobId) ∈ q.answered) (t : Str) :
    (deliver payload key r t).Follows idUse q anyOutcome := by
  have hrest := idUse_deliverRest hseen
  rw [deliver_eq_bind, follows_bind]
  split
  · next hready =>
    rw [Ports.markDelivered, Ports.ask, follows_perform]
    refine ⟨hanswered hready, fun x _ => ?_⟩
    rcases x with e | _
    · trivial
    · exact hrest _
  · exact hrest _

theorem idUse_handleContinue {pending : Option PendingReply}
    (hseen : ∀ r, pending = some r → (key, r.jobId) ∈ q.seen ∧
      (r.IsAnswer → (key, r.jobId) ∈ q.answered)) :
    (handleContinue payload key pending).Follows idUse q anyOutcome := by
  rcases pending with _ | r
  · trivial
  obtain ⟨hseen, hanswered⟩ := hseen r rfl
  simp only [handleContinue, bind_eq]
  split_ifs
  · trivial
  · exact idUse_ask_bind hseen fun _ => trivial
  · exact idUse_ask_bind hseen fun _ => idUse_deferRequest _
  · exact idUse_deliver hseen (fun h => hanswered (Or.inl h)) _
  · trivial

theorem idUse_storeImmediateFollowup (reply : LLMReply) :
    (storeImmediateFollowup key reply).Follows idUse q anyOutcome := by
  simp only [storeImmediateFollowup, bind_eq]
  split
  · trivial
  · refine idUse_ask_bind trivial fun jobId => ?_
    split
    · exact idUse_ask_bind (Or.inr rfl) fun _ => trivial
    · refine idUse_ask_bind (Or.inr rfl) fun _ => ?_
      exact idUse_ask (Set.mem_insert _ _)
    · trivial

theorem idUse_answerQuestion (u : Str) :
    (answerQuestion cfg payload key u).Follows idUse q anyOutcome := by
  refine idUse_ask_bind trivial fun history => ?_
  refine idUse_bind ?_ fun outcome => ?_
  · exact Only.attempt (only_ask trivial)
  rcases outcome with e | reply
  · exact idUse_bind_storeAndReturn (idUse_deferRequest u)
  · refine idUse_bind ?_ fun _ => ?_
    · exact Only.mono (only_recordCompletedTurns _ _) fun _ => idless_of_records
    rw [bind_eq, follows_bind]
    refine (idUse_storeImmediateFollowup reply).mono fun r q' _ => ?_
    rcases r with e | _
    · trivial
    · exact idUse_storeAndReturn _

theorem idUse_handleActivePending {r : PendingReply}
    (hseen : (key, r.jobId) ∈ q.seen) (u : Str) :
    ((handleActivePending payload key r).bind fun blockingResponse =>
      match blockingResponse with
      | some response => storeAndReturn payload response
      | none => answerQuestion cfg payload key u).Follows idUse q
        anyOutcome := by
  rw [handleActivePending]
  rcases r.status
  · exact idUse_storeAndReturn _
  · exact idUse_storeAndReturn _
  · simp only [bind_eq, Program.bind_assoc, pure_eq, ret_bind]
    exact idUse_ask_bind hseen fun _ => idUse_answerQuestion u
  · simp only [bind_eq, Program.bind_assoc, pure_eq, ret_bind]
    exact idUse_ask_bind hseen fun _ => idUse_answerQuestion u

theorem idUse_handle :
    (handle cfg payload).Follows idUse q anyOutcome := by
  refine idUse_ask_bind trivial fun cached => ?_
  rcases cached with _ | response | _
  · rw [handleUncached]
    generalize sanitizeUserText payload.utterance = u
    refine idUse_ask_bind trivial fun pending => ?_
    have hseen : ∀ r, pending = some r →
        (payload.conversationKey, r.jobId) ∈ (idUse.next q (.pending
          (.getPending payload.conversationKey)) (.ok pending)).seen ∧
        (r.IsAnswer → (payload.conversationKey, r.jobId) ∈ (idUse.next q
          (.pending (.getPending payload.conversationKey))
          (.ok pending)).answered) := by
      rintro r rfl
      refine ⟨Set.mem_insert _ _, fun hanswer => ?_⟩
      simp only [idUse, Knowledge.next, Knowledge.read, if_pos hanswer]
      exact Set.mem_insert _ _
    change Follows idUse _ (idUse.next q (.pending
      (.getPending payload.conversationKey)) (.ok pending)) anyOutcome
    generalize idUse.next q (.pending (.getPending payload.conversationKey))
      (.ok pending) = q' at hseen
    by_cases hempty : u = []
    · rw [if_pos hempty]
      exact idUse_storeAndReturn _
    rw [if_neg hempty]
    generalize isContinueIntent cfg.unicode u (Option.isSome pending) = continues
    rcases continues with _ | _
    · rcases pending with _ | r
      · exact idUse_answerQuestion u
      · exact idUse_handleActivePending (hseen r rfl).1 u
    · exact idUse_bind_storeAndReturn (idUse_handleContinue hseen)
  · trivial
  · trivial

end ConversationService

/-- Every thread uses only ids it knows. -/
theorem idUse_body (cfg : Settings) (task : Task) :
    (task.body cfg).Follows idUse task.knowledge anyOutcome := by
  rcases task with payload | ⟨i, job⟩
  · rw [Task.body, follows_bind]
    refine idUse_handle.mono fun r q _ => ?_
    rcases r <;> trivial
  · have hworks : ∀ (op : Call) (q : Knowledge), op.Works job →
        (job.conversationKey, job.jobId) ∈ q.seen → idUse.may q op ∧
        ∀ x, (job.conversationKey, job.jobId) ∈ (idUse.next q op x).seen := by
      intro op q hop hseen
      rcases op with c | c
      · rcases c with key | ⟨key, job'⟩ |
          ⟨key, j, replyText, replyTts, tailText, mode, request⟩ |
          ⟨key, j, m⟩ | ⟨key, j⟩ | ⟨key, j⟩
        · refine ⟨trivial, fun x => ?_⟩
          rcases x with e | _ | r
          · exact hseen
          · exact hseen
          · exact Set.mem_insert_of_mem _ hseen
        · exact hop.elim
        · obtain ⟨rfl, rfl⟩ := hop
          refine ⟨Or.inl hseen, fun x => ?_⟩
          rcases x with e | _ <;> exact Set.mem_insert _ _
        · obtain ⟨rfl, rfl⟩ := hop
          exact ⟨hseen, fun x => hseen⟩
        · exact hop.elim
        · exact hop.elim
      · rcases c
        case enqueue => exact (hop.elim id id).elim
        case uuid4 => exact (hop.elim id id).elim
        all_goals exact ⟨trivial, fun x => hseen⟩
    rw [Task.body, follows_bind]
    refine (Only.follows_of (only_workJob cfg job) hworks ?_).mono
      fun r q _ => ?_
    · exact Set.mem_singleton _
    · rcases r <;> trivial

end Handlers

end AliceSkill
