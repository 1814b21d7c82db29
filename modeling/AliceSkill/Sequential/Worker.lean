import AliceSkill.Sequential.Service

/-!
# The worker without interruption

One execution of a stream entry: skipped, finished with a text of the model,
or reported as failed.
-/

namespace AliceSkill

open Text Effects Program RedisPendingReplyStore

/-- The record a worker publishes for a reply of the model. -/
def publishedRecord (jobId : JobId) (reply : LLMReply) : PendingReply :=
  readyRecord jobId reply.shortText reply.shortText reply.followupText
    reply.followupMode reply.continuationRequest

/-- The record a worker leaves when a job has failed. -/
def failureRecord (jobId : JobId) : PendingReply :=
  failedRecord jobId "deferred_generation_failed".toList

namespace ConversationService

variable {cfg : Settings} {T : Str → Prop} {w : World}

/-- A worker finds the record of its job, in progress. -/
theorem record_of_isProcessingFor {key : Str} {j : JobId}
    (h : isProcessingFor (w.pending key) j = true) :
    ∃ r, w.pending key = some r ∧ r.jobId = j ∧ r.status = .processing := by
  cases hp : w.pending key with
  | none => simp [hp, isProcessingFor] at h
  | some r =>
      simp only [hp, isProcessingFor, decide_eq_true_eq] at h
      exact ⟨r, rfl, h.1, h.2⟩

/-- The deferred generation returns a text of the model or raises. -/
theorem wp_generateWithin {job : DeferredJob} {history : List ConversationTurn}
    {deadlineAt : ℚ} {Q : Except PyException LLMReply → World → Prop}
    (hok : ∀ t, T t → Q (.ok (prepareLlmReply t)) w)
    (herr : ∀ e, Q (.error e) w) (last : Option PyException)
    (steps : List ℕ) :
    (generateWithin job history deadlineAt last steps).wp (execCall cfg)
      (permits reliable T) Q w := by
  induction steps generalizing last with
  | nil => cases last <;> exact herr _
  | cons maxOutputTokens steps ih =>
      unfold generateWithin
      simp only [bind_eq, wp_bind, wp_monotonic, reliable_some, Call.mayRaise]
      refine ⟨fun _ now => ?_, by simp⟩
      split
      · cases last <;> exact herr _
      · simp only [wp_bind, wp_attempt, wp_generateReply]
        refine ⟨fun _ => hok, fun e _ => ?_⟩
        split
        · exact herr e
        · exact ih (some e)

theorem wp_generateDeferredReply {job : DeferredJob}
    {history : List ConversationTurn} {deadlineSeconds : ℚ}
    {Q : Except PyException LLMReply → World → Prop}
    (hok : ∀ t, T t → Q (.ok (prepareLlmReply t)) w)
    (herr : ∀ e, Q (.error e) w) :
    (generateDeferredReply job history deadlineSeconds).wp (execCall cfg)
      (permits reliable T) Q w := by
  simp only [generateDeferredReply, bind_eq, wp_bind, wp_monotonic,
    reliable_some, Call.mayRaise]
  exact ⟨fun _ now => wp_generateWithin hok herr _ _, by simp⟩

/-- The world after a job has been answered. -/
def answered (cfg : Settings) (job : DeferredJob) (reply : LLMReply)
    (w : World) : World :=
  (w.addTurns cfg job.conversationKey job.userText reply.rawText).setPending
    job.conversationKey (some (publishedRecord job.jobId reply))

theorem wp_processDeferredJob_skipped {job : DeferredJob} {deadlineSeconds : ℚ}
    {Q : Except PyException LLMReply → World → Prop}
    (h : isProcessingFor (w.pending job.conversationKey) job.jobId = false) :
    (processDeferredJob job deadlineSeconds).wp (execCall cfg)
      (permits reliable T) Q w ↔ Q (.ok skippedReply) w := by
  simp [processDeferredJob, h, Call.mayRaise]

theorem wp_processDeferredJob {job : DeferredJob} {deadlineSeconds : ℚ}
    {Q : Except PyException LLMReply → World → Prop}
    (h : isProcessingFor (w.pending job.conversationKey) job.jobId = true)
    (hok : ∀ t, T t →
      Q (.ok (prepareLlmReply t)) (answered cfg job (prepareLlmReply t) w))
    (herr : ∀ e, Q (.error e) w) :
    (processDeferredJob job deadlineSeconds).wp (execCall cfg)
      (permits reliable T) Q w := by
  have hown : replacedBy (w.pending job.conversationKey) job.jobId = false := by
    cases hp : w.pending job.conversationKey with
    | none => rfl
    | some r =>
        simp only [hp, isProcessingFor, decide_eq_true_eq] at h
        simp [replacedBy, h.1]
  simp only [processDeferredJob, bind_eq, wp_bind, wp_getPending, h, if_true,
    wp_getHistory, reliable_some, Call.mayRaise]
  refine ⟨fun _ => ⟨fun _ => ?_, by simp⟩, by simp⟩
  refine wp_generateDeferredReply (fun t ht => ?_) herr
  have hpublish : (w.addTurns cfg job.conversationKey job.userText
      (prepareLlmReply t).rawText).publish job.conversationKey job.jobId
        (publishedRecord job.jobId (prepareLlmReply t)) =
      answered cfg job (prepareLlmReply t) w := by
    simp [World.publish, hown, answered]
  have := hok t ht
  rw [← hpublish] at this
  simpa [Call.mayRaise, World.addTurns, hown, publishedRecord] using this

/-- The world after the entry of a job has been dealt with. -/
def settled (job : DeferredJob) (w : World) : World :=
  match job.streamId with
  | some streamId => w.acknowledge streamId
  | none => w

@[simp] theorem settled_pending (job : DeferredJob) (w : World) :
    (settled job w).pending = w.pending := by
  rw [settled]
  cases job.streamId <;> rfl

theorem wp_workJob_skipped {job : DeferredJob}
    {Q : Except PyException Unit → World → Prop}
    (h : isProcessingFor (w.pending job.conversationKey) job.jobId = false) :
    (workJob cfg job).wp (execCall cfg) (permits reliable T) Q w ↔
      Q (.ok ()) (settled job w) := by
  cases hs : job.streamId <;>
    simp [workJob, processJob, wp_processDeferredJob_skipped h, settled, hs,
      Call.mayRaise]

/-- Everything one execution of a job can do, up to the acknowledgement. -/
inductive Worked (cfg : Settings) (T : Str → Prop) (job : DeferredJob)
    (w : World) : World → Prop where
  | skipped
      (h : isProcessingFor (w.pending job.conversationKey) job.jobId = false) :
      Worked cfg T job w w
  | finished
      (h : isProcessingFor (w.pending job.conversationKey) job.jobId = true)
      (t : Str) (ht : T t) :
      Worked cfg T job w (answered cfg job (prepareLlmReply t) w)
  | failed
      (h : isProcessingFor (w.pending job.conversationKey) job.jobId = true) :
      Worked cfg T job w
        (w.setPending job.conversationKey (some (failureRecord job.jobId)))

theorem wp_workJob {job : DeferredJob}
    {Q : Except PyException Unit → World → Prop}
    (hQ : ∀ w', Worked cfg T job w w' → Q (.ok ()) (settled job w')) :
    (workJob cfg job).wp (execCall cfg) (permits reliable T) Q w := by
  cases h : isProcessingFor (w.pending job.conversationKey) job.jobId with
  | false =>
      rw [wp_workJob_skipped h]
      exact hQ _ (.skipped h)
  | true =>
      obtain ⟨r, hr, hid, -⟩ := record_of_isProcessingFor h
      simp only [workJob, processJob, bind_eq, wp_bind, wp_attempt]
      refine wp_processDeferredJob h (fun t ht => ?_) (fun e => ?_)
      · have hfinished := hQ _ (.finished h t ht)
        cases hs : job.streamId <;>
          simpa [settled, hs, Call.mayRaise] using hfinished
      · have hfailed := hQ _ (.failed h)
        rw [failureRecord] at hfailed
        cases hs : job.streamId <;>
          simpa [settled, hs, failDeferredJob, World.publish, replacedBy, hr,
            hid, Call.mayRaise] using hfailed

end ConversationService

end AliceSkill
