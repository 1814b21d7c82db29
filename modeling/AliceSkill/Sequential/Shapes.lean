import AliceSkill.Services.Calls
import AliceSkill.Sequential.Holdings

/-!
# The shapes of records under expiry

`handle`, `process_deferred_job` and `fail_deferred_job` are executed one after
another, at the level of single Redis commands, and any key may expire before
any command.  Between two operations every record has one of the shapes of
`PendingReply.Coherent`; inside an operation the record of its conversation may
have another one.
-/

namespace AliceSkill

open Text Effects Program RedisPendingReplyStore ConversationService

/-! ## Operations -/

/-- The whole operations on the records. -/
inductive RecordOperation where
  | handle (payload : AliceWebhookRequest)
  | processDeferredJob (job : DeferredJob) (deadlineSeconds : ℚ)
  | failDeferredJob (job : DeferredJob) (errorMessage : Str)

namespace RecordOperation

def conversationKey : RecordOperation → Str
  | handle payload => payload.conversationKey
  | processDeferredJob job _ => job.conversationKey
  | failDeferredJob job _ => job.conversationKey

def body (cfg : Settings) : RecordOperation → Service Unit
  | handle payload => do
      let _ ← ConversationService.handle cfg payload
      return ()
  | processDeferredJob job deadlineSeconds => do
      let _ ← ConversationService.processDeferredJob job deadlineSeconds
      return ()
  | failDeferredJob job errorMessage =>
      ConversationService.failDeferredJob job errorMessage

end RecordOperation

/-- Worlds between two operations of a sequential run; keys may expire before
every command and between operations. -/
inductive Between (cfg : Settings) : World → Prop where
  | empty : Between cfg World.empty
  | operate (op : RecordOperation) {w w' : World} {r : Except PyException Unit}
      (hw : Between cfg w)
      (hr : ((op.body cfg).interp implement).Outcome
        ((execCommand cfg).disturbed fun e w => w.expire e)
        (fun a c => recordsWork a.2 c) w r w') : Between cfg w'
  | expire (e : Expiry) {w : World} (hw : Between cfg w) :
      Between cfg (w.expire e)

/-! ## Shapes -/

/-- The shape of a record, by its status and its fields. -/
structure PendingReply.WellShaped (r : PendingReply) : Prop where
  processing : r.status = .processing → r.replyText = none ∧
    r.replyTts = none ∧ r.tailText = none ∧ r.continuationRequest = none ∧
    r.errorMessage = none ∧ r.followupMode = .none
  failed : r.status = .failed → r.errorMessage ≠ none ∧ r.replyText = none ∧
    r.replyTts = none ∧ r.tailText = none ∧ r.continuationRequest = none ∧
    r.followupMode = .none
  spoken : r.status = .ready ∨ r.status = .delivered →
    r.errorMessage = none ∧ r.replyText = r.replyTts ∧ r.replyText ≠ none
  offers : r.continuationRequest ≠ none ↔ r.followupMode = .deferredOffer
  request : ∀ c, r.continuationRequest = some c → c ≠ [] ∧ r.tailText = none
  tail : ∀ t, r.tailText = some t →
    t ≠ [] ∧ r.status = .ready ∧ r.followupMode = .readyTail
  delivered : r.status = .delivered → r.followupMode = .deferredOffer

theorem PendingReply.Coherent.wellShaped {S : Str → Prop} {r : PendingReply}
    (h : r.Coherent S) : r.WellShaped := by
  cases h with
  | processing j => constructor <;> simp [processingRecord]
  | failed j m => constructor <;> simp [failedRecord]
  | plain j t ht => constructor <;> simp [readyRecord]
  | withTail j t tail ht htail =>
      constructor <;> simp [readyRecord, htail]
  | lastTail j t ht => constructor <;> simp [readyRecord]
  | offer j t c ht hc => constructor <;> simp [readyRecord, hc]
  | openOffer j t c hc =>
      constructor <;> simp [deliveredRecord, readyRecord, hc]

/-! ## The operations keep to the protocol -/

section Follows

open Ports

variable {cfg : Settings} {key : Str} {q : Holding} {r : PendingReply}
variable {payload : AliceWebhookRequest} {α β : Type}

/-- Calls on the other ports. -/
def Call.IsPort : Call → Prop
  | .port _ => True
  | .pending _ => False

theorem isPort_of_records {c : Call} (h : c.Records) : c.IsPort := by
  cases c with
  | pending c => exact h
  | port c => trivial

theorem isPort_of_analytics {c : Call} (h : c.analytics = true) : c.IsPort := by
  cases c with
  | pending c => cases h
  | port c => trivial

theorem stays_port : Stays (holdings key) Call.IsPort q := by
  intro op hop
  cases op with
  | pending c => exact hop.elim
  | port c => exact ⟨trivial, fun x => rfl⟩

theorem settled_gone : Holding.gone.Settled := fun _ h => h.elim

theorem settled_last (hr : r.Coherent anyText) : (Holding.last r).Settled := by
  intro r' h
  have heq : r' = r := h
  rwa [heq]

theorem settled_unread : Holding.unread.Settled := fun _ h => h

/-- A call on a method of the store. -/
theorem follows_pending_bind {c : PendingCall} {f : c.Res → Service β}
    {R : Except PyException β → Holding → Prop}
    (hmay : Holding.May key q (.pending c))
    (h : ∀ x, Holding.Possible (.pending c) x → ∃ v, x = .ok v ∧
      (f v).Follows (holdings key) (q.next (.pending c) x) R) :
    ((ask (.pending c)).bind f).Follows (holdings key) q R := by
  rw [follows_bind, ask, follows_perform]
  refine ⟨hmay, fun x hx => ?_⟩
  obtain ⟨v, rfl, hv⟩ := h x hx
  exact hv

theorem follows_getPending_bind {f : Option PendingReply → Service β}
    {R : Except PyException β → Holding → Prop}
    (hnone : (f none).Follows (holdings key) .gone R)
    (hsome : ∀ r, r.Coherent anyText →
      (f (some r)).Follows (holdings key) (.last r) R) :
    ((Ports.getPending key).bind f).Follows (holdings key) .unread R := by
  refine follows_pending_bind (c := .getPending key) ⟨rfl, rfl⟩ ?_
  rintro x ⟨found, rfl, hfound⟩
  refine ⟨found, rfl, ?_⟩
  cases found with
  | none => exact hnone
  | some r => exact hsome r (hfound r rfl)

theorem follows_clearPending_bind {j : JobId} {f : Unit → Service β}
    {R : Except PyException β → Holding → Prop} (hown : q.Owned j)
    (hf : (f ()).Follows (holdings key) .gone R) :
    ((Ports.clearPending key (some j)).bind f).Follows (holdings key) q R := by
  refine follows_pending_bind (c := .clearPending key (some j))
    ⟨rfl, j, rfl, hown⟩ ?_
  rintro x ⟨v, rfl⟩
  exact ⟨v, rfl, hf⟩

theorem follows_markDelivered_bind {j : JobId} {f : Unit → Service β}
    {R : Except PyException β → Holding → Prop} (hown : q.Owned j)
    (hf : (f ()).Follows (holdings key) (q.delivered j) R) :
    ((Ports.markDelivered key j).bind f).Follows (holdings key) q R := by
  refine follows_pending_bind (c := .markDelivered key j) ⟨rfl, hown⟩ ?_
  rintro x ⟨v, rfl⟩
  exact ⟨v, rfl, hf⟩

theorem follows_markReady_bind {j : JobId} {replyText replyTts : Str}
    {tailText : Option Str} {mode : FollowupMode} {request : Option Str}
    {f : Option PendingReply → Service β}
    {R : Except PyException β → Holding → Prop} (hown : q.Owned j)
    (hf : ∀ updated, (f (some updated)).Follows (holdings key)
      (.last (readyRecord j replyText replyTts tailText mode request)) R) :
    ((Ports.markReady key j replyText replyTts tailText mode
      request).bind f).Follows (holdings key) q R := by
  refine follows_pending_bind (c := .markReady key j replyText replyTts tailText
    mode request) ⟨rfl, hown⟩ ?_
  rintro x ⟨updated, rfl⟩
  exact ⟨some updated, rfl, hf updated⟩

theorem follows_startPending_bind {job : DeferredJob}
    {f : PendingReply → Service β} {R : Except PyException β → Holding → Prop}
    (hf : ∀ r, (f r).Follows (holdings key)
      (.last (processingRecord job.jobId)) R) :
    ((Ports.startPending key job).bind f).Follows (holdings key) .gone R := by
  refine follows_pending_bind (c := .startPending key job) ⟨rfl, rfl⟩ ?_
  rintro x ⟨r, rfl⟩
  exact ⟨r, rfl, hf r⟩

/-- A part that does not touch records, before the rest. -/
theorem follows_port_bind {p : Service α} {f : α → Service β}
    (hp : p.Only Call.IsPort) (hq : q.Settled)
    (hf : ∀ a, (f a).Follows (holdings key) q fun _ q' => q'.Settled) :
    (p.bind f).Follows (holdings key) q fun _ q' => q'.Settled :=
  follows_stays_bind stays_port hp hf fun _ => hq

/-- A part that ends settled, before a rest that keeps it so. -/
theorem settled_bind {p : Service α} {f : α → Service β}
    (hp : p.Follows (holdings key) q fun _ q' => q'.Settled)
    (hf : ∀ a q', Holding.Settled q' →
      (f a).Follows (holdings key) q' fun _ q' => q'.Settled) :
    (p.bind f).Follows (holdings key) q fun _ q' => q'.Settled := by
  rw [follows_bind]
  refine hp.mono fun r q' hq' => ?_
  cases r with
  | error e => exact hq'
  | ok a => exact hf a q' hq'

theorem settled_storeAndReturn {response : AliceWebhookResponse}
    (hq : q.Settled) : (storeAndReturn payload response).Follows (holdings key)
      q fun _ q' => q'.Settled :=
  follows_port_bind (only_ask trivial) hq fun _ => hq

theorem settled_enqueueOrClear {job : DeferredJob} :
    (enqueueOrClear key job).Follows (holdings key)
      (.last (processingRecord job.jobId)) fun _ q' => q'.Settled := by
  have hstarted := settled_last (.processing (S := anyText) job.jobId)
  simp only [enqueueOrClear, bind_eq]
  refine follows_port_bind (Only.attempt (only_ask trivial)) hstarted
    fun outcome => ?_
  cases outcome with
  | ok v => exact hstarted
  | error e => exact follows_clearPending_bind rfl settled_gone

theorem settled_deferRequest {u : Str} :
    (deferRequest payload key u).Follows (holdings key) .gone
      fun _ q' => q'.Settled := by
  simp only [deferRequest, bind_eq]
  refine follows_port_bind (only_ask trivial) settled_gone fun jobId => ?_
  refine follows_startPending_bind fun r => ?_
  split
  · exact settled_bind settled_enqueueOrClear fun _ _ hq => hq
  · exact settled_last (.processing jobId)

theorem settled_storeImmediateFollowup {reply : LLMReply}
    (hreply : reply.Coherent) :
    (storeImmediateFollowup key reply).Follows (holdings key) .gone
      fun _ q' => q'.Settled := by
  cases hreply with
  | plain shortText rawText => exact settled_gone
  | withTail shortText rawText tail hshort htail =>
      obtain ⟨c, cs, rfl⟩ := List.exists_cons_of_ne_nil htail
      refine follows_port_bind (only_ask trivial) settled_gone fun jobId => ?_
      refine follows_markReady_bind trivial fun updated => ?_
      exact settled_last (.lastTail jobId _ htail)
  | offer shortText rawText request hrequest =>
      refine follows_port_bind (only_ask trivial) settled_gone fun jobId => ?_
      refine follows_markReady_bind trivial fun updated => ?_
      rw [Ports.markDelivered, ask, follows_perform]
      refine ⟨⟨rfl, rfl⟩, fun x _ => ?_⟩
      exact settled_last (.openOffer jobId _ _ hrequest)

/-- A record whose text has been spoken and that has nothing more is cleared. -/
theorem settled_last_text {response : AliceWebhookResponse} {j : JobId}
    (hj : r.jobId = j) :
    ((Ports.markDelivered key j).bind fun _ =>
      (Ports.clearPending key (some j)).bind fun _ =>
        .ret response : Service AliceWebhookResponse).Follows
      (holdings key) (.last r) fun _ q' => q'.Settled := by
  refine follows_markDelivered_bind hj ?_
  exact follows_clearPending_bind rfl settled_gone

theorem settled_deliver (hr : r.Coherent anyText)
    (hstatus : r.status = .ready ∨ r.status = .delivered)
    (hoffer : isOpenOffer r = false) (t : Str) :
    (deliver payload key r t).Follows (holdings key) (.last r)
      fun _ q' => q'.Settled := by
  cases hr with
  | processing j => simp [processingRecord] at hstatus
  | failed j m => simp [failedRecord] at hstatus
  | plain j text ht => exact settled_last_text rfl
  | lastTail j text ht => exact settled_last_text rfl
  | withTail j text tail ht htail =>
      obtain ⟨c, cs, rfl⟩ := List.exists_cons_of_ne_nil htail
      refine follows_markDelivered_bind rfl ?_
      refine follows_markReady_bind rfl fun updated => ?_
      exact settled_last (.lastTail j _ htail)
  | offer j text request ht hrequest =>
      obtain ⟨c, cs, rfl⟩ := List.exists_cons_of_ne_nil hrequest
      refine follows_markDelivered_bind rfl ?_
      exact settled_last (.openOffer j text _ hrequest)
  | openOffer j text request hrequest =>
      simp [isOpenOffer, deliveredRecord, readyRecord, hrequest] at hoffer

theorem settled_handleContinue (hr : r.Coherent anyText) :
    (handleContinue payload key (some r)).Follows (holdings key) (.last r)
      fun _ q' => q'.Settled := by
  simp only [handleContinue, bind_eq]
  split_ifs with hprocessing hfailed hopen htext
  · exact settled_last hr
  · exact follows_clearPending_bind rfl settled_gone
  · exact follows_clearPending_bind rfl settled_deferRequest
  · refine settled_deliver hr ?_ (by simpa using hopen) _
    cases hstatus : r.status <;> simp_all
  · exact settled_last hr

theorem settled_answerQuestion {u : Str} :
    (answerQuestion cfg payload key u).Follows (holdings key) .gone
      fun _ q' => q'.Settled := by
  simp only [answerQuestion, bind_eq]
  refine follows_port_bind (only_ask trivial) settled_gone fun history => ?_
  rw [follows_bind, follows_attempt, Ports.generateReply, ask, follows_perform]
  refine ⟨trivial, fun x hx => ?_⟩
  cases x with
  | error e =>
      exact settled_bind settled_deferRequest fun response q' hq' =>
        settled_storeAndReturn hq'
  | ok reply =>
      refine follows_port_bind ?_ settled_gone fun _ => ?_
      · exact Only.mono (only_recordCompletedTurns _ _) fun _ =>
          isPort_of_records
      refine settled_bind ?_ fun _ q' hq' => settled_storeAndReturn hq'
      exact settled_storeImmediateFollowup (hx reply rfl)

/-- A record of the past is cleared before a new question. -/
theorem settled_handleActivePending {u : Str} (hr : r.Coherent anyText) :
    ((handleActivePending payload key r).bind fun blocking =>
      match blocking with
      | some response => storeAndReturn payload response
      | none => answerQuestion cfg payload key u).Follows (holdings key)
        (.last r) fun _ q' => q'.Settled := by
  rw [handleActivePending]
  cases r.status with
  | processing => exact settled_storeAndReturn (settled_last hr)
  | ready => exact settled_storeAndReturn (settled_last hr)
  | failed =>
      rw [bind_eq, Program.bind_assoc]
      exact follows_clearPending_bind rfl settled_answerQuestion
  | delivered =>
      rw [bind_eq, Program.bind_assoc]
      exact follows_clearPending_bind rfl settled_answerQuestion

theorem settled_handle (cfg : Settings) (payload : AliceWebhookRequest) :
    (handle cfg payload).Follows (holdings payload.conversationKey) .unread
      fun _ q' => q'.Settled := by
  refine follows_port_bind (only_ask trivial) settled_unread fun cached => ?_
  rcases cached with _ | response | _
  · rw [handleUncached]
    generalize sanitizeUserText payload.utterance = u
    refine follows_getPending_bind ?_ fun r hr => ?_
    · by_cases hempty : u = []
      · rw [if_pos hempty]
        exact settled_storeAndReturn settled_gone
      rw [if_neg hempty]
      generalize isContinueIntent cfg.unicode u
        (none : Option PendingReply).isSome = continues
      cases continues with
      | true => exact settled_storeAndReturn settled_gone
      | false => exact settled_answerQuestion
    · by_cases hempty : u = []
      · rw [if_pos hempty]
        exact settled_storeAndReturn (settled_last hr)
      rw [if_neg hempty]
      generalize isContinueIntent cfg.unicode u (some r).isSome = continues
      cases continues with
      | true =>
          exact settled_bind (settled_handleContinue hr) fun response q' hq' =>
            settled_storeAndReturn hq'
      | false => exact settled_handleActivePending hr
  · exact settled_unread
  · exact settled_unread

/-- The deferred generation returns a coherent reply or raises. -/
theorem holdings_generating : Generating (holdings key) q
    fun x q' => q' = q ∧ ∀ reply, x = .ok reply → reply.Coherent where
  clock := by
    rintro op rfl
    exact ⟨trivial, fun _ => rfl⟩
  asks := fun _ _ _ _ _ => trivial
  answers := fun _ _ _ _ _ _ hreply => ⟨rfl, hreply⟩
  fails := fun _ _ _ _ _ _ => rfl
  raises := fun e => ⟨rfl, by simp⟩

theorem settled_processDeferredJob (job : DeferredJob) (deadlineSeconds : ℚ) :
    (processDeferredJob job deadlineSeconds).Follows
      (holdings job.conversationKey) .unread fun _ q' => q'.Settled := by
  simp only [processDeferredJob, bind_eq]
  refine follows_getPending_bind settled_gone fun r hr => ?_
  split
  · next hprocessing =>
    have hj : r.jobId = job.jobId := by
      simp only [isProcessingFor, decide_eq_true_eq] at hprocessing
      exact hprocessing.1
    refine follows_port_bind (only_ask trivial) (settled_last hr)
      fun history => ?_
    rw [follows_bind]
    refine (holdings_generating.generateDeferredReply job history _).mono ?_
    rintro x q' ⟨rfl, hreply⟩
    cases x with
    | error e => exact settled_last hr
    | ok reply =>
        refine follows_port_bind ?_ (settled_last hr) fun _ => ?_
        · exact Only.mono (only_appendTurns _ _) fun _ h =>
            isPort_of_records (records_of_appends h)
        refine follows_markReady_bind hj fun updated => ?_
        have hpublished := settled_last
          (publishedRecord_coherent (j := job.jobId) (S := anyText)
            (hreply reply rfl) trivial)
        rw [if_neg (by simp)]
        refine follows_port_bind ?_ hpublished fun _ => hpublished
        exact Only.mono (only_persistAnalytics _ _ _ _) fun _ =>
          isPort_of_analytics
  · exact settled_last hr

theorem settled_failDeferredJob (job : DeferredJob) (m : Str) :
    (failDeferredJob job m).Follows (holdings job.conversationKey) .unread
      fun _ q' => q'.Settled := by
  simp only [failDeferredJob, bind_eq]
  refine follows_pending_bind (c := .markFailed job.conversationKey job.jobId m)
    ⟨rfl, rfl⟩ ?_
  rintro x ⟨v, rfl⟩
  refine ⟨v, rfl, ?_⟩
  refine ((Only.mono (only_persistAnalytics _ _ _ _) fun _ =>
    isPort_of_analytics).follows stays_port).mono ?_
  rintro x q' rfl
  exact settled_unread

end Follows

/-! ## Runs -/

section Runs

variable {cfg : Settings} {w w' : World}

/-- Every operation ends with its record in a known shape. -/
theorem RecordOperation.settled (cfg : Settings) (op : RecordOperation) :
    (op.body cfg).Follows (holdings op.conversationKey) .unread
      fun _ q' => q'.Settled := by
  cases op with
  | handle payload =>
      exact settled_bind (settled_handle cfg payload) fun _ _ hq' => hq'
  | processDeferredJob job deadlineSeconds =>
      exact settled_bind (settled_processDeferredJob job deadlineSeconds)
        fun _ _ hq' => hq'
  | failDeferredJob job errorMessage =>
      exact settled_failDeferredJob job errorMessage

theorem knows_unread {key : Str} :
    Knows key .unread w ↔ w.Coherent anyText := by
  refine forall_congr' fun k => forall_congr' fun r => imp_congr_right fun _ => ?_
  split
  · rfl
  · rfl

/-- One operation, with keys expiring under it. -/
theorem RecordOperation.coherent (op : RecordOperation) {r : Except PyException Unit}
    (hw : w.Coherent anyText)
    (hr : ((op.body cfg).interp implement).Outcome
      ((execCommand cfg).disturbed fun e w => w.expire e)
      (fun a c => recordsWork a.2 c) w r w') : w'.Coherent anyText := by
  have hstart : Knows op.conversationKey .unread w := knows_unread.mpr hw
  have hend := hr.wp ((op.settled cfg).wp_interp
    (fun q c w hmay hknows => wp_implement hmay hknows) hstart)
  obtain ⟨q, hsettled, hknows⟩ := hend
  intro k r hk
  have hadmits := hknows k r hk
  split at hadmits
  · exact hsettled r hadmits
  · exact hadmits

theorem Between.coherent (hw : Between cfg w) : w.Coherent anyText := by
  induction hw with
  | empty => exact fun key r h => by simp [World.empty] at h
  | operate op hw hr ih => exact op.coherent ih hr
  | @expire e w hw ih =>
      have hknows : Knows [] .unread (w.expire e) :=
        stable_knows e _ (knows_unread.mpr ih)
      exact knows_unread.mp hknows

/-- Between two operations every record is well shaped. -/
theorem records_well_shaped (hw : Between cfg w) {key : Str} {r : PendingReply}
    (hr : w.pending key = some r) : r.WellShaped :=
  (hw.coherent key r hr).wellShaped

end Runs

/-- A question that is answered with an offer, and an expiry before every
command. -/
def offeringRun : Except PyException Unit × World :=
  (((RecordOperation.handle (utter 1 "что такое кит")).body .default).interp
    implement).run
      ((execCommand .default).disturbed fun (e : Expiry) w => w.expire e)
      (fun _ _ => ([.history []],
        .replies "Кит. [[FOLLOWUP_REQUEST: где он живет]]".toList)) World.empty

theorem offer_well_shaped :
    ∃ w r, Between .default w ∧ r.status = .delivered ∧
      w.pending (utter 1 "что такое кит").conversationKey = some r ∧
      r.WellShaped := by
  have hbetween : Between .default offeringRun.2 :=
    Between.operate _ .empty (outcome_run fun _ op => by cases op <;> trivial)
  have hrecord : offeringRun.2.pending
      (utter 1 "что такое кит").conversationKey =
        some (deliveredRecord 0 (readyRecord 0 "Кит.".toList "Кит.".toList none
          .deferredOffer (some "где он живет".toList))) := by
    decide +kernel
  exact ⟨_, _, hbetween, rfl, hrecord, records_well_shaped hbetween hrecord⟩

end AliceSkill
