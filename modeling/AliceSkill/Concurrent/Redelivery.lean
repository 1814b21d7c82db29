import Mathlib.Data.Nat.Find
import AliceSkill.Concurrent.Changes
import AliceSkill.Concurrent.Exchanges
import AliceSkill.Concurrent.Ownership

/-!
# Redelivered jobs

The stream may hand out a job again and again.  As long as its executions do
not overlap, only the first one finds the record of the job in progress: a
record in progress is stored once, under an id nobody has used before, and the
first execution replaces it.
-/

namespace AliceSkill

open Text Effects Program Machine RedisPendingReplyStore ConversationService

/-! ## Executions of a job -/

/-- Calls of the pending store do not fail; everything else may. -/
def pendingStoreWorks (a : Answer) : Call → Prop
  | .pending _ => a.fault = none
  | .port _ => True

instance (a : Answer) : (c : Call) → Decidable (pendingStoreWorks a c)
  | .pending _ => inferInstanceAs (Decidable (a.fault = none))
  | .port _ => .isTrue trivial

/-- The thread executes the job. -/
def Executes (s : StoreState) (t : ℕ) (job : DeferredJob) : Prop :=
  ∃ sid, s.threads[t]?.map Thread.label = some (.work sid job)

/-- The thread has nothing left to do but to acknowledge its entry. -/
def Concluded (s : StoreState) (t : ℕ) : Prop :=
  ∀ op, s.next t = some op → ∃ i, op = .port (.ack i)

/-- An execution of a job starts only after all its earlier executions. -/
def NoOverlap (s : StoreState) (act : Schedule) : Prop :=
  ∀ sid job, act = .spawn (.work sid job) →
    ∀ t job', Executes s t job' → job'.jobId = job.jobId → Concluded s t

/-- Another execution of the job was started before the thread. -/
def Later (s : StoreState) (t : ℕ) (j : JobId) : Prop :=
  ∃ t' job, t' < t ∧ Executes s t' job ∧ job.jobId = j

/-- The call only reads the record of the job, or acknowledges its entry. -/
def OnlyReads (job : DeferredJob) (op : Call) : Prop :=
  op = .pending (.getPending job.conversationKey) ∨
  ∃ i, job.streamId = some i ∧ op = .port (.ack i)

/-- No record of the job is in progress. -/
def NotInProgress (w : World) (j : JobId) : Prop :=
  ∀ key, ¬w.InProgress key j

/-! ## The protocol of an execution -/

/-- How far a worker execution has come; requests are not restricted. -/
inductive Execution where
  | request
  | fresh (job : DeferredJob)
  | running (job : DeferredJob)
  | skipping (job : DeferredJob)
  | finished (job : DeferredJob)

namespace Execution

def May : Execution → Call → Prop
  | request, _ => True
  | fresh job, op => op = .pending (.getPending job.conversationKey)
  | running job, .pending (.markReady key j ..) =>
      key = job.conversationKey ∧ j = job.jobId
  | running job, .pending (.markFailed key j _) =>
      key = job.conversationKey ∧ j = job.jobId
  | running _, .pending _ => False
  | running _, .port (.ack _) => False
  | running _, _ => True
  | skipping job, op => ∃ i, job.streamId = some i ∧ op = .port (.ack i)
  | finished _, op => op.analytics = true ∨ ∃ i, op = .port (.ack i)

/-- The pending store does not fail. -/
def Possible : (op : Call) → Except PyException op.Res → Prop
  | .pending _, .error _ => False
  | _, _ => True

def next (q : Execution) (op : Call) (x : Except PyException op.Res) :
    Execution :=
  match q, op, x with
  | fresh job, .pending (.getPending _), .ok r =>
      if isProcessingFor r job.jobId then running job else skipping job
  | running job, .pending _, _ => finished job
  | q, _, _ => q

/-- The execution has nothing left to do but to record and acknowledge. -/
def Ended : Execution → Prop
  | skipping _ => True
  | finished _ => True
  | request => True
  | _ => False

end Execution

def executions : Protocol CallSig PyException Execution where
  may := Execution.May
  possible _ := Execution.Possible
  next := Execution.next

/-- The phase in which a task starts. -/
def Task.execution : Task → Execution
  | request _ => .request
  | work _ job => .fresh job

section Parts

variable {job : DeferredJob}

/-- The calls of a running execution before its outcome is written. -/
def Call.Prepares : Call → Prop
  | .port (.ack _) => False
  | .port _ => True
  | .pending _ => False

theorem stays_running : Stays executions Call.Prepares (.running job) := by
  intro op hop
  rcases op with c | c
  · exact hop.elim
  · rcases c <;> first | exact ⟨trivial, fun _ => rfl⟩ | exact hop.elim

theorem stays_finished :
    Stays executions (fun c => c.analytics = true) (.finished job) := by
  intro op hop
  refine ⟨Or.inl hop, fun x => ?_⟩
  rcases op with c | c
  · cases hop
  · rcases c <;> rfl

theorem prepares_of_generates {c : Call} (h : c.Generates) : c.Prepares := by
  rcases c with c | c
  · exact h.elim
  · rcases c <;> trivial

theorem prepares_of_appends {c : Call} (h : c.Appends) : c.Prepares := by
  rcases c with c | c
  · exact h.elim
  · rcases c <;> trivial

/-- Where `process_deferred_job` leaves an execution. -/
def Processed (job : DeferredJob) :
    Except PyException LLMReply → Execution → Prop
  | .ok _, q => q = .skipping job ∨ q = .finished job
  | .error _, q => q = .running job

theorem execution_processDeferredJob (deadlineSeconds : ℚ) :
    (processDeferredJob job deadlineSeconds).Follows executions (.fresh job)
      (Processed job) := by
  simp only [processDeferredJob, bind_eq]
  rw [follows_bind, Ports.getPending, Ports.ask, follows_perform]
  refine ⟨rfl, fun x hx => ?_⟩
  rcases x with e | current
  · exact hx.elim
  show (if _ then _ else _ : Service LLMReply).Follows executions
    (if isProcessingFor current job.jobId then .running job else .skipping job) _
  split
  · refine follows_stays_bind stays_running (only_ask trivial)
      (fun history => ?_) fun _ => rfl
    refine follows_stays_bind stays_running ?_ (fun reply => ?_) fun _ => rfl
    · exact Only.mono (only_generateDeferredReply _ _) fun _ =>
        prepares_of_generates
    refine follows_stays_bind stays_running ?_ (fun _ => ?_) fun _ => rfl
    · exact Only.mono (only_appendTurns _ _) fun _ => prepares_of_appends
    rw [follows_bind, Ports.markReady, Ports.ask, follows_perform]
    refine ⟨⟨rfl, rfl⟩, fun x hx => ?_⟩
    rcases x with e | updated
    · exact hx.elim
    simp only
    split
    · exact Or.inr rfl
    · rw [follows_bind]
      refine (follows_persistAnalytics_of stays_finished).mono ?_
      rintro r q ⟨rfl, rfl⟩
      exact Or.inr rfl
  · exact Or.inl rfl

theorem execution_ack {q : Execution}
    (hq : q = .skipping job ∨ q = .finished job) (shouldAck : Bool) :
    (match shouldAck, job.streamId with
      | true, some streamId => do
          let _ ← (Ports.ack streamId).attempt
          return ()
      | _, _ => return () : Service Unit).Follows executions q
        fun _ q => q.Ended := by
  have hended : q.Ended := by
    rcases hq with rfl | rfl <;> trivial
  split
  · next streamId hstream =>
    rw [bind_eq, follows_bind, follows_attempt, Ports.ack, Ports.ask,
      follows_perform]
    refine ⟨?_, fun x _ => ?_⟩
    · rcases hq with rfl | rfl
      · exact ⟨streamId, hstream, rfl⟩
      · exact Or.inr ⟨streamId, rfl⟩
    · rcases hq with rfl | rfl <;> exact hended
  · exact hended

theorem execution_workJob (cfg : Settings) (job : DeferredJob) :
    (workJob cfg job).Follows executions (.fresh job) fun _ q => q.Ended := by
  rw [workJob, bind_eq, processJob, bind_eq, Program.bind_assoc, follows_bind,
    follows_attempt]
  refine (execution_processDeferredJob _).mono fun outcome q hq => ?_
  rcases outcome with e | reply
  · obtain rfl : q = .running job := hq
    simp only [failDeferredJob, bind_eq, follows_bind, follows_attempt]
    rw [Ports.markFailed, Ports.ask, follows_perform]
    refine ⟨⟨rfl, rfl⟩, fun x hx => ?_⟩
    rcases x with e | _
    · exact hx.elim
    refine (follows_persistAnalytics_of stays_finished).mono ?_
    rintro r q ⟨rfl, rfl⟩
    exact execution_ack (Or.inr rfl) true
  · exact execution_ack hq true

theorem execution_body (cfg : Settings) (task : Task) :
    (task.body cfg).Follows executions task.execution
      fun _ q => q.Ended := by
  cases task with
  | request payload =>
      rw [Task.body, follows_bind]
      have hstays : Stays executions Call.Serves .request :=
        fun op _ => ⟨trivial, fun _ => rfl⟩
      refine ((only_handle cfg payload).follows hstays).mono fun r q hq => ?_
      subst hq
      rcases r with e | response <;> trivial
  | work sid job =>
      rw [Task.body, follows_bind]
      refine (execution_workJob cfg job).mono fun r q hq => ?_
      rcases r with e | _
      · exact hq
      · exact hq

end Parts

/-! ## Records in progress -/

section Records

variable {cfg : Settings} {a : Answer} {w : World} {op : Call} {key : Str}
variable {j : JobId} {log : List CallEvent} {ph : ℕ → Knowledge} {tid : ℕ}

/-- A record in progress is stored by `start_pending` only. -/
theorem inProgress_call (h : (execCall cfg a op w).2.InProgress key j) :
    w.InProgress key j ∨
      ∃ job, op = .pending (.startPending key job) ∧ job.jobId = j := by
  obtain ⟨r, hr, hstatus, hj⟩ := h
  rcases record_cases hr with hold | ⟨-, hstores⟩
  · exact Or.inl ⟨r, hold, hstatus, hj⟩
  · cases hstores with
    | started key job hfree => exact Or.inr ⟨job, rfl, hj⟩
    | published key j' replyText replyTts tailText mode request hown =>
        cases hstatus
    | failed key j' m hown => cases hstatus
    | delivered key r' hr' => cases hstatus

/-- A job id that has been used does not come into progress again. -/
theorem NotInProgress.call (h : NotInProgress w j)
    (htraced : Traced w log ph) (hmay : idUse.may (ph tid) op)
    (hused : Used log key j) :
    NotInProgress (execCall cfg a op w).2 j := by
  intro key' hprogress
  rcases inProgress_call hprogress with hold | ⟨job, rfl, rfl⟩
  · exact h key' hold
  · exact htraced.held_new hmay.2 hused

theorem NotInProgress.expire (h : NotInProgress w j) (e : Expiry) :
    NotInProgress (w.expire e) j := fun key hprogress =>
  h key ((calm_expire w e).progress hprogress)

/-- The records of a job are those of its conversation. -/
theorem notInProgress_of_key (htraced : Traced w log ph)
    (hused : Used log key j) (h : ¬w.InProgress key j) :
    NotInProgress w j := by
  rintro key' ⟨r, hr, hstatus, rfl⟩
  obtain rfl := htraced.used_key (htraced.record hr) hused
  exact h ⟨r, hr, hstatus, rfl⟩

/-- Writing the outcome of a job leaves no record of it in progress. -/
theorem not_inProgress_publish {r : PendingReply}
    (hr : r.status ≠ .processing) : ¬(w.publish key j r).InProgress key j := by
  rw [World.publish]
  split
  · next hreplaced => exact not_inProgress_of_replaced hreplaced
  · refine not_inProgress_setPending ?_
    rintro r' ⟨⟩
    exact hr

theorem isProcessingFor_iff {key : Str} :
    isProcessingFor (w.pending key) j = true ↔ w.InProgress key j := by
  rw [World.InProgress]
  rcases w.pending key with _ | r
  · simp [isProcessingFor]
  · simp [isProcessingFor, and_comm]

/-- The pending store answers. -/
theorem ok_of_pending {c : PendingCall} (hfault : a.fault = none) :
    ∃ v, (execCall cfg a (.pending c) w).1 = .ok v := by
  rcases hx : (execCall cfg a (.pending c) w).1 with e | v
  · rcases mayRaise_of_error (Or.inl hfault) hx with h | ⟨bucket, h⟩
    · cases h
    · cases h
  · exact ⟨v, rfl⟩

end Records

/-! ## Runs -/

section Runs

variable {cfg : Settings} {s : StoreState} {t tid : ℕ} {job : DeferredJob}
variable {j : JobId} {ph : ℕ → Execution} {task l : Task} {op : Call}
variable {a : Answer} {k : Except PyException op.Res →
  Service (Option AliceWebhookResponse)}

/-- What is known of an execution in phase `q`. -/
def Standing (s : StoreState) (t : ℕ) (job : DeferredJob) : Execution → Prop
  | .request => False
  | .fresh job' =>
      job' = job ∧ (Later s t job.jobId → NotInProgress s.world job.jobId)
  | .running job' => job' = job ∧ ¬Later s t job.jobId
  | .skipping job' => job' = job ∧ NotInProgress s.world job.jobId
  | .finished job' =>
      job' = job ∧ ¬Later s t job.jobId ∧ NotInProgress s.world job.jobId

/-- What is known of all executions. -/
structure Orderly (s : StoreState) (ph : ℕ → Execution) : Prop where
  used : ∀ {t job}, Executes s t job →
    Used s.log job.conversationKey job.jobId
  /-- Later executions have only read. -/
  quiet : ∀ {t job}, Executes s t job → Later s t job.jobId →
    ∀ e ∈ s.log, e.tid = t → OnlyReads job e.op
  standing : ∀ {t job}, Executes s t job → Standing s t job (ph t)

theorem executes_spawned (ht : t ≠ s.threads.length) :
    Executes ((storeMachine cfg pendingStoreWorks).spawned s task) t job ↔
      Executes s t job := by
  rw [Executes, Executes, spawned_threads, if_neg ht]

theorem executes_new (h : Executes ((storeMachine cfg
      pendingStoreWorks).spawned s task) s.threads.length job) :
    ∃ sid, task = .work sid job := by
  obtain ⟨sid, hsid⟩ := h
  rw [spawned_threads, if_pos rfl] at hsid
  exact ⟨sid, Option.some.inj hsid⟩

theorem Executes.lt (h : Executes s t job) : t < s.threads.length := by
  obtain ⟨sid, hsid⟩ := h
  obtain ⟨th, hth, -⟩ := Option.map_eq_some_iff.mp hsid
  exact (List.getElem?_eq_some_iff.mp hth).1

theorem later_spawned (ht : t ≤ s.threads.length) :
    Later ((storeMachine cfg pendingStoreWorks).spawned s task) t j ↔
      Later s t j := by
  constructor
  · rintro ⟨t', job, hlt, hexec, hj⟩
    exact ⟨t', job, hlt, (executes_spawned (by omega)).mp hexec, hj⟩
  · rintro ⟨t', job, hlt, hexec, hj⟩
    exact ⟨t', job, hlt, (executes_spawned (by omega)).mpr hexec, hj⟩

theorem executes_afterCall
    (hget : s.threads[tid]? = some ⟨l, .call op k⟩) :
    Executes ((storeMachine cfg pendingStoreWorks).afterCall s tid l op k a)
        t job ↔ Executes s t job := by
  rw [Executes, Executes, afterCall_label hget]

theorem later_afterCall (hget : s.threads[tid]? = some ⟨l, .call op k⟩) :
    Later ((storeMachine cfg pendingStoreWorks).afterCall s tid l op k a) t j ↔
      Later s t j := by
  simp only [Later, executes_afterCall hget]

/-- An execution that has concluded has ended. -/
theorem ended_of_concluded {q : Execution}
    {th : Thread CallSig PyException Task (Option AliceWebhookResponse)}
    (hth : s.threads[t]? = some th)
    (hfollows : th.prog.Follows executions q fun _ q => q.Ended)
    (h : Concluded s t) : q.Ended := by
  obtain ⟨l, prog⟩ := th
  rcases prog with r | e | ⟨op, k⟩
  · exact hfollows
  · exact hfollows
  · obtain ⟨i, rfl⟩ := h op (State.next_eq_some.mpr ⟨l, k, hth⟩)
    have hmay := hfollows.1
    cases q with
    | fresh job => cases hmay
    | running job => exact hmay.elim
    | request => trivial
    | skipping job => trivial
    | finished job => trivial

theorem Standing.mono {q : Execution} {s' : StoreState}
    (h : Standing s t job q)
    (hlater : Later s' t job.jobId → Later s t job.jobId)
    (hprogress : NotInProgress s.world job.jobId →
      NotInProgress s'.world job.jobId) : Standing s' t job q := by
  cases q with
  | request => exact h
  | fresh job' => exact ⟨h.1, fun hl => hprogress (h.2 (hlater hl))⟩
  | running job' => exact ⟨h.1, fun hl => h.2 (hlater hl)⟩
  | skipping job' => exact ⟨h.1, hprogress h.2⟩
  | finished job' =>
      exact ⟨h.1, fun hl => h.2.1 (hlater hl), hprogress h.2.2⟩

theorem notInProgress_of_ended {q : Execution} (h : Standing s t job q)
    (hq : q.Ended) : NotInProgress s.world job.jobId := by
  cases q with
  | request => exact h.elim
  | fresh job' => exact hq.elim
  | running job' => exact hq.elim
  | skipping job' => exact h.2
  | finished job' => exact h.2.2

/-- A thread is started, under the condition on overlaps. -/
theorem Orderly.spawn (h : Orderly s ph)
    (hs : (storeMachine cfg pendingStoreWorks).Reachable NoOverlap
      World.empty s)
    (hover : NoOverlap s (.spawn task)) (hadm : task.Admits s.world)
    (hfollows : InPhases executions (fun _ _ q => q.Ended) s ph) :
    Orderly ((storeMachine cfg pendingStoreWorks).spawned s task)
      (Function.update ph s.threads.length task.execution) := by
  constructor
  · intro t job hexec
    by_cases ht : t = s.threads.length
    · subst ht
      obtain ⟨sid, rfl⟩ := executes_new hexec
      obtain ⟨entry, hentry, -, rfl⟩ := Task.admits_work hadm
      obtain ⟨ph', htraced, -⟩ := traced_of_reachable hs
      exact htraced.queued entry (List.mem_of_getElem? hentry)
    · exact h.used ((executes_spawned ht).mp hexec)
  · intro t job hexec hlater e he htid
    by_cases ht : t = s.threads.length
    · have hlt := hs.tid_lt e he
      omega
    · have hexec' := (executes_spawned ht).mp hexec
      exact h.quiet hexec' ((later_spawned hexec'.lt.le).mp hlater) e he htid
  · intro t job hexec
    by_cases ht : t = s.threads.length
    · subst ht
      rw [Function.update_self]
      obtain ⟨sid, rfl⟩ := executes_new hexec
      refine ⟨rfl, fun hlater => ?_⟩
      -- the earlier execution has ended, so it has seen or replaced the record
      obtain ⟨t', job', -, hexec', hj⟩ := (later_spawned le_rfl).mp hlater
      have hconcluded := hover sid job rfl t' job' hexec' hj
      obtain ⟨sid', hsid'⟩ := hexec'
      obtain ⟨th, hth, -⟩ := Option.map_eq_some_iff.mp hsid'
      have hended := ended_of_concluded hth (hfollows t' th hth) hconcluded
      have hgone := notInProgress_of_ended (h.standing ⟨sid', hsid'⟩) hended
      rwa [hj] at hgone
    · have hexec' := (executes_spawned ht).mp hexec
      rw [Function.update_of_ne ht]
      exact (h.standing hexec').mono (later_spawned hexec'.lt.le).mp id

/-- A later execution only reads. -/
theorem onlyReads_of_later {q : Execution} (h : Standing s t job q)
    (hmay : executions.may q op) (hlater : Later s t job.jobId) :
    OnlyReads job op := by
  cases q with
  | request => exact h.elim
  | fresh job' =>
      obtain ⟨rfl, -⟩ := h
      exact Or.inl hmay
  | running job' => exact (h.2 hlater).elim
  | skipping job' =>
      obtain ⟨rfl, -⟩ := h
      exact Or.inr hmay
  | finished job' => exact (h.2.1 hlater).elim

/-- A running execution that writes an outcome has ended its job. -/
theorem notInProgress_of_written {c : PendingCall}
    (hmay : executions.may (.running job) (.pending c))
    (hfault : a.fault = none) :
    ¬(execCall cfg a (.pending c) s.world).2.InProgress job.conversationKey
      job.jobId := by
  cases c with
  | markReady key j replyText replyTts tailText mode request =>
      obtain ⟨rfl, rfl⟩ := hmay
      rw [execCall_markReady hfault]
      exact not_inProgress_publish (by rintro ⟨⟩)
  | markFailed key j m =>
      obtain ⟨rfl, rfl⟩ := hmay
      rw [execCall_markFailed hfault]
      exact not_inProgress_publish (by rintro ⟨⟩)
  | getPending key => exact hmay.elim
  | startPending key job' => exact hmay.elim
  | markDelivered key j => exact hmay.elim
  | clearPending key j => exact hmay.elim

/-- What an execution knows after its own call. -/
theorem Standing.call {q : Execution} (h : Standing s tid job q)
    (hget : s.threads[tid]? = some ⟨l, .call op k⟩)
    (hmay : executions.may q op) (hworks : pendingStoreWorks a op)
    (hkeeps : NotInProgress s.world job.jobId →
      NotInProgress (execCall cfg a op s.world).2 job.jobId)
    (hkey : ∀ {w : World}, w = s.world ∨ w = (execCall cfg a op s.world).2 →
      ¬w.InProgress job.conversationKey job.jobId →
      NotInProgress w job.jobId) :
    Standing ((storeMachine cfg pendingStoreWorks).afterCall s tid l op k a)
      tid job (executions.next q op (execCall cfg a op s.world).1) := by
  have hlater : Later ((storeMachine cfg pendingStoreWorks).afterCall s tid l op
      k a) tid job.jobId → Later s tid job.jobId := (later_afterCall hget).mp
  have hstay : Standing ((storeMachine cfg pendingStoreWorks).afterCall s tid l
      op k a) tid job q := h.mono hlater hkeeps
  cases q with
  | request => exact h.elim
  | skipping job' => exact hstay
  | finished job' => exact hstay
  | fresh job' =>
      obtain ⟨rfl, hgone⟩ := h
      obtain rfl : op = .pending (.getPending job'.conversationKey) := hmay
      have hfault : a.fault = none := hworks
      rw [execCall_getPending hfault]
      show Standing _ _ _ (if isProcessingFor
        (s.world.pending job'.conversationKey) job'.jobId then
          .running job' else .skipping job')
      split
      · next hprogress =>
        rw [isProcessingFor_iff] at hprogress
        exact ⟨rfl, fun hl => hgone (hlater hl) _ hprogress⟩
      · next hprogress =>
        rw [isProcessingFor_iff] at hprogress
        exact ⟨rfl, hkeeps (hkey (Or.inl rfl) hprogress)⟩
  | running job' =>
      obtain ⟨rfl, hfirst⟩ := h
      rcases op with c | c
      · have hfault : a.fault = none := hworks
        refine ⟨rfl, fun hl => hfirst (hlater hl), hkey (Or.inr rfl) ?_⟩
        exact notInProgress_of_written hmay hfault
      · exact hstay

/-- One call of one thread. -/
theorem Orderly.call (h : Orderly s ph)
    (hs : (storeMachine cfg pendingStoreWorks).Reachable NoOverlap
      World.empty s)
    (hget : s.threads[tid]? = some ⟨l, .call op k⟩)
    (hmay : executions.may (ph tid) op) (hworks : pendingStoreWorks a op) :
    Orderly ((storeMachine cfg pendingStoreWorks).afterCall s tid l op k a)
      (Function.update ph tid
        (executions.next (ph tid) op (execCall cfg a op s.world).1)) := by
  obtain ⟨ph', htraced, huses⟩ := traced_of_reachable hs
  have hids : idUse.may (ph' tid) op := (huses tid _ hget).1
  have htraced' : Traced (execCall cfg a op s.world).2 _ _ := htraced.call hids
  have hkeeps : ∀ {t job}, Executes s t job →
      NotInProgress s.world job.jobId →
        NotInProgress (execCall cfg a op s.world).2 job.jobId :=
    fun hexec hgone => hgone.call htraced hids (h.used hexec)
  constructor
  · intro t job hexec
    exact (h.used ((executes_afterCall hget).mp hexec)).cons
  · intro t job hexec hlater e he htid
    have hexec' := (executes_afterCall hget).mp hexec
    have hlater' := (later_afterCall hget).mp hlater
    rcases List.mem_cons.mp he with rfl | he
    · obtain rfl : tid = t := htid
      exact onlyReads_of_later (h.standing hexec') hmay hlater'
    · exact h.quiet hexec' hlater' e he htid
  · intro t job hexec
    have hexec' := (executes_afterCall hget).mp hexec
    by_cases ht : t = tid
    · subst ht
      rw [Function.update_self]
      refine (h.standing hexec').call hget hmay hworks (hkeeps hexec') ?_
      rintro w (rfl | rfl) hgone
      · exact notInProgress_of_key htraced (h.used hexec') hgone
      · exact notInProgress_of_key htraced' (h.used hexec').cons hgone
    · rw [Function.update_of_ne ht]
      exact (h.standing hexec').mono (later_afterCall hget).mp (hkeeps hexec')

/-- All executions are in order in every run without overlaps. -/
theorem orderly_executions
    (hs : (storeMachine cfg pendingStoreWorks).Reachable NoOverlap
      World.empty s) :
    ∃ ph, Orderly s ph ∧ InPhases executions (fun _ _ q => q.Ended) s ph := by
  refine hs.phases (execution_body cfg) (fun _ => .request) ?_ ?_ ?_ ?_
  · constructor
    · rintro t job ⟨sid, hsid⟩
      cases hsid
    · rintro t job ⟨sid, hsid⟩
      cases hsid
    · rintro t job ⟨sid, hsid⟩
      cases hsid
  · intro s ph task hr hover hadm hfollows h
    exact h.spawn hr hover hadm hfollows
  · intro s ph tid l op k a hr hget _ hworks hmay _ h
    refine ⟨?_, fun _ => h.call hr hget hmay hworks⟩
    rcases op with c | c
    · obtain ⟨v, hv⟩ := @ok_of_pending cfg a s.world c hworks
      show Execution.Possible (.pending c) (execCall cfg a (.pending c) s.world).1
      rw [hv]
      trivial
    · trivial
  · intro s ph e hr _ h
    constructor
    · exact h.used
    · exact h.quiet
    · intro t job hexec
      exact (h.standing hexec).mono id fun hgone => hgone.expire e

end Runs

/-! ## The turns of a job -/

/-- The turn a call appends, to whichever history. -/
def turnOf : CallEvent → Option ConversationTurn
  | ⟨_, .port (.appendTurn _ turn), .ok _⟩ => some turn
  | _ => none

/-- The turns a thread has appended, oldest first. -/
def threadTurns (t : ℕ) (log : List CallEvent) : List ConversationTurn :=
  log.reverse.filterMap fun e => if e.tid = t then turnOf e else none

def executesJob (s : StoreState) (t : ℕ) (j : JobId) : Bool :=
  match s.threads[t]?.map Thread.label with
  | some (.work _ job) => job.jobId = j
  | _ => false

/-- The turns that executions of the job have appended, oldest first. -/
def jobTurns (s : StoreState) (j : JobId) : List ConversationTurn :=
  s.log.reverse.filterMap fun e =>
    if executesJob s e.tid j then turnOf e else none

/-- The turns are the beginning of one exchange. -/
def AtMostOneExchange (turns : List ConversationTurn) : Prop :=
  ∃ u a, turns <+: [⟨.user, u⟩, ⟨.assistant, a⟩]

section Turns

variable {cfg : Settings} {s : StoreState} {t : ℕ} {j : JobId}
variable {log : List CallEvent} {e : CallEvent}

theorem executesJob_iff :
    executesJob s t j = true ↔ ∃ job, Executes s t job ∧ job.jobId = j := by
  unfold executesJob Executes
  rcases s.threads[t]?.map Thread.label with _ | payload | ⟨sid, job⟩
  · simp
  · simp
  · simp

theorem threadTurns_cons (t : ℕ) (e : CallEvent) (log : List CallEvent) :
    threadTurns t (e :: log) = threadTurns t log ++
      (if e.tid = t then turnOf e else none).toList := by
  have hone : ([e].filterMap fun e => if e.tid = t then turnOf e else none) =
      (if e.tid = t then turnOf e else none).toList := by
    cases h : (if e.tid = t then turnOf e else none) <;> simp [h]
  rw [threadTurns, List.reverse_cons, List.filterMap_append, hone]
  rfl

/-- The turns of a thread, by how far it has come with its exchange. -/
def Exchange.Shows (turns : List ConversationTurn) : Exchange → Prop
  | ahead => turns = []
  | within _ u => turns = [⟨.user, u⟩]
  | past => AtMostOneExchange turns

theorem atMostOne_nil : AtMostOneExchange [] :=
  ⟨[], [], List.nil_prefix⟩

theorem atMostOne_user (u : Str) : AtMostOneExchange [⟨.user, u⟩] :=
  ⟨u, [], [⟨.assistant, []⟩], rfl⟩

theorem Exchange.Shows.atMostOne {q : Exchange} {turns : List ConversationTurn}
    (h : q.Shows turns) : AtMostOneExchange turns := by
  cases q with
  | ahead =>
      rw [show turns = [] from h]
      exact atMostOne_nil
  | within key u =>
      rw [show turns = [⟨.user, u⟩] from h]
      exact atMostOne_user u
  | past => exact h

theorem turnOf_of_not_appends {op : Call} (h : ¬op.Appends)
    (x : Except PyException op.Res) : turnOf ⟨t, op, x⟩ = none := by
  rcases op with c | c
  · rfl
  · rcases c
    case appendTurn => exact (h trivial).elim
    all_goals rfl

theorem Exchange.Shows.call {q : Exchange} {op : Call}
    {x : Except PyException op.Res} (h : q.Shows (threadTurns t log))
    (hmay : exchanges.may q op) :
    (exchanges.next q op x).Shows (threadTurns t (⟨t, op, x⟩ :: log)) := by
  rw [threadTurns_cons, if_pos rfl]
  by_cases happ : op.Appends
  · rcases op with c | c
    · exact happ.elim
    rcases c
    case appendTurn key turn =>
      obtain ⟨role, content⟩ := turn
      cases q with
      | past => exact hmay.elim
      | ahead =>
          obtain rfl : role = .user := hmay
          rw [show threadTurns t log = [] from h]
          rcases x with e | _
          · exact atMostOne_nil
          · rfl
      | within key' u =>
          obtain ⟨-, rfl⟩ : key = key' ∧ role = .assistant := hmay
          rw [show threadTurns t log = [⟨.user, u⟩] from h]
          rcases x with e | _
          · exact atMostOne_user u
          · exact ⟨u, content, List.prefix_refl _⟩
    all_goals exact happ.elim
  · rw [turnOf_of_not_appends happ, Option.toList_none, List.append_nil]
    cases q with
    | past => rwa [(outside_past.stays op happ).2 x]
    | ahead => rwa [(outside_ahead.stays op happ).2 x]
    | within key u =>
        rcases op with c | c
        · exact hmay.elim
        · rcases c <;> first | exact (happ trivial).elim | exact hmay.elim

section Reached

variable {permits : Answer → Call → Prop} {C : StoreState → Schedule → Prop}
variable {w : World}

theorem threadTurns_of_le (hs : (storeMachine cfg permits).Reachable C w s)
    (ht : s.threads.length ≤ t) : threadTurns t s.log = [] := by
  refine List.filterMap_eq_nil_iff.mpr fun e he => ?_
  have hlt := hs.tid_lt e (List.mem_reverse.mp he)
  rw [if_neg (by omega)]

theorem shows_of_reachable (hs : (storeMachine cfg permits).Reachable C w s) :
    ∀ t (th : Thread CallSig PyException Task (Option AliceWebhookResponse)),
      s.threads[t]? = some th → ∃ q,
        th.prog.Follows exchanges q (fun _ q => Outside q) ∧
          q.Shows (threadTurns t s.log) := by
  have hinhabited : Inhabited Exchange := ⟨.ahead⟩
  refine (hs.discipline (exchange_body cfg) (G := fun _ _ => True)
    (T := fun i _ q _ log => q.Shows (threadTurns i log)) trivial ?_ ?_ ?_).2
  · intro s task hr _ _ _
    exact threadTurns_of_le hr le_rfl
  · intro s tid l q op k a _ _ _ _ hmay _ h
    refine ⟨trivial, trivial, fun _ => h.call hmay, ?_⟩
    intro i th q' hi _ h'
    rw [threadTurns_cons, if_neg hi.symm, Option.toList_none, List.append_nil]
    exact h'
  · intro s e _ _ _
    exact ⟨trivial, fun _ _ _ h => h⟩

/-- Every thread appends at most one exchange. -/
theorem atMostOneExchange_of_reachable
    (hs : (storeMachine cfg permits).Reachable C w s) (t : ℕ) :
    AtMostOneExchange (threadTurns t s.log) := by
  by_cases ht : t < s.threads.length
  · obtain ⟨q, -, hshows⟩ :=
      shows_of_reachable hs t _ (List.getElem?_eq_getElem ht)
    exact hshows.atMostOne
  · rw [threadTurns_of_le hs (by omega)]
    exact atMostOne_nil

end Reached

/-- The turns of a job are those of its first execution. -/
theorem jobTurns_eq_threadTurns
    (hquiet : ∀ {t job}, Executes s t job → Later s t job.jobId →
      ∀ e ∈ s.log, e.tid = t → OnlyReads job e.op)
    (ht : executesJob s t j = true)
    (hfirst : ∀ t' < t, executesJob s t' j = false) :
    jobTurns s j = threadTurns t s.log := by
  refine List.filterMap_congr fun e he => ?_
  obtain ⟨job, hexec, hj⟩ := executesJob_iff.mp ht
  by_cases htid : e.tid = t
  · rw [if_pos htid, htid, ht, if_pos rfl]
  · rw [if_neg htid]
    rcases hother : executesJob s e.tid j
    · rw [if_neg (by decide)]
    · rw [if_pos rfl]
      obtain ⟨job', hexec', hj'⟩ := executesJob_iff.mp hother
      have hlt : t < e.tid := by
        by_contra hle
        have hlt' : e.tid < t := by omega
        rw [hfirst _ hlt'] at hother
        cases hother
      have hreads := hquiet hexec' ⟨t, job, hlt, hexec, hj.trans hj'.symm⟩ e
        (List.mem_reverse.mp he) rfl
      obtain ⟨tid, op, x⟩ := e
      rcases hreads with rfl | ⟨i, -, rfl⟩ <;> rfl

end Turns

/-! ## Redelivery -/

/-- A step of a later execution leaves records, histories and the jobs on the
stream as they are. -/
structure Unchanged (w w' : World) : Prop where
  pending : w'.pending = w.pending
  history : w'.history = w.history
  jobs : w'.stream.map StreamEntry.job = w.stream.map StreamEntry.job

/-- Executions of a job after the first one only read the record of the job, and
all its executions together append at most one exchange. -/
structure RedeliveryHarmless (cfg : Settings) (s : StoreState) : Prop where
  past : ∀ {t job}, Executes s t job → Later s t job.jobId →
    ∀ e ∈ s.log, e.tid = t → OnlyReads job e.op
  next : ∀ {t job op}, Executes s t job → Later s t job.jobId →
    s.next t = some op → OnlyReads job op
  unchanged : ∀ {t job a s'}, Executes s t job → Later s t job.jobId →
    (storeMachine cfg pendingStoreWorks).Step s (.step t a) s' →
      Unchanged s.world s'.world
  once : ∀ j, AtMostOneExchange (jobTurns s j)

theorem unchanged_of_onlyReads {cfg : Settings} {a : Answer} {w : World}
    {job : DeferredJob} {op : Call} (h : OnlyReads job op) :
    Unchanged w (execCall cfg a op w).2 := by
  rcases hfault : a.fault with _ | e
  · rcases h with rfl | ⟨i, -, rfl⟩
    · rw [execCall_getPending hfault]
      exact ⟨rfl, rfl, rfl⟩
    · rw [execCall_port hfault]
      refine ⟨rfl, rfl, List.ext_getElem? fun n => ?_⟩
      simp only [PortCall.exec, List.getElem?_map, List.getElem?_modify]
      cases w.stream[n]? with
      | none => rfl
      | some entry =>
          by_cases hn : i = n
          · simp [hn]
          · simp [hn]
  · rw [execCall_fault hfault]
    exact ⟨rfl, rfl, rfl⟩

theorem redelivery_harmless {cfg : Settings} {s : StoreState}
    (hs : (storeMachine cfg pendingStoreWorks).Reachable NoOverlap
      World.empty s) : RedeliveryHarmless cfg s := by
  obtain ⟨ph, horderly, hfollows⟩ := orderly_executions hs
  have hnext : ∀ {t job op}, Executes s t job → Later s t job.jobId →
      s.next t = some op → OnlyReads job op := by
    intro t job op hexec hlater hop
    obtain ⟨l, k, hth⟩ := State.next_eq_some.mp hop
    have hmay := (hfollows t _ hth).1
    exact onlyReads_of_later (horderly.standing hexec) hmay hlater
  constructor
  · exact horderly.quiet
  · exact hnext
  · intro t job a s' hexec hlater hst
    rcases step_cases hst with ⟨l, hl, -⟩ | ⟨tid, a', l, op, k, htid, hget, -, rfl⟩ |
      ⟨e, he, -⟩
    · cases hl
    · cases htid
      exact unchanged_of_onlyReads
        (hnext hexec hlater (State.next_eq_some.mpr ⟨l, k, hget⟩))
    · cases he
  · intro j
    by_cases hsome : ∃ t, executesJob s t j = true
    · have hfirst : ∀ t' < Nat.find hsome, executesJob s t' j = false := by
        intro t' ht'
        simpa using Nat.find_min hsome ht'
      rw [jobTurns_eq_threadTurns horderly.quiet (Nat.find_spec hsome) hfirst]
      exact atMostOneExchange_of_reachable hs _
    · have hnil : jobTurns s j = [] := by
        refine List.filterMap_eq_nil_iff.mpr fun e _ => ?_
        rw [if_neg fun h => hsome ⟨_, h⟩]
      rw [hnil]
      exact atMostOne_nil

/-- An execution starts only when nothing else runs. -/
def StartsAlone (s : StoreState) : Schedule → Prop
  | .spawn (.work _ _) => ∀ t < s.threads.length, (s.next t).isNone
  | _ => True

instance (s : StoreState) : (act : Schedule) → Decidable (StartsAlone s act)
  | .spawn (.work _ _) => inferInstanceAs (Decidable (∀ _ < _, _))
  | .spawn (.request _) => .isTrue trivial
  | .step _ _ => .isTrue trivial
  | .ambient _ => .isTrue trivial

theorem noOverlap_of_startsAlone (s : StoreState) (act : Schedule)
    (h : StartsAlone s act) : NoOverlap s act := by
  intro sid job hact t job' hexec _ op hop
  subst hact
  have hnone := h t hexec.lt
  rw [hop] at hnone
  cases hnone

/-- A job is done, its entry is not acknowledged, and it is handed out again. -/
def redeliveringSchedule : List Schedule :=
  acceptedSchedule 0 (utter 1 "что такое кит") ++
  [.spawn (.work 0 (workedJob 0 0 (utter 1 "что такое кит"))),
    .step 1 .ok, .step 1 .ok, .step 1 .ok, .step 1 .ok,
    .step 1 (.replies ['a']), .step 1 .ok, .step 1 .ok, .step 1 .ok,
    .step 1 .ok, .step 1 .ok, .step 1 (.fails ⟨.other, none⟩),
    .spawn (.work 0 (workedJob 0 0 (utter 1 "что такое кит"))), .step 2 .ok]

theorem redelivered_once :
    let job := workedJob 0 0 (utter 1 "что такое кит")
    ∃ s, (storeMachine .default pendingStoreWorks).Reachable NoOverlap
      World.empty s ∧ Executes s 2 job ∧ Later s 2 job.jobId ∧
      jobTurns s job.jobId =
        [⟨.user, "что такое кит".toList⟩, ⟨.assistant, ['a']⟩] ∧
      RedeliveryHarmless .default s := by
  intro job
  let M := storeMachine .default pendingStoreWorks
  have hrun : (M.runFrom StartsAlone (initial World.empty)
      redeliveringSchedule).map (fun s =>
        (s.threads[1]?.map Thread.label, s.threads[2]?.map Thread.label,
          jobTurns s job.jobId)) =
      some (some (.work 0 job), some (.work 0 job),
        [⟨.user, "что такое кит".toList⟩, ⟨.assistant, ['a']⟩]) := by
    decide +kernel
  obtain ⟨s, hs, hobs⟩ := Option.map_eq_some_iff.mp hrun
  simp only [Prod.mk.injEq] at hobs
  obtain ⟨hfirst, hsecond, hturns⟩ := hobs
  have hreach := (reachable_runFrom .start hs).mono noOverlap_of_startsAlone
  exact ⟨s, hreach, ⟨0, hsecond⟩, ⟨1, job, by decide, ⟨0, hfirst⟩, rfl⟩, hturns,
    redelivery_harmless hreach⟩

end AliceSkill
