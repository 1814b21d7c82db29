import AliceSkill.Concurrent.History
import AliceSkill.Services.Calls

/-!
# Turns of unpublished answers

A worker appends the exchange to the history first and publishes its answer
afterwards.  The two belong together as long as publishing neither fails nor
finds the record of another job.
-/

namespace AliceSkill

open Text Effects Program Machine RedisPendingReplyStore ConversationService

/-! ## What an execution should have done -/

/-- The call that publishes a reply. -/
def publishCall (job : DeferredJob) (reply : LLMReply) : Call :=
  .pending (.markReady job.conversationKey job.jobId reply.shortText
    reply.shortText reply.followupText reply.followupMode
    reply.continuationRequest)

/-- The execution has stored the reply as the READY record of its job. -/
def publishEvent (i : ℕ) (job : DeferredJob) (reply : LLMReply) :
    Event CallSig PyException :=
  ⟨i, publishCall job reply, Except.ok (ε := PyException)
    (some (readyRecord job.jobId reply.shortText reply.shortText
      reply.followupText reply.followupMode reply.continuationRequest))⟩

/-- The turns of the exchange of a job that was answered with `reply`. -/
def OfExchange (job : DeferredJob) (reply : LLMReply) (key : Str)
    (turn : ConversationTurn) : Prop :=
  key = job.conversationKey ∧
    (turn = ⟨.user, job.userText⟩ ∨ turn = ⟨.assistant, reply.rawText⟩)

/-- The next call appends a turn or publishes a reply. -/
def Publishing (s : StoreState) (i : ℕ) : Prop :=
  (∃ key turn, s.next i = some (.port (.appendTurn key turn))) ∨
  ∃ job reply, s.next i = some (publishCall job reply)

/-- A worker execution that has appended a turn has published the answer the
turn belongs to, or is still on the way to it. -/
def TurnsPublished (s : StoreState) : Prop :=
  ∀ i sid job prog, s.threads[i]? = some ⟨.work sid job, prog⟩ →
    ∀ key turn, (i, turn) ∈ signedTurns key s.log →
      Publishing s i ∨
      ∃ reply, publishEvent i job reply ∈ s.log ∧ OfExchange job reply key turn

/-- When an execution that has appended a turn publishes its reply, this does
not fail and does not find the record of another job. -/
def PublishesTurns (s : StoreState) (act : Schedule) : Prop :=
  ∀ i a sid job prog reply, act = .step i a →
    s.threads[i]? = some ⟨.work sid job, prog⟩ →
    s.next i = some (publishCall job reply) →
    (∃ key turn, (i, turn) ∈ signedTurns key s.log) →
      a.fault = none ∧
      replacedBy (s.world.pending job.conversationKey) job.jobId = false

/-! ## The protocol of a worker -/

/-- How far a worker execution has come; requests are not restricted. -/
inductive Publication where
  | request
  | reading (job : DeferredJob)
  | answered (job : DeferredJob) (reply : LLMReply)
  | published (job : DeferredJob) (reply : LLMReply)
  | closed

/-- Calls that append a turn or publish a reply. -/
def Call.Publishes : Call → Prop
  | .pending (.markReady ..) => True
  | .port (.appendTurn ..) => True
  | _ => False

/-- The exchange is appended and published once the model has answered. -/
def publications : Protocol CallSig PyException Publication where
  may q op :=
    match q with
    | .request => True
    | .answered job reply =>
        op = .port (.appendTurn job.conversationKey ⟨.user, job.userText⟩) ∨
        op = .port (.appendTurn job.conversationKey
          ⟨.assistant, reply.rawText⟩) ∨
        op = publishCall job reply
    | _ => ¬op.Publishes
  possible _ _ _ := True
  next q op x :=
    match q, op, x with
    | .reading job, .port (.generateReply ..), .ok reply => .answered job reply
    | .answered job reply, .pending (.markReady ..), .ok (some _) =>
        .published job reply
    | .answered _ _, .pending (.markReady ..), _ => .closed
    | q, _, _ => q

/-- The phase in which a task starts. -/
def Task.publication : Task → Publication
  | request _ => .request
  | work _ job => .reading job

/-- The execution does not stop on the way to publishing. -/
def Unpending (q : Publication) : Prop :=
  ∀ job reply, q ≠ .answered job reply

section Parts

variable {job : DeferredJob} {reply : LLMReply} {q : Publication}

/-- The calls of a worker outside the generation and the publication. -/
def Call.Closes : Call → Prop
  | .pending (.getPending _) => True
  | .pending (.markFailed ..) => True
  | .port (.getHistory _) => True
  | .port (.persistTurns ..) => True
  | .port (.persistJobResult ..) => True
  | .port (.ack _) => True
  | .port .monotonic => True
  | _ => False

theorem stays_of_closes (hq : Unpending q) :
    Stays publications Call.Closes q := by
  intro op hop
  cases q with
  | answered job reply => exact (hq job reply rfl).elim
  | request => exact ⟨trivial, fun _ => rfl⟩
  | reading job =>
      rcases op with c | c
      · rcases c <;> first | exact ⟨id, fun _ => rfl⟩ | exact hop.elim
      · rcases c <;> first | exact ⟨id, fun _ => rfl⟩ | exact hop.elim
  | published job reply =>
      rcases op with c | c
      · rcases c <;> first | exact ⟨id, fun _ => rfl⟩ | exact hop.elim
      · rcases c <;> first | exact ⟨id, fun _ => rfl⟩ | exact hop.elim
  | closed =>
      rcases op with c | c
      · rcases c <;> first | exact ⟨id, fun _ => rfl⟩ | exact hop.elim
      · rcases c <;> first | exact ⟨id, fun _ => rfl⟩ | exact hop.elim

theorem closes_of_concludes {c : Call} (h : c.Concludes) : c.Closes := by
  rcases c with c | c
  · rcases c <;> trivial
  · rcases c <;> trivial

/-- The generation ends with an answer or leaves the phase alone. -/
def Generated (job : DeferredJob) :
    Except PyException LLMReply → Publication → Prop
  | .ok reply, q => q = .answered job reply
  | .error _, q => q = .reading job

theorem publication_generating :
    Generating publications (.reading job) (Generated job) where
  clock := by
    rintro op rfl
    exact ⟨id, fun _ => rfl⟩
  asks := fun _ _ _ _ _ => id
  answers := fun _ _ _ _ _ _ _ => rfl
  fails := fun _ _ _ _ _ _ => rfl
  raises := fun _ => rfl

theorem publication_appendTurns :
    (appendTurns job.conversationKey ⟨.user, job.userText⟩
      ⟨.assistant, reply.rawText⟩).Follows publications (.answered job reply)
      fun r q => r = .ok () ∧ q = .answered job reply := by
  rw [appendTurns, bind_eq, follows_bind, follows_attempt, bind_eq, follows_bind,
    Ports.appendTurn, Ports.ask, follows_perform]
  refine ⟨Or.inl rfl, fun x _ => ?_⟩
  rcases x with e | _
  · exact ⟨rfl, rfl⟩
  · show (Ports.appendTurn job.conversationKey
      ⟨.assistant, reply.rawText⟩).Follows _ _ _
    rw [Ports.appendTurn, Ports.ask, follows_perform]
    refine ⟨Or.inr (Or.inl rfl), fun x _ => ?_⟩
    rcases x with e | _
    · exact ⟨rfl, rfl⟩
    · exact ⟨rfl, rfl⟩

theorem publication_processDeferredJob (deadlineSeconds : ℚ) :
    (processDeferredJob job deadlineSeconds).Follows publications
      (.reading job) fun _ q => Unpending q := by
  have hreading : Unpending (.reading job) := by rintro job' reply ⟨⟩
  have hclosed : Unpending .closed := by rintro job' reply ⟨⟩
  simp only [processDeferredJob, bind_eq]
  refine follows_stays_bind (stays_of_closes hreading) (only_ask trivial)
    (fun current => ?_) fun _ => hreading
  split
  · refine follows_stays_bind (stays_of_closes hreading) (only_ask trivial)
      (fun history => ?_) fun _ => hreading
    rw [follows_bind]
    refine (publication_generating.generateDeferredReply _ _ _).mono
      fun r q hq => ?_
    rcases r with e | reply
    · rw [show q = .reading job from hq]
      exact hreading
    · rw [show q = .answered job reply from hq]
      simp only [follows_bind]
      refine publication_appendTurns.mono ?_
      rintro r q ⟨rfl, rfl⟩
      rw [Ports.markReady, Ports.ask, follows_perform]
      refine ⟨Or.inr (Or.inr rfl), fun x _ => ?_⟩
      rcases x with e | _ | r
      · exact hclosed
      · exact hclosed
      · have hpublished : Unpending (.published job reply) := by
          rintro job' reply' ⟨⟩
        simp only [reduceCtorEq, if_false]
        refine follows_stays_bind (stays_of_closes hpublished) ?_
          (fun _ => hpublished) fun _ => hpublished
        exact Only.mono (only_persistAnalytics _ _ _ _) fun _ h =>
          closes_of_concludes (concludes_of_analytics h)
  · exact hreading

theorem publication_workJob (cfg : Settings) (job : DeferredJob) :
    (workJob cfg job).Follows publications (.reading job)
      fun _ q => Unpending q := by
  refine follows_workJob_of_process cfg job
    ((publication_processDeferredJob _).mono fun _ q hq => ⟨?_, hq⟩)
  intro op hop
  exact stays_of_closes hq op (closes_of_concludes hop)

end Parts

/-! ## Runs -/

/-- Every turn the thread has appended satisfies `R`. -/
def TurnsOf (log : List (Event CallSig PyException)) (i : ℕ)
    (R : Str → ConversationTurn → Prop) : Prop :=
  ∀ key turn, (i, turn) ∈ signedTurns key log → R key turn

/-- The thread has not published a reply. -/
def Unpublished (log : List (Event CallSig PyException)) (i : ℕ) : Prop :=
  ∀ job reply, publishEvent i job reply ∉ log

/-- What the log says of a worker execution in phase `q`. -/
def Accounts (log : List (Event CallSig PyException)) (i : ℕ)
    (job : DeferredJob) : Publication → Prop
  | .request => False
  | .reading job' =>
      job' = job ∧ TurnsOf log i (fun _ _ => False) ∧ Unpublished log i
  | .answered job' reply =>
      job' = job ∧ TurnsOf log i (OfExchange job reply) ∧ Unpublished log i
  | .published job' reply =>
      job' = job ∧ TurnsOf log i (OfExchange job reply) ∧
        publishEvent i job reply ∈ log
  | .closed => TurnsOf log i fun _ _ => False

/-- The same for a thread of any kind. -/
def Task.Accounts (log : List (Event CallSig PyException)) (i : ℕ) :
    Task → Publication → Prop
  | request _, q => q = .request
  | work _ job, q => AliceSkill.Accounts log i job q

section Runs

variable {cfg : Settings} {w : World} {s : StoreState} {i : ℕ}
variable {log : List (Event CallSig PyException)}
variable {e : Event CallSig PyException} {job : DeferredJob} {reply : LLMReply}
variable {R : Str → ConversationTurn → Prop}

theorem TurnsOf.cons (h : TurnsOf log i R)
    (he : ∀ key turn, e.tid = i → appendedBy key e = some turn → R key turn) :
    TurnsOf (e :: log) i R := by
  intro key turn hmem
  rw [signedTurns_cons, List.mem_append] at hmem
  rcases hmem with hmem | hmem
  · exact h key turn hmem
  · rw [Option.mem_toList, Option.map_eq_some_iff] at hmem
    obtain ⟨turn', happ, heq⟩ := hmem
    cases heq
    exact he key turn rfl happ

theorem appendedBy_of_not_publishes (h : ¬e.op.Publishes) (key : Str) :
    appendedBy key e = none := by
  rcases happ : appendedBy key e with _ | turn
  · rfl
  · rw [op_of_appendedBy happ] at h
    exact (h trivial).elim

theorem TurnsOf.cons_other (h : TurnsOf log i R) (he : ¬e.op.Publishes) :
    TurnsOf (e :: log) i R := by
  refine h.cons fun key turn _ happ => ?_
  rw [appendedBy_of_not_publishes he] at happ
  cases happ

theorem Unpublished.cons (h : Unpublished log i)
    (he : ∀ job reply, e ≠ publishEvent i job reply) :
    Unpublished (e :: log) i := by
  intro job reply hmem
  rcases List.mem_cons.mp hmem with heq | hmem
  · exact he job reply heq.symm
  · exact h job reply hmem

/-- Calls of other threads change nothing. -/
theorem Accounts.frame {q : Publication} (h : Accounts log i job q)
    (he : e.tid ≠ i) : Accounts (e :: log) i job q := by
  have hturns : ∀ {R}, TurnsOf log i R → TurnsOf (e :: log) i R :=
    fun hR => hR.cons fun _ _ htid => (he htid).elim
  have hunpublished : Unpublished log i → Unpublished (e :: log) i := by
    intro hlog
    refine hlog.cons fun job' reply' heq => ?_
    rw [heq] at he
    exact he rfl
  cases q with
  | request => exact h
  | reading job' => exact ⟨h.1, hturns h.2.1, hunpublished h.2.2⟩
  | answered job' reply => exact ⟨h.1, hturns h.2.1, hunpublished h.2.2⟩
  | published job' reply =>
      exact ⟨h.1, hturns h.2.1, List.mem_cons_of_mem _ h.2.2⟩
  | closed => exact hturns h

/-- What publishing a reply returns when it does not fail. -/
theorem execCall_publishCall {a : Answer} (hfault : a.fault = none) :
    (execCall cfg a (publishCall job reply) w).1 = .ok
      (if replacedBy (w.pending job.conversationKey) job.jobId then none
      else some (readyRecord job.jobId reply.shortText reply.shortText
        reply.followupText reply.followupMode reply.continuationRequest)) :=
  congrArg Prod.fst (execCall_markReady hfault _ _ _ _ _ _ _)

/-- When publishing fails or finds another job, nothing is published. -/
theorem closed_of_publishCall {a : Answer} (hnot : ¬(a.fault = none ∧
      replacedBy (w.pending job.conversationKey) job.jobId = false)) :
    publications.next (.answered job reply) (publishCall job reply)
        (execCall cfg a (publishCall job reply) w).1 = .closed ∧
      ∀ i job' reply', (⟨i, publishCall job reply,
          (execCall cfg a (publishCall job reply) w).1⟩ :
            Event CallSig PyException) ≠ publishEvent i job' reply' := by
  rcases hfault : a.fault with _ | e
  · have hreplaced :
        replacedBy (w.pending job.conversationKey) job.jobId = true := by
      rcases h : replacedBy (w.pending job.conversationKey) job.jobId
      · exact (hnot ⟨hfault, h⟩).elim
      · rfl
    rw [execCall_publishCall hfault, hreplaced]
    refine ⟨rfl, fun i job' reply' h => ?_⟩
    rw [publishEvent, Event.mk.injEq] at h
    cases eq_of_heq h.2.2
  · rw [execCall_fault hfault]
    refine ⟨rfl, fun i job' reply' h => ?_⟩
    rw [publishEvent, Event.mk.injEq] at h
    cases eq_of_heq h.2.2

/-- A call of the thread itself, under the condition on publishing. -/
theorem Accounts.call {q : Publication} {op : Call} {a : Answer}
    (hmay : publications.may q op) (h : Accounts log i job q)
    (hcond : ∀ reply, op = publishCall job reply →
      (∃ key turn, (i, turn) ∈ signedTurns key log) → a.fault = none ∧
        replacedBy (w.pending job.conversationKey) job.jobId = false) :
    Accounts (⟨i, op, (execCall cfg a op w).1⟩ :: log) i job
      (publications.next q op (execCall cfg a op w).1) := by
  generalize hx : (execCall cfg a op w).1 = x
  have hquiet : ¬op.Publishes →
      (∀ {R}, TurnsOf log i R → TurnsOf (⟨i, op, x⟩ :: log) i R) ∧
      (Unpublished log i → Unpublished (⟨i, op, x⟩ :: log) i) := by
    intro hop
    refine ⟨fun hR => hR.cons_other hop, fun hlog => hlog.cons ?_⟩
    intro job' reply' heq
    rw [Event.mk.injEq] at heq
    rw [heq.2.1] at hop
    exact hop trivial
  cases q with
  | request => exact h.elim
  | closed => exact (hquiet hmay).1 h
  | published job' reply =>
      exact ⟨h.1, (hquiet hmay).1 h.2.1, List.mem_cons_of_mem _ h.2.2⟩
  | reading job' =>
      obtain ⟨rfl, hturns, hunpublished⟩ := h
      obtain ⟨hkeep, hkeep'⟩ := hquiet hmay
      have hreading : ∀ {R}, TurnsOf (⟨i, op, x⟩ :: log) i R := fun {R} =>
        hkeep fun key turn hmem => (hturns key turn hmem).elim
      rcases op with c | c
      · exact ⟨rfl, hreading, hkeep' hunpublished⟩
      · rcases c <;> rcases x with e | y <;>
          exact ⟨rfl, hreading, hkeep' hunpublished⟩
  | answered job' reply =>
      obtain ⟨rfl, hturns, hunpublished⟩ := h
      rcases hmay with rfl | rfl | rfl
      · refine ⟨rfl, hturns.cons fun key turn _ happ => ?_, hunpublished.cons ?_⟩
        · have hop := op_of_appendedBy happ
          cases hop
          exact ⟨rfl, Or.inl rfl⟩
        · rintro job'' reply'' ⟨⟩
      · refine ⟨rfl, hturns.cons fun key turn _ happ => ?_, hunpublished.cons ?_⟩
        · have hop := op_of_appendedBy happ
          cases hop
          exact ⟨rfl, Or.inr rfl⟩
        · rintro job'' reply'' ⟨⟩
      · have hkeep : ∀ {R}, TurnsOf log i R →
            TurnsOf (⟨i, publishCall job' reply, x⟩ :: log) i R := by
          intro R hR
          refine hR.cons fun key turn _ happ => ?_
          cases op_of_appendedBy happ
        by_cases hok : a.fault = none ∧
            replacedBy (w.pending job'.conversationKey) job'.jobId = false
        · rw [execCall_publishCall hok.1, hok.2] at hx
          subst hx
          exact ⟨rfl, hkeep hturns, List.mem_cons_self⟩
        · -- then nothing had been appended
          have hnone : ¬∃ key turn, (i, turn) ∈ signedTurns key log :=
            fun hsome => hok (hcond reply rfl hsome)
          have hclosed := (@closed_of_publishCall cfg w job' reply a hok).1
          rw [hx] at hclosed
          rw [hclosed]
          exact hkeep fun key turn hmem => hnone ⟨key, turn, hmem⟩

theorem publication_body (cfg : Settings) (task : Task) :
    (task.body cfg).Follows publications task.publication
      fun _ q => Unpending q := by
  have hrequest : Unpending .request := by rintro job reply ⟨⟩
  cases task with
  | request payload =>
      rw [Task.body, follows_bind]
      have hstays : Stays publications Call.Serves .request :=
        fun op _ => ⟨trivial, fun _ => rfl⟩
      refine ((only_handle cfg payload).follows hstays).mono fun r q hq => ?_
      subst hq
      rcases r with e | response
      · exact hrequest
      · exact hrequest
  | work sid job =>
      rw [Task.body, follows_bind]
      refine (publication_workJob cfg job).mono fun r q hq => ?_
      rcases r with e | _
      · exact hq
      · exact hq

/-- Every worker execution is accounted for in every run whose steps meet the
condition. -/
theorem accounts_of_reachable
    (hs : (storeMachine cfg anyAnswer).Reachable PublishesTurns w s) :
    ∀ tid (th : Thread CallSig PyException Task (Option AliceWebhookResponse)),
      s.threads[tid]? = some th → ∃ q,
        th.prog.Follows publications q (fun _ q => Unpending q) ∧
          th.label.Accounts s.log tid q := by
  have hinhabited : Inhabited Publication := ⟨.closed⟩
  refine (hs.discipline (publication_body cfg) (G := fun _ _ => True)
    (T := fun tid th q _ log => th.label.Accounts log tid q) trivial
    ?_ ?_ ?_).2
  · intro s task hr _ _ _
    cases task with
    | request payload => rfl
    | work sid job =>
        have hnew : ∀ e ∈ s.log, e.tid ≠ s.threads.length :=
          fun e he => (hr.tid_lt e he).ne
        refine ⟨rfl, fun key turn hmem => ?_, fun job' reply hmem => ?_⟩
        · obtain ⟨e, he, htid⟩ := event_of_signedTurns hmem
          exact hnew e he htid
        · exact hnew _ hmem rfl
  · intro s tid l q op k a hr hget hc hperm hmay _ hT
    refine ⟨trivial, trivial, fun _ => ?_, fun i th q' hi hth hT' => ?_⟩
    · cases l with
      | request payload =>
          rw [show q = .request from hT]
          rfl
      | work sid job =>
          refine Accounts.call hmay hT fun reply hop hturns => ?_
          subst hop
          exact hc tid a sid job _ reply rfl hget
            (State.next_eq_some.mpr ⟨_, k, hget⟩) hturns
    · obtain ⟨label, prog⟩ := th
      cases label with
      | request payload => exact hT'
      | work sid job => exact Accounts.frame hT' hi.symm
  · intro s e hr hc _
    exact ⟨trivial, fun i th q h => h⟩

/-- An execution that has to publish does so next. -/
theorem publishing_of_answered {th : Thread CallSig PyException Task
      (Option AliceWebhookResponse)}
    (h : th.prog.Follows publications (.answered job reply)
      fun _ q => Unpending q) :
    (∃ key turn, th.next = some (.port (.appendTurn key turn))) ∨
      ∃ job reply, th.next = some (publishCall job reply) := by
  obtain ⟨l, prog⟩ := th
  rcases prog with r | e | ⟨op, k⟩
  · exact (h job reply rfl).elim
  · exact (h job reply rfl).elim
  · rcases h.1 with rfl | rfl | rfl
    · exact Or.inl ⟨_, _, rfl⟩
    · exact Or.inl ⟨_, _, rfl⟩
    · exact Or.inr ⟨job, reply, rfl⟩

theorem not_publishing_of_closed {th : Thread CallSig PyException Task
      (Option AliceWebhookResponse)} {R : Except PyException
        (Option AliceWebhookResponse) → Publication → Prop}
    (h : th.prog.Follows publications .closed R) :
    (∀ key turn, th.next ≠ some (.port (.appendTurn key turn))) ∧
      ∀ job reply, th.next ≠ some (publishCall job reply) := by
  constructor
  · intro key turn hnext
    exact th.may_next h hnext trivial
  · intro job' reply' hnext
    exact th.may_next h hnext trivial

theorem turnsPublished_of_reachable
    (hs : (storeMachine cfg anyAnswer).Reachable PublishesTurns w s) :
    TurnsPublished s := by
  intro i sid job prog hth key turn hmem
  obtain ⟨q, hfollows, haccounts⟩ := accounts_of_reachable hs i _ hth
  cases q with
  | request => exact haccounts.elim
  | reading job' => exact (haccounts.2.1 key turn hmem).elim
  | closed => exact (haccounts key turn hmem).elim
  | published job' reply =>
      obtain ⟨rfl, hturns, hpublished⟩ := haccounts
      exact Or.inr ⟨reply, hpublished, hturns key turn hmem⟩
  | answered job' reply =>
      left
      rw [Publishing, State.next, hth]
      exact publishing_of_answered hfollows

/-- Only an execution that has its answer publishes. -/
theorem answered_of_publishCall {job : DeferredJob} {reply : LLMReply}
    {q : Publication} (hq : q ≠ .request)
    (hmay : publications.may q (publishCall job reply)) :
    ∃ job' reply', q = .answered job' reply' ∧
      publishCall job reply = publishCall job' reply' := by
  cases q with
  | request => exact absurd rfl hq
  | reading job' => exact (hmay trivial).elim
  | closed => exact (hmay trivial).elim
  | published job' reply' => exact (hmay trivial).elim
  | answered job' reply' =>
      refine ⟨job', reply', rfl, ?_⟩
      rcases hmay with h | h | h
      · cases h
      · cases h
      · exact h

/-- A step that does not meet the condition leaves turns of an answer that is
not published. -/
theorem publishesTurns_of_turnsPublished {s' : StoreState} {act : Schedule}
    (hs : (storeMachine cfg anyAnswer).Reachable PublishesTurns w s)
    (hst : (storeMachine cfg anyAnswer).Step s act s')
    (hpublished : TurnsPublished s') : PublishesTurns s act := by
  rintro i a sid job prog reply rfl hth hnext ⟨key, turn, hmem⟩
  by_contra hnot
  rcases step_cases hst with ⟨l, hl, -⟩ | ⟨tid, a', l, op, k, htid, hget, -, rfl⟩ |
    ⟨e, he, -⟩
  · cases hl
  · cases htid
    obtain ⟨q, hfollows, haccounts⟩ := accounts_of_reachable hs i _ hget
    rw [hget] at hth
    cases hth
    have hop : op = publishCall job reply := by
      rw [State.next, hget] at hnext
      exact Option.some.inj hnext
    have hmay := hfollows.1
    rw [hop] at hmay
    have hq : q ≠ .request := by
      rintro rfl
      exact haccounts
    obtain ⟨job', reply', rfl, hcall⟩ := answered_of_publishCall hq hmay
    rw [hcall] at hop
    subst hop
    obtain ⟨rfl, -, hunpublished⟩ := haccounts
    obtain ⟨hclosed, hevent⟩ := @closed_of_publishCall cfg s.world job'
      reply' a hnot
    have hrest := hfollows.2 (execCall cfg a (publishCall job' reply')
      s.world).1 trivial
    rw [hclosed] at hrest
    have hth' : ((storeMachine cfg anyAnswer).afterCall s i (.work sid job')
        (publishCall job' reply') k a).threads[i]? =
          some ⟨.work sid job',
            k (execCall cfg a (publishCall job' reply') s.world).1⟩ := by
      rw [afterCall_threads hget, if_pos rfl]
    have hmem' : (i, turn) ∈ signedTurns key
        (⟨i, publishCall job' reply',
          (execCall cfg a (publishCall job' reply') s.world).1⟩ :: s.log) := by
      rw [signedTurns_cons]
      exact List.mem_append_left _ hmem
    let rest : Thread CallSig PyException Task
        (Option AliceWebhookResponse) :=
      ⟨.work sid job', k (execCall cfg a (publishCall job' reply') s.world).1⟩
    obtain ⟨hno, hno'⟩ := @not_publishing_of_closed rest _ hrest
    rcases hpublished i sid job' _ hth' key turn hmem' with
      hpublishing | ⟨reply'', hlog, -⟩
    · rw [Publishing, State.next, hth'] at hpublishing
      rcases hpublishing with ⟨key', turn', h⟩ | ⟨job'', reply'', h⟩
      · exact hno key' turn' h
      · exact hno' job'' reply'' h
    · rcases List.mem_cons.mp hlog with h | h
      · exact hevent i job' reply'' h.symm
      · exact hunpublished job' reply'' h
  · cases he

end Runs

/-- In every run whose steps meet the condition the turns of a worker execution
belong to an answer that it has published or is about to publish, and a next
step keeps it so if and only if it meets the condition. -/
theorem turns_published_iff {cfg : Settings} {w : World} {s : StoreState}
    (hs : (storeMachine cfg anyAnswer).Reachable PublishesTurns w s) :
    TurnsPublished s ∧ ∀ act s', (storeMachine cfg anyAnswer).Step s act s' →
      (TurnsPublished s' ↔ PublishesTurns s act) := by
  refine ⟨turnsPublished_of_reachable hs, fun act s' hst => ⟨?_, ?_⟩⟩
  · exact publishesTurns_of_turnsPublished hs hst
  · intro hc
    exact turnsPublished_of_reachable (.step hs hc hst)

/-! ## Concrete runs -/

/-- The record a call of `mark_ready` is about. -/
def readyTarget : Call → Option (Str × JobId)
  | .pending (.markReady key j ..) => some (key, j)
  | _ => none

/-- No call of `mark_ready` fails or finds the record of another job. -/
def PublishesInTime (s : StoreState) : Schedule → Prop
  | .step i a => ∀ target ∈ (s.next i).bind readyTarget,
      a.fault = none ∧ replacedBy (s.world.pending target.1) target.2 = false
  | _ => True

instance (s : StoreState) : (act : Schedule) → Decidable (PublishesInTime s act)
  | .spawn _ => .isTrue trivial
  | .step i a => inferInstanceAs (Decidable
      (∀ target ∈ (s.next i).bind readyTarget, a.fault = none ∧
        replacedBy (s.world.pending target.1) target.2 = false))
  | .ambient _ => .isTrue trivial

theorem publishesTurns_of_inTime (s : StoreState) (act : Schedule)
    (h : PublishesInTime s act) : PublishesTurns s act := by
  rintro i a sid job prog reply rfl - hnext -
  refine h (job.conversationKey, job.jobId) ?_
  rw [hnext]
  rfl

/-- A question is deferred, and its worker has got its answer. -/
def answeredJobSchedule : List Schedule :=
  acceptedSchedule 0 (utter 1 "что такое кит") ++
  [.spawn (.work 0 (workedJob 0 0 (utter 1 "что такое кит"))), .step 1 .ok,
    .step 1 .ok, .step 1 .ok, .step 1 .ok, .step 1 (.replies ['a'])]

theorem turns_published_in_time :
    let key := (utter 1 "что такое кит").conversationKey
    ∃ s, (storeMachine .default anyAnswer).Reachable PublishesTurns World.empty s ∧
      (1, ⟨.user, "что такое кит".toList⟩) ∈ signedTurns key s.log ∧
      TurnsPublished s := by
  intro key
  let turn : ConversationTurn := ⟨.user, "что такое кит".toList⟩
  have hrun : ((storeMachine .default anyAnswer).runFrom PublishesInTime
      (initial World.empty) (answeredJobSchedule ++ [.step 1 .ok, .step 1 .ok,
        .step 1 .ok])).map (fun s =>
          decide ((1, turn) ∈ signedTurns key s.log)) = some true := by
    decide +kernel
  obtain ⟨s, hs, hmem⟩ := Option.map_eq_some_iff.mp hrun
  have hreach := (reachable_runFrom .start hs).mono publishesTurns_of_inTime
  exact ⟨s, hreach, of_decide_eq_true hmem, (turns_published_iff hreach).1⟩

/-- The call has stored a reply. -/
def stored : Event CallSig PyException → Bool
  | ⟨_, .pending (.markReady ..), .ok (some _)⟩ => true
  | _ => false

/-- While the model writes the answer of the first question, its record expires
and a second question is deferred. -/
theorem turns_of_stale_answer :
    ∃ s, (storeMachine .default anyAnswer).Reachable Any World.empty s ∧
      ¬TurnsPublished s := by
  let M := storeMachine .default anyAnswer
  let key := (utter 1 "что такое кит").conversationKey
  let job := workedJob 0 0 (utter 1 "что такое кит")
  let turn : ConversationTurn := ⟨.user, "что такое кит".toList⟩
  have hrun : (M.runFrom Any (initial World.empty)
      (answeredJobSchedule ++ [.ambient (.pending key)] ++
        deferringSchedule 2 (utter 2 "что такое слон") ++
        [.step 1 .ok, .step 1 .ok, .step 1 .ok])).map (fun s =>
          (s.threads[1]?.map Thread.label, s.next 1,
            decide ((1, turn) ∈ signedTurns key s.log), s.log.any stored)) =
      some (some (.work 0 job), some (.port (.ack 0)), true, false) := by
    decide +kernel
  obtain ⟨s, hs, hobs⟩ := Option.map_eq_some_iff.mp hrun
  simp only [Prod.mk.injEq, decide_eq_true_eq] at hobs
  obtain ⟨hlabel, hnext, hmem, hstored⟩ := hobs
  obtain ⟨⟨_, prog⟩, hth, rfl⟩ := Option.map_eq_some_iff.mp hlabel
  refine ⟨s, reachable_runFrom .start hs, fun hpublished => ?_⟩
  rcases hpublished 1 0 job prog hth key turn hmem with
    (⟨key', turn', h⟩ | ⟨job', reply, h⟩) | ⟨reply, hlog, -⟩
  · rw [hnext] at h
    cases h
  · rw [hnext] at h
    cases h
  · rw [List.any_eq_false] at hstored
    exact hstored _ hlog rfl

end AliceSkill
