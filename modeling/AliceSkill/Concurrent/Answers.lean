import AliceSkill.Concurrent.Ownership

/-!
# What becomes of an answer

An answer that has been published is taken by a request, and once a request
has cleared it, it is gone.  Executions of one job that overlap break both:
one that fails overwrites the answer of another, and one that is late brings
back what has been consumed.
-/

namespace AliceSkill

open Text Effects Program Machine RedisPendingReplyStore ConversationService

variable {cfg : Settings} {s s' : StoreState}

/-! ## Answers and failing workers -/

/-- An answer is no longer there after the step. -/
def Lost (w w' : World) : Prop :=
  ∃ key r, w.pending key = some r ∧ r.IsAnswer ∧
    ¬∃ r', w'.pending key = some r' ∧ r'.IsAnswer ∧ r'.jobId = r.jobId

/-- The thread reports the failure of a job whose answer is there. -/
def FailsAnswer (s : StoreState) (i : ℕ) (a : Answer) : Prop :=
  a.fault = none ∧ ∃ key j m r,
    s.next i = some (.pending (.markFailed key j m)) ∧
    s.world.pending key = some r ∧ r.jobId = j ∧ r.IsAnswer

theorem not_lost_of_pending {w w' : World} (h : w'.pending = w.pending) :
    ¬Lost w w' := by
  rintro ⟨key, r, hr, hanswer, hgone⟩
  exact hgone ⟨r, by rw [h, hr], hanswer, rfl⟩

/-- Writing a record of the job that owns the key. -/
theorem lost_publish {w : World} {key : Str} {j : JobId} {r : PendingReply}
    (hj : r.jobId = j) :
    Lost w (w.publish key j r) ↔ ¬r.IsAnswer ∧
      ∃ r', w.pending key = some r' ∧ r'.jobId = j ∧ r'.IsAnswer := by
  rw [World.publish]
  rcases hown : replacedBy (w.pending key) j with _ | _
  · simp only [Bool.false_eq_true, if_false]
    constructor
    · rintro ⟨key', r', hr', hanswer, hgone⟩
      rcases eq_or_ne key' key with rfl | hne
      · have hid : r'.jobId = j := by simpa [hr', replacedBy] using hown
        refine ⟨fun h => hgone ?_, r', hr', hid, hanswer⟩
        exact ⟨r, World.setPending_pending_same _ _ _, h, hj.trans hid.symm⟩
      · refine absurd ⟨r', ?_, hanswer, rfl⟩ hgone
        rw [World.setPending_pending_ne _ _ hne]
        exact hr'
    · rintro ⟨hno, r', hr', -, hanswer⟩
      refine ⟨key, r', hr', hanswer, ?_⟩
      rintro ⟨r'', hr'', hanswer', -⟩
      rw [World.setPending_pending_same] at hr''
      cases hr''
      exact hno hanswer'
  · simp only [if_true]
    constructor
    · intro h
      exact absurd h (not_lost_of_pending rfl)
    · rintro ⟨-, r', hr', hid, -⟩
      simp [hr', replacedBy, hid] at hown

/-- A worker takes an answer away only by reporting a failure. -/
theorem lost_iff_of_works {job : DeferredJob} {op : Call} (hop : op.Works job)
    {a : Answer} {w : World} :
    Lost w (execCall cfg a op w).2 ↔ a.fault = none ∧ ∃ key j m r,
      op = .pending (.markFailed key j m) ∧ w.pending key = some r ∧
        r.jobId = j ∧ r.IsAnswer := by
  have hnever : ∀ {w' : World} {P : Prop}, w'.pending = w.pending →
      (∀ key j m, op ≠ .pending (.markFailed key j m)) →
      (Lost w w' ↔ P ∧ ∃ key j m r,
        op = .pending (.markFailed key j m) ∧ w.pending key = some r ∧
          r.jobId = j ∧ r.IsAnswer) := by
    intro w' P hw' hne
    constructor
    · intro h
      exact absurd h (not_lost_of_pending hw')
    · rintro ⟨-, key, j, m, -, hop', -⟩
      exact absurd hop' (hne key j m)
  rcases hfault : a.fault with _ | e
  · rcases op with c | c
    · rcases c with key | ⟨key, job'⟩ |
        ⟨key, j, replyText, replyTts, tailText, mode, request⟩ |
        ⟨key, j, m⟩ | ⟨key, j⟩ | ⟨key, j⟩
      · rw [execCall_getPending hfault]
        exact hnever rfl (by rintro _ _ _ ⟨⟩)
      · exact hop.elim
      · rw [execCall_markReady hfault]
        refine (lost_publish (by rfl)).trans ?_
        constructor
        · rintro ⟨hno, -⟩
          exact absurd (Or.inl rfl) hno
        · rintro ⟨-, key', j', m, r, hop', -⟩
          cases hop'
      · rw [execCall_markFailed hfault]
        refine (lost_publish (by rfl)).trans ?_
        constructor
        · rintro ⟨-, r, hr, hid, hanswer⟩
          exact ⟨rfl, key, j, m, r, rfl, hr, hid, hanswer⟩
        · rintro ⟨-, key', j', m', r, hop', hr, hid, hanswer⟩
          cases hop'
          refine ⟨?_, r, hr, hid, hanswer⟩
          rintro (h | h) <;> cases h
      · exact hop.elim
      · exact hop.elim
    · rw [execCall_port hfault]
      exact hnever (PortCall.exec_pending _ _ _ _) (by rintro _ _ _ ⟨⟩)
  · rw [execCall_fault hfault]
    constructor
    · intro h
      exact absurd h (not_lost_of_pending rfl)
    · rintro ⟨h, -⟩
      cases h

/-- What a thread may call; requests are not restricted. -/
def Task.MayCall : Task → Call → Prop
  | request _, _ => True
  | work _ job, op => op.Works job

theorem only_body (task : Task) : (task.body cfg).Only task.MayCall := by
  rcases task with payload | ⟨sid, job⟩
  · have hall : ∀ p : Service (Option AliceWebhookResponse),
        p.Only (Task.request payload).MayCall := by
      intro p
      induction p with
      | ret r => trivial
      | raise e => trivial
      | call op k ih => exact ⟨trivial, ih⟩
    exact hall _
  · exact Only.bind (only_workJob cfg job) fun _ => trivial

/-- What a worker thread calls next is a call of its job. -/
theorem works_of_next {permits : Answer → Call → Prop}
    {C : StoreState → Schedule → Prop} {w : World}
    (hs : (storeMachine cfg permits).Reachable C w s) {i : ℕ} {sid : StreamId}
    {job : DeferredJob} {op : Call}
    {k : Except PyException op.Res → Service (Option AliceWebhookResponse)}
    (hth : s.threads[i]? = some ⟨.work sid job, .call op k⟩) :
    op.Works job :=
  (hs.only only_body i _ hth).1

/-- In every run a step of a worker takes an answer away if and only if it
reports a failure of a job whose answer is there.  So no worker takes an answer
away in a run in which no execution of a job fails after another one has
published its answer. -/
theorem answer_lost_iff (cfg : Settings) {s s' : StoreState} {i : ℕ}
    {a : Answer} {sid : StreamId} {job : DeferredJob}
    {prog : Service (Option AliceWebhookResponse)}
    (hs : (storeMachine cfg anyAnswer).Reachable Any World.empty s)
    (hth : s.threads[i]? = some ⟨.work sid job, prog⟩)
    (hst : (storeMachine cfg anyAnswer).Step s (.step i a) s') :
    (Lost s.world s'.world ↔ FailsAnswer s i a) ∧
    ((∀ key j m, s.next i = some (.pending (.markFailed key j m)) →
      ¬Published s.log key j) → ¬Lost s.world s'.world) := by
  rcases step_cases hst with ⟨task, hact, -, -⟩ |
    ⟨i', a', task, op, k, hact, hth', -, rfl⟩ | ⟨e, hact, -⟩
  · cases hact
  · cases hact
    rw [hth] at hth'
    cases hth'
    have hnext : s.next i = some op := State.next_eq_some.mpr ⟨_, k, hth⟩
    have hiff : Lost s.world (execCall cfg a op s.world).2 ↔
        FailsAnswer s i a := by
      rw [lost_iff_of_works (works_of_next hs hth), FailsAnswer, hnext]
      refine and_congr_right fun _ => ?_
      simp only [Option.some.injEq]
    refine ⟨hiff, fun hearly hlost => ?_⟩
    obtain ⟨-, key, j, m, r, hfails, hr, rfl, hanswer⟩ := hiff.mp hlost
    obtain ⟨ph, htraced, -⟩ := traced_of_reachable hs
    exact hearly key r.jobId m hfails (htraced.answer hr hanswer)
  · cases hact

/-- Two executions of a job: the first has published its answer when the second
hears from the model. -/
def overlappedSchedule (payload : AliceWebhookRequest) (heard : Answer) :
    List Schedule :=
  acceptedSchedule 0 payload ++
    [.spawn (.work 0 (workedJob 0 0 payload)),
      .spawn (.work 0 (workedJob 0 0 payload)),
      .step 1 .ok, .step 2 .ok, .step 1 .ok, .step 1 .ok, .step 1 .ok,
      .step 1 (.replies ['a']), .step 1 .ok, .step 1 .ok, .step 1 .ok,
      .step 2 .ok, .step 2 .ok, .step 2 .ok, .step 2 heard]

/-- The second execution publishes its own answer over the first one. -/
theorem second_answer_loses_nothing :
    let payload := utter 1 "что такое кит"
    ∃ (s s' : StoreState) (prog : Service (Option AliceWebhookResponse))
      (r : PendingReply),
      (storeMachine .default anyAnswer).Reachable Any World.empty s ∧
      s.threads[2]? = some ⟨.work 0 (workedJob 0 0 payload), prog⟩ ∧
      s.world.pending payload.conversationKey = some r ∧ r.IsAnswer ∧
      (storeMachine .default anyAnswer).Step s (.step 2 .ok) s' ∧
      s'.world.pending payload.conversationKey ≠ some r ∧
      ¬Lost s.world s'.world := by
  intro payload
  let M := storeMachine .default anyAnswer
  let key := payload.conversationKey
  let job := workedJob 0 0 payload
  let mine := readyRecord 0 ['a'] ['a'] none .none none
  let theirs := readyRecord 0 ['b'] ['b'] none .none none
  have hrun : (M.runFrom Any (initial World.empty)
      (overlappedSchedule payload (.replies ['b']) ++
        [.step 2 .ok, .step 2 .ok])).map (fun s =>
        (s.threads[2]?.map Thread.label, s.next 2, s.world.pending key,
          (M.runFrom Any s [.step 2 .ok]).map fun s' =>
            s'.world.pending key)) =
      some (some (.work 0 job),
        some (.pending (.markReady key 0 ['b'] ['b'] none .none none)),
        some mine, some (some theirs)) := by
    decide +kernel
  obtain ⟨s, hs, hobs⟩ := Option.map_eq_some_iff.mp hrun
  simp only [Prod.mk.injEq] at hobs
  obtain ⟨hlabel, hnext, hrecord, hlater⟩ := hobs
  obtain ⟨⟨_, prog⟩, hth, rfl⟩ := Option.map_eq_some_iff.mp hlabel
  obtain ⟨s', hs', hreplaced⟩ := Option.map_eq_some_iff.mp hlater
  have hreach := reachable_runFrom .start hs
  have hst := step_of_runFrom hs'
  refine ⟨s, s', prog, mine, hreach, hth, hrecord, Or.inl rfl, hst, ?_, ?_⟩
  · rw [hreplaced]
    decide
  · rw [(answer_lost_iff .default hreach hth hst).1]
    rintro ⟨-, key', j, m, r, hfails, -⟩
    rw [hnext] at hfails
    cases hfails

/-- The execution that fails last takes the answer away. -/
theorem late_failure_overwrites :
    ∃ (s s' : StoreState) (prog : Service (Option AliceWebhookResponse))
      (job : DeferredJob),
      (storeMachine .default anyAnswer).Reachable Any World.empty s ∧
      s.threads[2]? = some ⟨.work 0 job, prog⟩ ∧
      (storeMachine .default anyAnswer).Step s (.step 2 .ok) s' ∧
      Lost s.world s'.world := by
  let M := storeMachine .default anyAnswer
  let key := (utter 1 "что такое кит").conversationKey
  let job := workedJob 0 0 (utter 1 "что такое кит")
  have hrun : (M.runFrom Any (initial World.empty)
      (overlappedSchedule (utter 1 "что такое кит")
        (.fails ⟨.timeoutError, none⟩))).map (fun s =>
        (s.threads[2]?.map Thread.label,
          (s.world.pending key).map PendingReply.status,
          (M.runFrom Any s [.step 2 .ok]).map fun s' =>
            (s'.world.pending key).map PendingReply.status)) =
      some (some (.work 0 job), some .ready, some (some .failed)) := by
    decide +kernel
  obtain ⟨s, hs, hobs⟩ := Option.map_eq_some_iff.mp hrun
  simp only [Prod.mk.injEq] at hobs
  obtain ⟨hlabel, hready, hlater⟩ := hobs
  obtain ⟨⟨_, prog⟩, hth, rfl⟩ := Option.map_eq_some_iff.mp hlabel
  obtain ⟨s', hs', hfailed⟩ := Option.map_eq_some_iff.mp hlater
  refine ⟨s, s', prog, job, reachable_runFrom .start hs, hth,
    step_of_runFrom hs', ?_⟩
  obtain ⟨r, hr, hstatus⟩ := Option.map_eq_some_iff.mp hready
  obtain ⟨r', hr', hstatus'⟩ := Option.map_eq_some_iff.mp hfailed
  refine ⟨key, r, hr, Or.inl hstatus, ?_⟩
  rintro ⟨r'', hr'', hanswer, -⟩
  rw [hr'] at hr''
  cases hr''
  rcases hanswer with h | h <;> rw [hstatus'] at h <;> cases h

/-! ## Answers that have been consumed -/

/-- The job whose answer a thread has read. -/
def readsAnswer : CallEvent → Option (Str × JobId)
  | ⟨_, .pending (.getPending key), .ok (some r)⟩ =>
      if r.IsAnswer then some (key, r.jobId) else none
  | _ => none

/-- The job whose record a thread has cleared. -/
def clears : CallEvent → Option (Str × JobId)
  | ⟨_, .pending (.clearPending key (some j)), .ok _⟩ => some (key, j)
  | _ => none

/-- A thread that read the answer of the job has cleared its record.  A request
clears an answer only after it has been spoken. -/
def Consumed : List CallEvent → Str → JobId → Prop
  | [], _, _ => False
  | e :: log, key, j => Consumed log key j ∨ clears e = some (key, j) ∧
      ∃ e' ∈ log, e'.tid = e.tid ∧ readsAnswer e' = some (key, j)

instance decidableConsumed : (log : List CallEvent) → (key : Str) →
    (j : JobId) → Decidable (Consumed log key j)
  | [], _, _ => .isFalse id
  | e :: log, key, j =>
      have : Decidable (Consumed log key j) := decidableConsumed log key j
      inferInstanceAs (Decidable (Consumed log key j ∨
        clears e = some (key, j) ∧
          ∃ e' ∈ log, e'.tid = e.tid ∧ readsAnswer e' = some (key, j)))

/-- No record has the id of a job whose answer has been consumed. -/
def NoResurrection (s : StoreState) : Prop :=
  ∀ key j, Consumed s.log key j → ∀ key' r,
    s.world.pending key' = some r → r.jobId ≠ j

/-- The job whose outcome a call writes. -/
def Call.writes : Call → Option (Str × JobId)
  | .pending (.markReady key j ..) => some (key, j)
  | .pending (.markFailed key j _) => some (key, j)
  | _ => none

/-- No outcome of a job is written to a conversation without a record after the
answer of the job has been consumed. -/
def Timely (s : StoreState) : Schedule → Prop
  | .step i a => ∀ x ∈ (s.next i).bind Call.writes,
      a.fault = none → s.world.pending x.1 = none → ¬Consumed s.log x.1 x.2
  | _ => True

instance (s : StoreState) : (act : Schedule) → Decidable (Timely s act)
  | .spawn _ => .isTrue trivial
  | .ambient _ => .isTrue trivial
  | .step i a => inferInstanceAs
      (Decidable (∀ x ∈ (s.next i).bind Call.writes, a.fault = none →
        s.world.pending x.1 = none → ¬Consumed s.log x.1 x.2))

/-- An answer that has been read is a record of the conversation. -/
theorem record_of_readsAnswer {a : Answer} {w : World} {op : Call} {tid : ℕ}
    {key : Str} {j : JobId}
    (h : readsAnswer ⟨tid, op, (execCall cfg a op w).1⟩ = some (key, j)) :
    ∃ r, w.pending key = some r ∧ r.jobId = j := by
  rcases op with c | c
  · rcases c with key' | ⟨key', job⟩ |
      ⟨key', j', replyText, replyTts, tailText, mode, request⟩ |
      ⟨key', j', m⟩ | ⟨key', j'⟩ | ⟨key', j'⟩
    · rcases getPending_cases cfg a w key' with ⟨e, hx⟩ | hx | ⟨r, hr, hx⟩
      · rw [hx] at h
        cases h
      · rw [hx] at h
        cases h
      · simp only [hx, readsAnswer] at h
        split at h
        · cases h
          exact ⟨r, hr, rfl⟩
        · cases h
    all_goals cases h
  · cases h

/-- What has been read has been used. -/
theorem used_of_reads {permits : Answer → Call → Prop}
    {C : StoreState → Schedule → Prop}
    (hs : (storeMachine cfg permits).Reachable C World.empty s) :
    ∀ e ∈ s.log, ∀ key j, readsAnswer e = some (key, j) →
      Used s.log key j := by
  refine hs.invariant (I := fun s => ∀ e ∈ s.log, ∀ key j,
    readsAnswer e = some (key, j) → Used s.log key j) ?_ ?_
  · intro e he
    cases he
  · intro s s' act hr ih _ hst e he key j hread
    rcases step_cases hst with ⟨task, -, -, rfl⟩ |
      ⟨tid, a, task, op, k, -, hth, -, rfl⟩ | ⟨exp, -, rfl⟩
    · exact ih e he key j hread
    · rcases List.mem_cons.mp he with rfl | he
      · obtain ⟨ph, htraced, -⟩ := traced_of_reachable hr
        obtain ⟨r, hrecord, rfl⟩ := record_of_readsAnswer hread
        exact (htraced.record hrecord).cons
      · exact (ih e he key j hread).cons
    · exact ih e he key j hread

theorem used_of_consumed {log : List CallEvent}
    (hread : ∀ e ∈ log, ∀ key j, readsAnswer e = some (key, j) →
      Used log key j) {key : Str} {j : JobId}
    (h : Consumed log key j) : Used log key j := by
  have hfind : ∀ l : List CallEvent, Consumed l key j →
      ∃ e ∈ l, readsAnswer e = some (key, j) := by
    intro l
    induction l with
    | nil => exact fun h => h.elim
    | cons e l ih =>
        rintro (h | ⟨-, e', he', -, hr⟩)
        · obtain ⟨e', he', hr⟩ := ih h
          exact ⟨e', List.mem_cons_of_mem _ he', hr⟩
        · exact ⟨e', List.mem_cons_of_mem _ he', hr⟩
  obtain ⟨e, he, hr⟩ := hfind log h
  exact hread e he key j hr

theorem clearPending_ne {w : World} {key : Str} {j : JobId} {r : PendingReply}
    (h : (w.clearPending key j).pending key = some r) : r.jobId ≠ j := by
  rw [World.clearPending] at h
  rcases hr : w.pending key with _ | r'
  · simp [hr] at h
  · by_cases hj : r'.jobId = j
    · simp [hr, hj] at h
    · simp only [hr, hj, if_false, Option.some.injEq] at h
      rw [← h]
      exact hj

/-- The call that clears an answer leaves no record of it. -/
theorem gone_of_clears {a : Answer} {w : World} {op : Call} {tid : ℕ}
    {key : Str} {j : JobId}
    (h : clears ⟨tid, op, (execCall cfg a op w).1⟩ = some (key, j))
    {r : PendingReply} (hr : (execCall cfg a op w).2.pending key = some r) :
    r.jobId ≠ j := by
  rcases hfault : a.fault with _ | e
  · rcases op with c | c
    · rcases c with key' | ⟨key', job⟩ |
        ⟨key', j', replyText, replyTts, tailText, mode, request⟩ |
        ⟨key', j', m⟩ | ⟨key', j'⟩ | ⟨key', _ | j'⟩
      case clearPending.some =>
        rw [execCall_clearPending hfault] at h hr
        cases h
        exact clearPending_ne hr
      all_goals cases h
    · cases h
  · rw [execCall_fault hfault] at h
    rcases op with c | c
    · rcases c with key' | ⟨key', job⟩ |
        ⟨key', j', replyText, replyTts, tailText, mode, request⟩ |
        ⟨key', j', m⟩ | ⟨key', j'⟩ | ⟨key', _ | j'⟩ <;> cases h
    · cases h

/-- In a timely run the record of a consumed answer does not come back under
its key. -/
theorem gone_of_consumed
    (hs : (storeMachine cfg anyAnswer).Reachable Timely World.empty s) :
    ∀ key j, Consumed s.log key j → ∀ r, s.world.pending key = some r →
      r.jobId ≠ j := by
  refine hs.invariant (I := fun s => ∀ key j, Consumed s.log key j → ∀ r,
    s.world.pending key = some r → r.jobId ≠ j) ?_ ?_
  · intro key j h
    exact h.elim
  · intro s s' act hr ih htimely hst key j hconsumed r hrecord
    rcases step_cases hst with ⟨task, -, -, rfl⟩ |
      ⟨tid, a, task, op, k, rfl, hth, -, rfl⟩ | ⟨e, -, rfl⟩
    · exact ih key j hconsumed r hrecord
    · rcases hconsumed with hconsumed | ⟨hclears, -⟩
      · obtain ⟨ph, htraced, hfollows⟩ := traced_of_reachable hr
        have hmay : idUse.may (ph tid) op := (hfollows tid _ hth).1
        have hnext : s.next tid = some op := State.next_eq_some.mpr ⟨_, k, hth⟩
        have hfree : ∀ {r'}, s.world.pending key = some r' → r'.jobId ≠ j :=
          fun h => ih key j hconsumed _ h
        have hwrites : ∀ {j'}, a.fault = none →
            op.writes = some (key, j') →
            replacedBy (s.world.pending key) j' = false → j' ≠ j := by
          rintro j' hfault hop hown rfl
          rcases hp : s.world.pending key with _ | r'
          · refine htimely (key, j') ?_ hfault hp hconsumed
            rw [hnext]
            exact hop
          · refine hfree hp ?_
            simpa [hp, replacedBy] using hown
        rcases record_cases hrecord with hold | ⟨hfault, hstores⟩
        · exact hfree hold
        · rcases hstores with ⟨_, job, hnone⟩ |
            ⟨_, j', replyText, replyTts, tailText, mode, request, hown⟩ |
            ⟨_, j', m, hown⟩ | ⟨_, r', hr'⟩
          · rintro rfl
            exact htraced.held_new hmay.2
              (used_of_consumed (used_of_reads hr) hconsumed)
          · exact hwrites hfault rfl hown
          · exact hwrites hfault rfl hown
          · have hne := hfree hr'
            exact hne
      · exact gone_of_clears hclears hrecord
    · have hold : s.world.pending key = some r := by
        rcases e with key' | key' | key'
        · rcases setPending_cases hrecord with hold | ⟨-, hnew⟩
          · exact hold
          · cases hnew
        · exact hrecord
        · exact hrecord
      exact ih key j hconsumed r hold

theorem noResurrection_of_timely
    (hs : (storeMachine cfg anyAnswer).Reachable Timely World.empty s) :
    NoResurrection s := by
  intro key j hconsumed key' r hr hj
  obtain ⟨ph, htraced, -⟩ := traced_of_reachable hs
  have hused := used_of_consumed (used_of_reads hs) hconsumed
  have hkey : key' = key := by
    subst hj
    exact htraced.used_key (htraced.record hr) hused
  subst hkey
  exact gone_of_consumed hs key' j hconsumed r hr hj

/-- A late outcome brings the record back. -/
theorem record_of_writes {a : Answer} {w : World} {op : Call} {key : Str}
    {j : JobId} (hop : op.writes = some (key, j)) (hfault : a.fault = none)
    (hnone : w.pending key = none) :
    ∃ r, (execCall cfg a op w).2.pending key = some r ∧ r.jobId = j := by
  have hpublish : ∀ r : PendingReply,
      (w.publish key j r).pending key = some r := by
    intro r
    simp [World.publish, replacedBy, hnone]
  rcases op with c | c
  · rcases c with key' | ⟨key', job⟩ |
      ⟨key', j', replyText, replyTts, tailText, mode, request⟩ |
      ⟨key', j', m⟩ | ⟨key', j'⟩ | ⟨key', j'⟩ <;> cases hop
    · rw [execCall_markReady hfault]
      exact ⟨_, hpublish _, rfl⟩
    · rw [execCall_markFailed hfault]
      exact ⟨_, hpublish _, rfl⟩
  · cases hop

/-- In a run in which every outcome is written in time no consumed answer comes
back, and this is exact: the step that is first late stores a record of a
consumed answer. -/
theorem no_resurrection_iff (cfg : Settings) {s : StoreState}
    (hs : (storeMachine cfg anyAnswer).Reachable Timely World.empty s) :
    NoResurrection s ∧ ∀ act s', (storeMachine cfg anyAnswer).Step s act s' →
      (NoResurrection s' ↔ Timely s act) := by
  refine ⟨noResurrection_of_timely hs, fun act s' hst => ⟨?_, ?_⟩⟩
  · intro hno
    rcases step_cases hst with ⟨task, rfl, -, rfl⟩ |
      ⟨tid, a, task, op, k, rfl, hth, -, rfl⟩ | ⟨e, rfl, rfl⟩
    · trivial
    · rintro ⟨key, j⟩ hwrites hfault hnone hconsumed
      rw [State.next_eq_some.mpr ⟨_, k, hth⟩] at hwrites
      have hback : ∃ r, (execCall cfg a op s.world).2.pending key = some r ∧
          r.jobId = j := record_of_writes hwrites hfault hnone
      obtain ⟨r, hr, hj⟩ := hback
      exact hno key j (Or.inl hconsumed) key r hr hj
    · trivial
  · intro htimely
    exact noResurrection_of_timely (.step hs htimely hst)

/-- A deferred question is answered by the only execution of its job, and the
answer is heard. -/
def consumingSchedule : List Schedule :=
  acceptedSchedule 0 (utter 1 "что такое кит") ++
  [.spawn (.work 0 (workedJob 0 0 (utter 1 "что такое кит"))),
    .step 1 .ok, .step 1 .ok, .step 1 .ok, .step 1 .ok,
    .step 1 (.replies ['a']), .step 1 .ok, .step 1 .ok, .step 1 .ok,
    .spawn (.request (utter 2 "продолжай")), .step 2 .ok, .step 2 .ok,
    .step 2 .ok, .step 2 .ok]

theorem consumed_in_time :
    ∃ s : StoreState,
      Consumed s.log (utter 1 "что такое кит").conversationKey 0 ∧
      NoResurrection s := by
  have hrun : ((storeMachine .default anyAnswer).runFrom Timely
      (initial World.empty) consumingSchedule).map (fun s =>
        decide (Consumed s.log (utter 1 "что такое кит").conversationKey 0)) =
      some true := by
    decide +kernel
  obtain ⟨s, hs, hobs⟩ := Option.map_eq_some_iff.mp hrun
  exact ⟨s, of_decide_eq_true hobs,
    (no_resurrection_iff .default (reachable_runFrom .start hs)).1⟩

/-- Two executions of a job: the answer of the first is spoken to the user before
the second publishes its own. -/
def lateSchedule : List Schedule :=
  acceptedSchedule 0 (utter 1 "что такое кит") ++
  [.spawn (.work 0 (workedJob 0 0 (utter 1 "что такое кит"))),
    .spawn (.work 0 (workedJob 0 0 (utter 1 "что такое кит"))),
    .step 1 .ok, .step 2 .ok, .step 1 .ok, .step 1 .ok, .step 1 .ok,
    .step 1 (.replies ['a']), .step 1 .ok, .step 1 .ok, .step 1 .ok,
    .spawn (.request (utter 2 "продолжай")), .step 3 .ok, .step 3 .ok,
    .step 3 .ok, .step 3 .ok,
    .step 2 .ok, .step 2 .ok, .step 2 .ok, .step 2 (.replies ['b']),
    .step 2 .ok, .step 2 .ok, .step 2 .ok]

/-- The answer that was heard is ready again. -/
theorem late_answer_resurrects :
    ∃ s, (storeMachine .default anyAnswer).Reachable Any World.empty s ∧
      ¬NoResurrection s := by
  let key := (utter 1 "что такое кит").conversationKey
  have hrun : ((storeMachine .default anyAnswer).runFrom Any
      (initial World.empty) lateSchedule).map (fun s =>
        (decide (Consumed s.log key 0),
          (s.world.pending key).map fun r => (r.status, r.jobId))) =
      some (true, some (.ready, 0)) := by
    decide +kernel
  obtain ⟨s, hs, hobs⟩ := Option.map_eq_some_iff.mp hrun
  simp only [Prod.mk.injEq, decide_eq_true_eq] at hobs
  obtain ⟨hconsumed, hready⟩ := hobs
  obtain ⟨r, hr, hid⟩ := Option.map_eq_some_iff.mp hready
  refine ⟨s, reachable_runFrom .start hs, fun hno => ?_⟩
  exact hno key 0 hconsumed key r hr (congrArg Prod.snd hid)

end AliceSkill
