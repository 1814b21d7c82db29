import AliceSkill.Concurrent.Leases
import AliceSkill.Services.Effort

/-!
# The work of a run

However requests and executions are interleaved, each of them issues a bounded
number of commands and asks the model a bounded number of times, and nothing
that happens to a job ends the loop of its worker.
-/

namespace AliceSkill

open Text Effects Program Machine ConversationService RedisStreamQueue
  RedisPendingReplyStore

/-! ## Commands and calls of the model -/

/-- The price of a command. -/
def Command.effort (command model : ℕ) : Command → ℕ
  | .port (.generateReply ..) => model
  | _ => command

/-- The command asks the model. -/
def Command.asksModel : Command → Bool
  | .port (.generateReply ..) => true
  | _ => false

section Implement

variable {command model : ℕ}

theorem atMost_issue {c : Command} {n : ℕ} (h : c.effort command model ≤ n) :
    (issue c).AtMost (Command.effort command model) n :=
  atMost_perform h

/-- A method of the pending store reads once and writes once at most. -/
theorem atMost_method_bind {self : PendingCall} {cmd : KvCommand} {α : Type}
    {f : cmd.Res → StoreCode α}
    (hf : ∀ r, (f r).AtMost (Command.effort command model) command) :
    ((issue (.kv self cmd)).bind f).AtMost (Command.effort command model)
      (2 * command) := by
  rw [Nat.two_mul]
  exact (atMost_issue (Nat.le_refl _)).bind hf

theorem atMost_implement (c : Call) :
    (implement c).AtMost (Command.effort command model)
      (c.effort command model) := by
  cases c with
  | port c =>
      refine atMost_issue ?_
      cases c <;> exact Nat.le_refl _
  | pending c =>
      cases c with
      | getPending key => exact atMost_issue (Nat.le_refl _)
      | startPending key job =>
          refine atMost_method_bind fun created => ?_
          split
          · trivial
          · refine ((atMost_issue (Nat.le_refl _)).bind (m := 0)
              fun existing => ?_)
            rcases existing <;> trivial
      | markReady key jobId replyText replyTts tailText mode request =>
          refine atMost_method_bind fun current => ?_
          split
          · trivial
          · exact (atMost_issue (Nat.le_refl _)).bind (m := 0) fun _ => trivial
      | markFailed key jobId errorMessage =>
          refine atMost_method_bind fun current => ?_
          split
          · trivial
          · exact atMost_issue (Nat.le_refl _)
      | markDelivered key jobId =>
          refine atMost_method_bind fun current => ?_
          rcases current with _ | current
          · trivial
          · simp only
            split
            · trivial
            · exact atMost_issue (Nat.le_refl _)
      | clearPending key jobId =>
          rcases jobId with _ | jobId
          · exact (atMost_issue (Nat.le_refl _)).mono (by
              simp only [Call.effort, Command.effort]
              omega)
          · refine atMost_method_bind fun current => ?_
            rcases current with _ | current
            · trivial
            · simp only
              split
              · trivial
              · exact atMost_issue (Nat.le_refl _)

end Implement

/-! ## Whole runs -/

/-- The commands a thread may issue. -/
def Task.commands : Task → ℕ
  | .request _ => 15
  | .work .. => 21

/-- The calls of the model among them. -/
def Task.modelCalls : Task → ℕ
  | .request _ => 1
  | .work .. => 4

theorem atMost_body (cfg : Settings) (command model n : ℕ) (task : Task)
    (hrequest : ∀ payload, task = .request payload → 14 * command + model ≤ n)
    (hwork : ∀ i job, task = .work i job → 17 * command + 4 * model ≤ n) :
    ((task.body cfg).interp implement).AtMost (Command.effort command model) n := by
  have hcalls : (task.body cfg).AtMost (Call.effort command model) n := by
    cases task with
    | request payload =>
        exact atMost_bind (atMost_handle cfg) (m := 0) (fun _ => trivial)
          (hrequest payload rfl)
    | work i job =>
        exact atMost_bind (atMost_workJob cfg) (m := 0) (fun _ => trivial)
          (hwork i job rfl)
  exact hcalls.interp atMost_implement

theorem effort_one_one (op : Command) : op.effort 1 1 = 1 := by
  unfold Command.effort
  split <;> rfl

theorem effort_zero_one (op : Command) :
    op.effort 0 1 = if op.asksModel = true then 1 else 0 := by
  unfold Command.effort Command.asksModel
  split <;> rfl

variable {log : List (Event CommandSig PyException)}

/-- Prices of one each count the commands. -/
theorem sum_effort_one_one :
    (log.map fun e => Command.effort 1 1 e.op).sum = log.length := by
  induction log with
  | nil => rfl
  | cons e log ih =>
      rw [List.map_cons, List.sum_cons, ih, effort_one_one, List.length_cons,
        Nat.add_comm]

/-- A price for the model alone counts the calls of the model. -/
theorem sum_effort_zero_one :
    (log.map fun e => Command.effort 0 1 e.op).sum =
      log.countP fun e => Command.asksModel e.op := by
  induction log with
  | nil => rfl
  | cons e log ih =>
      rw [List.map_cons, List.sum_cons, ih, effort_zero_one, List.countP_cons,
        Nat.add_comm]

/-- The work of a run is bounded by the threads that have been started: by
fifteen commands for a request, one of them to the model, and by twenty-one for
an execution, four of them to the model. -/
theorem run_effort {cfg : Settings} {permits : Answer → Command → Prop}
    {w : World} {s : RedisState}
    (hs : (redisMachine cfg permits).Reachable Any w s) :
    (∀ (i : ℕ) (th : Thread CommandSig PyException Task
        (Option AliceWebhookResponse)), s.threads[i]? = some th →
      (s.log.filter fun e => e.tid = i).length ≤ th.label.commands ∧
      ((s.log.filter fun e => e.tid = i).countP fun e =>
        Command.asksModel e.op) ≤ th.label.modelCalls) ∧
    s.log.length ≤ (s.threads.map fun th => th.label.commands).sum ∧
    (s.log.countP fun e => Command.asksModel e.op) ≤
      (s.threads.map fun th => th.label.modelCalls).sum := by
  have hcommands : ∀ task : Task, ((task.body cfg).interp implement).AtMost
      (Command.effort 1 1) task.commands := by
    intro task
    refine atMost_body cfg 1 1 _ task ?_ ?_
    · rintro payload rfl
      exact Nat.le_refl _
    · rintro i job rfl
      exact Nat.le_refl _
  have hmodel : ∀ task : Task, ((task.body cfg).interp implement).AtMost
      (Command.effort 0 1) task.modelCalls := by
    intro task
    refine atMost_body cfg 0 1 _ task ?_ ?_
    · rintro payload rfl
      exact Nat.le_refl _
    · rintro i job rfl
      exact Nat.le_refl _
  refine ⟨fun i th hth => ⟨?_, ?_⟩, ?_, ?_⟩
  · rw [← sum_effort_one_one]
    exact (hs.spent_le hcommands i th hth).1
  · rw [← sum_effort_zero_one]
    exact (hs.spent_le hmodel i th hth).1
  · rw [← sum_effort_one_one]
    exact hs.cost_le hcommands
  · rw [← sum_effort_zero_one]
    exact hs.cost_le hmodel

theorem accepted_question_effort :
    ∃ s : RedisState, s.threads.length = 1 ∧ s.log.length = 8 ∧
      (s.log.countP fun e => Command.asksModel e.op) ≤
        (s.threads.map fun th => th.label.modelCalls).sum := by
  have hrun : ((redisMachine .default anyAnswer).runFrom Any (initial World.empty)
      (acceptedSchedule 0 (utter 1 "что такое кит"))).map (fun s =>
        (s.threads.length, s.log.length)) = some (1, 8) := by
    decide +kernel
  obtain ⟨s, hs, hobs⟩ := Option.map_eq_some_iff.mp hrun
  rw [Prod.mk.injEq] at hobs
  exact ⟨s, hobs.1, hobs.2, (run_effort (reachable_runFrom .start hs)).2.2⟩

/-! ## What ends a worker -/

/-- The exception that the last command on the queue has raised. -/
def complaints : Protocol ProcessSig PyException (Option PyException) where
  may _ _ := True
  possible _ op x :=
    match op, x with
    | .inr .xgroupCreate, .ok (.error exc) => "BUSYGROUP".toList <:+: exc
    | _, _ => True
  next _ op x :=
    match op, x with
    | .inr _, .error e => some e
    | _, _ => none

/-- An exception is one that the queue has raised. -/
def Complains {α : Type} (r : Except PyException α) (q : Option PyException) :
    Prop :=
  ∀ e, r = .error e → q = some e

section Complaints

variable {cfg : Settings} {q : Option PyException} {α : Type}

theorem complains_ok (a : α) : Complains (.ok a) q := by
  intro e h
  cases h

/-- The commands of a program that never raises. -/
theorem complains_lift {p : StoreCode α} (hp : p.Returns) :
    (p.lift QueueSig).Follows complaints q fun r q' => Complains r q' := by
  induction p generalizing q with
  | ret a => exact complains_ok a
  | raise e => exact hp.elim
  | call op k ih => exact ⟨trivial, fun x _ => ih x (hp x)⟩

theorem complains_bind {β : Type} {p : ProcessCode α} {f : α → ProcessCode β}
    (hp : p.Follows complaints q fun r q' => Complains r q')
    (hf : ∀ a q', (f a).Follows complaints q' fun r q'' => Complains r q'') :
    (p.bind f).Follows complaints q fun r q' => Complains r q' := by
  refine follows_bind.mpr (hp.mono fun r q' h => ?_)
  rcases r with e | a
  · intro e' he'
    cases he'
    exact h e rfl
  · exact hf a q'

/-- A command on the queue complains itself. -/
theorem complains_queue {c : QueueCall} :
    (queue c).Follows complaints q fun r q' => Complains r q' := by
  refine follows_perform.mpr ⟨trivial, fun x _ => ?_⟩
  rcases x with e | a
  · intro e' he'
    cases he'
    rfl
  · exact complains_ok a

theorem complains_ensureGroup :
    ensureGroup.Follows complaints q fun r q' => Complains r q' := by
  rw [ensureGroup, Program.bind_eq, follows_bind]
  refine follows_perform.mpr ⟨trivial, fun x hx => ?_⟩
  rcases x with e | exc | ⟨⟩
  · intro e' he'
    cases he'
    rfl
  · have hbusy : "BUSYGROUP".toList <:+: exc := hx
    simp only [if_pos hbusy]
    exact complains_ok ()
  · exact complains_ok ()

theorem complains_workJobs (jobs : List DeferredJob) :
    (workJobs cfg jobs).Follows complaints q fun r q' => Complains r q' := by
  induction jobs generalizing q with
  | nil => exact complains_ok ()
  | cons job jobs ih =>
      exact complains_bind
        (complains_lift ((returns_workJob cfg).interp implement)) fun _ _ => ih

theorem complains_workBatch (items : Batch) :
    (workBatch cfg items).Follows complaints q fun r q' => Complains r q' := by
  unfold workBatch
  split
  · exact complains_queue
  · exact complains_workJobs _

theorem complains_workerRound (consumerName : Str) :
    (workerRound cfg consumerName).Follows complaints q
      fun r q' => Complains r q' := by
  rw [workerRound_eq]
  refine complains_bind complains_queue fun reclaimed q' => ?_
  split
  · exact complains_workBatch _
  · refine complains_bind complains_queue fun records q'' => ?_
    rcases records with _ | ⟨items, rest⟩
    · exact complains_queue
    · exact complains_workBatch _

theorem complains_workerLoop (consumerName : Str) (n : ℕ) :
    (workerLoop cfg consumerName n).Follows complaints q
      fun r q' => Complains r q' := by
  induction n generalizing q with
  | zero => exact complains_ok ()
  | succ n ih => exact complains_bind (complains_workerRound _) fun _ _ => ih

end Complaints

/-- How the threads of each role may end. -/
def Role.Ends : Role → Except PyException (Option AliceWebhookResponse) →
    Option PyException → Prop
  | worker .., r, q => Complains r q
  | _, _, _ => True

theorem follows_complaints {α : Type} (p : StoreCode α) (q : Option PyException) :
    (p.lift QueueSig).Follows complaints q fun _ _ => True := by
  induction p generalizing q with
  | ret a => trivial
  | raise e => trivial
  | call op k ih => exact ⟨trivial, fun x _ => ih x _⟩

theorem complaints_body (cfg : Settings) (role : Role) :
    (role.body cfg).Follows complaints none role.Ends := by
  cases role with
  | start =>
      refine follows_bind.mpr (complains_ensureGroup.mono fun r q _ => ?_)
      rcases r <;> trivial
  | request payload => exact follows_complaints _ none
  | worker consumerName rounds =>
      exact complains_bind complains_ensureGroup fun _ _ =>
        complains_bind (complains_workerLoop consumerName rounds) fun _ _ =>
          complains_ok none

/-- The last command of the thread was on the queue and raised `e`. -/
def QueueRaised (log : List (Event ProcessSig PyException)) (tid : ℕ)
    (e : PyException) : Prop :=
  ∃ c : QueueCall, (log.find? fun ev => ev.tid = tid) =
    some ⟨tid, .inr c, Except.error (α := c.Res) e⟩

theorem possible_exec (cfg : Settings) (a : ProcessAnswer) (op : ProcessSig.Op)
    (s : Server) (q : Option PyException) :
    complaints.possible q op (execProcess cfg a op s).1 := by
  rcases op with op | c
  · trivial
  · cases c with
    | xgroupCreate =>
        simp only [execProcess, QueueCall.exec]
        cases a.answer.fault with
        | some e => trivial
        | none =>
            cases s.group with
            | none => trivial
            | some g =>
                change "BUSYGROUP".toList <:+:
                  "BUSYGROUP Consumer Group name already exists".toList
                decide
    | _ => trivial

/-- Nothing that happens to a job ends the loop of a worker: a worker that has
raised was stopped by a command on the queue. -/
theorem worker_stopped_by_queue {cfg : Settings}
    {permits : Answer → Command → Prop} {w : World} {now : ℕ} {s : PoolState}
    (hs : (poolMachine cfg permits).Reachable Any (.initial w now) s)
    {tid rounds : ℕ} {consumerName : Str} {e : PyException}
    (hth : s.threads[tid]? = some ⟨.worker consumerName rounds, .raise e⟩) :
    QueueRaised s.log tid e := by
  have hrun := hs.phases (complaints_body cfg)
    (I := fun s ph => ∀ tid e, ph tid = some e → QueueRaised s.log tid e)
    (fun _ => none) ?_ ?_ ?_ ?_
  · obtain ⟨ph, hI, hfollows⟩ := hrun
    exact hI tid e (hfollows tid _ hth e rfl)
  · intro tid e h
    cases h
  · intro s ph role _ _ _ _ hI tid e h
    rcases update_cases h with ⟨-, hnew⟩ | ⟨-, hold⟩
    · cases hnew
    · exact hI tid e hold
  · intro s ph tid role op k a _ _ _ _ _ _ hI
    refine ⟨possible_exec cfg a op s.world _, fun _ tid' e h => ?_⟩
    rcases update_cases h with ⟨rfl, hnew⟩ | ⟨hne, hold⟩
    · rcases op with op | c
      · cases hnew
      · refine ⟨c, ?_⟩
        simp only [afterCall]
        rw [List.find?_cons_of_pos (by simp)]
        cases hx : (execProcess cfg a (.inr c) s.world).1 with
        | ok r =>
            rw [hx] at hnew
            cases hnew
        | error e' =>
            rw [hx] at hnew
            cases hnew
            rfl
    · obtain ⟨c, hc⟩ := hI tid' e hold
      refine ⟨c, ?_⟩
      rw [afterCall, List.find?_cons_of_neg]
      · exact hc
      · simp [Ne.symm hne]
  · intro s ph e _ _ hI
    exact hI

/-- Redis does not answer the first poll of a worker. -/
theorem unanswered_poll_stops_worker :
    ∃ s : PoolState, QueueRaised s.log 0 ⟨.other, none⟩ := by
  have hrun : ((poolMachine .default anyAnswer).runFrom Any
      (initial (.initial World.empty 0))
      [.spawn (.worker "host".toList 1), .step 0 ⟨.ok, false⟩,
        .step 0 ⟨.fails ⟨.other, none⟩, true⟩]).map (fun s =>
        s.threads.map fun th => (th.label, th.prog.raised)) =
      some [(.worker "host".toList 1, some ⟨.other, none⟩)] := by
    decide +kernel
  obtain ⟨s, hs, hobs⟩ := Option.map_eq_some_iff.mp hrun
  obtain ⟨th, hth, hlabel⟩ := List.map_eq_singleton_iff.mp hobs
  rw [Prod.mk.injEq] at hlabel
  obtain ⟨label, prog⟩ := th
  obtain ⟨rfl, hraised⟩ := hlabel
  have hprog : prog = .raise ⟨.other, none⟩ := eq_raise hraised
  rw [hprog] at hth
  exact ⟨s, worker_stopped_by_queue (reachable_runFrom .start hs)
    (by rw [hth]; rfl)⟩

end AliceSkill
