import AliceSkill.Concurrent.Machines
import AliceSkill.Infra.StreamQueue

/-!
# Processes around one queue

API processes and worker processes share one Redis.  A worker process reads
from the queue, works on what it has been handed and goes on reading; an API
process serves requests once it has been started.

`Concurrent.Machines` has no queue discipline: there a job may be delivered
whenever its entry is not acknowledged.  `serves_redisMachine` is the step from
one to the other: whatever the processes do around their queue is a run of
that machine.
-/

namespace AliceSkill

open Text Effects Program Machine Streams ConversationService RedisStreamQueue

/-- What a thread of a process is started for. -/
inductive Role where
  /-- The start of an API process. -/
  | start
  | request (payload : AliceWebhookRequest)
  /-- A worker process, for a number of rounds of its loop. -/
  | worker (consumerName : Str) (rounds : ℕ)
  deriving DecidableEq

/-- What happens outside the processes. -/
inductive Passing where
  | expiry (e : Expiry)
  | tick (ms : ℕ)
  deriving DecidableEq

namespace Role

def body (cfg : Settings) : Role → ProcessCode (Option AliceWebhookResponse)
  | start => do
      ensureGroup
      return none
  | request payload =>
      (((Task.request payload).body cfg).interp implement).lift QueueSig
  | worker consumerName rounds => do
      ensureGroup
      workerLoop cfg consumerName rounds
      return none

/-- Requests are served by a process that has been started. -/
def Admits (s : Server) : Role → Prop
  | request _ => s.group.isSome = true
  | _ => True

instance (s : Server) : (role : Role) → Decidable (role.Admits s)
  | start => .isTrue trivial
  | request _ => inferInstanceAs (Decidable (s.group.isSome = true))
  | worker .. => .isTrue trivial

end Role

/-- Commands of the service are answered as before, those of the queue in any
way. -/
def processPermits (permits : Answer → Command → Prop) (a : ProcessAnswer) :
    ProcessSig.Op → Prop
  | .inl op => permits a.answer op
  | .inr _ => True

instance {permits : Answer → Command → Prop}
    [∀ a op, Decidable (permits a op)] (a : ProcessAnswer) :
    (op : ProcessSig.Op) → Decidable (processPermits permits a op)
  | .inl op => inferInstanceAs (Decidable (permits a.answer op))
  | .inr _ => .isTrue trivial

def Server.pass (s : Server) : Passing → Server
  | .expiry e => { s with world := s.world.expire e }
  | .tick ms => { s with now := s.now + ms }

@[reducible] def poolMachine (cfg : Settings) (permits : Answer → Command → Prop) :
    Machine ProcessSig PyException Server ProcessAnswer Role
      (Option AliceWebhookResponse) Passing where
  exec := execProcess cfg
  permits := processPermits permits
  body role := role.body cfg
  admits := fun s role => role.Admits s
  ambient := fun e s => s.pass e

abbrev PoolState :=
  Machine.State ProcessSig PyException Server Role (Option AliceWebhookResponse)

abbrev PoolSchedule := Machine.Action ProcessAnswer Role Passing

/-- Before any process has been started. -/
def Server.initial (w : World) (now : ℕ) : Server := ⟨w, none, now⟩

/-! ## Jobs handed over by the queue -/

/-- The execution that a message stands for. -/
def Message.task (m : Message) : Task :=
  .work m.1 { m.2 with streamId := some m.1 }

/-- The job a reply of the queue hands over. -/
def QueueCall.offer : (c : QueueCall) → Except PyException c.Res → Option Task
  | xautoclaim _, .ok items => items.1.head?.map Message.task
  | xreadgroup _, .ok (items :: _) => items.1.head?.map Message.task
  | _, _ => none

theorem batch_cases (items : Batch) :
    (items.1 = [] ∧ items.1.head? = none) ∨
      ∃ m, items.1 = [m] ∧ items.1.head? = some m := by
  obtain ⟨items, hlen⟩ := items
  match items, hlen with
  | [], _ => exact Or.inl ⟨rfl, rfl⟩
  | [m], _ => exact Or.inr ⟨m, rfl, rfl⟩

section

variable {cfg : Settings}

/-- Being served, seen from the commands of the service. -/
abbrev Served (cfg : Settings) {β : Type} (p : ProcessCode β) : Prop :=
  Serving (fun task : Task => (task.body cfg).interp implement)
    QueueCall.offer p

theorem served_ensureGroup : Served cfg ensureGroup := by
  refine Serving.call_of_none (fun _ => rfl) fun x => ?_
  rcases x with e | exc | ⟨⟩
  · exact .raise e
  · change Served cfg (if _ then _ else _)
    split
    · exact .ret ()
    · exact .raise _
  · exact .ret ()

/-- What remains of a round when the work has been done. -/
theorem workJobs_message (m : Message) :
    workJobs cfg (decodeJobs [m]) =
      ((((m.task.body cfg).interp implement).lift QueueSig).attempt).bind
        (resume fun _ => .ret ()) := by
  have hbody : m.task.body cfg =
      (workJob cfg { m.2 with streamId := some m.1 }).bind fun _ => .ret none := rfl
  rw [attempt_bind_resume, hbody, interp_bind, lift_bind, Program.bind_assoc]
  rfl

theorem head_task {items : Batch} {task : Task}
    (h : items.1.head?.map Message.task = some task) :
    ∃ m, items.1 = [m] ∧ task = Message.task m := by
  rcases batch_cases items with ⟨-, hhead⟩ | ⟨m, hitems, hhead⟩
  · rw [hhead] at h
    cases h
  · rw [hhead] at h
    exact ⟨m, hitems, (Option.some.inj h).symm⟩

/-- A round that has been handed the entries of one reply. -/
def workBatch (cfg : Settings) (items : Batch) : ProcessCode Unit :=
  if decodeJobs items.1 = [] then queue .sleep
  else workJobs cfg (decodeJobs items.1)

theorem served_sleep : Served cfg (queue .sleep) := by
  refine Serving.call_of_none (fun _ => rfl) fun x => ?_
  rcases x with e | ⟨⟩
  · exact .raise e
  · exact .ret ()

theorem workBatch_none {items : Batch}
    (h : items.1.head?.map Message.task = none) :
    workBatch cfg items = queue .sleep := by
  rcases batch_cases items with ⟨hitems, -⟩ | ⟨m, -, hhead⟩
  · rw [workBatch, hitems]
    rfl
  · rw [hhead] at h
    cases h

theorem workBatch_some {items : Batch} {task : Task}
    (h : items.1.head?.map Message.task = some task) :
    workBatch cfg items =
      ((((task.body cfg).interp implement).lift QueueSig).attempt).bind
        (resume fun _ => .ret ()) := by
  obtain ⟨m, hitems, rfl⟩ := head_task h
  rw [workBatch, hitems, ← workJobs_message]
  rfl

theorem served_resume {β γ : Type} {f : β → ProcessCode γ}
    (hf : ∀ b, Served cfg (f b)) (r : Except PyException β) :
    Served cfg (resume f r) := by
  rcases r with e | b
  · exact .raise e
  · exact hf b

/-- The second half of a round. -/
theorem served_unread (consumerName : Str) :
    Served cfg ((queue (.xreadgroup consumerName)).bind fun records =>
      match (records : List Batch) with
      | items :: _ => workBatch cfg items
      | [] => queue .sleep) := by
  refine Serving.call (T := QueueSig) (.xreadgroup consumerName) _
    (fun _ _ _ => resume fun _ => .ret ()) ?_ ?_ ?_
  · intro x hx
    rcases x with e | _ | ⟨items, rest⟩
    · exact .raise e
    · exact served_sleep
    · change Served cfg (workBatch cfg items)
      rw [workBatch_none hx]
      exact served_sleep
  · intro x task hx
    rcases x with e | _ | ⟨items, rest⟩
    · cases hx
    · cases hx
    · exact workBatch_some hx
  · intro x task hx r
    exact served_resume (fun _ => .ret ()) r

theorem workerRound_eq (consumerName : Str) :
    workerRound cfg consumerName =
      (queue (.xautoclaim consumerName)).bind fun reclaimed =>
        if reclaimed.1 ≠ [] then workBatch cfg reclaimed
        else (queue (.xreadgroup consumerName)).bind fun records =>
          match (records : List Batch) with
          | items :: _ => workBatch cfg items
          | [] => queue .sleep := by
  rw [workerRound, readGroup]
  simp only [Program.bind_eq, Program.bind_assoc]
  congr 1
  funext reclaimed
  by_cases hne : reclaimed.1 ≠ []
  · rw [if_pos hne, if_pos hne]
    rfl
  · rw [if_neg hne, if_neg hne, Program.bind_assoc]
    congr 1
    funext records
    rcases records with _ | ⟨items, rest⟩
    · rfl
    · rfl

theorem served_workerRound (consumerName : Str) :
    Served cfg (workerRound cfg consumerName) := by
  rw [workerRound_eq]
  refine Serving.call (T := QueueSig) (.xautoclaim consumerName) _
    (fun _ _ _ => resume fun _ => .ret ()) ?_ ?_ ?_
  · intro x hx
    rcases x with e | items
    · exact .raise e
    rcases batch_cases items with ⟨hitems, -⟩ | ⟨m, -, hhead⟩
    · change Served cfg (if items.1 ≠ [] then _ else _)
      rw [if_neg (not_not_intro hitems)]
      exact served_unread consumerName
    · rw [QueueCall.offer, hhead] at hx
      cases hx
  · intro x task hx
    rcases x with e | items
    · cases hx
    obtain ⟨m, hitems, -⟩ := head_task hx
    have hne : items.1 ≠ [] := by simp [hitems]
    refine Eq.trans ?_ (workBatch_some hx)
    exact if_pos hne
  · intro x task hx r
    exact served_resume (fun _ => .ret ()) r

theorem served_workerLoop (consumerName : Str) (n : ℕ) :
    Served cfg (workerLoop cfg consumerName n) := by
  induction n with
  | zero => exact .ret ()
  | succ n ih => exact (served_workerRound consumerName).bind fun _ => ih

theorem served_worker (consumerName : Str) (rounds : ℕ) :
    Served cfg ((Role.worker consumerName rounds).body cfg) :=
  served_ensureGroup.bind fun _ =>
    (served_workerLoop consumerName rounds).bind fun _ => .ret none

theorem served_start : Served cfg (Role.start.body cfg) :=
  served_ensureGroup.bind fun _ => .ret none

/-- Commands on the queue leave the stores alone. -/
theorem QueueCall.exec_world (c : QueueCall) (s : Server) :
    (c.exec cfg s).2.world = s.world := by
  cases c with
  | sleep => rfl
  | _ =>
      simp only [exec]
      split <;> rfl

theorem execProcess_queue_world (a : ProcessAnswer) (op : QueueCall) (s : Server) :
    (execProcess cfg a (.inr op) s).2.world = s.world := by
  simp only [execProcess]
  split
  · exact op.exec_world s
  · split
    · exact op.exec_world s
    · rfl

/-- A pool of processes serves the machine without a queue discipline. -/
theorem serves_redisMachine (permits : Answer → Command → Prop) :
    Serves (redisMachine cfg permits) (poolMachine cfg permits)
      ProcessAnswer.answer Server.world QueueCall.offer where
  work_res _ _ _ := rfl
  work_world _ _ _ := rfl
  work_permits _ _ h := h
  queue_world := execProcess_queue_world
  ambient e s := by
    cases e with
    | expiry e => exact Or.inr ⟨e, rfl⟩
    | tick ms => exact Or.inl rfl
  body role := by
    cases role with
    | start => exact Or.inl served_start
    | worker consumerName rounds => exact Or.inl (served_worker consumerName rounds)
    | request payload =>
        refine Or.inr ⟨.request payload, resume .ret, ?_, ?_, fun _ _ => trivial⟩
        · rw [attempt_bind_resume, bind_ret]
          rfl
        · exact served_resume fun _ => .ret _

end

end AliceSkill
