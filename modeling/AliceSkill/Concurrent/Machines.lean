import AliceSkill.Effects.Protocol
import AliceSkill.Sequential.Calls

/-!
# Handlers and workers side by side

Any number of webhook requests and worker executions share the stores.  A
stream entry is handed to a worker as long as it has not been acknowledged,
however many executions of it are already running.  Keys may expire between
any two steps.

There are two machines: one interleaves single Redis commands, the other whole
calls of the service.
-/

namespace AliceSkill

open Text Effects ConversationService

/-- What a thread is started for: a request, or a job delivered to a worker. -/
inductive Task where
  | request (payload : AliceWebhookRequest)
  | work (i : StreamId) (job : DeferredJob)
  deriving DecidableEq

namespace Task

/-- The program of a thread; a worker execution has no response. -/
def body (cfg : Settings) : Task → Service (Option AliceWebhookResponse)
  | request payload => (handle cfg payload).bind fun response => .ret (some response)
  | work _ job => (workJob cfg job).bind fun _ => .ret none

/-- Requests come at any time, jobs from entries that are not acknowledged. -/
def Admits (w : World) : Task → Prop
  | request _ => True
  | work i job =>
      match w.stream[i]? with
      | some entry => entry.acked = false ∧ job = decodeJob i entry
      | none => False

instance (w : World) : (task : Task) → Decidable (task.Admits w)
  | request _ => .isTrue trivial
  | work i job =>
      match h : w.stream[i]? with
      | some entry =>
          decidable_of_iff (entry.acked = false ∧ job = decodeJob i entry)
            (by simp [Admits, h])
      | none => .isFalse (by simp [Admits, h])

theorem admits_work {w : World} {i : StreamId} {job : DeferredJob}
    (h : (work i job).Admits w) :
    ∃ entry, w.stream[i]? = some entry ∧ entry.acked = false ∧
      job = decodeJob i entry := by
  rw [Admits] at h
  split at h
  · next entry hentry => exact ⟨entry, hentry, h⟩
  · exact h.elim

end Task

/-- A key whose time to live ends. -/
inductive Expiry where
  | pending (key : Str)
  | idempotency (key : Str)
  | history (key : Str)
  deriving DecidableEq

def World.expire (w : World) : Expiry → World
  | .pending key => w.setPending key none
  | .idempotency key =>
      { w with idempotency := updateAt w.idempotency key none }
  | .history key => { w with history := updateAt w.history key [] }

/-- Every call may fail, every text may come. -/
def anyAnswer {Op : Type} (_ : Answer) (_ : Op) : Prop := True

instance {Op : Type} (a : Answer) (op : Op) : Decidable (anyAnswer a op) :=
  .isTrue trivial

/-- Stores and queue do not fail; the model and analytics may. -/
def workingStores (a : Answer) (c : Call) : Prop := reliable c a.fault

instance (a : Answer) (c : Call) : Decidable (workingStores a c) :=
  inferInstanceAs (Decidable (a.fault = none ∨ c.mayRaise = true))

/-- Single Redis commands are interleaved. -/
@[reducible] def redisMachine (cfg : Settings) (permits : Answer → Command → Prop) :
    Machine CommandSig PyException World Answer Task
      (Option AliceWebhookResponse) Expiry where
  exec := execCommand cfg
  permits := permits
  body task := (task.body cfg).interp implement
  admits := fun w task => task.Admits w
  ambient := fun e w => w.expire e

/-- Whole calls are interleaved; methods of the pending store are atomic. -/
@[reducible] def storeMachine (cfg : Settings) (permits : Answer → Call → Prop) :
    Machine CallSig PyException World Answer Task
      (Option AliceWebhookResponse) Expiry where
  exec := execCall cfg
  permits := permits
  body task := task.body cfg
  admits := fun w task => task.Admits w
  ambient := fun e w => w.expire e

/-- States of the two machines. -/
abbrev RedisState :=
  Machine.State CommandSig PyException World Task (Option AliceWebhookResponse)

abbrev StoreState :=
  Machine.State CallSig PyException World Task (Option AliceWebhookResponse)

abbrev Schedule := Machine.Action Answer Task Expiry

/-! ## Commands under a protocol -/

section Commands

variable {Q : Type} {P : Protocol CommandSig PyException Q} {q : Q}
variable {self : PendingCall} {key : Str} {r : PendingReply}

@[simp] theorem follows_get
    {R : Except PyException (Option PendingReply) → Q → Prop} :
    (RedisPendingReplyStore.get self key).Follows P q R ↔
      P.may q (.kv self (.get key)) ∧ ∀ x,
        P.possible q (.kv self (.get key)) x →
          R x (P.next q (.kv self (.get key)) x) :=
  Program.follows_perform

@[simp] theorem follows_set {R : Except PyException Unit → Q → Prop} :
    (RedisPendingReplyStore.set self key r).Follows P q R ↔
      P.may q (.kv self (.set key r)) ∧ ∀ x,
        P.possible q (.kv self (.set key r)) x →
          R x (P.next q (.kv self (.set key r)) x) :=
  Program.follows_perform

@[simp] theorem follows_setNx {R : Except PyException Bool → Q → Prop} :
    (RedisPendingReplyStore.setNx self key r).Follows P q R ↔
      P.may q (.kv self (.setNx key r)) ∧ ∀ x,
        P.possible q (.kv self (.setNx key r)) x →
          R x (P.next q (.kv self (.setNx key r)) x) :=
  Program.follows_perform

@[simp] theorem follows_delete {R : Except PyException Unit → Q → Prop} :
    (RedisPendingReplyStore.delete self key).Follows P q R ↔
      P.may q (.kv self (.delete key)) ∧ ∀ x,
        P.possible q (.kv self (.delete key)) x →
          R x (P.next q (.kv self (.delete key)) x) :=
  Program.follows_perform

@[simp] theorem follows_port {c : PortCall}
    {R : Except PyException c.Res → Q → Prop} :
    (implement (.port c)).Follows P q R ↔ P.may q (.port c) ∧ ∀ x,
      P.possible q (.port c) x → R x (P.next q (.port c) x) :=
  Program.follows_perform

end Commands

/-! ## Operations that carry a job id -/

/-- The job id an operation is guarded by. -/
def PendingCall.guard : PendingCall → Option JobId
  | markReady _ jobId .. => some jobId
  | markFailed _ jobId _ => some jobId
  | markDelivered _ jobId => some jobId
  | clearPending _ jobId => jobId
  | _ => none

/-- The key a command works on. -/
def KvCommand.key : KvCommand → Str
  | get key => key
  | set key _ => key
  | setNx key _ => key
  | delete key => key

/-! ## Concrete runs -/

/-- A question that the model does not answer in time, up to the moment its
record has been stored. -/
def deferringSchedule (tid : ℕ) (payload : AliceWebhookRequest) :
    List Schedule :=
  [.spawn (.request payload), .step tid .ok, .step tid .ok, .step tid .ok,
    .step tid (.fails ⟨.timeoutError, none⟩), .step tid .ok, .step tid .ok]

/-- The same question up to its acknowledgement. -/
def acceptedSchedule (tid : ℕ) (payload : AliceWebhookRequest) :
    List Schedule :=
  deferringSchedule tid payload ++ [.step tid .ok, .step tid .ok]

/-- The job of a deferred question as it is delivered to a worker. -/
def workedJob (j : JobId) (i : StreamId) (payload : AliceWebhookRequest) :
    DeferredJob where
  jobId := j
  requestId := payload.requestKey
  conversationKey := payload.conversationKey
  userText := sanitizeUserText payload.utterance
  streamId := some i

end AliceSkill
