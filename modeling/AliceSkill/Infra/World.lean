import AliceSkill.Effects.Sequential
import AliceSkill.Infra.Stores
import AliceSkill.Services.Reply

/-!
# The state behind the ports

What Redis holds and what each command does to it.  `execCommand` executes
single commands; `execCall` executes a whole call of the service at once, a
method of the pending store being run without interruption.

The environment decides, for every call, whether it raises without taking
effect, what text the model produced and what the clock shows.
-/

namespace AliceSkill

open Text Effects

/-- The settings of `config.py` that the modelled code reads, with the Unicode
database of the interpreter. -/
structure Settings where
  unicode : UnicodeData
  webhookSecret : Option Str
  rateLimitPerMinute : ℤ
  openaiTimeoutSeconds : ℚ
  sessionTurnLimit : ℤ
  workerJobTimeoutSeconds : ℚ

/-- The defaults of `config.py`. -/
def Settings.default : Settings where
  unicode := .cyrillic
  webhookSecret := none
  rateLimitPerMinute := 30
  openaiTimeoutSeconds := 11 / 5
  sessionTurnLimit := 24
  workerJobTimeoutSeconds := 20

/-- An entry of the job stream. -/
structure StreamEntry where
  job : DeferredJob
  acked : Bool
  deriving DecidableEq

/-- Acknowledging an entry leaves the jobs of all entries alone. -/
theorem job_of_modify {stream : List StreamEntry} {i : StreamId}
    {e : StreamEntry}
    (he : e ∈ stream.modify i fun e => { e with acked := true }) :
    ∃ e' ∈ stream, e.job = e'.job := by
  obtain ⟨k, hk⟩ := List.mem_iff_getElem?.mp he
  rw [List.getElem?_modify] at hk
  obtain ⟨e', he', rfl⟩ := Option.map_eq_some_iff.mp hk
  refine ⟨e', List.mem_of_getElem? he', ?_⟩
  split <;> rfl

/-- Contents of the stores.  Each kind of key has its own prefix, so the kinds
are separate maps. -/
structure World where
  idempotency : Str → Option CachedDict
  pending : Str → Option PendingReply
  history : Str → List ConversationTurn
  /-- The stream; the id of an entry is its index. -/
  stream : List StreamEntry
  rateCount : Str → ℕ
  /-- The next id `uuid4` draws. -/
  nextId : JobId

namespace World

def empty : World where
  idempotency _ := none
  pending _ := none
  history _ := []
  stream := []
  rateCount _ := 0
  nextId := 0

/-- Change one key of a map. -/
def updateAt {α : Type} (f : Str → α) (key : Str) (a : α) : Str → α :=
  fun k => if k = key then a else f k

@[simp] theorem updateAt_same {α : Type} (f : Str → α) (key : Str) (a : α) :
    updateAt f key a key = a := by
  simp [updateAt]

theorem updateAt_ne {α : Type} (f : Str → α) {key k : Str} (a : α)
    (h : k ≠ key) : updateAt f key a k = f k := by
  simp [updateAt, h]

def setPending (w : World) (key : Str) (r : Option PendingReply) : World :=
  { w with pending := updateAt w.pending key r }

@[simp] theorem setPending_pending_same (w : World) (key : Str)
    (r : Option PendingReply) : (w.setPending key r).pending key = r := by
  simp [setPending]

theorem setPending_pending_ne (w : World) {key k : Str}
    (r : Option PendingReply) (h : k ≠ key) :
    (w.setPending key r).pending k = w.pending k := by
  simp [setPending, updateAt_ne _ _ h]

@[simp] theorem setPending_setPending (w : World) (key : Str)
    (r r' : Option PendingReply) :
    (w.setPending key r).setPending key r' = w.setPending key r' := by
  simp only [setPending, World.mk.injEq, true_and, and_true]
  funext k
  by_cases hk : k = key
  · simp [hk]
  · simp [updateAt_ne _ _ hk]

@[simp] theorem setPending_idempotency (w : World) (key : Str)
    (r : Option PendingReply) :
    (w.setPending key r).idempotency = w.idempotency := rfl

@[simp] theorem setPending_history (w : World) (key : Str)
    (r : Option PendingReply) :
    (w.setPending key r).history = w.history := rfl

@[simp] theorem setPending_stream (w : World) (key : Str)
    (r : Option PendingReply) :
    (w.setPending key r).stream = w.stream := rfl

@[simp] theorem setPending_nextId (w : World) (key : Str)
    (r : Option PendingReply) :
    (w.setPending key r).nextId = w.nextId := rfl

end World

/-- The part of a Redis list that LRANGE returns and LTRIM keeps: inclusive
bounds, negative ones counted from the end. -/
def redisRange {α : Type} (start stop : ℤ) (xs : List α) : List α :=
  let n : ℤ := xs.length
  let start := if start < 0 then max 0 (n + start) else start
  let stop := min (if stop < 0 then n + stop else stop) (n - 1)
  if start > stop then []
  else (xs.drop start.toNat).take (stop - start + 1).toNat

/-- What the environment decides about one call. -/
structure Answer where
  /-- The call raises and has no effect. -/
  fault : Option PyException
  /-- The text the model produced. -/
  rawText : Str
  /-- The reading of the clock, in seconds. -/
  now : ℚ
  deriving DecidableEq

namespace Answer

/-- The call succeeds. -/
def ok : Answer := ⟨none, [], 0⟩

/-- The call raises. -/
def fails (e : PyException) : Answer := ⟨some e, [], 0⟩

/-- The model answers with a text. -/
def replies (t : Str) : Answer := ⟨none, t, 0⟩

end Answer

namespace KvCommand

/-- What a command returns. -/
def reply (w : World) : (cmd : KvCommand) → cmd.Res
  | get key => w.pending key
  | set .. => ()
  | setNx key _ => (w.pending key).isNone
  | delete _ => ()

/-- What a command does. -/
def apply (w : World) : KvCommand → World
  | get _ => w
  | set key value => w.setPending key (some value)
  | setNx key value =>
      if (w.pending key).isNone then w.setPending key (some value) else w
  | delete key => w.setPending key none

end KvCommand

namespace PortCall

/-- A call on one of the other ports, when it does not fail. -/
def exec (cfg : Settings) (a : Answer) :
    (c : PortCall) → World → Except PyException c.Res × World
  | getCachedResponse key, w => (.ok (w.idempotency key), w)
  | storeResponse key response, w =>
      let idempotency := World.updateAt w.idempotency key (some response)
      (.ok (), { w with idempotency := idempotency })
  | getHistory key, w => (.ok (redisRange 0 (-1) (w.history key)), w)
  | appendTurn key turn, w =>
      let turns := w.history key ++ [turn]
      let kept := redisRange (-cfg.sessionTurnLimit) (-1) turns
      (.ok (), { w with history := World.updateAt w.history key kept })
  | generateReply .., w => (.ok (prepareLlmReply a.rawText), w)
  | enqueue job, w =>
      (.ok (), { w with stream := w.stream ++ [⟨job, false⟩] })
  | ack streamId, w =>
      let stream := w.stream.modify streamId fun e => { e with acked := true }
      (.ok (), { w with stream := stream })
  | persistTurns .., w => (.ok (), w)
  | persistJobResult .., w => (.ok (), w)
  | checkRateLimit bucket, w =>
      let count := w.rateCount bucket + 1
      let w' := { w with rateCount := World.updateAt w.rateCount bucket count }
      if (count : ℤ) > cfg.rateLimitPerMinute then
        (.error ⟨.httpException 429, none⟩, w')
      else (.ok (), w')
  | uuid4, w => (.ok w.nextId, { w with nextId := w.nextId + 1 })
  | monotonic, w => (.ok a.now, w)

/-- Only the pending store touches the records. -/
@[simp] theorem exec_pending (cfg : Settings) (a : Answer) (c : PortCall)
    (w : World) : (c.exec cfg a w).2.pending = w.pending := by
  cases c <;> try rfl
  case checkRateLimit bucket =>
    simp only [exec]
    split <;> rfl

end PortCall

/-- Execution of single commands. -/
def execCommand (cfg : Settings) : Handler CommandSig PyException World Answer :=
  fun a op w =>
    match a.fault with
    | some e => (.error e, w)
    | none =>
        match op with
        | .kv _ cmd => (.ok (cmd.reply w), cmd.apply w)
        | .port c => c.exec cfg a w

section

variable {cfg : Settings} {a : Answer} {w : World}

theorem execCommand_fault {e : PyException} (h : a.fault = some e)
    (op : Command) : execCommand cfg a op w = (.error e, w) := by
  simp only [execCommand, h]

theorem execCommand_kv (h : a.fault = none) (self : PendingCall)
    (cmd : KvCommand) :
    execCommand cfg a (.kv self cmd) w = (.ok (cmd.reply w), cmd.apply w) := by
  simp only [execCommand, h]

theorem execCommand_port (h : a.fault = none) (c : PortCall) :
    execCommand cfg a (.port c) w = c.exec cfg a w := by
  simp only [execCommand, h]

end

/-- Execution of whole calls; a method of the pending store is one step. -/
def execCall (cfg : Settings) : Handler CallSig PyException World Answer :=
  fun a op w =>
    match a.fault with
    | some e => (.error e, w)
    | none =>
        match op with
        | .pending c =>
            (RedisPendingReplyStore.method c).run (execCommand cfg)
              (fun _ _ => .ok) w
        | .port c => c.exec cfg a w

end AliceSkill
