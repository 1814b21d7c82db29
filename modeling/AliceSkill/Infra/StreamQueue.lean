import AliceSkill.Effects.Serving
import AliceSkill.Entry.Points
import AliceSkill.Infra.World
import AliceSkill.Streams.Group
import Mathlib.Data.List.Infix

/-!
# The job queue and the worker loop

`RedisStreamQueue` of `infra/queue/redis_streams.py` and the loop of
`workers/deferred_worker.py` that reads from it.  The stream is the one of
`World`; the consumer group on it and the clock of the server are added here.

A command that raises may have been executed all the same, when only its reply
is lost.  This matters for the two commands that hand out entries.
-/

namespace AliceSkill

open Text Effects Streams

/-- An entry as Redis returns it: its id and its fields. -/
abbrev Message := StreamId × DeferredJob

/-- Both reading commands ask for one entry at most (`count=1`). -/
abbrev Batch := { items : List Message // items.length ≤ 1 }

/-- Commands on the consumer group, and the pause of the loop. -/
inductive QueueCall where
  | xgroupCreate
  | xautoclaim (consumerName : Str)
  | xreadgroup (consumerName : Str)
  | sleep
  deriving DecidableEq

/-- `xgroupCreate` returns the text of a `ResponseError`, if there is one. -/
@[reducible] def QueueCall.Res : QueueCall → Type
  | xgroupCreate => Except Str Unit
  | xautoclaim _ => Batch
  | xreadgroup _ => List Batch
  | sleep => Unit

@[reducible] def QueueSig : Signature := ⟨QueueCall, QueueCall.Res⟩

/-- Commands of a process: those of the service and those of its queue. -/
@[reducible] def ProcessSig : Signature := CommandSig.sum QueueSig

abbrev ProcessCode := Program ProcessSig PyException

/-- Issue one command on the queue. -/
abbrev queue (c : QueueCall) : ProcessCode c.Res :=
  @Program.perform ProcessSig _ (.inr c)

namespace RedisStreamQueue

/-- A group that exists already is left as it is. -/
def ensureGroup : ProcessCode Unit := do
  match (← queue .xgroupCreate : Except Str Unit) with
  | .ok () => return ()
  | .error exc =>
      if "BUSYGROUP".toList <:+: exc then return ()
      else .raise ⟨.other, none⟩

def decodeJobs (streamItems : List Message) : List DeferredJob :=
  streamItems.map fun item => { item.2 with streamId := some item.1 }

def readGroup (consumerName : Str) : ProcessCode (List DeferredJob) := do
  let reclaimed ← queue (.xautoclaim consumerName)
  if reclaimed.1 ≠ [] then
    return decodeJobs reclaimed.1
  else
    match (← queue (.xreadgroup consumerName) : List Batch) with
    | streamItems :: _ => return decodeJobs streamItems.1
    | [] => return []

end RedisStreamQueue

open RedisStreamQueue

/-! ## The worker process -/

/-- The jobs of one poll, one after the other. -/
def workJobs (cfg : Settings) : List DeferredJob → ProcessCode Unit
  | [] => return ()
  | job :: jobs => do
      (((workJob cfg job).interp implement).lift QueueSig)
      workJobs cfg jobs

/-- The body of `while True`. -/
def workerRound (cfg : Settings) (consumerName : Str) : ProcessCode Unit := do
  let jobs ← readGroup consumerName
  if jobs = [] then queue .sleep
  else workJobs cfg jobs

/-- Any number of rounds of the loop. -/
def workerLoop (cfg : Settings) (consumerName : Str) : ℕ → ProcessCode Unit
  | 0 => return ()
  | n + 1 => do
      workerRound cfg consumerName
      workerLoop cfg consumerName n

/-! ## The server -/

/-- `reclaim_idle_ms=int(job_timeout_seconds * 1000)`; Redis takes a negative
idle time for 0. -/
def Settings.reclaimIdleMs (cfg : Settings) : ℕ :=
  (cfg.workerJobTimeoutSeconds * 1000).floor.toNat

/-- What all processes share. -/
structure Server where
  world : World
  group : Option (ConsumerGroup Str)
  /-- The clock of the server, in milliseconds. -/
  now : ℕ

/-- What the environment decides about a command of a process. -/
structure ProcessAnswer where
  answer : Answer
  /-- A command on the queue has been executed although it raises. -/
  executed : Bool

namespace World

/-- An entry of the stream has been acknowledged. -/
def acked (w : World) (i : StreamId) : Bool :=
  match w.stream[i]? with
  | some entry => entry.acked
  | none => false

/-- The entries with the given ids. -/
def messages (w : World) (ids : List StreamId) : List Message :=
  ids.filterMap fun i => w.stream[i]?.map fun entry => (i, entry.job)

theorem length_messages_le (w : World) (ids : List StreamId) :
    (w.messages ids).length ≤ ids.length :=
  List.length_filterMap_le _ _

end World

namespace QueueCall

/-- The entry that a reclaiming command hands out. -/
def reclaimed (cfg : Settings) (s : Server) (g : ConsumerGroup Str) : Batch :=
  ⟨s.world.messages (g.claimable s.world.acked s.now cfg.reclaimIdleMs 1),
    Nat.le_trans (s.world.length_messages_le _) (List.length_take_le 1 _)⟩

/-- The entry that a reading command hands out. -/
def unread (s : Server) (g : ConsumerGroup Str) : Batch :=
  ⟨s.world.messages (g.fresh s.world.stream.length 1),
    Nat.le_trans (s.world.length_messages_le _) (by
      rw [ConsumerGroup.fresh, List.length_range']
      exact Nat.min_le_left _ _)⟩

/-- A command on the queue, when its reply arrives. -/
def exec (cfg : Settings) :
    (c : QueueCall) → Server → Except PyException c.Res × Server
  | xgroupCreate, s =>
      match s.group with
      | none =>
          (.ok (.ok ()), { s with group := some (.create s.world.stream.length) })
      | some _ =>
          (.ok (.error "BUSYGROUP Consumer Group name already exists".toList), s)
  | xautoclaim consumerName, s =>
      match s.group with
      | none => (.error ⟨.other, none⟩, s)
      | some g =>
          let g' := (g.autoclaim s.world.acked consumerName s.now
            cfg.reclaimIdleMs 1).2
          (.ok (reclaimed cfg s g), { s with group := some g' })
  | xreadgroup consumerName, s =>
      match s.group with
      | none => (.error ⟨.other, none⟩, s)
      | some g =>
          let g' := (g.read s.world.stream.length consumerName s.now 1).2
          let items := unread s g
          (.ok (if items.1 = [] then [] else [items]), { s with group := some g' })
  | sleep, s => (.ok (), s)

end QueueCall

/-- Execution of the commands of a process. -/
def execProcess (cfg : Settings) :
    Handler ProcessSig PyException Server ProcessAnswer
  | a, .inl op, s =>
      let r := execCommand cfg a.answer op s.world
      (r.1, { s with world := r.2 })
  | a, .inr op, s =>
      match a.answer.fault with
      | none => op.exec cfg s
      | some e => (.error e, if a.executed then (op.exec cfg s).2 else s)

end AliceSkill
