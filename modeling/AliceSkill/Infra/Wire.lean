import AliceSkill.Effects.Refining
import AliceSkill.Infra.Encoding
import AliceSkill.Infra.StreamQueue
import AliceSkill.Redis.Database

/-!
# The stores over one Redis database

The methods of `infra/redis/stores.py` and `infra/queue/redis_streams.py` down
to the commands they send: the keys, the texts, the times to live and what is
made of the replies.  Here a record is a text under a key, and a process also
reads its clock, for the time stamps in the texts.

A record is stamped when it is sent.  The stamps of turns and jobs are drawn a
little earlier by the code; nothing is decided on them.
-/

namespace AliceSkill

open Text Effects Program Streams

/-- Entries of the stream as Redis returns them. -/
abbrev RawBatch := { items : List (StreamId × Redis.Fields) // items.length ≤ 1 }

/-- The reply to a command on the queue, before it is decoded. -/
@[reducible] def QueueCall.Raw : QueueCall → Type
  | xgroupCreate => Except Str Unit
  | xautoclaim _ => RawBatch
  | xreadgroup _ => List RawBatch
  | sleep => Unit

/-- What a process sends: a command or a transaction, a command on the group of
the stream, a call elsewhere; or it reads its clock. -/
inductive WireCall where
  | redis (commands : List Redis.Command)
  | queue (c : QueueCall)
  | port (c : PortCall)
  | now

@[reducible] def WireCall.Res : WireCall → Type
  | redis _ => List Redis.Reply
  | queue c => c.Raw
  | port c => c.Res
  | now => Formats.Datetime

@[reducible] def WireSig : Signature := ⟨WireCall, WireCall.Res⟩

abbrev WireCode := Program WireSig PyException

namespace WireCode

/-- A reply that cannot be decoded: `ValueError`, `KeyError` or `TypeError`. -/
def decodeError : PyException := ⟨.other, none⟩

/-- The value of a reply that has been decoded. -/
def decoded {β : Type} : Option β → Except PyException β
  | some b => .ok b
  | none => .error decodeError

/-- Send commands and decode the replies. -/
def send {β : Type} (commands : List Redis.Command)
    (decode : List Redis.Reply → Option β) : WireCode β :=
  (@perform WireSig _ (.redis commands)).bind fun replies =>
    ofExcept (decoded (decode replies))

/-- Send commands with a time stamp in them. -/
def sendNow {β : Type} (commands : Formats.Datetime → List Redis.Command)
    (decode : List Redis.Reply → Option β) : WireCode β :=
  (@perform WireSig _ .now).bind fun stamp => send (commands stamp) decode

/-- The replies are not looked at. -/
def done (_ : List Redis.Reply) : Option Unit := some ()

section Stores

variable (ids : Naming) (keys : RedisSettings) (cfg : Settings)

def decodePending : List Redis.Reply → Option (Option PendingReply)
  | [.nil] => some none
  | [.text raw] => (readPending ids raw).map fun r => some r.1
  | _ => none

/-- The value of `created`. -/
def decodeCreated : List Redis.Reply → Option Bool
  | [.ok] => some true
  | [.nil] => some false
  | _ => none

/-- The commands of `RedisPendingReplyStore`. -/
def kv : (cmd : KvCommand) → WireCode cmd.Res
  | .get key => send [.get (RedisKeyspace.pending keys key)] (decodePending ids)
  | .set key value =>
      sendNow (fun updatedAt => [.set (RedisKeyspace.pending keys key)
        (pendingToJson ids value updatedAt) keys.pendingTtlSeconds false]) done
  | .setNx key value =>
      sendNow (fun updatedAt => [.set (RedisKeyspace.pending keys key)
        (pendingToJson ids value updatedAt) keys.pendingTtlSeconds true])
        decodeCreated
  | .delete key => send [.del (RedisKeyspace.pending keys key)] done

def decodeCached : List Redis.Reply → Option (Option CachedDict)
  | [.nil] => some none
  | [.text raw] => readCachedResponse raw
  | _ => none

def decodeHistory : List Redis.Reply → Option (List ConversationTurn)
  | [.list items] => (items.mapM readTurn).map fun turns => turns.map Prod.fst
  | _ => none

/-- The commands of the other stores; the remaining ports are not on Redis. -/
def port : (c : PortCall) → WireCode c.Res
  | .getCachedResponse key =>
      send [.get (RedisKeyspace.idempotency keys key)] decodeCached
  | .storeResponse key response =>
      send [.set (RedisKeyspace.idempotency keys key)
        (Formats.dumps response.toJson) keys.idempotencyTtlSeconds false] done
  | .getHistory key =>
      send [.lrange (RedisKeyspace.history keys key) 0 (-1)] decodeHistory
  | .appendTurn key turn =>
      sendNow (fun createdAt => [
        .rpush (RedisKeyspace.history keys key) (turnToJson turn createdAt),
        .ltrim (RedisKeyspace.history keys key) (-cfg.sessionTurnLimit) (-1),
        .expire (RedisKeyspace.history keys key) keys.sessionTtlSeconds]) done
  | .enqueue job =>
      sendNow (fun enqueuedAt =>
        [.xadd (RedisKeyspace.stream keys) (jobFields ids job enqueuedAt)]) done
  | .ack streamId => send [.xack (RedisKeyspace.stream keys) streamId] done
  | c => @perform WireSig _ (.port c)

/-- The entry that a reply hands over. -/
def readBatch : RawBatch → Option Batch
  | ⟨[], _⟩ => some ⟨[], Nat.zero_le _⟩
  | ⟨(i, fields) :: _, _⟩ =>
      (readJob ids fields).map fun job => ⟨[(i, job.1)], Nat.le_refl _⟩

/-- What is made of a reply of the queue. -/
def decodeQueue : (c : QueueCall) → c.Raw → Option c.Res
  | .xgroupCreate, reply => some reply
  | .xautoclaim _, items => readBatch ids items
  | .xreadgroup _, records => List.mapM (readBatch ids) records
  | .sleep, reply => some reply

/-- The commands of `RedisStreamQueue` on its group. -/
def queue (c : QueueCall) : WireCode c.Res :=
  (@perform WireSig _ (.queue c)).bind fun reply =>
    ofExcept (decoded (decodeQueue ids c reply))

/-- What a process does for a command. -/
def carry : (op : ProcessSig.Op) → WireCode (ProcessSig.Res op)
  | .inl (.kv _ cmd) => kv ids keys cmd
  | .inl (.port c) => port ids keys cfg c
  | .inr c => queue ids c

end Stores

end WireCode

/-! ## The server -/

/-- The database and what else all processes share. -/
structure FlatServer where
  database : Redis.Database
  group : Option (ConsumerGroup Str)
  nextId : JobId

/-- What the environment decides about a call of a process. -/
structure FlatAnswer where
  process : ProcessAnswer
  /-- The reading of the calendar clock. -/
  clock : Formats.Datetime

namespace FlatServer

variable (keys : RedisSettings)

/-- The items of the stream. -/
def items (s : FlatServer) : List Redis.Item :=
  match s.database.value? (RedisKeyspace.stream keys) with
  | some (.stream items) => items
  | _ => []

def acked (s : FlatServer) (i : StreamId) : Bool :=
  match (s.items keys)[i]? with
  | some item => item.acked
  | none => false

/-- The entries with the given ids. -/
def messages (s : FlatServer) (ids : List StreamId) :
    List (StreamId × Redis.Fields) :=
  ids.filterMap fun i => (s.items keys)[i]?.map fun item => (i, item.fields)

theorem length_messages_le (s : FlatServer) (ids : List StreamId) :
    (s.messages keys ids).length ≤ ids.length :=
  List.length_filterMap_le _ _

/-- The entry that a reclaiming command hands out. -/
def reclaimed (cfg : Settings) (s : FlatServer) (g : ConsumerGroup Str) :
    RawBatch :=
  ⟨s.messages keys
      (g.claimable (s.acked keys) s.database.now cfg.reclaimIdleMs 1),
    Nat.le_trans (s.length_messages_le keys _) (List.length_take_le 1 _)⟩

/-- The entry that a reading command hands out. -/
def unread (s : FlatServer) (g : ConsumerGroup Str) : RawBatch :=
  ⟨s.messages keys (g.fresh (s.items keys).length 1),
    Nat.le_trans (s.length_messages_le keys _) (by
      rw [ConsumerGroup.fresh, List.length_range']
      exact Nat.min_le_left _ _)⟩

/-- `MKSTREAM`: the stream is there from now on. -/
def withStream (s : FlatServer) : Redis.Database :=
  match s.database.find? (RedisKeyspace.stream keys) with
  | none => s.database.put (RedisKeyspace.stream keys) ⟨.stream [], none⟩
  | some _ => s.database

/-- A command on the queue, when its reply arrives. -/
def execQueue (cfg : Settings) :
    (c : QueueCall) → FlatServer → Except PyException c.Raw × FlatServer
  | .xgroupCreate, s =>
      match s.group with
      | none =>
          (.ok (.ok ()), { s with
            database := s.withStream keys
            group := some (.create (s.items keys).length) })
      | some _ =>
          (.ok (.error "BUSYGROUP Consumer Group name already exists".toList), s)
  | .xautoclaim consumerName, s =>
      match s.group with
      | none => (.error ⟨.other, none⟩, s)
      | some g =>
          let g' := (g.autoclaim (s.acked keys) consumerName s.database.now
            cfg.reclaimIdleMs 1).2
          (.ok (reclaimed keys cfg s g), { s with group := some g' })
  | .xreadgroup consumerName, s =>
      match s.group with
      | none => (.error ⟨.other, none⟩, s)
      | some g =>
          let g' := (g.read (s.items keys).length consumerName s.database.now 1).2
          let items := unread keys s g
          (.ok (if items.1 = [] then [] else [items]), { s with group := some g' })
  | .sleep, s => (.ok (), s)

/-- A call that does not go to Redis, when it does not fail. -/
def execPort (a : Answer) :
    (c : PortCall) → FlatServer → Except PyException c.Res × FlatServer
  | .generateReply .., s => (.ok (prepareLlmReply a.rawText), s)
  | .persistTurns .., s => (.ok (), s)
  | .persistJobResult .., s => (.ok (), s)
  | .uuid4, s => (.ok s.nextId, { s with nextId := s.nextId + 1 })
  | .monotonic, s => (.ok a.now, s)
  -- the stores are reached by their commands
  | _, s => (.error ⟨.other, none⟩, s)

end FlatServer

/-- Execution of what a process sends. -/
def execWire (keys : RedisSettings) (cfg : Settings) :
    Handler WireSig PyException FlatServer FlatAnswer
  | a, .redis commands, s =>
      match a.process.answer.fault with
      | some e => (.error e, s)
      | none =>
          let r := Redis.Command.runAll commands s.database
          (if .error ∈ r.1 then .error ⟨.other, none⟩ else .ok r.1,
            { s with database := r.2 })
  | a, .queue c, s =>
      match a.process.answer.fault with
      | none => s.execQueue keys cfg c
      | some e =>
          (.error e,
            if a.process.executed then (s.execQueue keys cfg c).2 else s)
  | a, .port c, s =>
      match a.process.answer.fault with
      | some e => (.error e, s)
      | none => s.execPort a.process.answer c
  | a, .now, s => (.ok a.clock, s)

end AliceSkill
