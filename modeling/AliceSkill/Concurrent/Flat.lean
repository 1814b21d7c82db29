import AliceSkill.Concurrent.Pool
import AliceSkill.Infra.Wire

/-!
# Processes over one Redis database

The processes of `Concurrent.Pool` once more, down to the commands they send:
all records are texts in one database, whose keys expire by the clock.
-/

namespace AliceSkill

open Text Effects Program Machine Streams Formats WireCode

/-- The processes; what happens outside them is that time passes. -/
@[reducible] def flatMachine (ids : Naming) (keys : RedisSettings) (cfg : Settings) :
    Machine WireSig PyException FlatServer FlatAnswer Role
      (Option AliceWebhookResponse) ℕ where
  exec := execWire keys cfg
  permits _ _ := True
  body role := (role.body cfg).interp (carry ids keys cfg)
  admits := fun s role =>
    match role with
    | .request _ => s.group.isSome = true
    | _ => True
  ambient := fun ms s => { s with database := s.database.tick ms }

instance (ids : Naming) (keys : RedisSettings) (cfg : Settings)
    (s : FlatServer) :
    (role : Role) → Decidable ((flatMachine ids keys cfg).admits s role)
  | .start => .isTrue trivial
  | .request _ => inferInstanceAs (Decidable (s.group.isSome = true))
  | .worker .. => .isTrue trivial

abbrev FlatSchedule := Machine.Action FlatAnswer Role ℕ

abbrev FlatState :=
  Machine.State WireSig PyException FlatServer Role (Option AliceWebhookResponse)

/-- An empty database. -/
def FlatServer.initial (now : ℕ) : FlatServer := ⟨.empty now, none, 0⟩

/-! ## What stands for what -/

section Standing

variable (ids : Naming)

/-- An item of the stream stands for an entry that came from `enqueue`. -/
def ItemStands (entry : StreamEntry) (item : Redis.Item) : Prop :=
  entry.job.streamId = none ∧ item.acked = entry.acked ∧
    ∃ stamp, item.fields = jobFields ids entry.job stamp

/-- An item of a history stands for a turn. -/
def TurnStands (turn : ConversationTurn) (item : Str) : Prop :=
  ∃ stamp, item = turnToJson turn stamp

/-- What is found under a key stands for what the stores hold there. -/
def StandsAt (w : World) : StoreKey → Option Redis.Entry → Prop
  | .pending key, e =>
      Option.Rel (fun r v => ∃ stamp, v = .text (pendingToJson ids r stamp))
        (w.pending key) (e.map Redis.Entry.value)
  | .idempotency key, e =>
      Option.Rel (fun response v => v = .text (dumps response.toJson))
        (w.idempotency key) (e.map Redis.Entry.value)
  | .history key, e =>
      ∃ items, e.map Redis.Entry.value = Redis.listValue items ∧
        List.Forall₂ TurnStands (w.history key) items
  | .stream, e =>
      -- the stream is kept for good
      (e.bind Redis.Entry.deadline = none) ∧
      ∃ items, Redis.Command.streamItems (e.map Redis.Entry.value) = some items ∧
        List.Forall₂ (ItemStands ids) w.stream items
  | .rateLimit _, _ => True

/-- The database stands for the stores. -/
structure Represents (keys : RedisSettings) (s : Server) (f : FlatServer) :
    Prop where
  now : s.now = f.database.now
  group : s.group = f.group
  nextId : s.world.nextId = f.nextId
  stands : ∀ key, StandsAt ids s.world key
    (f.database.find? (RedisKeyspace.text keys key))

end Standing

variable {ids : Naming} {keys : RedisSettings} {cfg : Settings}

theorem represents_initial (now : ℕ) :
    Represents ids keys (Server.initial .empty now) (FlatServer.initial now) where
  now := rfl
  group := rfl
  nextId := rfl
  stands key := by
    have hnone : (FlatServer.initial now).database.find?
        (RedisKeyspace.text keys key) = none := Redis.Database.find?_empty now
    rw [hnone]
    cases key with
    | history key => exact ⟨[], rfl, .nil⟩
    | stream => exact ⟨rfl, [], rfl, .nil⟩
    | rateLimit bucket => trivial
    | _ => exact .none

/-- Commands on one key leave the others standing. -/
theorem Represents.commands {s : Server} {f : FlatServer}
    (h : Represents ids keys s f) {key : StoreKey} {commands : List Redis.Command}
    (hkeys : ∀ c ∈ commands, c.key = RedisKeyspace.text keys key) {w' : World}
    (hid : w'.nextId = s.world.nextId)
    (hothers : ∀ k ≠ key, ∀ v, StandsAt ids s.world k v → StandsAt ids w' k v)
    (hself : StandsAt ids w' key
      ((Redis.Command.runAll commands f.database).2.find?
        (RedisKeyspace.text keys key))) :
    Represents ids keys { s with world := w' }
      { f with database := (Redis.Command.runAll commands f.database).2 } where
  now := h.now.trans (Redis.Command.runAll_now _ _).symm
  group := h.group
  nextId := hid.trans h.nextId
  stands k := by
    by_cases hk : k = key
    · rw [hk]
      exact hself
    · have hframe : (Redis.Command.runAll commands f.database).2.find?
          (RedisKeyspace.text keys k) =
            f.database.find? (RedisKeyspace.text keys k) := by
        refine Redis.Command.runAll_find?_ne _ _ fun c hc => ?_
        rw [hkeys c hc]
        exact fun heq => hk (RedisKeyspace.text_injective heq)
      change StandsAt ids w' k ((Redis.Command.runAll commands f.database).2.find? _)
      rw [hframe]
      exact hothers k hk _ (h.stands k)

/-! ## Commands on the stores -/

/-- The calls that carry out a command of a process. -/
def Shows (ids : Naming) (keys : RedisSettings) (cfg : Settings)
    (op : ProcessSig.Op) (c : WireCall) : Prop :=
  (carry ids keys cfg op).Makes c

/-- Carrying out a command over the database. -/
abbrev CarriesOut (ids : Naming) (keys : RedisSettings) (cfg : Settings)
    (op : ProcessSig.Op) (p : WireCode (ProcessSig.Res op)) : Prop :=
  Carries (poolMachine cfg anyAnswer) (flatMachine ids keys cfg)
    (Represents ids keys) (Shows ids keys cfg) op p

/-- What commands on one key do to it, against one command on the stores. -/
structure Matches (ids : Naming) (keys : RedisSettings) (cfg : Settings)
    (op : Command) (key : StoreKey) (commands : List Redis.Command)
    (decode : List Redis.Reply → Option op.Res) (w : World)
    (db : Redis.Database) (res : op.Res) (w' : World) : Prop where
  exec : ∀ a : Answer, a.fault = none → execCommand cfg a op w = (.ok res, w')
  replies : .error ∉ (Redis.Command.runAll commands db).1
  decoded : decode (Redis.Command.runAll commands db).1 = some res
  nextId : w'.nextId = w.nextId
  others : ∀ k ≠ key, ∀ v, StandsAt ids w k v → StandsAt ids w' k v
  self : StandsAt ids w' key
    ((Redis.Command.runAll commands db).2.find? (RedisKeyspace.text keys key))

/-- One command on the stores is carried out by commands on one key. -/
theorem carriesOut_send {op : Command} {commands : List Redis.Command}
    {decode : List Redis.Reply → Option op.Res} (key : StoreKey)
    (hkeys : ∀ c ∈ commands, c.key = RedisKeyspace.text keys key)
    (hshown : Shows ids keys cfg (.inl op) (.redis commands))
    (hop : ∀ w db, StandsAt ids w key (db.find? (RedisKeyspace.text keys key)) →
      ∃ res w', Matches ids keys cfg op key commands decode w db res w') :
    CarriesOut ids keys cfg (.inl op) (send commands decode) := by
  rw [send, perform, call_bind]
  refine Carries.act _ _ hshown fun a s f _ h => ?_
  refine ⟨a.process, trivial, ?_⟩
  obtain ⟨res, w', hmatch⟩ := hop s.world f.database (h.stands key)
  cases hfault : a.process.answer.fault with
  | some e =>
      simp only [execWire, execProcess, execCommand, hfault]
      exact ⟨rfl, h⟩
  | none =>
      have hexec := hmatch.exec a.process.answer hfault
      simp only [execWire, execProcess, hfault, hexec, if_neg hmatch.replies]
      refine ⟨?_, h.commands hkeys hmatch.nextId hmatch.others hmatch.self⟩
      change ofExcept (WireCode.decoded (decode _)) = _
      rw [hmatch.decoded]
      rfl

theorem carriesOut_sendNow {op : Command}
    {commands : Datetime → List Redis.Command}
    {decode : List Redis.Reply → Option op.Res}
    (h : ∀ stamp, CarriesOut ids keys cfg (.inl op) (send (commands stamp) decode)) :
    CarriesOut ids keys cfg (.inl op) (sendNow commands decode) := by
  rw [sendNow, perform, call_bind]
  exact Carries.aside _ _ (fun _ _ _ _ h => h) fun a _ _ => h a.clock

/-- Both are there, or neither is. -/
theorem rel_cases {α β : Type} {P : α → β → Prop} {a : Option α} {b : Option β}
    (h : Option.Rel P a b) :
    (a = none ∧ b = none) ∨ ∃ x y, a = some x ∧ b = some y ∧ P x y := by
  cases h with
  | none => exact Or.inl ⟨rfl, rfl⟩
  | some h => exact Or.inr ⟨_, _, rfl, rfl, h⟩

section Pending

variable {key : Str} {caller : PendingCall} {w : World} {db : Redis.Database}

theorem stands_setPending {r : Option PendingReply} {k : StoreKey}
    (hk : k ≠ .pending key) (v : Option Redis.Entry) (h : StandsAt ids w k v) :
    StandsAt ids (w.setPending key r) k v := by
  cases k with
  | pending key' =>
      have hne : key' ≠ key := fun heq => hk (congrArg _ heq)
      rw [StandsAt, World.setPending_pending_ne _ _ hne]
      exact h
  | _ => exact h

theorem stands_setPending_self {r : Option PendingReply} {e : Option Redis.Entry}
    (h : Option.Rel (fun r v => ∃ stamp, v = .text (pendingToJson ids r stamp))
      r (e.map Redis.Entry.value)) :
    StandsAt ids (w.setPending key r) (.pending key) e := by
  rw [StandsAt, World.setPending_pending_same]
  exact h

/-- A command that is issued on the record of a conversation. -/
theorem carriesOut_kv {cmd : KvCommand} {c : Redis.Command}
    {decode : List Redis.Reply → Option cmd.Res}
    (hkey : c.key = RedisKeyspace.pending keys key)
    (hshown : Shows ids keys cfg (.inl (.kv caller cmd)) (.redis [c]))
    (hreply : ∀ w db, StandsAt ids w (.pending key)
        (db.find? (RedisKeyspace.pending keys key)) →
      (c.exec db).1 ≠ .error ∧ decode [(c.exec db).1] = some (cmd.reply w) ∧
        StandsAt ids (cmd.apply w) (.pending key)
          ((c.exec db).2.find? (RedisKeyspace.pending keys key)))
    (hothers : ∀ w k, k ≠ .pending key → ∀ v, StandsAt ids w k v →
      StandsAt ids (cmd.apply w) k v) :
    CarriesOut ids keys cfg (.inl (.kv caller cmd)) (send [c] decode) := by
  refine @carriesOut_send ids keys cfg (.kv caller cmd) _ _ (.pending key) ?_
    hshown fun w db hstands => ?_
  · intro c' hc'
    rw [List.mem_singleton.mp hc']
    exact hkey
  obtain ⟨hne, hdecode, hself⟩ := hreply w db hstands
  refine ⟨cmd.reply w, cmd.apply w, fun a ha => execCommand_kv ha _ _, ?_,
    hdecode, ?_, hothers w, hself⟩
  · rw [Redis.Command.runAll_singleton, List.mem_singleton]
    exact Ne.symm hne
  · cases cmd with
    | setNx key value =>
        simp only [KvCommand.apply]
        split <;> rfl
    | _ => rfl

theorem carriesOut_get :
    CarriesOut ids keys cfg (.inl (.kv caller (.get key)))
      (carry ids keys cfg (.inl (.kv caller (.get key)))) := by
  refine carriesOut_kv rfl (Or.inl rfl) (fun w db h => ?_)
    fun _ _ _ _ h => h
  obtain ⟨hw, hv⟩ | ⟨r, v, hw, hv, stamp, rfl⟩ := rel_cases h
  · rw [Redis.Command.get_none hv]
    exact ⟨Redis.Reply.noConfusion, congrArg some hw.symm, h⟩
  · rw [Redis.Command.get_text hv]
    have hread := readPending_pendingToJson ids r stamp
    refine ⟨Redis.Reply.noConfusion, ?_, h⟩
    simp only [decodePending, hread, KvCommand.reply, hw, Option.map_some]

theorem carriesOut_set (r : PendingReply) :
    CarriesOut ids keys cfg (.inl (.kv caller (.set key r)))
      (carry ids keys cfg (.inl (.kv caller (.set key r)))) := by
  refine carriesOut_sendNow fun stamp => carriesOut_kv rfl
    (Or.inr ⟨.ok stamp, Or.inl rfl⟩) (fun w db h => ?_)
    fun w k hk v => stands_setPending hk v
  have hvalue := @Redis.Command.set_value? db
    (RedisKeyspace.pending keys key) _ (pendingToJson ids r stamp) keys.pending_pos
  rw [Redis.Database.value?] at hvalue
  rw [Redis.Command.set_reply keys.pending_pos]
  refine ⟨Redis.Reply.noConfusion, rfl, stands_setPending_self ?_⟩
  rw [hvalue]
  exact .some ⟨stamp, rfl⟩

theorem carriesOut_setNx (r : PendingReply) :
    CarriesOut ids keys cfg (.inl (.kv caller (.setNx key r)))
      (carry ids keys cfg (.inl (.kv caller (.setNx key r)))) := by
  refine carriesOut_sendNow fun stamp => carriesOut_kv rfl
    (Or.inr ⟨.ok stamp, Or.inl rfl⟩) (fun w db h => ?_) fun w k hk v h => ?_
  · have hreply := @Redis.Command.setNx_reply db (RedisKeyspace.pending keys key)
      _ (pendingToJson ids r stamp) keys.pending_pos
    have hvalue := @Redis.Command.setNx_value? db (RedisKeyspace.pending keys key)
      _ (pendingToJson ids r stamp) keys.pending_pos
    rw [hreply]
    obtain ⟨hw, hv⟩ | ⟨r', v, hw, hv, stamp', rfl⟩ := rel_cases h
    · have hnone : db.value? (RedisKeyspace.pending keys key) = none := hv
      rw [hnone, Redis.Database.value?] at hvalue
      rw [hnone]
      simp only [KvCommand.apply, KvCommand.reply, hw, Option.isNone_none]
      refine ⟨Redis.Reply.noConfusion, rfl, stands_setPending_self ?_⟩
      rw [hvalue]
      exact .some ⟨stamp, rfl⟩
    · have hsome : db.value? (RedisKeyspace.pending keys key) =
          some (.text (pendingToJson ids r' stamp')) := hv
      rw [hsome, Redis.Database.value?] at hvalue
      rw [hsome]
      simp only [KvCommand.apply, KvCommand.reply, hw, Option.isNone_some]
      refine ⟨Redis.Reply.noConfusion, rfl, ?_⟩
      change Option.Rel _ (w.pending key) (Option.map Redis.Entry.value _)
      rw [hw, hvalue]
      exact .some ⟨stamp', rfl⟩
  · simp only [KvCommand.apply]
    split
    · exact stands_setPending hk v h
    · exact h

theorem carriesOut_delete :
    CarriesOut ids keys cfg (.inl (.kv caller (.delete key)))
      (carry ids keys cfg (.inl (.kv caller (.delete key)))) := by
  refine carriesOut_kv rfl (Or.inl rfl) (fun w db h => ?_)
    fun w k hk v => stands_setPending hk v
  have hvalue := @Redis.Command.del_value? db (RedisKeyspace.pending keys key)
  rw [Redis.Database.value?] at hvalue
  refine ⟨Redis.Reply.noConfusion, rfl, stands_setPending_self ?_⟩
  rw [hvalue]
  exact .none

end Pending

/-! ## The other stores -/

section Stores

variable {key : Str}

/-- A call that a process makes elsewhere. -/
theorem carriesOut_elsewhere {c : PortCall}
    (hcarry : carry ids keys cfg (.inl (.port c)) = @perform WireSig _ (.port c))
    (hexec : ∀ (a : Answer) (w : World) (f : FlatServer), w.nextId = f.nextId →
      (f.execPort a c).1 = (c.exec cfg a w).1 ∧
      (f.execPort a c).2 = { f with nextId := (c.exec cfg a w).2.nextId } ∧
      ∀ k v, StandsAt ids w k v → StandsAt ids (c.exec cfg a w).2 k v) :
    CarriesOut ids keys cfg (.inl (.port c)) (carry ids keys cfg (.inl (.port c))) := by
  have hshown : Shows ids keys cfg (.inl (.port c)) (.port c) := by
    rw [Shows, hcarry]
    exact Or.inl rfl
  rw [hcarry, perform]
  refine Carries.act _ _ hshown fun a s f _ h => ⟨a.process, trivial, ?_⟩
  cases hfault : a.process.answer.fault with
  | some e =>
      simp only [execWire, execProcess, execCommand, hfault]
      exact ⟨rfl, h⟩
  | none =>
      obtain ⟨hres, hserver, hstands⟩ :=
        hexec a.process.answer s.world f h.nextId
      simp only [execWire, execProcess, execCommand, hfault, hres, hserver]
      constructor
      · cases (c.exec cfg a.process.answer s.world).1 <;> rfl
      · exact ⟨h.now, h.group, rfl, fun k => hstands k _ (h.stands k)⟩

/-- Turns are read back one by one. -/
theorem mapM_readTurn {turns : List ConversationTurn} {items : List Str}
    (h : List.Forall₂ TurnStands turns items) :
    ∃ stamped, items.mapM readTurn = some stamped ∧
      stamped.map Prod.fst = turns := by
  induction h with
  | nil => exact ⟨[], rfl, rfl⟩
  | @cons turn _ _ _ hturn _ ih =>
      obtain ⟨stamp, rfl⟩ := hturn
      obtain ⟨stamped, hread, hturns⟩ := ih
      refine ⟨(turn, stamp) :: stamped, ?_, ?_⟩
      · rw [List.mapM_cons, readTurn_turnToJson, hread]
        rfl
      · rw [List.map_cons, hturns]

theorem carriesOut_getCachedResponse :
    CarriesOut ids keys cfg (.inl (.port (.getCachedResponse key)))
      (carry ids keys cfg (.inl (.port (.getCachedResponse key)))) := by
  refine @carriesOut_send ids keys cfg (.port (.getCachedResponse key)) _ _
    (.idempotency key) (by simp [Redis.Command.key, RedisKeyspace.text])
    (Or.inl rfl) fun w db h => ?_
  have hsend : ∀ reply, (Redis.Command.get (RedisKeyspace.idempotency keys key)).exec
      db = (reply, db) → reply ≠ .error →
      decodeCached [reply] = some (w.idempotency key) →
      ∃ res w', Matches ids keys cfg (.port (.getCachedResponse key))
        (.idempotency key) [.get (RedisKeyspace.idempotency keys key)]
        decodeCached w db res w' := by
    intro reply hreply hne hdecode
    refine ⟨w.idempotency key, w, fun a ha => execCommand_port ha _, ?_, ?_, rfl,
      fun _ _ _ h => h, ?_⟩
    · rw [Redis.Command.runAll_singleton, hreply, List.mem_singleton]
      exact hne.symm
    · rw [Redis.Command.runAll_singleton, hreply]
      exact hdecode
    · rw [Redis.Command.runAll_singleton, hreply]
      exact h
  obtain ⟨hw, hv⟩ | ⟨response, v, hw, hv, rfl⟩ := rel_cases h
  · exact hsend _ (Redis.Command.get_none hv) Redis.Reply.noConfusion
      (congrArg some hw.symm)
  · have hread := readCachedResponse_dumps response
    refine hsend _ (Redis.Command.get_text hv) Redis.Reply.noConfusion ?_
    simp only [decodeCached, hread, hw]

theorem carriesOut_storeResponse (response : CachedDict) :
    CarriesOut ids keys cfg (.inl (.port (.storeResponse key response)))
      (carry ids keys cfg (.inl (.port (.storeResponse key response)))) := by
  refine @carriesOut_send ids keys cfg (.port (.storeResponse key response)) _ _
    (.idempotency key) (by simp [Redis.Command.key, RedisKeyspace.text])
    (Or.inl rfl) fun w db h => ?_
  refine ⟨(), _, fun a ha => execCommand_port ha _, ?_, rfl, rfl, ?_, ?_⟩
  · rw [Redis.Command.runAll_singleton, Redis.Command.set_reply
      keys.idempotency_pos, List.mem_singleton]
    exact Redis.Reply.noConfusion
  · intro k hk v hstands
    cases k with
    | idempotency key' =>
        have hne : key' ≠ key := fun heq => hk (congrArg _ heq)
        simp only [StandsAt, World.updateAt_ne _ _ hne]
        exact hstands
    | _ => exact hstands
  · have hvalue := @Redis.Command.set_value? db
      (RedisKeyspace.idempotency keys key) _ (dumps response.toJson)
      keys.idempotency_pos
    rw [Redis.Database.value?] at hvalue
    simp only [Redis.Command.runAll_singleton, StandsAt, World.updateAt_same,
      RedisKeyspace.text, hvalue]
    exact .some rfl

theorem carriesOut_getHistory :
    CarriesOut ids keys cfg (.inl (.port (.getHistory key)))
      (carry ids keys cfg (.inl (.port (.getHistory key)))) := by
  refine @carriesOut_send ids keys cfg (.port (.getHistory key)) _ _
    (.history key) (by simp [Redis.Command.key, RedisKeyspace.text])
    (Or.inl rfl) fun w db h => ?_
  obtain ⟨items, hv, hitems⟩ := h
  have hreply := Redis.lrange_of_listValue hv 0 (-1)
  obtain ⟨stamped, hread, hturns⟩ :=
    mapM_readTurn (Redis.forall₂_range hitems 0 (-1))
  refine ⟨_, w, fun a ha => execCommand_port ha _, ?_, ?_, rfl,
    fun _ _ _ h => h, ?_⟩
  · rw [Redis.Command.runAll_singleton]
    change _ ∉ [((Redis.Command.lrange (RedisKeyspace.text keys (.history key))
      0 (-1)).exec db).1]
    rw [hreply, List.mem_singleton]
    exact Redis.Reply.noConfusion
  · rw [Redis.Command.runAll_singleton]
    change decodeHistory [((Redis.Command.lrange
      (RedisKeyspace.text keys (.history key)) 0 (-1)).exec db).1] = _
    rw [hreply]
    change (List.mapM readTurn _).map _ = _
    rw [hread, Option.map_some, hturns]
    rfl
  · rw [Redis.Command.runAll_singleton]
    change StandsAt ids w _ (((Redis.Command.lrange
      (RedisKeyspace.text keys (.history key)) 0 (-1)).exec db).2.find? _)
    rw [hreply]
    exact ⟨items, hv, hitems⟩

theorem carriesOut_appendTurn (turn : ConversationTurn) :
    CarriesOut ids keys cfg (.inl (.port (.appendTurn key turn)))
      (carry ids keys cfg (.inl (.port (.appendTurn key turn)))) := by
  refine carriesOut_sendNow fun stamp => @carriesOut_send ids keys
    cfg (.port (.appendTurn key turn)) _ _ (.history key)
    (by simp [Redis.Command.key, RedisKeyspace.text])
    (Or.inr ⟨.ok stamp, Or.inl rfl⟩) fun w db h => ?_
  obtain ⟨items, hv, hitems⟩ := h
  obtain ⟨hreplies, hvalue, -⟩ := Redis.append_trim_expire hv
    (turnToJson turn stamp) (-cfg.sessionTurnLimit) (-1) keys.session_pos
  have hnew : TurnStands turn (turnToJson turn stamp) := ⟨stamp, rfl⟩
  have hadded := List.rel_append hitems (.cons hnew .nil)
  refine ⟨(), _, fun a ha => execCommand_port ha _, ?_, rfl, rfl, ?_, ?_⟩
  · exact fun hmem => hreplies _ hmem rfl
  · intro k hk v hstands
    cases k with
    | history key' =>
        have hne : key' ≠ key := fun heq => hk (congrArg _ heq)
        simp only [StandsAt, World.updateAt_ne _ _ hne]
        exact hstands
    | _ => exact hstands
  · refine ⟨_, hvalue, ?_⟩
    simp only [World.updateAt_same]
    exact Redis.forall₂_range hadded _ _

theorem carriesOut_enqueue {job : DeferredJob} (hjob : job.streamId = none) :
    CarriesOut ids keys cfg (.inl (.port (.enqueue job)))
      (carry ids keys cfg (.inl (.port (.enqueue job)))) := by
  refine carriesOut_sendNow fun stamp => @carriesOut_send ids keys
    cfg (.port (.enqueue job)) _ _ .stream
    (by simp [Redis.Command.key, RedisKeyspace.text])
    (Or.inr ⟨.ok stamp, Or.inl rfl⟩) fun w db h => ?_
  obtain ⟨hkept, items, hv, hitems⟩ := h
  obtain ⟨hreply, hfind⟩ := Redis.Command.xadd_of_streamItems hv
    (jobFields ids job stamp)
  have hnew : ItemStands ids ⟨job, false⟩ ⟨jobFields ids job stamp, false⟩ :=
    ⟨hjob, rfl, stamp, rfl⟩
  have hadded := List.rel_append hitems (.cons hnew .nil)
  refine ⟨(), _, fun a ha => execCommand_port ha _, ?_, rfl, rfl, ?_, ?_⟩
  · rw [Redis.Command.runAll_singleton, List.mem_singleton]
    exact fun heq => absurd (heq.trans hreply) Redis.Reply.noConfusion
  · intro k hk v hstands
    cases k with
    | stream => exact absurd rfl hk
    | _ => exact hstands
  · change StandsAt ids _ .stream (((Redis.Command.xadd
      (RedisKeyspace.text keys .stream) _).exec db).2.find? _)
    rw [hfind, hkept]
    exact ⟨rfl, _, rfl, hadded⟩

theorem carriesOut_ack (i : StreamId) :
    CarriesOut ids keys cfg (.inl (.port (.ack i)))
      (carry ids keys cfg (.inl (.port (.ack i)))) := by
  refine @carriesOut_send ids keys cfg (.port (.ack i)) _ _ .stream
    (by simp [Redis.Command.key, RedisKeyspace.text])
    (Or.inl rfl) fun w db h => ?_
  obtain ⟨hkept, items, hv, hitems⟩ := h
  obtain ⟨hreply, hvalue, hdeadline⟩ := Redis.Command.xack_of_streamItems (i := i) hv
  refine ⟨(), _, fun a ha => execCommand_port ha _, ?_, rfl, rfl, ?_, ?_⟩
  · rw [Redis.Command.runAll_singleton, List.mem_singleton]
    exact fun heq => hreply heq.symm
  · intro k hk v hstands
    cases k with
    | stream => exact absurd rfl hk
    | _ => exact hstands
  · refine ⟨?_, _, hvalue, Redis.forall₂_modify hitems ?_ i⟩
    · rw [Option.bind_eq_none_iff]
      intro e he
      exact (hdeadline e he).trans hkept
    · intro entry item hentry
      exact ⟨hentry.1, rfl, hentry.2.2⟩

end Stores

/-! ## Commands on the queue -/

section Queue

variable {s : Server} {f : FlatServer}

theorem FlatServer.items_of_value? {items : List Redis.Item}
    (h : Redis.Command.streamItems
      (f.database.value? (RedisKeyspace.stream keys)) = some items) :
    f.items keys = items := by
  rw [FlatServer.items]
  split
  · next items' hvalue =>
    rw [hvalue] at h
    exact Option.some.inj h
  · next hother =>
    cases hvalue : f.database.value? (RedisKeyspace.stream keys) with
    | none =>
        rw [hvalue] at h
        exact Option.some.inj h
    | some v =>
        rw [hvalue] at h
        cases v with
        | stream items' => exact absurd hvalue (hother items')
        | _ => cases h

theorem Represents.items (h : Represents ids keys s f) :
    List.Forall₂ (ItemStands ids) s.world.stream (f.items keys) := by
  obtain ⟨-, items, hv, hitems⟩ := h.stands .stream
  change Redis.Command.streamItems (f.database.value? _) = _ at hv
  have heq : f.items keys = items := FlatServer.items_of_value? hv
  rw [heq]
  exact hitems

theorem Represents.length (h : Represents ids keys s f) :
    (f.items keys).length = s.world.stream.length :=
  h.items.length_eq.symm

theorem Represents.acked (h : Represents ids keys s f) :
    f.acked keys = s.world.acked := by
  funext i
  rw [FlatServer.acked, World.acked]
  obtain ⟨hentry, hitem⟩ | ⟨entry, item, hentry, hitem, -, hacked, -⟩ :=
    rel_cases (Redis.forall₂_getElem? h.items i)
  · rw [hentry, hitem]
  · rw [hentry, hitem]
    exact hacked

/-- The fields of a message are those of its job. -/
def MessageStands (ids : Naming) (m : Message) (raw : StreamId × Redis.Fields) :
    Prop :=
  raw.1 = m.1 ∧ ∃ stamp, readJob ids raw.2 = some (m.2, stamp)

theorem Represents.messages (h : Represents ids keys s f) (is : List StreamId) :
    List.Forall₂ (MessageStands ids) (s.world.messages is)
      (f.messages keys is) := by
  induction is with
  | nil => exact .nil
  | cons i is ih =>
      rw [World.messages, FlatServer.messages]
      obtain ⟨hentry, hitem⟩ | ⟨entry, item, hentry, hitem, hnone, -, stamp, hfields⟩ :=
        rel_cases (Redis.forall₂_getElem? h.items i)
      · rw [List.filterMap_cons_none (by rw [hentry]; rfl),
          List.filterMap_cons_none (by rw [hitem]; rfl)]
        exact ih
      · rw [List.filterMap_cons_some (by rw [hentry]; rfl),
          List.filterMap_cons_some (by rw [hitem]; rfl)]
        refine .cons ⟨rfl, some stamp, ?_⟩ ih
        simp only [hfields, readJob_jobFields]
        rw [← hnone]

theorem readBatch_of_stands {items : Batch} {raw : RawBatch}
    (h : List.Forall₂ (MessageStands ids) items.1 raw.1) :
    readBatch ids raw = some items := by
  obtain ⟨items, hlen⟩ := items
  obtain ⟨raw, hlen'⟩ := raw
  cases h with
  | nil => rfl
  | @cons m r ms rs hm hrest =>
      cases ms with
      | cons m' ms =>
          rw [List.length_cons, List.length_cons] at hlen
          omega
      | nil =>
          obtain ⟨i, fields⟩ := r
          obtain ⟨i', job⟩ := m
          obtain ⟨hid, stamp, hjob⟩ := hm
          cases hid
          replace hjob : readJob ids fields = some (job, stamp) := hjob
          simp only [readBatch, hjob, Option.map_some]

theorem eq_nil_of_readBatch {items : Batch} {raw : RawBatch}
    (h : readBatch ids raw = some items) : raw.1 = [] ↔ items.1 = [] := by
  obtain ⟨raw, hlen⟩ := raw
  cases raw with
  | nil =>
      cases h
      exact iff_of_true rfl rfl
  | cons m ms =>
      obtain ⟨job, -, hitems⟩ := Option.map_eq_some_iff.mp h
      rw [← hitems]
      simp

/-- The records that `xreadgroup` returns for at most one entry. -/
theorem mapM_readBatch {items : Batch} {raw : RawBatch}
    (h : readBatch ids raw = some items) :
    List.mapM (readBatch ids) (if raw.1 = [] then [] else [raw]) =
      some (if items.1 = [] then [] else [items]) := by
  by_cases hnil : raw.1 = []
  · rw [if_pos hnil, if_pos ((eq_nil_of_readBatch h).mp hnil)]
    rfl
  · rw [if_neg hnil, if_neg (mt (eq_nil_of_readBatch h).mpr hnil),
      List.mapM_cons, h]
    rfl

theorem Represents.reclaimed (h : Represents ids keys s f) (cfg : Settings)
    (g : ConsumerGroup Str) :
    readBatch ids (f.reclaimed keys cfg g) =
      some (QueueCall.reclaimed cfg s g) := by
  apply readBatch_of_stands
  change List.Forall₂ _ (s.world.messages _) (f.messages keys _)
  rw [h.acked, ← h.now]
  exact h.messages _

theorem Represents.unread (h : Represents ids keys s f) (g : ConsumerGroup Str) :
    readBatch ids (f.unread keys g) = some (QueueCall.unread s g) := by
  apply readBatch_of_stands
  change List.Forall₂ _ (s.world.messages _) (f.messages keys _)
  rw [h.length]
  exact h.messages _

theorem Represents.of_group (h : Represents ids keys s f)
    (g : Option (ConsumerGroup Str)) :
    Represents ids keys { s with group := g } { f with group := g } :=
  ⟨h.now, rfl, h.nextId, h.stands⟩

theorem Represents.withStream (h : Represents ids keys s f) :
    Represents ids keys s { f with database := f.withStream keys } := by
  rw [FlatServer.withStream]
  cases hfind : f.database.find? (RedisKeyspace.stream keys) with
  | some e => exact h
  | none =>
      refine ⟨h.now, h.group, h.nextId, fun key => ?_⟩
      by_cases hkey : key = .stream
      · obtain ⟨-, items, hv, hitems⟩ := h.stands .stream
        have hitems' : items = [] := by
          change Redis.Command.streamItems (Option.map Redis.Entry.value
            (f.database.find? (RedisKeyspace.stream keys))) = _ at hv
          rw [hfind] at hv
          exact (Option.some.inj hv).symm
        have hput : (f.database.put (RedisKeyspace.stream keys)
            ⟨.stream [], none⟩).find? (RedisKeyspace.stream keys) =
              some ⟨.stream [], none⟩ := Redis.Database.find?_put_self rfl
        rw [hkey]
        change StandsAt ids s.world .stream ((f.database.put _ _).find?
          (RedisKeyspace.stream keys))
        rw [hput]
        rw [hitems'] at hitems
        exact ⟨rfl, [], rfl, hitems⟩
      · have hne : RedisKeyspace.text keys key ≠ RedisKeyspace.stream keys :=
          fun heq => hkey (RedisKeyspace.text_injective
            (heq.trans (rfl : _ = RedisKeyspace.text keys .stream)))
        have hframe : (f.database.put (RedisKeyspace.stream keys)
            ⟨.stream [], none⟩).find? (RedisKeyspace.text keys key) =
              f.database.find? (RedisKeyspace.text keys key) :=
          Redis.Database.find?_put_ne hne
        simp only [hframe]
        exact h.stands key

/-- A command on the queue does the same to the group and hands over the same
entries. -/
theorem Represents.execQueue (h : Represents ids keys s f) (cfg : Settings)
    (c : QueueCall) :
    Represents ids keys (c.exec cfg s).2 (f.execQueue keys cfg c).2 ∧
      ((f.execQueue keys cfg c).1.bind fun reply =>
        decoded (decodeQueue ids c reply)) = (c.exec cfg s).1 := by
  cases hgroup : s.group with
  | none =>
      have hgroup' : f.group = none := h.group.symm.trans hgroup
      cases c with
      | sleep => exact ⟨h, rfl⟩
      | xgroupCreate =>
          simp only [QueueCall.exec, FlatServer.execQueue, hgroup, hgroup',
            h.length]
          exact ⟨h.withStream.of_group _, rfl⟩
      | _ =>
          simp only [QueueCall.exec, FlatServer.execQueue, hgroup, hgroup']
          exact ⟨h, rfl⟩
  | some g =>
      have hgroup' : f.group = some g := h.group.symm.trans hgroup
      cases c with
      | sleep => exact ⟨h, rfl⟩
      | xgroupCreate =>
          simp only [QueueCall.exec, FlatServer.execQueue, hgroup, hgroup']
          exact ⟨h, rfl⟩
      | xautoclaim consumerName =>
          have hread := h.reclaimed cfg g
          simp only [QueueCall.exec, FlatServer.execQueue, hgroup, hgroup',
            h.acked, ← h.now]
          refine ⟨h.of_group _, ?_⟩
          change decoded (readBatch ids _) = _
          rw [hread]
          rfl
      | xreadgroup consumerName =>
          have hread := h.unread g
          simp only [QueueCall.exec, FlatServer.execQueue, hgroup, hgroup',
            h.length, ← h.now]
          refine ⟨h.of_group _, ?_⟩
          change decoded (List.mapM (readBatch ids) _) = _
          rw [mapM_readBatch hread]
          rfl

theorem carriesOut_queue (c : QueueCall) :
    CarriesOut ids keys cfg (.inr c) (carry ids keys cfg (.inr c)) := by
  have hshown : Shows ids keys cfg (.inr c) (.queue c) := Or.inl rfl
  change CarriesOut ids keys cfg (.inr c) (WireCode.queue ids c)
  rw [WireCode.queue, perform, call_bind]
  refine Carries.act _ _ hshown fun a s f _ h => ⟨a.process, trivial, ?_⟩
  obtain ⟨hserver, hres⟩ := h.execQueue cfg c
  cases hfault : a.process.answer.fault with
  | none =>
      simp only [execWire, execProcess, hfault]
      refine ⟨?_, hserver⟩
      rw [← hres]
      cases (f.execQueue keys cfg c).1 <;> rfl
  | some e =>
      simp only [execWire, execProcess, hfault]
      refine ⟨rfl, ?_⟩
      split
      · exact hserver
      · exact h

end Queue

end AliceSkill
