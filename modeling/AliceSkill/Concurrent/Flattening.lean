import AliceSkill.Concurrent.Commands
import AliceSkill.Concurrent.Flat
import AliceSkill.Services.Calls
import Mathlib.Data.Set.Finite.Lemmas
import Mathlib.Data.Set.Finite.List

/-!
# The database refines the stores

Whatever processes do over one Redis database is a run of the processes over
the stores (`flat_refines`): no key is taken for another one, every text that is
read is one that has been written, and a key that is gone has reached its
deadline.
-/

namespace AliceSkill

open Text Effects Program Machine Streams Formats WireCode ConversationService
open RedisStreamQueue

/-! ## What the processes send -/

/-- Calls of requests and workers: jobs are new, and the rate limit is the
concern of the route. -/
def Call.Sendable : Call → Prop
  | .port (.enqueue job) => job.streamId = none
  | .port (.checkRateLimit _) => False
  | _ => True

theorem sendable_of_records {c : Call} (h : c.Records) : c.Sendable := by
  rcases c with c | c
  · trivial
  · rcases c <;> trivial

theorem sendable_of_works {job : DeferredJob} {c : Call} (h : c.Works job) :
    c.Sendable := by
  rcases c with c | c
  · trivial
  · rcases c <;> first | trivial | exact (Or.elim h id id : False).elim

section Requests

variable {payload : AliceWebhookRequest} {key : Str} {cfg : Settings}

theorem sendable_deferRequest (u : Str) :
    (deferRequest payload key u).Only Call.Sendable := by
  apply Only.bind (only_ask trivial)
  intro jobId
  apply Only.bind (only_ask trivial)
  intro pending
  split
  · refine Only.bind (Only.bind (Only.attempt (only_ask rfl)) fun r => ?_)
      fun _ => trivial
    rcases r with e | _
    · exact Only.bind (only_ask trivial) fun _ => trivial
    · trivial
  · trivial

theorem sendable_deliver (r : PendingReply) (t : Str) :
    (deliver payload key r t).Only Call.Sendable := by
  simp only [deliver, bind_eq]
  refine Only.bind ?_ fun _ => ?_
  · split
    · exact only_ask trivial
    · trivial
  split
  · refine Only.bind (only_ask trivial) fun updated => Only.bind ?_ fun _ => trivial
    split
    · exact only_ask trivial
    · trivial
  · split
    · trivial
    · exact Only.bind (only_ask trivial) fun _ => trivial

theorem sendable_handleContinue (pending : Option PendingReply) :
    (handleContinue payload key pending).Only Call.Sendable := by
  rcases pending with _ | r
  · trivial
  simp only [handleContinue, bind_eq]
  split_ifs
  · trivial
  · exact Only.bind (only_ask trivial) fun _ => trivial
  · exact Only.bind (only_ask trivial) fun _ => sendable_deferRequest _
  · exact sendable_deliver r _
  · trivial

theorem sendable_handleActivePending (r : PendingReply) :
    (handleActivePending payload key r).Only Call.Sendable := by
  rw [handleActivePending]
  rcases r.status
  · trivial
  · trivial
  · exact Only.bind (only_ask trivial) fun _ => trivial
  · exact Only.bind (only_ask trivial) fun _ => trivial

theorem sendable_storeImmediateFollowup (reply : LLMReply) :
    (storeImmediateFollowup key reply).Only Call.Sendable := by
  simp only [storeImmediateFollowup, bind_eq]
  split
  · trivial
  · refine Only.bind (only_ask trivial) fun jobId => ?_
    split
    · exact Only.bind (only_ask trivial) fun _ => trivial
    · exact Only.bind (only_ask trivial) fun _ => only_ask trivial
    · trivial

theorem sendable_storeAndReturn (response : AliceWebhookResponse) :
    (storeAndReturn payload response).Only Call.Sendable :=
  Only.bind (only_ask trivial) fun _ => trivial

theorem sendable_answerQuestion (u : Str) :
    (answerQuestion cfg payload key u).Only Call.Sendable := by
  apply Only.bind (only_ask trivial)
  intro history
  refine Only.bind (Only.attempt (only_ask trivial)) fun r => ?_
  rcases r with e | reply
  · exact Only.bind (sendable_deferRequest u) sendable_storeAndReturn
  · refine Only.bind ?_ fun _ => ?_
    · exact Only.mono (only_recordCompletedTurns _ _) fun _ => sendable_of_records
    · exact Only.bind (sendable_storeImmediateFollowup reply) fun _ =>
        sendable_storeAndReturn _

theorem sendable_handle (cfg : Settings) (payload : AliceWebhookRequest) :
    (handle cfg payload).Only Call.Sendable := by
  apply Only.bind (only_ask trivial)
  intro cached
  rcases cached with _ | response | _
  · rw [handleUncached]
    generalize sanitizeUserText payload.utterance = u
    refine Only.bind (only_ask trivial) fun pending => ?_
    by_cases hempty : u = []
    · rw [if_pos hempty]
      exact sendable_storeAndReturn _
    rw [if_neg hempty]
    generalize isContinueIntent cfg.unicode u (Option.isSome pending) = continues
    rcases continues with _ | _
    · rcases pending with _ | r
      · exact sendable_answerQuestion u
      · refine Only.bind (sendable_handleActivePending r) fun blocking => ?_
        rcases blocking with _ | response
        · exact sendable_answerQuestion u
        · exact sendable_storeAndReturn response
    · exact Only.bind (sendable_handleContinue pending) sendable_storeAndReturn
  · trivial
  · trivial

end Requests

/-- Commands of the processes. -/
def Sendable : ProcessSig.Op → Prop
  | .inl (.port (.enqueue job)) => job.streamId = none
  | .inl (.port (.checkRateLimit _)) => False
  | _ => True

theorem sendable_of_issues {c : Call} {op : Command} (hc : c.Sendable)
    (hop : c.Issues op) : Sendable (.inl op) := by
  rcases op with ⟨caller, cmd⟩ | c'
  · trivial
  · cases hop
    cases c' <;> exact hc

theorem sendable_lift {α : Type} {p : Service α} (hp : p.Only Call.Sendable) :
    ((p.interp implement).lift QueueSig).Only Sendable := by
  have hcommands : (p.interp implement).Only fun op => Sendable (.inl op) :=
    only_interp_implement hp fun c op => sendable_of_issues
  refine (Only.lift hcommands).mono fun op hop => ?_
  cases op with
  | inl op => exact hop
  | inr c => trivial

theorem sendable_ensureGroup : ensureGroup.Only Sendable := by
  refine Only.bind (only_perform trivial) fun r => ?_
  rcases r with exc | _
  · simp only
    split <;> trivial
  · trivial

theorem sendable_workJobs (cfg : Settings) (jobs : List DeferredJob) :
    (workJobs cfg jobs).Only Sendable := by
  induction jobs with
  | nil => trivial
  | cons job jobs ih =>
      refine Only.bind (sendable_lift ?_) fun _ => ih
      exact Only.mono (only_workJob cfg job) fun _ => sendable_of_works

theorem sendable_workerLoop (cfg : Settings) (consumerName : Str) (n : ℕ) :
    (workerLoop cfg consumerName n).Only Sendable := by
  induction n with
  | zero => trivial
  | succ n ih =>
      refine Only.bind (Only.bind ?_ fun jobs => ?_) fun _ => ih
      · refine Only.bind (only_perform trivial) fun reclaimed => ?_
        split
        · trivial
        · refine Only.bind (only_perform trivial) fun records => ?_
          cases (records : List Batch) <;> trivial
      · split
        · exact only_perform trivial
        · exact sendable_workJobs cfg jobs

theorem sendable_body (cfg : Settings) (role : Role) :
    (role.body cfg).Only Sendable := by
  cases role with
  | start => exact Only.bind sendable_ensureGroup fun _ => trivial
  | request payload =>
      exact sendable_lift (Only.bind (sendable_handle cfg payload) fun _ => trivial)
  | worker consumerName rounds =>
      exact Only.bind sendable_ensureGroup fun _ =>
        Only.bind (sendable_workerLoop cfg consumerName rounds) fun _ => trivial

/-! ## Time -/

/-- The key that expires. -/
def Expiry.storeKey : Expiry → StoreKey
  | .pending key => .pending key
  | .idempotency key => .idempotency key
  | .history key => .history key

theorem storeKey_injective : Function.Injective Expiry.storeKey := by
  intro e e' h
  cases e <;> cases e' <;> cases h <;> rfl

section Time

variable {ids : Naming} {keys : RedisSettings} {w : World}

/-- Where something expires, nothing stands for nothing. -/
theorem stands_expire_self (e : Expiry) :
    StandsAt ids (w.expire e) e.storeKey none := by
  cases e with
  | pending key => exact stands_setPending_self .none
  | idempotency key =>
      simp only [World.expire, Expiry.storeKey, StandsAt, World.updateAt_same]
      exact .none
  | history key =>
      refine ⟨[], rfl, ?_⟩
      simp only [World.expire, World.updateAt_same]
      exact .nil

theorem stands_expire_ne {e : Expiry} {k : StoreKey} (hk : k ≠ e.storeKey)
    {v : Option Redis.Entry} (h : StandsAt ids w k v) :
    StandsAt ids (w.expire e) k v := by
  cases e with
  | pending key => exact stands_setPending hk v h
  | idempotency key =>
      cases k with
      | idempotency key' =>
          have hne : key' ≠ key := fun heq => hk (congrArg _ heq)
          simp only [World.expire, StandsAt, World.updateAt_ne _ _ hne]
          exact h
      | _ => exact h
  | history key =>
      cases k with
      | history key' =>
          have hne : key' ≠ key := fun heq => hk (congrArg _ heq)
          simp only [World.expire, StandsAt, World.updateAt_ne _ _ hne]
          exact h
      | _ => exact h

def World.expireAll (w : World) (es : List Expiry) : World := es.foldl World.expire w

/-- What has gone stays away. -/
theorem stands_expireAll_none {k : StoreKey} (es : List Expiry)
    (h : StandsAt ids w k none) : StandsAt ids (w.expireAll es) k none := by
  induction es generalizing w with
  | nil => exact h
  | cons e es ih =>
      apply ih
      by_cases hk : k = e.storeKey
      · rw [hk]
        exact stands_expire_self e
      · exact stands_expire_ne hk h

theorem stands_expireAll_mem {e : Expiry} {es : List Expiry} (he : e ∈ es) :
    StandsAt ids (w.expireAll es) e.storeKey none := by
  induction es generalizing w with
  | nil => cases he
  | cons e' es ih =>
      obtain rfl | hmem := List.mem_cons.mp he
      · exact stands_expireAll_none es (stands_expire_self e)
      · exact ih hmem

theorem stands_expireAll_notMem {k : StoreKey} {es : List Expiry}
    (hk : ∀ e ∈ es, k ≠ e.storeKey) {v : Option Redis.Entry}
    (h : StandsAt ids w k v) : StandsAt ids (w.expireAll es) k v := by
  induction es generalizing w with
  | nil => exact h
  | cons e es ih =>
      exact ih (fun e' he' => hk e' (List.mem_cons_of_mem _ he'))
        (stands_expire_ne (hk e List.mem_cons_self) h)

theorem expireAll_nextId (es : List Expiry) :
    (w.expireAll es).nextId = w.nextId := by
  induction es generalizing w with
  | nil => rfl
  | cons e es ih =>
      refine (ih (w := w.expire e)).trans ?_
      cases e <;> rfl

theorem pass_expiries (s : Server) (es : List Expiry) :
    (es.map Passing.expiry).foldl (fun s e => s.pass e) s =
      { s with world := s.world.expireAll es } := by
  induction es generalizing s with
  | nil => rfl
  | cons e es ih => exact ih _

/-- The keys that reach their deadline within some time. -/
theorem exists_dying (keys : RedisSettings) (db : Redis.Database) (ms : ℕ) :
    ∃ es : List Expiry, ∀ e, e ∈ es ↔
      ∃ entry, db.find? (RedisKeyspace.text keys e.storeKey) = some entry ∧
        entry.alive (db.now + ms) = false := by
  have hfinite : {e : Expiry | ∃ entry,
      db.find? (RedisKeyspace.text keys e.storeKey) = some entry ∧
        entry.alive (db.now + ms) = false}.Finite := by
    have hkeys : (Set.preimage (fun e : Expiry => RedisKeyspace.text keys e.storeKey)
        {t | t ∈ db.entries.keys}).Finite :=
      (List.finite_toSet _).preimage
        (RedisKeyspace.text_injective.comp storeKey_injective).injOn
    refine hkeys.subset fun e he => ?_
    obtain ⟨entry, hfind, -⟩ := he
    rw [Redis.Database.find?, Option.filter_eq_some_iff] at hfind
    have hlookup : (db.entries.lookup
        (RedisKeyspace.text keys e.storeKey)).isSome = true := by
      rw [hfind.1]
      rfl
    exact AList.mem_keys.mp (AList.lookup_isSome.mp hlookup)
  refine ⟨hfinite.toFinset.toList, fun e => ?_⟩
  rw [Finset.mem_toList, Set.Finite.mem_toFinset]
  rfl

/-- Time takes away what has reached its deadline, and nothing else. -/
theorem Represents.tick {s : Server} {f : FlatServer}
    (h : Represents ids keys s f) (ms : ℕ) :
    ∃ es : List Passing, Represents ids keys (es.foldl (fun s e => s.pass e) s)
      { f with database := f.database.tick ms } := by
  obtain ⟨es, hes⟩ := exists_dying keys f.database ms
  refine ⟨.tick ms :: es.map .expiry, ?_⟩
  rw [List.foldl_cons, pass_expiries]
  refine ⟨congrArg (· + ms) h.now, h.group,
    (expireAll_nextId es).trans h.nextId, fun k => ?_⟩
  have hstands := h.stands k
  change StandsAt ids (s.world.expireAll es) k ((f.database.tick ms).find? _)
  rw [Redis.Database.find?_tick]
  cases hfind : f.database.find? (RedisKeyspace.text keys k) with
  | none =>
      rw [hfind] at hstands
      exact stands_expireAll_none es hstands
  | some entry =>
      rw [hfind] at hstands
      rw [Option.filter_some]
      cases halive : entry.alive (f.database.now + ms) with
      | true =>
          refine stands_expireAll_notMem (fun e he hk => ?_) hstands
          obtain ⟨entry', hfind', hdead⟩ := (hes e).mp he
          rw [← hk, hfind] at hfind'
          cases hfind'
          rw [halive] at hdead
          cases hdead
      | false =>
          have hdies : ∀ e : Expiry, e.storeKey = k →
              StandsAt ids (s.world.expireAll es) k none := by
            intro e he
            rw [← he]
            refine stands_expireAll_mem ((hes e).mpr ⟨entry, ?_, halive⟩)
            rw [he]
            exact hfind
          cases k with
          | pending key => exact hdies (.pending key) rfl
          | idempotency key => exact hdies (.idempotency key) rfl
          | history key => exact hdies (.history key) rfl
          | rateLimit bucket => trivial
          | stream =>
              have hkept : entry.deadline = none := hstands.1
              rw [Redis.Entry.alive, hkept] at halive
              cases halive

end Time

/-! ## Refinement -/

section Refinement

variable {ids : Naming} {keys : RedisSettings} {cfg : Settings}

/-- A call that does not touch what the processes share. -/
theorem carriesOut_outside {c : PortCall}
    (hcarry : carry ids keys cfg (.inl (.port c)) = @perform WireSig _ (.port c))
    (hexec : ∀ (a : Answer) (w : World) (f : FlatServer),
      f.execPort a c = ((c.exec cfg a w).1, f) ∧ (c.exec cfg a w).2 = w) :
    CarriesOut ids keys cfg (.inl (.port c))
      (carry ids keys cfg (.inl (.port c))) := by
  refine carriesOut_elsewhere hcarry fun a w f hid => ?_
  obtain ⟨hserver, hworld⟩ := hexec a w f
  rw [hserver, hworld, hid]
  exact ⟨rfl, rfl, fun _ _ h => h⟩

theorem carriesOut {op : ProcessSig.Op} (hop : Sendable op) :
    CarriesOut ids keys cfg op (carry ids keys cfg op) := by
  cases op with
  | inr c => exact carriesOut_queue c
  | inl op =>
      cases op with
      | kv caller cmd =>
          cases cmd with
          | get key => exact carriesOut_get
          | set key r => exact carriesOut_set r
          | setNx key r => exact carriesOut_setNx r
          | delete key => exact carriesOut_delete
      | port c =>
          cases c with
          | getCachedResponse key => exact carriesOut_getCachedResponse
          | storeResponse key response => exact carriesOut_storeResponse response
          | getHistory key => exact carriesOut_getHistory
          | appendTurn key turn => exact carriesOut_appendTurn turn
          | enqueue job => exact carriesOut_enqueue hop
          | ack i => exact carriesOut_ack i
          | checkRateLimit bucket => exact hop.elim
          | generateReply userText history requestId deadline maxTokens =>
              exact carriesOut_outside rfl fun _ _ _ => ⟨rfl, rfl⟩
          | persistTurns key turns =>
              exact carriesOut_outside rfl fun _ _ _ => ⟨rfl, rfl⟩
          | persistJobResult job reply error =>
              exact carriesOut_outside rfl fun _ _ _ => ⟨rfl, rfl⟩
          | monotonic =>
              exact carriesOut_outside rfl fun _ _ _ => ⟨rfl, rfl⟩
          | uuid4 =>
              refine carriesOut_elsewhere rfl fun a w f hid => ⟨?_, ?_, ?_⟩
              · exact congrArg Except.ok hid.symm
              · exact congrArg (fun n => { f with nextId := n + 1 }) hid.symm
              · intro k v h
                cases k <;> exact h

theorem refines_pool : Refines (poolMachine cfg anyAnswer)
    (flatMachine ids keys cfg) (Represents ids keys) (Shows ids keys cfg)
    (carry ids keys cfg) Sendable where
  body _ := rfl
  only := sendable_body cfg
  carries _ := carriesOut
  admits s f role h hadm := by
    cases role with
    | request payload =>
        change s.group.isSome = true
        rw [h.group]
        exact hadm
    | _ => trivial
  ambient ms _ _ h := h.tick ms

end Refinement

/-! ## What can be read -/

section Reading

variable {ids : Naming} {keys : RedisSettings} {s : Server} {f : FlatServer}

end Reading

/-! ## Results -/

/-- A question that the model does not answer in time, command by command. -/
def flatSchedule (payload : AliceWebhookRequest) : List FlatSchedule :=
  let ok : FlatAnswer := ⟨⟨.ok, false⟩, .epoch⟩
  let lost : FlatAnswer := ⟨⟨.fails ⟨.timeoutError, none⟩, false⟩, .epoch⟩
  [.spawn .start, .step 0 ok, .spawn (.request payload),
    .step 1 ok, .step 1 ok, .step 1 ok, .step 1 lost, .step 1 ok, .step 1 ok,
    .step 1 ok, .step 1 ok, .step 1 ok, .step 1 ok]

/-- What is found then under the key of the conversation. -/
def deferredText : Str :=
  pendingToJson .hex (RedisPendingReplyStore.processingRecord 0) .epoch

theorem flatSchedule_run : ((flatMachine .hex .default .default).runFrom Any
    (initial (.initial 0)) (flatSchedule (utter 1 "что такое кит"))).map (fun t =>
      t.world.database.value? (RedisKeyspace.pending .default
        (utter 1 "что такое кит").conversationKey)) =
    some (some (.text deferredText)) := by
  decide +kernel

/-- Over one database the processes do what they do over the stores: the
database stands for stores that they reach, each thread is in the middle of the
same program, and one that has ended has ended in the same way. -/
theorem flat_refines {ids : Naming} {keys : RedisSettings} {cfg : Settings}
    {now : ℕ} {t : FlatState}
    (ht : (flatMachine ids keys cfg).Reachable Any (.initial now) t) :
    ∃ s : PoolState,
      (poolMachine cfg anyAnswer).Reachable Any (.initial .empty now) s ∧
      Rendered (poolMachine cfg anyAnswer) (flatMachine ids keys cfg)
        (Represents ids keys) (Shows ids keys cfg) (carry ids keys cfg)
        Sendable s t ∧
      ∀ (i : ℕ) role r, t.threads[i]? = some ⟨role, ofExcept r⟩ →
        s.threads[i]? = some ⟨role, ofExcept r⟩ := by
  obtain ⟨s, hs, hrendered⟩ := refines_pool.simulates (represents_initial now) ht
  exact ⟨s, hs, hrendered, fun _ _ _ => hrendered.ended refines_pool⟩

theorem deferred_question_flat :
    ∃ (t : FlatState) (s : PoolState),
      t.world.database.value? (RedisKeyspace.pending .default
          (utter 1 "что такое кит").conversationKey) = some (.text deferredText) ∧
      (poolMachine .default anyAnswer).Reachable Any (.initial .empty 0) s ∧
      Represents .hex .default s.world t.world := by
  obtain ⟨t, ht, hobs⟩ := Option.map_eq_some_iff.mp flatSchedule_run
  obtain ⟨s, hs, hrendered, -⟩ := flat_refines (reachable_runFrom .start ht)
  exact ⟨t, s, hobs, hs, hrendered.world⟩

end AliceSkill
