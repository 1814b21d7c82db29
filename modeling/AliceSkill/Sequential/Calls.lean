import AliceSkill.Entry.Points

/-!
# One call at a time

Weakest preconditions of the single calls, for any choice of which calls may
raise.  With them the service code can be executed symbolically without
looking into the stores again: a method of the pending store is replaced here,
once, by what it does to the record of the conversation.
-/

namespace AliceSkill

open Text Effects Program

/-- Which exceptions a call may raise; `none` is success. -/
abbrev Faults := Call → Option PyException → Prop

/-- The calls that may raise in a run without store or queue failures. -/
def Call.mayRaise : Call → Bool
  | .port (.generateReply ..) => true
  | .port (.persistTurns ..) => true
  | .port (.persistJobResult ..) => true
  | _ => false

/-- Stores and queue work; the model and analytics may fail. -/
def reliable : Faults := fun c fault => fault = none ∨ c.mayRaise = true

@[simp] theorem reliable_none (c : Call) : reliable c none := Or.inl rfl

@[simp] theorem reliable_some (c : Call) (e : PyException) :
    reliable c (some e) ↔ c.mayRaise = true := by
  simp [reliable]

/-- Whether the answer to a call carries a text of the model. -/
def Call.asksModel : Call → Bool
  | .port (.generateReply ..) => true
  | _ => false

theorem Call.mayRaise_of_asksModel {c : Call} (h : c.asksModel = true) :
    c.mayRaise = true := by
  cases c with
  | pending c => cases h
  | port c => cases c <;> first | rfl | cases h

/-- Answers under a choice of faults, with the texts of the model in `T`. -/
def permits (F : Faults) (T : Str → Prop) : Answer → Call → Prop :=
  fun a c => F c a.fault ∧
    (a.fault = none → c.asksModel = true → T a.rawText)

/-- Any text. -/
def anyText : Str → Prop := fun _ => True

/-! ## What the methods of the pending store do -/

namespace World

/-- `startPending` executed without interruption. -/
def startPending (w : World) (key : Str) (job : DeferredJob) :
    PendingReply × World :=
  match w.pending key with
  | some r => (r, w)
  | none =>
      let r := RedisPendingReplyStore.processingRecord job.jobId
      (r, w.setPending key (some r))

/-- Write a record unless another job owns the key. -/
def publish (w : World) (key : Str) (jobId : JobId) (r : PendingReply) : World :=
  if RedisPendingReplyStore.replacedBy (w.pending key) jobId then w
  else w.setPending key (some r)

/-- `markDelivered` executed without interruption. -/
def markDelivered (w : World) (key : Str) (jobId : JobId) : World :=
  match w.pending key with
  | some r =>
      if r.jobId = jobId then
        w.setPending key (some (RedisPendingReplyStore.deliveredRecord jobId r))
      else w
  | none => w

/-- `clearPending` with a job id, executed without interruption. -/
def clearPending (w : World) (key : Str) (jobId : JobId) : World :=
  match w.pending key with
  | some r => if r.jobId = jobId then w.setPending key none else w
  | none => w

end World

section Methods

variable {cfg : Settings} {w : World} {a : Answer}

theorem execCall_pending (h : a.fault = none) (c : PendingCall) :
    execCall cfg a (.pending c) w =
      (RedisPendingReplyStore.method c).run (execCommand cfg)
        (fun _ _ => .ok) w := by
  simp only [execCall, h]

theorem execCall_port (h : a.fault = none) (c : PortCall) :
    execCall cfg a (.port c) w = c.exec cfg a w := by
  simp only [execCall, h]

section Commands

open RedisPendingReplyStore

variable {α : Type} (self : PendingCall) (key : Str) (r : PendingReply)

@[simp] theorem run_get (f : Option PendingReply → StoreCode α) :
    ((get self key).bind f).run (execCommand cfg) (fun _ _ => .ok) w =
      (f (w.pending key)).run (execCommand cfg) (fun _ _ => .ok) w := rfl

@[simp] theorem run_set (f : Unit → StoreCode α) :
    ((set self key r).bind f).run (execCommand cfg) (fun _ _ => .ok) w =
      (f ()).run (execCommand cfg) (fun _ _ => .ok)
        (w.setPending key (some r)) := rfl

@[simp] theorem run_setNx (f : Bool → StoreCode α) :
    ((setNx self key r).bind f).run (execCommand cfg) (fun _ _ => .ok) w =
      (f (w.pending key).isNone).run (execCommand cfg) (fun _ _ => .ok)
        (if (w.pending key).isNone then w.setPending key (some r) else w) :=
  rfl

@[simp] theorem run_set_last :
    (set self key r).run (execCommand cfg) (fun _ _ => .ok) w =
      (.ok (), w.setPending key (some r)) := rfl

@[simp] theorem run_delete_last :
    (delete self key).run (execCommand cfg) (fun _ _ => .ok) w =
      (.ok (), w.setPending key none) := rfl

end Commands

theorem execCall_getPending (h : a.fault = none) (key : Str) :
    execCall cfg a (.pending (.getPending key)) w =
      (.ok (w.pending key), w) := by
  rw [execCall_pending h]
  rfl

theorem execCall_startPending (h : a.fault = none) (key : Str)
    (job : DeferredJob) :
    execCall cfg a (.pending (.startPending key job)) w =
      (.ok (w.startPending key job).1, (w.startPending key job).2) := by
  rw [execCall_pending h, RedisPendingReplyStore.method, World.startPending,
    RedisPendingReplyStore.startPending]
  cases hp : w.pending key <;> simp [run, hp]

theorem execCall_markReady (h : a.fault = none) (key : Str) (jobId : JobId)
    (replyText replyTts : Str) (tailText : Option Str) (mode : FollowupMode)
    (request : Option Str) :
    execCall cfg a (.pending (.markReady key jobId replyText replyTts tailText
        mode request)) w =
      let r := RedisPendingReplyStore.readyRecord jobId replyText replyTts
        tailText mode request
      (.ok (if RedisPendingReplyStore.replacedBy (w.pending key) jobId then none
          else some r),
        w.publish key jobId r) := by
  rw [execCall_pending h, RedisPendingReplyStore.method,
    RedisPendingReplyStore.markReady]
  simp only [World.publish]
  cases hp : RedisPendingReplyStore.replacedBy (w.pending key) jobId <;>
    simp [run, hp]

theorem execCall_markFailed (h : a.fault = none) (key : Str) (jobId : JobId)
    (errorMessage : Str) :
    execCall cfg a (.pending (.markFailed key jobId errorMessage)) w =
      (.ok (), w.publish key jobId
        (RedisPendingReplyStore.failedRecord jobId errorMessage)) := by
  rw [execCall_pending h, RedisPendingReplyStore.method, World.publish,
    RedisPendingReplyStore.markFailed]
  cases hp : RedisPendingReplyStore.replacedBy (w.pending key) jobId <;>
    simp [run, hp]

theorem execCall_markDelivered (h : a.fault = none) (key : Str)
    (jobId : JobId) :
    execCall cfg a (.pending (.markDelivered key jobId)) w =
      (.ok (), w.markDelivered key jobId) := by
  rw [execCall_pending h, RedisPendingReplyStore.method, World.markDelivered,
    RedisPendingReplyStore.markDelivered]
  cases hp : w.pending key with
  | none => simp [run, hp]
  | some r => by_cases hj : r.jobId = jobId <;> simp [run, hp, hj]

theorem execCall_clearPending (h : a.fault = none) (key : Str)
    (jobId : JobId) :
    execCall cfg a (.pending (.clearPending key (some jobId))) w =
      (.ok (), w.clearPending key jobId) := by
  rw [execCall_pending h, RedisPendingReplyStore.method, World.clearPending,
    RedisPendingReplyStore.clearPending]
  cases hp : w.pending key with
  | none => simp [run, hp]
  | some r => by_cases hj : r.jobId = jobId <;> simp [run, hp, hj]

end Methods

/-! ## Weakest preconditions of the calls -/

section Rules

open Ports

variable {cfg : Settings} {F : Faults} {T : Str → Prop} {w : World}

/-- A call that does not ask the model succeeds in one way only. -/
theorem wp_ask {c : Call} {v : c.Res} {w' : World}
    {Q : Except PyException c.Res → World → Prop} (hm : c.asksModel = false)
    (hexec : ∀ a : Answer, a.fault = none →
      execCall cfg a c w = (.ok v, w')) :
    (ask c).wp (execCall cfg) (permits F T) Q w ↔
      (F c none → Q (.ok v) w') ∧ ∀ e, F c (some e) → Q (.error e) w := by
  rw [ask, wp_perform]
  constructor
  · intro h
    constructor
    · intro hF
      have := h .ok ⟨hF, by simp [hm]⟩
      rwa [hexec .ok rfl] at this
    · intro e hF
      exact h (.fails e) ⟨hF, by simp [hm]⟩
  · rintro ⟨hok, herr⟩ a ⟨hF, -⟩
    cases hfault : a.fault with
    | none =>
        rw [hexec a hfault]
        exact hok (hfault ▸ hF)
    | some e =>
        simp only [execCall, hfault]
        exact herr e (hfault ▸ hF)

@[simp] theorem wp_getPending {key : Str}
    {Q : Except PyException (Option PendingReply) → World → Prop} :
    (getPending key).wp (execCall cfg) (permits F T) Q w ↔
      (F (.pending (.getPending key)) none → Q (.ok (w.pending key)) w) ∧
      ∀ e, F (.pending (.getPending key)) (some e) → Q (.error e) w :=
  wp_ask rfl fun _ h => execCall_getPending h key

@[simp] theorem wp_startPending {key : Str} {job : DeferredJob}
    {Q : Except PyException PendingReply → World → Prop} :
    (startPending key job).wp (execCall cfg) (permits F T) Q w ↔
      (F (.pending (.startPending key job)) none →
        Q (.ok (w.startPending key job).1) (w.startPending key job).2) ∧
      ∀ e, F (.pending (.startPending key job)) (some e) → Q (.error e) w :=
  wp_ask rfl fun _ h => execCall_startPending h key job

@[simp] theorem wp_markReady {key : Str} {jobId : JobId}
    {replyText replyTts : Str} {tailText : Option Str} {mode : FollowupMode}
    {request : Option Str}
    {Q : Except PyException (Option PendingReply) → World → Prop} :
    (markReady key jobId replyText replyTts tailText mode request).wp
        (execCall cfg) (permits F T) Q w ↔
      let c := Call.pending (.markReady key jobId replyText replyTts tailText
        mode request)
      let r := RedisPendingReplyStore.readyRecord jobId replyText replyTts
        tailText mode request
      (F c none →
        Q (.ok (if RedisPendingReplyStore.replacedBy (w.pending key) jobId
            then none else some r)) (w.publish key jobId r)) ∧
      ∀ e, F c (some e) → Q (.error e) w :=
  wp_ask rfl fun _ h => execCall_markReady h key jobId replyText replyTts
    tailText mode request

@[simp] theorem wp_markFailed {key : Str} {jobId : JobId} {errorMessage : Str}
    {Q : Except PyException Unit → World → Prop} :
    (markFailed key jobId errorMessage).wp (execCall cfg) (permits F T) Q w ↔
      let c := Call.pending (.markFailed key jobId errorMessage)
      (F c none → Q (.ok ()) (w.publish key jobId
        (RedisPendingReplyStore.failedRecord jobId errorMessage))) ∧
      ∀ e, F c (some e) → Q (.error e) w :=
  wp_ask rfl fun _ h => execCall_markFailed h key jobId errorMessage

@[simp] theorem wp_markDelivered {key : Str} {jobId : JobId}
    {Q : Except PyException Unit → World → Prop} :
    (markDelivered key jobId).wp (execCall cfg) (permits F T) Q w ↔
      (F (.pending (.markDelivered key jobId)) none →
        Q (.ok ()) (w.markDelivered key jobId)) ∧
      ∀ e, F (.pending (.markDelivered key jobId)) (some e) →
        Q (.error e) w :=
  wp_ask rfl fun _ h => execCall_markDelivered h key jobId

@[simp] theorem wp_clearPending {key : Str} {jobId : JobId}
    {Q : Except PyException Unit → World → Prop} :
    (clearPending key (some jobId)).wp (execCall cfg) (permits F T) Q w ↔
      (F (.pending (.clearPending key (some jobId))) none →
        Q (.ok ()) (w.clearPending key jobId)) ∧
      ∀ e, F (.pending (.clearPending key (some jobId))) (some e) →
        Q (.error e) w :=
  wp_ask rfl fun _ h => execCall_clearPending h key jobId

@[simp] theorem wp_getCachedResponse {key : Str}
    {Q : Except PyException (Option CachedDict) → World → Prop} :
    (getCachedResponse key).wp (execCall cfg) (permits F T) Q w ↔
      (F (.port (.getCachedResponse key)) none →
        Q (.ok (w.idempotency key)) w) ∧
      ∀ e, F (.port (.getCachedResponse key)) (some e) → Q (.error e) w :=
  wp_ask rfl fun _ h => execCall_port h _

/-- The world after a response has been cached. -/
def World.cache (w : World) (key : Str) (response : CachedDict) : World :=
  { w with idempotency := updateAt w.idempotency key (some response) }

@[simp] theorem wp_storeResponse {key : Str} {response : CachedDict}
    {Q : Except PyException Unit → World → Prop} :
    (storeResponse key response).wp (execCall cfg) (permits F T) Q w ↔
      (F (.port (.storeResponse key response)) none →
        Q (.ok ()) (w.cache key response)) ∧
      ∀ e, F (.port (.storeResponse key response)) (some e) →
        Q (.error e) w :=
  wp_ask rfl fun _ h => execCall_port h _

@[simp] theorem wp_getHistory {key : Str}
    {Q : Except PyException (List ConversationTurn) → World → Prop} :
    (getHistory key).wp (execCall cfg) (permits F T) Q w ↔
      (F (.port (.getHistory key)) none →
        Q (.ok (redisRange 0 (-1) (w.history key))) w) ∧
      ∀ e, F (.port (.getHistory key)) (some e) → Q (.error e) w :=
  wp_ask rfl fun _ h => execCall_port h _

/-- The world after a turn has been added to a conversation. -/
def World.addTurn (w : World) (cfg : Settings) (key : Str)
    (turn : ConversationTurn) : World :=
  let turns := w.history key ++ [turn]
  let kept := redisRange (-cfg.sessionTurnLimit) (-1) turns
  { w with history := updateAt w.history key kept }

@[simp] theorem wp_appendTurn {key : Str} {turn : ConversationTurn}
    {Q : Except PyException Unit → World → Prop} :
    (appendTurn key turn).wp (execCall cfg) (permits F T) Q w ↔
      (F (.port (.appendTurn key turn)) none →
        Q (.ok ()) (w.addTurn cfg key turn)) ∧
      ∀ e, F (.port (.appendTurn key turn)) (some e) → Q (.error e) w :=
  wp_ask rfl fun _ h => execCall_port h _

/-- The world after a job has been put on the stream. -/
def World.push (w : World) (job : DeferredJob) : World :=
  { w with stream := w.stream ++ [⟨job, false⟩] }

@[simp] theorem wp_enqueue {job : DeferredJob}
    {Q : Except PyException Unit → World → Prop} :
    (enqueue job).wp (execCall cfg) (permits F T) Q w ↔
      (F (.port (.enqueue job)) none → Q (.ok ()) (w.push job)) ∧
      ∀ e, F (.port (.enqueue job)) (some e) → Q (.error e) w :=
  wp_ask rfl fun _ h => execCall_port h _

/-- The world after an entry of the stream has been acknowledged. -/
def World.acknowledge (w : World) (streamId : StreamId) : World :=
  { w with stream := w.stream.modify streamId fun e => { e with acked := true } }

@[simp] theorem wp_ack {streamId : StreamId}
    {Q : Except PyException Unit → World → Prop} :
    (Ports.ack streamId).wp (execCall cfg) (permits F T) Q w ↔
      (F (.port (.ack streamId)) none → Q (.ok ()) (w.acknowledge streamId)) ∧
      ∀ e, F (.port (.ack streamId)) (some e) → Q (.error e) w :=
  wp_ask rfl fun _ h => execCall_port h _

@[simp] theorem wp_persistTurns {key : Str} {turns : List ConversationTurn}
    {Q : Except PyException Unit → World → Prop} :
    (persistTurns key turns).wp (execCall cfg) (permits F T) Q w ↔
      (F (.port (.persistTurns key turns)) none → Q (.ok ()) w) ∧
      ∀ e, F (.port (.persistTurns key turns)) (some e) → Q (.error e) w :=
  wp_ask rfl fun _ h => execCall_port h _

@[simp] theorem wp_persistJobResult {job : DeferredJob}
    {reply : Option LLMReply} {error : Option Str}
    {Q : Except PyException Unit → World → Prop} :
    (persistJobResult job reply error).wp (execCall cfg) (permits F T) Q w ↔
      (F (.port (.persistJobResult job reply error)) none → Q (.ok ()) w) ∧
      ∀ e, F (.port (.persistJobResult job reply error)) (some e) →
        Q (.error e) w :=
  wp_ask rfl fun _ h => execCall_port h _

/-- The world after an id has been drawn. -/
def World.drawId (w : World) : World := { w with nextId := w.nextId + 1 }

@[simp] theorem wp_uuid4 {Q : Except PyException JobId → World → Prop} :
    uuid4.wp (execCall cfg) (permits F T) Q w ↔
      (F (.port .uuid4) none → Q (.ok w.nextId) w.drawId) ∧
      ∀ e, F (.port .uuid4) (some e) → Q (.error e) w :=
  wp_ask rfl fun _ h => execCall_port h _

/-- The clock may show anything. -/
@[simp] theorem wp_monotonic {Q : Except PyException ℚ → World → Prop} :
    monotonic.wp (execCall cfg) (permits F T) Q w ↔
      (F (.port .monotonic) none → ∀ now, Q (.ok now) w) ∧
      ∀ e, F (.port .monotonic) (some e) → Q (.error e) w := by
  rw [monotonic, ask, wp_perform]
  constructor
  · intro h
    constructor
    · intro hF now
      exact h ⟨none, [], now⟩ ⟨hF, by simp [Call.asksModel]⟩
    · intro e hF
      exact h (.fails e) ⟨hF, by simp [Call.asksModel]⟩
  · rintro ⟨hok, herr⟩ a ⟨hF, -⟩
    cases hfault : a.fault with
    | none =>
        rw [execCall_port hfault]
        exact hok (hfault ▸ hF) a.now
    | some e =>
        simp only [execCall, hfault]
        exact herr e (hfault ▸ hF)

/-- The model may answer with any text of `T`. -/
@[simp] theorem wp_generateReply {userText requestId : Str}
    {history : List ConversationTurn} {deadlineSeconds : ℚ}
    {maxOutputTokens : ℕ}
    {Q : Except PyException LLMReply → World → Prop} :
    (generateReply userText history requestId deadlineSeconds
        maxOutputTokens).wp (execCall cfg) (permits F T) Q w ↔
      let c := Call.port (.generateReply userText history requestId
        deadlineSeconds maxOutputTokens)
      (F c none → ∀ t, T t → Q (.ok (prepareLlmReply t)) w) ∧
      ∀ e, F c (some e) → Q (.error e) w := by
  rw [generateReply, ask, wp_perform]
  constructor
  · intro h
    constructor
    · intro hF t ht
      exact h (.replies t) ⟨hF, fun _ _ => ht⟩
    · intro e hF
      exact h (.fails e) ⟨hF, by simp [Answer.fails]⟩
  · rintro ⟨hok, herr⟩ a ⟨hF, hT⟩
    cases hfault : a.fault with
    | none =>
        rw [execCall_port hfault]
        exact hok (hfault ▸ hF) a.rawText (hT hfault rfl)
    | some e =>
        simp only [execCall, hfault]
        exact herr e (hfault ▸ hF)

end Rules

end AliceSkill
