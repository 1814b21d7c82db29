import AliceSkill.Concurrent.Machines
import AliceSkill.Services.Calls

/-!
# The records of any run

However requests and workers are interleaved and whatever fails, a record with
a tail offers no follow-up job besides.
-/

namespace AliceSkill

open Text Effects Program Machine ConversationService

/-- A text is continued in one way only: by its tail or by a follow-up job. -/
def OneContinuation (tailText : Option Str) (mode : FollowupMode) : Prop :=
  truthy tailText = true → mode ≠ .deferredOffer

theorem oneContinuation_none (mode : FollowupMode) :
    OneContinuation none mode := by
  intro h
  cases h

theorem LLMReply.Coherent.oneContinuation {reply : LLMReply}
    (h : reply.Coherent) :
    OneContinuation reply.followupText reply.followupMode := by
  cases h with
  | plain shortText rawText => exact oneContinuation_none _
  | withTail shortText rawText tail hshort htail =>
      intro _ hmode
      cases hmode
  | offer shortText rawText request hrequest => exact oneContinuation_none _

/-- The record is continued in one way only. -/
def PendingReply.Orderly (r : PendingReply) : Prop :=
  OneContinuation r.tailText r.followupMode

/-- Replies of the model are coherent. -/
def PortCall.Gives : (c : PortCall) → Except PyException c.Res → Prop
  | .generateReply .., .ok reply => LLMReply.Coherent reply
  | _, _ => True

/-! ## Calls of the service -/

/-- Only texts that are continued in one way are published. -/
def orderlyCalls : Protocol CallSig PyException Unit where
  may _ op :=
    match op with
    | .pending (.markReady _ _ _ _ tailText mode _) =>
        OneContinuation tailText mode
    | _ => True
  possible _ op x :=
    match op, x with
    | .port c, x => c.Gives x
    | _, _ => True
  next _ _ _ := ()

section Service

variable {α β : Type} {ok : Call → Prop}

theorem orderly_of_only {p : Service α} (hp : p.Only ok)
    (hok : ∀ c, ok c → orderlyCalls.may () c) :
    p.Follows orderlyCalls () fun _ _ => True :=
  (hp.follows fun c hc => ⟨hok c hc, fun _ => rfl⟩).mono fun _ _ _ => trivial

/-- A part that publishes nothing, before the rest. -/
theorem orderly_bind {p : Service α} {f : α → Service β}
    {R : Except PyException β → Unit → Prop} (hp : p.Only ok)
    (hok : ∀ c, ok c → orderlyCalls.may () c)
    (hf : ∀ a, (f a).Follows orderlyCalls () R) (he : ∀ e, R (.error e) ()) :
    (p.bind f).Follows orderlyCalls () R := by
  rw [follows_bind]
  refine (orderly_of_only hp hok).mono fun r q _ => ?_
  rcases r with e | a
  · exact he e
  · exact hf a

/-- One call, before the rest. -/
theorem orderly_ask {c : Call} {f : c.Res → Service β}
    {R : Except PyException β → Unit → Prop} (hc : orderlyCalls.may () c)
    (hf : ∀ a, orderlyCalls.possible () c (.ok a) →
      (f a).Follows orderlyCalls () R) (he : ∀ e, R (.error e) ()) :
    ((Ports.ask c).bind f).Follows orderlyCalls () R := by
  rw [follows_bind, Ports.ask, follows_perform]
  refine ⟨hc, fun x hx => ?_⟩
  rcases x with e | a
  · exact he e
  · exact hf a hx

theorem may_of_serves (c : Call) (h : c.Serves) : orderlyCalls.may () c := by
  rcases c with c | c
  · rcases c with key | ⟨key, job⟩ |
      ⟨key, j, replyText, replyTts, tailText, mode, request⟩ |
      ⟨key, j, m⟩ | ⟨key, j⟩ | ⟨key, j⟩
    case markReady =>
      have htail : tailText = none := h
      subst htail
      exact oneContinuation_none mode
    all_goals trivial
  · trivial

theorem may_of_appends (c : Call) (h : c.Appends) : orderlyCalls.may () c :=
  may_of_serves c (serves_of_records (records_of_appends h))

theorem may_of_analytics (c : Call) (h : c.analytics = true) :
    orderlyCalls.may () c :=
  may_of_serves c (serves_of_records (records_of_analytics h))

/-- Whatever the generation returns is a reply of the model. -/
theorem orderly_generating : Generating orderlyCalls ()
    fun r _ => ∀ reply, r = .ok reply → reply.Coherent where
  clock := by
    rintro op rfl
    exact ⟨trivial, fun _ => rfl⟩
  asks := fun _ _ _ _ _ => trivial
  answers := by
    rintro u history requestId timeout budget reply hreply _ ⟨⟩
    exact hreply
  fails := fun _ _ _ _ _ _ => rfl
  raises := by
    rintro e reply ⟨⟩

theorem orderly_processDeferredJob (job : DeferredJob)
    (deadlineSeconds : ℚ) :
    (processDeferredJob job deadlineSeconds).Follows orderlyCalls ()
      fun _ _ => True := by
  refine orderly_ask trivial (fun current _ => ?_) fun _ => trivial
  split
  · refine orderly_ask trivial (fun history _ => ?_) fun _ => trivial
    rw [bind_eq, follows_bind]
    refine (orderly_generating.generateDeferredReply job history _).mono
      fun r q hr => ?_
    rcases r with e | reply
    · trivial
    have hreply : reply.Coherent := hr reply rfl
    refine orderly_bind (only_appendTurns _ _) may_of_appends (fun _ => ?_)
      fun _ => trivial
    refine orderly_ask hreply.oneContinuation (fun updated _ => ?_)
      fun _ => trivial
    split
    · trivial
    · exact orderly_bind (only_persistAnalytics _ _ _ _) may_of_analytics
        (fun _ => trivial) fun _ => trivial
  · trivial

theorem orderly_processJob (cfg : Settings) (job : DeferredJob) :
    (processJob cfg job).Follows orderlyCalls () fun _ _ => True := by
  have hfail : ∀ m, (failDeferredJob job m).Follows orderlyCalls ()
      fun _ _ => True := fun m =>
    orderly_ask trivial (fun _ _ => orderly_of_only
      (only_persistAnalytics _ _ _ _) may_of_analytics) fun _ => trivial
  rw [processJob, bind_eq, follows_bind, follows_attempt]
  refine (orderly_processDeferredJob job _).mono fun r _ _ => ?_
  rcases r with e | reply
  · simp only [bind_eq, follows_bind, follows_attempt]
    refine (hfail _).mono fun r _ _ => ?_
    rcases r <;> trivial
  · trivial

theorem orderly_body (cfg : Settings) (task : Task) :
    (task.body cfg).Follows orderlyCalls () fun _ _ => True := by
  rcases task with payload | ⟨i, job⟩
  · exact orderly_bind (only_handle cfg payload) may_of_serves
      (fun _ => trivial) fun _ => trivial
  · rw [Task.body, workJob, bind_eq, Program.bind_assoc, follows_bind]
    refine (orderly_processJob cfg job).mono fun r _ _ => ?_
    rcases r with e | shouldAck
    · trivial
    rcases shouldAck with _ | _
    · trivial
    rcases job.streamId with _ | streamId
    · trivial
    · simp only [bind_eq, follows_bind, follows_attempt]
      rw [Ports.ack, Ports.ask, follows_perform]
      exact ⟨trivial, fun _ _ => trivial⟩

end Service

/-! ## Commands -/

/-- Only orderly records are written; those that are read are orderly. -/
def orderlyWrites : Protocol CommandSig PyException Unit where
  may _ op :=
    match op with
    | .kv _ (.set _ r) => r.Orderly
    | .kv _ (.setNx _ r) => r.Orderly
    | _ => True
  possible _ op x :=
    match op, x with
    | .kv _ (.get _), .ok (some r) => PendingReply.Orderly r
    | .port c, x => c.Gives x
    | _, _ => True
  next _ _ _ := ()

section Commands

open RedisPendingReplyStore

/-- A read, before the rest of a method. -/
theorem orderly_get {α : Type} {self : PendingCall} {key : Str}
    {f : Option PendingReply → StoreCode α}
    {R : Except PyException α → Unit → Prop}
    (hf : ∀ current, (∀ r, current = some r → r.Orderly) →
      (f current).Follows orderlyWrites () R) (he : ∀ e, R (.error e) ()) :
    ((get self key).bind f).Follows orderlyWrites () R := by
  rw [follows_bind, follows_get]
  refine ⟨trivial, fun x hx => ?_⟩
  rcases x with e | _ | r
  · exact he e
  · exact hf none (by rintro r ⟨⟩)
  · refine hf (some r) ?_
    rintro r' ⟨⟩
    exact hx

/-- An orderly record may be written. -/
theorem orderly_set {self : PendingCall} {key : Str} {r : PendingReply}
    (hr : r.Orderly) :
    (set self key r).Follows orderlyWrites () fun _ _ => True := by
  rw [follows_set]
  exact ⟨hr, fun _ _ => trivial⟩

theorem orderly_delete {self : PendingCall} {key : Str} :
    (delete self key).Follows orderlyWrites () fun _ _ => True := by
  rw [follows_delete]
  exact ⟨trivial, fun _ _ => trivial⟩

/-- Every method writes orderly records, if it is called in an orderly way. -/
theorem orderly_method (c : PendingCall)
    (hc : orderlyCalls.may () (.pending c)) :
    (method c).Follows orderlyWrites () fun _ _ => True := by
  rcases c with key | ⟨key, job⟩ |
    ⟨key, j, replyText, replyTts, tailText, mode, request⟩ |
    ⟨key, j, m⟩ | ⟨key, j⟩ | ⟨key, _ | j⟩
  · change (get _ key).Follows _ _ _
    rw [follows_get]
    exact ⟨trivial, fun _ _ => trivial⟩
  · change ((setNx _ key _).bind _).Follows _ _ _
    rw [follows_bind, follows_setNx]
    refine ⟨oneContinuation_none _, fun x _ => ?_⟩
    rcases x with e | created
    · trivial
    rcases created with _ | _
    · refine orderly_get (fun current _ => ?_) fun _ => trivial
      rcases current <;> trivial
    · trivial
  · refine orderly_get (fun current _ => ?_) fun _ => trivial
    split
    · trivial
    · simp only [bind_eq, follows_bind]
      have hready : (readyRecord j replyText replyTts tailText mode
        request).Orderly := hc
      refine (orderly_set hready).mono fun r _ _ => ?_
      rcases r <;> trivial
  · refine orderly_get (fun current _ => ?_) fun _ => trivial
    split
    · trivial
    · exact orderly_set (oneContinuation_none _)
  · refine orderly_get (fun current hcurrent => ?_) fun _ => trivial
    rcases current with _ | current
    · trivial
    · simp only
      split
      · trivial
      · have hdelivered : (deliveredRecord j current).Orderly :=
          hcurrent current rfl
        exact orderly_set hdelivered
  · exact orderly_delete
  · refine orderly_get (fun current _ => ?_) fun _ => trivial
    rcases current with _ | current
    · trivial
    · simp only
      split
      · trivial
      · exact orderly_delete

theorem orderly_implement (c : Call) (hc : orderlyCalls.may () c) :
    (implement c).Follows orderlyWrites () fun x _ =>
      orderlyCalls.possible () c x := by
  rcases c with c | c
  · exact (orderly_method c hc).mono fun _ _ _ => trivial
  · rw [follows_port]
    refine ⟨trivial, fun x hx => ?_⟩
    exact hx

end Commands

/-! ## The records of a run -/

variable {cfg : Settings} {s : RedisState}

/-- Every record is orderly. -/
def World.Orderly (w : World) : Prop :=
  ∀ key r, w.pending key = some r → r.Orderly

theorem World.Orderly.setPending {w : World} (h : w.Orderly) {key : Str}
    {r : Option PendingReply} (hr : ∀ r', r = some r' → r'.Orderly) :
    (w.setPending key r).Orderly := by
  intro key' r' hr'
  by_cases hkey : key' = key
  · rw [hkey, World.setPending_pending_same] at hr'
    exact hr r' hr'
  · rw [World.setPending_pending_ne _ _ hkey] at hr'
    exact h key' r' hr'

/-- What a port returns, whatever the environment answers. -/
theorem gives_exec (a : Answer) (c : PortCall) (w : World) :
    c.Gives (c.exec cfg a w).1 := by
  rcases c
  case generateReply => exact prepareLlmReply_coherent a.rawText
  all_goals trivial

/-- One command. -/
theorem orderly_execCommand {w : World} {a : Answer} {op : Command}
    (h : w.Orderly) (hmay : orderlyWrites.may () op) :
    orderlyWrites.possible () op (execCommand cfg a op w).1 ∧
      (execCommand cfg a op w).2.Orderly := by
  rcases hfault : a.fault with _ | e
  · rcases op with ⟨self, cmd⟩ | c
    · rw [execCommand_kv hfault]
      rcases cmd with key | ⟨key, r⟩ | ⟨key, r⟩ | key
      · refine ⟨?_, h⟩
        rcases hr : w.pending key with _ | r
        · simp only [KvCommand.reply, hr]
          trivial
        · simp only [KvCommand.reply, hr]
          exact h key r hr
      · refine ⟨trivial, h.setPending ?_⟩
        rintro r' ⟨⟩
        exact hmay
      · refine ⟨trivial, ?_⟩
        simp only [KvCommand.apply]
        split
        · refine h.setPending ?_
          rintro r' ⟨⟩
          exact hmay
        · exact h
      · refine ⟨trivial, h.setPending ?_⟩
        rintro r' ⟨⟩
    · rw [execCommand_port hfault]
      refine ⟨gives_exec a c w, fun key r hr => ?_⟩
      rw [PortCall.exec_pending] at hr
      exact h key r hr
  · rw [execCommand_fault hfault]
    refine ⟨?_, h⟩
    rcases op with ⟨self, cmd⟩ | c
    · rcases cmd <;> trivial
    · rcases c <;> trivial

/-- In every run every record is orderly. -/
theorem orderly_of_reachable {permits : Answer → Command → Prop}
    {C : RedisState → Schedule → Prop}
    (hs : (redisMachine cfg permits).Reachable C World.empty s) :
    s.world.Orderly := by
  have hbody : ∀ task : Task, ((task.body cfg).interp implement).Follows
      orderlyWrites () fun _ _ => True := by
    intro task
    have himpl : ∀ (q q' : Unit) (c : Call), True → orderlyCalls.may q c →
        (implement c).Follows orderlyWrites q' fun x q'' =>
          orderlyCalls.possible q c x ∧ True := fun q q' c _ hc =>
      (orderly_implement c hc).mono fun _ _ h => ⟨h, trivial⟩
    exact ((orderly_body cfg task).interp himpl trivial).mono
      fun _ _ _ => trivial
  refine (hs.discipline (P := orderlyWrites) (R := fun _ _ _ => True) hbody
    (G := fun w _ => w.Orderly) (T := fun _ _ _ _ _ => True)
    ?_ ?_ ?_ ?_).1
  · intro key r hr
    cases hr
  · intro _ _ _ _ _ _
    trivial
  · intro s tid task q op k a _ _ _ _ hmay h _
    have hstep : orderlyWrites.possible () op
          (execCommand cfg a op s.world).1 ∧
        (execCommand cfg a op s.world).2.Orderly := orderly_execCommand h hmay
    exact ⟨hstep.1, hstep.2, fun _ => trivial, fun _ _ _ _ _ _ => trivial⟩
  · intro s e _ _ h
    refine ⟨?_, fun _ _ _ _ => trivial⟩
    rcases e with key | key | key
    · refine h.setPending ?_
      rintro r' ⟨⟩
    · exact h
    · exact h

end AliceSkill
