import AliceSkill.Concurrent.Machines

/-!
# What one call does to the stores

The methods of the pending store executed at once, seen from a run: which
records, entries and ids can be new after a call.
-/

namespace AliceSkill

open Text Effects Program RedisPendingReplyStore

/-- The call stores the record under the key. -/
inductive Stores (w : World) : Call → Str → PendingReply → Prop where
  | started (key : Str) (job : DeferredJob) (hfree : w.pending key = none) :
      Stores w (.pending (.startPending key job)) key
        (processingRecord job.jobId)
  | published (key : Str) (j : JobId) (replyText replyTts : Str)
      (tailText : Option Str) (mode : FollowupMode) (request : Option Str)
      (hown : replacedBy (w.pending key) j = false) :
      Stores w (.pending (.markReady key j replyText replyTts tailText mode
          request)) key
        (readyRecord j replyText replyTts tailText mode request)
  | failed (key : Str) (j : JobId) (m : Str)
      (hown : replacedBy (w.pending key) j = false) :
      Stores w (.pending (.markFailed key j m)) key (failedRecord j m)
  | delivered (key : Str) (r : PendingReply) (hr : w.pending key = some r) :
      Stores w (.pending (.markDelivered key r.jobId)) key
        (deliveredRecord r.jobId r)

section Steps

variable {cfg : Settings} {a : Answer} {w : World} {op : Call}

theorem execCall_fault {e : PyException} (h : a.fault = some e) (op : Call) :
    execCall cfg a op w = (.error e, w) := by
  simp only [execCall, h]

theorem setPending_cases {key key' : Str} {r : Option PendingReply}
    {r' : PendingReply} (h : (w.setPending key r).pending key' = some r') :
    w.pending key' = some r' ∨ key' = key ∧ r = some r' := by
  by_cases hkey : key' = key
  · subst hkey
    rw [World.setPending_pending_same] at h
    exact Or.inr ⟨rfl, h⟩
  · rw [World.setPending_pending_ne _ _ hkey] at h
    exact Or.inl h

/-- A record is published only where no other job has one. -/
theorem publish_cases {key key' : Str} {j : JobId} {r r' : PendingReply}
    (h : (w.publish key j r).pending key' = some r') :
    w.pending key' = some r' ∨
      key' = key ∧ r' = r ∧ replacedBy (w.pending key) j = false := by
  rw [World.publish] at h
  split at h
  · exact Or.inl h
  · next hown =>
    apply (setPending_cases h).imp_right
    rintro ⟨hkey, hnew⟩
    exact ⟨hkey, (Option.some.inj hnew).symm, eq_false_of_ne_true hown⟩

/-- What a read of a record gives: an exception, nothing, or the record. -/
theorem getPending_cases (cfg : Settings) (a : Answer) (w : World) (key : Str) :
    (∃ e, (execCall cfg a (.pending (.getPending key)) w).1 = .error e) ∨
      (execCall cfg a (.pending (.getPending key)) w).1 = .ok none ∨
      ∃ r, w.pending key = some r ∧
        (execCall cfg a (.pending (.getPending key)) w).1 = .ok (some r) := by
  cases hfault : a.fault with
  | some e =>
      rw [execCall_fault hfault]
      exact Or.inl ⟨e, rfl⟩
  | none =>
      rw [execCall_getPending hfault]
      cases hr : w.pending key with
      | none => exact Or.inr (Or.inl rfl)
      | some r => exact Or.inr (Or.inr ⟨r, rfl, rfl⟩)

/-- Every record was there before the call or has been stored by it. -/
theorem record_cases {key : Str} {r : PendingReply}
    (h : (execCall cfg a op w).2.pending key = some r) :
    w.pending key = some r ∨ a.fault = none ∧ Stores w op key r := by
  rcases hfault : a.fault with _ | e
  · rcases op with c | c
    · rcases c with key' | ⟨key', job⟩ |
        ⟨key', j, replyText, replyTts, tailText, mode, request⟩ |
        ⟨key', j, m⟩ | ⟨key', j⟩ | ⟨key', _ | j⟩
      · rw [execCall_getPending hfault] at h
        exact Or.inl h
      · rw [execCall_startPending hfault, World.startPending] at h
        rcases hfree : w.pending key' with _ | r'
        · simp only [hfree] at h
          rcases setPending_cases h with hold | ⟨rfl, hnew⟩
          · exact Or.inl hold
          · cases hnew
            exact Or.inr ⟨rfl, .started key job hfree⟩
        · simp only [hfree] at h
          exact Or.inl h
      · rw [execCall_markReady hfault] at h
        rcases publish_cases h with hold | ⟨rfl, rfl, hown⟩
        · exact Or.inl hold
        · exact Or.inr ⟨rfl, .published _ _ _ _ _ _ _ hown⟩
      · rw [execCall_markFailed hfault] at h
        rcases publish_cases h with hold | ⟨rfl, rfl, hown⟩
        · exact Or.inl hold
        · exact Or.inr ⟨rfl, .failed _ _ _ hown⟩
      · rw [execCall_markDelivered hfault, World.markDelivered] at h
        rcases hr' : w.pending key' with _ | r'
        · simp only [hr'] at h
          exact Or.inl h
        · by_cases hj : r'.jobId = j
          · simp only [hr', hj, if_true] at h
            rcases setPending_cases h with hold | ⟨rfl, hnew⟩
            · exact Or.inl hold
            · cases hnew
              subst hj
              exact Or.inr ⟨rfl, .delivered _ _ hr'⟩
          · simp only [hr', hj, if_false] at h
            exact Or.inl h
      · rw [execCall_pending hfault] at h
        change (w.setPending key' none).pending key = some r at h
        rcases setPending_cases h with hold | ⟨rfl, hnew⟩
        · exact Or.inl hold
        · cases hnew
      · rw [execCall_clearPending hfault, World.clearPending] at h
        rcases hr' : w.pending key' with _ | r'
        · simp only [hr'] at h
          exact Or.inl h
        · by_cases hj : r'.jobId = j
          · simp only [hr', hj, if_true] at h
            rcases setPending_cases h with hold | ⟨rfl, hnew⟩
            · exact Or.inl hold
            · cases hnew
          · simp only [hr', hj, if_false] at h
            exact Or.inl h
    · rw [execCall_port hfault, PortCall.exec_pending] at h
      exact Or.inl h
  · rw [execCall_fault hfault] at h
    exact Or.inl h

/-- The methods of the pending store only touch the records. -/
theorem execCall_pending_frame (c : PendingCall) :
    (execCall cfg a (.pending c) w).2.stream = w.stream ∧
    (execCall cfg a (.pending c) w).2.nextId = w.nextId ∧
    (execCall cfg a (.pending c) w).2.idempotency = w.idempotency ∧
    (execCall cfg a (.pending c) w).2.history = w.history := by
  rcases hfault : a.fault with _ | e
  · rcases c with key' | ⟨key', job⟩ |
      ⟨key', j, replyText, replyTts, tailText, mode, request⟩ |
      ⟨key', j, m⟩ | ⟨key', j⟩ | ⟨key', _ | j⟩
    · rw [execCall_getPending hfault]
      exact ⟨rfl, rfl, rfl, rfl⟩
    · rw [execCall_startPending hfault, World.startPending]
      rcases w.pending key' <;> exact ⟨rfl, rfl, rfl, rfl⟩
    · rw [execCall_markReady hfault]
      simp only [World.publish]
      split <;> exact ⟨rfl, rfl, rfl, rfl⟩
    · rw [execCall_markFailed hfault]
      simp only [World.publish]
      split <;> exact ⟨rfl, rfl, rfl, rfl⟩
    · rw [execCall_markDelivered hfault, World.markDelivered]
      rcases w.pending key' with _ | r'
      · exact ⟨rfl, rfl, rfl, rfl⟩
      · simp only
        split <;> exact ⟨rfl, rfl, rfl, rfl⟩
    · rw [execCall_pending hfault]
      exact ⟨rfl, rfl, rfl, rfl⟩
    · rw [execCall_clearPending hfault, World.clearPending]
      rcases w.pending key' with _ | r'
      · exact ⟨rfl, rfl, rfl, rfl⟩
      · simp only
        split <;> exact ⟨rfl, rfl, rfl, rfl⟩
  · rw [execCall_fault hfault]
    exact ⟨rfl, rfl, rfl, rfl⟩

/-- The limiter counts, whether or not it rejects. -/
theorem exec_checkRateLimit (bucket : Str) :
    (PortCall.exec cfg a (.checkRateLimit bucket) w).2 =
      { w with rateCount :=
          World.updateAt w.rateCount bucket (w.rateCount bucket + 1) } := by
  simp only [PortCall.exec]
  split <;> rfl

/-- An entry of the stream was there before the call or has been enqueued by
it. -/
theorem stream_cases {e : StreamEntry} (h : e ∈ (execCall cfg a op w).2.stream) :
    (∃ e' ∈ w.stream, e.job = e'.job) ∨ op = .port (.enqueue e.job) := by
  rcases op with c | c
  · rw [(execCall_pending_frame c).1] at h
    exact Or.inl ⟨e, h, rfl⟩
  · rcases hfault : a.fault with _ | exc
    · rw [execCall_port hfault] at h
      rcases c with key | ⟨key, response⟩ | key | ⟨key, turn⟩ |
        ⟨u, history, requestId, deadline, budget⟩ | job | i | ⟨key, turns⟩ |
        ⟨job, reply, error⟩ | bucket | _ | _
      case enqueue =>
        rcases List.mem_append.mp h with h | h
        · exact Or.inl ⟨e, h, rfl⟩
        · rw [List.mem_singleton.mp h]
          exact Or.inr rfl
      case ack =>
        exact Or.inl (job_of_modify h)
      case checkRateLimit =>
        rw [exec_checkRateLimit] at h
        exact Or.inl ⟨e, h, rfl⟩
      all_goals exact Or.inl ⟨e, h, rfl⟩
    · rw [execCall_fault hfault] at h
      exact Or.inl ⟨e, h, rfl⟩

/-- Ids are drawn one after the other. -/
theorem nextId_cases :
    (execCall cfg a op w).2.nextId = w.nextId ∨
    a.fault = none ∧ op = .port .uuid4 ∧
      (execCall cfg a op w).2.nextId = w.nextId + 1 := by
  rcases op with c | c
  · exact Or.inl (execCall_pending_frame c).2.1
  · rcases hfault : a.fault with _ | e
    · rw [execCall_port hfault]
      rcases c
      case uuid4 => exact Or.inr ⟨rfl, rfl, rfl⟩
      case checkRateLimit =>
        rw [exec_checkRateLimit]
        exact Or.inl rfl
      all_goals exact Or.inl rfl
    · rw [execCall_fault hfault]
      exact Or.inl rfl

/-- The response cache changes only when a response is stored. -/
theorem cache_cases :
    (execCall cfg a op w).2.idempotency = w.idempotency ∨
    a.fault = none ∧ ∃ key response, op = .port (.storeResponse key response) ∧
      (execCall cfg a op w).2.idempotency =
        World.updateAt w.idempotency key (some response) := by
  rcases op with c | c
  · exact Or.inl (execCall_pending_frame c).2.2.1
  · rcases hfault : a.fault with _ | e
    · rw [execCall_port hfault]
      rcases c
      case storeResponse key response =>
        exact Or.inr ⟨rfl, key, response, rfl, rfl⟩
      case checkRateLimit =>
        rw [exec_checkRateLimit]
        exact Or.inl rfl
      all_goals exact Or.inl rfl
    · rw [execCall_fault hfault]
      exact Or.inl rfl

/-- The histories change only when a turn is appended. -/
theorem history_cases :
    (execCall cfg a op w).2.history = w.history ∨
    a.fault = none ∧ ∃ key turn, op = .port (.appendTurn key turn) := by
  rcases op with c | c
  · exact Or.inl (execCall_pending_frame c).2.2.2
  · rcases hfault : a.fault with _ | e
    · rw [execCall_port hfault]
      rcases c
      case appendTurn key turn => exact Or.inr ⟨rfl, key, turn, rfl⟩
      case checkRateLimit =>
        rw [exec_checkRateLimit]
        exact Or.inl rfl
      all_goals exact Or.inl rfl
    · rw [execCall_fault hfault]
      exact Or.inl rfl

/-- Calls that are not allowed to fail do not raise. -/
theorem mayRaise_of_error (ha : reliable op a.fault) {e : PyException}
    (h : (execCall cfg a op w).1 = .error e) :
    op.mayRaise = true ∨ ∃ bucket, op = .port (.checkRateLimit bucket) := by
  rcases hfault : a.fault with _ | e'
  · rcases op with c | c
    · rcases c with key | ⟨key, job⟩ |
        ⟨key, j, replyText, replyTts, tailText, mode, request⟩ |
        ⟨key, j, m⟩ | ⟨key, j⟩ | ⟨key, _ | j⟩
      · rw [execCall_getPending hfault] at h
        cases h
      · rw [execCall_startPending hfault] at h
        cases h
      · rw [execCall_markReady hfault] at h
        cases h
      · rw [execCall_markFailed hfault] at h
        cases h
      · rw [execCall_markDelivered hfault] at h
        cases h
      · rw [execCall_pending hfault] at h
        cases h
      · rw [execCall_clearPending hfault] at h
        cases h
    · rw [execCall_port hfault] at h
      rcases c
      case checkRateLimit bucket => exact Or.inr ⟨bucket, rfl⟩
      all_goals cases h
  · rw [hfault] at ha
    exact Or.inl ((reliable_some _ _).mp ha)

end Steps

end AliceSkill
