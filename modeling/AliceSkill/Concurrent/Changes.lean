import AliceSkill.Concurrent.Deferral

/-!
# What one command changes

A command of a thread in a given phase, seen from the records in progress and
the stream: most commands change nothing there, and the others are those that
draw an id, store the record of a job, enqueue the job or acknowledge it.
-/

namespace AliceSkill

open Text Effects Program Machine RedisPendingReplyStore ConversationService

/-- The record at the key is in progress for the job id. -/
def World.InProgress (w : World) (key : Str) (j : JobId) : Prop :=
  ∃ r, w.pending key = some r ∧ r.status = .processing ∧ r.jobId = j

/-- Every call may fail except the commands of `clear_pending`. -/
def clearsSucceed (a : Answer) : Command → Prop
  | .kv (.clearPending ..) _ => a.fault = none
  | _ => True

instance (a : Answer) : (op : Command) → Decidable (clearsSucceed a op)
  | .kv (.clearPending ..) _ => inferInstanceAs (Decidable (a.fault = none))
  | .kv (.getPending _) _ => .isTrue trivial
  | .kv (.startPending ..) _ => .isTrue trivial
  | .kv (.markReady ..) _ => .isTrue trivial
  | .kv (.markFailed ..) _ => .isTrue trivial
  | .kv (.markDelivered ..) _ => .isTrue trivial
  | .port _ => .isTrue trivial

/-- The command with which `start_pending` stores the record of a job. -/
def startCommand (job : DeferredJob) : Command :=
  .kv (startCall job) (.setNx job.conversationKey (processingRecord job.jobId))

/-- The record of the job was stored, or another one was found. -/
def startEvent (i : ℕ) (job : DeferredJob) (created : Bool) :
    Event CommandSig PyException :=
  ⟨i, startCommand job, Except.ok (ε := PyException) created⟩

/-- The thread has stored the record of the job. -/
def Started (log : List (Event CommandSig PyException)) (i : ℕ)
    (job : DeferredJob) : Prop :=
  startEvent i job true ∈ log

/-- The next call of the thread is to put the job on the stream, or is part of
the `clear_pending` that takes the record back. -/
def Finishing (s : RedisState) (i : ℕ) (job : DeferredJob) : Prop :=
  s.next i = some (.port (.enqueue job)) ∨
  s.next i = some (.kv (clearCall job) (.get job.conversationKey)) ∨
  s.next i = some (.kv (clearCall job) (.delete job.conversationKey))

/-! ## What one step can do -/

/-- The id a handler has drawn and not yet put on the stream. -/
def Phase.held : Phase → Option JobId
  | drawn j => some j
  | reading job => some job.jobId
  | entered job _ => some job.jobId
  | checking job _ => some job.jobId
  | deleting job _ => some job.jobId
  | _ => none

/-- The job a worker execution is about. -/
def Phase.worked : Phase → Option DeferredJob
  | working job => some job
  | settled job => some job
  | _ => none

/-- Nothing is started, enqueued, acknowledged or drawn. -/
structure Calm (w w' : World) : Prop where
  progress : ∀ {key j}, w'.InProgress key j → w.InProgress key j
  stream : w'.stream = w.stream
  nextId : w'.nextId = w.nextId

theorem Calm.refl (w : World) : Calm w w := ⟨id, rfl, rfl⟩

/-- A step of a thread in phase `q`, seen from the store and the stream. -/
inductive Change (w : World) (q : Phase) :
    (op : Command) → Except PyException op.Res → World → Phase → Prop where
  | quiet {op x w' q'} (hcalm : Calm w w')
      (hheld : q'.held = none ∨ q'.held = q.held)
      (hunfinished : ∀ job, q'.unfinished = some job → q.unfinished = some job)
      (hleft : ∀ job, q.unfinished = some job → q'.unfinished = some job ∨
        ¬w'.InProgress job.conversationKey job.jobId)
      (hworked : q'.worked = q.worked)
      (hsettled : ∀ job, q' = .settled job → q = .settled job ∨
        ¬w'.InProgress job.conversationKey job.jobId) :
      Change w q op x w' q'
  | drew (hq : q = .fresh) :
      Change w q (.port .uuid4) (.ok w.nextId)
        { w with nextId := w.nextId + 1 } (.drawn w.nextId)
  | started (job : DeferredJob) (hq : q = .drawn job.jobId)
      (hfree : w.pending job.conversationKey = none) :
      Change w q (startCommand job) (Except.ok (ε := PyException) true)
        (w.setPending job.conversationKey (some (processingRecord job.jobId)))
        (.entered job true)
  | queued (job : DeferredJob) (stored : Bool) (hq : q = .entered job stored) :
      Change w q (.port (.enqueue job)) (.ok ())
        { w with stream := w.stream ++ [⟨job, false⟩] }
        (.replied job stored true)
  | acked (job : DeferredJob) (i : StreamId) (hq : q = .settled job)
      (hi : job.streamId = some i) :
      Change w q (.port (.ack i)) (.ok ())
        { w with stream := w.stream.modify i fun e => { e with acked := true } }
        (.settled job)

theorem calm_setPending {w : World} {key : Str} {r : Option PendingReply}
    (hr : ∀ r', r = some r' → r'.status ≠ .processing) :
    Calm w (w.setPending key r) := by
  refine ⟨?_, rfl, rfl⟩
  rintro key' j ⟨r', hr', hstatus, hj⟩
  by_cases hkey : key' = key
  · subst hkey
    rw [World.setPending_pending_same] at hr'
    exact absurd hstatus (hr r' hr')
  · rw [World.setPending_pending_ne _ _ hkey] at hr'
    exact ⟨r', hr', hstatus, hj⟩

theorem calm_expire (w : World) (e : Expiry) : Calm w (w.expire e) := by
  rcases e with key | key | key
  · exact calm_setPending (by simp)
  · exact ⟨id, rfl, rfl⟩
  · exact ⟨id, rfl, rfl⟩

/-- A background call does not touch records, stream or ids. -/
theorem calm_background {cfg : Settings} {a : Answer} {w : World} {c : PortCall}
    (h : (Call.port c).Background) :
    Calm w (execCommand cfg a (.port c) w).2 := by
  rcases hfault : a.fault with _ | e
  · rw [execCommand_port hfault]
    refine ⟨?_, ?_, ?_⟩
    · rintro key j ⟨r, hr, hrest⟩
      rw [PortCall.exec_pending] at hr
      exact ⟨r, hr, hrest⟩
    · rcases c <;> first | rfl | exact h.elim | skip
      simp only [PortCall.exec]
      split <;> rfl
    · rcases c <;> first | rfl | exact h.elim | skip
      simp only [PortCall.exec]
      split <;> rfl
  · rw [execCommand_fault hfault]
    exact Calm.refl w

/-- A plain command starts no job. -/
theorem calm_plain {cfg : Settings} {a : Answer} {w : World} {op : Command}
    (h : op.Plain) : Calm w (execCommand cfg a op w).2 := by
  rcases op with ⟨self, cmd⟩ | c
  · rcases hfault : a.fault with _ | e
    · rw [execCommand_kv hfault]
      rcases cmd with key | ⟨key, r⟩ | ⟨key, r⟩ | key
      · exact Calm.refl w
      · refine calm_setPending ?_
        rintro r' ⟨⟩
        exact h
      · exact h.elim
      · exact calm_setPending (by simp)
    · rw [execCommand_fault hfault]
      exact Calm.refl w
  · refine calm_background ?_
    rcases c <;> exact h

/-- What is in progress is what was read. -/
theorem not_inProgress_of_read {w : World} {key : Str} {j : JobId}
    (h : isProcessingFor (w.pending key) j = false) : ¬w.InProgress key j := by
  rintro ⟨r, hr, hstatus, hj⟩
  simp [hr, isProcessingFor, hstatus, hj] at h

theorem not_inProgress_of_replaced {w : World} {key : Str} {j : JobId}
    (h : replacedBy (w.pending key) j = true) : ¬w.InProgress key j := by
  rintro ⟨r, hr, hstatus, hj⟩
  simp [hr, replacedBy, hj] at h

theorem not_inProgress_setPending {w : World} {key : Str} {j : JobId}
    {r : Option PendingReply} (hr : ∀ r', r = some r' → r'.status ≠ .processing) :
    ¬(w.setPending key r).InProgress key j := by
  rintro ⟨r', hr', hstatus, hj⟩
  rw [World.setPending_pending_same] at hr'
  exact hr r' hr' hstatus

section Steps

variable {cfg : Settings} {a : Answer} {w : World} {op : Command}

/-- A calm step that does not move the thread. -/
theorem change_stay {q : Phase} {x : Except PyException op.Res} {w' : World}
    (h : Calm w w') : Change w q op x w' q :=
  .quiet h (Or.inr rfl) (fun _ => id) (fun _ => Or.inl) rfl fun _ => Or.inl

/-- A failed command that does not move the thread. -/
theorem change_fault {q : Phase} {e : PyException} (hfault : a.fault = some e)
    (hq : deferral.next q op (.error e) = q) :
    Change w q op (execCommand cfg a op w).1 (execCommand cfg a op w).2
      (deferral.next q op (execCommand cfg a op w).1) := by
  rw [execCommand_fault hfault]
  simp only [hq]
  exact change_stay (Calm.refl w)

/-- The step of a thread that has nothing to finish and, if it is a worker,
does not settle its job. -/
theorem change_plain {q : Phase} (hq : q.Idle) (h : op.Plain) :
    Change w q op (execCommand cfg a op w).1 (execCommand cfg a op w).2
      (deferral.next q op (execCommand cfg a op w).1) := by
  rw [(idle_stays hq h).2]
  exact change_stay (calm_plain h)

theorem change_fresh (h : deferral.may .fresh op) :
    Change w .fresh op (execCommand cfg a op w).1 (execCommand cfg a op w).2
      (deferral.next .fresh op (execCommand cfg a op w).1) := by
  rcases h with h | rfl
  · exact change_plain idle_fresh h
  · rcases hfault : a.fault with _ | e
    · rw [execCommand_port hfault]
      exact .drew rfl
    · exact change_fault hfault rfl

theorem change_drawn {j : JobId} (h : deferral.may (.drawn j) op) :
    Change w (.drawn j) op (execCommand cfg a op w).1
      (execCommand cfg a op w).2
      (deferral.next (.drawn j) op (execCommand cfg a op w).1) := by
  rcases h with h | ⟨job, rfl, rfl⟩
  · exact change_plain (Or.inr ⟨j, rfl⟩) h
  · rcases hfault : a.fault with _ | e
    · rw [execCommand_kv hfault]
      rcases hfree : w.pending job.conversationKey with _ | r
      · simp only [KvCommand.reply, KvCommand.apply, hfree, Option.isNone_none,
          if_true]
        exact .started job rfl hfree
      · simp only [KvCommand.reply, KvCommand.apply, hfree, Option.isNone_some,
          Bool.false_eq_true, if_false]
        exact .quiet (Calm.refl w) (Or.inr rfl) (by rintro job' ⟨⟩)
          (by rintro job' ⟨⟩) rfl (by rintro job' ⟨⟩)
    · rw [execCommand_fault hfault]
      exact .quiet (Calm.refl w) (Or.inl rfl) (by rintro job' ⟨⟩)
        (by rintro job' ⟨⟩) rfl (by rintro job' ⟨⟩)

theorem change_reading {job : DeferredJob}
    (h : deferral.may (.reading job) op) :
    Change w (.reading job) op (execCommand cfg a op w).1
      (execCommand cfg a op w).2
      (deferral.next (.reading job) op (execCommand cfg a op w).1) := by
  have hop : op = .kv (startCall job) (.get job.conversationKey) := h
  subst hop
  rcases hfault : a.fault with _ | e
  · rw [execCommand_kv hfault]
    simp only [KvCommand.reply, KvCommand.apply, deferral, Phase.next]
    rcases replacedBy (w.pending job.conversationKey) job.jobId with _ | _
    · exact .quiet (Calm.refl w) (Or.inr rfl) (by rintro job' ⟨⟩)
        (by rintro job' ⟨⟩) rfl (by rintro job' ⟨⟩)
    · exact .quiet (Calm.refl w) (Or.inl rfl) (by rintro job' ⟨⟩)
        (by rintro job' ⟨⟩) rfl (by rintro job' ⟨⟩)
  · rw [execCommand_fault hfault]
    exact .quiet (Calm.refl w) (Or.inl rfl) (by rintro job' ⟨⟩)
      (by rintro job' ⟨⟩) rfl (by rintro job' ⟨⟩)

theorem change_entered {job : DeferredJob} {stored : Bool}
    (h : deferral.may (.entered job stored) op) :
    Change w (.entered job stored) op (execCommand cfg a op w).1
      (execCommand cfg a op w).2
      (deferral.next (.entered job stored) op (execCommand cfg a op w).1) := by
  have hop : op = .port (.enqueue job) := h
  subst hop
  rcases hfault : a.fault with _ | e
  · rw [execCommand_port hfault]
    exact .queued job stored rfl
  · rw [execCommand_fault hfault]
    refine .quiet (Calm.refl w) (Or.inr rfl) ?_ ?_ rfl (by rintro job' ⟨⟩)
    · intro job' hjob'
      rcases stored <;> exact hjob'
    · intro job' hjob'
      rcases stored <;> exact Or.inl hjob'

/-- Taking a record back ends when there is no record of the job. -/
theorem change_ended {job : DeferredJob} {stored : Bool} {q : Phase}
    {x : Except PyException op.Res} {w' : World}
    (hq : q = .checking job stored ∨ q = .deleting job stored)
    (hcalm : Calm w w')
    (hgone : ¬w'.InProgress job.conversationKey job.jobId) :
    Change w q op x w' .ended := by
  refine .quiet hcalm (Or.inl rfl) (by rintro job' ⟨⟩) ?_ ?_ (by rintro job' ⟨⟩)
  · intro job' hjob'
    have hjob : job' = job := by
      rcases hq with rfl | rfl <;> rcases stored <;> cases hjob' <;> rfl
    subst hjob
    exact Or.inr hgone
  · rcases hq with rfl | rfl <;> rfl

theorem change_checking {job : DeferredJob} {stored : Bool}
    (h : deferral.may (.checking job stored) op) (ha : clearsSucceed a op) :
    Change w (.checking job stored) op (execCommand cfg a op w).1
      (execCommand cfg a op w).2
      (deferral.next (.checking job stored) op (execCommand cfg a op w).1) := by
  have hop : op = .kv (clearCall job) (.get job.conversationKey) := h
  subst hop
  have hfault : a.fault = none := ha
  rw [execCommand_kv hfault]
  simp only [KvCommand.reply, KvCommand.apply]
  rcases hr : w.pending job.conversationKey with _ | r
  · refine change_ended (Or.inl rfl) (Calm.refl w) ?_
    rintro ⟨r, hr', -⟩
    rw [hr] at hr'
    cases hr'
  · by_cases hj : r.jobId = job.jobId
    · simp only [deferral, Phase.next, hj, if_true]
      refine .quiet (Calm.refl w) (Or.inr rfl) ?_ ?_ rfl (by rintro job' ⟨⟩)
      · intro job' hjob'
        rcases stored <;> exact hjob'
      · intro job' hjob'
        rcases stored <;> exact Or.inl hjob'
    · simp only [deferral, Phase.next, hj, if_false]
      refine change_ended (Or.inl rfl) (Calm.refl w) ?_
      exact not_inProgress_of_replaced (by simp [hr, replacedBy, hj])

theorem change_deleting {job : DeferredJob} {stored : Bool}
    (h : deferral.may (.deleting job stored) op) (ha : clearsSucceed a op) :
    Change w (.deleting job stored) op (execCommand cfg a op w).1
      (execCommand cfg a op w).2
      (deferral.next (.deleting job stored) op (execCommand cfg a op w).1) := by
  have hop : op = .kv (clearCall job) (.delete job.conversationKey) := h
  subst hop
  have hfault : a.fault = none := ha
  rw [execCommand_kv hfault]
  exact change_ended (Or.inr rfl) (calm_setPending (by simp))
    (not_inProgress_setPending (by simp))

/-- A worker settles its job only when the record is not in progress. -/
theorem change_working {job : DeferredJob} {q' : Phase}
    {x : Except PyException op.Res} {w' : World} (hcalm : Calm w w')
    (hq' : q' = .working job ∨
      q' = .settled job ∧ ¬w'.InProgress job.conversationKey job.jobId) :
    Change w (.working job) op x w' q' := by
  rcases hq' with rfl | ⟨rfl, hsettled⟩
  · exact change_stay hcalm
  · refine .quiet hcalm (Or.inl rfl) (by rintro job' ⟨⟩) (by rintro job' ⟨⟩) rfl ?_
    rintro job' ⟨⟩
    exact Or.inr hsettled

theorem change_worksOn {job : DeferredJob}
    (h : deferral.may (.working job) op) :
    Change w (.working job) op (execCommand cfg a op w).1
      (execCommand cfg a op w).2
      (deferral.next (.working job) op (execCommand cfg a op w).1) := by
  have hop : op.WorksOn job := h
  rcases hfault : a.fault with _ | e
  · rcases op with ⟨self, cmd⟩ | c
    · rw [execCommand_kv hfault]
      rcases cmd with key | ⟨key, r⟩ | ⟨key, r⟩ | key
      · obtain ⟨rfl, hself⟩ := hop
        refine change_working (Calm.refl w) ?_
        rcases hself with rfl | hself
        · simp only [deferral, Phase.next, KvCommand.reply, KvCommand.apply]
          rcases hrun : isProcessingFor (w.pending job.conversationKey)
            job.jobId with _ | _
          · exact Or.inr ⟨rfl, not_inProgress_of_read hrun⟩
          · exact Or.inl rfl
        · have hnext : deferral.next (.working job)
              (.kv self (.get job.conversationKey))
              (.ok (w.pending job.conversationKey)) =
              if replacedBy (w.pending job.conversationKey) job.jobId
              then .settled job else .working job := by
            rcases self <;> first | rfl | cases hself
          simp only [KvCommand.reply, KvCommand.apply, hnext]
          rcases hr : replacedBy (w.pending job.conversationKey)
            job.jobId with _ | _
          · exact Or.inl rfl
          · exact Or.inr ⟨rfl, not_inProgress_of_replaced hr⟩
      · obtain ⟨rfl, -, hr⟩ := hop
        have hnot : ∀ r', some r = some r' → r'.status ≠ .processing := by
          rintro r' ⟨⟩
          exact hr
        refine change_working (calm_setPending hnot)
          (Or.inr ⟨?_, not_inProgress_setPending hnot⟩)
        rcases self <;> rfl
      · exact hop.elim
      · exact hop.elim
    · refine change_working (calm_background hop) (Or.inl rfl)
  · refine change_fault hfault ?_
    rcases op with ⟨self, cmd⟩ | c
    · rcases cmd <;> rcases self <;> rfl
    · rfl

theorem change_settled {job : DeferredJob}
    (h : deferral.may (.settled job) op) :
    Change w (.settled job) op (execCommand cfg a op w).1
      (execCommand cfg a op w).2
      (deferral.next (.settled job) op (execCommand cfg a op w).1) := by
  rcases h with ⟨i, hi, rfl⟩ | ⟨c, rfl, hc⟩
  · rcases hfault : a.fault with _ | e
    · rw [execCommand_port hfault]
      exact .acked job i rfl hi
    · exact change_fault hfault rfl
  · exact change_stay (calm_background hc)

/-- Everything a thread can do to the accounts. -/
theorem change_of_may {q : Phase} (h : deferral.may q op)
    (ha : clearsSucceed a op) :
    Change w q op (execCommand cfg a op w).1 (execCommand cfg a op w).2
      (deferral.next q op (execCommand cfg a op w).1) := by
  rcases q with _ | j | job | ⟨job, stored⟩ | ⟨job, stored⟩ | ⟨job, stored⟩ |
    ⟨job, stored, enqueued⟩ | _ | job | job
  · exact change_fresh h
  · exact change_drawn h
  · exact change_reading h
  · exact change_entered h
  · exact change_checking h ha
  · exact change_deleting h ha
  · obtain ⟨key, response, rfl⟩ := h
    exact change_stay (calm_background trivial)
  · exact h.elim
  · exact change_worksOn h
  · exact change_settled h

end Steps

end AliceSkill
