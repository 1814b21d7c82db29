import AliceSkill.Concurrent.Accounting

/-!
# Questions and the queue

What a user can rely on after a question has been put off: as long as its
record is in progress, somebody is going to work on it.
-/

namespace AliceSkill

open Text Effects Program Machine RedisPendingReplyStore ConversationService

variable {cfg : Settings} {s : RedisState}

/-- The accounts are in order in every reachable state. -/
theorem accounted_of_reachable
    (hs : (redisMachine cfg clearsSucceed).Reachable Any World.empty s) :
    ∃ ph, Accounted s.world s.log s.threads.length ph ∧
      ∀ i (th : Thread CommandSig PyException Task _),
        s.threads[i]? = some th → th.prog.Follows deferral (ph i)
          fun _ q => q.unfinished = none := by
  refine hs.phases (P := deferral) (R := fun _ _ q => q.unfinished = none)
    (follows_body cfg)
    (I := fun s ph => Accounted s.world s.log s.threads.length ph)
    (fun _ => .ended) Accounted.empty ?_ ?_ ?_
  · intro s ph task _ _ hadm _ h
    have hlength : (spawned (redisMachine cfg clearsSucceed) s task).threads.length =
        s.threads.length + 1 := by
      simp [spawned]
    rw [hlength]
    exact h.spawn hadm
  · intro s ph tid task op k a _ hth _ ha hmay _ h
    refine ⟨trivial, fun _ => ?_⟩
    have hlength : (afterCall (redisMachine cfg clearsSucceed) s tid task op k
        a).threads.length = s.threads.length := by
      simp [afterCall]
    rw [hlength]
    exact h.call (List.getElem?_eq_some_iff.mp hth).1 (change_of_may hmay ha)
  · intro s ph e _ _ h
    exact h.calm (calm_expire s.world e)

/-- A handler with unfinished business goes on with it. -/
theorem finishing_of_unfinished {i : ℕ} {job : DeferredJob} {q : Phase}
    {th : Thread CommandSig PyException Task (Option AliceWebhookResponse)}
    (hth : s.threads[i]? = some th) (hq : q.unfinished = some job)
    (hfollows : th.prog.Follows deferral q fun _ q => q.unfinished = none) :
    Finishing s i job := by
  obtain ⟨task, prog⟩ := th
  have hnext : ∀ {op k}, prog = .call op k → s.next i = some op :=
    fun h => State.next_eq_some.mpr ⟨task, _, h ▸ hth⟩
  rcases prog with r | e | ⟨op, k⟩
  · have hdone : q.unfinished = none := hfollows
    rw [hq] at hdone
    cases hdone
  · have hdone : q.unfinished = none := hfollows
    rw [hq] at hdone
    cases hdone
  · have hmay : q.May op := hfollows.1
    have hop : s.next i = some op := hnext rfl
    rcases q with _ | j | job' | ⟨job', _ | _⟩ | ⟨job', _ | _⟩ | ⟨job', _ | _⟩ |
      ⟨job', stored, enqueued⟩ | _ | job' | job' <;> cases hq
    · have hmay' : op = .port (.enqueue job) := hmay
      exact Or.inl (hmay' ▸ hop)
    · have hmay' : op = .kv (clearCall job) (.get job.conversationKey) := hmay
      exact Or.inr (Or.inl (hmay' ▸ hop))
    · have hmay' : op = .kv (clearCall job) (.delete job.conversationKey) :=
        hmay
      exact Or.inr (Or.inr (hmay' ▸ hop))

/-- The job of the record at the key was started by a handler that has not
finished enqueueing it, or it is an entry of the stream that has not been
acknowledged. -/
def Pursued (s : RedisState) (key : Str) (j : JobId) : Prop :=
  (∃ i job, job.jobId = j ∧ job.conversationKey = key ∧
    Started s.log i job ∧ Finishing s i job) ∨
  ∃ e ∈ s.world.stream, e.acked = false ∧ e.job.jobId = j ∧
    e.job.conversationKey = key

/-- No job is lost: every record in progress is pursued, and a worker that is
about to acknowledge an entry leaves no record of its job in progress. -/
theorem no_job_is_lost (cfg : Settings) {s : RedisState}
    (hs : (redisMachine cfg clearsSucceed).Reachable Any World.empty s) :
    (∀ key r, s.world.pending key = some r → r.status = .processing →
      Pursued s key r.jobId) ∧
    ∀ i sid e, s.next i = some (.port (.ack sid)) →
      s.world.stream[sid]? = some e →
        ∀ key r, s.world.pending key = some r → r.status = .processing →
          r.jobId ≠ e.job.jobId := by
  obtain ⟨ph, h, hfollows⟩ := accounted_of_reachable hs
  constructor
  · intro key r hr hstatus
    rcases h.progress ⟨r, hr, hstatus, rfl⟩ with ⟨i, job, hi, hid, hkey⟩ | hqueued
    · obtain ⟨hlt, hstarted⟩ := h.started hi
      obtain ⟨th, hth⟩ : ∃ th, s.threads[i]? = some th :=
        ⟨_, List.getElem?_eq_getElem hlt⟩
      exact Or.inl ⟨i, job, hid, hkey, hstarted,
        finishing_of_unfinished hth hi (hfollows i th hth)⟩
    · exact Or.inr hqueued
  · intro i sid e hnext he key r hr hstatus hid
    obtain ⟨task, k, hth⟩ := State.next_eq_some.mp hnext
    have hmay := (hfollows i _ hth).1
    obtain ⟨job, hq, hsid⟩ : ∃ job, ph i = .settled job ∧
        job.streamId = some sid := by
      generalize ph i = q at hmay
      rcases q with _ | j | job | ⟨job, stored⟩ | ⟨job, stored⟩ |
        ⟨job, stored⟩ | ⟨job, stored, enqueued⟩ | _ | job | job
      · rcases hmay with hmay | hmay
        · exact hmay.elim
        · cases hmay
      · rcases hmay with hmay | ⟨job, -, hmay⟩
        · exact hmay.elim
        · cases hmay
      · cases hmay
      · cases hmay
      · cases hmay
      · cases hmay
      · obtain ⟨key, response, hmay⟩ := hmay
        cases hmay
      · exact hmay.elim
      · exact (hmay : False).elim
      · rcases hmay with ⟨i', hi', hmay⟩ | ⟨c, hmay, hc⟩
        · cases hmay
          exact ⟨job, rfl, hi'⟩
        · cases hmay
          exact hc.elim
    have hworked : (ph i).worked = some job := by
      rw [hq]
      rfl
    obtain ⟨sid', e', hsid', he', hid', -⟩ := h.worked hworked
    rw [hsid] at hsid'
    cases hsid'
    rw [he] at he'
    cases he'
    exact h.settled hq key ⟨r, hr, hstatus, hid.trans hid'⟩

theorem deferred_job_is_pursued :
    ∃ s : RedisState, ∃ r, s.world.pending
        (utter 1 "что такое кит").conversationKey = some r ∧
      r.status = .processing ∧
      Pursued s (utter 1 "что такое кит").conversationKey r.jobId := by
  let key := (utter 1 "что такое кит").conversationKey
  have hrun : ((redisMachine .default clearsSucceed).runFrom Any
      (initial World.empty)
      (deferringSchedule 0 (utter 1 "что такое кит"))).map (fun s =>
        (s.world.pending key).map PendingReply.status) =
      some (some .processing) := by
    decide +kernel
  obtain ⟨s, hs, hobs⟩ := Option.map_eq_some_iff.mp hrun
  obtain ⟨r, hr, hstatus⟩ := Option.map_eq_some_iff.mp hobs
  exact ⟨s, r, hr, hstatus,
    (no_job_is_lost .default (reachable_runFrom .start hs)).1 key r hr hstatus⟩

end AliceSkill
