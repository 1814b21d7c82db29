import AliceSkill.Concurrent.Changes

/-!
# Jobs in progress are accounted for

A record in progress belongs either to a handler that has not finished
enqueueing its job, or to an entry of the stream that still has to be
acknowledged.  The two stores are written one after the other, so the argument
follows the phases of all threads: ids drawn by a handler are its own until the
job is on the stream, and a worker acknowledges an entry only after it has seen
that the record of the job is no longer in progress.
-/

namespace AliceSkill

open Text Effects Program Machine RedisPendingReplyStore ConversationService

/-- What the stores, the log and the phases of the `n` threads know of the
jobs that have been started. -/
structure Accounted (w : World) (log : List (Event CommandSig PyException))
    (n : ℕ) (ph : ℕ → Phase) : Prop where
  /-- An unfinished handler has stored the record of its job. -/
  started : ∀ {i job}, (ph i).unfinished = some job →
    i < n ∧ Started log i job
  held_lt : ∀ {i j}, (ph i).held = some j → j < w.nextId
  /-- Ids are drawn by one handler each. -/
  held_inj : ∀ {i i' j}, (ph i).held = some j → (ph i').held = some j → i = i'
  held_new : ∀ {i j}, (ph i).held = some j →
    ∀ e ∈ w.stream, e.job.jobId ≠ j
  queued_lt : ∀ e ∈ w.stream, e.job.jobId < w.nextId
  /-- A worker works on what has been on the stream. -/
  worked : ∀ {i job}, (ph i).worked = some job →
    ∃ (sid : StreamId) (e : StreamEntry), job.streamId = some sid ∧
      w.stream[sid]? = some e ∧ e.job.jobId = job.jobId ∧
      e.job.conversationKey = job.conversationKey
  /-- A record in progress is unfinished business or on the stream. -/
  progress : ∀ {key j}, w.InProgress key j →
    (∃ i job, (ph i).unfinished = some job ∧ job.jobId = j ∧
      job.conversationKey = key) ∨
    ∃ e ∈ w.stream, e.acked = false ∧ e.job.jobId = j ∧
      e.job.conversationKey = key
  /-- The record of a job is under the key of its conversation. -/
  placed : ∀ {key j}, w.InProgress key j → ∀ e ∈ w.stream,
    e.job.jobId = j → e.job.conversationKey = key
  /-- A settled job has no record in progress. -/
  settled : ∀ {i job}, ph i = .settled job → ∀ key,
    ¬w.InProgress key job.jobId

theorem Phase.held_of_unfinished {q : Phase} {job : DeferredJob}
    (h : q.unfinished = some job) : q.held = some job.jobId := by
  rcases q with _ | j | job' | ⟨job', _ | _⟩ | ⟨job', _ | _⟩ | ⟨job', _ | _⟩ |
    ⟨job', stored, enqueued⟩ | _ | job' | job' <;> cases h <;> rfl

/-- What held of the threads before one of them moved. -/
theorem some_of_update {α : Type} {ph : ℕ → Phase} {i i' : ℕ} {q : Phase}
    {g : Phase → Option α} {x : α}
    (hq : g q = none ∨ g q = g (ph i))
    (h : g (Function.update ph i q i') = some x) : g (ph i') = some x := by
  by_cases hi : i' = i
  · subst hi
    rw [Function.update_self] at h
    rcases hq with hq | hq
    · rw [hq] at h
      cases h
    · rwa [hq] at h
  · rwa [Function.update_of_ne hi] at h

namespace Accounted

variable {w : World} {log : List (Event CommandSig PyException)} {n : ℕ}
variable {ph : ℕ → Phase}

theorem empty : Accounted World.empty [] 0 fun _ => .ended where
  started := by simp [Phase.unfinished]
  held_lt := by simp [Phase.held]
  held_inj := by simp [Phase.held]
  held_new := by simp [Phase.held]
  queued_lt := by simp [World.empty]
  worked := by simp [Phase.worked]
  progress := by simp [World.InProgress, World.empty]
  placed := by simp [World.InProgress, World.empty]
  settled := by simp

/-- Changes of the store that start nothing. -/
theorem calm (h : Accounted w log n ph) {w' : World} (hw : Calm w w') :
    Accounted w' log n ph where
  started := h.started
  held_lt hj := hw.nextId ▸ h.held_lt hj
  held_inj := h.held_inj
  held_new hj e he := h.held_new hj e (hw.stream ▸ he)
  queued_lt e he := hw.nextId ▸ h.queued_lt e (hw.stream ▸ he)
  worked hjob := hw.stream ▸ h.worked hjob
  progress hp := hw.stream ▸ h.progress (hw.progress hp)
  placed hp e he := h.placed (hw.progress hp) e (hw.stream ▸ he)
  settled hq key hp := h.settled hq key (hw.progress hp)

/-- A thread is started for a request or for an entry of the stream. -/
theorem spawn (h : Accounted w log n ph) {task : Task} (hadm : task.Admits w) :
    Accounted w log (n + 1) (Function.update ph n task.phase) := by
  have hnew : task.phase.unfinished = none ∧ task.phase.held = none ∧
      ∀ job, task.phase ≠ .settled job := by
    rcases task <;> simp [Task.phase, Phase.unfinished, Phase.held]
  obtain ⟨hunfinished, hheld, hsettled⟩ := hnew
  refine { h with
    started := ?_, held_lt := ?_, held_inj := ?_, held_new := ?_
    worked := ?_, progress := ?_, settled := ?_ }
  · intro i job hi
    have hold := h.started (some_of_update (Or.inl hunfinished) hi)
    exact ⟨by omega, hold.2⟩
  · intro i j hi
    exact h.held_lt (some_of_update (Or.inl hheld) hi)
  · intro i i' j hi hi'
    exact h.held_inj (some_of_update (Or.inl hheld) hi)
      (some_of_update (Or.inl hheld) hi')
  · intro i j hi
    exact h.held_new (some_of_update (Or.inl hheld) hi)
  · intro i job hi
    by_cases hin : i = n
    · rw [hin, Function.update_self] at hi
      rcases task with payload | ⟨sid, job'⟩
      · cases hi
      · cases hi
        obtain ⟨e, he, -, rfl⟩ := Task.admits_work hadm
        exact ⟨sid, e, rfl, he, rfl, rfl⟩
    · rw [Function.update_of_ne hin] at hi
      exact h.worked hi
  · intro key j hp
    rcases h.progress hp with ⟨i, job, hi, hrest⟩ | hqueued
    · have hin : i ≠ n := by
        have := (h.started hi).1
        omega
      refine Or.inl ⟨i, job, ?_, hrest⟩
      rwa [Function.update_of_ne hin]
    · exact Or.inr hqueued
  · intro i job hi
    by_cases hin : i = n
    · rw [hin, Function.update_self] at hi
      exact absurd hi (hsettled job)
    · rw [Function.update_of_ne hin] at hi
      exact h.settled hi

variable {tid : ℕ} {q : Phase} {ev : Event CommandSig PyException}

theorem started_cons (h : Accounted w log n ph) {i : ℕ} {job : DeferredJob}
    (hi : (ph i).unfinished = some job) : i < n ∧ Started (ev :: log) i job :=
  ⟨(h.started hi).1, List.mem_cons_of_mem ev (h.started hi).2⟩

theorem quiet (h : Accounted w log n ph) {w' : World} (hcalm : Calm w w')
    (hheld : q.held = none ∨ q.held = (ph tid).held)
    (hunfinished : ∀ job, q.unfinished = some job →
      (ph tid).unfinished = some job)
    (hleft : ∀ job, (ph tid).unfinished = some job →
      q.unfinished = some job ∨ ¬w'.InProgress job.conversationKey job.jobId)
    (hworked : q.worked = (ph tid).worked)
    (hsettled : ∀ job, q = .settled job → ph tid = .settled job ∨
      ¬w'.InProgress job.conversationKey job.jobId) :
    Accounted w' (ev :: log) n (Function.update ph tid q) := by
  have hw := h.calm hcalm
  have hunfinished' : q.unfinished = none ∨
      q.unfinished = (ph tid).unfinished := by
    rcases hu : q.unfinished with _ | job
    · exact Or.inl rfl
    · exact Or.inr (hunfinished job hu).symm
  refine { hw with
    started := ?_, held_lt := ?_, held_inj := ?_, held_new := ?_
    worked := ?_, progress := ?_, settled := ?_ }
  · intro i job hi
    exact h.started_cons (some_of_update hunfinished' hi)
  · intro i j hi
    exact hw.held_lt (some_of_update hheld hi)
  · intro i i' j hi hi'
    exact hw.held_inj (some_of_update hheld hi) (some_of_update hheld hi')
  · intro i j hi
    exact hw.held_new (some_of_update hheld hi)
  · intro i job hi
    exact hw.worked (some_of_update (Or.inr hworked) hi)
  · intro key j hp
    rcases hw.progress hp with ⟨i, job, hi, rfl, rfl⟩ | hqueued
    · refine Or.inl ⟨i, job, ?_, rfl, rfl⟩
      by_cases hit : i = tid
      · subst hit
        rw [Function.update_self]
        exact (hleft job hi).resolve_right (fun hno => hno hp)
      · rwa [Function.update_of_ne hit]
    · exact Or.inr hqueued
  · intro i job hi key hp
    by_cases hit : i = tid
    · subst hit
      rw [Function.update_self] at hi
      rcases hsettled job hi with hold | hno
      · exact hw.settled hold key hp
      · -- a record of the job can only be where its entry says
        have hjob : (ph i).worked = some job := by
          rw [← hworked, hi]
          rfl
        obtain ⟨sid, e, -, he, hid, hkey⟩ := hw.worked hjob
        have hplaced := hw.placed hp e (List.mem_of_getElem? he) hid
        rw [hkey] at hplaced
        rw [hplaced] at hno
        exact hno hp
    · rw [Function.update_of_ne hit] at hi
      exact hw.settled hi key hp

/-- A new id belongs to nobody else. -/
theorem drew (h : Accounted w log n ph) (hq : ph tid = .fresh) :
    Accounted { w with nextId := w.nextId + 1 } (ev :: log) n
      (Function.update ph tid (.drawn w.nextId)) := by
  have hheld : ∀ {i j},
      (Function.update ph tid (.drawn w.nextId) i).held = some j →
      i = tid ∧ j = w.nextId ∨ (ph i).held = some j := by
    intro i j hi
    by_cases hit : i = tid
    · rw [hit, Function.update_self] at hi
      exact Or.inl ⟨hit, (Option.some.inj hi).symm⟩
    · rw [Function.update_of_ne hit] at hi
      exact Or.inr hi
  refine { h with
    started := ?_, held_lt := ?_, held_inj := ?_, held_new := ?_
    queued_lt := ?_, worked := ?_, progress := ?_, settled := ?_ }
  · intro i job hi
    exact h.started_cons (some_of_update (Or.inl rfl) hi)
  · intro i j hi
    rcases hheld hi with ⟨-, rfl⟩ | hold
    · exact Nat.lt_succ_self _
    · exact Nat.lt_succ_of_lt (h.held_lt hold)
  · intro i i' j hi hi'
    rcases hheld hi with ⟨rfl, rfl⟩ | hold <;>
      rcases hheld hi' with ⟨rfl, hj⟩ | hold'
    · rfl
    · exact absurd (h.held_lt hold') (lt_irrefl _)
    · rw [hj] at hold
      exact absurd (h.held_lt hold) (lt_irrefl _)
    · exact h.held_inj hold hold'
  · intro i j hi e he
    rcases hheld hi with ⟨-, rfl⟩ | hold
    · exact (h.queued_lt e he).ne
    · exact h.held_new hold e he
  · intro e he
    exact Nat.lt_succ_of_lt (h.queued_lt e he)
  · intro i job hi
    exact h.worked (some_of_update (Or.inl rfl) hi)
  · intro key j hp
    rcases h.progress hp with ⟨i, job, hi, hrest⟩ | hqueued
    · have hit : i ≠ tid := by
        rintro rfl
        rw [hq] at hi
        cases hi
      refine Or.inl ⟨i, job, ?_, hrest⟩
      rwa [Function.update_of_ne hit]
    · exact Or.inr hqueued
  · intro i job hi
    obtain ⟨-, hi⟩ := of_update hi nofun
    exact h.settled hi

/-- The handler that stores a record is the one to enqueue its job. -/
theorem starts (h : Accounted w log n ph) {job : DeferredJob} (htid : tid < n)
    (hq : ph tid = .drawn job.jobId) :
    Accounted (w.setPending job.conversationKey
        (some (processingRecord job.jobId)))
      (startEvent tid job true :: log) n
      (Function.update ph tid (.entered job true)) := by
  have hown : (ph tid).held = some job.jobId := by
    rw [hq]
    rfl
  have hheld : (Phase.entered job true).held = none ∨
      (Phase.entered job true).held = (ph tid).held := by
    rw [hq]
    exact Or.inr rfl
  have hprogress : ∀ {key j}, (w.setPending job.conversationKey
      (some (processingRecord job.jobId))).InProgress key j →
      key = job.conversationKey ∧ j = job.jobId ∨ w.InProgress key j := by
    rintro key j ⟨r, hr, hstatus, hj⟩
    by_cases hkey : key = job.conversationKey
    · subst hkey
      rw [World.setPending_pending_same] at hr
      cases hr
      exact Or.inl ⟨rfl, hj.symm⟩
    · rw [World.setPending_pending_ne _ _ hkey] at hr
      exact Or.inr ⟨r, hr, hstatus, hj⟩
  refine { h with
    started := ?_, held_lt := ?_, held_inj := ?_, held_new := ?_
    worked := ?_, progress := ?_, placed := ?_, settled := ?_ }
  · intro i job' hi
    by_cases hit : i = tid
    · rw [hit, Function.update_self] at hi
      cases hi
      exact ⟨hit ▸ htid, hit ▸ List.mem_cons_self⟩
    · rw [Function.update_of_ne hit] at hi
      exact h.started_cons hi
  · intro i j hi
    exact h.held_lt (some_of_update hheld hi)
  · intro i i' j hi hi'
    exact h.held_inj (some_of_update hheld hi) (some_of_update hheld hi')
  · intro i j hi
    exact h.held_new (some_of_update hheld hi)
  · intro i job' hi
    exact h.worked (some_of_update (Or.inl rfl) hi)
  · intro key j hp
    rcases hprogress hp with ⟨rfl, rfl⟩ | hold
    · refine Or.inl ⟨tid, job, ?_, rfl, rfl⟩
      rw [Function.update_self]
      rfl
    · rcases h.progress hold with ⟨i, job', hi, hrest⟩ | hqueued
      · have hit : i ≠ tid := by
          rintro rfl
          rw [hq] at hi
          cases hi
        refine Or.inl ⟨i, job', ?_, hrest⟩
        rwa [Function.update_of_ne hit]
      · exact Or.inr hqueued
  · intro key j hp e he hid
    rcases hprogress hp with ⟨rfl, rfl⟩ | hold
    · exact absurd hid (h.held_new hown e he)
    · exact h.placed hold e he hid
  · intro i job' hi key hp
    obtain ⟨-, hi⟩ := of_update hi nofun
    rcases hprogress hp with ⟨-, hid⟩ | hold
    · have hworked : (ph i).worked = some job' := by
        rw [hi]
        rfl
      obtain ⟨sid, e, -, he, hid', -⟩ := h.worked hworked
      exact h.held_new hown e (List.mem_of_getElem? he) (hid'.trans hid)
    · exact h.settled hi key hold

/-- Enqueueing hands the record over to the stream. -/
theorem queues (h : Accounted w log n ph) {job : DeferredJob} {stored : Bool}
    (hq : ph tid = .entered job stored) :
    Accounted { w with stream := w.stream ++ [⟨job, false⟩] } (ev :: log) n
      (Function.update ph tid (.replied job stored true)) := by
  have hown : (ph tid).held = some job.jobId := by
    rw [hq]
    rfl
  have hunfinished : ∀ {i job'}, (ph i).unfinished = some job' →
      i = tid ∧ job' = job ∨
      (Function.update ph tid (.replied job stored true) i).unfinished =
        some job' := by
    intro i job' hi
    by_cases hit : i = tid
    · subst hit
      rw [hq] at hi
      rcases stored <;> cases hi
      exact Or.inl ⟨rfl, rfl⟩
    · rw [Function.update_of_ne hit]
      exact Or.inr hi
  refine { h with
    started := ?_, held_lt := ?_, held_inj := ?_, held_new := ?_
    queued_lt := ?_, worked := ?_, progress := ?_, placed := ?_
    settled := ?_ }
  · intro i job' hi
    exact h.started_cons (some_of_update (Or.inl rfl) hi)
  · intro i j hi
    exact h.held_lt (some_of_update (Or.inl rfl) hi)
  · intro i i' j hi hi'
    exact h.held_inj (some_of_update (Or.inl rfl) hi)
      (some_of_update (Or.inl rfl) hi')
  · intro i j hi e he
    have hold := some_of_update (Or.inl rfl) hi
    rcases List.mem_append.mp he with he | he
    · exact h.held_new hold e he
    · rw [List.mem_singleton.mp he]
      rintro rfl
      have hit := h.held_inj hold hown
      rw [hit, Function.update_self] at hi
      cases hi
  · intro e he
    rcases List.mem_append.mp he with he | he
    · exact h.queued_lt e he
    · rw [List.mem_singleton.mp he]
      exact h.held_lt hown
  · intro i job' hi
    obtain ⟨sid, e, hsid, he, hrest⟩ :=
      h.worked (some_of_update (Or.inl rfl) hi)
    have hlt := (List.getElem?_eq_some_iff.mp he).1
    refine ⟨sid, e, hsid, ?_, hrest⟩
    rwa [List.getElem?_append_left hlt]
  · intro key j hp
    rcases h.progress hp with ⟨i, job', hi, hid, hkey⟩ |
      ⟨e, he, hacked, hrest⟩
    · rcases hunfinished hi with ⟨rfl, rfl⟩ | hstill
      · exact Or.inr ⟨_, List.mem_append_right _ List.mem_cons_self, rfl, hid,
          hkey⟩
      · exact Or.inl ⟨i, job', hstill, hid, hkey⟩
    · exact Or.inr ⟨e, List.mem_append_left _ he, hacked, hrest⟩
  · intro key j hp e he hid
    rcases List.mem_append.mp he with he | he
    · exact h.placed hp e he hid
    · rw [List.mem_singleton.mp he] at hid ⊢
      subst hid
      rcases h.progress hp with ⟨i, job', hi, hid', hkey⟩ | ⟨e', he', -, hid', -⟩
      · have hheld := Phase.held_of_unfinished hi
        rw [hid'] at hheld
        have hit := h.held_inj hheld hown
        subst hit
        rw [hq] at hi
        rcases stored <;> cases hi
        exact hkey
      · exact absurd hid' (h.held_new hown e' he')
  · intro i job' hi
    obtain ⟨-, hi⟩ := of_update hi nofun
    exact h.settled hi

/-- Acknowledging the entry of a settled job loses nothing. -/
theorem acks (h : Accounted w log n ph) {job : DeferredJob} {i : StreamId}
    (hq : ph tid = .settled job) (hi : job.streamId = some i) :
    Accounted { w with stream :=
        w.stream.modify i fun e => { e with acked := true } } (ev :: log) n
      (Function.update ph tid (.settled job)) := by
  have hph : Function.update ph tid (.settled job) = ph := by
    rw [← hq]
    exact Function.update_eq_self tid ph
  rw [hph]
  refine { h with
    started := ?_, held_new := ?_, queued_lt := ?_, worked := ?_
    progress := ?_, placed := ?_ }
  · intro i' job' hi'
    exact h.started_cons hi'
  · intro i' j hheld e he
    obtain ⟨e', he', hjob⟩ := job_of_modify he
    rw [hjob]
    exact h.held_new hheld e' he'
  · intro e he
    obtain ⟨e', he', hjob⟩ := job_of_modify he
    rw [hjob]
    exact h.queued_lt e' he'
  · intro i' job' hworked
    obtain ⟨sid, e, hsid, he, hid, hkey⟩ := h.worked hworked
    rcases eq_or_ne i sid with rfl | hne
    · refine ⟨i, { e with acked := true }, hsid, ?_, hid, hkey⟩
      simp [he]
    · refine ⟨sid, e, hsid, ?_, hid, hkey⟩
      simp [he, hne]
  · intro key j hp
    rcases h.progress hp with hunfinished | ⟨e, he, hacked, hid, hkey⟩
    · exact Or.inl hunfinished
    · obtain ⟨k, hk⟩ := List.mem_iff_getElem?.mp he
      have hne : i ≠ k := by
        rintro rfl
        have hworked : (ph tid).worked = some job := by
          rw [hq]
          rfl
        obtain ⟨sid, e', hsid, he', hid', -⟩ := h.worked hworked
        rw [hi] at hsid
        cases hsid
        rw [hk] at he'
        cases he'
        rw [← hid, hid'] at hp
        exact h.settled hq key hp
      refine Or.inr ⟨e, List.mem_of_getElem? (i := k) ?_, hacked, hid, hkey⟩
      simp [hk, hne]
  · intro key j hp e he hid
    obtain ⟨e', he', hjob⟩ := job_of_modify he
    rw [hjob] at hid ⊢
    exact h.placed hp e' he' hid

/-- One call of one thread keeps the accounts. -/
theorem call (h : Accounted w log n ph) (htid : tid < n) {op : Command}
    {x : Except PyException op.Res} {w' : World}
    (hchange : Change w (ph tid) op x w' q) :
    Accounted w' (⟨tid, op, x⟩ :: log) n (Function.update ph tid q) := by
  generalize hq : ph tid = q₀ at hchange
  rcases hchange with ⟨hcalm, hheld, hunfinished, hleft, hworked, hsettled⟩ |
    hfresh | ⟨job, hdrawn, hfree⟩ | ⟨job, stored, hentered⟩ | ⟨job, i, hold, hi⟩
  · subst hq
    exact h.quiet hcalm hheld hunfinished hleft hworked hsettled
  · exact h.drew (hq.trans hfresh)
  · exact h.starts htid (hq.trans hdrawn)
  · exact h.queues (hq.trans hentered)
  · exact h.acks (hq.trans hold) hi

end Accounted

end AliceSkill
