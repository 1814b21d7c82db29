import AliceSkill.Concurrent.Calls
import AliceSkill.Concurrent.Ids

/-!
# Ids in a run

The ids in the records, on the stream and in the hands of the threads can all
be found in the log, and an id that has just been drawn is new.
-/

namespace AliceSkill

open Text Effects Program Machine RedisPendingReplyStore ConversationService

abbrev CallEvent := Event CallSig PyException

/-- The id a call puts into a record, unless it only goes on with one. -/
def Call.uses : Call → Option (Str × JobId)
  | .pending (.startPending key job) => some (key, job.jobId)
  | .pending (.markReady key j ..) => some (key, j)
  | _ => none

/-- The id of an answer that has been published. -/
def publishes : CallEvent → Option (Str × JobId)
  | ⟨_, .pending (.markReady key j ..), .ok _⟩ => some (key, j)
  | _ => none

/-- The id has been used under the key. -/
def Used (log : List CallEvent) (key : Str) (j : JobId) : Prop :=
  ∃ e ∈ log, Call.uses e.op = some (key, j)

/-- `mark_ready` has returned for the job. -/
def Published (log : List CallEvent) (key : Str) (j : JobId) : Prop :=
  ∃ e ∈ log, publishes e = some (key, j)

instance (log : List CallEvent) (key : Str) (j : JobId) :
    Decidable (Published log key j) :=
  inferInstanceAs (Decidable (∃ e ∈ log, publishes e = some (key, j)))

/-- Where the ids in the stores and in the threads come from. -/
structure Traced (w : World) (log : List CallEvent) (ph : ℕ → Knowledge) :
    Prop where
  used_lt : ∀ {key j}, Used log key j → j < w.nextId
  /-- An id belongs to one conversation. -/
  used_key : ∀ {key key' j}, Used log key j → Used log key' j → key = key'
  held_lt : ∀ {i j}, (ph i).held = some j → j < w.nextId
  /-- An id that is held is known to nobody else. -/
  held_inj : ∀ {i i' j}, (ph i).held = some j → (ph i').held = some j → i = i'
  held_new : ∀ {i j key}, (ph i).held = some j → ¬Used log key j
  seen : ∀ {i key j}, (key, j) ∈ (ph i).seen → Used log key j
  answered : ∀ {i key j}, (key, j) ∈ (ph i).answered → Published log key j
  record : ∀ {key r}, w.pending key = some r → Used log key r.jobId
  answer : ∀ {key r}, w.pending key = some r → r.IsAnswer →
    Published log key r.jobId
  queued : ∀ e ∈ w.stream, Used log e.job.conversationKey e.job.jobId

section Log

variable {log : List CallEvent} {e : CallEvent} {key : Str} {j : JobId}

theorem Used.cons (h : Used log key j) : Used (e :: log) key j := by
  obtain ⟨e', he', hj⟩ := h
  exact ⟨e', List.mem_cons_of_mem _ he', hj⟩

theorem Published.cons (h : Published log key j) :
    Published (e :: log) key j := by
  obtain ⟨e', he', hj⟩ := h
  exact ⟨e', List.mem_cons_of_mem _ he', hj⟩

theorem used_cons_cases (h : Used (e :: log) key j) :
    Call.uses e.op = some (key, j) ∨ Used log key j := by
  obtain ⟨e', he', hj⟩ := h
  rcases List.mem_cons.mp he' with rfl | he'
  · exact Or.inl hj
  · exact Or.inr ⟨e', he', hj⟩

theorem used_head (h : Call.uses e.op = some (key, j)) :
    Used (e :: log) key j := ⟨e, List.mem_cons_self, h⟩

theorem published_head (h : publishes e = some (key, j)) :
    Published (e :: log) key j := ⟨e, List.mem_cons_self, h⟩

end Log

/-- A thread uses only ids that it holds or has seen. -/
theorem known_of_uses {q : Knowledge} {op : Call} (hmay : idUse.may q op)
    {key : Str} {j : JobId} (h : op.uses = some (key, j)) :
    (key, j) ∈ q.seen ∨ q.held = some j := by
  rcases op with c | c
  · rcases c with key' | ⟨key', job⟩ |
      ⟨key', j', replyText, replyTts, tailText, mode, request⟩ |
      ⟨key', j', m⟩ | ⟨key', j'⟩ | ⟨key', j'⟩ <;> cases h
    · exact Or.inr hmay.2
    · exact hmay
  · cases h

/-- What is held after a call was held before, or has just been drawn. -/
theorem held_cases {q : Knowledge} {op : Call} {x : Except PyException op.Res}
    {j : JobId} (h : (idUse.next q op x).held = some j) :
    q.held = some j ∧ op.uses = none ∨
      HEq x (Except.ok (ε := PyException) j) ∧ op = .port .uuid4 := by
  rcases op with c | c
  · rcases c with key' | ⟨key', job⟩ |
      ⟨key', j', replyText, replyTts, tailText, mode, request⟩ |
      ⟨key', j', m⟩ | ⟨key', j'⟩ | ⟨key', j'⟩
    · rcases x with e | _ | r <;> exact Or.inl ⟨h, rfl⟩
    · cases h
    · rcases x with e | r <;> cases h
    · exact Or.inl ⟨h, rfl⟩
    · exact Or.inl ⟨h, rfl⟩
    · exact Or.inl ⟨h, rfl⟩
  · rcases c
    case uuid4 =>
      rcases x with e | j'
      · exact Or.inl ⟨h, rfl⟩
      · cases h
        exact Or.inr ⟨HEq.rfl, rfl⟩
    all_goals exact Or.inl ⟨h, rfl⟩

/-- What a thread has seen it has used or read. -/
theorem seen_cases {cfg : Settings} {a : Answer} {w : World} {q : Knowledge}
    {op : Call} {key : Str} {j : JobId}
    (h : (key, j) ∈ (idUse.next q op (execCall cfg a op w).1).seen) :
    (key, j) ∈ q.seen ∨ op.uses = some (key, j) ∨
      ∃ r, w.pending key = some r ∧ r.jobId = j := by
  rcases op with c | c
  · rcases c with key' | ⟨key', job⟩ |
      ⟨key', j', replyText, replyTts, tailText, mode, request⟩ |
      ⟨key', j', m⟩ | ⟨key', j'⟩ | ⟨key', j'⟩
    · rcases getPending_cases cfg a w key' with ⟨e, hx⟩ | hx | ⟨r, hr, hx⟩
      · rw [hx] at h
        exact Or.inl h
      · rw [hx] at h
        exact Or.inl h
      · rw [hx] at h
        rcases Set.mem_insert_iff.mp h with heq | hold
        · cases heq
          exact Or.inr (Or.inr ⟨r, hr, rfl⟩)
        · exact Or.inl hold
    · rcases Set.mem_insert_iff.mp h with heq | hold
      · cases heq
        exact Or.inr (Or.inl rfl)
      · exact Or.inl hold
    · generalize (execCall cfg a (.pending (.markReady key' j' replyText replyTts
        tailText mode request)) w).1 = x at h
      rcases x with e | r <;>
        · rcases Set.mem_insert_iff.mp h with heq | hold
          · cases heq
            exact Or.inr (Or.inl rfl)
          · exact Or.inl hold
    · exact Or.inl h
    · exact Or.inl h
    · exact Or.inl h
  · rcases c
    case uuid4 =>
      generalize (execCall cfg a (.port .uuid4) w).1 = x at h
      rcases x with e | j' <;> exact Or.inl h
    all_goals exact Or.inl h

/-- Answers are known from publishing or reading them. -/
theorem answered_cases {cfg : Settings} {a : Answer} {w : World} {q : Knowledge}
    {op : Call} {key : Str} {j : JobId} (tid : ℕ)
    (h : (key, j) ∈ (idUse.next q op (execCall cfg a op w).1).answered) :
    (key, j) ∈ q.answered ∨
      publishes ⟨tid, op, (execCall cfg a op w).1⟩ = some (key, j) ∨
      ∃ r, w.pending key = some r ∧ r.jobId = j ∧ r.IsAnswer := by
  rcases op with c | c
  · rcases c with key' | ⟨key', job⟩ |
      ⟨key', j', replyText, replyTts, tailText, mode, request⟩ |
      ⟨key', j', m⟩ | ⟨key', j'⟩ | ⟨key', j'⟩
    · rcases getPending_cases cfg a w key' with ⟨e, hx⟩ | hx | ⟨r, hr, hx⟩
      · rw [hx] at h
        exact Or.inl h
      · rw [hx] at h
        exact Or.inl h
      · rw [hx] at h
        simp only [idUse, Knowledge.next, Knowledge.read] at h
        split at h
        · next hanswer =>
          rcases Set.mem_insert_iff.mp h with heq | hold
          · cases heq
            exact Or.inr (Or.inr ⟨r, hr, rfl, hanswer⟩)
          · exact Or.inl hold
        · exact Or.inl h
    · exact Or.inl h
    · generalize (execCall cfg a (.pending (.markReady key' j' replyText replyTts
        tailText mode request)) w).1 = x at h ⊢
      rcases x with e | r
      · exact Or.inl h
      · rcases Set.mem_insert_iff.mp h with heq | hold
        · cases heq
          exact Or.inr (Or.inl rfl)
        · exact Or.inl hold
    · exact Or.inl h
    · exact Or.inl h
    · exact Or.inl h
  · rcases c
    case uuid4 =>
      generalize (execCall cfg a (.port .uuid4) w).1 = x at h
      rcases x with e | j' <;> exact Or.inl h
    all_goals exact Or.inl h

namespace Traced

variable {cfg : Settings} {w : World} {log : List CallEvent}
variable {ph : ℕ → Knowledge} {tid : ℕ} {op : Call} {a : Answer}

theorem empty : Traced World.empty [] fun _ => .nothing where
  used_lt := by simp [Used]
  used_key := by simp [Used]
  held_lt := by simp [Knowledge.nothing]
  held_inj := by simp [Knowledge.nothing]
  held_new := by simp [Knowledge.nothing]
  seen := by simp [Knowledge.nothing]
  answered := by simp [Knowledge.nothing]
  record := by simp [World.empty]
  answer := by simp [World.empty]
  queued := by simp [World.empty]

/-- The id a call uses has been drawn and not used elsewhere. -/
theorem of_uses (h : Traced w log ph) (hmay : idUse.may (ph tid) op)
    {key : Str} {j : JobId} (huses : op.uses = some (key, j)) :
    j < w.nextId ∧ ∀ key', Used log key' j → key' = key := by
  rcases known_of_uses hmay huses with hseen | hheld
  · exact ⟨h.used_lt (h.seen hseen),
      fun key' hused => h.used_key hused (h.seen hseen)⟩
  · exact ⟨h.held_lt hheld, fun key' hused => absurd hused (h.held_new hheld)⟩

/-- Who holds which id after a call. -/
theorem held_update {i : ℕ} {j : JobId}
    (hi : (Function.update ph tid (idUse.next (ph tid) op
      (execCall cfg a op w).1) i).held = some j) :
    (ph i).held = some j ∧ (i = tid → op.uses = none) ∨
      i = tid ∧ j = w.nextId ∧ op.uses = none ∧
        (execCall cfg a op w).2.nextId = w.nextId + 1 := by
  by_cases hit : i = tid
  · subst hit
    rw [Function.update_self] at hi
    rcases held_cases hi with ⟨hold, huses⟩ | ⟨hx, hop⟩
    · exact Or.inl ⟨hold, fun _ => huses⟩
    · subst hop
      have hx' := eq_of_heq hx
      rcases hfault : a.fault with _ | e
      · rw [execCall_port hfault] at hx' ⊢
        cases hx'
        exact Or.inr ⟨rfl, rfl, rfl, rfl⟩
      · rw [execCall_fault hfault] at hx'
        cases hx'
  · rw [Function.update_of_ne hit] at hi
    exact Or.inl ⟨hi, fun h => absurd h hit⟩

/-- An id that a thread has just drawn or keeps for itself has not been used. -/
theorem held_unused (h : Traced w log ph) (hmay : idUse.may (ph tid) op)
    {i : ℕ} {j : JobId} {key : Str}
    (hi : (Function.update ph tid (idUse.next (ph tid) op
      (execCall cfg a op w).1) i).held = some j) :
    ¬Used (⟨tid, op, (execCall cfg a op w).1⟩ :: log) key j := by
  intro hused
  rcases held_update hi with ⟨hold, hown⟩ | ⟨rfl, rfl, huses, -⟩
  · rcases used_cons_cases hused with huses | hused
    · -- somebody else has used the id
      rcases known_of_uses hmay huses with hseen | hheld
      · exact h.held_new hold (h.seen hseen)
      · have hnone := hown (h.held_inj hold hheld)
        rw [hnone] at huses
        cases huses
    · exact h.held_new hold hused
  · rcases used_cons_cases hused with huses' | hused
    · rw [huses] at huses'
      cases huses'
    · exact absurd (h.used_lt hused) (lt_irrefl _)

/-- The job of a stored record has been used under its key. -/
theorem used_of_record (h : Traced w log ph) (hmay : idUse.may (ph tid) op)
    {key : Str} {r : PendingReply}
    (hr : (execCall cfg a op w).2.pending key = some r) :
    Used (⟨tid, op, (execCall cfg a op w).1⟩ :: log) key r.jobId := by
  rcases record_cases hr with hold | ⟨-, hstores⟩
  · exact (h.record hold).cons
  · rcases hstores with ⟨_, job, hfree⟩ |
      ⟨_, j, replyText, replyTts, tailText, mode, request, hown⟩ |
      ⟨_, j, m, hown⟩ | ⟨_, r', hr'⟩
    · exact used_head rfl
    · exact used_head rfl
    · exact (h.seen hmay).cons
    · exact (h.record hr').cons

/-- A stored answer has been published. -/
theorem published_of_record (h : Traced w log ph) (hmay : idUse.may (ph tid) op)
    {key : Str} {r : PendingReply}
    (hr : (execCall cfg a op w).2.pending key = some r) (hanswer : r.IsAnswer) :
    Published (⟨tid, op, (execCall cfg a op w).1⟩ :: log) key r.jobId := by
  rcases record_cases hr with hold | ⟨hfault, hstores⟩
  · exact (h.answer hold hanswer).cons
  · rcases hstores with ⟨_, job, hfree⟩ |
      ⟨_, j, replyText, replyTts, tailText, mode, request, hown⟩ |
      ⟨_, j, m, hown⟩ | ⟨_, r, hr⟩
    · rcases hanswer with hready | hdelivered
      · cases hready
      · cases hdelivered
    · refine published_head ?_
      rw [execCall_markReady hfault]
      rfl
    · rcases hanswer with hready | hdelivered
      · cases hready
      · cases hdelivered
    · exact (h.answered hmay).cons

/-- One call of one thread. -/
theorem call (h : Traced w log ph) (hmay : idUse.may (ph tid) op) :
    Traced (execCall cfg a op w).2 (⟨tid, op, (execCall cfg a op w).1⟩ :: log)
      (Function.update ph tid
        (idUse.next (ph tid) op (execCall cfg a op w).1)) := by
  have hle : w.nextId ≤ (execCall cfg a op w).2.nextId := by
    have hid : (execCall cfg a op w).2.nextId = w.nextId ∨
        a.fault = none ∧ op = .port .uuid4 ∧
          (execCall cfg a op w).2.nextId = w.nextId + 1 := nextId_cases
    rcases hid with hid | ⟨-, -, hid⟩
    · exact hid.ge
    · rw [hid]
      exact Nat.le_succ _
  refine
    { used_lt := ?_, used_key := ?_, held_lt := ?_, held_inj := ?_
      held_new := ?_, seen := ?_, answered := ?_, record := ?_, answer := ?_
      queued := ?_ }
  · intro key j hused
    rcases used_cons_cases hused with huses | hold
    · exact lt_of_lt_of_le (h.of_uses hmay huses).1 hle
    · exact lt_of_lt_of_le (h.used_lt hold) hle
  · intro key key' j hused hused'
    rcases used_cons_cases hused with huses | hold <;>
      rcases used_cons_cases hused' with huses' | hold'
    · have heq : some (key, j) = some (key', j) := huses.symm.trans huses'
      cases heq
      rfl
    · exact ((h.of_uses hmay huses).2 key' hold').symm
    · exact (h.of_uses hmay huses').2 key hold
    · exact h.used_key hold hold'
  · intro i j hi
    rcases held_update hi with ⟨hold, -⟩ | ⟨-, rfl, -, hnext⟩
    · exact lt_of_lt_of_le (h.held_lt hold) hle
    · rw [hnext]
      exact Nat.lt_succ_self _
  · intro i i' j hi hi'
    rcases held_update hi with ⟨hold, -⟩ | ⟨rfl, hj, -, -⟩ <;>
      rcases held_update hi' with ⟨hold', -⟩ | ⟨rfl, hj', -, -⟩
    · exact h.held_inj hold hold'
    · rw [hj'] at hold
      exact absurd (h.held_lt hold) (lt_irrefl _)
    · rw [hj] at hold'
      exact absurd (h.held_lt hold') (lt_irrefl _)
    · rfl
  · exact fun hi => h.held_unused hmay hi
  · intro i key j hi
    by_cases hit : i = tid
    · subst hit
      rw [Function.update_self] at hi
      rcases seen_cases hi with hold | huses | ⟨r, hr, rfl⟩
      · exact (h.seen hold).cons
      · exact used_head huses
      · exact (h.record hr).cons
    · rw [Function.update_of_ne hit] at hi
      exact (h.seen hi).cons
  · intro i key j hi
    by_cases hit : i = tid
    · subst hit
      rw [Function.update_self] at hi
      rcases answered_cases i hi with hold | hpublished | ⟨r, hr, rfl, hanswer⟩
      · exact (h.answered hold).cons
      · exact published_head hpublished
      · exact (h.answer hr hanswer).cons
    · rw [Function.update_of_ne hit] at hi
      exact (h.answered hi).cons
  · exact fun hr => h.used_of_record hmay hr
  · exact fun hr hanswer => h.published_of_record hmay hr hanswer
  · intro e he
    rcases stream_cases he with ⟨e', he', hjob⟩ | rfl
    · rw [hjob]
      exact (h.queued e' he').cons
    · exact (h.seen hmay).cons

/-- A thread is started. -/
theorem spawn (h : Traced w log ph) {task : Task} (hadm : task.Admits w) (n : ℕ) :
    Traced w log (Function.update ph n task.knowledge) := by
  have hheld : ∀ {i j}, (Function.update ph n task.knowledge i).held = some j →
      (ph i).held = some j := by
    intro i j hi
    by_cases hin : i = n
    · rw [hin, Function.update_self] at hi
      rcases task <;> cases hi
    · rwa [Function.update_of_ne hin] at hi
  refine { h with
    held_lt := fun hi => h.held_lt (hheld hi)
    held_inj := fun hi hi' => h.held_inj (hheld hi) (hheld hi')
    held_new := fun hi => h.held_new (hheld hi)
    seen := ?_, answered := ?_ }
  · intro i key j hi
    by_cases hin : i = n
    · rw [hin, Function.update_self] at hi
      rcases task with payload | ⟨sid, job⟩
      · exact hi.elim
      · obtain ⟨e, he, -, rfl⟩ := Task.admits_work hadm
        cases hi
        exact h.queued e (List.mem_of_getElem? he)
    · rw [Function.update_of_ne hin] at hi
      exact h.seen hi
  · intro i key j hi
    by_cases hin : i = n
    · rw [hin, Function.update_self] at hi
      rcases task <;> exact hi.elim
    · rw [Function.update_of_ne hin] at hi
      exact h.answered hi

/-- A key expires. -/
theorem expire (h : Traced w log ph) (e : Expiry) :
    Traced (w.expire e) log ph := by
  have hpending : ∀ {key r}, (w.expire e).pending key = some r →
      w.pending key = some r := by
    intro key r hr
    rcases e with key' | key' | key'
    · rcases setPending_cases hr with hold | ⟨-, hnew⟩
      · exact hold
      · cases hnew
    · exact hr
    · exact hr
  have hstream : (w.expire e).stream = w.stream := by
    rcases e <;> rfl
  have hnext : (w.expire e).nextId = w.nextId := by
    rcases e <;> rfl
  refine { h with
    used_lt := fun hused => hnext ▸ h.used_lt hused
    held_lt := fun hheld => hnext ▸ h.held_lt hheld
    record := fun hr => h.record (hpending hr)
    answer := fun hr => h.answer (hpending hr)
    queued := fun e' he' => h.queued e' (hstream ▸ he') }

end Traced

/-- Ids are accounted for in every reachable state. -/
theorem traced_of_reachable {cfg : Settings}
    {permits : Answer → Call → Prop} {C : StoreState → Schedule → Prop}
    {s : StoreState}
    (hs : (storeMachine cfg permits).Reachable C World.empty s) :
    ∃ ph, Traced s.world s.log ph ∧
      ∀ i (th : Thread CallSig PyException Task _),
        s.threads[i]? = some th →
          th.prog.Follows idUse (ph i) anyOutcome := by
  refine hs.phases (P := idUse) (R := fun _ => anyOutcome) (idUse_body cfg)
    (I := fun s ph => Traced s.world s.log ph) (fun _ => .nothing)
    Traced.empty ?_ ?_ ?_
  · intro s ph task _ _ hadm _ h
    exact h.spawn hadm _
  · intro s ph tid task op k a _ _ _ _ hmay _ h
    exact ⟨trivial, fun _ => h.call hmay⟩
  · intro s ph e _ _ h
    exact h.expire e

end AliceSkill
