import AliceSkill.Concurrent.Machines

/-!
# The job id guard between two commands

The guarded operations of the pending store read the record, compare its job
id and then write or delete.  The check is sound as long as nobody stores the
record of another job between the read and the write.
-/

namespace AliceSkill

open Text Effects Program Machine

/-- The key and the job id of a write or delete issued by an operation that
carries a job id. -/
def Command.guardedWrite : Command → Option (Str × JobId)
  | .kv caller (.set key _) => caller.guard.map (key, ·)
  | .kv caller (.delete key) => caller.guard.map (key, ·)
  | _ => none

/-- The record at the key, if there is one, belongs to the job. -/
def World.Owned (w : World) (key : Str) (j : JobId) : Prop :=
  ∀ r, w.pending key = some r → r.jobId = j

/-- The key and job id of the record that a command stores. -/
def Command.stored (w : World) (a : Answer) : Command → Option (Str × JobId)
  | .kv _ (.set key r) => if a.fault = none then some (key, r.jobId) else none
  | .kv _ (.setNx key r) =>
      if a.fault = none ∧ w.pending key = none then some (key, r.jobId)
      else none
  | _ => none

/-- Every guarded write or delete that is about to be executed would meet no
record or a record of its own job. -/
def Guarded (s : RedisState) : Prop :=
  ∀ i op key j, s.next i = some op → op.guardedWrite = some (key, j) →
    s.world.Owned key j

/-- The step does not store a record under a key where another thread has
passed the guard of another job and is about to write. -/
def Undisturbed (s : RedisState) : Schedule → Prop
  | .step tid a => ∀ op key k, s.next tid = some op →
      op.stored s.world a = some (key, k) →
      ∀ i op' j, i ≠ tid → s.next i = some op' →
        op'.guardedWrite = some (key, j) → k = j
  | _ => True

/-- Only threads that have been started are about to write. -/
theorem undisturbed_step_iff {s : RedisState} {tid : ℕ} {a : Answer} :
    (∀ x ∈ (s.next tid).bind (Command.stored s.world a),
      ∀ i < s.threads.length, i ≠ tid →
        ∀ y ∈ (s.next i).bind Command.guardedWrite, y.1 = x.1 → x.2 = y.2) ↔
      Undisturbed s (.step tid a) := by
  constructor
  · intro h op key k hop hstored i op' j hi hop' hwrite
    have hlt : i < s.threads.length := by
      by_contra hge
      rw [State.next, List.getElem?_eq_none (Nat.le_of_not_lt hge)] at hop'
      cases hop'
    exact h (key, k) (Option.bind_eq_some_iff.mpr ⟨op, hop, hstored⟩) i hlt hi
      (key, j) (Option.bind_eq_some_iff.mpr ⟨op', hop', hwrite⟩) rfl
  · rintro h ⟨key, k⟩ hx i - hi ⟨key', j⟩ hy rfl
    obtain ⟨op, hop, hstored⟩ := Option.bind_eq_some_iff.mp hx
    obtain ⟨op', hop', hwrite⟩ := Option.bind_eq_some_iff.mp hy
    exact h op key' k hop hstored i op' j hi hop' hwrite

instance (s : RedisState) : (act : Schedule) → Decidable (Undisturbed s act)
  | .spawn _ => .isTrue trivial
  | .ambient _ => .isTrue trivial
  | .step _ _ => decidable_of_iff _ undisturbed_step_iff

/-! ## Guarded writes come right after their own check -/

/-- The phase is the key and job id of a check that has just passed. -/
def checkedWrites : Protocol CommandSig PyException (Option (Str × JobId)) where
  may q op := ∀ x, op.guardedWrite = some x → q = some x
  possible _ _ _ := True
  next _ op x :=
    match op, x with
    | .kv caller (.get key), .ok r =>
        match caller.guard with
        | some j =>
            if RedisPendingReplyStore.replacedBy r j then none
            else some (key, j)
        | none => none
    | _, _ => none

section Methods

open RedisPendingReplyStore

/-- The read of an operation that carries a job id, and what it does when the
record belongs to its job or, for some operations, when there is none. -/
theorem checked_get {α : Type} {self : PendingCall} {key : Str}
    {f : Option PendingReply → StoreCode α} {j : JobId}
    (hj : self.guard = some j)
    (hf : ∀ current, replacedBy current j = false →
      (f current).Follows checkedWrites (some (key, j)) fun _ _ => True)
    (hreplaced : ∀ current, replacedBy current j = true →
      ∃ a, f current = ret a) (q : Option (Str × JobId)) :
    ((get self key).bind f).Follows checkedWrites q fun _ _ => True := by
  rw [follows_bind, follows_get]
  refine ⟨by rintro x ⟨⟩, ?_⟩
  intro x _
  rcases x with e | current
  · trivial
  rcases hr : replacedBy current j with _ | _
  · have hphase : checkedWrites.next q (.kv self (.get key)) (.ok current) =
        some (key, j) := by
      simp [checkedWrites, hj, hr]
    simp only [hphase]
    exact hf current hr
  · obtain ⟨a, ha⟩ := hreplaced current hr
    simp only [ha]
    trivial

theorem checked_set {self : PendingCall} {key : Str} {j : JobId}
    (hj : self.guard = some j) (r : PendingReply) :
    (set self key r).Follows checkedWrites (some (key, j))
      fun _ _ => True := by
  rw [follows_set]
  refine ⟨?_, fun _ _ => trivial⟩
  intro x hx
  simpa [Command.guardedWrite, hj] using hx

theorem checked_delete {self : PendingCall} {key : Str} {j : JobId}
    (hj : self.guard = some j) :
    (delete self key).Follows checkedWrites (some (key, j))
      fun _ _ => True := by
  rw [follows_delete]
  refine ⟨?_, fun _ _ => trivial⟩
  intro x hx
  simpa [Command.guardedWrite, hj] using hx

theorem checked_startPending (key : Str) (job : DeferredJob)
    (q : Option (Str × JobId)) :
    (startPending key job).Follows checkedWrites q fun _ _ => True := by
  rw [startPending, bind_eq, follows_bind, follows_setNx]
  refine ⟨by rintro x ⟨⟩, ?_⟩
  intro x _
  rcases x with e | created
  · trivial
  rcases created with _ | _
  · simp only [Bool.false_eq_true, if_false, bind_eq, follows_bind, follows_get]
    refine ⟨by rintro x ⟨⟩, ?_⟩
    intro x _
    rcases x with e | _ | existing <;> trivial
  · trivial

/-- Every call keeps to the discipline, whatever was checked before. -/
theorem checked_implement (c : Call) (q : Option (Str × JobId)) :
    (implement c).Follows checkedWrites q fun _ _ => True := by
  rcases c with c | c
  · rcases c with key | ⟨key, job⟩ |
      ⟨key, j, replyText, replyTts, tailText, mode, request⟩ |
      ⟨key, j, errorMessage⟩ | ⟨key, j⟩ | ⟨key, _ | j⟩
    · change (get _ key).Follows _ _ _
      rw [follows_get]
      exact ⟨by rintro x ⟨⟩, fun _ _ => trivial⟩
    · exact checked_startPending key job q
    · refine checked_get rfl (fun current hr => ?_) (fun current hr => ?_) q
      · rw [hr]
        simp only [Bool.false_eq_true, if_false, bind_eq, follows_bind]
        exact (checked_set rfl _).mono fun r q' _ => by rcases r <;> trivial
      · exact ⟨_, if_pos hr⟩
    · refine checked_get rfl (fun current hr => ?_) (fun current hr => ?_) q
      · rw [hr]
        exact checked_set rfl _
      · exact ⟨_, if_pos hr⟩
    · refine checked_get rfl (fun current hr => ?_) (fun current hr => ?_) q
      · rcases current with _ | current
        · trivial
        · have hj : current.jobId = j := by simpa [replacedBy] using hr
          simp only [hj, ne_eq, not_true_eq_false, if_false]
          exact checked_set rfl _
      · rcases current with _ | current
        · exact ⟨_, rfl⟩
        · exact ⟨_, if_pos (by simpa [replacedBy] using hr)⟩
    · change (delete _ key).Follows _ _ _
      rw [follows_delete]
      exact ⟨by rintro x ⟨⟩, fun _ _ => trivial⟩
    · refine checked_get rfl (fun current hr => ?_) (fun current hr => ?_) q
      · rcases current with _ | current
        · trivial
        · have hj : current.jobId = j := by simpa [replacedBy] using hr
          simp only [hj, ne_eq, not_true_eq_false, if_false]
          exact checked_delete rfl
      · rcases current with _ | current
        · exact ⟨_, rfl⟩
        · exact ⟨_, if_pos (by simpa [replacedBy] using hr)⟩
  · rw [follows_port]
    exact ⟨by rintro x ⟨⟩, fun _ _ => trivial⟩

end Methods

/-! ## The discipline in a run -/

variable {cfg : Settings}

theorem checked_body (task : Task) :
    ((task.body cfg).interp implement).Follows checkedWrites none
      fun _ _ => True :=
  follows_interp_of_forall checked_implement _ _

theorem owned_setPending {w : World} {key key' : Str} {j : JobId}
    {r : Option PendingReply} (h : w.Owned key j)
    (hr : key' = key → ∀ r', r = some r' → r'.jobId = j) :
    (w.setPending key' r).Owned key j := by
  intro r' hr'
  by_cases hkey : key = key'
  · subst hkey
    rw [World.setPending_pending_same] at hr'
    exact hr rfl r' hr'
  · rw [World.setPending_pending_ne _ _ hkey] at hr'
    exact h r' hr'

/-- A command that stores no record of another job under the key leaves the
ownership alone. -/
theorem owned_execCommand {w : World} {a : Answer} {op : Command} {key : Str}
    {j : JobId} (h : w.Owned key j)
    (hstored : ∀ k, op.stored w a = some (key, k) → k = j) :
    (execCommand cfg a op w).2.Owned key j := by
  rcases hfault : a.fault with _ | e
  · rcases op with ⟨self, cmd⟩ | c
    · rw [execCommand_kv hfault]
      rcases cmd with key' | ⟨key', r⟩ | ⟨key', r⟩ | key'
      · exact h
      · refine owned_setPending h ?_
        rintro rfl r' ⟨⟩
        exact hstored _ (by simp [Command.stored, hfault])
      · by_cases hnone : w.pending key' = none
        · simp only [KvCommand.apply, hnone, Option.isNone_none, if_true]
          refine owned_setPending h ?_
          rintro rfl r' ⟨⟩
          exact hstored _ (by simp [Command.stored, hfault, hnone])
        · obtain ⟨r', hr'⟩ := Option.ne_none_iff_exists'.mp hnone
          have hsome : (w.pending key').isNone = false := by
            rw [hr', Option.isNone_some]
          simp only [KvCommand.apply, hsome]
          exact h
      · exact owned_setPending h (by simp)
    · rw [execCommand_port hfault]
      intro r hr
      rw [PortCall.exec_pending] at hr
      exact h r hr
  · rw [execCommand_fault hfault]
    exact h

theorem owned_expire {w : World} {e : Expiry} {key : Str} {j : JobId}
    (h : w.Owned key j) : (w.expire e).Owned key j := by
  rcases e with key' | key' | key'
  · exact owned_setPending h (by simp)
  · exact h
  · exact h

/-- A phase is entered only by a read that found no record of another job. -/
theorem owned_of_checked {w : World} {a : Answer} {op : Command} {key : Str}
    {j : JobId} {q : Option (Str × JobId)}
    (h : checkedWrites.next q op (execCommand cfg a op w).1 = some (key, j)) :
    (execCommand cfg a op w).2.Owned key j := by
  revert h
  rcases hfault : a.fault with _ | e
  · rcases op with ⟨self, cmd⟩ | c
    · rw [execCommand_kv hfault]
      rcases cmd with key' | ⟨key', r⟩ | ⟨key', r⟩ | key'
      · simp only [checkedWrites, KvCommand.reply, KvCommand.apply]
        rcases self.guard with _ | j'
        · simp
        · rcases hr : RedisPendingReplyStore.replacedBy (w.pending key') j'
          · simp only [hr]
            rintro ⟨⟩ r hpending
            rw [hpending] at hr
            simpa [RedisPendingReplyStore.replacedBy] using hr
          · simp [hr]
      all_goals
        intro h
        cases h
    · intro h
      cases h
  · rw [execCommand_fault hfault]
    rcases op with ⟨self, cmd⟩ | c
    · rcases cmd with key' | ⟨key', r⟩ | ⟨key', r⟩ | key' <;>
        · intro h
          cases h
    · intro h
      cases h

theorem guarded_of_undisturbed {w : World} {s : RedisState}
    (hs : (redisMachine cfg anyAnswer).Reachable Undisturbed w s) :
    Guarded s := by
  have hrun := hs.discipline (P := checkedWrites) (R := fun _ _ _ => True)
    checked_body (G := fun _ _ => True)
    (T := fun _ th _ w _ => ∀ op key j, th.next = some op →
      op.guardedWrite = some (key, j) → w.Owned key j)
    trivial ?_ ?_ ?_
  · intro i op key j hop hwrite
    obtain ⟨l, k, hth⟩ := State.next_eq_some.mp hop
    obtain ⟨q, -, hT⟩ := hrun.2 i _ hth
    exact hT op key j rfl hwrite
  · intro s task _ _ _ _ op key j hop hwrite
    cases Thread.may_next _ (checked_body task) hop _ hwrite
  · intro s tid task q op k a _ hth hc _ _ _ hT
    refine ⟨trivial, trivial, ?_, ?_⟩
    · intro hnext op' key j hop hwrite
      exact owned_of_checked (Thread.may_next _ hnext hop _ hwrite)
    · intro i th q' hi hget hTi op' key j hop hwrite
      refine owned_execCommand (hTi op' key j hop hwrite) fun k' hstored => ?_
      exact hc op key k' (State.next_eq_some.mpr ⟨task, k, hth⟩) hstored i op' j hi
        (by rw [State.next, hget]; exact hop) hwrite
  · intro s e _ _ _
    refine ⟨trivial, fun i th q hTi op key j hop hwrite => ?_⟩
    exact owned_expire (hTi op key j hop hwrite)

theorem pending_of_stored {w : World} {a : Answer} {op : Command} {key : Str}
    {k : JobId} (h : op.stored w a = some (key, k)) :
    ∃ r, (execCommand cfg a op w).2.pending key = some r ∧ r.jobId = k := by
  rcases op with ⟨self, cmd⟩ | c
  · rcases cmd with key' | ⟨key', r⟩ | ⟨key', r⟩ | key'
    · cases h
    · by_cases hfault : a.fault = none
      · rw [execCommand_kv hfault]
        simp only [Command.stored, hfault, if_true, Option.some.injEq,
          Prod.mk.injEq] at h
        obtain ⟨rfl, rfl⟩ := h
        exact ⟨r, World.setPending_pending_same _ _ _, rfl⟩
      · simp [Command.stored, hfault] at h
    · by_cases hfree : a.fault = none ∧ w.pending key' = none
      · rw [execCommand_kv hfree.1]
        simp only [Command.stored, hfree, and_self, if_true, Option.some.injEq,
          Prod.mk.injEq] at h
        obtain ⟨rfl, rfl⟩ := h
        refine ⟨r, ?_, rfl⟩
        simp [KvCommand.apply, hfree.2]
      · simp [Command.stored, hfree] at h
    · cases h
  · cases h

/-- Storing the record of another job between a check and its write makes the
write that follows hit that record. -/
theorem undisturbed_of_guarded {permits : Answer → Command → Prop}
    {s s' : RedisState} {act : Schedule}
    (hst : (redisMachine cfg permits).Step s act s') (hs' : Guarded s') :
    Undisturbed s act := by
  rcases step_cases hst with ⟨task, rfl, -, rfl⟩ |
    ⟨tid, a, task, op, k, rfl, hth, -, rfl⟩ | ⟨e, rfl, rfl⟩
  · trivial
  · intro op' key jobId hop hstored i opᵢ j hi hopᵢ hwrite
    have hopeq : op' = op := by
      rw [State.next_eq_some.mpr ⟨task, k, hth⟩] at hop
      exact (Option.some.inj hop).symm
    subst hopeq
    have hpending : ∃ r, (execCommand cfg a op' s.world).2.pending key =
        some r ∧ r.jobId = jobId := pending_of_stored hstored
    obtain ⟨r, hr, rfl⟩ := hpending
    refine hs' i opᵢ key j ?_ hwrite r hr
    rw [State.next] at hopᵢ ⊢
    simp only [afterCall]
    rwa [List.getElem?_set_ne (Ne.symm hi)]
  · trivial

/-- In a run that is never disturbed no guarded write or delete hits the
record of another job, and this is exact: the step that first disturbs the run
leaves a write about to hit the record of another job. -/
theorem guard_holds_iff (cfg : Settings) {s : RedisState}
    (hs : (redisMachine cfg anyAnswer).Reachable Undisturbed World.empty s) :
    Guarded s ∧ ∀ act s', (redisMachine cfg anyAnswer).Step s act s' →
      (Guarded s' ↔ Undisturbed s act) := by
  refine ⟨guarded_of_undisturbed hs, fun act s' hst => ⟨?_, ?_⟩⟩
  · exact undisturbed_of_guarded hst
  · intro hundisturbed
    exact guarded_of_undisturbed (.step hs hundisturbed hst)

/-- A question is deferred and its worker gets as far as the write of
`mark_ready`. -/
def writingSchedule (payload : AliceWebhookRequest) : List Schedule :=
  acceptedSchedule 0 payload ++
    [.spawn (.work 0 (workedJob 0 0 payload)), .step 1 .ok, .step 1 .ok,
      .step 1 .ok, .step 1 .ok, .step 1 (.replies ['a']), .step 1 .ok,
      .step 1 .ok, .step 1 .ok]

/-- While the answer to a question is about to be written, its user asks for it. -/
theorem guard_holds_for_answer :
    let payload := utter 1 "что такое кит"
    ∃ s : RedisState,
      (s.next 1).bind Command.guardedWrite =
        some (payload.conversationKey, 0) ∧
      (s.world.pending payload.conversationKey).map PendingReply.jobId =
        some 0 ∧
      (s.next 2).isSome ∧ Guarded s ∧
      ∀ act s', (redisMachine .default anyAnswer).Step s act s' →
        (Guarded s' ↔ Undisturbed s act) := by
  intro payload
  have hrun : ((redisMachine .default anyAnswer).runFrom Undisturbed
      (initial World.empty) (writingSchedule payload ++
        [.spawn (.request (utter 2 "продолжай")), .step 2 .ok])).map (fun s =>
        ((s.next 1).bind Command.guardedWrite,
          (s.world.pending payload.conversationKey).map PendingReply.jobId,
          (s.next 2).isSome)) =
      some (some (payload.conversationKey, 0), some 0, true) := by
    decide +kernel
  obtain ⟨s, hs, hobs⟩ := Option.map_eq_some_iff.mp hrun
  simp only [Prod.mk.injEq] at hobs
  obtain ⟨hwrite, hpending, hnext⟩ := hobs
  obtain ⟨hguarded, hexact⟩ :=
    guard_holds_iff .default (reachable_runFrom .start hs)
  exact ⟨s, hwrite, hpending, hnext, hguarded, hexact⟩

/-! ## A disturbed run -/

/-- The worker of a question gets as far as the write of `mark_ready`; then the
record expires and a second question is deferred. -/
def disturbedSchedule : List Schedule :=
  let payload := utter 1 "что такое кит"
  writingSchedule payload ++ [.ambient (.pending payload.conversationKey)] ++
    deferringSchedule 2 (utter 2 "что такое лев")

/-- The worker of the first job is about to overwrite the record of the
second. -/
theorem guard_disturbed :
    ∃ s, (redisMachine .default anyAnswer).Reachable Any World.empty s ∧
      ¬Guarded s := by
  let key := (utter 1 "что такое кит").conversationKey
  have hrun : ((redisMachine .default anyAnswer).runFrom Any
      (initial World.empty) disturbedSchedule).map (fun s =>
        ((s.next 1).bind Command.guardedWrite,
          (s.world.pending key).map PendingReply.jobId)) =
      some (some (key, 0), some 1) := by
    decide +kernel
  obtain ⟨s, hs, hobs⟩ := Option.map_eq_some_iff.mp hrun
  refine ⟨s, reachable_runFrom .start hs, fun hguarded => ?_⟩
  simp only [Prod.mk.injEq] at hobs
  obtain ⟨hwrite, hpending⟩ := hobs
  obtain ⟨op, hop, hop'⟩ := Option.bind_eq_some_iff.mp hwrite
  obtain ⟨r, hr, hid⟩ := Option.map_eq_some_iff.mp hpending
  have hown := hguarded 1 op key 0 hop hop' r hr
  rw [hid] at hown
  cases hown

end AliceSkill
