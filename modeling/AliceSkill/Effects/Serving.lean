import AliceSkill.Effects.Protocol

/-!
# Servers

A server makes calls on a queue until one of them hands it a piece of work,
runs a program for it and goes back to the queue.  Its calls are those of two
signatures: the ones of the queue and the ones the work makes.

Seen from the state that the work is done on, every piece of work is a thread
of its own, started at the moment it is handed over.  `Serves.simulates` says
so for whole runs: a machine of servers is simulated by the machine in which
threads are started for single pieces of work.
-/

namespace Effects

variable {S T : Signature} {ε α β σ σ' A A' L L' E E' : Type}

/-- The calls of two signatures. -/
@[reducible] def Signature.sum (S T : Signature) : Signature where
  Op := S.Op ⊕ T.Op
  Res
    | .inl op => S.Res op
    | .inr op => T.Res op

namespace Program

/-- A program over the first of two signatures. -/
def lift (T : Signature) : Program S ε α → Program (S.sum T) ε α
  | ret a => ret a
  | raise e => raise e
  | call op k => @call (S.sum T) _ _ (.inl op) fun x => (k x).lift T

@[simp] theorem lift_ret (a : α) :
    (ret a : Program S ε α).lift T = ret a := rfl

@[simp] theorem lift_raise (e : ε) :
    (raise e : Program S ε α).lift T = raise e := rfl

@[simp] theorem lift_call (op : S.Op)
    (k : Except ε (S.Res op) → Program S ε α) :
    (call op k).lift T = @call (S.sum T) _ _ (.inl op) fun x => (k x).lift T :=
  rfl

theorem lift_bind (p : Program S ε α) (f : α → Program S ε β) :
    (p.bind f).lift T = (p.lift T).bind fun a => (f a).lift T := by
  induction p with
  | ret a => rfl
  | raise e => rfl
  | call op k ih =>
      simp only [call_bind, lift_call]
      congr
      funext x
      exact ih x

/-- The calls of a program are replaced by those of their implementations. -/
theorem Only.interp {ok : S.Op → Prop} {ok' : T.Op → Prop}
    {impl : (op : S.Op) → Program T ε (S.Res op)} {p : Program S ε α}
    (hp : p.Only ok) (himpl : ∀ op, ok op → (impl op).Only ok') :
    (p.interp impl).Only ok' := by
  induction p with
  | ret a => trivial
  | raise e => trivial
  | call op k ih =>
      exact Only.bind (Only.attempt (himpl op hp.1)) fun x => ih x (hp.2 x)

/-- The calls of a lifted program are those of the program. -/
theorem Only.lift {ok : S.Op → Prop} {p : Program S ε α} (hp : p.Only ok) :
    (p.lift T).Only (Sum.elim ok fun _ => False) := by
  induction p with
  | ret a => trivial
  | raise e => trivial
  | call op k ih => exact ⟨hp.1, fun x => ih x (hp.2 x)⟩

/-- Go on with a value; raise an exception again. -/
def resume (f : α → Program S ε β) : Except ε α → Program S ε β
  | .ok a => f a
  | .error e => raise e

theorem attempt_bind_resume (p : Program S ε α) (f : α → Program S ε β) :
    p.attempt.bind (resume f) = p.bind f := by
  induction p with
  | ret a => rfl
  | raise e => rfl
  | call op k ih =>
      simp only [attempt, call_bind]
      congr
      funext x
      exact ih x

/-- A program that works for a queue.  `offer` says which replies of the queue
hand over a piece of work; its program runs at once, whatever it ends in. -/
inductive Serving (body : L → Program S ε α)
    (offer : (op : T.Op) → Except ε (T.Res op) → Option L) :
    Program (S.sum T) ε β → Prop where
  | ret (b : β) : Serving body offer (.ret b)
  | raise (e : ε) : Serving body offer (.raise e)
  | call (op : T.Op) (k : Except ε (T.Res op) → Program (S.sum T) ε β)
      (rest : (x : Except ε (T.Res op)) → (l : L) → offer op x = some l →
        Except ε α → Program (S.sum T) ε β)
      (idle : ∀ x, offer op x = none → Serving body offer (k x))
      (work : ∀ x l h, k x = ((body l).lift T).attempt.bind (rest x l h))
      (after : ∀ x l h r, Serving body offer (rest x l h r)) :
      Serving body offer (@Program.call (S.sum T) _ _ (.inr op) k)

namespace Serving

variable {body : L → Program S ε α}
variable {offer : (op : T.Op) → Except ε (T.Res op) → Option L}

theorem bind {γ : Type} {p : Program (S.sum T) ε β}
    {f : β → Program (S.sum T) ε γ} (hp : Serving body offer p)
    (hf : ∀ b, Serving body offer (f b)) : Serving body offer (p.bind f) := by
  induction hp with
  | ret b => exact hf b
  | raise e => exact .raise e
  | call op k rest idle work after ihIdle ihAfter =>
      refine .call op _ (fun x l h r => (rest x l h r).bind f) ihIdle ?_ ihAfter
      intro x l h
      rw [work x l h, bind_assoc]

/-- A call of the queue that never hands over work. -/
theorem call_of_none {op : T.Op}
    {k : Except ε (T.Res op) → Program (S.sum T) ε β}
    (hnone : ∀ x, offer op x = none) (hk : ∀ x, Serving body offer (k x)) :
    Serving body offer (@Program.call (S.sum T) _ _ (.inr op) k) := by
  refine .call op k (fun x l h => ?_) (fun x _ => hk x) (fun x l h => ?_)
    fun x l h => ?_
  all_goals
    rw [hnone x] at h
    cases h

/-- A server does not make calls of its own on the state it works on. -/
theorem not_inl {op : S.Op} {k : Except ε (S.Res op) → Program (S.sum T) ε β}
    (h : Serving body offer (@Program.call (S.sum T) _ _ (.inl op) k)) : False := by
  cases h

end Serving

end Program

namespace Machine

open Program

/-- The event a server's own work has left in the log. -/
def Event.left : Event (S.sum T) ε → Option (Event S ε)
  | ⟨tid, .inl op, x⟩ => some ⟨tid, op, x⟩
  | ⟨_, .inr _, _⟩ => none

/-- The same event of another thread. -/
def Event.relabel (f : ℕ → ℕ) (e : Event S ε) : Event S ε :=
  { e with tid := f e.tid }

/-- `M'` is a machine of servers whose work is done on the state of `M`. -/
structure Serves (M : Machine S ε σ A L α E)
    (M' : Machine (S.sum T) ε σ' A' L' β E') (answer : A' → A) (base : σ' → σ)
    (offer : (op : T.Op) → Except ε (T.Res op) → Option L) : Prop where
  work_res : ∀ a (op : S.Op) w,
    (M'.exec a (.inl op) w).1 = (M.exec (answer a) op (base w)).1
  work_world : ∀ a (op : S.Op) w,
    base (M'.exec a (.inl op) w).2 = (M.exec (answer a) op (base w)).2
  work_permits : ∀ a (op : S.Op), M'.permits a (.inl op) → M.permits (answer a) op
  queue_world : ∀ a (op : T.Op) w, base (M'.exec a (.inr op) w).2 = base w
  ambient : ∀ e w, base (M'.ambient e w) = base w ∨
    ∃ e', base (M'.ambient e w) = M.ambient e' (base w)
  body : ∀ l, Serving M.body offer (M'.body l) ∨
    ∃ l' j, M'.body l = ((M.body l').lift T).attempt.bind j ∧
      (∀ r, Serving M.body offer (j r)) ∧
      ∀ w, M'.admits w l → M.admits (base w) l'

variable {M : Machine S ε σ A L α E} {M' : Machine (S.sum T) ε σ' A' L' β E'}
variable {answer : A' → A} {base : σ' → σ}
variable {offer : (op : T.Op) → Except ε (T.Res op) → Option L}

/-- The program of a server against the threads of the machine below: between
two pieces of work, or in the middle of thread `m`. -/
def Tracks (M : Machine S ε σ A L α E)
    (offer : (op : T.Op) → Except ε (T.Res op) → Option L)
    (t : State S ε σ L α) (current : Option ℕ)
    (p : Program (S.sum T) ε β) : Prop :=
  match current with
  | none => Serving M.body offer p
  | some m => ∃ l q j, t.threads[m]? = some ⟨l, q⟩ ∧
      p = (q.lift T).attempt.bind j ∧ ∀ r, Serving M.body offer (j r)

/-- A server that asks the queue has finished its work. -/
theorem Tracks.serving {t : State S ε σ L α} {current : Option ℕ} {op : T.Op}
    {k : Except ε (T.Res op) → Program (S.sum T) ε β}
    (h : Tracks M offer t current (@Program.call (S.sum T) _ _ (.inr op) k)) :
    Serving M.body offer (@Program.call (S.sum T) _ _ (.inr op) k) := by
  cases current with
  | none => exact h
  | some m =>
      obtain ⟨l, q, j, -, hprog, hj⟩ := h
      cases q with
      | ret a =>
          rw [hprog]
          exact hj _
      | raise e =>
          rw [hprog]
          exact hj _
      | call op' k' => cases hprog

/-- A server that works is about to make the call of its thread. -/
theorem Tracks.working {t : State S ε σ L α} {current : Option ℕ} {op : S.Op}
    {k : Except ε (S.Res op) → Program (S.sum T) ε β}
    (h : Tracks M offer t current (@Program.call (S.sum T) _ _ (.inl op) k)) :
    ∃ m l q j, current = some m ∧ t.threads[m]? = some ⟨l, .call op q⟩ ∧
      (∀ x, k x = ((q x).lift T).attempt.bind j) ∧
      ∀ r, Serving M.body offer (j r) := by
  cases current with
  | none => exact h.not_inl.elim
  | some m =>
      obtain ⟨l, q, j, hth, hprog, hj⟩ := h
      cases q with
      | ret a =>
          have hafter := hj (.ok a)
          change _ = j (.ok a) at hprog
          rw [← hprog] at hafter
          exact hafter.not_inl.elim
      | raise e =>
          have hafter := hj (.error e)
          change _ = j (.error e) at hprog
          rw [← hprog] at hafter
          exact hafter.not_inl.elim
      | call op' q =>
          cases hprog
          exact ⟨m, l, q, j, rfl, hth, fun _ => rfl, hj⟩

theorem Tracks.of_threads {t t' : State S ε σ L α} {current : Option ℕ}
    {p : Program (S.sum T) ε β} (h : Tracks M offer t current p)
    (hkeep : ∀ m, current = some m → ∀ th, t.threads[m]? = some th →
      t'.threads[m]? = some th) :
    Tracks M offer t' current p := by
  cases current with
  | none => exact h
  | some m =>
      obtain ⟨l, q, j, hth, hrest⟩ := h
      exact ⟨l, q, j, hkeep m rfl _ hth, hrest⟩

/-- How a run of servers looks from the state they work on: `current` is the
thread a server works for and `owner` the server of a thread. -/
structure Related (base : σ' → σ) (M : Machine S ε σ A L α E)
    (offer : (op : T.Op) → Except ε (T.Res op) → Option L)
    (s : State (S.sum T) ε σ' L' β) (t : State S ε σ L α)
    (current : ℕ → Option ℕ) (owner : ℕ → ℕ) : Prop where
  world : t.world = base s.world
  log : s.log.filterMap Event.left = t.log.map (Event.relabel owner)
  tracks : ∀ (i : ℕ) (th : Thread (S.sum T) ε L' β), s.threads[i]? = some th →
    Tracks M offer t (current i) th.prog
  owned : ∀ i m, current i = some m → m < t.threads.length ∧ owner m = i
  logged : ∀ e ∈ t.log, e.tid < t.threads.length

namespace Related

variable {s : State (S.sum T) ε σ' L' β} {t : State S ε σ L α}
variable {current : ℕ → Option ℕ} {owner : ℕ → ℕ}

/-- Events that are already there do not belong to a new thread. -/
theorem relabel_update (h : Related base M offer s t current owner) (i : ℕ) :
    t.log.map (Event.relabel (Function.update owner t.threads.length i)) =
      t.log.map (Event.relabel owner) := by
  refine List.map_congr_left fun e he => ?_
  have hne : e.tid ≠ t.threads.length := Nat.ne_of_lt (h.logged e he)
  rw [Event.relabel, Event.relabel, Function.update_of_ne hne]

/-- Server `i` starts on a piece of work. -/
theorem begin (h : Related base M offer s t current owner) {i : ℕ} {l : L}
    {j : Except ε α → Program (S.sum T) ε β}
    {s' : State (S.sum T) ε σ' L' β} (hworld : base s'.world = base s.world)
    (hlog : s'.log.filterMap Event.left = s.log.filterMap Event.left)
    {l' : L'} (hj : ∀ r, Serving M.body offer (j r))
    (hthreads : ∀ i', s'.threads[i']? =
      if i' = i then some ⟨l', ((M.body l).lift T).attempt.bind j⟩
      else s.threads[i']?) :
    Related base M offer s' (M.spawned t l)
      (Function.update current i (some t.threads.length))
      (Function.update owner t.threads.length i) where
  world := h.world.trans hworld.symm
  log := by
    rw [hlog, h.log]
    exact (h.relabel_update i).symm
  tracks i' th hth := by
    rw [hthreads] at hth
    by_cases hi : i' = i
    · rw [if_pos hi] at hth
      cases hth
      rw [hi, Function.update_self]
      exact ⟨l, M.body l, j, by rw [spawned_threads, if_pos rfl], rfl, hj⟩
    · rw [if_neg hi] at hth
      rw [Function.update_of_ne hi]
      refine (h.tracks i' th hth).of_threads fun m hm th' hth' => ?_
      have hlt := (h.owned i' m hm).1
      rw [spawned_threads, if_neg (Nat.ne_of_lt hlt)]
      exact hth'
  owned i' m hm := by
    have hlen : (M.spawned t l).threads.length = t.threads.length + 1 := by
      simp [spawned]
    rw [hlen]
    rcases update_cases hm with ⟨hi, hnew⟩ | ⟨hi, hold⟩
    · cases hnew
      exact ⟨Nat.lt_succ_self _, by rw [Function.update_self, hi]⟩
    · obtain ⟨hlt, howner⟩ := h.owned i' m hold
      refine ⟨Nat.lt_succ_of_lt hlt, ?_⟩
      rw [Function.update_of_ne (Nat.ne_of_lt hlt)]
      exact howner
  logged e he := by
    have hlt := h.logged e he
    simp only [spawned, List.length_append, List.length_singleton]
    exact Nat.lt_succ_of_lt hlt

/-- Server `i` asks the queue, or has just been started. -/
theorem wait (h : Related base M offer s t current owner) {i : ℕ}
    {p : Program (S.sum T) ε β} {s' : State (S.sum T) ε σ' L' β} {l' : L'}
    (hworld : base s'.world = base s.world)
    (hlog : s'.log.filterMap Event.left = s.log.filterMap Event.left)
    (hp : Serving M.body offer p)
    (hthreads : ∀ i', s'.threads[i']? =
      if i' = i then some ⟨l', p⟩ else s.threads[i']?) :
    Related base M offer s' t (Function.update current i none) owner where
  world := h.world.trans hworld.symm
  log := hlog.trans h.log
  tracks i' th hth := by
    rw [hthreads] at hth
    by_cases hi : i' = i
    · rw [if_pos hi] at hth
      cases hth
      rw [hi, Function.update_self]
      exact hp
    · rw [if_neg hi] at hth
      rw [Function.update_of_ne hi]
      exact h.tracks i' th hth
  owned i' m hm := by
    rcases update_cases hm with ⟨-, hnew⟩ | ⟨-, hold⟩
    · cases hnew
    · exact h.owned i' m hold
  logged := h.logged

/-- A call of the work is the same call of its thread. -/
theorem work (hS : Serves M M' answer base offer)
    (h : Related base M offer s t current owner) {i m : ℕ} {l : L} {l' : L'}
    {op : S.Op} {q : Except ε (S.Res op) → Program S ε α}
    {k : Except ε (S.Res op) → Program (S.sum T) ε β}
    {j : Except ε α → Program (S.sum T) ε β} (a : A')
    (hget : s.threads[i]? = some ⟨l', @Program.call (S.sum T) _ _ (.inl op) k⟩)
    (hm : current i = some m) (hth : t.threads[m]? = some ⟨l, .call op q⟩)
    (hk : ∀ x, k x = ((q x).lift T).attempt.bind j)
    (hj : ∀ r, Serving M.body offer (j r)) :
    Related base M offer (M'.afterCall s i l' (.inl op) k a)
      (M.afterCall t m l op q (answer a)) current owner where
  world := by
    simp only [afterCall]
    rw [hS.work_world, h.world]
  log := by
    simp only [afterCall, List.map_cons]
    rw [List.filterMap_cons_some (b := ⟨i, op, (M.exec (answer a) op (base s.world)).1⟩),
      h.log, h.world]
    · congr 1
      rw [Event.relabel, (h.owned i m hm).2]
    · rw [Event.left, hS.work_res]
  tracks i' th hi' := by
    rw [afterCall_threads hget] at hi'
    by_cases hi : i' = i
    · rw [if_pos hi] at hi'
      cases hi'
      rw [hi, hm]
      refine ⟨l, q (M.exec (answer a) op t.world).1, j, ?_, ?_, hj⟩
      · rw [afterCall_threads hth, if_pos rfl]
      · simp only
        rw [hS.work_res, hk, h.world]
    · rw [if_neg hi] at hi'
      refine (h.tracks i' th hi').of_threads fun m' hm' th' hth' => ?_
      have hne : m' ≠ m := by
        intro heq
        apply hi
        rw [← (h.owned i' m' hm').2, heq, (h.owned i m hm).2]
      rw [afterCall_threads hth, if_neg hne]
      exact hth'
  owned i' m' hm' := by
    obtain ⟨hlt, howner⟩ := h.owned i' m' hm'
    exact ⟨by simpa [afterCall] using hlt, howner⟩
  logged e he := by
    simp only [afterCall, List.mem_cons, List.length_set] at he ⊢
    rcases he with rfl | he
    · exact (h.owned i m hm).1
    · exact h.logged e he

end Related

/-- Every run of servers is a run of the machine below, in which a thread is
started whenever the queue hands over a piece of work. -/
theorem Serves.simulates (hS : Serves M M' answer base offer)
    {C : State (S.sum T) ε σ' L' β → Action A' L' E' → Prop} {w : σ'}
    (hoffer : ∀ s tid a op l, M'.Reachable C w s → C s (.step tid a) →
      M'.permits a (.inr op) →
      offer op (M'.exec a (.inr op) s.world).1 = some l →
        M.admits (base s.world) l)
    {s : State (S.sum T) ε σ' L' β} (hs : M'.Reachable C w s) :
    ∃ t current owner, M.Reachable Any (base w) t ∧
      Related base M offer s t current owner := by
  induction hs with
  | start =>
      refine ⟨initial (base w), fun _ => none, id, .start, ?_⟩
      exact ⟨rfl, rfl, by simp [initial], by simp, by simp [initial]⟩
  | @step s s' act hr hc hst ih =>
      obtain ⟨t, current, owner, ht, h⟩ := ih
      rcases step_cases hst with ⟨l, rfl, hadm, rfl⟩ |
        ⟨tid, a, l, op, k, rfl, hget, hperm, rfl⟩ | ⟨e, rfl, rfl⟩
      · rcases hS.body l with hserving | ⟨l', j, hbody, hj, hadmits⟩
        · have hthreads := spawned_threads (M := M') s l
          exact ⟨t, _, owner, ht, h.wait rfl rfl hserving hthreads⟩
        · have hadm' := hadmits _ hadm
          have hthreads := spawned_threads (M := M') s l
          rw [← h.world] at hadm'
          rw [hbody] at hthreads
          have hstep : M.Step t (.spawn l') (M.spawned t l') := ⟨hadm', rfl⟩
          exact ⟨M.spawned t l', _, _, ht.step trivial hstep,
            h.begin rfl rfl hj hthreads⟩
      · have htracks := h.tracks tid _ hget
        cases op with
        | inl op =>
            obtain ⟨m, l', q, j, hm, hth, hk, hj⟩ := htracks.working
            have hstep : M.Step t (.step m (answer a))
                (M.afterCall t m l' op q (answer a)) := by
              constructor
              · simp only [Allows, AnswersNext, hth]
                exact hS.work_permits a op hperm
              · simp only [advance, hth]
            exact ⟨M.afterCall t m l' op q (answer a), current, owner, ht.step trivial hstep,
              h.work hS a hget hm hth hk hj⟩
        | inr op =>
            have hserving := htracks.serving
            cases hserving with
            | call _ _ rest idle work after =>
              cases hwork : offer op (M'.exec a (.inr op) s.world).1 with
              | none =>
                  have hthreads := afterCall_threads (M := M') hget a
                  exact ⟨t, _, owner, ht, h.wait (hS.queue_world a op s.world)
                    rfl (idle _ hwork) hthreads⟩
              | some l' =>
                  have hadm := hoffer s tid a op l' hr hc hperm hwork
                  have hthreads := afterCall_threads (M := M') hget a
                  rw [← h.world] at hadm
                  rw [work _ l' hwork] at hthreads
                  have hstep : M.Step t (.spawn l') (M.spawned t l') := ⟨hadm, rfl⟩
                  exact ⟨M.spawned t l', _, _, ht.step trivial hstep,
                    h.begin (hS.queue_world a op s.world) rfl (after _ l' hwork)
                      hthreads⟩
      · rcases hS.ambient e s.world with hsame | ⟨e', hstep⟩
        · exact ⟨t, current, owner, ht, h.world.trans hsame.symm, h.log, h.tracks,
            h.owned, h.logged⟩
        · have hworld : M.ambient e' t.world = base (M'.ambient e s.world) := by
            rw [hstep, h.world]
          have hstep' : M.Step t (.ambient e')
              { t with world := M.ambient e' t.world } := ⟨trivial, rfl⟩
          exact ⟨_, current, owner, ht.step trivial hstep', hworld, h.log,
            h.tracks, h.owned, h.logged⟩

end Machine

end Effects
