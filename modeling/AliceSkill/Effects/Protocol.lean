import AliceSkill.Effects.Interleaving
import Mathlib.Logic.Function.Basic

/-!
# Protocols and non-interference

A protocol is a typestate for the calls of one thread: in phase `q` it may
make certain calls, the outcomes listed as possible are the ones it has to be
prepared for, and each outcome leads to a next phase.  `Program.Follows` says
that a program keeps to a protocol whatever the outcomes are; it is checked
once, along the text of the program, with no reference to a state.

`Reachable.discipline` is the rule for interleaved threads that keep to a
protocol: a global invariant together with an assertion for each phase, where
every call re-establishes its own assertion and leaves those of the other
threads alone.
-/

namespace Effects

variable {S T : Signature} {ε α β Q : Type}

/-- A typestate discipline for the calls of one thread. -/
structure Protocol (S : Signature) (ε Q : Type) where
  may : Q → S.Op → Prop
  possible : Q → (op : S.Op) → Except ε (S.Res op) → Prop
  next : Q → (op : S.Op) → Except ε (S.Res op) → Q

namespace Program

variable {P : Protocol S ε Q}

/-- From phase `q` the program makes only calls its phase allows and ends in
a result and phase related by `R`. -/
def Follows (P : Protocol S ε Q) :
    Program S ε α → Q → (Except ε α → Q → Prop) → Prop
  | ret a, q, R => R (.ok a) q
  | raise e, q, R => R (.error e) q
  | call op k, q, R => P.may q op ∧
      ∀ x, P.possible q op x → (k x).Follows P (P.next q op x) R

@[simp] theorem follows_ret {a : α} {q : Q} {R : Except ε α → Q → Prop} :
    (ret a : Program S ε α).Follows P q R ↔ R (.ok a) q := Iff.rfl

@[simp] theorem follows_raise {e : ε} {q : Q} {R : Except ε α → Q → Prop} :
    (raise e : Program S ε α).Follows P q R ↔ R (.error e) q := Iff.rfl

theorem follows_call {op : S.Op} {k : Except ε (S.Res op) → Program S ε α}
    {q : Q} {R : Except ε α → Q → Prop} :
    (call op k).Follows P q R ↔ P.may q op ∧
      ∀ x, P.possible q op x → (k x).Follows P (P.next q op x) R := Iff.rfl

theorem Follows.mono {p : Program S ε α} {q : Q}
    {R R' : Except ε α → Q → Prop} (h : p.Follows P q R)
    (hR : ∀ r q', R r q' → R' r q') : p.Follows P q R' := by
  induction p generalizing q with
  | ret a => exact hR _ _ h
  | raise e => exact hR _ _ h
  | call op k ih => exact ⟨h.1, fun x hx => ih x (h.2 x hx)⟩

@[simp] theorem follows_bind {p : Program S ε α} {f : α → Program S ε β}
    {q : Q} {R : Except ε β → Q → Prop} :
    (p.bind f).Follows P q R ↔
      p.Follows P q (fun r q' => match r with
        | .ok a => (f a).Follows P q' R
        | .error e => R (.error e) q') := by
  induction p generalizing q with
  | ret a => rfl
  | raise e => rfl
  | call op k ih => simp only [call_bind, follows_call, ih]

@[simp] theorem follows_attempt {p : Program S ε α} {q : Q}
    {R : Except ε (Except ε α) → Q → Prop} :
    p.attempt.Follows P q R ↔ p.Follows P q (fun r q' => R (.ok r) q') := by
  induction p generalizing q with
  | ret a => rfl
  | raise e => rfl
  | call op k ih => simp only [attempt, follows_call, ih]

@[simp] theorem follows_perform {op : S.Op} {q : Q}
    {R : Except ε (S.Res op) → Q → Prop} :
    (perform op : Program S ε (S.Res op)).Follows P q R ↔ P.may q op ∧
      ∀ x, P.possible q op x → R x (P.next q op x) := by
  simp only [perform, follows_call]
  refine and_congr_right fun _ => forall_congr' fun x => imp_congr_right fun _ => ?_
  cases x <;> rfl

@[simp] theorem follows_interp_bind {impl : (op : T.Op) → Program S ε (T.Res op)}
    {p : Program T ε α} {f : α → Program T ε β} {q : Q}
    {R : Except ε β → Q → Prop} :
    ((p.bind f).interp impl).Follows P q R ↔
      (p.interp impl).Follows P q (fun r q' => match r with
        | .ok a => ((f a).interp impl).Follows P q' R
        | .error e => R (.error e) q') := by
  rw [interp_bind, follows_bind]

@[simp] theorem follows_interp_attempt
    {impl : (op : T.Op) → Program S ε (T.Res op)} {p : Program T ε α} {q : Q}
    {R : Except ε (Except ε α) → Q → Prop} :
    (p.attempt.interp impl).Follows P q R ↔
      (p.interp impl).Follows P q (fun r q' => R (.ok r) q') := by
  rw [interp_attempt, follows_attempt]

/-- If every call is implemented within the protocol from any phase, so is
every program. -/
theorem follows_interp_of_forall {impl : (op : T.Op) → Program S ε (T.Res op)}
    (h : ∀ op q, (impl op).Follows P q fun _ _ => True) (p : Program T ε α)
    (q : Q) : (p.interp impl).Follows P q fun _ _ => True := by
  induction p generalizing q with
  | ret a => trivial
  | raise e => trivial
  | call op k ih =>
      rw [interp_call, follows_bind, follows_attempt]
      exact (h op q).mono fun r q' _ => ih r q'

/-- Every call the program may make satisfies `ok`. -/
def Only (ok : S.Op → Prop) : Program S ε α → Prop
  | ret _ => True
  | raise _ => True
  | call op k => ok op ∧ ∀ x, (k x).Only ok

@[simp] theorem only_ret (ok : S.Op → Prop) (a : α) :
    (ret a : Program S ε α).Only ok := trivial

@[simp] theorem only_raise (ok : S.Op → Prop) (e : ε) :
    (raise e : Program S ε α).Only ok := trivial

theorem Only.mono {ok ok' : S.Op → Prop} {p : Program S ε α} (hp : p.Only ok)
    (h : ∀ op, ok op → ok' op) : p.Only ok' := by
  induction p with
  | ret a => trivial
  | raise e => trivial
  | call op k ih => exact ⟨h op hp.1, fun x => ih x (hp.2 x)⟩

theorem Only.bind {ok : S.Op → Prop} {p : Program S ε α}
    {f : α → Program S ε β} (hp : p.Only ok) (hf : ∀ a, (f a).Only ok) :
    (p.bind f).Only ok := by
  induction p with
  | ret a => exact hf a
  | raise e => trivial
  | call op k ih => exact ⟨hp.1, fun x => ih x (hp.2 x)⟩

theorem Only.attempt {ok : S.Op → Prop} {p : Program S ε α}
    (hp : p.Only ok) : p.attempt.Only ok := by
  induction p with
  | ret a => trivial
  | raise e => trivial
  | call op k ih => exact ⟨hp.1, fun x => ih x (hp.2 x)⟩

theorem Only.of_attempt_bind {ok : S.Op → Prop}
    {p : Program S ε α} {f : Except ε α → Program S ε β}
    (h : (p.attempt.bind f).Only ok) :
    p.Only ok := by
  induction p with
  | ret a => trivial
  | raise e => trivial
  | call op k ih => exact ⟨h.1, fun x => ih x (h.2 x)⟩

theorem only_perform {ok : S.Op → Prop} {op : S.Op} (h : ok op) :
    (perform op : Program S ε (S.Res op)).Only ok := by
  refine ⟨h, fun x => ?_⟩
  rcases x with e | a <;> trivial

/-- Calls that keep to the protocol as long as `J` holds of the phase, and
keep `J`, can be made in any order and number. -/
theorem Only.follows_of {ok : S.Op → Prop} {p : Program S ε α} (hp : p.Only ok)
    {J : Q → Prop} (hkeep : ∀ op q, ok op → J q →
      P.may q op ∧ ∀ x, J (P.next q op x)) {q : Q} (hq : J q) :
    p.Follows P q fun _ q' => J q' := by
  induction p generalizing q with
  | ret a => exact hq
  | raise e => exact hq
  | call op k ih =>
      obtain ⟨hmay, hnext⟩ := hkeep op q hp.1 hq
      exact ⟨hmay, fun x _ => ih x (hp.2 x) (hnext x)⟩

/-- Calls that are allowed in a phase and do not change it. -/
theorem Only.follows {ok : S.Op → Prop} {p : Program S ε α} (hp : p.Only ok)
    {q : Q} (hstay : ∀ op, ok op → P.may q op ∧ ∀ x, P.next q op x = q) :
    p.Follows P q fun _ q' => q' = q := by
  refine hp.follows_of (J := fun q' => q' = q) ?_ rfl
  rintro op q' hop rfl
  exact hstay op hop

theorem Only.follows_interp {ok : T.Op → Prop}
    {impl : (op : T.Op) → Program S ε (T.Res op)} {p : Program T ε α}
    (hp : p.Only ok) {q : Q}
    (hstay : ∀ op, ok op → (impl op).Follows P q fun _ q' => q' = q) :
    (p.interp impl).Follows P q fun _ q' => q' = q := by
  induction p with
  | ret a => rfl
  | raise e => rfl
  | call op k ih =>
      rw [interp_call, follows_bind, follows_attempt]
      refine (hstay op hp.1).mono fun r q' hq => ?_
      subst hq
      exact ih r (hp.2 r)

/-- Protocols on two levels.  When every call that a phase of the upper protocol
allows is implemented within the lower one, with an outcome that is possible
above, a program that keeps to the upper protocol keeps to the lower one when
its calls are replaced by their implementations. -/
theorem Follows.interp {Q' : Type} {P : Protocol T ε Q} {P' : Protocol S ε Q'}
    {impl : (op : T.Op) → Program S ε (T.Res op)} {J : Q → Q' → Prop}
    (himpl : ∀ q q' op, J q q' → P.may q op → (impl op).Follows P' q'
      fun x q'' => P.possible q op x ∧ J (P.next q op x) q'')
    {p : Program T ε α} {q : Q} {q' : Q'} {R : Except ε α → Q → Prop}
    (hp : p.Follows P q R) (hJ : J q q') :
    (p.interp impl).Follows P' q' fun r q'' => ∃ q₁, R r q₁ ∧ J q₁ q'' := by
  induction p generalizing q q' with
  | ret a => exact ⟨q, hp, hJ⟩
  | raise e => exact ⟨q, hp, hJ⟩
  | call op k ih =>
      rw [interp_call, follows_bind, follows_attempt]
      refine (himpl q q' op hJ hp.1).mono fun x q'' h => ?_
      exact ih x (hp.2 x h.1) h.2

/-- What a protocol guarantees holds of every execution alone, when the
outcomes of calls are possible ones. -/
theorem Follows.wp {σ A : Type} {exec : Handler S ε σ A}
    {permits : A → S.Op → Prop} {p : Program S ε α} {q : Q}
    {R : Except ε α → Q → Prop} (h : p.Follows P q R)
    (hpossible : ∀ q op a s, permits a op → P.possible q op (exec a op s).1)
    (s : σ) : p.wp exec permits (fun r _ => ∃ q', R r q') s := by
  induction p generalizing q s with
  | ret a => exact ⟨q, h⟩
  | raise e => exact ⟨q, h⟩
  | call op k ih =>
      intro a ha
      exact ih _ (h.2 _ (hpossible q op a s ha)) _

end Program

namespace Machine

open Program

variable {σ A L E : Type} {M : Machine S ε σ A L α E}

/-- Events are made by threads that have been started. -/
theorem Reachable.tid_lt {C : State S ε σ L α → Action A L E → Prop} {w : σ}
    {s : State S ε σ L α} (hs : M.Reachable C w s) :
    ∀ e ∈ s.log, e.tid < s.threads.length := by
  refine hs.invariant (I := fun s => ∀ e ∈ s.log, e.tid < s.threads.length)
    (by simp [initial]) ?_
  intro s s' act _ ih _ hst
  rcases step_cases hst with ⟨l, -, -, rfl⟩ | ⟨tid, a, l, op, k, -, hget, -, rfl⟩ |
    ⟨e, -, rfl⟩
  · intro e he
    have := ih e he
    simp only [spawned, List.length_append, List.length_singleton]
    omega
  · intro e he
    simp only [afterCall, List.mem_cons, List.length_set] at he ⊢
    rcases he with rfl | he
    · exact (List.getElem?_eq_some_iff.mp hget).1
    · exact ih e he
  · exact ih

/-- The next call of a thread is one its phase allows. -/
theorem Thread.may_next {P : Protocol S ε Q} (th : Thread S ε L α) {q : Q}
    {R : Except ε α → Q → Prop} (h : th.prog.Follows P q R) {op : S.Op}
    (hop : th.next = some op) : P.may q op := by
  obtain ⟨l, p⟩ := th
  rcases p with a | e | ⟨op', k⟩
  · cases hop
  · cases hop
  · cases hop
    exact h.1

/-- What every thread of a kind may call, it calls in every state. -/
theorem Reachable.only {C : State S ε σ L α → Action A L E → Prop} {w : σ}
    {ok : L → S.Op → Prop} (hbody : ∀ l, (M.body l).Only (ok l))
    {s : State S ε σ L α} (hs : M.Reachable C w s) :
    ∀ (i : ℕ) (th : Thread S ε L α), s.threads[i]? = some th →
      th.prog.Only (ok th.label) := by
  refine hs.invariant (I := fun s => ∀ (i : ℕ) (th : Thread S ε L α),
    s.threads[i]? = some th → th.prog.Only (ok th.label))
    (by simp [initial]) ?_
  intro s s' act _ ih _ hst
  rcases step_cases hst with ⟨l, -, -, rfl⟩ | ⟨tid, a, l, op, k, -, hget, -, rfl⟩ |
    ⟨e, -, rfl⟩
  · intro i th hi
    rw [spawned_threads] at hi
    by_cases hil : i = s.threads.length
    · rw [if_pos hil] at hi
      cases hi
      exact hbody l
    · rw [if_neg hil] at hi
      exact ih i th hi
  · intro i th hi
    rw [afterCall_threads hget] at hi
    by_cases hit : i = tid
    · rw [if_pos hit] at hi
      cases hi
      exact (ih tid _ hget).2 _
    · rw [if_neg hit] at hi
      exact ih i th hi
  · exact ih

/-- Every thread keeps to the protocol from its phase on. -/
def InPhases (P : Protocol S ε Q) (R : L → Except ε α → Q → Prop)
    (s : State S ε σ L α) (ph : ℕ → Q) : Prop :=
  ∀ tid (th : Thread S ε L α), s.threads[tid]? = some th →
    th.prog.Follows P (ph tid) (R th.label)

/-- Threads that keep to a protocol, seen from outside: each has a phase.
An invariant may speak of the phases of all threads at once. -/
theorem Reachable.phases {P : Protocol S ε Q} {q₀ : L → Q}
    {R : L → Except ε α → Q → Prop}
    (hbody : ∀ l, (M.body l).Follows P (q₀ l) (R l))
    {I : State S ε σ L α → (ℕ → Q) → Prop}
    {C : State S ε σ L α → Action A L E → Prop} {w : σ} (ph₀ : ℕ → Q)
    (hstart : I (initial w) ph₀)
    (hspawn : ∀ s ph l, M.Reachable C w s → C s (.spawn l) →
      M.admits s.world l → InPhases P R s ph → I s ph →
        I (M.spawned s l) (Function.update ph s.threads.length (q₀ l)))
    (hcall : ∀ s ph tid l op k a, M.Reachable C w s →
      s.threads[tid]? = some ⟨l, .call op k⟩ → C s (.step tid a) →
      M.permits a op → P.may (ph tid) op → InPhases P R s ph → I s ph →
        P.possible (ph tid) op (M.exec a op s.world).1 ∧
        ((k (M.exec a op s.world).1).Follows P
            (P.next (ph tid) op (M.exec a op s.world).1) (R l) →
          I (M.afterCall s tid l op k a) (Function.update ph tid
            (P.next (ph tid) op (M.exec a op s.world).1))))
    (hambient : ∀ s ph e, M.Reachable C w s → C s (.ambient e) → I s ph →
      I { s with world := M.ambient e s.world } ph)
    {s : State S ε σ L α} (hs : M.Reachable C w s) :
    ∃ ph, I s ph ∧ InPhases P R s ph := by
  induction hs with
  | start => exact ⟨ph₀, hstart, by simp [InPhases, initial]⟩
  | @step s s' act hr hc hst ih =>
      obtain ⟨ph, hI, hfol⟩ := ih
      rcases step_cases hst with ⟨l, rfl, hadm, rfl⟩ |
        ⟨tid, a, l, op, k, rfl, hget, hperm, rfl⟩ | ⟨e, rfl, rfl⟩
      · refine ⟨_, hspawn s ph l hr hc hadm hfol hI, ?_⟩
        intro i th hi
        rw [spawned_threads] at hi
        by_cases hil : i = s.threads.length
        · rw [if_pos hil] at hi
          cases hi
          rw [hil, Function.update_self]
          exact hbody l
        · rw [if_neg hil] at hi
          rw [Function.update_of_ne hil]
          exact hfol i th hi
      · have hthread := hfol tid _ hget
        obtain ⟨hposs, hI'⟩ :=
          hcall s ph tid l op k a hr hget hc hperm hthread.1 hfol hI
        have hnext := hthread.2 _ hposs
        refine ⟨_, hI' hnext, ?_⟩
        intro i th hi
        rw [afterCall_threads hget] at hi
        by_cases hit : i = tid
        · rw [if_pos hit] at hi
          cases hi
          rw [hit, Function.update_self]
          exact hnext
        · rw [if_neg hit] at hi
          rw [Function.update_of_ne hit]
          exact hfol i th hi
      · exact ⟨ph, hambient s ph e hr hc hI, hfol⟩

/-- Non-interference.  `G` is the global invariant and `T tid th q` what the
thread `th` knows in phase `q`.  A call of one thread has to keep `G`,
establish the assertion of its next phase and preserve the assertions of all
others. -/
theorem Reachable.discipline [Inhabited Q] {P : Protocol S ε Q} {q₀ : L → Q}
    {R : L → Except ε α → Q → Prop}
    (hbody : ∀ l, (M.body l).Follows P (q₀ l) (R l))
    {G : σ → List (Event S ε) → Prop}
    {T : ℕ → Thread S ε L α → Q → σ → List (Event S ε) → Prop}
    {C : State S ε σ L α → Action A L E → Prop} {w : σ}
    (hstart : G w [])
    (hspawn : ∀ s l, M.Reachable C w s → C s (.spawn l) → M.admits s.world l →
      G s.world s.log →
        T s.threads.length ⟨l, M.body l⟩ (q₀ l) s.world s.log)
    (hcall : ∀ s tid l q op k a, M.Reachable C w s →
      s.threads[tid]? = some ⟨l, .call op k⟩ → C s (.step tid a) →
      M.permits a op → P.may q op → G s.world s.log →
      T tid ⟨l, .call op k⟩ q s.world s.log →
        P.possible q op (M.exec a op s.world).1 ∧
        G (M.exec a op s.world).2
          (⟨tid, op, (M.exec a op s.world).1⟩ :: s.log) ∧
        ((k (M.exec a op s.world).1).Follows P
            (P.next q op (M.exec a op s.world).1) (R l) →
          T tid ⟨l, k (M.exec a op s.world).1⟩
            (P.next q op (M.exec a op s.world).1) (M.exec a op s.world).2
            (⟨tid, op, (M.exec a op s.world).1⟩ :: s.log)) ∧
        ∀ i th q', i ≠ tid → s.threads[i]? = some th →
          T i th q' s.world s.log →
          T i th q' (M.exec a op s.world).2
            (⟨tid, op, (M.exec a op s.world).1⟩ :: s.log))
    (hambient : ∀ s e, M.Reachable C w s → C s (.ambient e) →
      G s.world s.log → G (M.ambient e s.world) s.log ∧
        ∀ i th q, T i th q s.world s.log →
          T i th q (M.ambient e s.world) s.log)
    {s : State S ε σ L α} (hs : M.Reachable C w s) :
    G s.world s.log ∧
      ∀ tid (th : Thread S ε L α), s.threads[tid]? = some th → ∃ q,
        th.prog.Follows P q (R th.label) ∧ T tid th q s.world s.log := by
  have hrun := hs.phases hbody (I := fun s ph => G s.world s.log ∧
      ∀ tid (th : Thread S ε L α), s.threads[tid]? = some th →
        T tid th (ph tid) s.world s.log)
    (fun _ => default) ⟨hstart, by simp [initial]⟩ ?_ ?_ ?_
  · obtain ⟨ph, ⟨hG, hT⟩, hfol⟩ := hrun
    exact ⟨hG, fun tid th hth => ⟨ph tid, hfol tid th hth, hT tid th hth⟩⟩
  · rintro s ph l hr hc hadm - ⟨hG, hT⟩
    refine ⟨hG, fun i th hi => ?_⟩
    rw [spawned_threads] at hi
    by_cases hil : i = s.threads.length
    · rw [if_pos hil] at hi
      cases hi
      rw [hil, Function.update_self]
      exact hspawn s l hr hc hadm hG
    · rw [if_neg hil] at hi
      rw [Function.update_of_ne hil]
      exact hT i th hi
  · rintro s ph tid l op k a hr hget hc hperm hmay - ⟨hG, hT⟩
    obtain ⟨hposs, hG', hself, hothers⟩ :=
      hcall s tid l _ op k a hr hget hc hperm hmay hG (hT tid _ hget)
    refine ⟨hposs, fun hnext => ⟨hG', fun i th hi => ?_⟩⟩
    rw [afterCall_threads hget] at hi
    by_cases hit : i = tid
    · rw [if_pos hit] at hi
      cases hi
      rw [hit, Function.update_self]
      exact hself hnext
    · rw [if_neg hit] at hi
      rw [Function.update_of_ne hit]
      exact hothers i th (ph i) hit hi (hT i th hi)
  · rintro s ph e hr hc ⟨hG, hT⟩
    obtain ⟨hG', hT'⟩ := hambient s e hr hc hG
    exact ⟨hG', fun i th hi => hT' i th _ (hT i th hi)⟩

end Machine

end Effects
