import AliceSkill.Effects.Protocol

/-!
# What a thread has done

A thread of a machine depends on the others only through the outcomes of its
calls: its program is what these outcomes have left of the program it was
started with (`Reachable.executes`).  So what a program can do at all is what
its threads do in any run.
-/

namespace Effects

variable {S : Signature} {ε α β σ A L E : Type}

/-- A call and how it has ended. -/
structure CallResult (S : Signature) (ε : Type) where
  op : S.Op
  res : Except ε (S.Res op)

instance [DecidableEq S.Op] [∀ op, DecidableEq (Except ε (S.Res op))] :
    DecidableEq (CallResult S ε)
  | ⟨op, x⟩, ⟨op', x'⟩ =>
      if hop : op = op' then by
        subst hop
        exact decidable_of_iff (x = x') (by simp)
      else .isFalse (by simp [hop])

namespace Program

/-- The outcomes of the calls a program makes one after the other, and what they
leave of it. -/
inductive Executes : Program S ε α → List (CallResult S ε) → Program S ε α → Prop where
  | nil (p : Program S ε α) : Executes p [] p
  | cons {op : S.Op} {k : Except ε (S.Res op) → Program S ε α}
      {x : Except ε (S.Res op)} {outcomes : List (CallResult S ε)} {q : Program S ε α} :
      Executes (k x) outcomes q → Executes (call op k) (⟨op, x⟩ :: outcomes) q

/-- One more call. -/
theorem Executes.snoc {p : Program S ε α} {outcomes : List (CallResult S ε)}
    {op : S.Op} {k : Except ε (S.Res op) → Program S ε α}
    (h : p.Executes outcomes (call op k)) (x : Except ε (S.Res op)) :
    p.Executes (outcomes ++ [⟨op, x⟩]) (k x) := by
  generalize hq : call op k = q at h
  induction h with
  | nil p =>
      cases hq
      exact .cons (.nil _)
  | cons _ ih => exact .cons (ih hq)

theorem executes_ret {a : α} {outcomes : List (CallResult S ε)} {q : Program S ε α}
    (h : (ret a).Executes outcomes q) : outcomes = [] ∧ q = ret a := by
  cases h
  exact ⟨rfl, rfl⟩

theorem executes_raise {e : ε} {outcomes : List (CallResult S ε)} {q : Program S ε α}
    (h : (raise e).Executes outcomes q) : outcomes = [] ∧ q = raise e := by
  cases h
  exact ⟨rfl, rfl⟩

/-- A program that has ended has made its first call. -/
theorem executes_call {op : S.Op} {k : Except ε (S.Res op) → Program S ε α}
    {outcomes : List (CallResult S ε)} {q : Program S ε α}
    (h : (call op k).Executes outcomes q) (hq : ∀ k', q ≠ call op k') :
    ∃ x rest, outcomes = ⟨op, x⟩ :: rest ∧ (k x).Executes rest q := by
  cases h with
  | nil => exact absurd rfl (hq k)
  | cons h => exact ⟨_, _, rfl, h⟩

/-- One execution after the other. -/
theorem Executes.append {p p' q : Program S ε α}
    {before after : List (CallResult S ε)} (h : p.Executes before p')
    (h' : p'.Executes after q) : p.Executes (before ++ after) q := by
  induction h with
  | nil p => exact h'
  | cons _ ih => exact .cons (ih h')

/-- The first part of a sequence goes on by itself. -/
theorem Executes.bind_left {p p' : Program S ε α} {outcomes : List (CallResult S ε)}
    (h : p.Executes outcomes p') (f : α → Program S ε β) :
    (p.bind f).Executes outcomes (p'.bind f) := by
  induction h with
  | nil p => exact .nil _
  | cons _ ih => exact .cons ih

/-- A sequence whose first part has returned. -/
theorem Executes.bind {p : Program S ε α} {a : α} {f : α → Program S ε β}
    {q : Program S ε β} {before after : List (CallResult S ε)}
    (hp : p.Executes before (ret a)) (hf : (f a).Executes after q) :
    (p.bind f).Executes (before ++ after) q :=
  (hp.bind_left f).append hf

/-- A sequence whose first part makes one call. -/
theorem Executes.bind_call {p : Program S ε α} {a : α} {f : α → Program S ε β}
    {q : Program S ε β} {o : CallResult S ε} {outcomes : List (CallResult S ε)}
    (hp : p.Executes [o] (ret a)) (hf : (f a).Executes outcomes q) :
    (p.bind f).Executes (o :: outcomes) q :=
  hp.bind hf

/-- A sequence that has returned has returned from its first part before. -/
theorem executes_bind {p : Program S ε α} {f : α → Program S ε β} {b : β}
    {outcomes : List (CallResult S ε)}
    (h : (p.bind f).Executes outcomes (ret b)) :
    ∃ a before after, outcomes = before ++ after ∧ p.Executes before (ret a) ∧
      (f a).Executes after (ret b) := by
  induction p generalizing outcomes with
  | ret a => exact ⟨a, [], outcomes, rfl, .nil _, h⟩
  | raise e =>
      obtain ⟨-, hret⟩ := executes_raise h
      cases hret
  | call op k ih =>
      obtain ⟨x, rest, rfl, hrest⟩ := executes_call h nofun
      obtain ⟨a, before, after, rfl, hp, hf⟩ := ih x hrest
      exact ⟨a, ⟨op, x⟩ :: before, after, rfl, .cons hp, hf⟩

/-- A single call that has returned. -/
theorem executes_perform {op : S.Op} {a : S.Res op}
    {outcomes : List (CallResult S ε)}
    (h : (perform op : Program S ε (S.Res op)).Executes outcomes (ret a)) :
    outcomes = [⟨op, .ok a⟩] := by
  obtain ⟨x, rest, rfl, hrest⟩ := executes_call h nofun
  rcases x with e | v
  · obtain ⟨-, hret⟩ := executes_raise hrest
    cases hret
  · obtain ⟨rfl, hret⟩ := executes_ret hrest
    cases hret
    rfl

/-- A `try` that hands over a value. -/
theorem executes_attempt {p : Program S ε α} {a : α}
    {outcomes : List (CallResult S ε)}
    (h : p.attempt.Executes outcomes (ret (.ok a))) :
    p.Executes outcomes (ret a) := by
  induction p generalizing outcomes with
  | ret a =>
      obtain ⟨rfl, hr⟩ := executes_ret h
      cases hr
      exact .nil _
  | raise e =>
      obtain ⟨-, hr⟩ := executes_ret h
      cases hr
  | call op k ih =>
      obtain ⟨x, rest, rfl, hrest⟩ := executes_call h nofun
      exact .cons (ih x hrest)

/-! ### Recollection -/

/-- The protocol whose phase is everything a program has seen. -/
def recalling (may : List (CallResult S ε) → S.Op → Prop) :
    Protocol S ε (List (CallResult S ε)) where
  may := may
  possible _ _ _ := True
  next seen op x := seen ++ [⟨op, x⟩]

/-- Every call was one that the outcomes before it allow. -/
theorem Follows.recalls {may : List (CallResult S ε) → S.Op → Prop}
    {p p' : Program S ε α} {seen : List (CallResult S ε)}
    {R : Except ε α → List (CallResult S ε) → Prop}
    (hp : p.Follows (recalling may) seen R)
    {before after : List (CallResult S ε)} {o : CallResult S ε}
    (h : p.Executes (before ++ o :: after) p') : may (seen ++ before) o.op := by
  induction before generalizing p seen with
  | nil =>
      cases h with
      | cons h =>
          rw [List.append_nil]
          exact hp.1
  | cons earlier before ih =>
      cases h with
      | @cons op k x _ _ h =>
          have hrest := ih (hp.2 x trivial) h
          rwa [recalling, List.append_assoc] at hrest

end Program

namespace Machine

open Program

variable {M : Machine S ε σ A L α E}

/-- The outcomes of the calls of thread `i`, the first one first. -/
def State.outcomes (s : State S ε σ L α) (i : ℕ) : List (CallResult S ε) :=
  (s.log.filter fun e => e.tid = i).reverse.map fun e => ⟨e.op, e.res⟩

theorem mem_outcomes {s : State S ε σ L α} {i : ℕ} {op : S.Op}
    {x : Except ε (S.Res op)} :
    ⟨op, x⟩ ∈ s.outcomes i ↔ ⟨i, op, x⟩ ∈ s.log := by
  simp only [State.outcomes, List.mem_map, List.mem_reverse, List.mem_filter,
    decide_eq_true_eq]
  constructor
  · rintro ⟨⟨j, op', x'⟩, ⟨hmem, rfl⟩, heq⟩
    cases heq
    exact hmem
  · intro hmem
    exact ⟨_, ⟨hmem, rfl⟩, rfl⟩

theorem outcomes_afterCall (s : State S ε σ L α) (tid : ℕ) (l : L) (op : S.Op)
    (k : Except ε (S.Res op) → Program S ε α) (a : A) (i : ℕ) :
    (M.afterCall s tid l op k a).outcomes i =
      if i = tid then s.outcomes i ++ [⟨op, (M.exec a op s.world).1⟩]
      else s.outcomes i := by
  rw [State.outcomes, afterCall, List.filter_cons]
  by_cases hi : i = tid
  · simp [State.outcomes, hi]
  · have hne : tid ≠ i := Ne.symm hi
    simp [State.outcomes, hi, hne]

/-- A thread that has just been started has made no calls. -/
theorem Reachable.outcomes_new {C : State S ε σ L α → Action A L E → Prop} {w : σ}
    {s : State S ε σ L α} (hs : M.Reachable C w s) :
    s.outcomes s.threads.length = [] := by
  rw [State.outcomes, List.map_eq_nil_iff, List.reverse_eq_nil_iff,
    List.filter_eq_nil_iff]
  intro e he
  have hlt := hs.tid_lt e he
  simpa using Nat.ne_of_lt hlt

/-- The program of a thread is what its own calls have left of its body. -/
theorem Reachable.executes {C : State S ε σ L α → Action A L E → Prop} {w : σ}
    {s : State S ε σ L α} (hs : M.Reachable C w s) :
    ∀ (i : ℕ) (th : Thread S ε L α), s.threads[i]? = some th →
      (M.body th.label).Executes (s.outcomes i) th.prog := by
  refine hs.invariant (I := fun s => ∀ (i : ℕ) (th : Thread S ε L α),
    s.threads[i]? = some th → (M.body th.label).Executes (s.outcomes i) th.prog)
    ?_ ?_
  · intro i th hth
    cases hth
  · intro s s' act hreach ih _ hst i th hth
    rcases step_cases hst with ⟨l, -, -, rfl⟩ |
      ⟨tid, a, l, op, k, -, hget, -, rfl⟩ | ⟨e, -, rfl⟩
    · rw [spawned_threads] at hth
      split_ifs at hth with hi
      · cases hth
        have hnew : (M.spawned s l).outcomes i = [] := by
          rw [hi]
          exact hreach.outcomes_new
        rw [hnew]
        exact .nil _
      · exact ih i th hth
    · rw [afterCall_threads hget] at hth
      rw [outcomes_afterCall]
      split_ifs at hth ⊢ with hi
      · cases hth
        rw [hi]
        exact (ih tid _ hget).snoc _
      · exact ih i th hth
    · exact ih i th hth

/-- What every call ends with holds of all that threads have seen. -/
theorem Reachable.outcomes_of {C : State S ε σ L α → Action A L E → Prop} {w : σ}
    {P : (op : S.Op) → Except ε (S.Res op) → Prop}
    (hexec : ∀ a op w, P op (M.exec a op w).1) {s : State S ε σ L α}
    (hs : M.Reachable C w s) (i : ℕ) : ∀ o ∈ s.outcomes i, P o.op o.res := by
  have hlog : ∀ e ∈ s.log, P e.op e.res := by
    refine hs.invariant (I := fun s => ∀ e ∈ s.log, P e.op e.res) ?_ ?_
    · intro e he
      cases he
    · intro s s' act _ ih _ hst e he
      rcases step_cases hst with ⟨l, -, -, rfl⟩ |
        ⟨tid, a, l, op, k, -, hget, -, rfl⟩ | ⟨e', -, rfl⟩
      · exact ih e he
      · obtain rfl | hold := List.mem_cons.mp he
        · exact hexec a op s.world
        · exact ih e hold
      · exact ih e he
  intro o ho
  obtain ⟨e, he, rfl⟩ := List.mem_map.mp ho
  exact hlog e (List.mem_filter.mp (List.mem_reverse.mp he)).1

end Machine

end Effects
