import AliceSkill.Effects.Program

/-!
# Programs executed alone

A `Handler` says what a call does to a state, given the environment's answer
to it.  The answers a call may receive are cut down by a relation `permits`
(which calls may fail, which values may come from outside), so that one
program has many executions.

`Outcome` collects these executions and `wp` is the matching weakest
precondition.  The rules below evaluate `wp` along a program; they are the
only way later proofs look inside a program.
-/

namespace Effects

variable {S T : Signature} {ε α β σ A : Type}

/-- What a call does to the state and what it returns, for each answer the
environment may give. -/
abbrev Handler (S : Signature) (ε σ A : Type) :=
  A → (op : S.Op) → σ → Except ε (S.Res op) × σ

namespace Program

/-- Execute a program; `answers n op` answers the `n`-th call if that is
`op`. -/
def run (exec : Handler S ε σ A) :
    Program S ε α → (ℕ → S.Op → A) → σ → Except ε α × σ
  | ret a, _, s => (.ok a, s)
  | raise e, _, s => (.error e, s)
  | call op k, answers, s =>
      let r := exec (answers 0 op) op s
      (k r.1).run exec (fun n => answers (n + 1)) r.2

/-- `p` started in `s` can end with outcome `r` in state `s'`. -/
def Outcome (exec : Handler S ε σ A) (permits : A → S.Op → Prop) :
    Program S ε α → σ → Except ε α → σ → Prop
  | ret a, s, r, s' => r = .ok a ∧ s' = s
  | raise e, s, r, s' => r = .error e ∧ s' = s
  | call op k, s, r, s' => ∃ a, permits a op ∧
      (k (exec a op s).1).Outcome exec permits (exec a op s).2 r s'

/-- Every outcome of `p` started in `s` satisfies `Q`. -/
def wp (exec : Handler S ε σ A) (permits : A → S.Op → Prop) :
    Program S ε α → (Except ε α → σ → Prop) → σ → Prop
  | ret a, Q, s => Q (.ok a) s
  | raise e, Q, s => Q (.error e) s
  | call op k, Q, s => ∀ a, permits a op →
      (k (exec a op s).1).wp exec permits Q (exec a op s).2

variable {exec : Handler S ε σ A} {permits : A → S.Op → Prop}

/-- The first call of a program, by its outcome. -/
theorem run_perform_bind {op : S.Op} {f : S.Res op → Program S ε β}
    {answers : ℕ → S.Op → A} {s : σ} :
    ((perform op).bind f).run exec answers s =
      match (exec (answers 0 op) op s).1 with
      | .ok a => (f a).run exec (fun n => answers (n + 1))
          (exec (answers 0 op) op s).2
      | .error e => (.error e, (exec (answers 0 op) op s).2) := by
  simp only [perform, call_bind, run]
  cases (exec (answers 0 op) op s).1 <;> rfl

theorem wp_iff_outcome {p : Program S ε α} {Q : Except ε α → σ → Prop}
    {s : σ} :
    p.wp exec permits Q s ↔
      ∀ r s', p.Outcome exec permits s r s' → Q r s' := by
  induction p generalizing s with
  | ret a => simp [wp, Outcome]
  | raise e => simp [wp, Outcome]
  | call op k ih =>
      simp only [wp, Outcome, ih]
      constructor
      · rintro h r s' ⟨a, ha, hr⟩
        exact h a ha r s' hr
      · intro h a ha r s' hr
        exact h r s' ⟨a, ha, hr⟩

/-- A scripted execution whose answers are permitted is an outcome. -/
theorem outcome_run {p : Program S ε α} {answers : ℕ → S.Op → A}
    {s : σ} (h : ∀ n op, permits (answers n op) op) :
    p.Outcome exec permits s (p.run exec answers s).1
      (p.run exec answers s).2 := by
  induction p generalizing s answers with
  | ret a => exact ⟨rfl, rfl⟩
  | raise e => exact ⟨rfl, rfl⟩
  | call op k ih =>
      exact ⟨answers 0 op, h 0 op, ih _ fun n op => h (n + 1) op⟩

theorem Outcome.wp {p : Program S ε α} {Q : Except ε α → σ → Prop}
    {s s' : σ} {r : Except ε α} (hr : p.Outcome exec permits s r s')
    (h : p.wp exec permits Q s) : Q r s' :=
  wp_iff_outcome.mp h r s' hr

theorem wp_mono {p : Program S ε α} {Q Q' : Except ε α → σ → Prop} {s : σ}
    (h : p.wp exec permits Q s) (hQ : ∀ r s', Q r s' → Q' r s') :
    p.wp exec permits Q' s :=
  wp_iff_outcome.mpr fun r s' hr => hQ r s' (hr.wp h)

@[simp] theorem wp_ret {a : α} {Q : Except ε α → σ → Prop} {s : σ} :
    (ret a : Program S ε α).wp exec permits Q s ↔ Q (.ok a) s := Iff.rfl

@[simp] theorem wp_raise {e : ε} {Q : Except ε α → σ → Prop} {s : σ} :
    (raise e : Program S ε α).wp exec permits Q s ↔ Q (.error e) s := Iff.rfl

theorem wp_call {op : S.Op} {k : Except ε (S.Res op) → Program S ε α}
    {Q : Except ε α → σ → Prop} {s : σ} :
    (call op k).wp exec permits Q s ↔ ∀ a, permits a op →
      (k (exec a op s).1).wp exec permits Q (exec a op s).2 := Iff.rfl

@[simp] theorem wp_bind {p : Program S ε α} {f : α → Program S ε β}
    {Q : Except ε β → σ → Prop} {s : σ} :
    (p.bind f).wp exec permits Q s ↔
      p.wp exec permits (fun r s' => match r with
        | .ok a => (f a).wp exec permits Q s'
        | .error e => Q (.error e) s') s := by
  induction p generalizing s with
  | ret a => rfl
  | raise e => rfl
  | call op k ih => simp only [call_bind, wp_call, ih]

@[simp] theorem wp_attempt {p : Program S ε α}
    {Q : Except ε (Except ε α) → σ → Prop} {s : σ} :
    p.attempt.wp exec permits Q s ↔
      p.wp exec permits (fun r s' => Q (.ok r) s') s := by
  induction p generalizing s with
  | ret a => rfl
  | raise e => rfl
  | call op k ih => simp only [attempt, wp_call, ih]

@[simp] theorem wp_perform {op : S.Op}
    {Q : Except ε (S.Res op) → σ → Prop} {s : σ} :
    (perform op : Program S ε (S.Res op)).wp exec permits Q s ↔
      ∀ a, permits a op → Q (exec a op s).1 (exec a op s).2 := by
  simp only [perform, wp_call]
  refine forall_congr' fun a => imp_congr_right fun _ => ?_
  cases (exec a op s).1 <;> rfl

end Program

end Effects
