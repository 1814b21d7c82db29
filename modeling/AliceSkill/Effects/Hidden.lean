import AliceSkill.Effects.Protocol

/-!
# Calls that leave no trace

Some calls of a program may be hidden: they do not change the state, and what
comes back from them does not matter.  `runHiding` answers hidden and visible
calls from two scripts, so that runs with the same visible answers can be
compared although they make different numbers of hidden calls.

A program hides to another one when dropping its hidden calls gives that
program, whatever the hidden calls would have returned.  A program that hides
to some program at all cannot tell how its hidden calls ended.
-/

namespace Effects

namespace Program

variable {S : Signature} {ε α β σ A : Type}

/-- Execute a program with one script for its visible calls and one for its
hidden calls. -/
def runHiding (hidden : S.Op → Bool) (exec : Handler S ε σ A) :
    Program S ε α → (ℕ → S.Op → A) → (ℕ → S.Op → A) → σ → Except ε α × σ
  | ret a, _, _, s => (.ok a, s)
  | raise e, _, _, s => (.error e, s)
  | call op k, visibly, secretly, s =>
      if hidden op then
        let r := exec (secretly 0 op) op s
        (k r.1).runHiding hidden exec visibly (fun n => secretly (n + 1)) r.2
      else
        let r := exec (visibly 0 op) op s
        (k r.1).runHiding hidden exec (fun n => visibly (n + 1)) secretly r.2

/-- `q` is what is left of `p` when its hidden calls are dropped. -/
inductive Hides (hidden : S.Op → Bool) :
    Program S ε α → Program S ε α → Prop where
  | ret (a : α) : Hides hidden (ret a) (ret a)
  | raise (e : ε) : Hides hidden (raise e) (raise e)
  | visible {op : S.Op} {k k' : Except ε (S.Res op) → Program S ε α}
      (hop : hidden op = false) (hk : ∀ x, Hides hidden (k x) (k' x)) :
      Hides hidden (call op k) (call op k')
  | dropped {op : S.Op} {k : Except ε (S.Res op) → Program S ε α}
      {q : Program S ε α} (hop : hidden op = true)
      (hk : ∀ x, Hides hidden (k x) q) : Hides hidden (call op k) q

/-- The program cannot tell how its hidden calls ended. -/
def Blind (hidden : S.Op → Bool) (p : Program S ε α) : Prop :=
  ∃ q, Hides hidden p q

variable {hidden : S.Op → Bool} {p q : Program S ε α}

theorem Hides.bind {f g : α → Program S ε β} (hp : Hides hidden p q)
    (hf : ∀ a, Hides hidden (f a) (g a)) :
    Hides hidden (p.bind f) (q.bind g) := by
  induction hp with
  | ret a => exact hf a
  | raise e => exact .raise e
  | visible hop hk ih => exact .visible hop ih
  | dropped hop hk ih => exact .dropped hop ih

theorem Hides.attempt (hp : Hides hidden p q) :
    Hides hidden p.attempt q.attempt := by
  induction hp with
  | ret a => exact .ret _
  | raise e => exact .ret _
  | visible hop hk ih => exact .visible hop ih
  | dropped hop hk ih => exact .dropped hop ih

/-- A program without hidden calls is left as it is. -/
theorem Only.hides {ok : S.Op → Prop} (hp : p.Only ok)
    (hok : ∀ op, ok op → hidden op = false) : Hides hidden p p := by
  induction p with
  | ret a => exact .ret a
  | raise e => exact .raise e
  | call op k ih =>
      exact .visible (hok op hp.1) fun x => ih x (hp.2 x)

theorem Only.blind {ok : S.Op → Prop} (hp : p.Only ok)
    (hok : ∀ op, ok op → hidden op = false) : Blind hidden p :=
  ⟨p, hp.hides hok⟩

theorem blind_ret (a : α) : Blind hidden (Program.ret a : Program S ε α) :=
  ⟨_, .ret a⟩

theorem Blind.bind {f : α → Program S ε β} (hp : Blind hidden p)
    (hf : ∀ a, Blind hidden (f a)) : Blind hidden (p.bind f) := by
  obtain ⟨q, hq⟩ := hp
  choose g hg using hf
  exact ⟨q.bind g, hq.bind hg⟩

theorem Blind.attempt (hp : Blind hidden p) : Blind hidden p.attempt := by
  obtain ⟨q, hq⟩ := hp
  exact ⟨q.attempt, hq.attempt⟩

/-- A part with hidden calls only, before a rest that does not look at its
outcome. -/
theorem Only.hides_attempt (hp : p.Only fun op => hidden op = true)
    {f : Except ε α → Program S ε β} {q : Program S ε β}
    (hf : ∀ x, Hides hidden (f x) q) :
    Hides hidden (p.attempt.bind f) q := by
  induction p with
  | ret a => exact hf _
  | raise e => exact hf _
  | call op k ih => exact .dropped hp.1 fun x => ih x (hp.2 x)

/-- A run ends as the run without the hidden calls does. -/
theorem Hides.runHiding {exec : Handler S ε σ A} (h : Hides hidden p q)
    (hstate : ∀ a op s, hidden op = true → (exec a op s).2 = s)
    (visibly secretly : ℕ → S.Op → A) (s : σ) :
    p.runHiding hidden exec visibly secretly s = q.run exec visibly s := by
  induction h generalizing visibly secretly s with
  | ret a => rfl
  | raise e => rfl
  | visible hop hk ih =>
      simp only [Program.runHiding, hop, Bool.false_eq_true, if_false, run]
      exact ih _ _ _ _
  | dropped hop hk ih =>
      simp only [Program.runHiding, hop, if_true]
      rw [ih, hstate _ _ _ hop]

/-- Non-interference: the answers to hidden calls change nothing. -/
theorem Blind.runHiding_eq {exec : Handler S ε σ A} (h : Blind hidden p)
    (hstate : ∀ a op s, hidden op = true → (exec a op s).2 = s)
    (visibly secretly secretly' : ℕ → S.Op → A) (s : σ) :
    p.runHiding hidden exec visibly secretly s =
      p.runHiding hidden exec visibly secretly' s := by
  obtain ⟨q, hq⟩ := h
  rw [hq.runHiding hstate, hq.runHiding hstate]

end Program

end Effects
