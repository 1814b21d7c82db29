import AliceSkill.Effects.Sequential
import Mathlib.Data.List.Basic
import Mathlib.Logic.Function.Basic

/-!
# Interleaved programs

Any number of programs run against one shared state.  At each step the
scheduler either starts a new thread, lets one thread make its next call, or
lets something happen to the state that no thread asked for.  Calls are
atomic; everything between two calls of one thread can be interrupted.

Every call made is recorded with the thread that made it and the outcome it
saw, the most recent call first.  Properties of a whole run are stated over
this log.

A run may be required to take only steps that satisfy a condition on the
state before the step; `Reachable` carries that condition.
-/

namespace Effects

/-- Where a value of an updated family comes from. -/
theorem update_cases {ι Q : Type} [DecidableEq ι] {f : ι → Q} {i j : ι} {q r : Q}
    (h : Function.update f j q i = r) : i = j ∧ q = r ∨ i ≠ j ∧ f i = r := by
  by_cases hij : i = j
  · rw [hij, Function.update_self] at h
    exact Or.inl ⟨hij, h⟩
  · rw [Function.update_of_ne hij] at h
    exact Or.inr ⟨hij, h⟩

/-- A value other than the new one has been there before. -/
theorem of_update {ι Q : Type} [DecidableEq ι] {f : ι → Q} {i j : ι} {q r : Q}
    (h : Function.update f j q i = r) (hne : q ≠ r) : i ≠ j ∧ f i = r :=
  (update_cases h).resolve_left fun hnew => hne hnew.2

/-- Threads of kind `L` over the signature `S`. -/
structure Machine (S : Signature) (ε σ A L α E : Type) where
  exec : Handler S ε σ A
  /-- The answers the environment may give to a call. -/
  permits : A → S.Op → Prop
  /-- The program a thread of this kind runs. -/
  body : L → Program S ε α
  /-- When a thread of this kind may be started. -/
  admits : σ → L → Prop
  /-- What happens to the state outside any thread. -/
  ambient : E → σ → σ

namespace Machine

variable {S : Signature} {ε σ A L α E : Type}

/-- A thread: what it was started as and what it still has to do. -/
structure Thread (S : Signature) (ε L α : Type) where
  label : L
  prog : Program S ε α

/-- The call a thread makes next. -/
def Thread.next : Thread S ε L α → Option S.Op
  | ⟨_, .call op _⟩ => some op
  | _ => none

/-- One call made by a thread, with the outcome it saw. -/
structure Event (S : Signature) (ε : Type) where
  tid : ℕ
  op : S.Op
  res : Except ε (S.Res op)

instance [DecidableEq S.Op] [∀ op, DecidableEq (Except ε (S.Res op))] :
    DecidableEq (Event S ε)
  | ⟨i, op, x⟩, ⟨i', op', x'⟩ =>
      if hi : i = i' then
        if hop : op = op' then by
          subst hop
          exact decidable_of_iff (x = x') (by simp [hi])
        else .isFalse (by simp [hop])
      else .isFalse (by simp [hi])

/-- A state of the machine; the log has the most recent event first. -/
structure State (S : Signature) (ε σ L α : Type) where
  world : σ
  threads : List (Thread S ε L α)
  log : List (Event S ε)

/-- The call thread `i` makes next. -/
def State.next (s : State S ε σ L α) (i : ℕ) : Option S.Op :=
  s.threads[i]?.bind Thread.next

theorem State.next_eq_some {s : State S ε σ L α} {i : ℕ} {op : S.Op} :
    s.next i = some op ↔ ∃ l k, s.threads[i]? = some ⟨l, .call op k⟩ := by
  rw [State.next, Option.bind_eq_some_iff]
  constructor
  · rintro ⟨⟨l, p⟩, hth, hop⟩
    rcases p with a | e | ⟨op', k⟩
    · cases hop
    · cases hop
    · cases hop
      exact ⟨l, k, hth⟩
  · rintro ⟨l, k, hth⟩
    exact ⟨_, hth, rfl⟩

/-- What the scheduler does next. -/
inductive Action (A L E : Type) where
  | spawn (l : L)
  | step (tid : ℕ) (a : A)
  | ambient (e : E)

variable (M : Machine S ε σ A L α E)

/-- The state after thread `tid` made the call `op` and goes on with `k`. -/
def afterCall (s : State S ε σ L α) (tid : ℕ) (l : L) (op : S.Op)
    (k : Except ε (S.Res op) → Program S ε α) (a : A) : State S ε σ L α where
  world := (M.exec a op s.world).2
  threads := s.threads.set tid ⟨l, k (M.exec a op s.world).1⟩
  log := ⟨tid, op, (M.exec a op s.world).1⟩ :: s.log

/-- The state after a thread of kind `l` has been started. -/
def spawned (s : State S ε σ L α) (l : L) : State S ε σ L α :=
  { s with threads := s.threads ++ [⟨l, M.body l⟩] }

/-- Execute one action; `none` when the chosen thread has no call to make. -/
def advance (s : State S ε σ L α) : Action A L E → Option (State S ε σ L α)
  | .spawn l => some (M.spawned s l)
  | .step tid a =>
      match s.threads[tid]? with
      | some ⟨l, .call op k⟩ => some (M.afterCall s tid l op k a)
      | _ => none
  | .ambient e => some { s with world := M.ambient e s.world }

/-- The chosen thread is about to make a call, and `a` may answer it. -/
def AnswersNext (a : A) : Option (Thread S ε L α) → Prop
  | some ⟨_, .call op _⟩ => M.permits a op
  | _ => False

instance [∀ a op, Decidable (M.permits a op)] (a : A) :
    (th : Option (Thread S ε L α)) → Decidable (M.AnswersNext a th)
  | some ⟨_, .call op _⟩ => inferInstanceAs (Decidable (M.permits a op))
  | some ⟨_, .ret _⟩ => .isFalse id
  | some ⟨_, .raise _⟩ => .isFalse id
  | none => .isFalse id

/-- The actions the environment allows in a state. -/
def Allows (s : State S ε σ L α) : Action A L E → Prop
  | .spawn l => M.admits s.world l
  | .step tid a => M.AnswersNext a s.threads[tid]?
  | .ambient _ => True

instance [∀ w l, Decidable (M.admits w l)] [∀ a op, Decidable (M.permits a op)]
    (s : State S ε σ L α) : (act : Action A L E) → Decidable (M.Allows s act)
  | .spawn l => inferInstanceAs (Decidable (M.admits s.world l))
  | .step tid a => inferInstanceAs (Decidable (M.AnswersNext a s.threads[tid]?))
  | .ambient _ => .isTrue trivial

/-- One allowed step. -/
def Step (s : State S ε σ L α) (act : Action A L E) (s' : State S ε σ L α) :
    Prop :=
  M.Allows s act ∧ M.advance s act = some s'

/-- The state before anything has been started. -/
def initial (w : σ) : State S ε σ L α := ⟨w, [], []⟩

/-- States reached from `w` by a run whose every step satisfies `C` in the
state before it. -/
inductive Reachable (C : State S ε σ L α → Action A L E → Prop) (w : σ) :
    State S ε σ L α → Prop where
  | start : Reachable C w (initial w)
  | step {s s' : State S ε σ L α} {act : Action A L E} :
      Reachable C w s → C s act → M.Step s act s' → Reachable C w s'

/-- The condition that every step satisfies. -/
def Any (_ : State S ε σ L α) (_ : Action A L E) : Prop := True

instance (s : State S ε σ L α) (act : Action A L E) : Decidable (Any s act) :=
  .isTrue trivial

/-- Execute a whole schedule; `none` when one of its actions is not allowed or
does not satisfy the condition. -/
def runFrom (C : State S ε σ L α → Action A L E → Prop)
    [∀ s act, Decidable (C s act)] [∀ s act, Decidable (M.Allows s act)]
    (s : State S ε σ L α) : List (Action A L E) → Option (State S ε σ L α)
  | [] => some s
  | act :: acts =>
      if C s act ∧ M.Allows s act then
        (M.advance s act).bind fun s' => runFrom C s' acts
      else none

variable {M}

/-- Everything one step can do. -/
theorem step_cases {s s' : State S ε σ L α} {act : Action A L E}
    (h : M.Step s act s') :
    (∃ l, act = .spawn l ∧ M.admits s.world l ∧ s' = M.spawned s l) ∨
    (∃ tid a l op k, act = .step tid a ∧
      s.threads[tid]? = some ⟨l, .call op k⟩ ∧ M.permits a op ∧
      s' = M.afterCall s tid l op k a) ∨
    (∃ e, act = .ambient e ∧ s' = { s with world := M.ambient e s.world }) := by
  obtain ⟨hallow, hadv⟩ := h
  cases act with
  | spawn l =>
      exact Or.inl ⟨l, rfl, hallow, (Option.some.inj hadv).symm⟩
  | ambient e =>
      exact Or.inr (Or.inr ⟨e, rfl, (Option.some.inj hadv).symm⟩)
  | step tid a =>
      refine Or.inr (Or.inl ?_)
      simp only [advance] at hadv
      split at hadv
      · next l op k hget =>
        simp only [Allows, AnswersNext, hget] at hallow
        exact ⟨tid, a, l, op, k, rfl, hget, hallow,
          (Option.some.inj hadv).symm⟩
      · cases hadv

theorem spawned_threads (s : State S ε σ L α) (l : L) (i : ℕ) :
    (M.spawned s l).threads[i]? =
      if i = s.threads.length then some ⟨l, M.body l⟩ else s.threads[i]? := by
  rw [spawned, List.getElem?_append]
  by_cases hlt : i < s.threads.length
  · rw [if_pos hlt, if_neg (by omega)]
  · rw [if_neg hlt]
    by_cases heq : i = s.threads.length
    · subst heq
      simp
    · have hnone : s.threads[i]? = none := List.getElem?_eq_none (by omega)
      have hpast : [(⟨l, M.body l⟩ : Thread S ε L α)].length ≤
          i - s.threads.length := by
        rw [List.length_singleton]
        omega
      rw [if_neg heq, hnone, List.getElem?_eq_none hpast]

theorem afterCall_threads {s : State S ε σ L α} {tid : ℕ} {l : L} {op : S.Op}
    {k : Except ε (S.Res op) → Program S ε α}
    (hget : s.threads[tid]? = some ⟨l, .call op k⟩) (a : A) (i : ℕ) :
    (M.afterCall s tid l op k a).threads[i]? =
      if i = tid then some ⟨l, k (M.exec a op s.world).1⟩
      else s.threads[i]? := by
  have hlt := (List.getElem?_eq_some_iff.mp hget).1
  rw [afterCall]
  by_cases hit : i = tid
  · subst hit
    rw [if_pos rfl, List.getElem?_set_self hlt]
  · rw [if_neg hit, List.getElem?_set_ne (Ne.symm hit)]

/-- A call does not change what its thread was started as. -/
theorem afterCall_label {s : State S ε σ L α} {tid : ℕ} {l : L} {op : S.Op}
    {k : Except ε (S.Res op) → Program S ε α}
    (hget : s.threads[tid]? = some ⟨l, .call op k⟩) (a : A) (i : ℕ) :
    (M.afterCall s tid l op k a).threads[i]?.map Thread.label =
      s.threads[i]?.map Thread.label := by
  rw [afterCall_threads hget]
  by_cases hit : i = tid
  · rw [if_pos hit, hit, hget]
    rfl
  · rw [if_neg hit]

/-- Neither does the start of another thread. -/
theorem spawned_label {s : State S ε σ L α} {l l' : L} {i : ℕ}
    (h : s.threads[i]?.map Thread.label = some l') :
    (M.spawned s l).threads[i]?.map Thread.label = some l' := by
  have hne : i ≠ s.threads.length := by
    intro hi
    rw [hi, List.getElem?_eq_none (Nat.le_refl _)] at h
    cases h
  rw [spawned_threads, if_neg hne]
  exact h

/-- A property that holds at the start and survives every step holds in every
reachable state. -/
theorem Reachable.invariant
    {C : State S ε σ L α → Action A L E → Prop} {w : σ}
    {I : State S ε σ L α → Prop} (h0 : I (initial w))
    (hstep : ∀ s s' act, M.Reachable C w s → I s → C s act →
      M.Step s act s' → I s')
    {s : State S ε σ L α} (hs : M.Reachable C w s) : I s := by
  induction hs with
  | start => exact h0
  | step hr hc hst ih => exact hstep _ _ _ hr ih hc hst

theorem Reachable.mono
    {C C' : State S ε σ L α → Action A L E → Prop} {w : σ}
    (hC : ∀ s act, C s act → C' s act)
    {s : State S ε σ L α} (hs : M.Reachable C w s) : M.Reachable C' w s := by
  induction hs with
  | start => exact .start
  | step _ hc hst ih => exact .step ih (hC _ _ hc) hst

/-- An executable schedule reaches its final state. -/
theorem reachable_runFrom {C : State S ε σ L α → Action A L E → Prop}
    [∀ s act, Decidable (C s act)] [∀ s act, Decidable (M.Allows s act)] {w : σ}
    {acts : List (Action A L E)} {s s' : State S ε σ L α}
    (hs : M.Reachable C w s) (hrun : M.runFrom C s acts = some s') :
    M.Reachable C w s' := by
  induction acts generalizing s with
  | nil =>
      cases hrun
      exact hs
  | cons act acts ih =>
      simp only [runFrom] at hrun
      split at hrun
      · next hallow =>
        obtain ⟨t, hadv, hrest⟩ := Option.bind_eq_some_iff.mp hrun
        exact ih (.step hs hallow.1 ⟨hallow.2, hadv⟩) hrest
      · cases hrun

/-- A schedule of one action is one step. -/
theorem step_of_runFrom {C : State S ε σ L α → Action A L E → Prop}
    [∀ s act, Decidable (C s act)] [∀ s act, Decidable (M.Allows s act)]
    {act : Action A L E} {s s' : State S ε σ L α}
    (hrun : M.runFrom C s [act] = some s') : M.Step s act s' := by
  simp only [runFrom] at hrun
  split at hrun
  · next hallow =>
    obtain ⟨t, hadv, ht⟩ := Option.bind_eq_some_iff.mp hrun
    cases ht
    exact ⟨hallow.2, hadv⟩
  · cases hrun

end Machine

end Effects
