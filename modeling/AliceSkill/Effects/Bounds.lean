import AliceSkill.Effects.Protocol
import Mathlib.Algebra.BigOperators.Fin
import Mathlib.Algebra.Order.BigOperators.Group.Finset

/-!
# What a program does at most

`Program.AtMost` bounds the cost of the calls a program makes along any path,
whatever the calls return; `Program.Returns` says that it never raises.  Both
are checked along the text of a program.

`Reachable.spent_le` carries a bound on the programs of all threads over to
whole runs of a machine.
-/

namespace Effects

variable {S T : Signature} {ε α β σ A L E : Type}

namespace Program

/-- Along every path the calls cost at most `n` together. -/
def AtMost (cost : S.Op → ℕ) : Program S ε α → ℕ → Prop
  | ret _, _ => True
  | raise _, _ => True
  | call op k, n => cost op ≤ n ∧ ∀ x, (k x).AtMost cost (n - cost op)

/-- No path ends in an exception. -/
def Returns : Program S ε α → Prop
  | ret _ => True
  | raise _ => False
  | call _ k => ∀ x, (k x).Returns

/-- The exception a program has ended in. -/
def raised : Program S ε α → Option ε
  | raise e => some e
  | _ => none

theorem eq_raise {p : Program S ε α} {e : ε} (h : p.raised = some e) :
    p = raise e := by
  cases p with
  | raise e' =>
      cases h
      rfl
  | ret a => cases h
  | call op k => cases h

section AtMost

variable {cost : S.Op → ℕ} {p : Program S ε α} {f : α → Program S ε β} {n m : ℕ}

theorem AtMost.mono (h : p.AtMost cost n) (hle : n ≤ m) : p.AtMost cost m := by
  induction p generalizing n m with
  | ret a => trivial
  | raise e => trivial
  | call op k ih =>
      exact ⟨Nat.le_trans h.1 hle, fun x => ih x (h.2 x) (Nat.sub_le_sub_right hle _)⟩

theorem AtMost.bind (hp : p.AtMost cost n) (hf : ∀ a, (f a).AtMost cost m) :
    (p.bind f).AtMost cost (n + m) := by
  induction p generalizing n with
  | ret a => exact (hf a).mono (Nat.le_add_left _ _)
  | raise e => trivial
  | call op k ih =>
      refine ⟨Nat.le_trans hp.1 (Nat.le_add_right _ _), fun x => ?_⟩
      rw [Nat.sub_add_comm hp.1]
      exact ih x (hp.2 x)

/-- A handler of exceptions, which is part of the rest. -/
theorem AtMost.attempt (hp : p.AtMost cost n) : p.attempt.AtMost cost n := by
  induction p generalizing n with
  | ret a => trivial
  | raise e => trivial
  | call op k ih => exact ⟨hp.1, fun x => ih x (hp.2 x)⟩

theorem atMost_perform {op : S.Op} (h : cost op ≤ n) :
    (perform op : Program S ε (S.Res op)).AtMost cost n := by
  refine ⟨h, fun x => ?_⟩
  rcases x with e | a <;> trivial

/-- Calls replaced by programs of no greater cost. -/
theorem AtMost.interp {cost' : T.Op → ℕ}
    {impl : (op : S.Op) → Program T ε (S.Res op)} (hp : p.AtMost cost n)
    (himpl : ∀ op, (impl op).AtMost cost' (cost op)) :
    (p.interp impl).AtMost cost' n := by
  induction p generalizing n with
  | ret a => trivial
  | raise e => trivial
  | call op k ih =>
      rw [interp_call, ← Nat.add_sub_of_le hp.1]
      exact AtMost.bind (AtMost.attempt (himpl op)) fun x => ih x (hp.2 x)

end AtMost

section Returns

variable {p : Program S ε α} {f : α → Program S ε β}

theorem Returns.bind (hp : p.Returns) (hf : ∀ a, (f a).Returns) :
    (p.bind f).Returns := by
  induction p with
  | ret a => exact hf a
  | raise e => exact hp.elim
  | call op k ih => exact fun x => ih x (hp x)

theorem returns_attempt (p : Program S ε α) : p.attempt.Returns := by
  induction p with
  | ret a => trivial
  | raise e => trivial
  | call op k ih => exact ih

theorem Returns.interp (hp : p.Returns)
    (impl : (op : S.Op) → Program T ε (S.Res op)) : (p.interp impl).Returns := by
  induction p with
  | ret a => trivial
  | raise e => exact hp.elim
  | call op k ih => exact (returns_attempt (impl op)).bind fun x => ih x (hp x)

end Returns

end Program

namespace Machine

open Program

variable {M : Machine S ε σ A L α E} {cost : S.Op → ℕ}

/-- What the events of a thread have cost. -/
def spent (cost : S.Op → ℕ) (log : List (Event S ε)) (i : ℕ) : ℕ :=
  ((log.filter fun e => e.tid = i).map fun e => cost e.op).sum

theorem spent_cons_self (e : Event S ε) (log : List (Event S ε)) :
    spent cost (e :: log) e.tid = cost e.op + spent cost log e.tid := by
  simp [spent]

theorem spent_cons_ne {e : Event S ε} {log : List (Event S ε)} {i : ℕ}
    (h : e.tid ≠ i) : spent cost (e :: log) i = spent cost log i := by
  simp [spent, h]

/-- What a thread has spent and may still spend is within the bound of its
kind. -/
theorem Reachable.spent_le {C : State S ε σ L α → Action A L E → Prop} {w : σ}
    {bound : L → ℕ} (hbody : ∀ l, (M.body l).AtMost cost (bound l))
    {s : State S ε σ L α} (hs : M.Reachable C w s) :
    ∀ (i : ℕ) (th : Thread S ε L α), s.threads[i]? = some th →
      spent cost s.log i ≤ bound th.label ∧
        th.prog.AtMost cost (bound th.label - spent cost s.log i) := by
  refine hs.invariant (I := fun s => ∀ (i : ℕ) (th : Thread S ε L α),
    s.threads[i]? = some th → spent cost s.log i ≤ bound th.label ∧
      th.prog.AtMost cost (bound th.label - spent cost s.log i))
    (by simp [initial]) ?_
  intro s s' act hr ih _ hst
  rcases step_cases hst with ⟨l, -, -, rfl⟩ | ⟨tid, a, l, op, k, -, hget, -, rfl⟩ |
    ⟨e, -, rfl⟩
  · intro i th hi
    rw [spawned_threads] at hi
    by_cases hil : i = s.threads.length
    · rw [if_pos hil] at hi
      cases hi
      have hzero : spent cost (M.spawned s l).log i = 0 := by
        have hnone : s.log.filter (fun e => e.tid = i) = [] := by
          rw [List.filter_eq_nil_iff]
          intro e he
          have := hr.tid_lt e he
          simp only [decide_eq_true_eq]
          omega
        simp [spent, spawned, hnone]
      rw [hzero]
      exact ⟨Nat.zero_le _, hbody l⟩
    · rw [if_neg hil] at hi
      exact ih i th hi
  · intro i th hi
    rw [afterCall_threads hget] at hi
    by_cases hit : i = tid
    · rw [if_pos hit] at hi
      cases hi
      obtain ⟨hle, hop, hk⟩ := ih tid _ hget
      have hself : spent cost (M.afterCall s tid l op k a).log i =
          cost op + spent cost s.log tid := by
        rw [hit]
        exact spent_cons_self ⟨tid, op, _⟩ s.log
      rw [hself]
      constructor
      · simp only at hle hop ⊢
        omega
      · rw [Nat.add_comm, Nat.sub_add_eq]
        exact hk _
    · rw [if_neg hit] at hi
      have hother : spent cost (M.afterCall s tid l op k a).log i =
          spent cost s.log i := spent_cons_ne (Ne.symm hit)
      rw [hother]
      exact ih i th hi
  · exact ih

theorem spent_cons (e : Event S ε) (log : List (Event S ε)) (i : ℕ) :
    spent cost (e :: log) i =
      (if e.tid = i then cost e.op else 0) + spent cost log i := by
  by_cases h : e.tid = i
  · subst h
    rw [if_pos rfl, spent_cons_self]
  · rw [if_neg h, Nat.zero_add, spent_cons_ne h]

/-- What has been spent, thread by thread. -/
theorem sum_spent {n : ℕ} {log : List (Event S ε)} (h : ∀ e ∈ log, e.tid < n) :
    ∑ i : Fin n, spent cost log i = (log.map fun e => cost e.op).sum := by
  induction log with
  | nil => simp [spent]
  | cons e log ih =>
      have htid : e.tid < n := h e List.mem_cons_self
      have hself : ∑ i : Fin n, (if e.tid = i then cost e.op else 0) = cost e.op := by
        rw [Finset.sum_eq_single ⟨e.tid, htid⟩]
        · rw [if_pos rfl]
        · intro i _ hne
          exact if_neg fun heq => hne (Fin.ext heq.symm)
        · intro hnone
          exact absurd (Finset.mem_univ _) hnone
      simp only [spent_cons, Finset.sum_add_distrib, List.map_cons, List.sum_cons]
      rw [hself, ih fun e' he' => h e' (List.mem_cons_of_mem e he')]

/-- A whole run costs at most what its threads may spend. -/
theorem Reachable.cost_le {C : State S ε σ L α → Action A L E → Prop} {w : σ}
    {bound : L → ℕ} (hbody : ∀ l, (M.body l).AtMost cost (bound l))
    {s : State S ε σ L α} (hs : M.Reachable C w s) :
    (s.log.map fun e => cost e.op).sum ≤
      (s.threads.map fun th => bound th.label).sum := by
  rw [← sum_spent hs.tid_lt, ← Fin.sum_univ_fun_getElem]
  refine Finset.sum_le_sum fun i _ => ?_
  exact (hs.spent_le hbody i _ (List.getElem?_eq_getElem i.isLt)).1

end Machine

end Effects
