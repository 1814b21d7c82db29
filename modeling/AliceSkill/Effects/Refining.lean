import AliceSkill.Effects.Protocol
import Mathlib.Data.List.Forall2

/-!
# Calls that are carried out by finer calls

Two machines run the same threads, the second one over a finer signature: each
call of the first is a program of the second.  Such a program may make calls on
the side, which change nothing that the first machine sees, and then makes the
one call that has the effect.

`Refines.simulates` lifts this from calls to runs: whatever the second machine
reaches is a state of the first one, seen through a relation on the states.
-/

namespace Effects

variable {S T : Signature} {ε α β σ σ' A A' L E E' : Type}

/-- The program that has come to an end. -/
def Program.ofExcept : Except ε β → Program T ε β
  | .ok b => ret b
  | .error e => raise e

/-- `c` is one of the calls a program may make. -/
def Program.Makes (c : T.Op) : Program T ε β → Prop
  | ret _ => False
  | raise _ => False
  | call c' k => c' = c ∨ ∃ x, (k x).Makes c

namespace Machine

open Program

section Relation

variable (M : Machine S ε σ A L α E) (M' : Machine T ε σ' A' L α E')
variable (R : σ → σ' → Prop) (shows : S.Op → T.Op → Prop)

/-- A program that carries out the call `op`; `shows` says which calls can have
the effect of which. -/
inductive Carries (op : S.Op) : Program T ε (S.Res op) → Prop where
  | aside (c : T.Op) (k : Except ε (T.Res c) → Program T ε (S.Res op))
      (world : ∀ a w w', M'.permits a c → R w w' → R w (M'.exec a c w').2)
      (rest : ∀ a w', M'.permits a c → Carries op (k (M'.exec a c w').1)) :
      Carries op (.call c k)
  | act (c : T.Op) (k : Except ε (T.Res c) → Program T ε (S.Res op))
      (shown : shows op c)
      (carry : ∀ a w w', M'.permits a c → R w w' →
        ∃ a', M.permits a' op ∧
          k (M'.exec a c w').1 = ofExcept (M.exec a' op w).1 ∧
          R (M.exec a' op w).2 (M'.exec a c w').2) :
      Carries op (.call c k)

/-- `M'` runs the threads of `M`, whose calls satisfy `ok`, over its own
calls. -/
structure Refines (impl : (op : S.Op) → Program T ε (S.Res op))
    (ok : S.Op → Prop) : Prop where
  body : ∀ l, M'.body l = (M.body l).interp impl
  only : ∀ l, (M.body l).Only ok
  carries : ∀ op, ok op → Carries M M' R shows op (impl op)
  admits : ∀ w w' l, R w w' → M'.admits w' l → M.admits w l
  ambient : ∀ e w w', R w w' →
    ∃ es : List E, R (es.foldl (fun w e => M.ambient e w) w) (M'.ambient e w')

/-- A program against the finer one that runs in its place: between two calls,
or in the middle of one. -/
def Renders (impl : (op : S.Op) → Program T ε (S.Res op)) (ok : S.Op → Prop)
    (p : Program S ε α) (p' : Program T ε α) : Prop :=
  p.Only ok ∧ (p' = p.interp impl ∨
    ∃ op k q, p = .call op k ∧
      p' = q.attempt.bind (fun x => (k x).interp impl) ∧
      Carries M M' R shows op q)

/-- A state against the finer one that stands for it. -/
structure Rendered (impl : (op : S.Op) → Program T ε (S.Res op))
    (ok : S.Op → Prop) (s : State S ε σ L α) (t : State T ε σ' L α) : Prop where
  world : R s.world t.world
  length : s.threads.length = t.threads.length
  threads : ∀ i : ℕ, Option.Rel (fun th th' => th.label = th'.label ∧
    Renders M M' R shows impl ok th.prog th'.prog) s.threads[i]? t.threads[i]?
  log : List.SublistForall₂
    (fun e e' : Event _ _ => e.tid = e'.tid ∧ shows e.op e'.op) s.log t.log

end Relation

variable {M : Machine S ε σ A L α E} {M' : Machine T ε σ' A' L α E'}
variable {R : σ → σ' → Prop} {shows : S.Op → T.Op → Prop}
variable {impl : (op : S.Op) → Program T ε (S.Res op)} {ok : S.Op → Prop}

/-- A program that is about to make a finer call is carrying one out. -/
theorem Renders.carrying (h : Refines M M' R shows impl ok)
    {p : Program S ε α} {c : T.Op} {k' : Except ε (T.Res c) → Program T ε α}
    (hp : Renders M M' R shows impl ok p (.call c k')) :
    ∃ op k q, p = .call op k ∧
      .call c k' = q.attempt.bind (fun x => (k x).interp impl) ∧
      Carries M M' R shows op q := by
  obtain ⟨honly, hprog | hmiddle⟩ := hp
  · cases p with
    | ret a => cases hprog
    | raise e => cases hprog
    | call op k => exact ⟨op, k, impl op, rfl, hprog, h.carries op honly.1⟩
  · exact hmiddle

/-- A program that has come to an end stands for one that has done so. -/
theorem Renders.eq_ofExcept (h : Refines M M' R shows impl ok)
    {p : Program S ε α} {r : Except ε α}
    (hp : Renders M M' R shows impl ok p (ofExcept r)) : p = ofExcept r := by
  have hcall : ∀ (op : S.Op) (k : Except ε (S.Res op) → Program S ε α)
      (q : Program T ε (S.Res op)), Carries M M' R shows op q →
      ofExcept r ≠ q.attempt.bind (fun x => (k x).interp impl) := by
    intro op k q hq heq
    cases hq <;> cases r <;> cases heq
  obtain ⟨honly, hprog | ⟨op, k, q, -, hprog, hq⟩⟩ := hp
  · cases p with
    | ret a => cases r <;> cases hprog; rfl
    | raise e => cases r <;> cases hprog; rfl
    | call op k =>
        exact absurd hprog (hcall op k (impl op) (h.carries op honly.1))
  · exact absurd hprog (hcall op k q hq)

/-- What happens outside the threads takes some steps of the first machine. -/
theorem Reachable.ambients {w : σ} {s : State S ε σ L α}
    (hs : M.Reachable Any w s) (es : List E) :
    M.Reachable Any w
      { s with world := es.foldl (fun w e => M.ambient e w) s.world } := by
  induction es generalizing s with
  | nil => exact hs
  | cons e es ih =>
      have hstep : M.Step s (.ambient e)
          { s with world := M.ambient e s.world } := ⟨trivial, rfl⟩
      exact ih (hs.step trivial hstep)

namespace Rendered

variable {s : State S ε σ L α} {t : State T ε σ' L α}

/-- The thread of the first machine that a thread of the second one runs. -/
theorem thread (h : Rendered M M' R shows impl ok s t) {i : ℕ}
    {l : L} {p' : Program T ε α} (hth : t.threads[i]? = some ⟨l, p'⟩) :
    ∃ p, s.threads[i]? = some ⟨l, p⟩ ∧ Renders M M' R shows impl ok p p' := by
  have hrel := h.threads i
  rw [hth] at hrel
  cases hs : s.threads[i]? with
  | none =>
      rw [hs] at hrel
      cases hrel
  | some th =>
      rw [hs] at hrel
      cases hrel with
      | some hboth =>
          obtain ⟨hlabel, hprog⟩ := hboth
          obtain ⟨l', p⟩ := th
          cases hlabel
          exact ⟨p, rfl, hprog⟩

/-- A thread is started in both machines. -/
theorem spawned (hM : Refines M M' R shows impl ok)
    (h : Rendered M M' R shows impl ok s t) (l : L) :
    Rendered M M' R shows impl ok (M.spawned s l) (M'.spawned t l) where
  world := h.world
  length := by
    simp only [Machine.spawned, List.length_append, List.length_singleton,
      h.length]
  threads i := by
    rw [spawned_threads, spawned_threads, h.length]
    split_ifs
    · exact .some ⟨rfl, hM.only l, Or.inl (hM.body l)⟩
    · exact h.threads i
  log := h.log

/-- A thread goes on in both machines. -/
theorem continued {s' : State S ε σ L α} {t' : State T ε σ' L α}
    (h : Rendered M M' R shows impl ok s t) {tid : ℕ} {l : L}
    {p : Program S ε α} {p' : Program T ε α}
    (hworld : R s'.world t'.world)
    (hlength : s'.threads.length = s.threads.length)
    (hlength' : t'.threads.length = t.threads.length)
    (hs : ∀ i : ℕ, s'.threads[i]? =
      if i = tid then some ⟨l, p⟩ else s.threads[i]?)
    (ht : ∀ i : ℕ, t'.threads[i]? =
      if i = tid then some ⟨l, p'⟩ else t.threads[i]?)
    (hp : Renders M M' R shows impl ok p p')
    (hlog : List.SublistForall₂
      (fun e e' : Event _ _ => e.tid = e'.tid ∧ shows e.op e'.op) s'.log t'.log) :
    Rendered M M' R shows impl ok s' t' where
  world := hworld
  length := by rw [hlength, hlength', h.length]
  threads i := by
    rw [hs, ht]
    split_ifs
    · exact .some ⟨rfl, hp⟩
    · exact h.threads i
  log := hlog

end Rendered

/-- What the second machine reaches stands for a state of the first one. -/
theorem Refines.simulates (hM : Refines M M' R shows impl ok) {w : σ} {w' : σ'}
    (hw : R w w') {t : State T ε σ' L α} (ht : M'.Reachable Any w' t) :
    ∃ s, M.Reachable Any w s ∧ Rendered M M' R shows impl ok s t := by
  induction ht with
  | start =>
      exact ⟨initial w, .start, hw, rfl, fun i => .none, .nil⟩
  | @step t t' act _ _ hst ih =>
      obtain ⟨s, hs, h⟩ := ih
      rcases step_cases hst with ⟨l, rfl, hadm, rfl⟩ |
        ⟨tid, a, l, c, k', rfl, hget, hperm, rfl⟩ | ⟨e, rfl, rfl⟩
      · have hstep : M.Step s (.spawn l) (M.spawned s l) :=
          ⟨hM.admits _ _ l h.world hadm, rfl⟩
        exact ⟨M.spawned s l, hs.step trivial hstep, h.spawned hM l⟩
      · obtain ⟨p, hth, hp⟩ := h.thread hget
        have honly := hp.1
        obtain ⟨op, k, q, rfl, hprog, hq⟩ := hp.carrying hM
        have hlength' : (M'.afterCall t tid l c k' a).threads.length =
            t.threads.length := by
          rw [afterCall, List.length_set]
        have hthreads' := afterCall_threads (M := M') hget a
        cases hq with
        | aside c' kq hworld hrest =>
            cases hprog
            refine ⟨s, hs, h.continued (hworld a _ _ hperm h.world) rfl hlength'
              (fun i => ?_) hthreads' ⟨honly, Or.inr ⟨op, k, _, rfl, rfl,
                hrest a _ hperm⟩⟩ (.cons_right h.log)⟩
            split_ifs with hi
            · rw [hi, hth]
            · rfl
        | act c' kq hshown hcarry =>
            cases hprog
            obtain ⟨a', hperm', hres, hworld⟩ := hcarry a _ _ hperm h.world
            have hstep : M.Step s (.step tid a') (M.afterCall s tid l op k a') := by
              constructor
              · simp only [Allows, AnswersNext, hth]
                exact hperm'
              · simp only [advance, hth]
            have hlength : (M.afterCall s tid l op k a').threads.length =
                s.threads.length := by
              rw [afterCall, List.length_set]
            refine ⟨_, hs.step trivial hstep, h.continued hworld hlength hlength'
              (afterCall_threads hth a') hthreads' ⟨honly.2 _, Or.inl ?_⟩
              (.cons ⟨rfl, hshown⟩ h.log)⟩
            beta_reduce
            rw [hres]
            cases (M.exec a' op s.world).1 <;> rfl
      · obtain ⟨es, hes⟩ := hM.ambient e _ _ h.world
        exact ⟨_, hs.ambients es, hes, h.length, h.threads, h.log⟩

/-- A thread that ends in the second machine ends in the same way in the first. -/
theorem Rendered.ended (hM : Refines M M' R shows impl ok)
    {s : State S ε σ L α} {t : State T ε σ' L α}
    (h : Rendered M M' R shows impl ok s t) {i : ℕ} {l : L} {r : Except ε α}
    (hth : t.threads[i]? = some ⟨l, ofExcept r⟩) :
    s.threads[i]? = some ⟨l, ofExcept r⟩ := by
  obtain ⟨p, hs, hp⟩ := h.thread hth
  rw [hs, hp.eq_ofExcept hM]

end Machine

end Effects
