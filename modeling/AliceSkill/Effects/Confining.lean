import AliceSkill.Effects.Protocol
import AliceSkill.Effects.Segments

/-!
# What threads pass on

A thread is confined if it passes on nothing but what it may, as long as its
calls give it nothing but what it may get.  When the state that the threads
share gives out only what was put in, confined threads keep each other confined
(`Reachable.confined`).

What a thread may pass on can depend on what has happened in the whole run:
`Reachable.earlier` says that a run only goes through states of which its last
state knows everything.
-/

namespace Effects

variable {S T : Signature} {ε α β σ A L E : Type}

/-- One phase, in which the calls `may` can be made and return what `gets`
allows. -/
def confining (may : S.Op → Prop) (gets : (op : S.Op) → S.Res op → Prop) :
    Protocol S ε Unit where
  may _ := may
  possible _ op x := ∀ a, x = .ok a → gets op a
  next _ _ _ := ()

namespace Program

variable {may : S.Op → Prop} {gets : (op : S.Op) → S.Res op → Prop}
variable {P : α → Prop} {Q : β → Prop}

/-- The program makes only calls it may make, and what it returns is in `P`. -/
def Confined (may : S.Op → Prop) (gets : (op : S.Op) → S.Res op → Prop)
    (p : Program S ε α) (P : α → Prop) : Prop :=
  p.Follows (confining may gets) () fun x _ => ∀ a, x = .ok a → P a

theorem Confined.mono {P' : α → Prop} {p : Program S ε α}
    (hp : p.Confined may gets P) (h : ∀ a, P a → P' a) :
    p.Confined may gets P' :=
  Follows.mono hp fun _ _ hx a ha => h a (hx a ha)

theorem Confined.bind {p : Program S ε α} {f : α → Program S ε β}
    (hp : p.Confined may gets P)
    (hf : ∀ a, P a → (f a).Confined may gets Q) :
    (p.bind f).Confined may gets Q := by
  rw [Confined, follows_bind]
  apply Follows.mono hp
  intro x _ hx
  cases x with
  | ok a => exact hf a (hx a rfl)
  | error e =>
      intro b hb
      cases hb

/-- A part whose failure is handled, before the rest. -/
theorem Confined.attempt_bind {p : Program S ε α}
    {f : Except ε α → Program S ε β} (hp : p.Confined may gets P)
    (hf : ∀ x, (∀ a, x = .ok a → P a) → (f x).Confined may gets Q) :
    (p.attempt.bind f).Confined may gets Q := by
  rw [Confined, follows_bind, follows_attempt]
  exact Follows.mono hp fun x _ hx => hf x hx

theorem Confined.interp {may' : T.Op → Prop}
    {gets' : (op : T.Op) → T.Res op → Prop}
    {impl : (op : S.Op) → Program T ε (S.Res op)} {p : Program S ε α}
    (himpl : ∀ op, may op → (impl op).Confined may' gets' (gets op))
    (hp : p.Confined may gets P) : (p.interp impl).Confined may' gets' P := by
  have hcalls : ∀ (q q' : Unit) (op : S.Op), True → may op →
      (impl op).Follows (confining may' gets') q' fun x _ =>
        (∀ a, x = .ok a → gets op a) ∧ True :=
    fun _ _ op _ hop => Follows.mono (himpl op hop) fun _ _ hx => ⟨hx, trivial⟩
  apply Follows.mono (Follows.interp hcalls hp trivial)
  rintro x - ⟨-, hx, -⟩
  exact hx

end Program

namespace Machine

open Program

variable {M : Machine S ε σ A L α E} {w : σ} {s t u : State S ε σ L α}
variable {C : State S ε σ L α → Action A L E → Prop}

/-- What has been logged and started in `t` is known in `s`. -/
structure Earlier (t s : State S ε σ L α) : Prop where
  logged : ∀ e ∈ t.log, e ∈ s.log
  labels : ∀ (i : ℕ) (l : L), t.threads[i]?.map Thread.label = some l →
    s.threads[i]?.map Thread.label = some l

theorem Earlier.refl (s : State S ε σ L α) : Earlier s s :=
  ⟨fun _ h => h, fun _ _ h => h⟩

theorem Earlier.trans (h : Earlier t u) (h' : Earlier u s) : Earlier t s :=
  ⟨fun e he => h'.logged e (h.logged e he),
    fun i l hl => h'.labels i l (h.labels i l hl)⟩

theorem earlier_of_step {act : Action A L E} (hst : M.Step t act s) :
    Earlier t s := by
  rcases step_cases hst with ⟨l, -, -, rfl⟩ |
    ⟨tid, a, l, op, k, -, hget, -, rfl⟩ | ⟨e, -, rfl⟩
  · exact ⟨fun _ h => h, fun _ _ h => spawned_label h⟩
  · refine ⟨fun _ h => List.mem_cons_of_mem _ h, fun i l' h => ?_⟩
    rw [afterCall_label hget]
    exact h
  · exact ⟨fun _ h => h, fun _ _ h => h⟩

theorem step_unique {act : Action A L E} (hst : M.Step t act s)
    (hst' : M.Step t act u) : s = u :=
  Option.some.inj (hst.2.symm.trans hst'.2)

/-- A run leads through earlier states only. -/
theorem Reachable.earlier (hs : M.Reachable C w s) :
    M.Reachable (fun t act => C t act ∧ ∀ t', M.Step t act t' → Earlier t' s)
      w s := by
  induction hs with
  | start => exact .start
  | @step t s act _ hC hst ih =>
      have hbefore : M.Reachable (fun t' act => C t' act ∧
          ∀ t'', M.Step t' act t'' → Earlier t'' s) w t :=
        ih.mono fun _ _ h =>
          ⟨h.1, fun t'' hst' => (h.2 t'' hst').trans (earlier_of_step hst)⟩
      refine .step hbefore ⟨hC, fun t' hst' => ?_⟩ hst
      rw [step_unique hst' hst]
      exact .refl s

end Machine

end Effects
