import AliceSkill.Effects.Interleaving

/-!
# Parts of a run

The steps between two states of a run, for properties that compare the two:
what has happened since, how often, and what is still as it was.
-/

namespace Effects.Machine

variable {S : Signature} {ε σ A L α E : Type} {M : Machine S ε σ A L α E}
variable {C : State S ε σ L α → Action A L E → Prop}

/-- `t` is reached from `s` by steps that satisfy `C`. -/
inductive Steps (M : Machine S ε σ A L α E)
    (C : State S ε σ L α → Action A L E → Prop) (s : State S ε σ L α) :
    State S ε σ L α → Prop where
  | refl : Steps M C s s
  | step {t u : State S ε σ L α} {act : Action A L E} :
      Steps M C s t → C t act → M.Step t act u → Steps M C s u

theorem Steps.reachable {w : σ} {s t : State S ε σ L α} (h : M.Steps C s t)
    (hs : M.Reachable C w s) : M.Reachable C w t := by
  induction h with
  | refl => exact hs
  | step _ hc hst ih => exact .step ih hc hst

/-- Nothing is taken back from the log. -/
theorem Steps.mem_log {s t : State S ε σ L α} (h : M.Steps C s t)
    {e : Event S ε} (he : e ∈ s.log) : e ∈ t.log := by
  induction h with
  | refl => exact he
  | step _ _ hst ih =>
      rcases step_cases hst with ⟨l, -, -, rfl⟩ |
        ⟨tid, a, l, op, k, -, -, -, rfl⟩ | ⟨e', -, rfl⟩
      · exact ih
      · exact List.mem_cons_of_mem _ ih
      · exact ih

/-- In state `t`, on the way to `s`, thread `i` makes the call `op` and the
environment answers `a`. -/
def CallsAt (M : Machine S ε σ A L α E)
    (C : State S ε σ L α → Action A L E → Prop) (t : State S ε σ L α) (i : ℕ)
    (op : S.Op) (a : A) (s : State S ε σ L α) : Prop :=
  ∃ l k, t.threads[i]? = some ⟨l, .call op k⟩ ∧ C t (.step i a) ∧
    M.permits a op ∧ M.Steps C (M.afterCall t i l op k a) s

/-- The call is in the log from then on. -/
theorem CallsAt.mem_log {s t : State S ε σ L α} {i : ℕ} {op : S.Op} {a : A}
    (h : M.CallsAt C t i op a s) : ⟨i, op, (M.exec a op t.world).1⟩ ∈ s.log := by
  obtain ⟨l, k, -, -, -, hsteps⟩ := h
  exact hsteps.mem_log List.mem_cons_self

theorem CallsAt.step {s s' t : State S ε σ L α} {i : ℕ} {op : S.Op} {a : A}
    {act : Action A L E} (h : M.CallsAt C t i op a s) (hc : C s act)
    (hst : M.Step s act s') : M.CallsAt C t i op a s' := by
  obtain ⟨l, k, hth, hact, hperm, hsteps⟩ := h
  exact ⟨l, k, hth, hact, hperm, .step hsteps hc hst⟩

/-- Every event of the log is a call made in some state of the run. -/
theorem Reachable.callsAt {w : σ} {s : State S ε σ L α}
    (hs : M.Reachable C w s) : ∀ e ∈ s.log, ∃ t a, M.Reachable C w t ∧
      M.CallsAt C t e.tid e.op a s ∧ e.res = (M.exec a e.op t.world).1 := by
  induction hs with
  | start =>
      intro e he
      cases he
  | @step s s' act hr hc hst ih =>
      intro e he
      have hold : e ∈ s.log → ∃ t a, M.Reachable C w t ∧
          M.CallsAt C t e.tid e.op a s' ∧ e.res = (M.exec a e.op t.world).1 := by
        intro hmem
        obtain ⟨t, a, ht, hcall, hres⟩ := ih e hmem
        exact ⟨t, a, ht, hcall.step hc hst, hres⟩
      rcases step_cases hst with ⟨l, -, -, rfl⟩ |
        ⟨tid, a, l, op, k, rfl, hget, hperm, rfl⟩ | ⟨e', -, rfl⟩
      · exact hold he
      · rcases List.mem_cons.mp he with rfl | hmem
        · exact ⟨s, a, hr, ⟨l, k, hget, hc, hperm, .refl⟩, rfl⟩
        · exact hold hmem
      · exact hold he

/-- An executable schedule makes up a part of a run. -/
theorem steps_runFrom [∀ s act, Decidable (C s act)]
    [∀ s act, Decidable (M.Allows s act)] {acts : List (Action A L E)}
    {s t u : State S ε σ L α} (hs : M.Steps C s t)
    (hrun : M.runFrom C t acts = some u) : M.Steps C s u := by
  induction acts generalizing t with
  | nil =>
      cases hrun
      exact hs
  | cons act acts ih =>
      simp only [runFrom] at hrun
      split at hrun
      · next hallow =>
        obtain ⟨t', hadv, hrest⟩ := Option.bind_eq_some_iff.mp hrun
        exact ih (.step hs hallow.1 ⟨hallow.2, hadv⟩) hrest
      · cases hrun

end Effects.Machine
