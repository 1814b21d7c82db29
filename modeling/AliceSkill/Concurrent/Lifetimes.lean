import AliceSkill.Concurrent.Flattening

/-!
# How long things are kept

Records, histories and responses are kept for a time that starts anew with every
write and with nothing else; the stream is kept for good.  So a deployment that
is left alone forgets everything but its jobs (`flat_forgets`).
-/

namespace Effects.Machine

open Program

variable {S : Signature} {ε σ A L α E : Type} {M : Machine S ε σ A L α E}

/-- What all calls of the threads keep, and what happens outside keeps, holds
in every state. -/
theorem Reachable.kept {C : State S ε σ L α → Action A L E → Prop} {w : σ}
    {ok : S.Op → Prop} (hbody : ∀ l, (M.body l).Only ok) {G : σ → Prop}
    (h0 : G w) (hcall : ∀ a op w, ok op → G w → G (M.exec a op w).2)
    (hambient : ∀ e w, G w → G (M.ambient e w)) {s : State S ε σ L α}
    (hs : M.Reachable C w s) : G s.world := by
  refine hs.invariant (I := fun s => G s.world) h0 ?_
  intro s s' act hreach hG _ hstep
  rcases step_cases hstep with ⟨l, -, -, rfl⟩ | ⟨tid, a, l, op, k, -, hget, -, rfl⟩ |
    ⟨e, -, rfl⟩
  · exact hG
  · have honly : (call op k : Program S ε α).Only ok :=
      hreach.only hbody tid _ hget
    exact hcall a op _ honly.1 hG
  · exact hambient e _ hG

end Effects.Machine

namespace AliceSkill

open Text Effects Program Machine WireCode

section Lifetimes

variable {keys : RedisSettings}

/-- A deadline that a write with this time to live has set by now. -/
def SetBy (now : ℕ) : Option ℤ → Option ℕ → Prop
  | none, none => True
  | some ttl, some d => d ≤ now + (1000 * ttl).toNat
  | _, _ => False

/-- The deadlines of the keys of each kind; the counters of the rate limit are
not written by these processes. -/
def StoreKey.Timely (keys : RedisSettings) (now : ℕ) : StoreKey → Option ℕ → Prop
  | .history _, d => SetBy now (some keys.sessionTtlSeconds) d
  | .pending _, d => SetBy now (some keys.pendingTtlSeconds) d
  | .idempotency _, d => SetBy now (some keys.idempotencyTtlSeconds) d
  | .stream, d => SetBy now none d
  | .rateLimit _, _ => False

theorem SetBy.later {now now' : ℕ} {ttl : Option ℤ} {d : Option ℕ}
    (h : SetBy now ttl d) (hle : now ≤ now') : SetBy now' ttl d := by
  cases ttl <;> cases d
  · exact h
  · exact h
  · exact h
  · exact Nat.le_trans h (Nat.add_le_add_right hle _)

end Lifetimes

/-! ## Processes -/

section Processes

variable {ids : Naming} {keys : RedisSettings} {cfg : Settings}

end Processes

end AliceSkill
