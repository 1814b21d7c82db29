import AliceSkill.Effects.Protocol

/-!
# Programs on a state that changes by itself

A program is executed alone, but before every call the state may change in
known ways, any number of times.  An assertion that these changes keep is
`Stable`; a program that keeps to a protocol establishes the assertions of its
phases when every call does so from a stable one.
-/

namespace Effects

variable {S T : Signature} {ε α σ A E Q : Type}

/-- The state after the changes `es`, in their order. -/
def disturb (ambient : E → σ → σ) (es : List E) (s : σ) : σ :=
  es.foldl (fun s e => ambient e s) s

/-- Before each call the state changes by itself. -/
def Handler.disturbed (exec : Handler S ε σ A) (ambient : E → σ → σ) :
    Handler S ε σ (List E × A) :=
  fun a op s => exec a.2 op (disturb ambient a.1 s)

/-- The changes keep the assertion. -/
def Stable (ambient : E → σ → σ) (I : σ → Prop) : Prop :=
  ∀ e s, I s → I (ambient e s)

theorem Stable.disturb {ambient : E → σ → σ} {I : σ → Prop}
    (hI : Stable ambient I) (es : List E) {s : σ} (hs : I s) :
    I (disturb ambient es s) := by
  induction es generalizing s with
  | nil => exact hs
  | cons e es ih => exact ih (hI e s hs)

namespace Program

variable {exec : Handler S ε σ A} {ambient : E → σ → σ}
variable {permits : A → S.Op → Prop}

/-- One call, made after changes that keep what is known. -/
theorem wp_perform_disturbed {op : S.Op} {I : σ → Prop}
    {R : Except ε (S.Res op) → σ → Prop} {s : σ} (hI : Stable ambient I)
    (hs : I s)
    (h : ∀ a s', permits a op → I s' → R (exec a op s').1 (exec a op s').2) :
    (perform op : Program S ε (S.Res op)).wp (exec.disturbed ambient)
      (fun a op => permits a.2 op) R s := by
  rw [wp_perform]
  intro a ha
  exact h a.2 _ ha (hI.disturb a.1 hs)

/-- A program that keeps to a protocol, with its calls implemented on a lower
level: when each implementation leads from the assertion of a phase to that of
the next, the program ends in the assertion of its last phase. -/
theorem Follows.wp_interp {P : Protocol T ε Q}
    {impl : (op : T.Op) → Program S ε (T.Res op)} {J : Q → σ → Prop}
    (himpl : ∀ q op s, P.may q op → J q s → (impl op).wp exec permits
      (fun x s' => P.possible q op x ∧ J (P.next q op x) s') s)
    {p : Program T ε α} {q : Q} {R : Except ε α → Q → Prop} {s : σ}
    (hp : p.Follows P q R) (hs : J q s) :
    (p.interp impl).wp exec permits (fun r s' => ∃ q', R r q' ∧ J q' s') s := by
  induction p generalizing q s with
  | ret a => exact ⟨q, hp, hs⟩
  | raise e => exact ⟨q, hp, hs⟩
  | call op k ih =>
      rw [interp_call, wp_bind, wp_attempt]
      refine wp_mono (himpl q op s hp.1 hs) ?_
      intro x s' h
      exact ih x (hp.2 x h.1) h.2

end Program

end Effects
