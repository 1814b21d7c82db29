import AliceSkill.Text.Regex
import Mathlib.Algebra.Order.Ring.Nat

/-!
# Digits

Numbers written with a fixed number of digits, as in escapes and time stamps,
and decimal numbers of any size.
-/

namespace Formats

open Text

/-- The value of a digit in a base up to 16; letters of either case count. -/
def digitValue (c : Char) : Option ℕ :=
  if '0' ≤ c ∧ c ≤ '9' then some (c.toNat - 48)
  else if 'a' ≤ c ∧ c ≤ 'f' then some (c.toNat - 87)
  else if 'A' ≤ c ∧ c ≤ 'F' then some (c.toNat - 55)
  else none

/-- The last `w` digits of a number, leading zeros included. -/
def pad (b : ℕ) : ℕ → ℕ → Str
  | 0, _ => []
  | w + 1, n => pad b w (n / b) ++ [(n % b).digitChar]

/-- Append one digit to a number. -/
def shift (b n : ℕ) (c : Char) : Option ℕ :=
  match digitValue c with
  | some d => if d < b then some (n * b + d) else none
  | none => none

/-- The number that a text of digits stands for. -/
def readDigits (b : ℕ) (ds : Str) : Option ℕ := ds.foldlM (shift b) 0

theorem digitValue_digitChar {d : ℕ} (h : d < 16) :
    digitValue d.digitChar = some d := by
  decide +revert

theorem shift_digitChar {b d : ℕ} (hb : b ≤ 16) (hd : d < b) (n : ℕ) :
    shift b n d.digitChar = some (n * b + d) := by
  rw [shift, digitValue_digitChar (Nat.lt_of_lt_of_le hd hb)]
  exact if_pos hd

@[simp] theorem length_pad (b w n : ℕ) : (pad b w n).length = w := by
  induction w generalizing n with
  | zero => rfl
  | succ w ih => rw [pad, List.length_append, ih, List.length_singleton]

/-- A number that fits is read back. -/
theorem readDigits_pad {b w n : ℕ} (hb : b ≤ 16) (hn : n < b ^ w) :
    readDigits b (pad b w n) = some n := by
  induction w generalizing n with
  | zero =>
      have hzero : n = 0 := by simpa using hn
      rw [hzero]
      rfl
  | succ w ih =>
      have hpos : 0 < b := by
        apply Nat.pos_of_ne_zero
        intro hzero
        simp [hzero] at hn
      have hdiv : n / b < b ^ w := Nat.div_lt_of_lt_mul (by rwa [← Nat.pow_succ'])
      have hmod := Nat.mod_lt n hpos
      have hpad := ih hdiv
      rw [readDigits] at hpad
      rw [readDigits, pad, List.foldlM_append, hpad]
      change (shift b (n / b) (n % b).digitChar).bind some = some n
      rw [shift_digitChar hb hmod, Nat.mul_comm, Nat.div_add_mod]
      rfl

/-! ## Decimal numbers -/

/-- The digits a text starts with. -/
def leadingDigits (t : Str) : Str := t.takeWhile Char.isDigit

theorem leadingDigits_append {ds t : Str} (hds : ∀ c ∈ ds, c.isDigit = true)
    (ht : ∀ c ∈ t.head?, c.isDigit = false) : leadingDigits (ds ++ t) = ds := by
  have hstop : t.takeWhile Char.isDigit = [] := by
    cases t with
    | nil => rfl
    | cons c t => exact List.takeWhile_cons_of_neg (by simp [ht c rfl])
  rw [leadingDigits, List.takeWhile_append_of_pos hds, hstop, List.append_nil]

/-- The digits of a number start with a zero only if it is zero. -/
theorem toDigits_head {n : ℕ} {ds : Str} (h : Nat.toDigits 10 n = '0' :: ds) :
    n = 0 := by
  induction n using Nat.strongRecOn generalizing ds with
  | _ n ih =>
    by_cases hlt : n < 10
    · rw [Nat.toDigits_of_lt_base hlt, List.cons.injEq] at h
      exact Nat.digitChar_eq_zero.mp h.1
    · rw [Nat.toDigits_of_base_le (by omega) (by omega)] at h
      cases hfront : Nat.toDigits 10 (n / 10) with
      | nil => exact absurd hfront Nat.toDigits_ne_nil
      | cons c cs =>
          rw [hfront, List.cons_append, List.cons.injEq] at h
          have hzero := ih (n / 10) (by omega) (hfront.trans (by rw [h.1]))
          omega

end Formats
