import Mathlib.Algebra.GroupWithZero.Nat
import AliceSkill.Text.Collapsing
import AliceSkill.Text.Languages

/-!
# Weights of texts

A weight for each character bounds how long a text can become when patterns are
replaced in it: a substitution does not add to the weight if no replacement
weighs more than its match.  What a match weighs at least is read off from the
pattern.
-/

namespace Text

/-- The weight of a text, given the weights of its characters. -/
def weigh (w : Char → ℕ) (t : Str) : ℕ := (t.map w).sum

section Weigh

variable {v w : Char → ℕ} {t u : Str} {k : ℕ}

@[simp] theorem weigh_nil : weigh w [] = 0 := rfl

@[simp] theorem weigh_cons (ch : Char) :
    weigh w (ch :: t) = w ch + weigh w t := by
  simp [weigh]

@[simp] theorem weigh_append : weigh w (t ++ u) = weigh w t + weigh w u := by
  simp [weigh]

theorem weigh_sublist (h : u.Sublist t) : weigh w u ≤ weigh w t := by
  induction h with
  | slnil => exact Nat.le_refl _
  | cons ch h ih =>
      rw [weigh_cons]
      exact Nat.le_add_left_of_le ih
  | cons_cons ch h ih =>
      rw [weigh_cons, weigh_cons]
      exact Nat.add_le_add_left ih _

theorem weigh_le_length (h : ∀ ch, w ch ≤ k) : weigh w t ≤ k * t.length := by
  induction t with
  | nil => exact Nat.zero_le _
  | cons ch t ih =>
      have hch := h ch
      rw [weigh_cons, List.length_cons, Nat.mul_succ]
      omega

theorem weigh_const (k : ℕ) (t : Str) : weigh (fun _ => k) t = k * t.length := by
  simp [weigh, Nat.mul_comm]

theorem weigh_eq_zero : weigh w t = 0 ↔ ∀ ch ∈ t, w ch = 0 := by
  induction t with
  | nil => simp
  | cons ch t ih => simp [ih]

theorem weigh_replaceChar {c d : Char} (h : w d ≤ w c) :
    weigh w (replaceChar c d t) ≤ weigh w t := by
  induction t with
  | nil => exact Nat.le_refl _
  | cons ch t ih =>
      rw [replaceChar, List.map_cons, weigh_cons, weigh_cons]
      apply Nat.add_le_add _ ih
      split
      · next hch => rwa [hch]
      · exact Nat.le_refl _

theorem removePairs_sublist (c : Char) (t : Str) :
    (removePairs c t).Sublist t := by
  fun_induction removePairs c t with
  | case1 x y t h ih => exact (ih.cons y).cons x
  | case2 x y t h ih => exact ih.cons_cons x
  | case3 t h => exact List.Sublist.refl _

theorem weigh_strip (p : Char → Bool) : weigh w (stripBy p t) ≤ weigh w t :=
  weigh_sublist (stripBy_within p t).sublist

end Weigh

/-! ## Matches -/

namespace Regex

variable {v w : Char → ℕ} {m n : ℕ} {r s : Regex} {c d : Cursor}

/-- What a match takes weighs at least `m`. -/
def Takes (w : Char → ℕ) (r : Regex) (m : ℕ) : Prop :=
  ∀ c d, d ∈ r.ends c → ∃ u, c.after = u ++ d.after ∧ m ≤ weigh w u

theorem takes_stay (h : ∀ c, ∀ d ∈ r.ends c, d.after = c.after) :
    r.Takes w 0 := by
  intro c d hd
  exact ⟨[], (h c d hd).symm, Nat.zero_le _⟩

theorem takes_cls {p : Char → Bool} (h : ∀ ch, p ch → m ≤ w ch) :
    (cls p).Takes w m := by
  intro c d hd
  rw [ends] at hd
  split at hd
  · next ch rest hafter =>
    split_ifs at hd with hch
    · obtain rfl := List.mem_singleton.mp hd
      exact ⟨[ch], hafter, by simpa using h ch hch⟩
    · cases hd
  · cases hd

theorem Takes.seq (hr : r.Takes w m) (hs : s.Takes w n) :
    (seq r s).Takes w (m + n) := by
  intro c e he
  rw [ends, List.mem_flatMap] at he
  obtain ⟨d, hd, he⟩ := he
  obtain ⟨u, hu, hm⟩ := hr c d hd
  obtain ⟨u', hu', hn⟩ := hs d e he
  refine ⟨u ++ u', ?_, ?_⟩
  · rw [hu, hu', List.append_assoc]
  · rw [weigh_append]
    exact Nat.add_le_add hm hn

theorem Takes.alt (hr : r.Takes w m) (hs : s.Takes w m) :
    (alt r s).Takes w m := by
  intro c d hd
  rw [ends, List.mem_append] at hd
  cases hd with
  | inl hd => exact hr c d hd
  | inr hd => exact hs c d hd

theorem Takes.group (i : ℕ) (hr : r.Takes w m) : (group i r).Takes w m := by
  intro c d hd
  rw [ends, List.mem_map] at hd
  obtain ⟨e, he, rfl⟩ := hd
  exact hr c e he

theorem Takes.rep (greedy : Bool) (min : ℕ) (max : Option ℕ)
    (hr : r.Takes w m) : (rep greedy min max r).Takes w (min * m) := by
  intro c d hd
  rw [ends] at hd
  refine iterate_induction (R := fun n c d => ∃ u, c.after = u ++ d.after ∧
    n * m ≤ weigh w u) ?_ ?_ ?_ (by omega) hd
  · intro c
    exact ⟨[], rfl, by simp⟩
  · intro c d e hd he
    obtain ⟨u, hu, -⟩ := hr c d hd
    obtain ⟨u', hu', -⟩ := he
    refine ⟨u ++ u', ?_, by simp⟩
    rw [hu, hu', List.append_assoc]
  · intro n c d e hd he
    obtain ⟨u, hu, hm⟩ := hr c d hd
    obtain ⟨u', hu', hn⟩ := he
    refine ⟨u ++ u', ?_, ?_⟩
    · rw [hu, hu', List.append_assoc]
    · rw [weigh_append, Nat.succ_mul]
      omega

theorem takes_lit (t : Str) : (lit t).Takes w (weigh w t) := by
  induction t with
  | nil => exact takes_stay fun c d hd => by rw [List.mem_singleton.mp hd]
  | cons ch t ih =>
      have hch : (cls (· == ch)).Takes w (w ch) :=
        takes_cls fun d hd => by rw [beq_iff_eq.mp hd]
      rw [weigh_cons]
      exact hch.seq ih

/-- A match stands in the subject, whatever the pattern. -/
theorem takes_zero (r : Regex) : r.Takes w 0 := by
  intro c d hd
  obtain ⟨u, -, htaken⟩ := exists_word hd
  exact ⟨u, htaken, Nat.zero_le _⟩

/-! ## Substitutions -/

/-- A substitution does not add to the weight if no replacement weighs more than
its match. -/
theorem weigh_sub {f : Cursor → Str} (hle : ∀ ch, v ch ≤ w ch)
    (hrepl : ∀ c, ∀ d ∈ r.ends c,
      ∃ u, c.after = u ++ d.after ∧ weigh v (f d) ≤ weigh w u) (t : Str) :
    weigh v (r.sub f t) ≤ weigh w t := by
  refine sub_induction (P := fun t out => weigh v out ≤ weigh w t)
    (Nat.le_refl _) ?_ ?_ t
  · intro before ch rest out _ hrest
    rw [weigh_cons, weigh_cons]
    exact Nat.add_le_add (hle ch) hrest
  · intro before after d out hmatch hrest
    obtain ⟨u, hu, hweight⟩ := hrepl _ d (ends_of_matchAt hmatch).1
    replace hu : after = u ++ d.after := hu
    rw [weigh_append, hu, weigh_append]
    exact Nat.add_le_add hweight hrest

/-- Replacing every match by a text that weighs no more. -/
theorem weigh_subConst {repl : Str} (hle : ∀ ch, v ch ≤ w ch)
    (hr : r.Takes w m) (hrepl : weigh v repl ≤ m) (t : Str) :
    weigh v (r.subConst repl t) ≤ weigh w t := by
  refine weigh_sub hle (fun c d hd => ?_) t
  obtain ⟨u, hu, hm⟩ := hr c d hd
  exact ⟨u, hu, hrepl.trans hm⟩

end Regex

/-- Runs of white space weigh no less than what they are collapsed to. -/
theorem weigh_collapseSpaces {w : Char → ℕ} (h : ∀ ch, w ' ' ≤ w ch) (t : Str) :
    weigh w (collapseSpaces t) ≤ weigh w t := by
  have htakes : spaces.Takes w (1 * w ' ') :=
    Regex.Takes.rep true 1 none (Regex.takes_cls fun ch _ => h ch)
  refine Regex.weigh_subConst (fun _ => Nat.le_refl _) htakes ?_ t
  simp

/-! ## Blemishes -/

/-- The listed characters, and white space other than the space. -/
def blemish (chars : String) (ch : Char) : ℕ :=
  if oneOf chars ch ∨ (isSpace ch ∧ ch ≠ ' ') then 1 else 0

theorem weigh_blemish {chars : String} {t : Str} : weigh (blemish chars) t = 0 ↔
    ∀ ch ∈ t, ¬oneOf chars ch ∧ (isSpace ch → ch = ' ') := by
  simp [weigh_eq_zero, blemish]

theorem weigh_blemish_collapseSpaces (t : Str) :
    weigh (blemish "") (collapseSpaces t) = 0 :=
  weigh_blemish.mpr fun ch hch => ⟨by simp [oneOf], (spaced_collapseSpaces t).1 ch hch⟩

end Text
