import AliceSkill.Text.Regex

/-!
# Matching a pattern

What the first match of a pattern is, for the building blocks of patterns that
look for literal texts: literals, repeated classes and lazy captures.  A pattern
whose matches depend on the rest of the subject only can be scanned for without
cursors; substitution and iteration over its matches are read off from the scan.
-/

namespace Text

namespace Cursor

/-- The position `n` characters further on. -/
def skip (c : Cursor) (n : ℕ) : Cursor :=
  ⟨(c.after.take n).reverse ++ c.before, c.after.drop n, c.groups⟩

@[simp] theorem skip_after (c : Cursor) (n : ℕ) :
    (c.skip n).after = c.after.drop n := rfl

@[simp] theorem skip_groups (c : Cursor) (n : ℕ) :
    (c.skip n).groups = c.groups := rfl

@[simp] theorem skip_zero (c : Cursor) : c.skip 0 = c := by
  simp [skip]

@[simp] theorem skip_skip (c : Cursor) (m n : ℕ) :
    (c.skip m).skip n = c.skip (m + n) := by
  simp [skip, List.take_add]

@[simp] theorem since_skip (c : Cursor) (n : ℕ) :
    (c.skip n).since c = c.after.take n := by
  rw [since, skip_after, List.length_drop, List.take_eq_take_iff]
  omega

end Cursor

namespace Regex

variable {p : Char → Bool} {c : Cursor} {fuel : ℕ}

theorem ends_cls_cons {ch : Char} {t : Str} (h : c.after = ch :: t) :
    (cls p).ends c = if p ch then [c.skip 1] else [] := by
  simp [ends, h, Cursor.skip]

theorem ends_cls_nil (h : c.after = []) : (cls p).ends c = [] := by
  simp [ends, h]

/-- A literal text is matched where it stands. -/
theorem ends_lit (s : Str) (c : Cursor) :
    (lit s).ends c = if s <+: c.after then [c.skip s.length] else [] := by
  induction s generalizing c with
  | nil => simp [lit, ends]
  | cons ch s ih =>
      rw [lit, ends]
      cases hafter : c.after with
      | nil =>
          rw [ends_cls_nil hafter]
          simp
      | cons d t =>
          rw [ends_cls_cons hafter]
          by_cases hch : d = ch
          · subst hch
            have hone : 1 + s.length = s.length + 1 := Nat.add_comm _ _
            simp [ih, hafter, hone, List.cons_prefix_cons]
          · simp [hch, Ne.symm hch, List.cons_prefix_cons]

/-- One more iteration of a greedy repetition is preferred. -/
theorem iterate_greedy_cons {ch : Char} {t : Str} (h : c.after = ch :: t)
    (hch : p ch) : iterate (cls p).ends true (fuel + 1) 0 none c =
      iterate (cls p).ends true fuel 0 none (c.skip 1) ++ [c] := by
  simp [iterate, ends_cls_cons h, hch, h]

theorem iterate_lazy_cons {ch : Char} {t : Str} (h : c.after = ch :: t)
    (hch : p ch) : iterate (cls p).ends false (fuel + 1) 0 none c =
      c :: iterate (cls p).ends false fuel 0 none (c.skip 1) := by
  simp [iterate, ends_cls_cons h, hch, h]

/-- A greedy repetition of a class stops as late as it can. -/
theorem iterate_greedy_cls (h : c.after.length < fuel) :
    iterate (cls p).ends true fuel 0 none c =
      ((List.range ((c.after.takeWhile p).length + 1)).reverse).map c.skip := by
  induction fuel generalizing c with
  | zero => cases h
  | succ fuel ih =>
      cases hafter : c.after with
      | nil => simp [iterate, ends_cls_nil hafter]
      | cons ch t =>
          by_cases hch : p ch
          · have hskip : (c.skip 1).after = t := by simp [hafter]
            have hlt : (c.skip 1).after.length < fuel := by
              rw [hafter, List.length_cons] at h
              rw [hskip]
              omega
            rw [iterate_greedy_cons hafter hch, ih hlt, hskip,
              List.takeWhile_cons_of_pos hch, List.length_cons,
              List.range_succ_eq_map (n := (t.takeWhile p).length + 1),
              List.reverse_cons, List.map_append, ← List.map_reverse,
              List.map_map]
            simp [Function.comp_def, Nat.add_comm 1]
          · simp [iterate, ends_cls_cons hafter, hch]

/-- A lazy repetition of a class stops as early as it can. -/
theorem iterate_lazy_cls (h : c.after.length < fuel) :
    iterate (cls p).ends false fuel 0 none c =
      (List.range ((c.after.takeWhile p).length + 1)).map c.skip := by
  induction fuel generalizing c with
  | zero => cases h
  | succ fuel ih =>
      cases hafter : c.after with
      | nil => simp [iterate, ends_cls_nil hafter]
      | cons ch t =>
          by_cases hch : p ch
          · have hskip : (c.skip 1).after = t := by simp [hafter]
            have hlt : (c.skip 1).after.length < fuel := by
              rw [hafter, List.length_cons] at h
              rw [hskip]
              omega
            rw [iterate_lazy_cons hafter hch, ih hlt, hskip,
              List.takeWhile_cons_of_pos hch, List.length_cons,
              List.range_succ_eq_map (n := (t.takeWhile p).length + 1),
              List.map_cons, List.map_map]
            simp [Function.comp_def, Nat.add_comm 1]
          · simp [iterate, ends_cls_cons hafter, hch]

/-! ## First matches -/

theorem head_seq (r s : Regex) (c : Cursor) :
    ((seq r s).ends c).head? =
      (r.ends c).findSome? fun d => (s.ends d).head? :=
  List.head?_flatMap

theorem head_lit (s : Str) (c : Cursor) :
    ((lit s).ends c).head? =
      if s <+: c.after then some (c.skip s.length) else none := by
  rw [ends_lit]
  split <;> rfl

theorem ends_star_cls (c : Cursor) : (star (cls p)).ends c =
    ((List.range ((c.after.takeWhile p).length + 1)).reverse).map c.skip :=
  iterate_greedy_cls (by omega)

theorem drop_takeWhile_length (p : Char → Bool) (t : Str) :
    t.drop (t.takeWhile p).length = t.dropWhile p := by
  induction t with
  | nil => rfl
  | cons ch t ih =>
      by_cases hch : p ch
      · simpa [hch] using ih
      · simp [hch]

/-- A text that does not begin with the class does not stand inside a run of
it. -/
theorem not_prefix_drop {x : Char} {s t : Str} (hx : ¬p x) {n : ℕ}
    (hn : n < (t.takeWhile p).length) : ¬(x :: s) <+: t.drop n := by
  rintro ⟨rest, hrest⟩
  have hget : t[n]? = some x := by
    rw [← List.head?_drop, ← hrest]
    rfl
  rw [← List.takeWhile_append_dropWhile (p := p) (l := t),
    List.getElem?_append_left hn] at hget
  exact hx (List.mem_takeWhile_imp (List.mem_of_getElem? hget))

/-- A run of a class before a literal that does not begin with it. -/
theorem head_star_lit {x : Char} {s : Str} (hx : ¬p x) (c : Cursor) :
    ((seq (star (cls p)) (lit (x :: s))).ends c).head? =
      if (x :: s) <+: c.after.dropWhile p then
        some (c.skip ((c.after.takeWhile p).length + (x :: s).length))
      else none := by
  rw [head_seq, ends_star_cls, List.findSome?_map, List.range_succ,
    List.reverse_append, List.reverse_singleton, List.singleton_append,
    List.findSome?_cons]
  simp only [Function.comp_apply, head_lit, Cursor.skip_after,
    drop_takeWhile_length, Cursor.skip_skip]
  split_ifs with hhere
  · rfl
  · refine List.findSome?_eq_none_iff.mpr fun n hn => ?_
    rw [List.mem_reverse, List.mem_range] at hn
    exact if_neg (not_prefix_drop hx hn)

theorem head_iterate_cls (n : ℕ) (hfuel : n + c.after.length < fuel) :
    (iterate (cls p).ends true fuel n none c).head? =
      if n ≤ (c.after.takeWhile p).length then
        some (c.skip (c.after.takeWhile p).length)
      else none := by
  induction n generalizing fuel c with
  | zero =>
      rw [iterate_greedy_cls (by omega), List.range_succ, List.reverse_append]
      simp
  | succ n ih =>
      obtain ⟨fuel, rfl⟩ : ∃ k, fuel = k + 1 := ⟨fuel - 1, by omega⟩
      rw [iterate]
      cases hafter : c.after with
      | nil => simp [ends_cls_nil hafter]
      | cons ch t =>
          rw [ends_cls_cons hafter]
          by_cases hch : p ch
          · have hskip : (c.skip 1).after = t := by simp [hafter]
            have hfuel' : n + (c.skip 1).after.length < fuel := by
              rw [hafter, List.length_cons] at hfuel
              rw [hskip]
              omega
            have hrest := ih hfuel'
            rw [if_pos hch, List.flatMap_singleton, Option.map_none, hrest, hskip,
              List.takeWhile_cons_of_pos hch, List.length_cons, Cursor.skip_skip,
              Nat.add_comm 1]
            simp
          · simp [hch]

/-- A run of a class that has a least length. -/
theorem head_run (n : ℕ) (c : Cursor) : ((rep true n none (cls p)).ends c).head? =
    if n ≤ (c.after.takeWhile p).length then
      some (c.skip (c.after.takeWhile p).length)
    else none := by
  rw [ends]
  exact head_iterate_cls n (by omega)

/-- A lazy capture of anything, before the rest of a pattern. -/
theorem head_capture (n : ℕ) (r : Regex) (c : Cursor) :
    ((seq (group n (lazyStar (cls fun _ => true))) r).ends c).head? =
      (List.range (c.after.length + 1)).findSome? fun k =>
        (r.ends { c.skip k with groups := (n, c.after.take k) :: c.groups }).head? := by
  have hall : c.after.takeWhile (fun _ => true) = c.after :=
    List.takeWhile_eq_self_iff.mpr fun _ _ => rfl
  have hends : (lazyStar (cls fun _ => true)).ends c =
      (List.range (c.after.length + 1)).map c.skip := by
    have hrun := iterate_lazy_cls (p := fun _ => true)
      (show c.after.length < 0 + c.after.length + 1 by omega)
    rw [hall] at hrun
    exact hrun
  rw [head_seq, ends, hends, List.map_map, List.findSome?_map]
  simp only [Function.comp_def, Cursor.since_skip, Cursor.skip_groups]

end Regex

end Text
