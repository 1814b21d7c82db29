import AliceSkill.Text.Scanning

/-!
# Runs of a class

A repetition of one class of characters takes the whole run where it stands.
What a substitution for such a pattern makes of a text is computed run by run.
-/

namespace Text

variable {p : Char → Bool} {n : ℕ} {s t : Str} {ch : Char}

/-- A run of a class that has a least length. -/
def readRun (p : Char → Bool) (n : ℕ) (t : Str) : Option (Str × Unit) :=
  if n ≤ (t.takeWhile p).length then some (t.dropWhile p, ()) else none

theorem reads_run (hn : 0 < n) :
    Reads (.rep true n none (.cls p)) (fun _ => ()) (readRun p n) := by
  intro before after
  have hhead := @Regex.head_run p n ⟨before, after, []⟩
  have hdrop := Regex.drop_takeWhile_length p after
  rw [matchAt_of_head]
  · rw [hhead, readRun]
    split_ifs with hlong
    · simp only [Option.map_some, Cursor.skip_after, hdrop]
    · rfl
  · intro c hc
    rw [hhead] at hc
    split_ifs at hc with hlong
    cases hc
    have hle := (List.takeWhile_sublist p (l := after)).length_le
    rw [Cursor.skip_after, List.length_drop]
    show after.length - (after.takeWhile p).length < after.length
    change n ≤ (after.takeWhile p).length at hlong
    omega

theorem readRun_cons (hch : p ch) :
    readRun p 1 (ch :: t) = some (t.dropWhile p, ()) := by
  rw [readRun, List.takeWhile_cons_of_pos hch, List.dropWhile_cons_of_pos hch]
  exact if_pos (Nat.succ_pos _)

theorem readRun_cons_of_neg (hn : 0 < n) (hch : ¬p ch) :
    readRun p n (ch :: t) = none := by
  rw [readRun, List.takeWhile_cons_of_neg hch]
  exact if_neg (Nat.not_le.mpr hn)

theorem subConst_run (hn : 0 < n) (s t : Str) :
    (Regex.rep true n none (.cls p)).subConst s t =
      rewriteBy (readRun p n) (fun _ => s) t := by
  apply (reads_run hn).sub
  intro c
  rfl

theorem subConst_plus_nil : (Regex.plus (.cls p)).subConst s [] = [] := by
  rw [Regex.plus, subConst_run Nat.one_pos,
    rewriteBy_nil (reads_run Nat.one_pos).consumes]

theorem subConst_plus_cons (hch : p ch) :
    (Regex.plus (.cls p)).subConst s (ch :: t) =
      s ++ (Regex.plus (.cls p)).subConst s (t.dropWhile p) := by
  rw [Regex.plus, subConst_run Nat.one_pos, subConst_run Nat.one_pos,
    rewriteBy_some (reads_run Nat.one_pos).consumes (readRun_cons hch)]

theorem subConst_plus_cons_of_neg (hch : ¬p ch) :
    (Regex.plus (.cls p)).subConst s (ch :: t) =
      ch :: (Regex.plus (.cls p)).subConst s t := by
  rw [Regex.plus, subConst_run Nat.one_pos, subConst_run Nat.one_pos,
    rewriteBy_cons_none (reads_run Nat.one_pos).consumes
      (readRun_cons_of_neg Nat.one_pos hch)]

/-- Induction along a text, run by run. -/
theorem run_induction {P : Str → Prop} (p : Char → Bool) (hnil : P [])
    (hrun : ∀ ch t, p ch → P (t.dropWhile p) → P (ch :: t))
    (hcons : ∀ ch t, ¬p ch → P t → P (ch :: t)) (t : Str) : P t := by
  induction hn : t.length using Nat.strong_induction_on generalizing t with
  | _ n ih =>
      subst hn
      cases t with
      | nil => exact hnil
      | cons ch t =>
          have hle := (List.dropWhile_suffix p (l := t)).length_le
          by_cases hch : p ch
          · refine hrun ch t hch (ih _ ?_ _ rfl)
            rw [List.length_cons]
            omega
          · exact hcons ch t hch (ih _ (by simp) _ rfl)

end Text
