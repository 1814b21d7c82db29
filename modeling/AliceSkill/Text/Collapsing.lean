import Mathlib.Data.List.Infix
import AliceSkill.Text.Python
import AliceSkill.Text.Runs

/-!
# Collapsed and stripped texts

What collapsing white space and stripping at both ends leave of a text, and
which texts that occur in it still occur in the rest.
-/

namespace Text

variable {p : Char → Bool} {w t u : Str} {ch : Char}

/-! ## Collapsing -/

@[simp] theorem collapseSpaces_nil : collapseSpaces [] = [] :=
  subConst_plus_nil

theorem collapseSpaces_space (hch : isSpace ch) :
    collapseSpaces (ch :: t) = ' ' :: collapseSpaces (t.dropWhile isSpace) :=
  subConst_plus_cons hch

theorem collapseSpaces_cons (hch : ¬isSpace ch) :
    collapseSpaces (ch :: t) = ch :: collapseSpaces t :=
  subConst_plus_cons_of_neg hch

/-- Induction along a text, run of white space by run. -/
theorem collapse_induction {P : Str → Prop} (hnil : P [])
    (hspace : ∀ ch t, isSpace ch → P (t.dropWhile isSpace) → P (ch :: t))
    (hcons : ∀ ch t, ¬isSpace ch → P t → P (ch :: t)) (t : Str) : P t :=
  run_induction isSpace hnil hspace hcons t

/-- White space occurs as single spaces only. -/
def Spaced (t : Str) : Prop :=
  (∀ ch ∈ t, isSpace ch → ch = ' ') ∧ ¬[' ', ' '] <:+: t

theorem Spaced.within (h : Spaced t) (hu : u <:+: t) : Spaced u :=
  ⟨fun ch hch => h.1 ch (hu.subset hch), fun htwo => h.2 (htwo.trans hu)⟩

theorem Spaced.append_singleton (h : Spaced t) (hch : ¬isSpace ch) :
    Spaced (t ++ [ch]) := by
  constructor
  · intro d hd hspace
    rcases List.mem_append.mp hd with hd | hd
    · exact h.1 d hd hspace
    · rw [List.mem_singleton.mp hd] at hspace
      exact absurd hspace hch
  · rw [List.infix_concat_iff]
    rintro (hsuffix | hwithin)
    · obtain ⟨before, hbefore⟩ := hsuffix
      have hlast := congrArg List.getLast? hbefore
      rw [List.getLast?_append, List.getLast?_append] at hlast
      obtain rfl : ' ' = ch := by simpa using hlast
      exact hch (by decide)
    · exact h.2 hwithin

theorem Spaced.not_two (h : Spaced t) {a b : Char} (ha : isSpace a)
    (hb : isSpace b) : ¬[a, b] <:+: t := by
  intro htwo
  have ha' := h.1 a (htwo.subset (by simp)) ha
  have hb' := h.1 b (htwo.subset (by simp)) hb
  rw [ha', hb'] at htwo
  exact h.2 htwo

theorem spaced_of_all {t : Str}
    (hall : t.all (fun ch => !isSpace ch || ch == ' ') = true)
    (htwo : ¬[' ', ' '] <:+: t) : Spaced t := by
  refine ⟨fun ch hch hspace => ?_, htwo⟩
  have h := List.all_eq_true.mp hall ch hch
  simpa [hspace] using h

theorem spaced_collapseSpaces (t : Str) : Spaced (collapseSpaces t) := by
  induction t using collapse_induction with
  | hnil => simp [Spaced]
  | hspace ch t hch ih =>
      rw [collapseSpaces_space hch]
      constructor
      · intro d hd hspace
        rcases List.mem_cons.mp hd with rfl | hd
        · rfl
        · exact ih.1 d hd hspace
      · rw [List.infix_cons_iff, List.cons_prefix_cons]
        rintro (⟨-, hhere⟩ | hwithin)
        · -- the rest begins outside the run
          cases hrest : t.dropWhile isSpace with
          | nil =>
              rw [hrest, collapseSpaces_nil] at hhere
              exact absurd (List.prefix_nil.mp hhere) (by simp)
          | cons d rest =>
              have hd : ¬isSpace d := by
                have hhead := List.head?_dropWhile_not isSpace t
                rw [hrest] at hhead
                simpa using hhead
              rw [hrest, collapseSpaces_cons hd, List.cons_prefix_cons] at hhere
              rw [← hhere.1] at hd
              exact hd (by decide)
        · exact ih.2 hwithin
  | hcons ch t hch ih =>
      rw [collapseSpaces_cons hch]
      constructor
      · intro d hd hspace
        rcases List.mem_cons.mp hd with rfl | hd
        · exact absurd hspace hch
        · exact ih.1 d hd hspace
      · rw [List.infix_cons_iff, List.cons_prefix_cons]
        rintro (⟨rfl, -⟩ | hwithin)
        · exact hch (by decide)
        · exact ih.2 hwithin

/-- A text without white space. -/
def Word (w : Str) : Prop := ∀ ch ∈ w, ¬isSpace ch

theorem prefix_collapseSpaces (hw : Word w) :
    w <+: collapseSpaces t ↔ w <+: t := by
  induction t using collapse_induction generalizing w with
  | hnil => rw [collapseSpaces_nil]
  | hspace ch t hch ih =>
      rw [collapseSpaces_space hch]
      cases w with
      | nil => simp
      | cons d w =>
          have hd := hw d List.mem_cons_self
          rw [List.cons_prefix_cons, List.cons_prefix_cons]
          constructor
          · rintro ⟨rfl, -⟩
            exact absurd (by decide) hd
          · rintro ⟨rfl, -⟩
            exact absurd hch hd
  | hcons ch t hch ih =>
      rw [collapseSpaces_cons hch]
      cases w with
      | nil => simp
      | cons d w =>
          rw [List.cons_prefix_cons, List.cons_prefix_cons,
            ih fun c hc => hw c (List.mem_cons_of_mem _ hc)]

/-- A text that does not begin with the class occurs behind a run of it. -/
theorem infix_dropWhile {x : Char} (hx : ¬p x) :
    (x :: w) <:+: t.dropWhile p ↔ (x :: w) <:+: t := by
  induction t with
  | nil => rfl
  | cons ch t ih =>
      by_cases hch : p ch
      · rw [List.dropWhile_cons_of_pos hch, ih, List.infix_cons_iff,
          List.cons_prefix_cons]
        constructor
        · exact Or.inr
        · rintro (⟨rfl, -⟩ | hwithin)
          · exact absurd hch hx
          · exact hwithin
      · rw [List.dropWhile_cons_of_neg hch]

/-- A word occurs in a text exactly when it occurs in the collapsed text. -/
theorem infix_collapseSpaces (hw : Word w) (hne : w ≠ []) :
    w <:+: collapseSpaces t ↔ w <:+: t := by
  obtain ⟨x, w, rfl⟩ := List.exists_cons_of_ne_nil hne
  have hx := hw x List.mem_cons_self
  induction t using collapse_induction with
  | hnil => rw [collapseSpaces_nil]
  | hspace ch t hch ih =>
      have hrest : x :: w <:+: collapseSpaces (t.dropWhile isSpace) ↔ _ := ih
      have hfirst := @prefix_collapseSpaces _ (ch :: t) hw
      rw [collapseSpaces_space hch] at hfirst ⊢
      rw [List.infix_cons_iff, List.infix_cons_iff, hfirst, hrest,
        infix_dropWhile hx]
  | hcons ch t hch ih =>
      have hrest : x :: w <:+: collapseSpaces t ↔ _ := ih
      have hfirst := @prefix_collapseSpaces _ (ch :: t) hw
      rw [collapseSpaces_cons hch] at hfirst ⊢
      rw [List.infix_cons_iff, List.infix_cons_iff, hfirst, hrest]

theorem mem_collapseSpaces (hch : ¬isSpace ch) :
    ch ∈ collapseSpaces t ↔ ch ∈ t := by
  have hword : Word [ch] := by
    intro d hd
    rwa [List.mem_singleton.mp hd]
  rw [← List.singleton_infix_iff, ← List.singleton_infix_iff]
  exact infix_collapseSpaces hword (List.cons_ne_nil _ _)

/-- A run ends where a text outside the class begins. -/
theorem dropWhile_append_of_head (ht : ∀ d ∈ t.head?, ¬p d) :
    (u ++ t).dropWhile p = u.dropWhile p ++ t := by
  rw [List.dropWhile_append]
  split
  · next hnil =>
    rw [List.isEmpty_iff.mp hnil, List.nil_append]
    cases t with
    | nil => rfl
    | cons d t => exact List.dropWhile_cons_of_neg (ht d rfl)
  · rfl

/-- Texts are collapsed apart if the second begins outside white space. -/
theorem collapseSpaces_append (ht : ∀ d ∈ t.head?, ¬isSpace d) :
    collapseSpaces (u ++ t) = collapseSpaces u ++ collapseSpaces t := by
  induction u using collapse_induction with
  | hnil => rw [collapseSpaces_nil, List.nil_append, List.nil_append]
  | hspace ch u hch ih =>
      rw [List.cons_append, collapseSpaces_space hch, collapseSpaces_space hch,
        dropWhile_append_of_head ht, ih, List.cons_append]
  | hcons ch u hch ih =>
      rw [List.cons_append, collapseSpaces_cons hch, collapseSpaces_cons hch, ih,
        List.cons_append]

/-- A run of white space behind a text is collapsed apart from it. -/
theorem collapseSpaces_append_run {run : Str}
    (hu : ∀ d ∈ u.getLast?, ¬isSpace d) :
    collapseSpaces (u ++ run) = collapseSpaces u ++ collapseSpaces run := by
  induction u using List.reverseRecOn with
  | nil => rw [collapseSpaces_nil, List.nil_append, List.nil_append]
  | append_singleton u d _ =>
      have hd : ¬isSpace d := hu d (by simp)
      have hhead : ∀ e ∈ (d :: run).head?, ¬isSpace e := by
        rintro e ⟨⟩
        exact hd
      have hsingle : ∀ e ∈ [d].head?, ¬isSpace e := by
        rintro e ⟨⟩
        exact hd
      rw [List.append_assoc, List.singleton_append, collapseSpaces_append hhead,
        collapseSpaces_append hsingle, collapseSpaces_cons hd,
        collapseSpaces_cons hd, collapseSpaces_nil, List.append_assoc]
      rfl

/-! ## Stripping -/

/-- What stands behind a text is stripped with it. -/
theorem stripBy_append_of_all {run : Str} (hrun : ∀ d ∈ run, p d) :
    stripBy p (u ++ run) = stripBy p u := by
  have hback : ∀ v : Str, (v ++ run).rdropWhile p = v.rdropWhile p := by
    intro v
    rw [List.rdropWhile, List.reverse_append,
      List.dropWhile_append_of_pos fun d hd => hrun d (List.mem_reverse.mp hd)]
    rfl
  rw [stripBy, stripBy, lstripBy, lstripBy, List.dropWhile_append]
  split
  · next hnil =>
    have hgone : run.dropWhile p = [] := List.dropWhile_eq_nil_iff.mpr hrun
    rw [hgone, List.isEmpty_iff.mp hnil]
  · exact hback _

/-- White space at the ends of a text makes no difference if what it is
collapsed to is stripped. -/
theorem stripBy_collapseSpaces_strip (hp : p ' ') (t : Str) :
    stripBy p (collapseSpaces (strip t)) = stripBy p (collapseSpaces t) := by
  have hfront : lstripBy p (collapseSpaces (lstripBy isSpace t)) =
      lstripBy p (collapseSpaces t) := by
    cases t with
    | nil => rfl
    | cons ch t =>
        by_cases hch : isSpace ch
        · rw [collapseSpaces_space hch, lstripBy, lstripBy, lstripBy,
            List.dropWhile_cons_of_pos hch, List.dropWhile_cons_of_pos hp]
        · rw [lstripBy, lstripBy, List.dropWhile_cons_of_neg hch]
          rfl
  have hback : stripBy p (collapseSpaces (rstripBy isSpace (lstripBy isSpace t))) =
      stripBy p (collapseSpaces (lstripBy isSpace t)) := by
    generalize lstripBy isSpace t = u
    have hsplit : rstripBy isSpace u ++ u.rtakeWhile isSpace = u :=
      List.rdropWhile_append_rtakeWhile
    have hlast : ∀ d ∈ (rstripBy isSpace u).getLast?, ¬isSpace d := by
      intro d hd
      obtain ⟨hne, rfl⟩ := List.mem_getLast?_eq_getLast hd
      exact List.rdropWhile_last_not isSpace u hne
    have hrun : ∀ d ∈ collapseSpaces (u.rtakeWhile isSpace), p d := by
      intro d hd
      by_cases hspace : isSpace d
      · rw [(spaced_collapseSpaces _).1 d hd hspace]
        exact hp
      · rw [mem_collapseSpaces hspace] at hd
        exact absurd (List.mem_rtakeWhile_imp hd) hspace
    conv_rhs => rw [← hsplit, collapseSpaces_append_run hlast]
    rw [stripBy_append_of_all hrun]
  have hstrip : strip t = rstripBy isSpace (lstripBy isSpace t) := rfl
  rw [hstrip, hback, stripBy, hfront, ← stripBy]

/-- A text that does not end with the class occurs before a run of it. -/
theorem infix_rdropWhile {x : Char} (hx : ¬p x) :
    (w ++ [x]) <:+: t.rdropWhile p ↔ (w ++ [x]) <:+: t := by
  have hreverse : (w ++ [x]) <:+: t ↔ (w ++ [x]).reverse <:+: t.reverse :=
    List.reverse_infix.symm
  rw [hreverse, ← List.reverse_infix, List.rdropWhile, List.reverse_reverse,
    List.reverse_append, List.reverse_singleton, List.singleton_append]
  exact infix_dropWhile hx

/-- A text outside the class at both ends occurs in a stripped text exactly when
it occurs in the text. -/
theorem infix_stripBy (hne : w ≠ []) (hhead : ¬p (w.head hne))
    (hlast : ¬p (w.getLast hne)) : w <:+: stripBy p t ↔ w <:+: t := by
  have hback : w <:+: stripBy p t ↔ w <:+: lstripBy p t := by
    rw [← List.dropLast_append_getLast hne]
    exact infix_rdropWhile hlast
  have hfront : w <:+: lstripBy p t ↔ w <:+: t := by
    rw [← List.cons_head_tail hne]
    exact infix_dropWhile hhead
  exact hback.trans hfront

theorem mem_stripBy (hch : ¬p ch) : ch ∈ stripBy p t ↔ ch ∈ t := by
  rw [← List.singleton_infix_iff, ← List.singleton_infix_iff]
  exact infix_stripBy (List.cons_ne_nil _ _) hch hch

theorem stripBy_within (p : Char → Bool) (t : Str) : stripBy p t <:+: t :=
  (List.rdropWhile_prefix p _).isInfix.trans (List.dropWhile_suffix p).isInfix

/-- What is left after stripping has an end outside the class. -/
theorem exists_of_stripBy_ne_nil (h : stripBy p t ≠ []) : ∃ ch ∈ t, ¬p ch := by
  have hlast := List.rdropWhile_last_not p _ h
  exact ⟨_, (stripBy_within p t).subset (List.getLast_mem h), hlast⟩

theorem stripBy_ne_nil : stripBy p t ≠ [] ↔ ∃ ch ∈ t, ¬p ch := by
  constructor
  · exact exists_of_stripBy_ne_nil
  · rintro ⟨ch, hmem, hch⟩
    exact List.ne_nil_of_mem ((mem_stripBy hch).mpr hmem)

theorem stripBy_getLast (h : stripBy p t ≠ []) :
    ¬p ((stripBy p t).getLast h) :=
  List.rdropWhile_last_not p _ h

theorem stripBy_head (h : stripBy p t ≠ []) : ¬p ((stripBy p t).head h) := by
  obtain ⟨rest, hrest⟩ := List.rdropWhile_prefix p (lstripBy p t)
  have hne : lstripBy p t ≠ [] := by
    intro hnil
    apply h
    rw [stripBy, hnil]
    rfl
  have hsame : (stripBy p t).head h = (lstripBy p t).head hne := by
    have happend : stripBy p t ++ rest = lstripBy p t := hrest
    simp only [← happend, List.head_append_of_ne_nil h]
  rw [hsame]
  have hhead := List.head?_dropWhile_not p t
  rw [show t.dropWhile p = lstripBy p t from rfl, List.head?_eq_some_head hne] at hhead
  simpa using hhead

end Text
