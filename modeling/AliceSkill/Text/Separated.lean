import Mathlib.Data.List.Basic

/-!
# Texts joined by a separator

Joining keeps the sequence of pieces between separators and forgets which
pieces belong to the same text.  What can be read back from a joined text is
therefore a question about cutting a list of pieces into groups: this module
has the two facts that answer it.
-/

namespace Text

variable {α β : Type}

/-- The pieces of a joined text are the pieces of its texts, in order. -/
theorem splitOn_intercalate_flatMap [BEq α] [LawfulBEq α] (c : α)
    {ts : List (List α)} (hts : ts ≠ []) :
    ([c].intercalate ts).splitOn c = ts.flatMap fun t => t.splitOn c := by
  induction ts with
  | nil => exact absurd rfl hts
  | cons t ts ih =>
      rcases ts with _ | ⟨t', ts⟩
      · simp
      · have hrest := ih (List.cons_ne_nil t' ts)
        rw [List.intercalate_cons_cons, List.append_assoc,
          List.singleton_append, List.splitOn_append_cons_self, hrest]
        rfl

/-- A text is determined by its pieces. -/
theorem splitOn_injective [BEq α] [LawfulBEq α] (c : α) {t t' : List α}
    (h : t.splitOn c = t'.splitOn c) : t = t' := by
  have hjoin := congrArg [c].intercalate h
  rwa [List.intercalate_splitOn, List.intercalate_splitOn] at hjoin

theorem splitOn_eq_nil_piece [BEq α] [LawfulBEq α] {c : α} {t : List α} :
    t.splitOn c = [[]] ↔ t = [] := by
  constructor
  · intro h
    exact splitOn_injective c h
  · rintro rfl
    rfl

/-- A list of pieces is cut into groups, none of which is the piece `o` alone.
A first group of one piece, or of `o` and one more piece, can only become
longer in another cut. -/
theorem group_cases {o : β} {G G' R R' : List β} (h : G ++ R = G' ++ R')
    (hG : G.length = 1 ∨ ∃ x, G = [o, x]) (hne : G' ≠ []) (ho : G' ≠ [o]) :
    G' = G ∧ R' = R ∨ ∃ Y, Y ≠ [] ∧ G' = G ++ Y ∧ R = Y ++ R' := by
  rcases List.append_eq_append_iff.mp h with ⟨Y, hY, hR⟩ | ⟨Y, hY, hR⟩
  · rcases eq_or_ne Y [] with rfl | hYne
    · left
      exact ⟨by simpa using hY, hR.symm⟩
    · exact Or.inr ⟨Y, hYne, hY, hR⟩
  · rcases eq_or_ne Y [] with rfl | hYne
    · left
      exact ⟨by simpa using hY.symm, hR⟩
    · have hpos : 0 < Y.length := List.length_pos_iff.mpr hYne
      have hpos' : 0 < G'.length := List.length_pos_iff.mpr hne
      rcases hG with hone | ⟨x, rfl⟩
      · rw [hY, List.length_append] at hone
        omega
      · obtain ⟨y, G', rfl⟩ := List.exists_cons_of_ne_nil hne
        rw [List.cons_append, List.cons.injEq] at hY
        obtain ⟨rfl, hY⟩ := hY
        have hG' : G' ≠ [] := by
          rintro rfl
          exact ho rfl
        have hpos'' : 0 < G'.length := List.length_pos_iff.mpr hG'
        have hlen := congrArg List.length hY
        rw [List.length_append, List.length_singleton] at hlen
        omega

end Text
