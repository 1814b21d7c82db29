import AliceSkill.Text.Collapsing

/-!
# The words of a text

Splitting at white space sees a text up to its white space: runs that a
substitution blanks, collapsed runs and stripped ends make no difference, and a
text that is rewritten letter by letter is split where its separators become
white space.
-/

namespace Text

variable {p sep : Char → Bool} {s t u w : Str} {ch : Char}

/-! ## Splitting -/

@[simp] theorem split_nil : split [] = [] := rfl

theorem split_append_space (hch : isSpace ch) :
    split (s ++ ch :: t) = split s ++ split t := by
  rw [split, List.splitOnP_append_cons s t hch, List.filter_append]
  rfl

/-- White space between two texts separates their words. -/
theorem split_append_spaces (hw : ∀ d ∈ w, isSpace d) (hne : w ≠ []) :
    split (s ++ w ++ t) = split s ++ split t := by
  induction w generalizing s with
  | nil => exact absurd rfl hne
  | cons d w ih =>
      have hd := hw d List.mem_cons_self
      have hrest : split (w ++ t) = split t := by
        by_cases hnil : w = []
        · rw [hnil, List.nil_append]
        · exact @ih [] (fun e he => hw e (List.mem_cons_of_mem d he)) hnil
      rw [List.append_assoc, List.cons_append, split_append_space hd, hrest]

theorem split_spaces_append (hw : ∀ d ∈ w, isSpace d) :
    split (w ++ t) = split t := by
  by_cases hnil : w = []
  · rw [hnil, List.nil_append]
  · exact @split_append_spaces [] t w hw hnil

theorem split_append_of_spaces (hw : ∀ d ∈ w, isSpace d) :
    split (s ++ w) = split s := by
  by_cases hnil : w = []
  · rw [hnil, List.append_nil]
  · have happend := @split_append_spaces s [] w hw hnil
    rwa [List.append_nil, split_nil, List.append_nil] at happend

theorem split_cons_ne_nil (hch : ¬isSpace ch) : split (ch :: t) ≠ [] := by
  obtain ⟨first, rest, hpieces⟩ :=
    List.exists_cons_of_ne_nil (List.splitOnP_ne_nil isSpace t)
  rw [split, List.splitOnP_cons_eq_if_modifyHead, if_neg hch, hpieces,
    List.modifyHead_cons, List.filter_cons_of_pos (by simp)]
  exact List.cons_ne_nil _ _

/-- What is left after stripping has a word. -/
theorem split_strip_ne_nil (h : strip t ≠ []) : split (strip t) ≠ [] := by
  have hhead := stripBy_head h
  rw [← List.cons_head_tail h]
  exact split_cons_ne_nil hhead

/-- What is rewritten letter by letter may be stripped before. -/
theorem split_flatMap_strip {k : Char → Str}
    (hk : ∀ c, isSpace c → ∀ d ∈ k c, isSpace d) (t : Str) :
    split ((strip t).flatMap k) = split (t.flatMap k) := by
  have hspaces : ∀ {run : Str}, (∀ c ∈ run, isSpace c) →
      ∀ d ∈ run.flatMap k, isSpace d := by
    intro run hrun d hd
    obtain ⟨c, hc, hd⟩ := List.mem_flatMap.mp hd
    exact hk c (hrun c hc) d hd
  have hfront : t.takeWhile isSpace ++ lstripBy isSpace t = t :=
    List.takeWhile_append_dropWhile
  have hback : strip t ++ (lstripBy isSpace t).rtakeWhile isSpace =
      lstripBy isSpace t := List.rdropWhile_append_rtakeWhile
  conv_rhs => rw [← hfront, List.flatMap_append]
  rw [split_spaces_append (hspaces fun c hc => List.mem_takeWhile_imp hc)]
  conv_rhs => rw [← hback, List.flatMap_append]
  rw [split_append_of_spaces (hspaces fun c hc => List.mem_rtakeWhile_imp hc)]

theorem split_strip (t : Str) : split (strip t) = split t := by
  have hsingle := @split_flatMap_strip (fun c => [c])
    (fun c hc d hd => by rwa [List.mem_singleton.mp hd]) t
  rwa [List.flatMap_singleton', List.flatMap_singleton'] at hsingle

/-- Splitting and rewriting commute when white space is kept apart. -/
theorem split_map {f : Char → Char} (hf : ∀ c, isSpace (f c) = isSpace c)
    (t : Str) : split (t.map f) = (split t).map (List.map f) := by
  have hpieces : (t.map f).splitOnP isSpace =
      (t.splitOnP isSpace).map (List.map f) := by
    induction t with
    | nil => rfl
    | cons c t ih =>
        rw [List.map_cons, List.splitOnP_cons_eq_if_modifyHead,
          List.splitOnP_cons_eq_if_modifyHead, hf, ih]
        split
        · rfl
        · cases t.splitOnP isSpace with
          | nil => rfl
          | cons first rest => rfl
  rw [split, split, hpieces, List.filter_map]
  congr 2
  funext piece
  simp

/-! ## Substituted runs -/

/-- Runs of a class that are replaced by one space separate words as the blanked
characters do. -/
theorem split_subConst {f : Char → Char} (hrun : ∀ c, p c → isSpace (f c))
    (hkeep : ∀ c, ¬p c → f c = c) (t : Str) :
    split ((Regex.plus (.cls p)).subConst [' '] t) = split (t.map f) := by
  -- the induction carries what stands before the rest of the text
  suffices h : ∀ s, split (s ++ (Regex.plus (.cls p)).subConst [' '] t) =
      split (s ++ t.map f) from h []
  induction t using run_induction p with
  | hnil =>
      intro s
      rw [subConst_plus_nil, List.map_nil]
  | hrun ch t hch ih =>
      intro s
      have hspaces : ∀ d ∈ (t.takeWhile p).map f, isSpace d := by
        intro d hd
        obtain ⟨c, hc, rfl⟩ := List.mem_map.mp hd
        exact hrun c (List.mem_takeWhile_imp hc)
      have hrest : split (t.map f) = split ((t.dropWhile p).map f) := by
        conv_lhs => rw [← List.takeWhile_append_dropWhile (p := p) (l := t),
          List.map_append]
        exact split_spaces_append hspaces
      rw [subConst_plus_cons hch, List.singleton_append,
        split_append_space (by decide), List.map_cons,
        split_append_space (hrun ch hch), hrest]
      exact congrArg _ (ih [])
  | hcons ch t hch ih =>
      intro s
      have hmoved := ih (s ++ [ch])
      rw [List.append_assoc, List.append_assoc] at hmoved
      rw [subConst_plus_cons_of_neg hch, List.map_cons, hkeep ch hch]
      exact hmoved

theorem split_collapseSpaces (t : Str) :
    split (collapseSpaces t) = split t := by
  have hsame := @split_subConst isSpace id (fun _ hc => hc) (fun _ _ => rfl) t
  rwa [List.map_id] at hsame

/-! ## Words between separators -/

/-- The parts of a text between characters of a class. -/
def wordsBy (sep : Char → Bool) (t : Str) : List Str :=
  (t.splitOnP sep).filter (· ≠ [])

/-- A text is rewritten word by word if its separators become white space. -/
theorem split_flatMap {k : Char → Str}
    (hk : ∀ c, sep c → k c ≠ [] ∧ ∀ d ∈ k c, isSpace d) (t : Str) :
    split (t.flatMap k) = (wordsBy sep t).flatMap fun w => split (w.flatMap k) := by
  have hskip : ∀ pieces : List Str,
      ((pieces.filter (· ≠ [])).flatMap fun w => split (w.flatMap k)) =
        pieces.flatMap fun w => split (w.flatMap k) := by
    intro pieces
    induction pieces with
    | nil => rfl
    | cons w pieces ih =>
        cases w with
        | nil => simpa using ih
        | cons c w => simpa using ih
  rw [wordsBy, hskip]
  -- the induction carries the part that has been read since a separator
  suffices h : ∀ w : Str, (∀ c ∈ w, sep c = false) →
      split (w.flatMap k ++ t.flatMap k) =
        ((w ++ t).splitOnP sep).flatMap fun w => split (w.flatMap k) from
    h [] fun _ hc => absurd hc List.not_mem_nil
  induction t with
  | nil =>
      intro w hw
      rw [List.append_nil, List.flatMap_nil, List.append_nil,
        List.splitOnP_eq_singleton hw, List.flatMap_singleton]
  | cons c t ih =>
      intro w hw
      by_cases hc : sep c
      · obtain ⟨hne, hspaces⟩ := hk c hc
        have hrest := ih [] fun _ hd => absurd hd List.not_mem_nil
        rw [List.flatMap_nil, List.nil_append, List.nil_append] at hrest
        rw [List.splitOnP_append_cons_of_forall_mem hw c hc,
          List.flatMap_cons, List.flatMap_cons, ← List.append_assoc,
          split_append_spaces hspaces hne, hrest]
      · have hword : ∀ d ∈ w ++ [c], sep d = false := by
          intro d hd
          rcases List.mem_append.mp hd with hd | hd
          · exact hw d hd
          · rw [List.mem_singleton.mp hd]
            exact eq_false_of_ne_true hc
        have hmoved := ih (w ++ [c]) hword
        rw [List.flatMap_append, List.append_assoc, List.append_assoc] at hmoved
        rw [List.flatMap_cons]
        simpa using hmoved

end Text
