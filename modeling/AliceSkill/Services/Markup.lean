import AliceSkill.Services.Envelope

/-!
# Marks of formatting

Each kind of formatting is taken out by one pass from left to right.  Code spans
and bare links do not come back: what the later passes put in keeps apart what it
stands between.  Links with a label can come back, out of labels that have an
opening bracket in them; without such labels they do not.

How far a text is from containing a construct is read off from its end, and a
pass does not take the reader further.
-/

namespace AliceSkill

open Text

/-- A link with a label and a target occurs in the text. -/
def HasLink (t : Str) : Prop :=
  ∃ label target, label ≠ [] ∧ target ≠ [] ∧ linkOf label target <:+: t

/-- Two backticks with something between them occur in the text. -/
def HasSpan (t : Str) : Prop :=
  ∃ content, content ≠ [] ∧ '`' :: (content ++ ['`']) <:+: t

/-- A scheme with a character behind it that is no white space occurs in the
text. -/
def HasUrl (t : Str) : Prop :=
  ∃ scheme ∈ schemes, ∃ ch, ¬isSpace ch ∧ scheme ++ [ch] <:+: t

theorem HasLink.mono {t u : Str} (h : HasLink u) (hu : u <:+: t) : HasLink t := by
  obtain ⟨label, target, hlabel, htarget, hhere⟩ := h
  exact ⟨label, target, hlabel, htarget, hhere.trans hu⟩

theorem HasSpan.mono {t u : Str} (h : HasSpan u) (hu : u <:+: t) : HasSpan t := by
  obtain ⟨content, hne, hhere⟩ := h
  exact ⟨content, hne, hhere.trans hu⟩

theorem HasUrl.mono {t u : Str} (h : HasUrl u) (hu : u <:+: t) : HasUrl t := by
  obtain ⟨scheme, hscheme, ch, hch, hhere⟩ := h
  exact ⟨scheme, hscheme, ch, hch, hhere.trans hu⟩

/-! ## Code spans -/

/-- From the end: a backtick, a character before it, a backtick before that. -/
def spanStep (ch : Char) (s : ℕ) : ℕ :=
  if ch = '`' then if s < 3 then s + 1 else s
  else if s = 1 then 2 else s

/-- How far a text is from containing a span. -/
def spanState (t : Str) : ℕ := t.foldr spanStep 0

theorem spanStep_monotone (ch : Char) : Monotone (spanStep ch) := by
  intro a b hab
  simp only [spanStep]
  split_ifs <;> omega

theorem le_spanStep (ch : Char) (s : ℕ) : s ≤ spanStep ch s := by
  rw [spanStep]
  split_ifs <;> omega

theorem le_foldr_spanStep (u : Str) (s : ℕ) : s ≤ u.foldr spanStep s := by
  induction u with
  | nil => exact Nat.le_refl s
  | cons ch u ih => exact ih.trans (le_spanStep ch _)

/-- A character is put before what has been read. -/
theorem two_le_spanStep {ch : Char} {s : ℕ} (h : 1 ≤ s) : 2 ≤ spanStep ch s := by
  rw [spanStep]
  split_ifs <;> omega

theorem two_le_foldr_spanStep {u : Str} (hne : u ≠ []) {s : ℕ} (h : 1 ≤ s) :
    2 ≤ u.foldr spanStep s := by
  cases u with
  | nil => exact absurd rfl hne
  | cons ch u => exact two_le_spanStep (h.trans (le_foldr_spanStep u s))

theorem one_le_spanState {t : Str} : 1 ≤ spanState t ↔ '`' ∈ t := by
  induction t with
  | nil => simp [spanState]
  | cons ch t ih =>
      have hstep : spanState (ch :: t) = spanStep ch (spanState t) := rfl
      rw [hstep, List.mem_cons, ← ih, spanStep]
      by_cases hch : ch = '`'
      · simp only [hch, if_true, true_or, iff_true]
        split_ifs <;> omega
      · have hch' : '`' ≠ ch := Ne.symm hch
        simp only [hch, hch', if_false, false_or]
        split_ifs <;> omega

/-- What the second state means: a backtick, not at the beginning. -/
theorem exists_of_two_le_spanState {t : Str} (h : 2 ≤ spanState t) :
    ∃ content, content ≠ [] ∧ content ++ ['`'] <+: t := by
  cases t with
  | nil => cases h
  | cons ch t =>
      have hmem : '`' ∈ t := by
        rw [← one_le_spanState]
        by_contra hzero
        have hstep : spanState (ch :: t) = spanStep ch (spanState t) := rfl
        rw [hstep, spanStep] at h
        split_ifs at h <;> omega
      obtain ⟨x, y, rfl⟩ := List.append_of_mem hmem
      exact ⟨ch :: x, List.cons_ne_nil ch x, y, by simp⟩

theorem three_le_spanState {t : Str} (h : HasSpan t) : 3 ≤ spanState t := by
  obtain ⟨content, hne, a, b, rfl⟩ := h
  have hlast : 1 ≤ spanState ('`' :: b) := one_le_spanState.mpr List.mem_cons_self
  have hcontent : 2 ≤ content.foldr spanStep (spanState ('`' :: b)) :=
    two_le_foldr_spanStep hne hlast
  have hfirst : 3 ≤ spanStep '`' (content.foldr spanStep (spanState ('`' :: b))) := by
    rw [spanStep, if_pos rfl]
    split_ifs <;> omega
  have hsplit : a ++ '`' :: (content ++ ['`']) ++ b =
      a ++ ('`' :: (content ++ ('`' :: b))) := by simp
  rw [hsplit, spanState, List.foldr_append, List.foldr_cons, List.foldr_append]
  exact hfirst.trans (le_foldr_spanStep a _)

/-- What has no backtick takes the reader no further than any other text. -/
theorem foldr_spanStep_le {repl u : Str} (hrepl : '`' ∉ repl) (hne : u ≠ []) (s : ℕ) :
    repl.foldr spanStep s ≤ u.foldr spanStep s := by
  have hfree : repl.foldr spanStep s ≤ if s = 1 then 2 else s := by
    induction repl with
    | nil =>
        rw [List.foldr_nil]
        split_ifs <;> omega
    | cons ch repl ih =>
        have hch : ch ≠ '`' := fun heq => hrepl (heq ▸ List.mem_cons_self)
        have hrest := ih fun hmem => hrepl (List.mem_cons_of_mem ch hmem)
        rw [List.foldr_cons, spanStep, if_neg hch]
        split_ifs at hrest ⊢ <;> omega
  apply hfree.trans
  split_ifs with hs
  · exact two_le_foldr_spanStep hne (by omega)
  · exact le_foldr_spanStep u s

/-- After their pass there are no spans. -/
theorem spanState_codeSpan (t : Str) (hline : '\n' ∉ t) :
    spanState (codeSpan.subConst [] t) < 3 := by
  have hgo : '\n' ∉ t → spanState (codeSpan.subConst [] t) ≤ spanState t ∧
      spanState (codeSpan.subConst [] t) < 3 := by
    refine Regex.sub_induction (P := fun t out => '\n' ∉ t →
      spanState out ≤ spanState t ∧ spanState out < 3) ?_ ?_ ?_ t
    · exact fun _ => ⟨Nat.le_refl _, by decide⟩
    · intro before ch rest out hnone hout hline
      obtain ⟨hle, hlt⟩ := hout fun h => hline (List.mem_cons_of_mem ch h)
      refine ⟨spanStep_monotone ch hle, ?_⟩
      show spanStep ch (spanState out) < 3
      by_cases hch : ch = '`'
      · -- a span would begin here if another backtick followed
        have hfew : spanState rest < 2 := by
          by_contra hmany
          obtain ⟨content, hne, hleads⟩ :=
            exists_of_two_le_spanState (Nat.le_of_not_lt hmany)
          have hword : '`' :: (content ++ ['`']) ∈ codeSpan.language := by
            apply mem_codeSpan hne
            rintro d hd rfl
            exact hline (List.mem_cons_of_mem ch
              (hleads.subset (List.mem_append_left _ hd)))
          refine Regex.not_prefix_of_matchAt rfl ?_ hnone hword ?_
          · intro hempty
            cases getLast?_codeSpan hempty
          · rw [hch]
            exact List.cons_prefix_cons.mpr ⟨rfl, hleads⟩
        rw [spanStep, if_pos hch, if_pos hlt]
        omega
      · rw [spanStep, if_neg hch]
        split_ifs <;> omega
    · intro before after d out hmatch hout hline
      obtain ⟨u, -, -, rfl⟩ := Regex.exists_word_of_matchAt hmatch
      obtain ⟨hle, hlt⟩ := hout fun h => hline (List.mem_append_right u h)
      have hmore : spanState d.after ≤ spanState (u ++ d.after) := by
        rw [spanState, spanState, List.foldr_append]
        exact le_foldr_spanStep u _
      exact ⟨hle.trans hmore, hlt⟩
  exact (hgo hline).2

theorem spanState_markdownLink (t : Str) :
    spanState (markdownLink.sub (·.group 1) t) ≤ spanState t := by
  apply Regex.foldr_sub_le spanStep_monotone
  intro before after d hmatch
  obtain ⟨a, -, b, -, -, htaken⟩ :=
    Regex.exists_word_of_capture rfl (Regex.ends_of_matchAt hmatch).1
  refine ⟨a ++ (d.group 1 ++ b), ?_, fun s => ?_⟩
  · rw [List.append_assoc, List.append_assoc]
    exact htaken
  · rw [List.foldr_append, List.foldr_append]
    exact (Regex.foldr_monotone spanStep_monotone _ (le_foldr_spanStep b s)).trans
      (le_foldr_spanStep a _)

theorem spanState_subConst {repl : Str} (hrepl : '`' ∉ repl) (r : Regex) (t : Str) :
    spanState (r.subConst repl t) ≤ spanState t :=
  Regex.foldr_subConst_le spanStep_monotone
    (fun _ hne s => foldr_spanStep_le hrepl hne s) 0 t

/-! ## Links with a label -/

/-- Any character before what has been read. -/
def plainStep (s : ℕ) : ℕ :=
  if s = 1 ∨ s = 3 then 2 else if s = 4 then 5 else s

/-- From the end: the bracket that closes the target, a target, the bracket that
opens it, the bracket that closes the label, a label, the bracket that opens it. -/
def linkStep (ch : Char) (s : ℕ) : ℕ :=
  if ch = '(' then if s = 2 ∨ s = 3 then 3 else plainStep s
  else if ch = ']' then if s = 3 then 4 else plainStep s
  else if ch = ')' then if s = 0 then 1 else plainStep s
  else if ch = '[' then if s = 5 then 6 else plainStep s
  else plainStep s

/-- How far a text is from containing a link. -/
def linkState (t : Str) : ℕ := t.foldr linkStep 0

theorem linkStep_monotone (ch : Char) : Monotone (linkStep ch) := by
  intro a b hab
  simp only [linkStep, plainStep]
  split_ifs <;> omega

theorem plainStep_le_linkStep (ch : Char) (s : ℕ) : plainStep s ≤ linkStep ch s := by
  simp only [linkStep, plainStep]
  split_ifs <;> omega

/-- Only a closing bracket goes on from the third state. -/
theorem linkStep_lt {ch : Char} {s : ℕ} (h : s < 4) (hnot : ¬(ch = ']' ∧ s = 3)) :
    linkStep ch s < 4 := by
  by_cases hch : ch = ']'
  · have hs : s ≠ 3 := fun heq => hnot ⟨hch, heq⟩
    rw [linkStep, hch, if_neg (by decide), if_pos rfl, if_neg hs, plainStep]
    split_ifs <;> omega
  · simp only [linkStep, hch, if_false, plainStep]
    split_ifs <;> omega

theorem linkState_cons (ch : Char) (t : Str) :
    linkState (ch :: t) = linkStep ch (linkState t) := rfl

/-! ### What the states mean -/

theorem mem_of_linkState {t : Str} (h : 1 ≤ linkState t) : ')' ∈ t := by
  induction t with
  | nil => cases h
  | cons ch t ih =>
      by_cases hch : ch = ')'
      · rw [hch]
        exact List.mem_cons_self
      · apply List.mem_cons_of_mem
        apply ih
        rw [linkState_cons] at h
        simp only [linkStep, plainStep] at h
        split_ifs at h <;> omega

theorem exists_target {t : Str} (h : 2 ≤ linkState t) :
    ∃ target, target ≠ [] ∧ target ++ [')'] <+: t := by
  cases t with
  | nil => cases h
  | cons ch t =>
      have hmem : ')' ∈ t := by
        apply mem_of_linkState
        rw [linkState_cons] at h
        simp only [linkStep, plainStep] at h
        split_ifs at h <;> omega
      obtain ⟨x, y, rfl⟩ := List.append_of_mem hmem
      exact ⟨ch :: x, List.cons_ne_nil ch x, y, by simp⟩

theorem exists_opening {t : Str} (h : linkState t = 3) :
    ∃ rest, t = '(' :: rest ∧ 2 ≤ linkState rest := by
  cases t with
  | nil => cases h
  | cons ch t =>
      rw [linkState_cons] at h
      by_cases hch : ch = '('
      · refine ⟨t, by rw [hch], ?_⟩
        rw [linkStep, if_pos hch, plainStep] at h
        split_ifs at h <;> omega
      · exfalso
        rw [linkStep, if_neg hch, plainStep] at h
        split_ifs at h <;> omega

theorem exists_middle {t : Str} (h : 4 ≤ linkState t) :
    ∃ before rest, t = before ++ ("](".toList ++ rest) ∧ 2 ≤ linkState rest := by
  induction t with
  | nil => cases h
  | cons ch t ih =>
      by_cases hmore : 4 ≤ linkState t
      · obtain ⟨before, rest, rfl, hrest⟩ := ih hmore
        exact ⟨ch :: before, rest, rfl, hrest⟩
      · rw [linkState_cons] at h
        have hclosing : ch = ']' ∧ linkState t = 3 := by
          by_contra hnot
          exact absurd h (Nat.not_le_of_gt (linkStep_lt (by omega) hnot))
        obtain ⟨rest, rfl, hrest⟩ := exists_opening hclosing.2
        exact ⟨[], rest, by rw [hclosing.1]; rfl, hrest⟩

/-- What the fifth state means: a link would begin with an opening bracket. -/
theorem exists_link {t : Str} (h : 5 ≤ linkState t) : ∃ label target, label ≠ [] ∧
    target ≠ [] ∧ linkOf label target <+: '[' :: t := by
  cases t with
  | nil => cases h
  | cons ch t =>
      have hmiddle : 4 ≤ linkState t := by
        rw [linkState_cons] at h
        simp only [linkStep, plainStep] at h
        split_ifs at h <;> omega
      obtain ⟨before, rest, rfl, hrest⟩ := exists_middle hmiddle
      obtain ⟨target, htarget, y, rfl⟩ := exists_target hrest
      refine ⟨ch :: before, target, List.cons_ne_nil ch before, htarget, y, ?_⟩
      simp [linkOf]

/-- Every state but the third is kept by what comes before. -/
theorem le_foldr_linkStep {k s : ℕ} (hk : k ≠ 3) (hs : k ≤ s) (u : Str) :
    k ≤ u.foldr linkStep s := by
  induction u with
  | nil => exact hs
  | cons ch u ih =>
      have hle := plainStep_le_linkStep ch (u.foldr linkStep s)
      rw [List.foldr_cons]
      rw [plainStep] at hle
      split_ifs at hle <;> omega

/-- Something before what has been read makes a target or a label. -/
theorem lt_foldr_linkStep {k s : ℕ} (hk : k = 1 ∨ k = 4) (hs : k ≤ s) {u : Str}
    (hne : u ≠ []) : k < u.foldr linkStep s := by
  cases u with
  | nil => exact absurd rfl hne
  | cons ch u =>
      have hrest := le_foldr_linkStep (by omega) hs u
      have hle := plainStep_le_linkStep ch (u.foldr linkStep s)
      rw [List.foldr_cons]
      rw [plainStep] at hle
      split_ifs at hle <;> omega

theorem bracket_steps (s : ℕ) : 1 ≤ linkStep ')' s ∧
    (2 ≤ s → 3 ≤ linkStep '(' s) ∧ (3 ≤ s → 4 ≤ linkStep ']' s) ∧
      (5 ≤ s → 6 ≤ linkStep '[' s) := by
  have hclose : linkStep ')' s = if s = 0 then 1 else plainStep s := rfl
  have hopen : linkStep '(' s = if s = 2 ∨ s = 3 then 3 else plainStep s := rfl
  have hend : linkStep ']' s = if s = 3 then 4 else plainStep s := rfl
  have hbegin : linkStep '[' s = if s = 5 then 6 else plainStep s := rfl
  rw [hclose, hopen, hend, hbegin, plainStep]
  refine ⟨?_, ?_, ?_, ?_⟩
  · split_ifs <;> omega
  · split_ifs <;> omega
  · split_ifs <;> omega
  · split_ifs <;> omega

theorem six_le_linkState {t : Str} (h : HasLink t) : 6 ≤ linkState t := by
  obtain ⟨label, target, hlabel, htarget, a, b, rfl⟩ := h
  have hsplit : a ++ linkOf label target ++ b =
      a ++ ('[' :: (label ++ (']' :: ('(' :: (target ++ (')' :: b)))))) := by
    simp [linkOf]
  have hclose : 1 ≤ linkState (')' :: b) := (bracket_steps _).1
  have hbehind : 1 < target.foldr linkStep (linkState (')' :: b)) :=
    lt_foldr_linkStep (Or.inl rfl) hclose htarget
  have hopen := (bracket_steps _).2.1 hbehind
  have hend := (bracket_steps _).2.2.1 hopen
  have hfront := lt_foldr_linkStep (Or.inr rfl) hend hlabel
  have hbegin := (bracket_steps _).2.2.2 hfront
  rw [hsplit, linkState, List.foldr_append, List.foldr_cons, List.foldr_append,
    List.foldr_cons, List.foldr_cons, List.foldr_append]
  exact le_foldr_linkStep (by decide) hbegin a

/-! ### The pass and what comes after it -/

/-- The text in which links are looked for. -/
def linkSubject (text : Str) : Str :=
  codeSpan.subConst [] (remove '*' (removePairs '*' (strip (collapseSpaces text))))

/-- The text in which every link that is found has been replaced by its label. -/
def labelsOnly (text : Str) : Str := markdownLink.sub (·.group 1) (linkSubject text)

/-- No label of a link that is found has an opening bracket in it. -/
def FlatLabels (text : Str) : Prop :=
  ∀ d ∈ markdownLink.finditer (linkSubject text), '[' ∉ d.group 1

instance (text : Str) : Decidable (FlatLabels text) := by
  unfold FlatLabels
  infer_instance

theorem linkStep_lt_six {ch : Char} {s : ℕ} (h : s < 6) (hch : ch ≠ '[') :
    linkStep ch s < 6 := by
  simp only [linkStep, hch, if_false, plainStep]
  split_ifs <;> omega

theorem hasLink_of_six_le {t : Str} (h : 6 ≤ linkState t) : HasLink t := by
  induction t with
  | nil => cases h
  | cons ch t ih =>
      by_cases hlater : 6 ≤ linkState t
      · exact (ih hlater).mono (List.suffix_cons ch t).isInfix
      · have hch : ch = '[' := by
          by_contra hch
          have hlt := linkStep_lt_six (Nat.lt_of_not_le hlater) hch
          exact Nat.not_le_of_gt hlt h
        have hfive : 5 ≤ linkState t := by
          rw [linkState_cons, hch] at h
          simp only [linkStep, plainStep] at h
          split_ifs at h <;> omega
        obtain ⟨label, target, hlabel, htarget, hleads⟩ := exists_link hfive
        rw [hch]
        exact ⟨label, target, hlabel, htarget, hleads.isInfix⟩

theorem foldr_linkStep_lt_six {u : Str} (hu : '[' ∉ u) {s : ℕ} (h : s < 6) :
    u.foldr linkStep s < 6 := by
  induction u with
  | nil => exact h
  | cons ch u ih =>
      have hch : ch ≠ '[' := fun heq => hu (heq ▸ List.mem_cons_self)
      exact linkStep_lt_six (ih fun hmem => hu (List.mem_cons_of_mem ch hmem)) hch

/-- Where no link is found at an opening bracket, none begins there. -/
theorem linkState_lt_of_not_matched {before rest : Str} (hline : '\n' ∉ '[' :: rest)
    (hnone : markdownLink.matchAt before ('[' :: rest) = none) : linkState rest < 5 := by
  by_contra hmany
  obtain ⟨label, target, hlabel, htarget, hleads⟩ :=
    exists_link (Nat.le_of_not_lt hmany)
  have hplain : ∀ d ∈ linkOf label target, d ≠ '\n' := by
    rintro d hd rfl
    exact hline (hleads.subset hd)
  have hword : linkOf label target ∈ markdownLink.language :=
    mem_markdownLink.mpr ⟨label, target,
      ⟨hlabel, fun d hd => hplain d (by simp [linkOf, hd])⟩,
      ⟨htarget, fun d hd => hplain d (by simp [linkOf, hd])⟩, rfl⟩
  refine Regex.not_prefix_of_matchAt rfl ?_ hnone hword hleads
  intro hempty
  cases getLast?_markdownLink hempty

/-- After their pass there are no links, if the labels have no opening brackets. -/
theorem linkState_markdownLink {t : Str} (hline : '\n' ∉ t)
    (hflat : ∀ d ∈ markdownLink.finditer t, '[' ∉ d.group 1) :
    linkState (markdownLink.sub (·.group 1) t) < 6 := by
  -- the labels that do not occur may be replaced by anything
  let label (d : Cursor) : Str := if '[' ∈ d.group 1 then [] else d.group 1
  have hlabel : ∀ d, '[' ∉ label d := by
    intro d
    show '[' ∉ if '[' ∈ d.group 1 then [] else d.group 1
    split_ifs with hmem
    · exact List.not_mem_nil
    · exact hmem
  have hsame : markdownLink.sub (·.group 1) t = markdownLink.sub label t :=
    Regex.sub_congr fun d hd => (if_neg (hflat d hd)).symm
  have hgo : '\n' ∉ t → linkState (markdownLink.sub label t) ≤ linkState t ∧
      linkState (markdownLink.sub label t) < 6 := by
    refine Regex.sub_induction (P := fun t out => '\n' ∉ t →
      linkState out ≤ linkState t ∧ linkState out < 6) ?_ ?_ ?_ t
    · exact fun _ => ⟨Nat.le_refl _, by decide⟩
    · intro before ch rest out hnone hout hline
      obtain ⟨hle, hlt⟩ := hout fun h => hline (List.mem_cons_of_mem ch h)
      refine ⟨linkStep_monotone ch hle, ?_⟩
      show linkStep ch (linkState out) < 6
      by_cases hch : ch = '['
      · rw [hch] at hline hnone
        have hfew := linkState_lt_of_not_matched hline hnone
        have hstep : linkStep ch (linkState out) =
            if linkState out = 5 then 6 else plainStep (linkState out) := by
          rw [hch]
          rfl
        rw [hstep, plainStep]
        split_ifs <;> omega
      · exact linkStep_lt_six hlt hch
    · intro before after d out hmatch hout hline
      obtain ⟨u, hu, -, rfl⟩ := Regex.exists_word_of_matchAt hmatch
      obtain ⟨name, target, hname, htarget, rfl⟩ := mem_markdownLink.mp hu
      obtain ⟨-, hlt⟩ := hout fun h => hline (List.mem_append_right _ h)
      have hfull : 6 ≤ linkState (linkOf name target ++ d.after) :=
        six_le_linkState ⟨name, target, hname.1, htarget.1,
          (List.prefix_append _ _).isInfix⟩
      have hkept : linkState (label d ++ out) < 6 := by
        rw [linkState, List.foldr_append]
        exact foldr_linkStep_lt_six (hlabel d) hlt
      exact ⟨by omega, hkept⟩
  rw [hsame]
  exact (hgo hline).2

theorem plainStep_monotone : Monotone plainStep := by
  intro a b hab
  simp only [plainStep]
  split_ifs <;> omega

theorem plainStep_plainStep (s : ℕ) : plainStep (plainStep s) = plainStep s := by
  simp only [plainStep]
  split_ifs <;> omega

theorem linkStep_plain {ch : Char} (hch : ¬oneOf "[]()" ch) (s : ℕ) :
    linkStep ch s = plainStep s := by
  have hne : ch ≠ '[' ∧ ch ≠ ']' ∧ ch ≠ '(' ∧ ch ≠ ')' := by simpa [oneOf] using hch
  rw [linkStep, if_neg hne.2.2.1, if_neg hne.2.1, if_neg hne.2.2.2, if_neg hne.1]

/-- What has no brackets keeps apart what it stands between. -/
theorem foldr_linkStep_le {repl u : Str} (hrepl : ∀ ch ∈ repl, ¬oneOf "[]()" ch)
    (hsome : repl ≠ []) (hne : u ≠ []) (s : ℕ) :
    repl.foldr linkStep s ≤ u.foldr linkStep s := by
  have hplain : repl.foldr linkStep s = plainStep s := by
    induction repl with
    | nil => exact absurd rfl hsome
    | cons ch repl ih =>
        rw [List.foldr_cons, linkStep_plain (hrepl ch List.mem_cons_self)]
        cases repl with
        | nil => rfl
        | cons d repl =>
            rw [ih (fun e he => hrepl e (List.mem_cons_of_mem ch he))
              (List.cons_ne_nil d repl), plainStep_plainStep]
  have hleast : ∀ v : Str, v ≠ [] → plainStep s ≤ v.foldr linkStep s := by
    intro v hv
    induction v with
    | nil => exact absurd rfl hv
    | cons ch v ih =>
        rw [List.foldr_cons]
        cases v with
        | nil => exact plainStep_le_linkStep ch s
        | cons d v =>
            have hrest := plainStep_monotone (ih (List.cons_ne_nil d v))
            rw [plainStep_plainStep] at hrest
            exact hrest.trans (plainStep_le_linkStep ch _)
  rw [hplain]
  exact hleast u hne

theorem linkState_subConst {repl : Str} (hrepl : ∀ ch ∈ repl, ¬oneOf "[]()" ch)
    (hsome : repl ≠ []) (r : Regex) (t : Str) : linkState (r.subConst repl t) ≤ linkState t := by
  apply Regex.foldr_subConst_le linkStep_monotone
  intro u hne s
  exact foldr_linkStep_le hrepl hsome hne s

/-- A bullet that becomes a space changes nothing to either reader. -/
theorem states_replaceChar (t : Str) :
    spanState (replaceChar '•' ' ' t) = spanState t ∧
      linkState (replaceChar '•' ' ' t) = linkState t := by
  induction t with
  | nil => exact ⟨rfl, rfl⟩
  | cons ch t ih =>
      have hspan : ∀ s, spanStep (if ch = '•' then ' ' else ch) s = spanStep ch s := by
        intro s
        split_ifs with hch
        · rw [hch]
          rfl
        · rfl
      have hlink : ∀ s, linkStep (if ch = '•' then ' ' else ch) s = linkStep ch s := by
        intro s
        split_ifs with hch
        · rw [hch, linkStep_plain (by decide), linkStep_plain (by decide)]
        · rfl
      constructor
      · exact (hspan _).trans (congrArg (spanStep ch) ih.1)
      · exact (hlink _).trans (congrArg (linkStep ch) ih.2)

/-! ## Links without a label -/

/-- What a scheme is made of. -/
def schemeChars : String := "htps:/"

/-- A scheme with a character behind it begins in the rewritten text only where
one begins in the text. -/
def Lifts (t out : Str) : Prop :=
  ∀ w ch, (∀ d ∈ w, oneOf schemeChars d) → ¬isSpace ch → w ++ [ch] <+: out →
    ∃ ch', ¬isSpace ch' ∧ w ++ [ch'] <+: t

theorem lifts_cons {t out : Str} (h : Lifts t out) (e : Char) :
    Lifts (e :: t) (e :: out) := by
  intro w ch hw hch hleads
  cases w with
  | nil =>
      rw [List.nil_append, List.cons_prefix_cons] at hleads
      refine ⟨ch, hch, ?_⟩
      rw [List.nil_append, hleads.1]
      exact List.prefix_append [e] t
  | cons d w =>
      rw [List.cons_append, List.cons_prefix_cons] at hleads
      obtain ⟨ch', hch', hrest⟩ :=
        h w ch (fun x hx => hw x (List.mem_cons_of_mem d hx)) hch hleads.2
      exact ⟨ch', hch', List.cons_prefix_cons.mpr ⟨hleads.1, hrest⟩⟩

/-- No scheme begins in a replacement, and if it does not begin with white space
neither does what it replaces. -/
theorem lifts_append {u rest out : Str} {a : Char} {repl : Str}
    (ha : ¬oneOf schemeChars a) (hu : ∀ d ∈ u.head?, ¬isSpace a → ¬isSpace d)
    (hne : u ≠ []) : Lifts (u ++ rest) (a :: repl ++ out) := by
  intro w ch hw hch hleads
  cases w with
  | nil =>
      rw [List.nil_append, List.cons_append, List.cons_prefix_cons] at hleads
      obtain ⟨d, u, rfl⟩ := List.exists_cons_of_ne_nil hne
      have hd : ¬isSpace d := hu d rfl (hleads.1 ▸ hch)
      exact ⟨d, hd, List.prefix_append [d] (u ++ rest)⟩
  | cons d w =>
      rw [List.cons_append, List.cons_append, List.cons_prefix_cons] at hleads
      exact absurd (hleads.1 ▸ hw d List.mem_cons_self) ha

theorem hasUrl_cons {ch : Char} {t : Str} : HasUrl (ch :: t) ↔
    (∃ scheme ∈ schemes, ∃ d, ¬isSpace d ∧ scheme ++ [d] <+: ch :: t) ∨ HasUrl t := by
  constructor
  · rintro ⟨scheme, hscheme, d, hd, hhere⟩
    rcases List.infix_cons_iff.mp hhere with hfirst | hlater
    · exact Or.inl ⟨scheme, hscheme, d, hd, hfirst⟩
    · exact Or.inr ⟨scheme, hscheme, d, hd, hlater⟩
  · rintro (⟨scheme, hscheme, d, hd, hfirst⟩ | hlater)
    · exact ⟨scheme, hscheme, d, hd, hfirst.isInfix⟩
    · exact hlater.mono (List.suffix_cons ch t).isInfix

theorem scheme_chars {scheme : Str} (h : scheme ∈ schemes) :
    ∀ d ∈ scheme, oneOf schemeChars d := by
  have hall : ∀ scheme ∈ schemes, scheme.all (oneOf schemeChars) = true := by decide
  exact fun d hd => List.all_eq_true.mp (hall scheme h) d hd

/-- A link does not begin in a text without the first letter of a scheme. -/
theorem hasUrl_append {u t : Str} (hu : 'h' ∉ u) (h : HasUrl (u ++ t)) : HasUrl t := by
  induction u with
  | nil => exact h
  | cons ch u ih =>
      have hrest := ih fun hmem => hu (List.mem_cons_of_mem ch hmem)
      rcases hasUrl_cons.mp h with ⟨scheme, hscheme, d, -, hfirst⟩ | hlater
      · obtain ⟨front, rfl⟩ := scheme_head hscheme
        rw [List.cons_append, List.cons_prefix_cons] at hfirst
        exact absurd (hfirst.1 ▸ List.mem_cons_self) hu
      · exact hrest hlater

section Passes

variable {r : Regex} {a : Char} {repl : Str}

/-- A pass whose replacements begin no scheme brings back no link. -/
theorem hasUrl_subConst (ha : ¬oneOf schemeChars a) (hh : 'h' ∉ a :: repl)
    (hword : ∀ u ∈ r.language, ∀ d ∈ u.head?, ¬isSpace a → ¬isSpace d) (t : Str) :
    HasUrl (r.subConst (a :: repl) t) → HasUrl t := by
  have hgo : Lifts t (r.subConst (a :: repl) t) ∧
      (HasUrl (r.subConst (a :: repl) t) → HasUrl t) := by
    refine Regex.sub_induction (P := fun t out => Lifts t out ∧
      (HasUrl out → HasUrl t)) ?_ ?_ ?_ t
    · exact ⟨fun w ch _ _ hleads => absurd (List.prefix_nil.mp hleads) (by simp),
        id⟩
    · rintro before ch rest out - ⟨hlifts, hurl⟩
      have hcons := lifts_cons hlifts ch
      refine ⟨hcons, fun h => hasUrl_cons.mpr ?_⟩
      rcases hasUrl_cons.mp h with ⟨scheme, hscheme, d, hd, hfirst⟩ | hlater
      · obtain ⟨d', hd', hthere⟩ := hcons scheme d (scheme_chars hscheme) hd hfirst
        exact Or.inl ⟨scheme, hscheme, d', hd', hthere⟩
      · exact Or.inr (hurl hlater)
    · rintro before after d out hmatch ⟨-, hurl⟩
      obtain ⟨u, hu, hne, rfl⟩ := Regex.exists_word_of_matchAt hmatch
      refine ⟨lifts_append ha (hword u hu) hne, fun h => ?_⟩
      exact (hurl (hasUrl_append hh h)).mono (List.suffix_append u _).isInfix
  exact hgo.2

/-- After their pass there are no links. -/
theorem not_hasUrl_url (ha : ¬oneOf schemeChars a) (hh : 'h' ∉ a :: repl) (t : Str) :
    ¬HasUrl (url.subConst (a :: repl) t) := by
  have hgo : Lifts t (url.subConst (a :: repl) t) ∧
      ¬HasUrl (url.subConst (a :: repl) t) := by
    refine Regex.sub_induction (P := fun t out => Lifts t out ∧ ¬HasUrl out)
      ?_ ?_ ?_ t
    · refine ⟨fun w ch _ _ hleads => absurd (List.prefix_nil.mp hleads) (by simp), ?_⟩
      rintro ⟨scheme, -, ch, -, hhere⟩
      exact absurd (List.infix_nil.mp hhere) (by simp)
    · rintro before ch rest out hnone ⟨hlifts, hurl⟩
      have hcons := lifts_cons hlifts ch
      refine ⟨hcons, fun h => ?_⟩
      rcases hasUrl_cons.mp h with ⟨scheme, hscheme, d, hd, hfirst⟩ | hlater
      · -- a link begins here in the text, and would have been taken
        obtain ⟨d', hd', hthere⟩ := hcons scheme d (scheme_chars hscheme) hd hfirst
        have hword : scheme ++ [d'] ∈ url.language :=
          mem_url.mpr ⟨scheme, hscheme, [d'], List.cons_ne_nil _ _,
            by simpa using hd', rfl⟩
        refine Regex.not_prefix_of_matchAt rfl ?_ hnone hword hthere
        intro hempty
        obtain ⟨⟨front, hfront⟩, -⟩ := mem_url_word hempty
        cases hfront
      · exact hurl hlater
    · rintro before after d out hmatch ⟨-, hurl⟩
      obtain ⟨u, hu, hne, rfl⟩ := Regex.exists_word_of_matchAt hmatch
      refine ⟨lifts_append ha ?_ hne, fun h => hurl (hasUrl_append hh h)⟩
      obtain ⟨⟨front, rfl⟩, -⟩ := mem_url_word hu
      rintro e ⟨⟩ -
      decide
  exact hgo.2

end Passes

/-! ## Normalized texts -/

/-- The passes after the one that takes the links apart, up to the last strip. -/
def afterLinks (t : Str) : Str :=
  let normalized := heading.subConst [' '] t
  let normalized := replaceChar '•' ' ' normalized
  let normalized := semicolon.subConst ". ".toList normalized
  let normalized := (Regex.cls (· == '|')).subConst ", ".toList normalized
  let normalized := url.subConst "ссылку я опустил".toList normalized
  let normalized := doubledComma.subConst ", ".toList normalized
  spaceRun.subConst [' '] normalized

/-- The text before the last strip. -/
def beforeStrip (text : Str) : Str := afterLinks (labelsOnly text)

theorem normalizeText_cases (text : Str) :
    normalizeText text <:+: beforeStrip text ∨
      normalizeText text = "Я не могу озвучить ответ в этом виде.".toList := by
  have heq : normalizeText text =
      if stripBy (oneOf " ,-") (beforeStrip text) ≠ [] then
        stripBy (oneOf " ,-") (beforeStrip text)
      else "Я не могу озвучить ответ в этом виде.".toList := rfl
  rw [heq]
  split
  · exact Or.inl (stripBy_within _ _)
  · exact Or.inr rfl

/-- A reader that no harmless replacement takes further, and that reads a bullet
like a space, is not taken further by these passes. -/
theorem read_afterLinks {read : Str → ℕ}
    (hpass : ∀ (r : Regex) (repl t : Str), repl ≠ [] →
      (repl.all fun ch => !oneOf "[]()`" ch) = true → read (r.subConst repl t) ≤ read t)
    (hbullet : ∀ t, read (replaceChar '•' ' ' t) = read t) (t : Str) :
    read (afterLinks t) ≤ read t := by
  unfold afterLinks
  extract_lets n₅ n₆ n₇ n₈ n₉ n₁₀
  calc
    read (spaceRun.subConst [' '] n₁₀) ≤ read n₁₀ :=
      hpass _ _ n₁₀ (by decide) (by decide)
    _ ≤ read n₉ := hpass _ _ n₉ (by decide) (by decide)
    _ ≤ read n₈ := hpass _ _ n₈ (by decide) (by decide)
    _ ≤ read n₇ := hpass _ _ n₇ (by decide) (by decide)
    _ ≤ read n₆ := hpass _ _ n₆ (by decide) (by decide)
    _ = read n₅ := hbullet n₅
    _ ≤ read t := hpass _ _ t (by decide) (by decide)

theorem spanState_afterLinks (t : Str) : spanState (afterLinks t) ≤ spanState t := by
  apply read_afterLinks
  · intro r repl t _ hall
    apply spanState_subConst
    intro hmem
    exact absurd (List.all_eq_true.mp hall _ hmem) (by decide)
  · exact fun t => (states_replaceChar t).1

theorem linkState_afterLinks (t : Str) : linkState (afterLinks t) ≤ linkState t := by
  apply read_afterLinks
  · intro r repl t hsome hall
    apply linkState_subConst _ hsome
    intro ch hch hmem
    have hplain := List.all_eq_true.mp hall ch hch
    rw [oneOf_of_all (by decide) hmem] at hplain
    cases hplain
  · exact fun t => (states_replaceChar t).2

/-- The passes after the one for links without a label bring none back. -/
theorem not_hasUrl_afterLinks (t : Str) : ¬HasUrl (afterLinks t) := by
  have hopted : "ссылку я опустил".toList = 'с' :: "сылку я опустил".toList := by
    decide
  unfold afterLinks
  extract_lets n₅ n₆ n₇ n₈ n₉ n₁₀
  have h₉ : ¬HasUrl n₉ := by
    have hgone := @not_hasUrl_url 'с' "сылку я опустил".toList (by decide)
      (by decide) n₈
    rwa [← hopted] at hgone
  have h₁₀ : ¬HasUrl n₁₀ := by
    intro h
    apply h₉
    apply @hasUrl_subConst doubledComma ',' [' '] (by decide) (by decide) _ n₉ h
    intro u hu
    obtain ⟨⟨front, rfl⟩, -⟩ := mem_doubledComma hu
    rintro d ⟨⟩ -
    decide
  intro h
  apply h₁₀
  apply @hasUrl_subConst spaceRun ' ' [] (by decide) (by decide) _ n₁₀ h
  exact fun _ _ _ _ hspace => absurd (by decide) hspace

theorem not_mem_newline {t : Str} (h : weigh (blemish "") t = 0) : '\n' ∉ t :=
  fun hmem => absurd ((weigh_blemish.mp h _ hmem).2 (by decide)) (by decide)

/-- The passes before the one for links leave one line, without code spans. -/
theorem linkSubject_unmarked (text : Str) :
    '\n' ∉ linkSubject text ∧ spanState (linkSubject text) < 3 := by
  unfold linkSubject
  have hstrip : weigh (blemish "") (strip (collapseSpaces text)) ≤
      weigh (blemish "") (collapseSpaces text) :=
    weigh_strip isSpace
  generalize strip (collapseSpaces text) = n₁ at hstrip ⊢
  have hremove : weigh (blemish "") (remove '*' (removePairs '*' n₁)) ≤
      weigh (blemish "") n₁ :=
    weigh_sublist ((List.filter_sublist).trans (removePairs_sublist '*' n₁))
  generalize remove '*' (removePairs '*' n₁) = n₂ at hremove ⊢
  have hspan : weigh (blemish "") (codeSpan.subConst [] n₂) ≤ weigh (blemish "") n₂ :=
    Regex.weigh_subConst (fun _ => Nat.le_refl _) (Regex.takes_zero codeSpan)
      (Nat.le_refl _) n₂
  have hcollapsed := weigh_blemish_collapseSpaces text
  exact ⟨not_mem_newline (by omega), spanState_codeSpan n₂ (not_mem_newline (by omega))⟩

/-- The text that stands for one of which nothing is left has no formatting. -/
theorem fallback_unmarked {t : Str}
    (h : t = "Я не могу озвучить ответ в этом виде.".toList) :
    ¬HasSpan t ∧ ¬HasUrl t ∧ ¬HasLink t := by
  rw [h]
  refine ⟨?_, ?_, ?_⟩
  · intro ⟨content, _, hhere⟩
    exact absurd (hhere.subset List.mem_cons_self) (by decide)
  · intro ⟨scheme, hscheme, d, _, hhere⟩
    obtain ⟨front, rfl⟩ := scheme_head hscheme
    exact absurd (hhere.subset List.mem_cons_self) (by decide)
  · intro ⟨label, target, _, _, hhere⟩
    exact absurd (hhere.subset List.mem_cons_self) (by decide)

/-- What is left of formatting when a text has been normalized.  A link with a
label is left only where the labels themselves make one up, which takes an
opening bracket inside a label. -/
theorem normalizeText_unmarked (text : Str) : ¬HasSpan (normalizeText text) ∧
    ¬HasUrl (normalizeText text) ∧
      (FlatLabels text ∨ ¬HasLink (labelsOnly text) →
        ¬HasLink (normalizeText text)) := by
  obtain ⟨hline, hspan⟩ := linkSubject_unmarked text
  rcases normalizeText_cases text with hwithin | hfallback
  · refine ⟨fun h => ?_, fun h => ?_, fun hlabels h => ?_⟩
    · have hthree : 3 ≤ spanState (beforeStrip text) :=
        three_le_spanState (h.mono hwithin)
      have hlater : spanState (beforeStrip text) ≤ spanState (labelsOnly text) :=
        spanState_afterLinks _
      have hpass : spanState (labelsOnly text) ≤ spanState (linkSubject text) :=
        spanState_markdownLink _
      omega
    · exact not_hasUrl_afterLinks _ (h.mono hwithin)
    · have hsix : 6 ≤ linkState (beforeStrip text) := six_le_linkState (h.mono hwithin)
      have hlater : linkState (beforeStrip text) ≤ linkState (labelsOnly text) :=
        linkState_afterLinks _
      cases hlabels with
      | inl hflat =>
          have hpass : linkState (labelsOnly text) < 6 :=
            linkState_markdownLink hline hflat
          omega
      | inr hnone => exact hnone (hasLink_of_six_le (by omega))
  · obtain ⟨hnospan, hnourl, hnolink⟩ := fallback_unmarked hfallback
    exact ⟨hnospan, hnourl, fun _ => hnolink⟩

/-- Two links on one line are both taken apart. -/
theorem normalizeText_two_links :
    ¬HasLink (normalizeText "[да](a) и [нет](b)".toList) :=
  (normalizeText_unmarked "[да](a) и [нет](b)".toList).2.2
    (Or.inl (by decide +kernel))

/-- A link comes back out of a label with an opening bracket. -/
theorem link_survives : HasLink (normalizeText "[[a](b)](c)".toList) := by
  have hnormal : normalizeText "[[a](b)](c)".toList = "[a](c)".toList := by
    decide +kernel
  rw [hnormal]
  exact ⟨['a'], ['c'], by decide, by decide, by decide⟩

end AliceSkill
