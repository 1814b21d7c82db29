import AliceSkill.Services.Reply
import AliceSkill.Text.Weights

/-!
# Lengths of spoken texts

A long answer is spoken in two pieces, and each of them is normalized and then
clipped.  Normalization can make a text longer: a semicolon and a bar become two
characters, a link becomes sixteen.  If the characters it inserts weigh less than
the ones it replaces, it does not add to the weight of a text, so a piece that is
short enough is never clipped.
-/

namespace AliceSkill

open Text

/-! ## The length of a normalized text -/

/-- What normalization inserts is light. -/
def weight (ch : Char) : ℕ := if oneOf " ,." ch then 7 else 15

theorem weight_space_le (ch : Char) : weight ' ' ≤ weight ch := by
  have hspace : weight ' ' = 7 := rfl
  rw [hspace, weight]
  split <;> omega

theorem weight_le (ch : Char) : weight ch ≤ 15 := by
  rw [weight]
  split <;> omega

theorem weigh_markdownLink {w : Char → ℕ} (t : Str) :
    weigh w (markdownLink.sub (·.group 1) t) ≤ weigh w t := by
  apply Regex.weigh_sub fun _ => Nat.le_refl _
  intro c d hd
  obtain ⟨a, -, b, -, -, htaken⟩ := Regex.exists_word_of_capture rfl hd
  refine ⟨a ++ (d.group 1 ++ b), ?_, ?_⟩
  · rw [htaken, List.append_assoc, List.append_assoc]
  · rw [weigh_append, weigh_append]
    omega

/-- A heading loses its marks. -/
theorem takes_heading : heading.Takes weight 15 := by
  have hstart : (Regex.group 1 (.alt .bos (.cls isSpace))).Takes weight 0 :=
    Regex.takes_zero _
  have hmarks : (Regex.rep true 1 (some 6) (.cls (· == '#'))).Takes weight 15 := by
    have hmark : (Regex.cls (· == '#')).Takes weight 15 :=
      Regex.takes_cls fun ch hch => by
        rw [beq_iff_eq.mp hch]
        decide
    exact hmark.rep true 1 (some 6)
  have hspaces : (Regex.star (.cls isSpace)).Takes weight 0 :=
    Regex.takes_zero _
  exact hstart.seq (hmarks.seq hspaces)

theorem takes_semicolon : semicolon.Takes weight 15 := by
  have hspaces : (Regex.star (.cls isSpace)).Takes weight 0 :=
    Regex.takes_zero _
  have hmark : (Regex.cls (· == ';')).Takes weight 15 :=
    Regex.takes_cls fun ch hch => by
      rw [beq_iff_eq.mp hch]
      decide
  have htakes := hspaces.seq (hmark.seq hspaces)
  rwa [Nat.zero_add] at htakes

theorem takes_bar : (Regex.cls (· == '|')).Takes weight 15 :=
  Regex.takes_cls fun ch hch => by
    rw [beq_iff_eq.mp hch]
    decide

/-- A link is at least eight characters long, seven of them heavy. -/
theorem takes_url : url.Takes weight 112 := by
  have hopt : (Regex.rep true 0 (some 1) (.cls (· == 's'))).Takes weight 0 :=
    Regex.takes_zero _
  have hany : (Regex.cls fun c => !isSpace c).Takes weight 7 :=
    Regex.takes_cls fun ch _ => weight_space_le ch
  have hrest : (Regex.plus (.cls fun c => !isSpace c)).Takes weight 7 :=
    hany.rep true 1 none
  have hscheme : (Regex.lit "http".toList).Takes weight 60 :=
    Regex.takes_lit "http".toList
  have hslashes : (Regex.lit "://".toList).Takes weight 45 :=
    Regex.takes_lit "://".toList
  exact hscheme.seq (hopt.seq (hslashes.seq hrest))

theorem takes_doubledComma : doubledComma.Takes (fun _ => 7) 14 := by
  have hcomma : (Regex.cls (· == ',')).Takes (fun _ => 7) 7 :=
    Regex.takes_cls fun _ _ => Nat.le_refl _
  have hspaces : (Regex.star (.cls isSpace)).Takes (fun _ => 7) 0 :=
    Regex.takes_zero _
  have hcommas : (Regex.plus (.cls (· == ','))).Takes (fun _ => 7) 7 :=
    hcomma.rep true 1 none
  have htakes := hcomma.seq (hspaces.seq hcommas)
  rwa [Nat.zero_add] at htakes

theorem takes_spaceRun : spaceRun.Takes (fun _ => 7) 14 :=
  Regex.Takes.rep true 2 none (Regex.takes_cls fun _ _ => Nat.le_refl _)

/-- A normalized text is no longer than the text is heavy, unless nothing is
left of it. -/
theorem length_normalizeText (t : Str) :
    7 * (normalizeText t).length ≤ max (15 * t.length) 259 := by
  have hrefl : ∀ ch, weight ch ≤ weight ch := fun _ => Nat.le_refl _
  unfold normalizeText
  extract_lets n₁ n₂ n₃ n₄ n₅ n₆ n₇ n₈ n₉ n₁₀ n₁₁ n₁₂
  have h₁ : weigh weight n₁ ≤ weigh weight t :=
    (weigh_strip isSpace).trans (weigh_collapseSpaces weight_space_le t)
  have h₂ : weigh weight n₂ ≤ weigh weight n₁ :=
    weigh_sublist ((List.filter_sublist).trans (removePairs_sublist '*' n₁))
  have h₃ : weigh weight n₃ ≤ weigh weight n₂ :=
    Regex.weigh_subConst hrefl (Regex.takes_zero codeSpan) (Nat.le_refl _) n₂
  have h₄ : weigh weight n₄ ≤ weigh weight n₃ := weigh_markdownLink n₃
  have h₅ : weigh weight n₅ ≤ weigh weight n₄ :=
    Regex.weigh_subConst hrefl takes_heading (by decide) n₄
  have h₆ : weigh weight n₆ ≤ weigh weight n₅ :=
    weigh_replaceChar (by decide)
  have h₇ : weigh weight n₇ ≤ weigh weight n₆ :=
    Regex.weigh_subConst hrefl takes_semicolon (by decide) n₆
  have h₈ : weigh weight n₈ ≤ weigh weight n₇ :=
    Regex.weigh_subConst hrefl takes_bar (by decide) n₇
  -- from here on every character counts the same
  have h₉ : weigh (fun _ => 7) n₉ ≤ weigh weight n₈ :=
    Regex.weigh_subConst weight_space_le takes_url (by decide) n₈
  have h₁₀ : weigh (fun _ => 7) n₁₀ ≤ weigh (fun _ => 7) n₉ :=
    Regex.weigh_subConst (fun _ => Nat.le_refl _) takes_doubledComma
      (by decide) n₉
  have h₁₁ : weigh (fun _ => 7) n₁₁ ≤ weigh (fun _ => 7) n₁₀ :=
    Regex.weigh_subConst (fun _ => Nat.le_refl _) takes_spaceRun
      (by decide) n₁₀
  have h₁₂ : weigh (fun _ => 7) n₁₂ ≤ weigh (fun _ => 7) n₁₁ :=
    weigh_strip (oneOf " ,-")
  have hlength := weigh_const 7 n₁₂
  have hheavy : weigh weight t ≤ 15 * t.length := weigh_le_length weight_le
  split
  · omega
  · apply Nat.le_max_right

theorem normalizeText_within {t : Str} (h : t.length ≤ 477) :
    (normalizeText t).length ≤ maxAliceFieldLength := by
  have hbound := length_normalizeText t
  rw [maxAliceFieldLength]
  omega

/-! ## Clipping -/

theorem length_rstripBy (p : Char → Bool) (t : Str) :
    (rstripBy p t).length ≤ t.length :=
  (List.rdropWhile_prefix p t).length_le

theorem length_clip {t : Str} {limit : ℕ} (h : 0 < limit) :
    (clip t limit).length ≤ limit := by
  rw [clip]
  split
  · assumption
  · rw [List.length_append, List.length_singleton]
    apply (Nat.succ_le_succ (length_rstripBy _ _)).trans
    split_ifs
    · simp only [List.length_take]
      omega
    · simp only [List.length_take]
      omega
    · simp only [List.length_take]
      omega

/-- Exactly the texts within the limit are left alone. -/
theorem clip_eq_self_iff {t : Str} {limit : ℕ} (h : 0 < limit) :
    clip t limit = t ↔ t.length ≤ limit := by
  constructor
  · intro heq
    have hlength := @length_clip t limit h
    rwa [heq] at hlength
  · exact fun hle => if_pos hle

/-! ## The two pieces of an answer -/

/-- The short piece leaves room for the invitation that is added to it. -/
theorem length_splitShortAndTail {text : Str} {limit : ℕ}
    (h : ¬text.length ≤ limit) :
    (splitShortAndTail text limit).1.length ≤ limit - shortReplyHeadroom + 3 := by
  have hcut : ∀ n, ((text.take (limit - shortReplyHeadroom)).take n).length ≤
      limit - shortReplyHeadroom := by
    intro n
    simp only [List.length_take]
    omega
  have hdots : "...".toList.length = 3 := rfl
  rw [splitShortAndTail, if_neg h]
  simp only
  split_ifs
  · have hhead := length_rstripBy isSpace
    exact ((hhead _).trans (hcut _)).trans (Nat.le_add_right _ 3)
  · rw [List.length_append, hdots]
    exact Nat.add_le_add_right ((length_rstripBy _ _).trans (hcut _)) 3
  · rw [List.length_append, hdots]
    have hwhole : (text.take (limit - shortReplyHeadroom)).length ≤
        limit - shortReplyHeadroom := List.length_take_le _ _
    exact Nat.add_le_add_right ((length_rstripBy _ _).trans hwhole) 3

theorem length_shortText {rawText : Str}
    (h : (prepareLlmReply rawText).followupMode = .readyTail) :
    (prepareLlmReply rawText).shortText.length ≤ 417 := by
  rw [prepareLlmReply] at h ⊢
  simp only at h ⊢
  split at h
  · next hshort =>
    exfalso
    split_ifs at h
  · next hlong =>
    have hsplit := length_splitShortAndTail hlong
    have hlimit : shortReplyLimit - shortReplyHeadroom + 3 = 399 := rfl
    have hinvitation : " Скажи: подробнее.".toList.length = 18 := by decide
    rw [if_neg hlong]
    simp only
    split
    · rw [List.length_append, hinvitation]
      omega
    · omega

end AliceSkill
