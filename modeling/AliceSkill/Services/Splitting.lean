import AliceSkill.Services.Lengths

/-!
# The two pieces of an answer

A long answer is split at a seam: what is dropped between the two pieces is
white space and a little punctuation.  A cleaned answer does not end with white
space, so something is left for the second piece, and the reply that is made of
the two is well formed.
-/

namespace AliceSkill

open Text

/-! ## Seams -/

/-- Two texts make up a text but for white space and punctuation between them. -/
def Seam (text head tail : Str) : Prop :=
  ∃ between, text = head ++ between ++ tail ∧
    (∀ ch ∈ between, isSpace ch ∨ oneOf ",;:" ch) ∧
    ∀ ch ∈ tail.head?, ¬isSpace ch

theorem seam_cut {p : Char → Bool} (hp : ∀ ch, p ch → isSpace ch ∨ oneOf ",;:" ch)
    (text : Str) (n : ℕ) :
    Seam text (rstripBy p (text.take n)) (lstripBy isSpace (text.drop n)) := by
  have hfront : rstripBy p (text.take n) ++ (text.take n).rtakeWhile p =
      text.take n :=
    List.rdropWhile_append_rtakeWhile
  have hback : (text.drop n).takeWhile isSpace ++ lstripBy isSpace (text.drop n) =
      text.drop n :=
    List.takeWhile_append_dropWhile
  refine ⟨(text.take n).rtakeWhile p ++ (text.drop n).takeWhile isSpace,
    ?_, ?_, ?_⟩
  · calc text = text.take n ++ text.drop n := (List.take_append_drop n text).symm
      _ = _ := by
        conv_lhs => rw [← hfront, ← hback]
        simp only [List.append_assoc]
  · intro ch hch
    rcases List.mem_append.mp hch with hleft | hright
    · exact hp ch (List.mem_rtakeWhile_imp hleft)
    · exact Or.inl (List.mem_takeWhile_imp hright)
  · intro ch hch
    have hhead := List.head?_dropWhile_not isSpace (text.drop n)
    rw [show (text.drop n).dropWhile isSpace = lstripBy isSpace (text.drop n)
      from rfl, Option.mem_def.mp hch] at hhead
    simpa using hhead

theorem rfind_lt_length (c : Char) (t : Str) : rfind c t < t.length := by
  induction t with
  | nil => exact Int.negSucc_lt_zero 0
  | cons d t ih =>
      rw [rfind, List.length_cons]
      split_ifs
      · omega
      · omega
      · omega

theorem rfindAny_lt_length (chars : List Char) (t : Str) :
    rfindAny chars t < t.length := by
  have hfold : ∀ m : ℤ, m < t.length →
      chars.foldl (fun m c => max m (rfind c t)) m < t.length := by
    induction chars with
    | nil => exact fun m hm => hm
    | cons c chars ih =>
        intro m hm
        have hlt := rfind_lt_length c t
        apply ih
        show max m (rfind c t) < t.length
        omega
  exact hfold (-1) (by omega)

/-- Where a long text is cut, what its first piece ends with, and what is
stripped there. -/
inductive SplitAt (text : Str) (limit : ℕ) : ℕ → (Char → Bool) → Str → Prop where
  | sentence (n : ℕ) (hn : n ≤ limit - shortReplyHeadroom) :
      SplitAt text limit n isSpace []
  | word (n : ℕ) (hn : n ≤ limit - shortReplyHeadroom) :
      SplitAt text limit n (oneOf " ,;:") "...".toList

/-- The three branches cut the text at one place each. -/
theorem splitShortAndTail_cut {text : Str} {limit : ℕ}
    (h : ¬text.length ≤ limit) : ∃ n p ending, SplitAt text limit n p ending ∧
      splitShortAndTail text limit = (rstripBy p (text.take n) ++ ending,
        noneIfEmpty (lstripBy isSpace (text.drop n))) := by
  rw [splitShortAndTail, if_neg h]
  extract_lets preferredCutoff cutoff sentenceEnd wordEnd
  have hlength : cutoff.length = preferredCutoff := by
    rw [List.length_take, Nat.min_eq_left]
    show limit - shortReplyHeadroom ≤ text.length
    omega
  have hcut : ∀ n ≤ preferredCutoff, cutoff.take n = text.take n := by
    intro n hn
    rw [List.take_take, Nat.min_eq_left hn]
  split_ifs with hsentence hword
  · have hlt : sentenceEnd < cutoff.length := rfindAny_lt_length _ _
    have hn : (sentenceEnd + 1).toNat ≤ preferredCutoff := by omega
    refine ⟨_, _, _, .sentence _ hn, ?_⟩
    rw [List.append_nil, ← hcut _ hn]
  · have hlt : wordEnd < cutoff.length := rfind_lt_length _ _
    have hn : wordEnd.toNat ≤ preferredCutoff := by omega
    refine ⟨_, _, _, .word _ hn, ?_⟩
    rw [← hcut _ hn]
  · refine ⟨_, _, _, .word preferredCutoff (Nat.le_refl _), ?_⟩
    show (rstripBy (oneOf " ,;:") cutoff ++ "...".toList,
      noneIfEmpty (lstripBy isSpace (text.drop cutoff.length))) = _
    rw [hlength]

/-- Nothing but the seam is lost when a text is split, and the first piece keeps
its distance from the limit. -/
theorem splitShortAndTail_lossless (text : Str) (limit : ℕ) (hlimit : 24 ≤ limit) :
    (text.length ≤ limit → splitShortAndTail text limit = (text, none)) ∧
      (limit < text.length → ∃ head tail, Seam text head tail ∧
        ((splitShortAndTail text limit).1 = head ∨
          (splitShortAndTail text limit).1 = head ++ "...".toList) ∧
        (splitShortAndTail text limit).2 = noneIfEmpty tail ∧
        (splitShortAndTail text limit).1.length + 21 ≤ limit) := by
  constructor
  · intro hfits
    rw [splitShortAndTail, if_pos hfits]
  · intro hlong
    have hheadroom : shortReplyHeadroom = 24 := rfl
    obtain ⟨n, p, ending, hsplit, heq⟩ :=
      splitShortAndTail_cut (Nat.not_le_of_gt hlong)
    have hhead := length_rstripBy p (text.take n)
    have htake : (text.take n).length ≤ n := List.length_take_le _ _
    rw [heq]
    refine ⟨rstripBy p (text.take n), lstripBy isSpace (text.drop n), ?_, ?_, rfl,
      ?_⟩
    · apply seam_cut
      cases hsplit with
      | sentence => exact fun ch hch => Or.inl hch
      | word =>
          intro ch hch
          have hcases : ch = ' ' ∨ ch = ',' ∨ ch = ';' ∨ ch = ':' := by
            simpa [oneOf] using hch
          rcases hcases with rfl | rfl | rfl | rfl
          · exact Or.inl (by decide)
          · exact Or.inr (by decide)
          · exact Or.inr (by decide)
          · exact Or.inr (by decide)
    · cases hsplit with
      | sentence => exact Or.inl (List.append_nil _)
      | word => exact Or.inr rfl
    · have hdots : "...".toList.length = 3 := rfl
      rw [List.length_append]
      cases hsplit with
      | sentence hn =>
          rw [List.length_nil]
          omega
      | word hn =>
          rw [hdots]
          omega

/-- With no sentence and no word end in reach, the text is cut at the headroom. -/
theorem splitShortAndTail_hard_cut :
    ∃ head tail, Seam "Долго, долго, долго; и ещё".toList head tail ∧
      ((splitShortAndTail "Долго, долго, долго; и ещё".toList 25).1 = head ∨
        (splitShortAndTail "Долго, долго, долго; и ещё".toList 25).1 =
          head ++ "...".toList) ∧
      (splitShortAndTail "Долго, долго, долго; и ещё".toList 25).2 =
        noneIfEmpty tail ∧
      (splitShortAndTail "Долго, долго, долго; и ещё".toList 25).1.length + 21 ≤
        25 :=
  (splitShortAndTail_lossless "Долго, долго, долго; и ещё".toList 25
    (by decide)).2 (by decide)

/-! ## Well-formed replies -/

/-- A text that does not end with white space. -/
def Closed (t : Str) : Prop := ∀ ch ∈ t.getLast?, ¬isSpace ch

theorem closed_append {t : Str} {ch : Char} (hch : ¬isSpace ch) :
    Closed (t ++ [ch]) := by
  intro d hd
  rw [List.getLast?_append, List.getLast?_singleton, Option.some_or] at hd
  rwa [← Option.some.inj hd]

theorem closed_stabilizeIncompleteTail {t : Str} (h : Closed t) :
    Closed (stabilizeIncompleteTail t) := by
  rw [stabilizeIncompleteTail]
  cases t.getLast? with
  | none => exact h
  | some c =>
      simp only
      split_ifs
      · exact h
      · exact h
      · generalize rstripBy (oneOf " ,;:") (lastWord.subConst [] t) = trimmed
        have hdots : trimmed ++ "...".toList = (trimmed ++ "..".toList) ++ ['.'] := by
          rw [List.append_assoc]
          rfl
        rw [hdots]
        exact closed_append (by decide)

/-- Stripping spaces is enough where there is no other white space. -/
theorem closed_stripBy {p : Char → Bool} {t : Str} (hp : p ' ')
    (hplain : weigh (blemish "") t = 0) : Closed (stripBy p t) := by
  intro ch hch hspace
  obtain ⟨hne, rfl⟩ := List.mem_getLast?_eq_getLast hch
  have hmem := (stripBy_within p t).subset (List.getLast_mem hne)
  have hlast := stripBy_getLast hne
  rw [(weigh_blemish.mp hplain _ hmem).2 hspace] at hlast
  exact hlast hp

/-- A cleaned answer does not end with white space. -/
theorem closed_cleanVisibleText (visibleText : Str) :
    Closed (cleanVisibleText visibleText) := by
  have hrefl : ∀ ch, blemish "" ch ≤ blemish "" ch := fun _ => Nat.le_refl _
  unfold cleanVisibleText
  extract_lets n₁ n₂ n₃ n₄ n₅ n₆
  have h₁ : weigh (blemish "") n₁ ≤ weigh (blemish "") (collapseSpaces visibleText) :=
    weigh_strip isSpace
  have h₂ : weigh (blemish "") n₂ ≤ weigh (blemish "") n₁ :=
    weigh_sublist ((List.filter_sublist).trans List.filter_sublist)
  have h₃ : weigh (blemish "") n₃ ≤ weigh (blemish "") n₂ :=
    Regex.weigh_subConst hrefl (Regex.takes_zero codeSpan) (Nat.le_refl _) n₂
  have h₄ : weigh (blemish "") n₄ ≤ weigh (blemish "") n₃ := weigh_markdownLink n₃
  have h₅ : weigh (blemish "") n₅ ≤ weigh (blemish "") n₄ :=
    Regex.weigh_subConst hrefl (Regex.takes_zero _) (Nat.le_refl _) n₄
  have hcollapsed := weigh_blemish_collapseSpaces visibleText
  apply closed_stabilizeIncompleteTail
  apply closed_stripBy (by decide)
  omega

/-- Something is left for the second piece. -/
theorem exists_tail {text : Str} {limit : ℕ} (hclosed : Closed text)
    (hlong : ¬text.length ≤ limit) :
    ∃ tail, (splitShortAndTail text limit).2 = some tail := by
  obtain ⟨n, p, ending, hsplit, heq⟩ := splitShortAndTail_cut hlong
  have hn : n < text.length := by
    cases hsplit with
    | sentence hn => omega
    | word hn => omega
  have hrest : text.drop n ≠ [] := by
    rw [← List.length_pos_iff, List.length_drop]
    omega
  have hlast : ¬isSpace ((text.drop n).getLast hrest) := by
    apply hclosed
    rw [List.getLast_drop]
    exact List.getLast?_eq_getLast_of_ne_nil _
  have hkept : lstripBy isSpace (text.drop n) ≠ [] := by
    intro hnil
    have hall := List.dropWhile_eq_nil_iff.mp hnil
    exact hlast (hall _ (List.getLast_mem hrest))
  rw [heq]
  exact ⟨_, if_neg hkept⟩

/-- What the service relies on in a reply. -/
structure LLMReply.WellFormed (r : LLMReply) : Prop where
  short : r.shortText.length ≤ 420
  tail : r.followupMode = .readyTail ↔ r.followupText ≠ none
  tail_ne_nil : r.followupText ≠ some []
  offer : r.followupMode = .deferredOffer ↔ r.continuationRequest ≠ none
  offer_ne_nil : r.continuationRequest ≠ some []
  one : r.followupText = none ∨ r.continuationRequest = none
  long : r.followupMode = .readyTail ↔ 420 < r.rawText.length
  whole : r.followupMode ≠ .readyTail → r.shortText = r.rawText

theorem length_shortText_le (rawText : Str) :
    (prepareLlmReply rawText).shortText.length ≤ shortReplyLimit := by
  have hlimit : shortReplyLimit = 420 := rfl
  rw [prepareLlmReply]
  simp only
  generalize cleanVisibleText (extractFollowupRequest rawText).1 = text
  split
  · next hfits => exact hfits
  · next hlong =>
    have hsplit := length_splitShortAndTail hlong
    have hroom : shortReplyLimit - shortReplyHeadroom + 3 = 399 := rfl
    have hinvitation : " Скажи: подробнее.".toList.length = 18 := by decide
    show (if truthy (splitShortAndTail text shortReplyLimit).2 then
      (splitShortAndTail text shortReplyLimit).1 ++ " Скажи: подробнее.".toList
      else (splitShortAndTail text shortReplyLimit).1).length ≤ shortReplyLimit
    split_ifs
    · rw [List.length_append, hinvitation]
      omega
    · omega

/-- Whatever the model says, its reply is well formed. -/
theorem prepareLlmReply_wellFormed (rawText : Str) :
    (prepareLlmReply rawText).WellFormed := by
  have hlimit : shortReplyLimit = 420 := rfl
  have hrequest : (extractFollowupRequest rawText).2 ≠ some [] := fun h =>
    extractFollowupRequest_ne_nil h rfl
  have hclosed := closed_cleanVisibleText (extractFollowupRequest rawText).1
  have hshort := length_shortText_le rawText
  rw [prepareLlmReply] at hshort ⊢
  simp only at hshort ⊢
  generalize cleanVisibleText (extractFollowupRequest rawText).1 = text
    at hclosed hshort ⊢
  generalize (extractFollowupRequest rawText).2 = request at hrequest hshort ⊢
  by_cases hlong : text.length ≤ shortReplyLimit
  · rw [if_pos hlong] at hshort ⊢
    constructor
    · exact hshort
    · simp only [ne_eq, not_true, iff_false]
      split_ifs <;> simp
    · simp
    · simp only
      split_ifs with hnone
      · simpa using hnone
      · simpa using hnone
    · exact hrequest
    · exact Or.inl rfl
    · simp only
      split_ifs <;> simp <;> omega
    · exact fun _ => rfl
  · obtain ⟨tail, htail⟩ := exists_tail hclosed hlong
    have hne := splitShortAndTail_ne_nil htail
    have hmode : (if some tail ≠ none then FollowupMode.readyTail else .none) =
        .readyTail :=
      if_pos (Option.some_ne_none tail)
    rw [if_neg hlong] at hshort ⊢
    simp only [htail] at hshort ⊢
    constructor
    · exact hshort
    · simp
    · simpa using hne
    · simp
    · simp
    · exact Or.inr rfl
    · simpa [hlimit] using hlong
    · exact fun h => absurd hmode h

end AliceSkill
