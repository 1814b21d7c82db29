import AliceSkill.Services.Lengths
import AliceSkill.Services.Patterns

/-!
# The envelope of a spoken text

Whatever text is rendered, what is said is not empty, fits into the field of the
protocol, has no marks of formatting in it and no white space but single spaces
between its words.
-/

namespace AliceSkill

open Text

/-! ## Runs of white space -/

/-- A run of white space of at least two characters. -/
def readSpaceRun (t : Str) : Option (Str × Unit) :=
  if 2 ≤ (t.takeWhile isSpace).length then some (t.dropWhile isSpace, ()) else none

theorem reads_spaceRun : Reads spaceRun (fun _ => ()) readSpaceRun :=
  reads_run (Nat.succ_pos 1)

/-- Where the only white space is the space, longer runs are all there is to
collapse. -/
theorem subConst_spaceRun {t : Str} (h : ∀ ch ∈ t, isSpace ch → ch = ' ') :
    spaceRun.subConst [' '] t = collapseSpaces t := by
  have hconsumes := reads_spaceRun.consumes
  have hsub : spaceRun.subConst [' '] t = rewriteBy readSpaceRun (fun _ => [' ']) t := by
    refine reads_spaceRun.sub ?_ t
    exact fun _ => rfl
  rw [hsub]
  clear hsub
  induction t using collapse_induction with
  | hnil => rw [rewriteBy_nil hconsumes, collapseSpaces_nil]
  | hspace ch t hch ih =>
      have hrest := ih fun d hd =>
        h d (List.mem_cons_of_mem _ ((List.dropWhile_suffix isSpace).subset hd))
      have hblank := h ch List.mem_cons_self hch
      have hrun : (ch :: t).takeWhile isSpace = ch :: t.takeWhile isSpace :=
        List.takeWhile_cons_of_pos hch
      rw [collapseSpaces_space hch]
      cases htake : t.takeWhile isSpace with
      | nil =>
          have hread : readSpaceRun (ch :: t) = none := by
            rw [readSpaceRun, hrun, htake]
            rfl
          have hsame : t.dropWhile isSpace = t := by
            rw [← Regex.drop_takeWhile_length, htake]
            rfl
          rw [hsame] at hrest ⊢
          rw [rewriteBy_cons_none hconsumes hread, hrest, hblank]
      | cons d run =>
          have hread : readSpaceRun (ch :: t) = some (t.dropWhile isSpace, ()) := by
            rw [readSpaceRun, hrun, htake, if_pos (by simp),
              List.dropWhile_cons_of_pos hch]
          rw [rewriteBy_some hconsumes hread, hrest]
          rfl
  | hcons ch t hch ih =>
      have hrest := ih fun d hd => h d (List.mem_cons_of_mem _ hd)
      have hread : readSpaceRun (ch :: t) = none := by
        rw [readSpaceRun, List.takeWhile_cons_of_neg hch]
        rfl
      rw [collapseSpaces_cons hch, rewriteBy_cons_none hconsumes hread, hrest]

/-! ## Normalized texts -/

/-- What the renderer turns every text into. -/
structure Normal (n : Str) : Prop where
  ne_nil : n ≠ []
  head : ∀ ch ∈ n.head?, ¬oneOf " ,-" ch
  last : ∀ ch ∈ n.getLast?, ¬oneOf " ,-" ch
  spaced : Spaced n
  plain : ∀ ch ∈ n, ¬oneOf "*•;|" ch

theorem normal_stripBy {t : Str} (hne : stripBy (oneOf " ,-") t ≠ []) (h : Spaced t)
    (hplain : ∀ ch ∈ t, ¬oneOf "*•;|" ch) : Normal (stripBy (oneOf " ,-") t) := by
  have hwithin := stripBy_within (oneOf " ,-") t
  constructor
  · exact hne
  · intro ch hch
    rw [List.head?_eq_some_head hne] at hch
    cases hch
    exact stripBy_head hne
  · intro ch hch
    rw [List.getLast?_eq_some_getLast hne] at hch
    cases hch
    exact stripBy_getLast hne
  · exact h.within hwithin
  · exact fun ch hch => hplain ch (hwithin.subset hch)

theorem normal_fallback : Normal "Я не могу озвучить ответ в этом виде.".toList := by
  have hplain : "Я не могу озвучить ответ в этом виде.".toList.all (fun ch =>
      !oneOf "*•;|" ch) = true := by decide
  constructor
  · decide
  · rintro ch ⟨⟩
    decide
  · rintro ch ⟨⟩
    decide
  · exact spaced_of_all (by decide) (by decide)
  · intro ch hch
    simpa using List.all_eq_true.mp hplain ch hch

/-- One more kind of character is gone. -/
theorem weigh_blemish_more {old new : String} {c : Char} {t : Str}
    (hkept : weigh (blemish old) t = 0) (hgone : c ∉ t)
    (hnew : ∀ ch, oneOf new ch → oneOf old ch ∨ ch = c) :
    weigh (blemish new) t = 0 := by
  rw [weigh_blemish] at hkept ⊢
  intro ch hch
  refine ⟨fun hone => ?_, (hkept ch hch).2⟩
  rcases hnew ch hone with hold | rfl
  · exact (hkept ch hch).1 hold
  · exact hgone hch

theorem not_mem_remove (c : Char) (t : Str) : c ∉ remove c t := by
  simp [remove]

theorem not_mem_replaceChar {c d : Char} (h : d ≠ c) (t : Str) :
    c ∉ replaceChar c d t := by
  intro hmem
  obtain ⟨ch, -, hch⟩ := List.mem_map.mp hmem
  split_ifs at hch with hc
  · exact h hch
  · exact hc hch

theorem not_mem_subConst_semicolon (t : Str) :
    ';' ∉ semicolon.subConst ". ".toList t := by
  apply Regex.not_mem_sub
  · rfl
  · exact fun h => List.not_mem_nil (mem_semicolon h).1
  · have hnone : [] ∈ (Regex.star (.cls isSpace)).language :=
      mem_language_star.mpr (by simp)
    have hmark : [';'] ∈ (Regex.cls (· == ';')).language := ⟨';', by decide, rfl⟩
    exact Regex.mem_language_seq.mpr ⟨[], hnone, [';'],
      Regex.mem_language_seq.mpr ⟨[';'], hmark, [], hnone, rfl⟩, rfl⟩
  · exact fun _ => by decide

theorem not_mem_subConst_bar (t : Str) :
    '|' ∉ (Regex.cls (· == '|')).subConst ", ".toList t := by
  apply Regex.not_mem_sub
  · rfl
  · exact fun h => List.cons_ne_nil _ _ (mem_bar h).symm
  · exact ⟨'|', by decide, rfl⟩
  · exact fun _ => by decide

/-- Whatever text comes in, the normalized text is in order. -/
theorem normal_normalizeText (text : Str) : Normal (normalizeText text) := by
  have hrefl : ∀ s ch, blemish s ch ≤ blemish s ch := fun _ _ => Nat.le_refl _
  unfold normalizeText
  extract_lets n₁ n₂ n₃ n₄ n₅ n₆ n₇ n₈ n₉ n₁₀ n₁₁ n₁₂
  have h₁ : weigh (blemish "") n₁ ≤ weigh (blemish "") (collapseSpaces text) :=
    weigh_strip isSpace
  have h₂ : weigh (blemish "") n₂ ≤ weigh (blemish "") n₁ :=
    weigh_sublist ((List.filter_sublist).trans (removePairs_sublist '*' n₁))
  have hcollapsed := weigh_blemish_collapseSpaces text
  have hstar : weigh (blemish "*") n₂ = 0 := by
    have hkept : weigh (blemish "") n₂ = 0 := by omega
    exact weigh_blemish_more hkept (not_mem_remove '*' _) (by simp [oneOf])
  have h₃ : weigh (blemish "*") n₃ ≤ weigh (blemish "*") n₂ :=
    Regex.weigh_subConst (hrefl _) (Regex.takes_zero codeSpan) (Nat.le_refl _) n₂
  have h₄ : weigh (blemish "*") n₄ ≤ weigh (blemish "*") n₃ := weigh_markdownLink n₃
  have h₅ : weigh (blemish "*") n₅ ≤ weigh (blemish "*") n₄ :=
    Regex.weigh_subConst (hrefl _) (Regex.takes_zero heading) (by decide) n₄
  have h₆ : weigh (blemish "*") n₆ ≤ weigh (blemish "*") n₅ :=
    weigh_replaceChar (by decide)
  have hbullet : weigh (blemish "*•") n₆ = 0 := by
    have hkept : weigh (blemish "*") n₆ = 0 := by omega
    exact weigh_blemish_more hkept (not_mem_replaceChar (by decide) _) (by simp [oneOf])
  have h₇ : weigh (blemish "*•") n₇ ≤ weigh (blemish "*•") n₆ :=
    Regex.weigh_subConst (hrefl _) (Regex.takes_zero semicolon) (by decide) n₆
  have hsemicolon : weigh (blemish "*•;") n₇ = 0 := by
    have hkept : weigh (blemish "*•") n₇ = 0 := by omega
    exact weigh_blemish_more hkept (not_mem_subConst_semicolon _) (by simp [oneOf])
  have h₈ : weigh (blemish "*•;") n₈ ≤ weigh (blemish "*•;") n₇ :=
    Regex.weigh_subConst (hrefl _) (Regex.takes_zero _) (by decide) n₇
  have hbar : weigh (blemish "*•;|") n₈ = 0 := by
    have hkept : weigh (blemish "*•;") n₈ = 0 := by omega
    exact weigh_blemish_more hkept (not_mem_subConst_bar _) (by simp [oneOf])
  have h₉ : weigh (blemish "*•;|") n₉ ≤ weigh (blemish "*•;|") n₈ :=
    Regex.weigh_subConst (hrefl _) (Regex.takes_zero url) (by decide) n₈
  have h₁₀ : weigh (blemish "*•;|") n₁₀ ≤ weigh (blemish "*•;|") n₉ :=
    Regex.weigh_subConst (hrefl _) (Regex.takes_zero doubledComma) (by decide) n₉
  have h₁₁ : weigh (blemish "*•;|") n₁₁ ≤ weigh (blemish "*•;|") n₁₀ :=
    Regex.weigh_subConst (hrefl _) (Regex.takes_zero spaceRun) (by decide) n₁₀
  have hclean : weigh (blemish "*•;|") n₁₀ = 0 := by omega
  have hspaced : Spaced n₁₁ := by
    have hcollapse : n₁₁ = collapseSpaces n₁₀ :=
      subConst_spaceRun fun ch hch => (weigh_blemish.mp hclean ch hch).2
    rw [hcollapse]
    exact spaced_collapseSpaces n₁₀
  have hplain : weigh (blemish "*•;|") n₁₁ = 0 := by omega
  split
  · next hne =>
    exact normal_stripBy hne hspaced fun ch hch => (weigh_blemish.mp hplain ch hch).1
  · exact normal_fallback

/-! ## Payloads -/

/-- Where a text that is too long is cut. -/
theorem clip_cut {t : Str} {limit : ℕ} (hlimit : 1 < limit)
    (hlong : ¬t.length ≤ limit) : ∃ n, 0 < n ∧
      clip t limit = rstripBy (oneOf " ,") (t.take n) ++ ['…'] := by
  have hindex : minSentenceTruncationIndex = 200 := rfl
  rw [clip, if_neg hlong]
  extract_lets cutoff sentenceEnd wordEnd cutoff'
  have hcut : ∀ n : ℕ, 0 < n → ∃ m, 0 < m ∧ cutoff.take n = t.take m := by
    intro n hn
    refine ⟨min n (limit - 1), by omega, ?_⟩
    rw [List.take_take]
  have htaken : ∃ m, 0 < m ∧ cutoff' = t.take m := by
    unfold cutoff'
    split_ifs with hsentence hword
    · exact hcut _ (by omega)
    · exact hcut _ (by omega)
    · exact ⟨limit - 1, by omega, rfl⟩
  obtain ⟨m, hm, heq⟩ := htaken
  exact ⟨m, hm, by rw [heq]⟩

/-- What is known about the payload made of a normalized text. -/
structure Envelope (normalized : Str) (payload : AliceResponsePayload) : Prop where
  tts : payload.tts = payload.text
  length_pos : 1 ≤ payload.text.length
  length_le : payload.text.length ≤ 1024
  head : ∀ ch ∈ payload.text.head?, ¬isSpace ch
  last : ∀ ch ∈ payload.text.getLast?, ¬isSpace ch
  spaced : ∀ a b, isSpace a → isSpace b → ¬[a, b] <:+: payload.text
  plain : ∀ ch ∈ payload.text, ch ≠ '*' ∧ ch ≠ ';' ∧ ch ≠ '|' ∧ ch ≠ '•'
  whole : normalized.length ≤ 1024 → payload.text = normalized
  clipped : 1024 < normalized.length → ∃ front, front ≠ [] ∧ front <+: normalized ∧
    (∀ ch ∈ front.getLast?, ch ≠ ' ' ∧ ch ≠ ',') ∧ payload.text = front ++ ['…']

theorem oneOf_of_all {chars more : String} {ch : Char}
    (hall : chars.toList.all (oneOf more) = true) (h : oneOf chars ch) :
    oneOf more ch := by
  apply List.all_eq_true.mp hall
  simpa [oneOf] using h

/-- The front of a text that is too long, before the ellipsis. -/
theorem exists_front {t : Str} {limit : ℕ} (ht : Normal t) (hlimit : 1 < limit)
    (hlong : ¬t.length ≤ limit) : ∃ front, front ≠ [] ∧ front <+: t ∧
      (∀ ch ∈ front.getLast?, ch ≠ ' ' ∧ ch ≠ ',') ∧
        clip t limit = front ++ ['…'] := by
  obtain ⟨n, hn, hclip⟩ := clip_cut hlimit hlong
  obtain ⟨ch, rest, hcons⟩ := List.exists_cons_of_ne_nil ht.ne_nil
  have hfirst : ¬oneOf " ," ch := by
    intro hmem
    apply ht.head ch
    · rw [hcons]
      rfl
    · exact oneOf_of_all (by decide) hmem
  have hne : rstripBy (oneOf " ,") (t.take n) ≠ [] := by
    intro hnil
    have hall := List.rdropWhile_eq_nil_iff.mp hnil
    apply hfirst
    apply hall
    rw [hcons, List.take_cons hn]
    exact List.mem_cons_self
  refine ⟨_, hne, (List.rdropWhile_prefix _ _).trans (List.take_prefix n t), ?_,
    hclip⟩
  intro last hlast
  rw [List.getLast?_eq_some_getLast hne] at hlast
  cases hlast
  have hout : ¬oneOf " ," ((rstripBy (oneOf " ,") (t.take n)).getLast hne) :=
    List.rdropWhile_last_not _ _ _
  simpa [oneOf] using hout

theorem Normal.not_isSpace {n : Str} (h : Normal n) {ch : Char} (hmem : ch ∈ n)
    (hch : ¬oneOf " ,-" ch) : ¬isSpace ch := by
  intro hspace
  rw [h.spaced.1 ch hmem hspace] at hch
  exact hch (by decide)

theorem Normal.not_mark {n : Str} (h : Normal n) {ch : Char} (hmem : ch ∈ n) :
    ch ≠ '*' ∧ ch ≠ ';' ∧ ch ≠ '|' ∧ ch ≠ '•' := by
  have hplain := h.plain ch hmem
  simp only [oneOf, String.reduceToList, List.contains_eq_mem, List.mem_cons,
    List.not_mem_nil, or_false, decide_eq_true_iff, not_or] at hplain
  exact ⟨hplain.1, hplain.2.2.1, hplain.2.2.2, hplain.2.1⟩

theorem envelope_whole {n : Str} (h : Normal n) (hfits : n.length ≤ 1024)
    (endSession : Bool) (buttons : List AliceButtonsItem) :
    Envelope n ⟨n, n, endSession, buttons⟩ where
  tts := rfl
  length_pos := List.length_pos_iff.mpr h.ne_nil
  length_le := hfits
  head := fun ch hch => h.not_isSpace (List.mem_of_head? hch) (h.head ch hch)
  last := fun ch hch => h.not_isSpace (List.mem_of_getLast? hch) (h.last ch hch)
  spaced := fun _ _ ha hb => h.spaced.not_two ha hb
  plain := fun _ hch => h.not_mark hch
  whole := fun _ => rfl
  clipped := fun hlong => absurd hfits (Nat.not_le_of_gt hlong)

theorem envelope_clipped {n front : Str} (h : Normal n) (hlong : ¬n.length ≤ 1024)
    (hne : front ≠ []) (hleads : front <+: n)
    (hlast : ∀ ch ∈ front.getLast?, ch ≠ ' ' ∧ ch ≠ ',')
    (hlength : (front ++ ['…']).length ≤ 1024) (endSession : Bool)
    (buttons : List AliceButtonsItem) :
    Envelope n ⟨front ++ ['…'], front ++ ['…'], endSession, buttons⟩ where
  tts := rfl
  length_pos := by simp
  length_le := hlength
  head := by
    intro ch hch
    have hfirst : ch ∈ n.head? := by
      obtain ⟨rest, rfl⟩ := hleads
      rw [List.head?_append_of_ne_nil _ hne]
      rwa [List.head?_append_of_ne_nil _ hne] at hch
    exact h.not_isSpace (List.mem_of_head? hfirst) (h.head ch hfirst)
  last := by
    intro ch hch
    rw [List.getLast?_append] at hch
    cases hch
    decide
  spaced := fun _ _ ha hb =>
    ((h.spaced.within hleads.isInfix).append_singleton (by decide)).not_two ha hb
  plain := by
    intro ch hch
    rcases List.mem_append.mp hch with hch | hch
    · exact h.not_mark (hleads.subset hch)
    · rw [List.mem_singleton.mp hch]
      decide
  whole := fun hshort => absurd hshort hlong
  clipped := fun _ => ⟨front, hne, hleads, hlast, rfl⟩

/-- Whatever text is rendered, its payload is in order. -/
theorem envelope_renderVoiceResponse (text : Str) (buttons : List AliceButtonsItem) :
    Envelope (normalizeText text) (renderVoiceResponse text buttons) := by
  have hnormal := normal_normalizeText text
  rw [renderVoiceResponse]
  generalize normalizeText text = n at hnormal ⊢
  have hlimit : maxAliceFieldLength = 1024 := rfl
  by_cases hfits : n.length ≤ maxAliceFieldLength
  · have hclip : clip n maxAliceFieldLength = n := if_pos hfits
    simp only [hclip]
    exact envelope_whole hnormal hfits false buttons
  · obtain ⟨front, hne, hleads, hlast, hclip⟩ :=
      exists_front hnormal (by decide) hfits
    have hlength := @length_clip n maxAliceFieldLength (by decide)
    rw [hclip] at hlength
    simp only [hclip]
    exact envelope_clipped hnormal hfits hne hleads hlast hlength false buttons

end AliceSkill
