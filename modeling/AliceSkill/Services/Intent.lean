import Mathlib.Tactic.MkIffOfInductiveProp
import AliceSkill.Services.Prompting
import AliceSkill.Text.Letters

/-!
# Whether an utterance asks to go on

`is_continue_intent` consults a table of phrases before it looks at tokens.
The table only repeats what the token rules say: the answer is a property of the
tokens, whatever their order, and of the words of the utterance up to their case
and to the punctuation and white space between them.
-/

namespace AliceSkill

open Text

variable {u : UnicodeData} {text text' : Str} {T T' : List Str}
  {pendingExists : Bool}

/-! ## The token rules -/

/-- A character of the pattern `[^\w\s]` becomes a space. -/
def blank (u : UnicodeData) (c : Char) : Char :=
  if u.isWord c ∨ isSpace c then c else ' '

/-- The tokens of the lower-cased text, ё as е and punctuation as spaces. -/
def intentTokens (u : UnicodeData) (text : Str) : List Str :=
  split ((replaceChar 'ё' 'е' (u.lower (strip text))).map (blank u))

/-- What the tokens of an utterance that asks to go on are. -/
@[mk_iff]
structure Accepts (pendingExists : Bool) (T : List Str) : Prop where
  one_at_least : 1 ≤ T.length
  five_at_most : T.length ≤ 5
  known : ∀ token ∈ T, token ∈ affirmationTokens ∨ token ∈ continueTokens ∨
    token ∈ fillerTokens
  going_on : (∃ token ∈ T, token ∈ continueTokens) ∨ pendingExists = true

theorem Accepts.pending (h : Accepts pendingExists T) : Accepts true T :=
  ⟨h.one_at_least, h.five_at_most, h.known, Or.inr rfl⟩

theorem Accepts.perm (hperm : T.Perm T') (h : Accepts pendingExists T) :
    Accepts pendingExists T' := by
  constructor
  · rw [← hperm.length_eq]
    exact h.one_at_least
  · rw [← hperm.length_eq]
    exact h.five_at_most
  · intro token htoken
    exact h.known token (hperm.mem_iff.mpr htoken)
  · refine h.going_on.imp_left fun hgoing => ?_
    obtain ⟨token, htoken, hcontinue⟩ := hgoing
    exact ⟨token, hperm.mem_iff.mp htoken, hcontinue⟩

theorem not_accepts_nil : ¬Accepts pendingExists [] := by
  intro h
  exact Nat.not_succ_le_zero 0 h.one_at_least

theorem mem_allowedContinueTokens {token : Str} :
    token ∈ allowedContinueTokens ↔ token ∈ affirmationTokens ∨
      token ∈ continueTokens ∨ token ∈ fillerTokens := by
  rw [allowedContinueTokens, List.mem_append, List.mem_append, or_assoc]

/-- Every phrase of the table obeys the token rules. -/
theorem accepts_of_mem_continueMarkers {phrase : Str}
    (h : phrase ∈ continueMarkers) : Accepts pendingExists (split phrase) := by
  have htable : continueMarkers.all (fun phrase =>
      decide (1 ≤ (split phrase).length) && decide ((split phrase).length ≤ 5) &&
      (split phrase).all (fun token => decide (token ∈ allowedContinueTokens)) &&
      (split phrase).any fun token => decide (token ∈ continueTokens)) = true := by
    decide +kernel
  have hphrase := List.all_eq_true.mp htable phrase h
  simp only [Bool.and_eq_true, decide_eq_true_eq, List.all_eq_true,
    List.any_eq_true] at hphrase
  obtain ⟨⟨⟨hsome, hfew⟩, hknown⟩, hgoing⟩ := hphrase
  exact ⟨hsome, hfew, fun token htoken =>
    mem_allowedContinueTokens.mp (hknown token htoken), Or.inl hgoing⟩

/-- The last test of the code: soft tokens only, which need a pending reply. -/
theorem soft_iff (hknown : ∀ token ∈ T, token ∈ allowedContinueTokens)
    (hnone : ∀ token ∈ T, token ∉ continueTokens) :
    (pendingExists && T.all fun token => token ∈ affirmationTokens ++ fillerTokens) =
        true ↔ pendingExists = true := by
  have hsoft : T.all (fun token => token ∈ affirmationTokens ++ fillerTokens) =
      true := by
    rw [List.all_eq_true]
    intro token htoken
    have hnot := hnone token htoken
    have hallowed := mem_allowedContinueTokens.mp (hknown token htoken)
    rw [decide_eq_true_eq, List.mem_append]
    exact hallowed.imp_right fun h => h.resolve_left hnot
  rw [hsoft, Bool.and_true]

theorem readTokens_eq_true_iff (hT : T ≠ []) :
    readTokens pendingExists T = true ↔ Accepts pendingExists T := by
  have hpos : 1 ≤ T.length := List.length_pos_iff.mpr hT
  rw [readTokens]
  by_cases hmany : T.length > maxContinueTokens
  · rw [if_pos hmany]
    exact iff_of_false Bool.false_ne_true fun h =>
      absurd h.five_at_most (Nat.not_le.mpr hmany)
  have hfew : T.length ≤ 5 := Nat.not_lt.mp hmany
  rw [if_neg hmany]
  by_cases hunknown : T.any (fun token => token ∉ allowedContinueTokens) = true
  · rw [if_pos hunknown]
    obtain ⟨token, htoken, hnot⟩ := List.any_eq_true.mp hunknown
    refine iff_of_false Bool.false_ne_true fun h => ?_
    exact of_decide_eq_true hnot
      (mem_allowedContinueTokens.mpr (h.known token htoken))
  have hknown : ∀ token ∈ T, token ∈ allowedContinueTokens := by
    simpa using hunknown
  rw [if_neg hunknown]
  have hrules : Accepts pendingExists T ↔
      (∃ token ∈ T, token ∈ continueTokens) ∨ pendingExists = true := by
    constructor
    · exact Accepts.going_on
    · intro hgoing
      exact ⟨hpos, hfew, fun token htoken =>
        mem_allowedContinueTokens.mp (hknown token htoken), hgoing⟩
  rw [hrules]
  by_cases hgoing : T.any (fun token => token ∈ continueTokens) = true
  · rw [if_pos hgoing]
    refine iff_of_true rfl (Or.inl ?_)
    simpa using hgoing
  · have hnone : ∀ token ∈ T, token ∉ continueTokens := by
      simpa using hgoing
    rw [if_neg hgoing, soft_iff hknown hnone]
    constructor
    · exact Or.inr
    · rintro (⟨token, htoken, hcontinue⟩ | hpending)
      · exact absurd hcontinue (hnone token htoken)
      · exact hpending

/-! ## The tokens of a text -/

theorem isSpace_blank {c : Char} (hc : u.isSeparator c) : isSpace (blank u c) := by
  rw [blank]
  split
  · next hkept =>
    rw [UnicodeData.isSeparator, Bool.or_eq_true, Bool.not_eq_true'] at hc
    rcases hkept with hword | hspace
    · exact hc.resolve_left (by simp [hword])
    · exact hspace
  · decide

/-- Normalizing in steps and splitting gives the tokens. -/
theorem split_normalizeIntentText (u : UnicodeData) (text : Str) :
    split (normalizeIntentText u text) = intentTokens u text := by
  have hblank : ∀ c, (!u.isWord c && !isSpace c) = true → isSpace (blank u c) := by
    intro c hc
    apply isSpace_blank
    rw [UnicodeData.isSeparator, (Bool.and_eq_true_iff.mp hc).1]
    rfl
  have hkeep : ∀ c, ¬(!u.isWord c && !isSpace c) = true → blank u c = c := by
    intro c hc
    have hword : u.isWord c ∨ isSpace c := by
      by_contra hmark
      apply hc
      simpa [not_or] using hmark
    rw [blank, if_pos hword]
  rw [normalizeIntentText, split_strip, split_collapseSpaces, intentTokens]
  exact split_subConst hblank hkeep _

theorem isContinueIntent_eq_true_iff (u : UnicodeData) (text : Str)
    (pendingExists : Bool) : isContinueIntent u text pendingExists = true ↔
      Accepts pendingExists (intentTokens u text) := by
  have hstrip : normalizeIntentText u text ≠ [] →
      split (normalizeIntentText u text) ≠ [] := split_strip_ne_nil
  rw [isContinueIntent_eq, ← split_normalizeIntentText]
  by_cases htable : normalizeIntentText u text ∈ continueMarkers
  · rw [if_pos htable]
    exact iff_of_true rfl (accepts_of_mem_continueMarkers htable)
  rw [if_neg htable]
  by_cases hempty : normalizeIntentText u text = []
  · rw [if_pos hempty, hempty]
    exact iff_of_false Bool.false_ne_true not_accepts_nil
  · rw [if_neg hempty]
    exact readTokens_eq_true_iff (hstrip hempty)

/-- Utterances of which the rules say the same get the same answer. -/
theorem isContinueIntent_congr
    (h : Accepts pendingExists (intentTokens u text) ↔
      Accepts pendingExists (intentTokens u text')) :
    isContinueIntent u text pendingExists =
      isContinueIntent u text' pendingExists := by
  rw [Bool.eq_iff_iff, isContinueIntent_eq_true_iff,
    isContinueIntent_eq_true_iff]
  exact h

/-! ## The words of an utterance -/

/-- The letters of a lower-cased text, as far as the rules can tell them. -/
def folded (u : UnicodeData) (t : Str) : Str :=
  (replaceChar 'ё' 'е' (t.map plainSigma)).map (blank u)

theorem folded_flatMap (t : Str) (k : Char → Str) :
    (replaceChar 'ё' 'е' (t.flatMap fun c => (k c).map plainSigma)).map (blank u) =
      t.flatMap fun c => folded u (k c) := by
  rw [replaceChar, List.map_flatMap, List.map_flatMap]
  rfl

theorem folded_lower (hu : u.Lawful) (t : Str) :
    folded u (u.lower t) = t.flatMap fun c => folded u (u.lower [c]) := by
  rw [folded, hu.lower_letters, folded_flatMap]

theorem mem_folded {t : Str} {d : Char} : d ∈ folded u t ↔
    ∃ c ∈ t, blank u (if plainSigma c = 'ё' then 'е' else plainSigma c) = d := by
  simp only [folded, replaceChar, List.map_map, List.mem_map,
    Function.comp_apply]

theorem folded_ne_nil {t : Str} (ht : t ≠ []) : folded u t ≠ [] := by
  simpa [folded, replaceChar] using ht

/-- Separators become white space. -/
theorem isSpace_of_mem_folded (hu : u.Lawful) {t : Str}
    (ht : ∀ c ∈ t, u.isSeparator c) : ∀ d ∈ folded u t, isSpace d := by
  intro d hd
  obtain ⟨c, hc, rfl⟩ := mem_folded.mp hd
  have hplain : u.isSeparator (plainSigma c) := by
    rw [UnicodeData.isSeparator, hu.isWord_plainSigma, isSpace_plainSigma]
    exact ht c hc
  have hletter : plainSigma c ≠ 'ё' := by
    intro hyo
    rw [hyo, UnicodeData.isSeparator, UnicodeData.isWord, hu.isAlnum_yo] at hplain
    exact absurd hplain (by decide)
  rw [if_neg hletter]
  exact isSpace_blank hplain

theorem folded_separator (hu : u.Lawful) {c : Char} (hc : u.isSeparator c) :
    folded u (u.lower [c]) ≠ [] ∧
      ∀ d ∈ folded u (u.lower [c]), isSpace d := by
  by_cases hspace : isSpace c
  · rw [hu.lower_space c hspace]
    refine ⟨folded_ne_nil (List.cons_ne_nil c []), isSpace_of_mem_folded hu ?_⟩
    intro d hd
    rwa [List.mem_singleton.mp hd]
  · have hword : ¬u.isWord c := by
      simpa [UnicodeData.isSeparator, hspace] using hc
    obtain ⟨hne, hmarks⟩ := hu.lower_mark c hword hspace
    refine ⟨folded_ne_nil hne, isSpace_of_mem_folded hu ?_⟩
    intro d hd
    have hmark := hmarks d hd
    simp [UnicodeData.isSeparator, hmark]

/-- Blanking sees no difference between the two kinds of sigma. -/
theorem plainSigma_blank (hu : u.Lawful) (c : Char) :
    plainSigma (blank u (if c = 'ё' then 'е' else c)) =
      blank u (if plainSigma c = 'ё' then 'е' else plainSigma c) := by
  by_cases hfinal : c = 'ς'
  · have hword := hu.isWord_plainSigma 'ς'
    have hsigma : plainSigma 'ς' = 'σ' := rfl
    have hspace : isSpace 'ς' = isSpace 'σ' := by decide
    rw [hsigma] at hword
    rw [hfinal, hsigma, if_neg (by decide), if_neg (by decide), blank, blank,
      hword, hspace]
    split <;> rfl
  · have hplain : plainSigma c = c := if_neg hfinal
    rw [hplain, plainSigma, if_neg]
    intro hblank
    have hletter : (if c = 'ё' then 'е' else c) ≠ 'ς' := by
      split
      · decide
      · exact hfinal
    generalize (if c = 'ё' then 'е' else c) = d at hblank hletter
    rw [blank] at hblank
    split at hblank
    · exact hletter hblank
    · exact absurd hblank (by decide)

theorem split_folded_lower (hu : u.Lawful) (text : Str) :
    (intentTokens u text).map (List.map plainSigma) =
      split (folded u (u.lower text)) := by
  have hfolded : ∀ t : Str,
      ((replaceChar 'ё' 'е' t).map (blank u)).map plainSigma = folded u t := by
    intro t
    simp only [folded, replaceChar, List.map_map]
    apply List.map_congr_left
    intro c _
    exact plainSigma_blank hu c
  have hspaces : ∀ c, isSpace c → ∀ d ∈ folded u (u.lower [c]), isSpace d := by
    intro c hc
    have hseparator : u.isSeparator c := by
      rw [UnicodeData.isSeparator, hc, Bool.or_true]
    exact (folded_separator hu hseparator).2
  rw [intentTokens, ← split_map isSpace_plainSigma, hfolded, folded_lower hu,
    split_flatMap_strip hspaces, ← folded_lower hu]

/-- Whatever separates the words, the tokens are read off from the words in
lower case, up to the kind of sigma. -/
theorem map_plainSigma_intentTokens (hu : u.Lawful) (text : Str) :
    (intentTokens u text).map (List.map plainSigma) =
      ((wordsBy u.isSeparator text).map u.lower).flatMap fun w =>
        split (folded u w) := by
  rw [split_folded_lower hu, folded_lower hu,
    split_flatMap fun c hc => folded_separator hu hc, List.flatMap_map]
  apply List.flatMap_congr
  intro w _
  rw [folded_lower hu]

theorem map_plainSigma_eq_self {token : Str} (h : ∀ c ∈ token, c ≠ 'ς') :
    token.map plainSigma = token := by
  have hsame : token.map plainSigma = token.map id := by
    apply List.map_congr_left
    intro c hc
    exact if_neg (h c hc)
  rw [hsame, List.map_id]

/-- No word of a vocabulary has a sigma. -/
theorem map_plainSigma_mem_iff {vocabulary : List Str} {token : Str}
    (h : vocabulary.all (fun word =>
      word.all fun c => decide (c ≠ 'σ') && decide (c ≠ 'ς')) = true) :
    token.map plainSigma ∈ vocabulary ↔ token ∈ vocabulary := by
  have hletters : ∀ word ∈ vocabulary, ∀ c ∈ word, c ≠ 'σ' ∧ c ≠ 'ς' := by
    intro word hword c hc
    have hletter := List.all_eq_true.mp (List.all_eq_true.mp h word hword) c hc
    simpa using hletter
  constructor
  · intro hmem
    have hplain : ∀ c ∈ token, c ≠ 'ς' := by
      intro c hc hfinal
      have hletter := (hletters _ hmem (plainSigma c) (List.mem_map_of_mem hc)).1
      rw [hfinal] at hletter
      exact hletter rfl
    rwa [map_plainSigma_eq_self hplain] at hmem
  · intro hmem
    rwa [map_plainSigma_eq_self fun c hc => (hletters _ hmem c hc).2]

theorem accepts_map_plainSigma :
    Accepts pendingExists (T.map (List.map plainSigma)) ↔
      Accepts pendingExists T := by
  have haffirmation : ∀ token, token.map plainSigma ∈ affirmationTokens ↔
      token ∈ affirmationTokens := fun _ => map_plainSigma_mem_iff (by decide +kernel)
  have hcontinue : ∀ token, token.map plainSigma ∈ continueTokens ↔
      token ∈ continueTokens := fun _ => map_plainSigma_mem_iff (by decide +kernel)
  have hfiller : ∀ token, token.map plainSigma ∈ fillerTokens ↔
      token ∈ fillerTokens := fun _ => map_plainSigma_mem_iff (by decide +kernel)
  have hknown : (∀ token ∈ T.map (List.map plainSigma),
        token ∈ affirmationTokens ∨ token ∈ continueTokens ∨ token ∈ fillerTokens) ↔
      ∀ token ∈ T,
        token ∈ affirmationTokens ∨ token ∈ continueTokens ∨ token ∈ fillerTokens := by
    simp only [List.forall_mem_map, haffirmation, hcontinue, hfiller]
  have hgoing : (∃ token ∈ T.map (List.map plainSigma), token ∈ continueTokens) ↔
      ∃ token ∈ T, token ∈ continueTokens := by
    simp [hcontinue]
  have hlength : (T.map (List.map plainSigma)).length = T.length := List.length_map _
  rw [accepts_iff, accepts_iff, hlength, hknown, hgoing]

/-! ## Reading by tokens -/

/-- The answer is a property of the tokens. -/
structure ReadByTokens (u : UnicodeData) : Prop where
  tokens : ∀ text, split (normalizeIntentText u text) = intentTokens u text
  accepts : ∀ text pendingExists,
    isContinueIntent u text pendingExists = true ↔
      Accepts pendingExists (intentTokens u text)
  /-- The table accepts nothing that the token rules reject. -/
  table : ∀ text pendingExists, normalizeIntentText u text ∈ continueMarkers →
    Accepts pendingExists (intentTokens u text)
  /-- The order of the tokens makes no difference. -/
  order : ∀ text text' pendingExists,
    (intentTokens u text).Perm (intentTokens u text') →
      isContinueIntent u text pendingExists =
        isContinueIntent u text' pendingExists
  /-- Nor do the order and the case of the words, or what separates them. -/
  words : u.Lawful → ∀ text text' pendingExists,
    ((wordsBy u.isSeparator text).map u.lower).Perm
        ((wordsBy u.isSeparator text').map u.lower) →
      isContinueIntent u text pendingExists =
        isContinueIntent u text' pendingExists
  /-- Nor does the case of the text. -/
  letters : u.Lawful → ∀ text text' pendingExists, u.lower text = u.lower text' →
    isContinueIntent u text pendingExists =
      isContinueIntent u text' pendingExists
  /-- With a pending reply more texts are accepted. -/
  pending : ∀ text, isContinueIntent u text false = true →
    isContinueIntent u text true = true

/-- Continue intent is its token specification. -/
theorem isContinueIntent_readByTokens (u : UnicodeData) : ReadByTokens u where
  tokens := split_normalizeIntentText u
  accepts := isContinueIntent_eq_true_iff u
  table text pendingExists htable := by
    rw [← split_normalizeIntentText]
    exact accepts_of_mem_continueMarkers htable
  order text text' pendingExists hperm :=
    isContinueIntent_congr ⟨Accepts.perm hperm, Accepts.perm hperm.symm⟩
  words hu text text' pendingExists hperm := by
    apply isContinueIntent_congr
    have htokens := hperm.flatMap_right fun w => split (folded u w)
    rw [← map_plainSigma_intentTokens hu, ← map_plainSigma_intentTokens hu]
      at htokens
    rw [← accepts_map_plainSigma, ← @accepts_map_plainSigma (intentTokens u text')]
    exact ⟨Accepts.perm htokens, Accepts.perm htokens.symm⟩
  letters hu text text' pendingExists hlower := by
    apply isContinueIntent_congr
    rw [← accepts_map_plainSigma, ← @accepts_map_plainSigma (intentTokens u text'),
      split_folded_lower hu, split_folded_lower hu, hlower]
  pending text h := by
    rw [isContinueIntent_eq_true_iff] at h ⊢
    exact h.pending

/-- A phrase of the table in another order, with capitals and punctuation. -/
theorem isContinueIntent_respelled :
    isContinueIntent .cyrillic "Ещё, ДАВАЙ!".toList false =
      isContinueIntent .cyrillic "давай  ещё".toList false :=
  (isContinueIntent_readByTokens .cyrillic).words UnicodeData.cyrillic_lawful
    _ _ false (by decide +kernel)

end AliceSkill
