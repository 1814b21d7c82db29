import AliceSkill.Text.Words

/-!
# Lower case

What is known of lower case whatever the version of the Unicode database: it
goes letter by letter, a capital sigma at the end of a word apart, and it takes
white space and punctuation to what they are.
-/

namespace Text

/-- The lower case sigma, wherever it stands in a word. -/
def plainSigma (c : Char) : Char := if c = 'ς' then 'σ' else c

/-- White space and punctuation, the characters between words. -/
def UnicodeData.isSeparator (u : UnicodeData) (c : Char) : Bool :=
  !u.isWord c || isSpace c

structure UnicodeData.Lawful (u : UnicodeData) : Prop where
  /-- Lower case goes letter by letter; only a capital sigma has two. -/
  lower_letters : ∀ t, (u.lower t).map plainSigma =
    t.flatMap fun c => (u.lower [c]).map plainSigma
  lower_space : ∀ c, isSpace c → u.lower [c] = [c]
  /-- Punctuation has no letter for its lower case. -/
  lower_mark : ∀ c, ¬u.isWord c → ¬isSpace c →
    u.lower [c] ≠ [] ∧ ∀ d ∈ u.lower [c], ¬u.isWord d
  isAlnum_sigma : u.isAlnum 'ς' = u.isAlnum 'σ'
  isAlnum_yo : u.isAlnum 'ё' = true

theorem isSpace_plainSigma (c : Char) : isSpace (plainSigma c) = isSpace c := by
  rw [plainSigma]
  split
  · next hc =>
    rw [hc]
    rfl
  · rfl

theorem UnicodeData.Lawful.isWord_plainSigma {u : UnicodeData} (h : u.Lawful)
    (c : Char) : u.isWord (plainSigma c) = u.isWord c := by
  rw [plainSigma]
  split
  · next hc =>
    rw [hc, UnicodeData.isWord, UnicodeData.isWord, h.isAlnum_sigma]
    rfl
  · rfl

/-! ## The Cyrillic database -/

theorem UnicodeData.cyrillic_lower_letters (t : Str) :
    UnicodeData.cyrillic.lower t =
      t.flatMap fun c => UnicodeData.cyrillic.lower [c] := by
  induction t with
  | nil => rfl
  | cons c t ih =>
      rw [List.flatMap_cons, ← ih]
      rfl

theorem UnicodeData.cyrillic_isAlnum_iff {c : Char} :
    UnicodeData.cyrillic.isAlnum c ↔
      ((65 ≤ c.toNat ∧ c.toNat ≤ 90 ∨ 97 ≤ c.toNat ∧ c.toNat ≤ 122) ∨
        48 ≤ c.toNat ∧ c.toNat ≤ 57) ∨ 0x400 ≤ c.toNat ∧ c.toNat ≤ 0x45F := by
  simp only [UnicodeData.cyrillic, Bool.or_eq_true, Bool.and_eq_true,
    decide_eq_true_eq]
  apply or_congr_left
  delta Char.isAlphanum Char.isAlpha Char.isUpper Char.isLower Char.isDigit
  simp only [Bool.or_eq_true, Bool.and_eq_true, decide_eq_true_eq, ge_iff_le,
    UInt32.le_iff_toNat_le]
  exact Iff.rfl

/-- What is neither a letter nor a digit is its own lower case. -/
theorem UnicodeData.cyrillic_lower_of_not_isAlnum {c : Char}
    (h : ¬UnicodeData.cyrillic.isAlnum c) :
    UnicodeData.cyrillic.lower [c] = [c] := by
  rw [UnicodeData.cyrillic_isAlnum_iff] at h
  have hletters : ¬(0x410 ≤ c.toNat ∧ c.toNat ≤ 0x42F) := by omega
  have hothers : ¬(0x400 ≤ c.toNat ∧ c.toNat ≤ 0x40F) := by omega
  have hupper : ¬(c.val ≥ 'A'.val ∧ c.val ≤ 'Z'.val) := by
    intro hupper
    exact h (Or.inl (Or.inl (Or.inl hupper)))
  have hlatin : c.toLower = c := dif_neg hupper
  simp only [UnicodeData.cyrillic, List.map_singleton, if_neg hletters,
    if_neg hothers, hlatin]

theorem UnicodeData.cyrillic_not_isAlnum_of_isSpace {c : Char} (hc : isSpace c) :
    ¬UnicodeData.cyrillic.isAlnum c := by
  simp only [isSpace, Bool.or_eq_true, Bool.and_eq_true, decide_eq_true_eq,
    beq_iff_eq] at hc
  rw [UnicodeData.cyrillic_isAlnum_iff]
  omega

theorem UnicodeData.cyrillic_lawful : UnicodeData.cyrillic.Lawful where
  lower_letters t := by
    rw [UnicodeData.cyrillic_lower_letters, List.map_flatMap]
  lower_space c hc := UnicodeData.cyrillic_lower_of_not_isAlnum
    (UnicodeData.cyrillic_not_isAlnum_of_isSpace hc)
  lower_mark c hword _ := by
    have hsame : UnicodeData.cyrillic.lower [c] = [c] := by
      apply UnicodeData.cyrillic_lower_of_not_isAlnum
      intro halnum
      rw [UnicodeData.isWord, halnum] at hword
      exact hword rfl
    rw [hsame]
    refine ⟨List.cons_ne_nil _ _, fun d hd => ?_⟩
    rwa [List.mem_singleton.mp hd]
  isAlnum_sigma := by decide
  isAlnum_yo := by decide

end Text
