import AliceSkill.Services.Conversation
import AliceSkill.Services.Patterns
import AliceSkill.Services.Splitting
import AliceSkill.Text.Endings

/-!
# Instructions to the user

An answer that goes on ends with an instruction how to hear the rest.  The
renderer cleans the whole text again, and none of its patterns reaches into the
instruction or takes it away; nor is the text long enough to be clipped.
-/

namespace AliceSkill

open Text

/-- What the renderer leaves alone at the end of a text. -/
structure Instruction (core : Str) : Prop where
  head : core.head? = some 'С'
  last : core.getLast? = some '.'
  spaced : Spaced core
  plain : core.all (fun ch => !oneOf "*`)#;|•,h" ch) = true

def moreInstruction : Str := "Скажи: подробнее.".toList

def continueInstruction : Str := "Скажи: продолжай.".toList

theorem instruction_more : Instruction moreInstruction :=
  ⟨by decide, by decide, spaced_of_all (by decide) (by decide), by decide⟩

theorem instruction_continue : Instruction continueInstruction :=
  ⟨by decide, by decide, spaced_of_all (by decide) (by decide), by decide⟩

section Rendering

variable {core t u : Str}

theorem Instruction.not_mem (h : Instruction core) {ch : Char}
    (hch : oneOf "*`)#;|•,h" ch = true) : ch ∉ core := by
  intro hmem
  have hplain := List.all_eq_true.mp h.plain ch hmem
  rw [hch] at hplain
  cases hplain

theorem Instruction.ne_nil (h : Instruction core) : core ≠ [] := by
  rintro rfl
  cases h.head

theorem Instruction.exists_cons (h : Instruction core) :
    ∃ rest, core = 'С' :: rest :=
  List.head?_eq_some_iff.mp h.head

/-- A word with a character that the instruction does not have. -/
theorem Instruction.not_infix (h : Instruction core) {ch : Char} (hmem : ch ∈ u)
    (hch : oneOf "*`)#;|•,h" ch = true) : ¬u <:+: core :=
  fun hoccurs => h.not_mem hch (hoccurs.subset hmem)

/-- A word that ends with such a character does not end in the instruction. -/
theorem Instruction.not_across_of_last (h : Instruction core) {ch : Char}
    (hlast : u.getLast? = some ch) (hch : oneOf "*`)#;|•,h" ch = true)
    {x v : Str} (hu : u = x ++ v) (hv : v <+: core) : v = [] := by
  by_contra hne
  have hmem : ch ∈ v := by
    rw [hu, List.getLast?_append_of_ne_nil _ hne] at hlast
    exact List.mem_of_getLast? hlast
  exact h.not_mem hch (hv.subset hmem)

/-- A word without the first letter of the instruction does not go into it. -/
theorem Instruction.not_across_of_class (h : Instruction core) (hu : 'С' ∉ u)
    {x v : Str} (hsplit : u = x ++ v) (hv : v <+: core) : v = [] := by
  obtain ⟨rest, rfl⟩ := h.exists_cons
  cases v with
  | nil => rfl
  | cons ch v =>
      rw [List.cons_prefix_cons] at hv
      exfalso
      apply hu
      rw [hsplit, hv.1]
      exact List.mem_append_right x List.mem_cons_self

theorem parted_codeSpan (hcore : Instruction core) (h : Parted core t) :
    Parted core (codeSpan.subConst [] t) := by
  apply h.sub
  · intro u hu
    exact hcore.not_infix (List.mem_of_getLast? (getLast?_codeSpan hu)) (by decide)
  · intro u hu x v hsplit hv _
    exact hcore.not_across_of_last (getLast?_codeSpan hu) (by decide) hsplit hv
  · intro u hu hlast
    rw [getLast?_codeSpan hu] at hlast
    cases hlast

theorem parted_markdownLink (hcore : Instruction core) (h : Parted core t) :
    Parted core (markdownLink.sub (·.group 1) t) := by
  apply h.sub
  · intro u hu
    exact hcore.not_infix (List.mem_of_getLast? (getLast?_markdownLink hu))
      (by decide)
  · intro u hu x v hsplit hv _
    exact hcore.not_across_of_last (getLast?_markdownLink hu) (by decide) hsplit hv
  · intro u hu hlast
    rw [getLast?_markdownLink hu] at hlast
    cases hlast

theorem parted_heading (hcore : Instruction core) (h : Parted core t) :
    Parted core (heading.subConst [' '] t) := by
  apply h.sub
  · intro u hu
    exact hcore.not_infix (mem_heading hu).1 (by decide)
  · intro u hu x v hsplit hv _
    apply hcore.not_across_of_class _ hsplit hv
    intro hmem
    exact absurd ((mem_heading hu).2 _ hmem) (by decide)
  · exact fun _ _ _ _ => rfl

theorem parted_semicolon (hcore : Instruction core) (h : Parted core t) :
    Parted core (semicolon.subConst ". ".toList t) := by
  apply h.sub
  · intro u hu
    exact hcore.not_infix (mem_semicolon hu).1 (by decide)
  · intro u hu x v hsplit hv _
    apply hcore.not_across_of_class _ hsplit hv
    intro hmem
    exact absurd ((mem_semicolon hu).2 _ hmem) (by decide)
  · exact fun _ _ _ _ => rfl

theorem parted_bar (hcore : Instruction core) (h : Parted core t) :
    Parted core ((Regex.cls (· == '|')).subConst ", ".toList t) := by
  apply h.sub
  · intro u hu
    rw [mem_bar hu]
    exact hcore.not_infix List.mem_cons_self (by decide)
  · intro u hu x v hsplit hv _
    rw [mem_bar hu] at hsplit
    exact hcore.not_across_of_class (by decide) hsplit hv
  · exact fun _ _ _ _ => rfl

/-- A link ends at the space before the instruction at the latest. -/
theorem parted_url (hcore : Instruction core) (h : Parted core t) :
    Parted core (url.subConst "ссылку я опустил".toList t) := by
  apply h.sub
  · intro u hu
    obtain ⟨⟨rest, rfl⟩, -⟩ := mem_url_word hu
    exact hcore.not_infix List.mem_cons_self (by decide)
  · intro u hu x v hsplit hv hx
    obtain ⟨⟨rest, hhead⟩, hword⟩ := mem_url_word hu
    cases hx with
    | inl hnil =>
        rw [hnil, List.nil_append] at hsplit
        rw [hsplit] at hhead
        rw [hhead] at hv
        exact absurd (hv.subset List.mem_cons_self) (hcore.not_mem (by decide))
    | inr hlast =>
        have hmem : ' ' ∈ u := by
          rw [hsplit]
          exact List.mem_append_left v (List.mem_of_getLast? hlast)
        exact absurd (by decide) (hword ' ' hmem)
  · intro u hu hlast
    exact absurd (by decide) ((mem_url_word hu).2 ' ' (List.mem_of_getLast? hlast))

theorem parted_doubledComma (hcore : Instruction core) (h : Parted core t) :
    Parted core (doubledComma.subConst ", ".toList t) := by
  apply h.sub
  · intro u hu
    exact hcore.not_infix (List.mem_of_getLast? (mem_doubledComma hu).2) (by decide)
  · intro u hu x v hsplit hv _
    exact hcore.not_across_of_last (mem_doubledComma hu).2 (by decide) hsplit hv
  · exact fun _ _ _ _ => rfl

theorem parted_spaceRun (hcore : Instruction core) (h : Parted core t) :
    Parted core (spaceRun.subConst [' '] t) := by
  apply h.sub
  · intro u hu hoccurs
    obtain ⟨hlength, hall⟩ := mem_spaceRun.mp hu
    have hblank : ∀ ch ∈ u, ch = ' ' := fun ch hch =>
      hcore.spaced.1 ch (hoccurs.subset hch) (hall ch hch)
    have hrun : u = ' ' :: ' ' :: u.drop 2 := by
      cases u with
      | nil => cases hlength
      | cons a u =>
          cases u with
          | nil => exact absurd hlength (by simp)
          | cons b u =>
              rw [hblank a (by simp), hblank b (by simp)]
              rfl
    apply hcore.spaced.2
    rw [hrun] at hoccurs
    exact (List.prefix_append [' ', ' '] (u.drop 2)).isInfix.trans hoccurs
  · intro u hu x v hsplit hv _
    apply hcore.not_across_of_class _ hsplit hv
    intro hmem
    exact absurd ((mem_spaceRun.mp hu).2 _ hmem) (by decide)
  · exact fun _ _ _ _ => rfl

theorem parted_stripBy (hcore : Instruction core) {p : Char → Bool} (hhead : ¬p 'С')
    (hlast : ¬p '.') (h : Parted core t) : Parted core (stripBy p t) := by
  apply h.stripBy hcore.ne_nil
  · rw [hcore.head]
    rintro ch ⟨⟩
    exact hhead
  · rw [hcore.last]
    rintro ch ⟨⟩
    exact hlast

/-- The renderer keeps the instruction at the end. -/
theorem parted_normalizeText (hcore : Instruction core) (h : Parted core t) :
    Parted core (normalizeText t) := by
  have hfront : ∀ ch ∈ core.head?, ¬isSpace ch := by
    rw [hcore.head]
    rintro ch ⟨⟩
    decide
  have hstar : '*' ∉ core := hcore.not_mem (by decide)
  have hbullet : '•' ∉ core := hcore.not_mem (by decide)
  unfold normalizeText
  extract_lets n₁ n₂ n₃ n₄ n₅ n₆ n₇ n₈ n₉ n₁₀ n₁₁ n₁₂
  have h₁ : Parted core n₁ :=
    parted_stripBy hcore (by decide) (by decide)
      (h.collapseSpaces hcore.spaced hfront)
  have h₂ : Parted core n₂ := by
    apply Parted.remove _ hstar (by decide)
    exact h₁.removePairs hstar (by decide)
  have h₃ : Parted core n₃ := parted_codeSpan hcore h₂
  have h₄ : Parted core n₄ := parted_markdownLink hcore h₃
  have h₅ : Parted core n₅ := parted_heading hcore h₄
  have h₆ : Parted core n₆ := h₅.replaceChar hbullet (by decide)
  have h₇ : Parted core n₇ := parted_semicolon hcore h₆
  have h₈ : Parted core n₈ := parted_bar hcore h₇
  have h₉ : Parted core n₉ := parted_url hcore h₈
  have h₁₀ : Parted core n₁₀ := parted_doubledComma hcore h₉
  have h₁₁ : Parted core n₁₁ := parted_spaceRun hcore h₁₀
  have h₁₂ : Parted core n₁₂ := parted_stripBy hcore (by decide) (by decide) h₁₁
  have hne : n₁₂ ≠ [] := by
    intro hnil
    rw [hnil] at h₁₂
    exact hcore.ne_nil (List.suffix_nil.mp h₁₂.suffix)
  rw [if_pos hne]
  exact h₁₂

end Rendering

/-! ## What is said -/

/-- The text of a reply with a ready tail ends with the instruction. -/
theorem shortText_readyTail {rawText : Str}
    (h : (prepareLlmReply rawText).followupMode = .readyTail) :
    ∃ head, (prepareLlmReply rawText).shortText =
      head ++ " Скажи: подробнее.".toList := by
  rw [prepareLlmReply] at h ⊢
  simp only at h ⊢
  generalize cleanVisibleText (extractFollowupRequest rawText).1 = text at h ⊢
  split at h
  · exfalso
    split_ifs at h
  · next hlong =>
    rw [if_neg hlong]
    cases htail : (splitShortAndTail text shortReplyLimit).2 with
    | none =>
        rw [htail] at h
        simp at h
    | some tail =>
        have htruthy := (truthy_some tail).mpr (splitShortAndTail_ne_nil htail)
        exact ⟨(splitShortAndTail text shortReplyLimit).1, if_pos htruthy⟩

theorem parted_of_append (front core : Str) :
    Parted core (front ++ (' ' :: core)) :=
  ⟨front ++ [' '], by simp, Or.inr (by simp)⟩

theorem parted_presentReplyText {rawText core : Str}
    (h : (prepareLlmReply rawText).followupMode = .readyTail ∧ core = moreInstruction ∨
      (prepareLlmReply rawText).followupMode = .deferredOffer ∧
        core = continueInstruction) :
    Parted core (presentReplyText (prepareLlmReply rawText).shortText
      (prepareLlmReply rawText).followupMode) := by
  have hmore : " Скажи: подробнее.".toList = ' ' :: moreInstruction := by decide
  have hcontinue : " Скажи: продолжай.".toList = ' ' :: continueInstruction := by
    decide
  rcases h with ⟨hmode, rfl⟩ | ⟨hmode, rfl⟩
  · obtain ⟨head, hhead⟩ := shortText_readyTail hmode
    rw [presentReplyText, if_neg (by rw [hmode]; decide), hhead, hmore]
    exact parted_of_append head moreInstruction
  · rw [presentReplyText, if_pos hmode, hcontinue]
    exact parted_of_append _ continueInstruction

theorem length_presentReplyText (rawText : Str) :
    (presentReplyText (prepareLlmReply rawText).shortText
      (prepareLlmReply rawText).followupMode).length ≤ 438 := by
  have hshort := length_shortText_le rawText
  have hlimit : shortReplyLimit = 420 := rfl
  have hinstruction : " Скажи: продолжай.".toList.length = 18 := by decide
  rw [presentReplyText]
  split_ifs
  · rw [List.length_append, hinstruction]
    omega
  · omega

theorem text_renderVoiceResponse {t : Str}
    (h : (normalizeText t).length ≤ maxAliceFieldLength)
    (buttons : List AliceButtonsItem) :
    (renderVoiceResponse t buttons).text = normalizeText t := by
  rw [renderVoiceResponse, clip, if_pos h]

/-- The instruction reaches the user: the response is not clipped, and it ends
with the instruction that belongs to the mode of the reply. -/
theorem instruction_spoken (rawText : Str) (buttons : List AliceButtonsItem) :
    let reply := prepareLlmReply rawText
    let spoken := presentReplyText reply.shortText reply.followupMode
    (normalizeText spoken).length ≤ maxAliceFieldLength ∧
      (renderVoiceResponse spoken buttons).text = normalizeText spoken ∧
      (reply.followupMode = .readyTail → "Скажи: подробнее.".toList <:+
        (renderVoiceResponse spoken buttons).text) ∧
      (reply.followupMode = .deferredOffer → "Скажи: продолжай.".toList <:+
        (renderVoiceResponse spoken buttons).text) := by
  intro reply spoken
  have hlength := length_presentReplyText rawText
  have hmore := fun hmode => @parted_presentReplyText rawText moreInstruction
    (Or.inl ⟨hmode, rfl⟩)
  have hcontinue := fun hmode => @parted_presentReplyText rawText continueInstruction
    (Or.inr ⟨hmode, rfl⟩)
  change spoken.length ≤ 438 at hlength
  change reply.followupMode = .readyTail → Parted moreInstruction spoken at hmore
  change reply.followupMode = .deferredOffer → Parted continueInstruction spoken
    at hcontinue
  clear_value spoken reply
  have hwithin : (normalizeText spoken).length ≤ maxAliceFieldLength :=
    normalizeText_within (by omega)
  rw [text_renderVoiceResponse hwithin]
  refine ⟨hwithin, rfl, fun hmode => ?_, fun hmode => ?_⟩
  · exact (parted_normalizeText instruction_more (hmore hmode)).suffix
  · exact (parted_normalizeText instruction_continue (hcontinue hmode)).suffix

end AliceSkill
