import Mathlib.Computability.Language
import AliceSkill.Text.Matching

/-!
# Words of a pattern

A pattern has a language, and a match takes a word of it.  For a pattern without
anchors the converse holds too: where a word of the pattern stands, a match is
found.  What a substitution does to a text is then shown by going through the
text once, with nothing but the words of the pattern in hand.
-/

namespace Text

namespace Regex

variable {r s : Regex} {c d : Cursor} {f : Cursor → List Cursor} {greedy : Bool}

/-! ## Iterations -/

/-- With no round required, an iteration stops or goes on with something to
take. -/
theorem mem_iterate_zero {fuel : ℕ} {max : Option ℕ} :
    d ∈ iterate f greedy (fuel + 1) 0 max c ↔ d = c ∨ (max ≠ some 0 ∧
      ∃ e ∈ f c, e.after.length < c.after.length ∧
        d ∈ iterate f greedy fuel 0 (max.map (· - 1)) e) := by
  rw [iterate]
  split_ifs with hmax hgreedy
  · simp [hmax]
  · simp [hmax, or_comm, and_assoc]
  · simp [hmax, and_assoc]

/-- How an iteration goes: the required rounds come first. -/
theorem iterate_induction {R : ℕ → Cursor → Cursor → Prop}
    (hdone : ∀ c, R 0 c c) (hmore : ∀ c d e, d ∈ f c → R 0 d e → R 0 c e)
    (hround : ∀ n c d e, d ∈ f c → R n d e → R (n + 1) c e)
    {fuel min : ℕ} {max : Option ℕ} (hfuel : min ≤ fuel)
    (hd : d ∈ iterate f greedy fuel min max c) : R min c d := by
  induction fuel generalizing min max c with
  | zero =>
      obtain rfl : min = 0 := Nat.le_zero.mp hfuel
      rw [iterate, List.mem_singleton] at hd
      rw [hd]
      exact hdone c
  | succ fuel ih =>
      cases min with
      | succ min =>
          rw [iterate, List.mem_flatMap] at hd
          obtain ⟨e, he, hd⟩ := hd
          exact hround min c e d he (ih (Nat.le_of_succ_le_succ hfuel) hd)
      | zero =>
          rcases mem_iterate_zero.mp hd with heq | ⟨-, e, he, -, hd⟩
          · rw [heq]
            exact hdone c
          · exact hmore c e d he (ih (Nat.zero_le _) hd)

/-! ## Languages -/

/-- The words of a pattern.  Anchors take nothing. -/
def language : Regex → Language Char
  | eps => 1
  | cls p => {u | ∃ ch, p ch ∧ u = [ch]}
  | seq r s => r.language * s.language
  | alt r s => r.language + s.language
  | rep _ min max r =>
      {u | ∃ n, min ≤ n ∧ (∀ m ∈ max, n ≤ Nat.max m min) ∧ u ∈ r.language ^ n}
  | group _ r => r.language
  | bos => 1
  | eos => 1

variable {u v : Str}

theorem mem_language_seq : u ∈ (seq r s).language ↔
    ∃ a ∈ r.language, ∃ b ∈ s.language, a ++ b = u :=
  Language.mem_mul

theorem mem_language_lit (t : Str) : u ∈ (lit t).language ↔ u = t := by
  induction t generalizing u with
  | nil => exact Language.mem_one u
  | cons ch t ih =>
      rw [lit, mem_language_seq]
      constructor
      · rintro ⟨a, ⟨d, hd, rfl⟩, b, hb, rfl⟩
        rw [ih.mp hb, beq_iff_eq.mp hd]
        rfl
      · rintro rfl
        exact ⟨[ch], ⟨ch, beq_self_eq_true ch, rfl⟩, t, ih.mpr rfl, rfl⟩

theorem mem_language_cls_pow {p : Char → Bool} {n : ℕ} :
    u ∈ (cls p).language ^ n ↔ u.length = n ∧ ∀ ch ∈ u, p ch := by
  induction n generalizing u with
  | zero =>
      rw [pow_zero, Language.mem_one]
      constructor
      · rintro rfl
        simp
      · rintro ⟨hlength, -⟩
        exact List.eq_nil_of_length_eq_zero hlength
  | succ n ih =>
      rw [pow_succ', Language.mem_mul]
      constructor
      · rintro ⟨a, ⟨ch, hch, rfl⟩, b, hb, rfl⟩
        obtain ⟨hlength, hall⟩ := ih.mp hb
        refine ⟨congrArg Nat.succ hlength, fun d hd => ?_⟩
        rcases List.mem_cons.mp hd with rfl | hd
        · exact hch
        · exact hall d hd
      · rintro ⟨hlength, hall⟩
        cases u with
        | nil => cases hlength
        | cons ch u =>
            have hrest := ih.mpr ⟨Nat.succ.inj hlength,
              fun d hd => hall d (List.mem_cons_of_mem _ hd)⟩
            exact ⟨[ch], ⟨ch, hall ch List.mem_cons_self, rfl⟩, u, hrest, rfl⟩

/-- A repeated class stands for a run of characters. -/
theorem mem_language_run {p : Char → Bool} {min : ℕ} {max : Option ℕ} :
    u ∈ (rep greedy min max (cls p)).language ↔ min ≤ u.length ∧
      (∀ m ∈ max, u.length ≤ Nat.max m min) ∧ ∀ ch ∈ u, p ch := by
  constructor
  · rintro ⟨n, hmin, hmax, hu⟩
    obtain ⟨rfl, hall⟩ := mem_language_cls_pow.mp hu
    exact ⟨hmin, hmax, hall⟩
  · rintro ⟨hmin, hmax, hall⟩
    exact ⟨u.length, hmin, hmax, mem_language_cls_pow.mpr ⟨rfl, hall⟩⟩

/-! ### Matches take words -/

theorem exists_word_of_iterate {L : Language Char}
    (hf : ∀ c d, d ∈ f c → ∃ u ∈ L, c.after = u ++ d.after)
    {fuel min : ℕ} {max : Option ℕ} (hfuel : min ≤ fuel)
    (hd : d ∈ iterate f greedy fuel min max c) :
    ∃ n, min ≤ n ∧ (∀ m ∈ max, n ≤ Nat.max m min) ∧
      ∃ u ∈ L ^ n, c.after = u ++ d.after := by
  have hstop : ∀ c : Cursor, ∃ u ∈ L ^ 0, c.after = u ++ c.after := fun c =>
    ⟨[], (Language.mem_one []).mpr rfl, rfl⟩
  have hgo : ∀ (n : ℕ) (c d e : Cursor), d ∈ f c → (∃ u ∈ L ^ n, d.after = u ++ e.after) →
      ∃ u ∈ L ^ (n + 1), c.after = u ++ e.after := by
    rintro n c d e hd ⟨v, hv, hrest⟩
    obtain ⟨u, hu, htaken⟩ := hf c d hd
    refine ⟨u ++ v, ?_, ?_⟩
    · rw [pow_succ']
      exact Language.append_mem_mul hu hv
    · rw [htaken, hrest, List.append_assoc]
  induction fuel generalizing min max c with
  | zero =>
      obtain rfl : min = 0 := Nat.le_zero.mp hfuel
      rw [iterate, List.mem_singleton] at hd
      rw [hd]
      exact ⟨0, Nat.le_refl _, fun _ _ => Nat.zero_le _, hstop c⟩
  | succ fuel ih =>
      cases min with
      | succ min =>
          rw [iterate, List.mem_flatMap] at hd
          obtain ⟨e, he, hd⟩ := hd
          obtain ⟨n, hmin, hmax, hword⟩ := ih (Nat.le_of_succ_le_succ hfuel) hd
          refine ⟨n + 1, Nat.succ_le_succ hmin, fun m hm => ?_,
            hgo n c e d he hword⟩
          have hle := hmax (m - 1) (Option.mem_map_of_mem _ hm)
          simp only [Nat.max_def] at hle ⊢
          split_ifs at hle ⊢ <;> omega
      | zero =>
          rcases mem_iterate_zero.mp hd with heq | ⟨hne, e, he, -, hd⟩
          · rw [heq]
            exact ⟨0, Nat.le_refl _, fun _ _ => Nat.zero_le _, hstop c⟩
          · obtain ⟨n, -, hmax, hword⟩ := ih (Nat.zero_le _) hd
            refine ⟨n + 1, Nat.zero_le _, fun m hm => ?_, hgo n c e d he hword⟩
            have hle := hmax (m - 1) (Option.mem_map_of_mem _ hm)
            have hpos : m ≠ 0 := by
              rintro rfl
              exact hne hm
            simp only [Nat.max_def] at hle ⊢
            split_ifs at hle ⊢ <;> omega

/-- A match takes a word of the pattern. -/
theorem exists_word (hd : d ∈ r.ends c) :
    ∃ u ∈ r.language, c.after = u ++ d.after := by
  have hnone : ∀ c : Cursor, ∃ u ∈ (1 : Language Char), c.after = u ++ c.after :=
    fun c => ⟨[], (Language.mem_one []).mpr rfl, rfl⟩
  induction r generalizing c d with
  | eps =>
      rw [List.mem_singleton.mp hd]
      exact hnone c
  | cls p =>
      rw [ends] at hd
      split at hd
      · next ch rest hafter =>
        split_ifs at hd with hch
        · rw [List.mem_singleton.mp hd]
          exact ⟨[ch], ⟨ch, hch, rfl⟩, hafter⟩
        · cases hd
      · cases hd
  | seq r s ihr ihs =>
      rw [ends, List.mem_flatMap] at hd
      obtain ⟨e, he, hd⟩ := hd
      obtain ⟨a, ha, hfirst⟩ := ihr he
      obtain ⟨b, hb, hsecond⟩ := ihs hd
      refine ⟨a ++ b, Language.append_mem_mul ha hb, ?_⟩
      rw [hfirst, hsecond, List.append_assoc]
  | alt r s ihr ihs =>
      rw [ends, List.mem_append] at hd
      cases hd with
      | inl hd =>
          obtain ⟨u, hu, htaken⟩ := ihr hd
          exact ⟨u, Or.inl hu, htaken⟩
      | inr hd =>
          obtain ⟨u, hu, htaken⟩ := ihs hd
          exact ⟨u, Or.inr hu, htaken⟩
  | rep greedy min max r ih =>
      rw [ends] at hd
      obtain ⟨n, hmin, hmax, u, hu, htaken⟩ :=
        exists_word_of_iterate (fun c d hd => ih hd) (by omega) hd
      exact ⟨u, ⟨n, hmin, hmax, hu⟩, htaken⟩
  | group i r ih =>
      rw [ends, List.mem_map] at hd
      obtain ⟨e, he, rfl⟩ := hd
      obtain ⟨u, hu, htaken⟩ := ih he
      exact ⟨u, hu, htaken⟩
  | bos =>
      rw [ends] at hd
      split_ifs at hd
      · rw [List.mem_singleton.mp hd]
        exact hnone c
      · cases hd
  | eos =>
      rw [ends] at hd
      split_ifs at hd
      · rw [List.mem_singleton.mp hd]
        exact hnone c
      · cases hd

/-! ### Words are matched -/

/-- The pattern looks at nothing but what it takes. -/
def anchorless : Regex → Bool
  | eps | cls _ => true
  | seq r s | alt r s => r.anchorless && s.anchorless
  | rep _ _ _ r | group _ r => r.anchorless
  | bos | eos => false

theorem iterate_complete {L : Language Char}
    (hf : ∀ c u v, u ∈ L → c.after = u ++ v → ∃ d ∈ f c, d.after = v)
    (words : List Str) (hwords : ∀ w ∈ words, w ∈ L) {fuel min : ℕ}
    {max : Option ℕ} (hmin : min ≤ words.length)
    (hmax : ∀ m ∈ max, words.length ≤ Nat.max m min)
    (hafter : c.after = words.flatten ++ v) (hfuel : min + c.after.length < fuel) :
    ∃ d ∈ iterate f greedy fuel min max c, d.after = v := by
  induction words generalizing fuel min max c with
  | nil =>
      obtain rfl : min = 0 := Nat.le_zero.mp hmin
      obtain ⟨fuel, rfl⟩ : ∃ k, fuel = k + 1 := ⟨fuel - 1, by omega⟩
      exact ⟨c, mem_iterate_zero.mpr (Or.inl rfl), hafter⟩
  | cons w words ih =>
      have hw := hwords w List.mem_cons_self
      have hrest := fun w hw => hwords w (List.mem_cons_of_mem _ hw)
      rw [List.length_cons] at hmin hmax
      rw [List.flatten_cons, List.append_assoc] at hafter
      obtain ⟨fuel, rfl⟩ : ∃ k, fuel = k + 1 := ⟨fuel - 1, by omega⟩
      obtain ⟨e, he, heafter⟩ := hf c w _ hw hafter
      have hlength := congrArg List.length hafter
      rw [List.length_append, ← heafter] at hlength
      have hbound : ∀ k ≤ words.length, min - 1 ≤ k → (min = 0 → k = 0) →
          ∀ m ∈ max.map (· - 1), words.length ≤ Nat.max m k := by
        intro k hk hmink hzero m hm
        obtain ⟨m', hm', rfl⟩ := Option.mem_map.mp hm
        have hle := hmax m' hm'
        simp only [Nat.max_def] at hle ⊢
        split_ifs at hle ⊢ <;> omega
      cases min with
      | succ min =>
          obtain ⟨d, hd, hdafter⟩ := ih hrest (Nat.le_of_succ_le_succ hmin)
            (hbound min (Nat.le_of_succ_le_succ hmin) (Nat.le_refl _) (by simp))
            heafter (show min + e.after.length < fuel by omega)
          refine ⟨d, ?_, hdafter⟩
          rw [iterate, List.mem_flatMap]
          exact ⟨e, he, hd⟩
      | zero =>
          cases w with
          | nil =>
              -- a round that takes nothing is left out
              refine ih hrest (Nat.zero_le _) (fun m hm => ?_) hafter hfuel
              exact (Nat.le_succ _).trans (hmax m hm)
          | cons ch w =>
              rw [List.length_cons] at hlength
              obtain ⟨d, hd, hdafter⟩ := ih hrest (Nat.zero_le _)
                (hbound 0 (Nat.zero_le _) (Nat.le_refl _) (fun _ => rfl))
                heafter (show 0 + e.after.length < fuel by omega)
              refine ⟨d, mem_iterate_zero.mpr (Or.inr ⟨?_, e, he, by omega, hd⟩),
                hdafter⟩
              rintro rfl
              exact absurd (hmax 0 rfl) (by simp)

/-- Where a word of the pattern stands, the pattern matches it. -/
theorem exists_end (hr : r.anchorless = true) (hu : u ∈ r.language)
    (hafter : c.after = u ++ v) : ∃ d ∈ r.ends c, d.after = v := by
  induction r generalizing c u v with
  | eps =>
      rw [(Language.mem_one u).mp hu, List.nil_append] at hafter
      exact ⟨c, List.mem_singleton_self c, hafter⟩
  | cls p =>
      obtain ⟨ch, hch, rfl⟩ := hu
      refine ⟨c.skip 1, ?_, by simp [hafter]⟩
      rw [ends_cls_cons hafter, if_pos hch]
      exact List.mem_singleton_self _
  | seq r s ihr ihs =>
      rw [anchorless, Bool.and_eq_true] at hr
      obtain ⟨a, ha, b, hb, rfl⟩ := mem_language_seq.mp hu
      rw [List.append_assoc] at hafter
      obtain ⟨e, he, heafter⟩ := ihr hr.1 ha hafter
      obtain ⟨d, hd, hdafter⟩ := ihs hr.2 hb heafter
      exact ⟨d, List.mem_flatMap.mpr ⟨e, he, hd⟩, hdafter⟩
  | alt r s ihr ihs =>
      rw [anchorless, Bool.and_eq_true] at hr
      cases hu with
      | inl hu =>
          obtain ⟨d, hd, hdafter⟩ := ihr hr.1 hu hafter
          exact ⟨d, List.mem_append_left _ hd, hdafter⟩
      | inr hu =>
          obtain ⟨d, hd, hdafter⟩ := ihs hr.2 hu hafter
          exact ⟨d, List.mem_append_right _ hd, hdafter⟩
  | rep greedy min max r ih =>
      obtain ⟨n, hmin, hmax, hword⟩ := hu
      obtain ⟨words, rfl, rfl, hwords⟩ := Language.mem_pow.mp hword
      rw [ends]
      exact iterate_complete (fun c u v hu hafter => ih hr hu hafter) words hwords
        hmin hmax hafter (by omega)
  | group i r ih =>
      obtain ⟨d, hd, hdafter⟩ := ih hr hu hafter
      exact ⟨_, List.mem_map.mpr ⟨d, hd, rfl⟩, hdafter⟩
  | bos => cases hr
  | eos => cases hr

/-! ### Matches at a place -/

variable {before after : Str}

theorem ends_of_matchAt (h : r.matchAt before after = some d) :
    d ∈ r.ends ⟨before, after, []⟩ ∧ d.after.length < after.length := by
  rw [matchAt] at h
  split at h
  · next c hc =>
    split_ifs at h with hlt
    cases h
    exact ⟨List.mem_of_head? hc, hlt⟩
  · cases h

theorem exists_word_of_matchAt (h : r.matchAt before after = some d) :
    ∃ u ∈ r.language, u ≠ [] ∧ after = u ++ d.after := by
  obtain ⟨hd, hlt⟩ := ends_of_matchAt h
  obtain ⟨u, hu, htaken⟩ := exists_word hd
  refine ⟨u, hu, ?_, htaken⟩
  rintro rfl
  rw [show after = d.after from htaken] at hlt
  exact Nat.lt_irrefl _ hlt

/-- Where nothing is matched, no word of the pattern stands. -/
theorem not_prefix_of_matchAt (hr : r.anchorless = true) (hne : [] ∉ r.language)
    (h : r.matchAt before after = none) (hu : u ∈ r.language) : ¬u <+: after := by
  rintro ⟨rest, hrest⟩
  obtain ⟨d, hd, -⟩ := exists_end (c := ⟨before, after, []⟩) hr hu hrest.symm
  cases hhead : (r.ends ⟨before, after, []⟩).head? with
  | none =>
      rw [List.head?_eq_none_iff.mp hhead] at hd
      cases hd
  | some e =>
      obtain ⟨w, hw, htaken⟩ := exists_word (List.mem_of_head? hhead)
      have hlt : e.after.length < after.length := by
        have hwpos : w ≠ [] := by
          rintro rfl
          exact hne hw
        have hlength := congrArg List.length htaken
        have hpos := List.length_pos_iff.mpr hwpos
        rw [List.length_append] at hlength
        show e.after.length < (⟨before, after, []⟩ : Cursor).after.length
        omega
      rw [matchAt, hhead] at h
      simp only [hlt, if_true] at h
      cases h

/-! ## Groups -/

/-- The pattern captures nothing. -/
def groupless : Regex → Bool
  | eps | cls _ | bos | eos => true
  | seq r s | alt r s => r.groupless && s.groupless
  | rep _ _ _ r => r.groupless
  | group _ _ => false

theorem groups_of_groupless (hr : r.groupless = true) (hd : d ∈ r.ends c) :
    d.groups = c.groups := by
  induction r generalizing c d with
  | eps => rw [List.mem_singleton.mp hd]
  | cls p =>
      rw [ends] at hd
      split at hd
      · split_ifs at hd
        · rw [List.mem_singleton.mp hd]
        · cases hd
      · cases hd
  | seq r s ihr ihs =>
      rw [groupless, Bool.and_eq_true] at hr
      rw [ends, List.mem_flatMap] at hd
      obtain ⟨e, he, hd⟩ := hd
      rw [ihs hr.2 hd, ihr hr.1 he]
  | alt r s ihr ihs =>
      rw [groupless, Bool.and_eq_true] at hr
      rw [ends, List.mem_append] at hd
      cases hd with
      | inl hd => exact ihr hr.1 hd
      | inr hd => exact ihs hr.2 hd
  | rep greedy min max r ih =>
      rw [groupless] at hr
      rw [ends] at hd
      refine iterate_induction (R := fun _ c d => d.groups = c.groups)
        (fun _ => rfl) ?_ ?_ (by omega) hd
      · intro c d e hd he
        rw [he, ih hr hd]
      · intro n c d e hd he
        rw [he, ih hr hd]
  | group i r ih => cases hr
  | bos =>
      rw [ends] at hd
      split_ifs at hd
      · rw [List.mem_singleton.mp hd]
      · cases hd
  | eos =>
      rw [ends] at hd
      split_ifs at hd
      · rw [List.mem_singleton.mp hd]
      · cases hd

/-- What is captured between two patterns that capture nothing. -/
theorem exists_word_of_capture {i : ℕ} {q : Regex} (hs : s.groupless = true)
    (hd : d ∈ (seq q (seq (group i r) s)).ends c) :
    ∃ a ∈ q.language, ∃ b ∈ s.language, d.group i ∈ r.language ∧
      c.after = a ++ (d.group i ++ (b ++ d.after)) := by
  rw [ends, List.mem_flatMap] at hd
  obtain ⟨c₁, hc₁, hd⟩ := hd
  rw [ends, List.mem_flatMap] at hd
  obtain ⟨c₂, hc₂, hd⟩ := hd
  rw [ends, List.mem_map] at hc₂
  obtain ⟨c₃, hc₃, rfl⟩ := hc₂
  obtain ⟨a, ha, hfirst⟩ := exists_word hc₁
  obtain ⟨u, hu, hsecond⟩ := exists_word hc₃
  obtain ⟨b, hb, hthird⟩ := exists_word hd
  replace hthird : c₃.after = b ++ d.after := hthird
  have hgroup : d.group i = u := by
    rw [Cursor.group, groups_of_groupless hs hd, List.lookup_cons_self,
      Option.getD_some, Cursor.since, hsecond, List.length_append,
      Nat.add_sub_cancel_right, List.take_left]
  rw [hgroup]
  refine ⟨a, ha, b, hb, hu, ?_⟩
  rw [hfirst, hsecond, hthird]

/-! ## Substitutions -/

/-- Induction along the pieces that are cut from a text, from any place on. -/
theorem cut_induction {f : Cursor → Str} {P : Str → Str → Prop} (hnil : P [] [])
    (hkeep : ∀ before ch rest out, r.matchAt before (ch :: rest) = none →
      P rest out → P (ch :: rest) (ch :: out))
    (hmatch : ∀ before after d out, r.matchAt before after = some d →
      P d.after out → P after (f d ++ out)) (fuel : ℕ) (before after : Str)
    (hfuel : after.length < fuel) :
    P after ((r.cut fuel before after).flatMap fun
      | .inl ch => [ch]
      | .inr d => f d) := by
  induction fuel generalizing before after with
  | zero => exact absurd hfuel (Nat.not_lt_zero _)
  | succ fuel ih =>
      cases hfound : r.matchAt before after with
      | some d =>
          obtain ⟨-, hlt⟩ := ends_of_matchAt hfound
          have hrest := ih d.before d.after (by omega)
          simp only [cut, hfound]
          exact hmatch before after d _ hfound hrest
      | none =>
          cases after with
          | nil =>
              simp only [cut, hfound]
              exact hnil
          | cons ch rest =>
              rw [List.length_cons] at hfuel
              have hrest := ih (ch :: before) rest (by omega)
              simp only [cut, hfound]
              exact hkeep before ch rest _ hfound hrest

/-- Going through a text with a substitution: a character is kept where nothing
is matched, and a match is replaced. -/
theorem sub_induction {f : Cursor → Str} {P : Str → Str → Prop} (hnil : P [] [])
    (hkeep : ∀ before ch rest out, r.matchAt before (ch :: rest) = none →
      P rest out → P (ch :: rest) (ch :: out))
    (hmatch : ∀ before after d out, r.matchAt before after = some d →
      P d.after out → P after (f d ++ out)) (t : Str) : P t (r.sub f t) :=
  cut_induction hnil hkeep hmatch _ [] t (Nat.lt_succ_self _)

/-- A character that is a word of the pattern is replaced wherever it stands. -/
theorem not_mem_sub {f : Cursor → Str} {ch : Char} (hr : r.anchorless = true)
    (hne : [] ∉ r.language) (hch : [ch] ∈ r.language) (hf : ∀ d, ch ∉ f d)
    (t : Str) : ch ∉ r.sub f t := by
  refine sub_induction (P := fun _ out => ch ∉ out) List.not_mem_nil ?_ ?_ t
  · intro before e rest out hnone hout hmem
    rcases List.mem_cons.mp hmem with rfl | hmem
    · exact not_prefix_of_matchAt hr hne hnone hch (List.prefix_append [ch] rest)
    · exact hout hmem
  · intro before after d out _ hout hmem
    rcases List.mem_append.mp hmem with hmem | hmem
    · exact hf d hmem
    · exact hout hmem

/-- Only the replacements of matches count. -/
theorem sub_congr {f g : Cursor → Str} {t : Str}
    (h : ∀ d ∈ r.finditer t, f d = g d) : r.sub f t = r.sub g t := by
  rw [sub, sub]
  refine List.flatMap_congr fun x hx => ?_
  cases x with
  | inl ch => rfl
  | inr d => exact h d (List.mem_filterMap.mpr ⟨.inr d, hx, rfl⟩)

/-! ### Reading from the end -/

section Reading

variable {σ : Type} [Preorder σ] {step : Char → σ → σ}

theorem foldr_monotone (hmono : ∀ ch, Monotone (step ch)) (u : Str) :
    Monotone fun x => u.foldr step x := by
  induction u with
  | nil => exact monotone_id
  | cons ch u ih => exact (hmono ch).comp ih

/-- A reader that goes through a text from its end does not get further when every
match is replaced by a text that takes it less far. -/
theorem foldr_sub_le (hmono : ∀ ch, Monotone (step ch)) {f : Cursor → Str}
    (hrepl : ∀ before after d, r.matchAt before after = some d →
      ∃ u, after = u ++ d.after ∧ ∀ x, (f d).foldr step x ≤ u.foldr step x)
    (x : σ) (t : Str) : (r.sub f t).foldr step x ≤ t.foldr step x := by
  refine sub_induction (P := fun t out => out.foldr step x ≤ t.foldr step x)
    le_rfl ?_ ?_ t
  · intro before ch rest out _ hout
    exact hmono ch hout
  · intro before after d out hmatch hout
    obtain ⟨u, htaken, hle⟩ := hrepl before after d hmatch
    rw [List.foldr_append, htaken, List.foldr_append]
    exact (hle _).trans (foldr_monotone hmono u hout)

theorem foldr_subConst_le (hmono : ∀ ch, Monotone (step ch)) {repl : Str}
    (hrepl : ∀ u, u ≠ [] → ∀ x, repl.foldr step x ≤ u.foldr step x)
    (x : σ) (t : Str) : (r.subConst repl t).foldr step x ≤ t.foldr step x := by
  apply foldr_sub_le hmono
  intro before after d hmatch
  obtain ⟨u, -, hne, htaken⟩ := exists_word_of_matchAt hmatch
  exact ⟨u, htaken, hrepl u hne⟩

end Reading

end Regex

end Text
