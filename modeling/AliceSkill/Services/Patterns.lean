import AliceSkill.Services.Renderer
import AliceSkill.Text.Collapsing
import AliceSkill.Text.Languages

/-!
# The words of the renderer's patterns

What each of the patterns of the renderer can take, as far as it matters to the
text that is left: where a word begins and ends, and which characters it has.
-/

namespace AliceSkill

open Text Regex

variable {u : Str} {ch : Char}

theorem mem_language_plus {p : Char → Bool} {greedy : Bool} :
    u ∈ (rep greedy 1 none (cls p)).language ↔ u ≠ [] ∧ ∀ ch ∈ u, p ch := by
  rw [mem_language_run, ← List.length_pos_iff]
  simp [Nat.succ_le_iff]

theorem mem_language_star {p : Char → Bool} :
    u ∈ (star (cls p)).language ↔ ∀ ch ∈ u, p ch := by
  apply mem_language_run.trans
  simp

theorem mem_dots : u ∈ (lazyPlus dot).language ↔ u ≠ [] ∧ ∀ ch ∈ u, ch ≠ '\n' := by
  rw [lazyPlus, dot, mem_language_plus]
  simp

/-! ## Code spans -/

theorem mem_ticks (h : u ∈ (rep true 1 (some 3) (cls (· == '`'))).language) :
    u ≠ [] ∧ ∀ ch ∈ u, ch = '`' := by
  obtain ⟨hlength, -, hall⟩ := mem_language_run.mp h
  refine ⟨List.length_pos_iff.mp hlength, fun ch hch => ?_⟩
  exact beq_iff_eq.mp (hall ch hch)

theorem getLast?_codeSpan (h : u ∈ codeSpan.language) : u.getLast? = some '`' := by
  obtain ⟨a, -, v, hv, rfl⟩ := mem_language_seq.mp h
  obtain ⟨b, -, e, he, rfl⟩ := mem_language_seq.mp hv
  obtain ⟨hne, hall⟩ := mem_ticks he
  have hlast : e.getLast? = some '`' := by
    rw [List.getLast?_eq_some_getLast hne, hall _ (List.getLast_mem hne)]
  rw [List.getLast?_append, List.getLast?_append, hlast]
  rfl

/-- Two backticks with a text between them are taken. -/
theorem mem_codeSpan {content : Str} (hne : content ≠ [])
    (hline : ∀ ch ∈ content, ch ≠ '\n') :
    '`' :: (content ++ ['`']) ∈ codeSpan.language := by
  have htick : ['`'] ∈ (rep true 1 (some 3) (cls (· == '`'))).language := by
    rw [mem_language_run]
    simp
  apply mem_language_seq.mpr
  refine ⟨['`'], htick, content ++ ['`'], ?_, rfl⟩
  exact mem_language_seq.mpr ⟨content, mem_dots.mpr ⟨hne, hline⟩, ['`'], htick, rfl⟩

/-! ## Links -/

/-- A link with its label and its target. -/
def linkOf (label target : Str) : Str :=
  '[' :: (label ++ ("](".toList ++ (target ++ [')'])))

theorem mem_markdownLink : u ∈ markdownLink.language ↔ ∃ label target,
    (label ≠ [] ∧ ∀ ch ∈ label, ch ≠ '\n') ∧
      (target ≠ [] ∧ ∀ ch ∈ target, ch ≠ '\n') ∧ u = linkOf label target := by
  constructor
  · intro h
    obtain ⟨a, ha, v, hv, rfl⟩ := mem_language_seq.mp h
    obtain ⟨label, hlabel, w, hw, rfl⟩ := mem_language_seq.mp hv
    obtain ⟨b, hb, x, hx, rfl⟩ := mem_language_seq.mp hw
    obtain ⟨target, htarget, e, he, rfl⟩ := mem_language_seq.mp hx
    rw [(mem_language_lit _).mp ha, (mem_language_lit _).mp hb,
      (mem_language_lit _).mp he]
    exact ⟨label, target, mem_dots.mp hlabel, mem_dots.mp htarget, rfl⟩
  · rintro ⟨label, target, hlabel, htarget, rfl⟩
    have hclose : target ++ ")".toList ∈
        (seq (lazyPlus dot) (lit ")".toList)).language :=
      mem_language_seq.mpr ⟨target, mem_dots.mpr htarget, ")".toList,
        (mem_language_lit _).mpr rfl, rfl⟩
    have hmiddle := mem_language_seq.mpr ⟨"](".toList,
      (mem_language_lit "](".toList).mpr rfl, _, hclose, rfl⟩
    have hlabelled := mem_language_seq.mpr ⟨label,
      (mem_dots.mpr hlabel : label ∈ (group 1 (lazyPlus dot)).language), _, hmiddle,
      rfl⟩
    exact mem_language_seq.mpr ⟨"[".toList, (mem_language_lit _).mpr rfl, _,
      hlabelled, rfl⟩

theorem getLast?_linkOf (label target : Str) :
    (linkOf label target).getLast? = some ')' := by
  have hsplit : linkOf label target =
      ('[' :: (label ++ ("](".toList ++ target))) ++ [')'] := by
    simp [linkOf]
  rw [hsplit, List.getLast?_append]
  rfl

theorem getLast?_markdownLink (h : u ∈ markdownLink.language) :
    u.getLast? = some ')' := by
  obtain ⟨label, target, -, -, rfl⟩ := mem_markdownLink.mp h
  exact getLast?_linkOf label target

/-! ## Headings, semicolons and bars -/

theorem mem_heading (h : u ∈ heading.language) :
    '#' ∈ u ∧ ∀ ch ∈ u, isSpace ch ∨ ch = '#' := by
  obtain ⟨a, ha, v, hv, rfl⟩ := mem_language_seq.mp h
  obtain ⟨b, hb, e, he, rfl⟩ := mem_language_seq.mp hv
  have hstart : ∀ ch ∈ a, isSpace ch := by
    cases ha with
    | inl hbos =>
        rw [(Language.mem_one a).mp hbos]
        simp
    | inr hspace =>
        obtain ⟨ch, hch, rfl⟩ := hspace
        simpa using hch
  obtain ⟨hlength, -, hmarks⟩ := mem_language_run.mp hb
  have hspaces := mem_language_star.mp he
  constructor
  · obtain ⟨ch, hch⟩ := List.exists_mem_of_length_pos hlength
    rw [← beq_iff_eq.mp (hmarks ch hch)]
    exact List.mem_append_right _ (List.mem_append_left _ hch)
  · intro ch hch
    simp only [List.mem_append] at hch
    rcases hch with hch | hch | hch
    · exact Or.inl (hstart ch hch)
    · exact Or.inr (beq_iff_eq.mp (hmarks ch hch))
    · exact Or.inl (hspaces ch hch)

theorem mem_semicolon (h : u ∈ semicolon.language) :
    ';' ∈ u ∧ ∀ ch ∈ u, isSpace ch ∨ ch = ';' := by
  obtain ⟨a, ha, v, hv, rfl⟩ := mem_language_seq.mp h
  obtain ⟨b, ⟨d, hd, rfl⟩, e, he, rfl⟩ := mem_language_seq.mp hv
  rw [beq_iff_eq.mp hd]
  have hbefore := mem_language_star.mp ha
  have hbehind := mem_language_star.mp he
  constructor
  · simp
  · intro ch hch
    simp only [List.mem_append, List.mem_singleton] at hch
    rcases hch with hch | hch | hch
    · exact Or.inl (hbefore ch hch)
    · exact Or.inr hch
    · exact Or.inl (hbehind ch hch)

theorem mem_bar (h : u ∈ (cls (· == '|')).language) : u = ['|'] := by
  obtain ⟨ch, hch, rfl⟩ := h
  rw [beq_iff_eq.mp hch]

/-! ## Links without a label -/

/-- The beginnings of a link. -/
def schemes : List Str := ["http://".toList, "https://".toList]

theorem mem_url : u ∈ url.language ↔ ∃ scheme ∈ schemes, ∃ rest, rest ≠ [] ∧
    (∀ ch ∈ rest, ¬isSpace ch) ∧ u = scheme ++ rest := by
  have hrest : ∀ w : Str, w ∈ (plus (cls fun c => !isSpace c)).language ↔
      w ≠ [] ∧ ∀ ch ∈ w, ¬isSpace ch := by
    intro w
    rw [plus, mem_language_plus]
    simp
  constructor
  · intro h
    obtain ⟨a, ha, v, hv, rfl⟩ := mem_language_seq.mp h
    obtain ⟨b, hb, w, hw, rfl⟩ := mem_language_seq.mp hv
    obtain ⟨e, he, rest, hmem, rfl⟩ := mem_language_seq.mp hw
    obtain ⟨hne, hall⟩ := (hrest rest).mp hmem
    obtain ⟨-, hlength, hopt⟩ := mem_language_run.mp hb
    rw [(mem_language_lit _).mp ha, (mem_language_lit _).mp he]
    have hb' : b = [] ∨ b = ['s'] := by
      have hle : b.length ≤ 1 := hlength 1 rfl
      cases b with
      | nil => exact Or.inl rfl
      | cons d b =>
          have hnil : b = [] := by simpa using hle
          rw [beq_iff_eq.mp (hopt d List.mem_cons_self), hnil]
          exact Or.inr rfl
    rcases hb' with rfl | rfl
    · exact ⟨"http://".toList, by decide, rest, hne, hall, rfl⟩
    · exact ⟨"https://".toList, by decide, rest, hne, hall, rfl⟩
  · rintro ⟨scheme, hscheme, rest, hne, hall, rfl⟩
    have hbehind := mem_language_seq.mpr ⟨"://".toList,
      (mem_language_lit "://".toList).mpr rfl, rest, (hrest rest).mpr ⟨hne, hall⟩, rfl⟩
    have hopt : ∀ b ∈ [[], ['s']], b ∈ (rep true 0 (some 1) (cls (· == 's'))).language := by
      intro b hb
      rw [mem_language_run]
      simp only [List.mem_cons, List.not_mem_nil, or_false] at hb
      rcases hb with rfl | rfl <;> simp
    have hwhole : ∀ b ∈ [[], ['s']],
        "http".toList ++ (b ++ ("://".toList ++ rest)) ∈ url.language := fun b hb =>
      mem_language_seq.mpr ⟨"http".toList, (mem_language_lit _).mpr rfl, _,
        mem_language_seq.mpr ⟨b, hopt b hb, _, hbehind, rfl⟩, rfl⟩
    simp only [schemes, List.mem_cons, List.not_mem_nil, or_false] at hscheme
    rcases hscheme with rfl | rfl
    · exact hwhole [] (by simp)
    · exact hwhole ['s'] (by simp)

theorem scheme_head {scheme : Str} (h : scheme ∈ schemes) :
    ∃ rest, scheme = 'h' :: rest := by
  simp only [schemes, List.mem_cons, List.not_mem_nil, or_false] at h
  rcases h with rfl | rfl
  · exact ⟨_, rfl⟩
  · exact ⟨_, rfl⟩

theorem mem_url_word (h : u ∈ url.language) :
    (∃ rest, u = 'h' :: rest) ∧ ∀ ch ∈ u, ¬isSpace ch := by
  obtain ⟨scheme, hscheme, rest, -, hall, rfl⟩ := mem_url.mp h
  have hword : ∀ scheme ∈ schemes, (scheme.all fun ch => !isSpace ch) = true := by
    decide
  constructor
  · obtain ⟨front, rfl⟩ := scheme_head hscheme
    exact ⟨front ++ rest, rfl⟩
  · intro ch hch
    rcases List.mem_append.mp hch with hch | hch
    · have hchar := List.all_eq_true.mp (hword scheme hscheme) ch hch
      simpa using hchar
    · exact hall ch hch

/-! ## Commas and runs of white space -/

theorem mem_doubledComma (h : u ∈ doubledComma.language) :
    (∃ rest, u = ',' :: rest) ∧ u.getLast? = some ',' := by
  obtain ⟨a, ⟨d, hd, rfl⟩, v, hv, rfl⟩ := mem_language_seq.mp h
  obtain ⟨b, -, e, he, rfl⟩ := mem_language_seq.mp hv
  rw [beq_iff_eq.mp hd]
  obtain ⟨hne, hall⟩ := mem_language_plus.mp he
  have hlast : e.getLast? = some ',' := by
    rw [List.getLast?_eq_some_getLast hne]
    exact congrArg some (beq_iff_eq.mp (hall _ (List.getLast_mem hne)))
  refine ⟨⟨b ++ e, rfl⟩, ?_⟩
  rw [List.getLast?_append, List.getLast?_append, hlast]
  rfl

theorem mem_spaceRun : u ∈ spaceRun.language ↔
    2 ≤ u.length ∧ ∀ ch ∈ u, isSpace ch := by
  rw [spaceRun, mem_language_run]
  simp

end AliceSkill
