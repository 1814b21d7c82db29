import AliceSkill.Text.Weights

/-!
# Endings that are kept

A text that ends with a given ending, parted from what comes before by a space.
Rewriting keeps the ending where no match can reach into it.
-/

namespace Text

/-- Nothing, or a text that ends with a space. -/
def Spaceful (x : Str) : Prop := x = [] ∨ x.getLast? = some ' '

/-- The text ends with the ending, and a space parts it from the rest. -/
def Parted (ending t : Str) : Prop := ∃ x, t = x ++ ending ∧ Spaceful x

variable {ending t x : Str} {p : Char → Bool}

theorem Parted.suffix (h : Parted ending t) : ending <:+ t := by
  obtain ⟨x, rfl, -⟩ := h
  exact List.suffix_append x ending

theorem Spaceful.suffix {u : Str} (h : Spaceful x) (hu : u <:+ x) : Spaceful u := by
  cases h with
  | inl hnil =>
      rw [hnil, List.suffix_nil] at hu
      exact Or.inl hu
  | inr hlast =>
      obtain ⟨front, rfl⟩ := hu
      rw [List.getLast?_append] at hlast
      cases hget : u.getLast? with
      | none => exact Or.inl (List.getLast?_eq_none_iff.mp hget)
      | some ch =>
          rw [hget] at hlast
          exact Or.inr (hget.trans hlast)

theorem spaceful_of_getLast? {y : Str} (hx : Spaceful x)
    (h : y.getLast? = x.getLast?) : Spaceful y := by
  cases hx with
  | inl hnil =>
      rw [hnil, List.getLast?_nil] at h
      exact Or.inl (List.getLast?_eq_none_iff.mp h)
  | inr hlast => exact Or.inr (h.trans hlast)

/-- The space stays at the end. -/
theorem Spaceful.map {f : Str → Str} (h : Spaceful x) (hnil : f [] = [])
    (hspace : ∀ front, (f (front ++ [' '])).getLast? = some ' ') :
    Spaceful (f x) := by
  cases h with
  | inl hx =>
      rw [hx]
      exact Or.inl hnil
  | inr hlast =>
      obtain ⟨front, rfl⟩ := List.getLast?_eq_some_iff.mp hlast
      exact Or.inr (hspace front)

/-- A rewriting of characters one by one, or of runs of them, that can be done in
two parts. -/
theorem Parted.split (h : Parted ending t) {f : Str → Str}
    (hending : f ending = ending) (hf : ∀ x, Spaceful x →
      f (x ++ ending) = f x ++ f ending ∧ Spaceful (f x)) :
    Parted ending (f t) := by
  obtain ⟨x, rfl, hx⟩ := h
  obtain ⟨happend, hspace⟩ := hf x hx
  refine ⟨f x, ?_, hspace⟩
  rw [happend, hending]

/-! ## Collapsing and stripping -/

theorem collapseSpaces_eq_self (h : Spaced t) : collapseSpaces t = t := by
  induction t using collapse_induction with
  | hnil => exact collapseSpaces_nil
  | hspace ch t hch ih =>
      have hkept : t.dropWhile isSpace = t := by
        cases t with
        | nil => rfl
        | cons d t =>
            apply List.dropWhile_cons_of_neg
            intro hd
            apply h.2
            rw [h.1 ch List.mem_cons_self hch,
              h.1 d (List.mem_cons_of_mem _ List.mem_cons_self) hd]
            exact (List.prefix_append [' ', ' '] t).isInfix
      rw [hkept] at ih
      rw [collapseSpaces_space hch, hkept, ih (h.within (List.suffix_cons ch t).isInfix),
        h.1 ch List.mem_cons_self hch]
  | hcons ch t hch ih =>
      rw [collapseSpaces_cons hch, ih (h.within (List.suffix_cons ch t).isInfix)]

theorem spaceful_collapseSpaces (h : Spaceful x) : Spaceful (collapseSpaces x) := by
  induction x using collapse_induction with
  | hnil => exact Or.inl collapseSpaces_nil
  | hspace ch t hch ih =>
      have hrest := ih ((h.suffix (List.suffix_cons ch t)).suffix
        (List.dropWhile_suffix isSpace))
      rw [collapseSpaces_space hch]
      cases hrest with
      | inl hnil =>
          rw [hnil]
          exact Or.inr rfl
      | inr hlast =>
          right
          rw [List.getLast?_cons, hlast]
          rfl
  | hcons ch t hch ih =>
      have hrest := ih (h.suffix (List.suffix_cons ch t))
      rw [collapseSpaces_cons hch]
      cases hrest with
      | inl hnil =>
          exfalso
          have ht : t = [] := by
            cases t with
            | nil => rfl
            | cons d t =>
                by_cases hd : isSpace d
                · rw [collapseSpaces_space hd] at hnil
                  cases hnil
                · rw [collapseSpaces_cons hd] at hnil
                  cases hnil
          rw [ht] at h
          cases h with
          | inl h => cases h
          | inr h =>
              obtain rfl : ch = ' ' := by simpa using h
              exact hch (by decide)
      | inr hlast =>
          right
          rw [List.getLast?_cons, hlast]
          rfl

theorem Parted.collapseSpaces (h : Parted ending t) (hspaced : Spaced ending)
    (hhead : ∀ ch ∈ ending.head?, ¬isSpace ch) :
    Parted ending (collapseSpaces t) :=
  h.split (collapseSpaces_eq_self hspaced) fun _ hx =>
    ⟨collapseSpaces_append hhead, spaceful_collapseSpaces hx⟩

theorem Parted.stripBy (h : Parted ending t) (hne : ending ≠ [])
    (hhead : ∀ ch ∈ ending.head?, ¬p ch) (hlast : ∀ ch ∈ ending.getLast?, ¬p ch) :
    Parted ending (stripBy p t) := by
  obtain ⟨x, rfl, hx⟩ := h
  refine ⟨lstripBy p x, ?_, hx.suffix (List.dropWhile_suffix p)⟩
  have hkept : ∀ y : Str, rstripBy p (y ++ ending) = y ++ ending := by
    intro y
    apply List.rdropWhile_eq_self_iff.mpr
    intro happend
    rw [List.getLast_append_of_ne_nil happend hne]
    exact hlast _ (List.getLast?_eq_some_getLast hne)
  rw [Text.stripBy, lstripBy, dropWhile_append_of_head hhead, hkept]
  rfl

/-! ## Removed and replaced characters -/

theorem removePairs_append {c : Char} {u : Str} (hu : c ∉ u) (t : Str) :
    removePairs c (t ++ u) = removePairs c t ++ u := by
  have hkept : removePairs c u = u := by
    fun_induction removePairs c u with
    | case1 x y t h ih => simp [h.1] at hu
    | case2 x y t h ih => rw [ih fun hmem => hu (List.mem_cons_of_mem _ hmem)]
    | case3 t h => rfl
  fun_induction removePairs c t with
  | case1 x y t h ih =>
      rw [List.cons_append, List.cons_append, removePairs, if_pos h, ih]
  | case2 x y t h ih =>
      rw [List.cons_append] at ih
      rw [List.cons_append, List.cons_append, removePairs, if_neg h, ih,
        List.cons_append]
  | case3 t h =>
      cases t with
      | nil => exact hkept
      | cons x t =>
          cases t with
          | cons y t => exact absurd rfl (h x y t)
          | nil =>
              cases u with
              | nil => rfl
              | cons d u =>
                  have hd : ¬(x = c ∧ d = c) := fun hboth => hu (by simp [hboth.2])
                  rw [List.singleton_append, removePairs, if_neg hd, hkept]

theorem Parted.removePairs {c : Char} (h : Parted ending t) (hc : c ∉ ending)
    (hspace : c ≠ ' ') : Parted ending (removePairs c t) := by
  obtain ⟨x, rfl, hx⟩ := h
  refine ⟨Text.removePairs c x, removePairs_append hc x, hx.map rfl fun front => ?_⟩
  have hblank : c ∉ [' '] := by simpa using hspace
  rw [removePairs_append hblank, List.getLast?_append]
  rfl

theorem Parted.remove {c : Char} (h : Parted ending t) (hc : c ∉ ending)
    (hspace : c ≠ ' ') : Parted ending (remove c t) := by
  have hkept : ∀ u : Str, c ∉ u → Text.remove c u = u := by
    intro u hu
    refine List.filter_eq_self.mpr fun ch hch => ?_
    have hne : ch ≠ c := by
      rintro rfl
      exact hu hch
    simpa using hne
  apply h.split (hkept ending hc)
  refine fun x hx => ⟨List.filter_append _ _, hx.map rfl fun front => ?_⟩
  have hblank : Text.remove c [' '] = [' '] := hkept _ (by simpa using hspace)
  have happend : Text.remove c (front ++ [' ']) =
      Text.remove c front ++ Text.remove c [' '] := List.filter_append _ _
  rw [happend, hblank, List.getLast?_append]
  rfl

theorem Parted.replaceChar {c d : Char} (h : Parted ending t) (hc : c ∉ ending)
    (hspace : c ≠ ' ') : Parted ending (replaceChar c d t) := by
  have hkept : ∀ u : Str, c ∉ u → Text.replaceChar c d u = u := by
    intro u hu
    have hid : ∀ ch ∈ u, (if ch = c then d else ch) = ch := by
      intro ch hch
      apply if_neg
      rintro rfl
      exact hu hch
    rw [Text.replaceChar, List.map_congr_left hid, List.map_id']
  apply h.split (hkept ending hc)
  refine fun x hx => ⟨List.map_append, hx.map rfl fun front => ?_⟩
  have hblank : Text.replaceChar c d [' '] = [' '] := hkept _ (by simpa using hspace)
  have happend : Text.replaceChar c d (front ++ [' ']) =
      Text.replaceChar c d front ++ Text.replaceChar c d [' '] := List.map_append
  rw [happend, hblank, List.getLast?_append]
  rfl

/-! ## Substitutions -/

/-- A word that does not reach into the ending is over before it begins. -/
theorem prefix_of_not_across {u rest : Str} (h : u ++ rest = x ++ ending)
    (hacross : ∀ v, u = x ++ v → v <+: ending → v = []) : u <+: x := by
  rcases List.prefix_or_prefix_of_prefix ⟨rest, h⟩ (List.prefix_append x ending) with
    hfits | ⟨v, hv⟩
  · exact hfits
  · have hreach : v <+: ending := by
      rw [← List.prefix_append_right_inj x, hv, ← h]
      exact List.prefix_append u rest
    have hnil := hacross v hv.symm hreach
    rw [← hv, hnil, List.append_nil]

/-- What replaces a word at the end of a text ends with a space when the word
did. -/
theorem getLast?_replaced {u repl y : Str} (hx : Spaceful (u ++ x)) (hne : u ≠ [])
    (hlast : y.getLast? = x.getLast?)
    (hrepl : u.getLast? = some ' ' → repl.getLast? = some ' ') :
    (repl ++ y).getLast? = (u ++ x).getLast? := by
  rw [List.getLast?_append, List.getLast?_append, hlast]
  cases hget : x.getLast? with
  | some ch => rfl
  | none =>
      have hblank : u.getLast? = some ' ' := by
        rw [List.getLast?_eq_none_iff.mp hget, List.append_nil] at hx
        exact hx.resolve_left hne
      rw [Option.none_or, Option.none_or, hblank, hrepl hblank]

/-- A substitution keeps an ending that no match reaches into, and the space
before it. -/
theorem Parted.sub {r : Regex} {f : Cursor → Str} (h : Parted ending t)
    (hwithin : ∀ u ∈ r.language, ¬u <:+: ending)
    (hacross : ∀ u ∈ r.language, ∀ x v, u = x ++ v → v <+: ending → Spaceful x →
      v = [])
    (hrepl : ∀ u ∈ r.language, u.getLast? = some ' ' →
      ∀ d, (f d).getLast? = some ' ') : Parted ending (r.sub f t) := by
  have hgo : (∀ x, t = x ++ ending → Spaceful x →
      ∃ y, r.sub f t = y ++ ending ∧ y.getLast? = x.getLast?) ∧
        (t <:+ ending → r.sub f t = t) := by
    refine Regex.sub_induction (P := fun t out => (∀ x, t = x ++ ending →
      Spaceful x → ∃ y, out = y ++ ending ∧ y.getLast? = x.getLast?) ∧
        (t <:+ ending → out = t)) ?_ ?_ ?_ t
    · exact ⟨fun x ht _ => ⟨x, ht, rfl⟩, fun _ => rfl⟩
    · rintro before ch rest out - ⟨hparted, hsame⟩
      have hkept : ch :: rest <:+ ending → ch :: out = ch :: rest := fun hsuffix =>
        congrArg (ch :: ·) (hsame ((List.suffix_cons ch rest).trans hsuffix))
      refine ⟨fun x ht hx => ?_, hkept⟩
      cases x with
      | nil =>
          rw [List.nil_append] at ht
          exact ⟨[], by rw [hkept (ht ▸ List.suffix_rfl), ht, List.nil_append], rfl⟩
      | cons d x =>
          rw [List.cons_append, List.cons.injEq] at ht
          obtain ⟨rfl, hrest⟩ := ht
          obtain ⟨y, rfl, hlast⟩ := hparted x hrest
            (hx.suffix (List.suffix_cons ch x))
          refine ⟨ch :: y, rfl, ?_⟩
          rw [List.getLast?_cons, List.getLast?_cons, hlast]
    · rintro before after d out hmatch ⟨hparted, -⟩
      obtain ⟨u, hu, hne, htaken⟩ := Regex.exists_word_of_matchAt hmatch
      constructor
      · intro x hafter hx
        -- the match ends before the ending begins
        have hfits : u <+: x :=
          prefix_of_not_across (htaken.symm.trans hafter) fun v hv hreach =>
            hacross u hu x v hv hreach hx
        obtain ⟨x', rfl⟩ := hfits
        have hbehind : d.after = x' ++ ending := by
          rw [List.append_assoc] at hafter
          exact List.append_cancel_left (htaken.symm.trans hafter)
        obtain ⟨y, rfl, hlast⟩ := hparted x' hbehind
          (hx.suffix (List.suffix_append u x'))
        refine ⟨f d ++ y, by rw [List.append_assoc], ?_⟩
        exact getLast?_replaced hx hne hlast fun hblank => hrepl u hu hblank d
      · intro hsuffix
        exfalso
        apply hwithin u hu
        have hhere : u <+: after := ⟨d.after, htaken.symm⟩
        exact hhere.isInfix.trans hsuffix.isInfix
  obtain ⟨x, ht, hx⟩ := h
  obtain ⟨y, hy, hlast⟩ := hgo.1 x ht hx
  exact ⟨y, hy, spaceful_of_getLast? hx hlast⟩

end Text
