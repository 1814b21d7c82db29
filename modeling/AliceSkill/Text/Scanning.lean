import AliceSkill.Text.Matching

/-!
# Scanning without cursors

`breakAt` finds the first occurrence of a text.  `scan` goes through a subject
from left to right and takes what a reader accepts at each place; a pattern whose
matches depend on the rest of the subject only is such a reader.
-/

namespace Text

/-! ## First occurrences -/

/-- The text before and after the first occurrence of `sep`. -/
def breakAt (sep : Str) : Str → Option (Str × Str)
  | [] => none
  | ch :: t =>
      if sep <+: ch :: t then some ([], (ch :: t).drop sep.length)
      else (breakAt sep t).map fun found => (ch :: found.1, found.2)

section BreakAt

variable {sep t u v : Str}

theorem breakAt_eq_none (hsep : sep ≠ []) :
    breakAt sep t = none ↔ ¬sep <:+: t := by
  induction t with
  | nil => simp [breakAt, hsep]
  | cons ch t ih =>
      rw [breakAt, List.infix_cons_iff]
      split_ifs with hhere
      · simp [hhere]
      · simp [hhere, ih]

theorem breakAt_eq_some (h : breakAt sep t = some (u, v)) :
    t = u ++ sep ++ v ∧ ∀ n < u.length, ¬sep <+: t.drop n := by
  induction t generalizing u with
  | nil => cases h
  | cons ch t ih =>
      rw [breakAt] at h
      split_ifs at h with hhere
      · cases h
        refine ⟨?_, fun n hn => absurd hn (Nat.not_lt_zero n)⟩
        obtain ⟨rest, hrest⟩ := hhere
        rw [← hrest, List.drop_left, List.nil_append]
      · obtain ⟨⟨u', v'⟩, hfound, heq⟩ := Option.map_eq_some_iff.mp h
        cases heq
        obtain ⟨ht, hfirst⟩ := ih hfound
        refine ⟨congrArg (ch :: ·) ht, fun n hn => ?_⟩
        cases n with
        | zero => exact hhere
        | succ n => exact hfirst n (Nat.lt_of_succ_lt_succ hn)

theorem breakAt_append (hsep : sep ≠ [])
    (hfirst : ∀ s, s <:+ u → s ≠ [] → ¬sep <+: s ++ (sep ++ v)) :
    breakAt sep (u ++ (sep ++ v)) = some (u, v) := by
  induction u with
  | nil =>
      obtain ⟨x, s, rfl⟩ := List.exists_cons_of_ne_nil hsep
      rw [List.nil_append, List.cons_append, breakAt, if_pos, ← List.cons_append,
        List.drop_left]
      exact List.prefix_append (x :: s) v
  | cons ch u ih =>
      have hhere := hfirst (ch :: u) List.suffix_rfl (List.cons_ne_nil _ _)
      have hrest := ih fun s hs => hfirst s (hs.trans (List.suffix_cons ch u))
      rw [List.cons_append] at hhere ⊢
      rw [breakAt, if_neg hhere, hrest]
      rfl

/-- A doubled character ends a text that neither contains it nor ends with the
character. -/
theorem breakAt_double {x : Char} (hu : ¬[x, x] <:+: u)
    (hlast : ∀ ch ∈ u.getLast?, ch ≠ x) :
    breakAt [x, x] (u ++ ([x, x] ++ v)) = some (u, v) := by
  apply breakAt_append (List.cons_ne_nil _ _)
  intro s hs hne hhere
  cases s with
  | nil => exact hne rfl
  | cons a s =>
      cases s with
      | nil =>
          rw [List.singleton_append, List.cons_prefix_cons] at hhere
          obtain ⟨before, rfl⟩ := hs
          exact hlast a (by simp) hhere.1.symm
      | cons b s =>
          rw [List.cons_append, List.cons_append, List.cons_prefix_cons,
            List.cons_prefix_cons] at hhere
          obtain ⟨rfl, rfl, -⟩ := hhere
          exact hu ((List.prefix_append [x, x] s).isInfix.trans hs.isInfix)

/-- No beginning of the text is an end of it, the whole text apart. -/
def Borderless (w : Str) : Prop :=
  ∀ n < w.length, 0 < n → ¬w.drop n <+: w

/-- Such a text occurs before another occurrence only if it fits. -/
theorem Borderless.prefix_of_append {w s t : Str} (hw : Borderless w)
    (hs : s ≠ []) (h : w <+: s ++ (w ++ t)) : w <+: s := by
  rcases List.prefix_or_prefix_of_prefix h (List.prefix_append s _) with
    hfits | ⟨rest, hrest⟩
  · exact hfits
  · have hdrop : w.drop s.length = rest := by
      rw [← hrest, List.drop_left]
    have hlength := congrArg List.length hrest
    rw [List.length_append] at hlength
    by_cases hlt : s.length < w.length
    · exfalso
      apply hw s.length hlt (List.length_pos_iff.mpr hs)
      have hover : rest <+: w ++ t := by
        rw [← List.prefix_append_right_inj s, hrest]
        exact h
      rw [hdrop]
      exact List.prefix_of_prefix_length_le hover (List.prefix_append w t)
        (by omega)
    · obtain rfl : rest = [] := List.eq_nil_of_length_eq_zero (by omega)
      have hsame : w = s := by rw [← hrest, List.append_nil]
      subst hsame
      exact List.prefix_rfl

/-- The first occurrence is found whatever comes before it in a run that the
text does not begin with. -/
theorem breakAt_dropWhile {p : Char → Bool} {x : Char} {s : Str} (hx : ¬p x) :
    breakAt (x :: s) (t.dropWhile p) =
      (breakAt (x :: s) t).map fun found => (found.1.dropWhile p, found.2) := by
  induction t with
  | nil => rfl
  | cons ch t ih =>
      by_cases hch : p ch
      · have hne : ¬(x :: s) <+: ch :: t := by
          rw [List.cons_prefix_cons]
          rintro ⟨rfl, -⟩
          exact hx hch
        rw [List.dropWhile_cons_of_pos hch, ih, breakAt, if_neg hne,
          Option.map_map]
        simp [Function.comp_def, hch]
      · rw [List.dropWhile_cons_of_neg hch]
        cases hfound : breakAt (x :: s) (ch :: t) with
        | none => rfl
        | some found =>
            obtain ⟨u, v⟩ := found
            obtain ⟨ht, -⟩ := breakAt_eq_some hfound
            have hkeep : u.dropWhile p = u := by
              cases u with
              | nil => rfl
              | cons d u =>
                  have hd : ch = d := by simpa using congrArg List.head? ht
                  rw [← hd, List.dropWhile_cons_of_neg hch]
            rw [Option.map_some, hkeep]

end BreakAt

/-! ## Captures -/

section Captures

variable {β : Type} {p : Char → Bool} {x : Char} {s : Str}

theorem findSome_range_first {f : ℕ → Option β} {k n : ℕ} {b : β} (hk : k < n)
    (hf : f k = some b) (hbefore : ∀ j < k, f j = none) :
    (List.range n).findSome? f = some b := by
  induction n with
  | zero => cases hk
  | succ n ih =>
      rw [List.range_succ, List.findSome?_append]
      by_cases hlt : k < n
      · rw [ih hlt]
        rfl
      · obtain rfl : k = n := by omega
        have hnone : (List.range k).findSome? f = none :=
          List.findSome?_eq_none_iff.mpr fun j hj =>
            hbefore j (List.mem_range.mp hj)
        rw [hnone, Option.none_or, List.findSome?_singleton, hf]

/-- A run of the class ends before a character outside it. -/
theorem length_takeWhile_lt {l r : Str} (hne : l ≠ [])
    (hlast : ¬p (l.getLast hne)) : ((l ++ r).takeWhile p).length < l.length := by
  induction l with
  | nil => exact absurd rfl hne
  | cons ch l ih =>
      rw [List.cons_append]
      by_cases hch : p ch
      · rw [List.takeWhile_cons_of_pos hch, List.length_cons, List.length_cons]
        have hl : l ≠ [] := by
          rintro rfl
          exact hlast hch
        have hlast' : ¬p (l.getLast hl) := by
          rwa [List.getLast_cons hl] at hlast
        exact Nat.succ_lt_succ (ih hl hlast')
      · rw [List.takeWhile_cons_of_neg hch]
        exact Nat.succ_pos _

theorem dropWhile_append_of_all {l r : Str} (hl : ∀ ch ∈ l, p ch)
    (hr : ∀ ch ∈ r.head?, ¬p ch) : (l ++ r).dropWhile p = r ∧
      ((l ++ r).takeWhile p).length = l.length := by
  induction l with
  | nil =>
      cases r with
      | nil => simp
      | cons ch r =>
          have hch := hr ch rfl
          simp [hch]
  | cons ch l ih =>
      have hch := hl ch List.mem_cons_self
      obtain ⟨hdrop, htake⟩ := ih fun d hd => hl d (List.mem_cons_of_mem _ hd)
      simp [hch, hdrop, htake]

/-- What a lazy capture takes up to a run of the class and the first occurrence
of a text outside it. -/
theorem head_enclosed (hx : ¬p x) (n : ℕ) (c : Cursor) :
    ((Regex.seq (.group n (.lazyStar (.cls fun _ => true)))
      (.seq (.star (.cls p)) (.lit (x :: s)))).ends c).head?.map
        (fun d => (d.after, d.groups)) =
      (breakAt (x :: s) c.after).map fun found =>
        (found.2, (n, found.1.rdropWhile p) :: c.groups) := by
  rw [Regex.head_capture]
  simp only [Regex.head_star_lit hx, Cursor.skip_after]
  cases hfound : breakAt (x :: s) c.after with
  | none =>
      have habsent := (breakAt_eq_none (List.cons_ne_nil x s)).mp hfound
      have hnone : ∀ k, ¬(x :: s) <+: (c.after.drop k).dropWhile p := by
        intro k hhere
        apply habsent
        exact (hhere.isInfix.trans (List.dropWhile_suffix p).isInfix).trans
          (List.drop_suffix k c.after).isInfix
      simp [hnone]
  | some found =>
      obtain ⟨u, v⟩ := found
      obtain ⟨hafter, hfirst⟩ := breakAt_eq_some hfound
      have hu : u.rdropWhile p ++ u.rtakeWhile p = u :=
        List.rdropWhile_append_rtakeWhile
      have hrun : ∀ ch ∈ u.rtakeWhile p, p ch := fun _ =>
        List.mem_rtakeWhile_imp
      have hlast := List.rdropWhile_last_not p u
      generalize hcaptured : u.rdropWhile p = u' at hu hlast
      generalize u.rtakeWhile p = run at hu hrun
      subst hu
      -- what stands behind the part that is captured
      have hrest : c.after.drop u'.length = run ++ (x :: s ++ v) := by
        rw [hafter, List.append_assoc, List.append_assoc, List.drop_left]
      have htaken : c.after.take u'.length = u' := by
        rw [hafter, List.append_assoc, List.append_assoc, List.take_left]
      obtain ⟨hdrop, hlength⟩ := @dropWhile_append_of_all p run
        (x :: s ++ v) hrun (by
          rintro ch ⟨⟩
          exact hx)
      have hk : u'.length < c.after.length + 1 := by
        simp only [hafter, List.length_append]
        omega
      have hhere : (x :: s) <+: (c.after.drop u'.length).dropWhile p := by
        rw [hrest, hdrop]
        exact List.prefix_append _ _
      refine (congrArg (Option.map _) (findSome_range_first hk
        (if_pos hhere) ?_)).trans ?_
      · intro j hj
        apply if_neg
        intro hearlier
        have hne : u'.drop j ≠ [] := by simpa using hj
        have hlast' : ¬p ((u'.drop j).getLast hne) := by
          rw [List.getLast_drop]
          exact hlast _
        have hbound := @length_takeWhile_lt p (u'.drop j)
          (run ++ (x :: s ++ v)) hne hlast'
        rw [List.length_drop] at hbound
        have hsplit : c.after.drop j = u'.drop j ++ (run ++ (x :: s ++ v)) := by
          rw [hafter, List.append_assoc, List.append_assoc,
            List.drop_append_of_le_length hj.le]
        rw [← hsplit] at hbound
        rw [← Regex.drop_takeWhile_length, List.drop_drop] at hearlier
        refine hfirst _ ?_ hearlier
        rw [List.length_append]
        omega
      · simp only [Option.map_some, Cursor.skip_after, Cursor.skip_groups,
          htaken, hrest, hlength, hcaptured]
        rw [← List.drop_drop, List.drop_left, List.drop_left]

/-- What is captured between two runs of the class, up to the first occurrence
of a text outside it. -/
theorem head_padded (hx : ¬p x) (n : ℕ) (c : Cursor) :
    ((Regex.seq (.star (.cls p)) (.seq (.group n (.lazyStar (.cls fun _ => true)))
      (.seq (.star (.cls p)) (.lit (x :: s))))).ends c).head?.map
        (fun d => (d.after, d.groups)) =
      (breakAt (x :: s) c.after).map fun found =>
        (found.2, (n, (found.1.dropWhile p).rdropWhile p) :: c.groups) := by
  rw [Regex.head_seq, Regex.ends_star_cls, List.findSome?_map, List.range_succ,
    List.reverse_append, List.reverse_singleton, List.singleton_append,
    List.findSome?_cons]
  have hlongest := @head_enclosed p x s hx n
    (c.skip (c.after.takeWhile p).length)
  rw [Cursor.skip_after, Regex.drop_takeWhile_length, breakAt_dropWhile hx,
    Option.map_map] at hlongest
  cases hfound : breakAt (x :: s) c.after with
  | some found =>
      rw [hfound, Option.map_some] at hlongest
      obtain ⟨d, hd, heq⟩ := Option.map_eq_some_iff.mp hlongest
      simp only [Function.comp_apply, hd, Option.map_some, heq]
      rfl
  | none =>
      rw [hfound] at hlongest
      have hd := Option.map_eq_none_iff.mp hlongest
      simp only [Function.comp_apply, hd, Option.map_none,
        Option.map_eq_none_iff, List.findSome?_eq_none_iff]
      intro k _
      have hshorter := @head_enclosed p x s hx n (c.skip k)
      have habsent := (breakAt_eq_none (List.cons_ne_nil x s)).mp hfound
      have hnone : breakAt (x :: s) (c.skip k).after = none := by
        rw [breakAt_eq_none (List.cons_ne_nil x s)]
        exact fun h => habsent (h.trans (List.drop_suffix k c.after).isInfix)
      rw [hnone] at hshorter
      exact Option.map_eq_none_iff.mp hshorter

end Captures

/-! ## Scans -/

/-- What a reader takes from a text, left to right, between the characters it
does not take.  `fuel` above the length of the text is never used up. -/
def scanFuel {β : Type} (f : Str → Option (Str × β)) :
    ℕ → Str → List (Char ⊕ β)
  | 0, _ => []
  | fuel + 1, t =>
      match f t with
      | some (rest, b) => .inr b :: scanFuel f fuel rest
      | none =>
          match t with
          | [] => []
          | ch :: rest => .inl ch :: scanFuel f fuel rest

def scan {β : Type} (f : Str → Option (Str × β)) (t : Str) : List (Char ⊕ β) :=
  scanFuel f (t.length + 1) t

/-- What the reader has taken. -/
def readings {β : Type} (f : Str → Option (Str × β)) (t : Str) : List β :=
  (scan f t).filterMap Sum.getRight?

/-- The text with everything the reader takes replaced. -/
def rewriteBy {β : Type} (f : Str → Option (Str × β)) (repl : β → Str)
    (t : Str) : Str :=
  (scan f t).flatMap (Sum.elim (fun ch => [ch]) repl)

section Scan

variable {β : Type} {f : Str → Option (Str × β)} {b : β} {t rest : Str}
variable {ch : Char} {repl : β → Str}

/-- The reader takes something whenever it accepts. -/
def Consumes (f : Str → Option (Str × β)) : Prop :=
  ∀ t rest b, f t = some (rest, b) → rest.length < t.length

theorem scanFuel_some {fuel : ℕ} (h : f t = some (rest, b)) :
    scanFuel f (fuel + 1) t = .inr b :: scanFuel f fuel rest := by
  simp only [scanFuel, h]

theorem scanFuel_cons_none {fuel : ℕ} (h : f (ch :: t) = none) :
    scanFuel f (fuel + 1) (ch :: t) = .inl ch :: scanFuel f fuel t := by
  simp only [scanFuel, h]

theorem scanFuel_nil_none {fuel : ℕ} (h : f [] = none) :
    scanFuel f (fuel + 1) [] = [] := by
  simp only [scanFuel, h]

theorem scanFuel_eq (hf : Consumes f) {fuel : ℕ} (hfuel : t.length < fuel) :
    scanFuel f fuel t = scan f t := by
  have hany : ∀ fuel fuel' t, t.length < fuel → t.length < fuel' →
      scanFuel f fuel t = scanFuel f fuel' t := by
    intro fuel
    induction fuel with
    | zero => exact fun fuel' t h => absurd h (Nat.not_lt_zero _)
    | succ fuel ih =>
        intro fuel' t h h'
        obtain ⟨fuel', rfl⟩ : ∃ k, fuel' = k + 1 := ⟨fuel' - 1, by omega⟩
        cases hread : f t with
        | some found =>
            obtain ⟨rest, b⟩ := found
            have hlt := hf t rest b hread
            rw [scanFuel_some hread, scanFuel_some hread,
              ih fuel' rest (by omega) (by omega)]
        | none =>
            cases t with
            | nil => rw [scanFuel_nil_none hread, scanFuel_nil_none hread]
            | cons ch t =>
                rw [List.length_cons] at h h'
                rw [scanFuel_cons_none hread, scanFuel_cons_none hread,
                  ih fuel' t (by omega) (by omega)]
  exact hany fuel (t.length + 1) t hfuel (Nat.lt_succ_self _)

theorem scan_some (hf : Consumes f) (h : f t = some (rest, b)) :
    scan f t = .inr b :: scan f rest := by
  have hlt := hf t rest b h
  rw [scan, scanFuel_some h, scanFuel_eq hf hlt]

theorem scan_cons_none (hf : Consumes f) (h : f (ch :: t) = none) :
    scan f (ch :: t) = .inl ch :: scan f t := by
  rw [scan, scanFuel_cons_none h, List.length_cons,
    scanFuel_eq hf (Nat.lt_succ_self t.length)]

theorem scan_nil (hf : Consumes f) : scan f [] = [] := by
  cases h : f [] with
  | none => rw [scan, scanFuel_nil_none h]
  | some found => exact absurd (hf [] found.1 found.2 h) (Nat.not_lt_zero _)

theorem rewriteBy_some (hf : Consumes f) (h : f t = some (rest, b)) :
    rewriteBy f repl t = repl b ++ rewriteBy f repl rest := by
  rw [rewriteBy, scan_some hf h]
  rfl

theorem rewriteBy_cons_none (hf : Consumes f) (h : f (ch :: t) = none) :
    rewriteBy f repl (ch :: t) = ch :: rewriteBy f repl t := by
  rw [rewriteBy, scan_cons_none hf h]
  rfl

theorem rewriteBy_nil (hf : Consumes f) : rewriteBy f repl [] = [] := by
  rw [rewriteBy, scan_nil hf]
  rfl

/-- A reader whose results are changed. -/
def mapReader {γ : Type} (h : β → γ) (f : Str → Option (Str × β)) :
    Str → Option (Str × γ) :=
  fun t => (f t).map (Prod.map id h)

theorem scan_mapReader {γ : Type} (h : β → γ) (f : Str → Option (Str × β))
    (t : Str) : scan (mapReader h f) t = (scan f t).map (Sum.map id h) := by
  have hscan : ∀ fuel t, scanFuel (mapReader h f) fuel t =
      (scanFuel f fuel t).map (Sum.map id h) := by
    intro fuel
    induction fuel with
    | zero => exact fun t => rfl
    | succ fuel ih =>
        intro t
        cases hread : f t with
        | some found =>
            obtain ⟨rest, b⟩ := found
            have hread' : mapReader h f t = some (rest, h b) := by
              rw [mapReader, hread]
              rfl
            rw [scanFuel_some hread, scanFuel_some hread', ih rest]
            rfl
        | none =>
            have hread' : mapReader h f t = none := by
              rw [mapReader, hread]
              rfl
            cases t with
            | nil => rw [scanFuel_nil_none hread, scanFuel_nil_none hread',
                List.map_nil]
            | cons ch t =>
                rw [scanFuel_cons_none hread, scanFuel_cons_none hread', ih t]
                rfl
  exact hscan _ t

theorem readings_mapReader {γ : Type} (h : β → γ) (f : Str → Option (Str × β))
    (t : Str) : readings (mapReader h f) t = (readings f t).map h := by
  rw [readings, readings, scan_mapReader, List.filterMap_map,
    List.map_filterMap]
  refine List.filterMap_congr fun x _ => ?_
  cases x <;> rfl

theorem rewriteBy_mapReader {γ : Type} (h : β → γ)
    (f : Str → Option (Str × β)) (repl : γ → Str) (t : Str) :
    rewriteBy (mapReader h f) repl t = rewriteBy f (repl ∘ h) t := by
  rw [rewriteBy, rewriteBy, scan_mapReader, List.flatMap_map]
  refine List.flatMap_congr fun x _ => ?_
  cases x <;> rfl

/-- The reader goes through a text in which it takes nothing. -/
theorem scan_append (hf : Consumes f) {u : Str}
    (hnone : ∀ s, s <:+ u → s ≠ [] → f (s ++ t) = none) :
    scan f (u ++ t) = u.map .inl ++ scan f t := by
  induction u with
  | nil => rfl
  | cons ch u ih =>
      have hhere := hnone (ch :: u) List.suffix_rfl (List.cons_ne_nil _ _)
      have hrest := ih fun s hs => hnone s (hs.trans (List.suffix_cons ch u))
      rw [List.cons_append] at hhere ⊢
      rw [scan_cons_none hf hhere, hrest]
      rfl

/-! ## Patterns as readers -/

variable {r : Regex} {g : Cursor → β}

/-- The pattern matches, at any place, what the reader takes. -/
def Reads (r : Regex) (g : Cursor → β) (f : Str → Option (Str × β)) : Prop :=
  ∀ before after, (r.matchAt before after).map (fun c => (c.after, g c)) = f after

theorem Reads.cut (h : Reads r g f) (fuel : ℕ) (before after : Str) :
    (r.cut fuel before after).map (Sum.map id g) = scanFuel f fuel after := by
  induction fuel generalizing before after with
  | zero => rfl
  | succ fuel ih =>
      have hread := h before after
      cases hmatch : r.matchAt before after with
      | some c =>
          rw [hmatch] at hread
          simp only [Regex.cut, hmatch]
          rw [scanFuel_some hread.symm, List.map_cons, ih c.before c.after]
          rfl
      | none =>
          rw [hmatch] at hread
          simp only [Regex.cut, hmatch]
          cases after with
          | nil => rw [scanFuel_nil_none hread.symm, List.map_nil]
          | cons ch after =>
              rw [scanFuel_cons_none hread.symm, List.map_cons, ih _ after]
              rfl

theorem Reads.pieces (h : Reads r g f) (t : Str) :
    (r.pieces t).map (Sum.map id g) = scan f t :=
  h.cut _ _ _

theorem Reads.finditer (h : Reads r g f) (t : Str) :
    (r.finditer t).map g = readings f t := by
  rw [readings, ← h.pieces, Regex.finditer, List.filterMap_map,
    List.map_filterMap]
  refine List.filterMap_congr fun x _ => ?_
  cases x <;> rfl

theorem Reads.sub (h : Reads r g f) {out : Cursor → Str}
    (hout : ∀ c, out c = repl (g c)) (t : Str) :
    r.sub out t = rewriteBy f repl t := by
  rw [rewriteBy, ← h.pieces, Regex.sub, List.flatMap_map]
  refine List.flatMap_congr fun x _ => ?_
  cases x with
  | inl ch => rfl
  | inr c => exact hout c

theorem Reads.consumes (h : Reads r g f) : Consumes f := by
  intro t rest b hread
  rw [← h [] t] at hread
  obtain ⟨c, hmatch, heq⟩ := Option.map_eq_some_iff.mp hread
  cases heq
  rw [Regex.matchAt] at hmatch
  split at hmatch
  · split at hmatch
    · next hlt =>
      cases hmatch
      exact hlt
    · cases hmatch
  · cases hmatch

/-- What a match is, when the first way to match takes something. -/
theorem matchAt_of_head {before after : Str}
    (h : ∀ c, (r.ends ⟨before, after, []⟩).head? = some c →
      c.after.length < after.length) :
    r.matchAt before after = (r.ends ⟨before, after, []⟩).head? := by
  rw [Regex.matchAt]
  split
  · next c hc => rw [if_pos (h c hc), hc]
  · next hc => exact hc.symm

end Scan

end Text
