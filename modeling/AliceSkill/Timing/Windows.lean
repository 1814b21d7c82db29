import Mathlib.Algebra.Order.Group.Defs
import Mathlib.Data.List.Pairwise
import Mathlib.Data.List.TakeWhile

/-!
# Fixed windows

A sequence of times is cut into windows: a window begins with the first time
that the window before it does not cover, and covers a fixed length from there.
Admitting the first few times of every window bounds the times admitted in a
short interval, since no such interval meets three windows.
-/

namespace Timing

/-- Times in order, from the first that is not below a bound. -/
theorem le_of_mem_rest {α : Type} [LinearOrder α] {ts : List α} {b x : α}
    (hts : ts.Pairwise (· ≤ ·)) (hx : x ∈ ts.dropWhile (· < b)) : b ≤ x := by
  induction ts with
  | nil => simp at hx
  | cons t ts ih =>
      by_cases ht : t < b
      · rw [List.dropWhile_cons_of_pos (by simpa using ht)] at hx
        exact ih hts.of_cons hx
      · rw [List.dropWhile_cons_of_neg (by simpa using ht)] at hx
        rcases List.mem_cons.mp hx with rfl | hx
        · exact not_lt.mp ht
        · exact (not_lt.mp ht).trans (List.rel_of_pairwise_cons hts hx)

variable {α : Type} [AddCommGroup α] [LinearOrder α]

/-- The windows of length `w` that the times fall into. -/
def windows (w : α) : List α → List (List α)
  | [] => []
  | t :: ts =>
      (t :: ts.takeWhile (· < t + w)) :: windows w (ts.dropWhile (· < t + w))
  termination_by ts => ts.length
  decreasing_by
    exact Nat.lt_succ_of_le (List.dropWhile_sublist _).length_le

@[simp] theorem windows_nil (w : α) : windows w [] = [] := by
  rw [windows]

theorem windows_cons (w t : α) (ts : List α) :
    windows w (t :: ts) =
      (t :: ts.takeWhile (· < t + w)) :: windows w (ts.dropWhile (· < t + w)) := by
  rw [windows]

/-- The times that are among the first `limit` of their window. -/
def admitted (limit : ℕ) (w : α) (ts : List α) : List α :=
  (windows w ts).flatMap (List.take limit)

@[simp] theorem admitted_nil (limit : ℕ) (w : α) :
    admitted limit w [] = [] := by
  simp [admitted]

theorem admitted_cons (limit : ℕ) (w t : α) (ts : List α) :
    admitted limit w (t :: ts) =
      (t :: ts.takeWhile (· < t + w)).take limit ++
        admitted limit w (ts.dropWhile (· < t + w)) := by
  rw [admitted, windows_cons, List.flatMap_cons]
  rfl

/-- Any two times that satisfy the predicate are less than `w` apart. -/
def IsBrief (w : α) (p : α → Bool) : Prop :=
  ∀ ⦃x y⦄, p x → p y → y < x + w

/-- The half-open interval of length `w` that contains its start, or else its
end. -/
def halfOpen (closedAtStart : Bool) (w start t : α) : Bool :=
  if closedAtStart then start ≤ t ∧ t < start + w
  else start < t ∧ t ≤ start + w

/-! ## The cut -/

theorem flatten_windows (w : α) (ts : List α) : (windows w ts).flatten = ts := by
  induction ts using windows.induct (w := w) with
  | case1 => simp
  | case2 t ts ih =>
      rw [windows_cons, List.flatten_cons, ih, List.cons_append,
        List.takeWhile_append_dropWhile]

theorem sublist_of_mem_windows {w : α} {ts window : List α}
    (h : window ∈ windows w ts) : List.Sublist window ts := by
  have hflat := List.sublist_flatten_of_mem h
  rwa [flatten_windows] at hflat

theorem admitted_sublist (limit : ℕ) (w : α) (ts : List α) :
    List.Sublist (admitted limit w ts) ts := by
  induction ts using windows.induct (w := w) with
  | case1 => simp
  | case2 t ts ih =>
      rw [admitted_cons]
      have hfront := List.take_sublist limit (t :: ts.takeWhile (· < t + w))
      have hcut := hfront.append ih
      rwa [List.cons_append, List.takeWhile_append_dropWhile] at hcut

/-- When no window has more than `limit` times, all are admitted. -/
theorem admitted_eq_self {limit : ℕ} {w : α} {ts : List α}
    (h : ∀ window ∈ windows w ts, window.length ≤ limit) :
    admitted limit w ts = ts := by
  have hall : (windows w ts).map (List.take limit) = (windows w ts).map id := by
    apply List.map_congr_left
    intro window hwindow
    exact List.take_of_length_le (h window hwindow)
  rw [admitted, List.flatMap_def, hall, List.map_id, flatten_windows]

/-! ## Short intervals -/

/-- An interval that ends before any window but the first can begin admits
no more than the first window does. -/
theorem countP_admitted_le_of_front {w : α} {ts : List α} {p : α → Bool}
    (limit : ℕ) (hts : ts.Pairwise (· ≤ ·))
    (h : ∀ t ∈ ts, ∀ y, p y → y < t + w) :
    (admitted limit w ts).countP p ≤ limit := by
  cases ts with
  | nil => simp
  | cons t ts =>
      have hfront :
          ((t :: ts.takeWhile (· < t + w)).take limit).countP p ≤ limit :=
        List.countP_le_length.trans (List.length_take_le _ _)
      have hrest :
          (admitted limit w (ts.dropWhile (· < t + w))).countP p = 0 := by
        rw [List.countP_eq_zero]
        intro y hy hp
        have hle := le_of_mem_rest hts.of_cons ((admitted_sublist _ _ _).subset hy)
        exact absurd (h t List.mem_cons_self y hp) (not_lt.mpr hle)
      rw [admitted_cons, List.countP_append, hrest]
      exact hfront

section Ordered

variable [IsOrderedAddMonoid α] {w : α} {ts : List α} {p : α → Bool}

theorem isBrief_halfOpen (closedAtStart : Bool) (w start : α) :
    IsBrief w (halfOpen closedAtStart w start) := by
  intro x y hx hy
  cases closedAtStart with
  | true =>
      simp only [halfOpen, if_true, decide_eq_true_eq] at hx hy
      calc
        y < start + w := hy.2
        _ ≤ x + w := add_le_add_left hx.1 w
  | false =>
      simp only [halfOpen, Bool.false_eq_true, if_false, decide_eq_true_eq] at hx hy
      calc
        y ≤ start + w := hy.2
        _ < x + w := add_lt_add_left hx.1 w

/-- In a window all times are less than `w` after the first one. -/
theorem lt_of_mem_front {t x : α} (hw : 0 < w)
    (hx : x ∈ t :: ts.takeWhile (· < t + w)) : x < t + w := by
  rcases List.mem_cons.mp hx with rfl | hx
  · exact lt_add_of_pos_right x hw
  · simpa using List.mem_takeWhile_imp hx

/-- In an interval of length `w` no more than two windows' worth of times are
admitted. -/
theorem countP_admitted_le (limit : ℕ) (hw : 0 < w) (hts : ts.Pairwise (· ≤ ·))
    (hp : IsBrief w p) : (admitted limit w ts).countP p ≤ 2 * limit := by
  induction ts using windows.induct (w := w) with
  | case1 => simp
  | case2 t ts ih =>
      have hrests : (ts.dropWhile (· < t + w)).Pairwise (· ≤ ·) :=
        hts.of_cons.sublist (List.dropWhile_sublist _)
      have hfront :
          ((t :: ts.takeWhile (· < t + w)).take limit).countP p ≤ limit :=
        List.countP_le_length.trans (List.length_take_le _ _)
      rw [admitted_cons, List.countP_append]
      by_cases hmeets : ∃ x ∈ t :: ts.takeWhile (· < t + w), p x
      · -- The interval begins in the first window, and ends in the second.
        obtain ⟨x, hx, hpx⟩ := hmeets
        have hrest := countP_admitted_le_of_front limit hrests (p := p) (w := w)
          fun t' ht' y hy => by
            have hle := le_of_mem_rest hts.of_cons ht'
            calc
              y < x + w := hp hpx hy
              _ ≤ t' + w :=
                add_le_add_left ((lt_of_mem_front hw hx).le.trans hle) w
        omega
      · have hzero :
            ((t :: ts.takeWhile (· < t + w)).take limit).countP p = 0 := by
          rw [List.countP_eq_zero]
          intro x hx hpx
          exact hmeets ⟨x, List.mem_of_mem_take hx, hpx⟩
        have hrest := ih hrests
        omega

/-! ## Windows as intervals -/

/-- Times in order that end less than `w` after their beginning lie in a
half-open interval of length `w`. -/
theorem exists_halfOpen {t : α} (closedAtStart : Bool)
    (hts : (t :: ts).Pairwise (· ≤ ·)) (h : ∀ x ∈ t :: ts, x < t + w) :
    ∃ start, ∀ x ∈ t :: ts, halfOpen closedAtStart w start x := by
  have hfirst : ∀ x ∈ t :: ts, t ≤ x := fun x hx => hts.rel_head hx
  cases closedAtStart with
  | true =>
      refine ⟨t, fun x hx => ?_⟩
      simpa [halfOpen] using And.intro (hfirst x hx) (h x hx)
  | false =>
      let latest := (t :: ts).getLast (List.cons_ne_nil t ts)
      have hlatest : latest - w < t := by
        rw [sub_lt_iff_lt_add]
        exact h latest (List.getLast_mem _)
      refine ⟨latest - w, fun x hx => ?_⟩
      have hle : x ≤ latest := hts.rel_getLast hx
      simpa [halfOpen] using And.intro (hlatest.trans_le (hfirst x hx)) hle

theorem exists_halfOpen_of_mem_windows (closedAtStart : Bool) (hw : 0 < w)
    (hts : ts.Pairwise (· ≤ ·)) {window : List α} (h : window ∈ windows w ts) :
    ∃ start, ∀ x ∈ window, halfOpen closedAtStart w start x := by
  induction ts using windows.induct (w := w) with
  | case1 => simp at h
  | case2 t ts ih =>
      rw [windows_cons] at h
      rcases List.mem_cons.mp h with rfl | h
      · apply exists_halfOpen closedAtStart
        · exact hts.sublist ((List.takeWhile_sublist _).cons_cons t)
        · exact fun x hx => lt_of_mem_front hw hx
      · exact ih (hts.of_cons.sublist (List.dropWhile_sublist _)) h

/-- When no half-open interval of length `w` has more than `limit` times, all are
admitted. -/
theorem admitted_eq_self_of_countP_le {limit : ℕ} (closedAtStart : Bool)
    (hw : 0 < w) (hts : ts.Pairwise (· ≤ ·))
    (h : ∀ start, ts.countP (halfOpen closedAtStart w start) ≤ limit) :
    admitted limit w ts = ts := by
  apply admitted_eq_self
  intro window hwindow
  obtain ⟨start, hstart⟩ :=
    exists_halfOpen_of_mem_windows closedAtStart hw hts hwindow
  calc
    window.length = window.countP (halfOpen closedAtStart w start) :=
      (List.countP_eq_length.mpr hstart).symm
    _ ≤ ts.countP (halfOpen closedAtStart w start) :=
      (sublist_of_mem_windows hwindow).countP_le
    _ ≤ limit := h start

end Ordered

end Timing
