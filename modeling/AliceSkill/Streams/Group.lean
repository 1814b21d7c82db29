import Mathlib.Data.List.Dedup
import Mathlib.Data.List.Range
import Mathlib.Data.List.Perm.Subperm

/-!
# Consumer groups

A stream is read by a group of consumers.  An entry is handed out for the
first time to the consumer that asks next, stays pending until it has been
acknowledged, and is handed out again to whoever reclaims it after it has been
idle for long enough.

Entries are numbered from 0 and never removed.  Which of them have been
acknowledged is a parameter; the group itself keeps its position and its
handovers, of which a server only needs the last one of each pending entry.
-/

namespace Streams

variable {C : Type}

/-- An entry was handed to a consumer. -/
structure Handover (C : Type) where
  entry : ℕ
  consumer : C
  time : ℕ
  deriving DecidableEq

/-- What a group knows about its stream; the most recent delivery is the first.
First handovers are made in the order of the stream and leave no gap. -/
structure ConsumerGroup (C : Type) where
  /-- The entries before this one are not for the group. -/
  start : ℕ
  /-- The first entry that has not been handed out. -/
  next : ℕ
  handovers : List (Handover C)
  start_le_next : start ≤ next
  inOrder : (handovers.map Handover.entry).dedup =
    (List.range' start (next - start)).reverse

namespace ConsumerGroup

/-- A group created at position `n`. -/
def create (n : ℕ) : ConsumerGroup C where
  start := n
  next := n
  handovers := []
  start_le_next := Nat.le_refl n
  inOrder := by simp

variable (g : ConsumerGroup C) (acked : ℕ → Bool)

/-- The last delivery of an entry. -/
def last (i : ℕ) : Option (Handover C) :=
  g.handovers.find? fun d => d.entry = i

/-- Entries handed out and not acknowledged, in the order of the stream. -/
def pending : List ℕ :=
  (List.range' g.start (g.next - g.start)).filter fun i => !acked i

/-- The last delivery of an entry is at least `minIdle` old. -/
def idle (now minIdle i : ℕ) : Bool :=
  match g.last i with
  | some d => d.time + minIdle ≤ now
  | none => false

/-- The entries a reclaiming call takes: it looks at the first `10 * count`
pending entries and takes up to `count` idle ones. -/
def claimable (now minIdle count : ℕ) : List ℕ :=
  (((g.pending acked).take (10 * count)).filter (g.idle now minIdle)).take count

/-- The entries a reading call takes from a stream of `length` entries. -/
def fresh (length count : ℕ) : List ℕ :=
  List.range' g.next (min count (length - g.next))

/-- The handovers of one call, the last one first. -/
def handed (consumer : C) (now : ℕ) (entries : List ℕ) : List (Handover C) :=
  (entries.map fun i => ⟨i, consumer, now⟩).reverse

variable {g acked}

@[simp] theorem map_entry_handed (consumer : C) (now : ℕ) (entries : List ℕ) :
    (handed consumer now entries).map Handover.entry = entries.reverse := by
  rw [handed, List.map_reverse, List.map_map]
  exact congrArg List.reverse (List.map_id entries)

theorem mem_handed {consumer : C} {now : ℕ} {entries : List ℕ}
    {d : Handover C} (h : d ∈ handed consumer now entries) :
    d.entry ∈ entries ∧ d.consumer = consumer ∧ d.time = now := by
  rw [handed, List.mem_reverse, List.mem_map] at h
  obtain ⟨i, hi, rfl⟩ := h
  exact ⟨hi, rfl, rfl⟩

theorem handed_of_mem {consumer : C} {now i : ℕ} {entries : List ℕ}
    (h : i ∈ entries) : ⟨i, consumer, now⟩ ∈ handed consumer now entries := by
  rw [handed, List.mem_reverse]
  exact List.mem_map_of_mem h

theorem mem_entries {i : ℕ} :
    i ∈ g.handovers.map Handover.entry ↔ g.start ≤ i ∧ i < g.next := by
  have hle := g.start_le_next
  rw [← List.mem_dedup, g.inOrder, List.mem_reverse, List.mem_range'_1]
  omega

theorem mem_pending {i : ℕ} :
    i ∈ g.pending acked ↔ (g.start ≤ i ∧ i < g.next) ∧ acked i = false := by
  have hle := g.start_le_next
  rw [pending, List.mem_filter, List.mem_range'_1, Bool.not_eq_true']
  refine and_congr_left fun _ => ?_
  omega

theorem pending_sorted : (g.pending acked).Pairwise (· < ·) :=
  List.Pairwise.filter _ List.pairwise_lt_range'

theorem claimable_sublist (now minIdle count : ℕ) :
    (g.claimable acked now minIdle count).Sublist (g.pending acked) :=
  ((List.take_sublist _ _).trans List.filter_sublist).trans
    (List.take_sublist _ _)

theorem last_of_mem {d : Handover C} {i : ℕ} (h : g.last i = some d) :
    d ∈ g.handovers ∧ d.entry = i := by
  rw [last] at h
  have hentry := List.find?_some h
  exact ⟨List.mem_of_find?_eq_some h, of_decide_eq_true hentry⟩

theorem idle_iff {now minIdle i : ℕ} :
    g.idle now minIdle i = true ↔
      ∃ d, g.last i = some d ∧ d.time + minIdle ≤ now := by
  rw [idle]
  cases g.last i with
  | none => simp
  | some d => simp

/-! ## The two calls -/

/-- Handing out entries again leaves the first handovers as they are. -/
theorem dedup_append_of_subset {l m : List ℕ} (h : ∀ i ∈ l, i ∈ m) :
    (l ++ m).dedup = m.dedup := by
  induction l with
  | nil => rfl
  | cons i l ih =>
      have hi : i ∈ l ++ m := List.mem_append_right l (h i List.mem_cons_self)
      rw [List.cons_append, List.dedup_cons_of_mem hi]
      exact ih fun i' hi' => h i' (List.mem_cons_of_mem i hi')

/-- Entries that have never been handed out come after all others. -/
theorem dedup_append_of_disjoint {l m : List ℕ} (hl : l.Nodup)
    (h : ∀ i ∈ l, i ∉ m) : (l ++ m).dedup = l ++ m.dedup := by
  induction l with
  | nil => rfl
  | cons i l ih =>
      have hnew : i ∉ l ++ m := by
        intro hi
        rcases List.mem_append.mp hi with hi | hi
        · exact (List.nodup_cons.mp hl).1 hi
        · exact h i List.mem_cons_self hi
      rw [List.cons_append, List.dedup_cons_of_notMem hnew, List.cons_append,
        ih (List.nodup_cons.mp hl).2 fun i' hi' => h i' (List.mem_cons_of_mem i hi')]

/-- Take over idle entries, the oldest first. -/
def autoclaim (g : ConsumerGroup C) (acked : ℕ → Bool) (consumer : C)
    (now minIdle count : ℕ) : List ℕ × ConsumerGroup C :=
  (g.claimable acked now minIdle count,
    { g with
      handovers := handed consumer now (g.claimable acked now minIdle count) ++
        g.handovers
      inOrder := by
        rw [List.map_append, map_entry_handed, dedup_append_of_subset, g.inOrder]
        intro i hi
        have hmem := (claimable_sublist now minIdle count).subset
          (List.mem_reverse.mp hi)
        exact mem_entries.mpr (mem_pending.mp hmem).1 })

/-- Take entries that nobody has been handed yet. -/
def read (g : ConsumerGroup C) (length : ℕ) (consumer : C) (now count : ℕ) :
    List ℕ × ConsumerGroup C :=
  (g.fresh length count,
    { start := g.start
      next := g.next + min count (length - g.next)
      handovers := handed consumer now (g.fresh length count) ++ g.handovers
      start_le_next := Nat.le_trans g.start_le_next (Nat.le_add_right _ _)
      inOrder := by
        have hle := g.start_le_next
        have hnew : ∀ i ∈ (g.fresh length count).reverse,
            i ∉ g.handovers.map Handover.entry := by
          intro i hi hold
          have hi' := List.mem_range'_1.mp (List.mem_reverse.mp hi)
          have hold' := mem_entries.mp hold
          omega
        have hnodup : (g.fresh length count).reverse.Nodup :=
          List.nodup_reverse.mpr List.nodup_range'
        have hsplit : g.next + min count (length - g.next) - g.start =
            (g.next - g.start) + min count (length - g.next) := by omega
        have hnext : g.start + (g.next - g.start) = g.next := by omega
        rw [List.map_append, map_entry_handed,
          dedup_append_of_disjoint hnodup hnew, g.inOrder,
          hsplit, ← List.range'_append_1, List.reverse_append, hnext, fresh] })

/-- The last delivery of an entry that a call does not hand out. -/
theorem find?_handed_append {consumer : C} {now i : ℕ} {entries : List ℕ}
    {ds : List (Handover C)} (h : i ∉ entries) :
    (handed consumer now entries ++ ds).find? (fun d => d.entry = i) =
      ds.find? fun d => d.entry = i := by
  rw [List.find?_append, List.find?_eq_none.mpr]
  · rfl
  · intro d hd hentry
    exact h (of_decide_eq_true hentry ▸ (mem_handed hd).1)

/-! ## The window of a reclaiming call -/

/-- In an increasing list, the members below one of the first `n` are among
the first `n` as well. -/
theorem mem_take_iff {l : List ℕ} (hl : l.Pairwise (· < ·)) {i n : ℕ}
    (hi : i ∈ l) : i ∈ l.take n ↔ (l.filter fun j => j < i).length < n := by
  induction l generalizing n with
  | nil => cases hi
  | cons a l ih =>
      obtain ⟨ha, hl⟩ := List.pairwise_cons.mp hl
      cases n with
      | zero => simp
      | succ n =>
          rcases List.mem_cons.mp hi with rfl | hi
          · have hnone : l.filter (fun j => j < i) = [] := by
              rw [List.filter_eq_nil_iff]
              intro j hj
              have := ha j hj
              simp only [decide_eq_true_eq]
              omega
            simp [hnone]
          · have hai := ha i hi
            have hne : i ≠ a := by omega
            rw [List.take_succ_cons, List.mem_cons, List.filter_cons,
              if_pos (decide_eq_true hai), List.length_cons,
              Nat.add_lt_add_iff_right, ← ih hl hi]
            exact or_iff_right hne

/-- The pending entries before one that has been handed out. -/
theorem before_eq {i : ℕ} (h : i ≤ g.next) :
    (g.pending acked).filter (fun j => j < i) =
      (List.range' g.start (i - g.start)).filter fun j => !acked j := by
  have hbelow : (List.range' g.start (g.next - g.start)).filter (fun j => j < i) =
      List.range' g.start (i - g.start) := by
    have hsplit : g.next - g.start =
        (i - g.start) + (g.next - g.start - (i - g.start)) := by omega
    have hfirst : ∀ j ∈ List.range' g.start (i - g.start),
        decide (j < i) = true := by
      intro j hj
      have := List.mem_range'_1.mp hj
      exact decide_eq_true (by omega)
    have hrest : ∀ j ∈ List.range' (g.start + (i - g.start))
        (g.next - g.start - (i - g.start)), ¬decide (j < i) = true := by
      intro j hj
      have := List.mem_range'_1.mp hj
      simp only [decide_eq_true_eq]
      omega
    rw [hsplit, ← List.range'_append_1, List.filter_append,
      List.filter_eq_self.mpr hfirst, List.filter_eq_nil_iff.mpr hrest,
      List.append_nil]
  rw [pending, List.filter_comm, hbelow]

/-- They become fewer as entries are acknowledged. -/
theorem before_le {g' : ConsumerGroup C} {acked' : ℕ → Bool} {i : ℕ}
    (hstart : g'.start = g.start) (hi : i ≤ g.next) (hi' : i ≤ g'.next)
    (hacked : ∀ j, acked j = true → acked' j = true) :
    ((g'.pending acked').filter fun j => j < i).length ≤
      ((g.pending acked).filter fun j => j < i).length := by
  rw [before_eq hi, before_eq hi', hstart, ← List.countP_eq_length_filter,
    ← List.countP_eq_length_filter]
  refine List.countP_mono_left fun j _ hj => ?_
  rw [Bool.not_eq_true'] at hj ⊢
  by_contra hack
  rw [Bool.not_eq_false] at hack
  rw [hacked j hack] at hj
  cases hj

/-- Nothing is reclaimed behind too many pending entries. -/
theorem before_of_claimable {now minIdle count i : ℕ}
    (h : i ∈ g.claimable acked now minIdle count) :
    ((g.pending acked).filter fun j => j < i).length < 10 * count := by
  have hwindow := List.mem_of_mem_filter (List.mem_of_mem_take h)
  exact (mem_take_iff pending_sorted (List.mem_of_mem_take hwindow)).mp hwindow

theorem idle_of_claimable {now minIdle count i : ℕ}
    (h : i ∈ g.claimable acked now minIdle count) :
    g.idle now minIdle i = true :=
  List.of_mem_filter (List.mem_of_mem_take h)

/-- An idle entry with few pending ones before it is taken unless an older
one is. -/
theorem exists_claimable {now minIdle count i : ℕ} (hcount : 0 < count)
    (hi : i ∈ g.pending acked) (hidle : g.idle now minIdle i = true)
    (hbefore : ((g.pending acked).filter fun j => j < i).length < 10 * count) :
    ∃ j ∈ g.claimable acked now minIdle count, j ≤ i := by
  have hwindow := (mem_take_iff pending_sorted hi).mpr hbefore
  have hsorted : (((g.pending acked).take (10 * count)).filter
      (g.idle now minIdle)).Pairwise (· < ·) :=
    (pending_sorted.sublist (List.take_sublist _ _)).sublist List.filter_sublist
  have hmem := List.mem_filter.mpr ⟨hwindow, hidle⟩
  obtain ⟨n, rfl⟩ : ∃ n, count = n + 1 := ⟨count - 1, by omega⟩
  rw [claimable]
  cases hl : ((g.pending acked).take (10 * (n + 1))).filter (g.idle now minIdle) with
  | nil =>
      rw [hl] at hmem
      cases hmem
  | cons j l =>
      rw [hl] at hmem hsorted
      refine ⟨j, List.mem_cons_self, ?_⟩
      rcases List.mem_cons.mp hmem with rfl | hmem
      · exact Nat.le_refl _
      · exact Nat.le_of_lt ((List.pairwise_cons.mp hsorted).1 i hmem)

/-! ## Times of delivery -/

/-- Two handovers of one entry are at least `m` apart. -/
def Spaced (m : ℕ) (ds : List (Handover C)) : Prop :=
  ds.Pairwise fun d d' => d.entry = d'.entry → d'.time + m ≤ d.time

/-- All handovers have been made by `now`. -/
def Past (now : ℕ) (ds : List (Handover C)) : Prop := ∀ d ∈ ds, d.time ≤ now

theorem Past.mono {now now' : ℕ} {ds : List (Handover C)} (h : Past now ds)
    (hle : now ≤ now') : Past now' ds :=
  fun d hd => Nat.le_trans (h d hd) hle

theorem past_handed_append {consumer : C} {now : ℕ} {entries : List ℕ}
    {ds : List (Handover C)} (h : Past now ds) :
    Past now (handed consumer now entries ++ ds) := by
  intro d hd
  rcases List.mem_append.mp hd with hd | hd
  · exact Nat.le_of_eq (mem_handed hd).2.2
  · exact h d hd

/-- Of the handovers of one entry the first in the list is the latest. -/
theorem Spaced.le_last {m i : ℕ} {d d' : Handover C}
    (h : Spaced m g.handovers) (hlast : g.last i = some d)
    (hd' : d' ∈ g.handovers) (hi : d'.entry = i) : d'.time ≤ d.time := by
  rw [last] at hlast
  revert h hlast hd'
  generalize g.handovers = ds
  intro h hlast hd'
  induction ds with
  | nil => cases hd'
  | cons e ds ih =>
      obtain ⟨he, hds⟩ := List.pairwise_cons.mp h
      rw [List.find?_cons] at hlast
      by_cases hei : e.entry = i
      · rw [decide_eq_true hei] at hlast
        cases hlast
        rcases List.mem_cons.mp hd' with rfl | hd'
        · exact Nat.le_refl _
        · exact Nat.le_trans (Nat.le_add_right _ _) (he d' hd' (hei.trans hi.symm))
      · rw [decide_eq_false hei] at hlast
        rcases List.mem_cons.mp hd' with rfl | hd'
        · exact absurd hi hei
        · exact ih hds hlast hd'

theorem spaced_handed_append {m now : ℕ} {consumer : C} {entries : List ℕ}
    {ds : List (Handover C)} (h : Spaced m ds) (hnodup : entries.Nodup)
    (hold : ∀ d ∈ ds, d.entry ∈ entries → d.time + m ≤ now) :
    Spaced m (handed consumer now entries ++ ds) := by
  refine List.pairwise_append.mpr ⟨?_, h, ?_⟩
  · rw [handed, List.pairwise_reverse, List.pairwise_map]
    exact hnodup.imp fun hne heq => absurd heq.symm hne
  · intro d hd d' hd' heq
    obtain ⟨hentry, -, htime⟩ := mem_handed hd
    rw [htime]
    exact hold d' hd' (heq ▸ hentry)

/-- Reclaiming keeps handovers apart, since only idle entries are taken. -/
theorem Spaced.autoclaim {m : ℕ} (h : Spaced m g.handovers) (consumer : C)
    (now count : ℕ) :
    Spaced m (g.autoclaim acked consumer now m count).2.handovers := by
  refine spaced_handed_append h ?_ ?_
  · exact (pending_sorted.sublist (claimable_sublist now m count)).imp Nat.ne_of_lt
  · intro d hd hentry
    obtain ⟨e, hlast, hidle⟩ := idle_iff.mp (idle_of_claimable hentry)
    have := h.le_last hlast hd rfl
    omega

/-- So does reading, since what is read has never been handed out. -/
theorem Spaced.read {m : ℕ} (h : Spaced m g.handovers) (length : ℕ)
    (consumer : C) (now count : ℕ) :
    Spaced m (g.read length consumer now count).2.handovers := by
  refine spaced_handed_append h List.nodup_range' ?_
  intro d hd hentry
  have hold := mem_entries.mp (List.mem_map_of_mem hd)
  have hnew := List.mem_range'_1.mp hentry
  omega

/-- Within a period shorter than `m` an entry is handed out once. -/
theorem Spaced.nodup {m T : ℕ} {new old : List (Handover C)}
    (h : Spaced m (new ++ old)) (hwindow : ∀ d ∈ new, T ≤ d.time ∧ d.time < T + m) :
    (new.map Handover.entry).Nodup := by
  have hnew := (List.pairwise_append.mp h).1
  rw [List.Nodup, List.pairwise_map]
  refine hnew.imp_of_mem ?_
  intro d d' hd hd' hspaced heq
  have := hspaced heq
  have := hwindow d hd
  have := hwindow d' hd'
  omega

end ConsumerGroup

end Streams
