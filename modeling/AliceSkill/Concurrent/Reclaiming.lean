import AliceSkill.Concurrent.Leases
import AliceSkill.Effects.Segments

/-!
# Reclaimed entries

An entry whose execution has died is handed out again by the first command of
a poll.  That command looks at the ten oldest pending entries: an entry behind
ten others stays where it is, and an entry among the first ten is taken after
nine polls at most, each of which takes an older one.

When every entry is acknowledged in time there is nothing to reclaim, and each
entry is handed out once.
-/

namespace AliceSkill

open Text Effects Program Machine Streams

/-! ## What a step does to the group -/

/-- A step of the processes as the queue sees it; `reclaims` says whether a
reclaiming command has been answered. -/
inductive Moves (cfg : Settings) (s : Server) : (reclaims : Bool) → Server → Prop where
  | calm {s' : Server} (hgroup : s'.group = s.group) (hnow : s.now ≤ s'.now)
      (hacked : ∀ i, s.world.acked i = true → s'.world.acked i = true) :
      Moves cfg s false s'
  | create (hg : s.group = none) :
      Moves cfg s false
        { s with group := some (.create s.world.stream.length) }
  | reclaim {g : ConsumerGroup Str} (consumerName : Str) (answered : Bool)
      (hg : s.group = some g) :
      Moves cfg s answered { s with
        group := some (g.autoclaim s.world.acked consumerName s.now
          cfg.reclaimIdleMs 1).2 }
  | read {g : ConsumerGroup Str} (consumerName : Str) (hg : s.group = some g) :
      Moves cfg s false { s with
        group := some (g.read s.world.stream.length consumerName s.now 1).2 }

theorem moves_refl (cfg : Settings) (s : Server) : Moves cfg s false s :=
  .calm rfl (Nat.le_refl _) fun _ => id

/-- An answered reclaiming command. -/
def reclaimEvent : Event ProcessSig PyException → Bool
  | ⟨_, .inr (.xautoclaim _), .ok _⟩ => true
  | _ => false

/-- How often a reclaiming command has been answered. -/
def reclaims (log : List (Event ProcessSig PyException)) : ℕ :=
  log.countP reclaimEvent

/-- An acknowledged entry stays acknowledged. -/
theorem acked_stays (cfg : Settings) (a : Answer) (op : Command) (w : World)
    (i : StreamId) (h : w.acked i = true) :
    (execCommand cfg a op w).2.acked i = true := by
  rcases stream_command_cases cfg a op w with hsame | ⟨job, -, happ⟩ | ⟨i', -, -, hmod⟩
  · rw [acked_congr hsame]
    exact h
  · rw [acked_append happ]
    exact h
  · rw [World.acked] at h ⊢
    rw [hmod, List.getElem?_modify]
    cases hget : w.stream[i]? with
    | none =>
        rw [hget] at h
        cases h
    | some entry =>
        rw [hget] at h
        simp only [Option.map_eq_map, Option.map_some]
        split
        · rfl
        · exact h

/-- A command on the queue that takes effect. -/
theorem moves_queue (cfg : Settings) (c : QueueCall) (s : Server) :
    ∃ answered, Moves cfg s answered (c.exec cfg s).2 ∧
      ∀ tid, reclaimEvent ⟨tid, .inr c, (c.exec cfg s).1⟩ = answered := by
  cases c with
  | sleep => exact ⟨false, moves_refl cfg s, fun _ => rfl⟩
  | xgroupCreate =>
      refine ⟨false, ?_, fun _ => rfl⟩
      cases hg : s.group with
      | none =>
          simp only [QueueCall.exec, hg]
          exact .create hg
      | some g =>
          simp only [QueueCall.exec, hg]
          exact moves_refl cfg s
  | xautoclaim consumerName =>
      cases hg : s.group with
      | none =>
          simp only [QueueCall.exec, hg]
          exact ⟨false, moves_refl cfg s, fun _ => rfl⟩
      | some g =>
          simp only [QueueCall.exec, hg]
          exact ⟨true, .reclaim consumerName true hg, fun _ => rfl⟩
  | xreadgroup consumerName =>
      refine ⟨false, ?_, fun _ => rfl⟩
      cases hg : s.group with
      | none =>
          simp only [QueueCall.exec, hg]
          exact moves_refl cfg s
      | some g =>
          simp only [QueueCall.exec, hg]
          exact .read consumerName hg

theorem Moves.unanswered {cfg : Settings} {s s' : Server} {answered : Bool}
    (h : Moves cfg s answered s') : Moves cfg s false s' := by
  cases h with
  | calm hgroup hnow hacked => exact .calm hgroup hnow hacked
  | create hg => exact .create hg
  | reclaim consumerName answered hg => exact .reclaim consumerName false hg
  | read consumerName hg => exact .read consumerName hg

theorem moves_process (cfg : Settings) (a : ProcessAnswer) (op : ProcessSig.Op)
    (s : Server) (tid : ℕ) :
    ∃ answered, Moves cfg s answered (execProcess cfg a op s).2 ∧
      reclaimEvent ⟨tid, op, (execProcess cfg a op s).1⟩ = answered := by
  rcases op with op | c
  · exact ⟨false, .calm rfl (Nat.le_refl _) fun i => acked_stays cfg a.answer op s.world i,
      rfl⟩
  · obtain ⟨answered, hmoves, hevent⟩ := moves_queue cfg c s
    simp only [execProcess]
    split
    · exact ⟨answered, hmoves, hevent tid⟩
    · refine ⟨false, ?_, by cases c <;> rfl⟩
      split
      · exact hmoves.unanswered
      · exact moves_refl cfg s

theorem moves_pass (cfg : Settings) (s : Server) (e : Passing) :
    Moves cfg s false (s.pass e) := by
  rcases e with e | ms
  · refine .calm rfl (Nat.le_refl _) fun i hi => ?_
    rcases e with key | key | key <;> exact hi
  · exact .calm rfl (Nat.le_add_right _ _) fun _ => id

/-- Everything a step of the processes can do to the queue. -/
theorem moves_step {cfg : Settings} {permits : Answer → Command → Prop}
    {s s' : PoolState} {act : PoolSchedule}
    (hst : (poolMachine cfg permits).Step s act s') :
    ∃ answered, Moves cfg s.world answered s'.world ∧
      reclaims s'.log = reclaims s.log + if answered = true then 1 else 0 := by
  rcases step_cases hst with ⟨role, -, -, rfl⟩ |
    ⟨tid, a, role, op, k, -, -, -, rfl⟩ | ⟨e, -, rfl⟩
  · exact ⟨false, moves_refl cfg s.world, rfl⟩
  · obtain ⟨answered, hmoves, hevent⟩ := moves_process cfg a op s.world tid
    refine ⟨answered, hmoves, ?_⟩
    simp only [afterCall, reclaims, List.countP_cons]
    rw [hevent]
  · exact ⟨false, moves_pass cfg s.world e, rfl⟩

/-! ## Entries that are handed out once -/

/-- No pending entry reaches the age at which it is reclaimed. -/
def InTime (cfg : Settings) (s : PoolState) : PoolSchedule → Prop
  | .ambient (.tick ms) =>
      ∀ g, s.world.group = some g → ∀ i ∈ g.pending s.world.world.acked,
        g.idle (s.world.now + ms) cfg.reclaimIdleMs i = false
  | _ => True

instance (cfg : Settings) (s : PoolState) :
    (act : PoolSchedule) → Decidable (InTime cfg s act)
  | .ambient (.tick ms) =>
      match h : s.world.group with
      | none => .isTrue fun g hg => by
          rw [h] at hg
          cases hg
      | some g =>
          decidable_of_iff (∀ i ∈ g.pending s.world.world.acked,
            g.idle (s.world.now + ms) cfg.reclaimIdleMs i = false)
            ⟨fun hall g' hg' => by
              rw [h] at hg'
              cases hg'
              exact hall, fun hall => hall g h⟩
  | .ambient (.expiry _) => .isTrue trivial
  | .spawn _ => .isTrue trivial
  | .step _ _ => .isTrue trivial

/-- Nothing can be reclaimed, and no entry has been handed out twice. -/
structure Prompt (cfg : Settings) (s : Server) (g : ConsumerGroup Str) : Prop where
  young : ∀ i ∈ g.pending s.world.acked, g.idle s.now cfg.reclaimIdleMs i = false
  once : (g.handovers.map Handover.entry).Nodup

section Prompt

variable {cfg : Settings} {s s' : Server} {g : ConsumerGroup Str}

theorem Prompt.calm (h : Prompt cfg s g)
    (hacked : ∀ i, s.world.acked i = true → s'.world.acked i = true)
    (hclock : s'.now = s.now ∨ ∀ i ∈ g.pending s.world.acked,
      g.idle s'.now cfg.reclaimIdleMs i = false) : Prompt cfg s' g := by
  refine ⟨fun i hi => ?_, h.once⟩
  obtain ⟨hrange, hack'⟩ := ConsumerGroup.mem_pending.mp hi
  have hack : s.world.acked i = false := by
    by_contra hack
    rw [Bool.not_eq_false] at hack
    rw [hacked i hack] at hack'
    cases hack'
  have hi' := ConsumerGroup.mem_pending.mpr ⟨hrange, hack⟩
  rcases hclock with hsame | hyoung
  · rw [hsame]
    exact h.young i hi'
  · exact hyoung i hi'

theorem Prompt.claimable_eq_nil (h : Prompt cfg s g) :
    g.claimable s.world.acked s.now cfg.reclaimIdleMs 1 = [] := by
  rw [List.eq_nil_iff_forall_not_mem]
  intro i hi
  have hidle := ConsumerGroup.idle_of_claimable hi
  rw [h.young i ((ConsumerGroup.claimable_sublist _ _ _).subset hi)] at hidle
  cases hidle

/-- With nothing to reclaim the command hands out nothing. -/
theorem Prompt.reclaim (h : Prompt cfg s g) (consumerName : Str) :
    Prompt cfg s (g.autoclaim s.world.acked consumerName s.now
      cfg.reclaimIdleMs 1).2 := by
  have hnone := h.claimable_eq_nil
  have hsame : (g.autoclaim s.world.acked consumerName s.now
      cfg.reclaimIdleMs 1).2.handovers = g.handovers := by
    simp only [ConsumerGroup.autoclaim, hnone]
    rfl
  constructor
  · intro i hi
    rw [ConsumerGroup.idle, ConsumerGroup.last, hsame]
    exact h.young i hi
  · rw [hsame]
    exact h.once

/-- A new entry is young, and it has not been handed out before. -/
theorem Prompt.read (h : Prompt cfg s g) (hlimit : 0 < cfg.reclaimIdleMs)
    (consumerName : Str) :
    Prompt cfg s (g.read s.world.stream.length consumerName s.now 1).2 := by
  constructor
  · intro i hi
    obtain ⟨⟨hstart, hlt⟩, hack⟩ := ConsumerGroup.mem_pending.mp hi
    by_cases hnext : i < g.next
    · have hold := h.young i (ConsumerGroup.mem_pending.mpr ⟨⟨hstart, hnext⟩, hack⟩)
      have hfresh : i ∉ g.fresh s.world.stream.length 1 := by
        intro hmem
        exact absurd hnext (Nat.not_lt.mpr (List.mem_range'_1.mp hmem).1)
      rw [ConsumerGroup.idle, ConsumerGroup.last] at hold ⊢
      simp only [ConsumerGroup.read, ConsumerGroup.find?_handed_append hfresh]
      exact hold
    · by_contra hidle
      rw [Bool.not_eq_false] at hidle
      obtain ⟨d, hlast, htime⟩ := ConsumerGroup.idle_iff.mp hidle
      obtain ⟨hmem, hentry⟩ := ConsumerGroup.last_of_mem hlast
      rcases List.mem_append.mp hmem with hnew | hold
      · have hnow := (ConsumerGroup.mem_handed hnew).2.2
        omega
      · have hrange := ConsumerGroup.mem_entries.mp (List.mem_map_of_mem hold)
        omega
  · simp only [ConsumerGroup.read, List.map_append, ConsumerGroup.map_entry_handed]
    refine List.nodup_append.mpr ⟨List.nodup_reverse.mpr List.nodup_range', h.once, ?_⟩
    intro i hi j hj hij
    have hfresh := (List.mem_range'_1.mp (List.mem_reverse.mp hi)).1
    have hold := (ConsumerGroup.mem_entries.mp hj).2
    omega

theorem prompt_create (cfg : Settings) (s : Server) (n : ℕ) :
    Prompt cfg s (.create n) where
  young i hi := by
    have hrange := (ConsumerGroup.mem_pending.mp hi).1
    simp only [ConsumerGroup.create] at hrange
    omega
  once := List.nodup_nil

/-- One step in time keeps every entry from being handed out again. -/
theorem Prompt.moves {answered : Bool} (hlimit : 0 < cfg.reclaimIdleMs)
    (h : ∀ g, s.group = some g → Prompt cfg s g) (hmoves : Moves cfg s answered s')
    (hclock : s'.now = s.now ∨ ∀ g, s.group = some g →
      ∀ i ∈ g.pending s.world.acked, g.idle s'.now cfg.reclaimIdleMs i = false) :
    ∀ g, s'.group = some g → Prompt cfg s' g := by
  intro g' hg'
  cases hmoves with
  | calm hgroup hnow hacked =>
      have hg := hgroup.symm.trans hg'
      exact (h g' hg).calm hacked (hclock.imp_right fun hyoung => hyoung g' hg)
  | create hg =>
      cases hg'
      have hnew := prompt_create cfg s s.world.stream.length
      exact ⟨hnew.young, hnew.once⟩
  | reclaim consumerName answered hg =>
      cases hg'
      have hnew := (h _ hg).reclaim consumerName
      exact ⟨hnew.young, hnew.once⟩
  | read consumerName hg =>
      cases hg'
      have hnew := (h _ hg).read hlimit consumerName
      exact ⟨hnew.young, hnew.once⟩

end Prompt

theorem exec_now (cfg : Settings) (c : QueueCall) (s : Server) :
    (c.exec cfg s).2.now = s.now := by
  cases c with
  | sleep => rfl
  | _ =>
      simp only [QueueCall.exec]
      split <;> rfl

theorem execProcess_now (cfg : Settings) (a : ProcessAnswer) (op : ProcessSig.Op)
    (s : Server) : (execProcess cfg a op s).2.now = s.now := by
  rcases op with op | c
  · rfl
  · simp only [execProcess]
    split
    · exact exec_now cfg c s
    · split
      · exact exec_now cfg c s
      · rfl

/-- Only the passing of time moves the clock, and it does so in time. -/
theorem clock_step {cfg : Settings} {permits : Answer → Command → Prop}
    {s s' : PoolState} {act : PoolSchedule} (hc : InTime cfg s act)
    (hst : (poolMachine cfg permits).Step s act s') :
    s'.world.now = s.world.now ∨ ∀ g, s.world.group = some g →
      ∀ i ∈ g.pending s.world.world.acked,
        g.idle s'.world.now cfg.reclaimIdleMs i = false := by
  rcases step_cases hst with ⟨role, -, -, rfl⟩ |
    ⟨tid, a, role, op, k, -, -, -, rfl⟩ | ⟨e, rfl, rfl⟩
  · exact Or.inl rfl
  · exact Or.inl (execProcess_now cfg a op s.world)
  · rcases e with e | ms
    · exact Or.inl rfl
    · exact Or.inr hc

/-- When every entry is acknowledged before its time is over, each is handed
out exactly once, in the order of the stream. -/
theorem pool_delivers_once {cfg : Settings} {permits : Answer → Command → Prop}
    {w : World} {now : ℕ} {s : PoolState} (hlimit : 0 < cfg.reclaimIdleMs)
    (hs : (poolMachine cfg permits).Reachable (InTime cfg) (.initial w now) s)
    {g : ConsumerGroup Str} (hg : s.world.group = some g) :
    g.handovers.map Handover.entry =
      (List.range' w.stream.length (g.next - w.stream.length)).reverse := by
  have hprompt : ∀ g, s.world.group = some g → Prompt cfg s.world g := by
    refine hs.invariant (I := fun s => ∀ g, s.world.group = some g →
      Prompt cfg s.world g) (fun g hg => ?_) ?_
    · cases hg
    · intro t u act _ ih hc hst
      obtain ⟨answered, hmoves, -⟩ := moves_step hst
      exact Prompt.moves hlimit ih hmoves (clock_step hc hst)
  have hsound := (pool_sound hs).sound.inGroup hg
  rw [← List.dedup_eq_self.mpr (hprompt g hg).once, g.inOrder, hsound.start]

/-- Two of three questions have been acknowledged by a worker each. -/
theorem shared_questions_delivered_once :
    ∃ (s : PoolState) (g : ConsumerGroup Str), s.world.group = some g ∧
      g.next = 2 ∧ s.world.world.acked 0 = true ∧
      s.world.world.acked 1 = true ∧
      g.handovers.map Handover.entry = [1, 0] := by
  have hrun : ((poolMachine .default anyAnswer).runFrom (InTime .default)
      (initial (.initial World.empty 0))
      (sharedSchedule ++ List.replicate 12 (.step 5 ⟨.ok, false⟩))).map (fun s =>
        (s.world.world.acked 0, s.world.world.acked 1,
          s.world.group.map ConsumerGroup.next)) =
      some (true, true, some 2) := by
    decide +kernel
  obtain ⟨s, hs, hobs⟩ := Option.map_eq_some_iff.mp hrun
  simp only [Prod.mk.injEq] at hobs
  obtain ⟨hfirst, hsecond, hgroup⟩ := hobs
  obtain ⟨g, hg, hnext⟩ := Option.map_eq_some_iff.mp hgroup
  refine ⟨s, g, hg, hnext, hfirst, hsecond, ?_⟩
  rw [pool_delivers_once (by decide +kernel) (reachable_runFrom .start hs) hg,
    hnext]
  rfl

/-! ## Parts of a run -/

/-- The group `g` of a later state against the group `g₀` of an earlier one;
`new` are the handovers made since. -/
structure Continued (s₀ : Server) (g₀ : ConsumerGroup Str) (s : Server)
    (g : ConsumerGroup Str) (new : List (Handover Str)) : Prop where
  group : s.group = some g
  start : g.start = g₀.start
  next : g₀.next ≤ g.next
  handovers : g.handovers = new ++ g₀.handovers
  now : s₀.now ≤ s.now
  acked : ∀ i, s₀.world.acked i = true → s.world.acked i = true
  since : ∀ d ∈ new, s₀.now ≤ d.time ∧
    (d.entry < g₀.next → s₀.world.acked d.entry = false)

section Continued

variable {cfg : Settings} {s₀ s s' : Server} {g₀ g : ConsumerGroup Str}
variable {new : List (Handover Str)}

theorem continued_refl (hg : s.group = some g) : Continued s g s g [] where
  group := hg
  start := rfl
  next := Nat.le_refl _
  handovers := rfl
  now := Nat.le_refl _
  acked _ := id
  since _ hd := by cases hd

/-- Fewer and fewer entries are pending before one that has been handed out. -/
theorem Continued.before_le (h : Continued s₀ g₀ s g new) {i : ℕ}
    (hi : i ≤ g₀.next) :
    ((g.pending s.world.acked).filter fun j => j < i).length ≤
      ((g₀.pending s₀.world.acked).filter fun j => j < i).length :=
  ConsumerGroup.before_le h.start hi (Nat.le_trans hi h.next) h.acked

/-- What the claimed entries add to the handovers. -/
theorem Continued.reclaim (h : Continued s₀ g₀ s g new) (consumerName : Str) :
    Continued s₀ g₀
      { s with group := some (g.autoclaim s.world.acked consumerName s.now
        cfg.reclaimIdleMs 1).2 }
      (g.autoclaim s.world.acked consumerName s.now cfg.reclaimIdleMs 1).2
      (ConsumerGroup.handed consumerName s.now
        (g.claimable s.world.acked s.now cfg.reclaimIdleMs 1) ++ new) where
  group := rfl
  start := h.start
  next := h.next
  handovers := by
    simp only [ConsumerGroup.autoclaim]
    rw [h.handovers, List.append_assoc]
  now := h.now
  acked := h.acked
  since d hd := by
    rcases List.mem_append.mp hd with hd | hd
    · obtain ⟨hentry, -, htime⟩ := ConsumerGroup.mem_handed hd
      have hpending := (ConsumerGroup.claimable_sublist _ _ _).subset hentry
      refine ⟨htime ▸ h.now, fun _ => ?_⟩
      by_contra hack
      rw [Bool.not_eq_false] at hack
      have hnow := (ConsumerGroup.mem_pending.mp hpending).2
      rw [h.acked _ hack] at hnow
      cases hnow
    · exact h.since d hd

theorem Continued.read (h : Continued s₀ g₀ s g new) (consumerName : Str) :
    Continued s₀ g₀
      { s with group := some (g.read s.world.stream.length consumerName
        s.now 1).2 }
      (g.read s.world.stream.length consumerName s.now 1).2
      (ConsumerGroup.handed consumerName s.now
        (g.fresh s.world.stream.length 1) ++ new) where
  group := rfl
  start := h.start
  next := Nat.le_trans h.next (Nat.le_add_right _ _)
  handovers := by
    simp only [ConsumerGroup.read]
    rw [h.handovers, List.append_assoc]
  now := h.now
  acked := h.acked
  since d hd := by
    rcases List.mem_append.mp hd with hd | hd
    · obtain ⟨hentry, -, htime⟩ := ConsumerGroup.mem_handed hd
      have hfresh := (List.mem_range'_1.mp hentry).1
      have hnext := h.next
      exact ⟨htime ▸ h.now, fun hlt => by omega⟩
    · exact h.since d hd

theorem Continued.calm (h : Continued s₀ g₀ s g new) (hgroup : s'.group = s.group)
    (hnow : s.now ≤ s'.now)
    (hacked : ∀ i, s.world.acked i = true → s'.world.acked i = true) :
    Continued s₀ g₀ s' g new where
  group := hgroup.trans h.group
  start := h.start
  next := h.next
  handovers := h.handovers
  now := Nat.le_trans h.now hnow
  acked i hi := hacked i (h.acked i hi)
  since := h.since

/-- One step further: the handovers made are those of the command. -/
theorem Continued.moves {answered : Bool} (h : Continued s₀ g₀ s g new)
    (hmoves : Moves cfg s answered s') :
    (Continued s₀ g₀ s' g new ∧ answered = false) ∨
    (∃ consumerName g', Continued s₀ g₀ s' g'
      (ConsumerGroup.handed consumerName s.now
        (g.claimable s.world.acked s.now cfg.reclaimIdleMs 1) ++ new)) ∨
    (∃ consumerName g', answered = false ∧ Continued s₀ g₀ s' g'
      (ConsumerGroup.handed consumerName s.now
        (g.fresh s.world.stream.length 1) ++ new)) := by
  cases hmoves with
  | calm hgroup hnow hacked => exact Or.inl ⟨h.calm hgroup hnow hacked, rfl⟩
  | create hg =>
      rw [h.group] at hg
      cases hg
  | reclaim consumerName answered hg =>
      rw [h.group] at hg
      cases hg
      exact Or.inr (Or.inl ⟨consumerName, _, h.reclaim consumerName⟩)
  | read consumerName hg =>
      rw [h.group] at hg
      cases hg
      exact Or.inr (Or.inr ⟨consumerName, _, rfl, h.read consumerName⟩)

theorem Continued.step {answered : Bool} (h : Continued s₀ g₀ s g new)
    (hmoves : Moves cfg s answered s') :
    ∃ g' new', Continued s₀ g₀ s' g' new' := by
  rcases h.moves hmoves with ⟨hnew, -⟩ | ⟨_, g', hnew⟩ | ⟨_, g', -, hnew⟩
  · exact ⟨g, new, hnew⟩
  · exact ⟨g', _, hnew⟩
  · exact ⟨g', _, hnew⟩

/-- A step does not hand out an entry with ten pending ones before it. -/
theorem Moves.behind {answered : Bool} {g' : ConsumerGroup Str}
    (hmoves : Moves cfg s answered s') (hg : s.group = some g)
    (hg' : s'.group = some g') {i : ℕ} (hi : i < g.next)
    (hbefore : 10 ≤ ((g'.pending s'.world.acked).filter fun j => j < i).length) :
    10 ≤ ((g.pending s.world.acked).filter fun j => j < i).length ∧
    g'.handovers.filter (fun d => d.entry = i) =
      g.handovers.filter fun d => d.entry = i := by
  have hskip : ∀ {consumerName : Str} {entries : List ℕ}, i ∉ entries →
      (ConsumerGroup.handed consumerName s.now entries ++ g.handovers).filter
        (fun d => d.entry = i) = g.handovers.filter fun d => d.entry = i := by
    intro consumerName entries hni
    rw [List.filter_append, List.filter_eq_nil_iff.mpr, List.nil_append]
    intro d hd hentry
    exact hni (of_decide_eq_true hentry ▸ (ConsumerGroup.mem_handed hd).1)
  have hlen : ∀ {new : List (Handover Str)}, Continued s g s' g' new →
      10 ≤ ((g.pending s.world.acked).filter fun j => j < i).length :=
    fun hlater => Nat.le_trans hbefore (hlater.before_le (Nat.le_of_lt hi))
  rcases (continued_refl hg).moves hmoves with ⟨hlater, -⟩ |
    ⟨consumerName, g₁, hlater⟩ | ⟨consumerName, g₁, -, hlater⟩
  · cases hlater.group.symm.trans hg'
    exact ⟨hlen hlater, rfl⟩
  · cases hlater.group.symm.trans hg'
    have hmany := hlen hlater
    refine ⟨hmany, ?_⟩
    rw [hlater.handovers, List.append_nil]
    refine hskip fun hclaim => ?_
    have hfew := ConsumerGroup.before_of_claimable hclaim
    omega
  · cases hlater.group.symm.trans hg'
    refine ⟨hlen hlater, ?_⟩
    rw [hlater.handovers, List.append_nil]
    refine hskip fun hfresh => ?_
    have hunread := (List.mem_range'_1.mp hfresh).1
    omega

end Continued

section Run

variable {cfg : Settings} {permits : Answer → Command → Prop} {s s' : PoolState}
variable {g g' : ConsumerGroup Str}

theorem continued_of_steps {C : PoolState → PoolSchedule → Prop}
    (hsteps : (poolMachine cfg permits).Steps C s s')
    (hg : s.world.group = some g) :
    ∃ g' new, Continued s.world g s'.world g' new := by
  induction hsteps with
  | refl => exact ⟨g, [], continued_refl hg⟩
  | step _ _ hst ih =>
      obtain ⟨g₁, new, hlater⟩ := ih
      obtain ⟨answered, hmoves, -⟩ := moves_step hst
      exact hlater.step hmoves

/-- An entry with ten pending ones before it is not handed out again. -/
theorem pool_reclaims_oldest (hsteps : (poolMachine cfg permits).Steps Any s s')
    (hg : s.world.group = some g) (hg' : s'.world.group = some g') {i : ℕ}
    (hi : i < g.next)
    (hbefore : 10 ≤ ((g'.pending s'.world.world.acked).filter fun j =>
      j < i).length) :
    g'.handovers.filter (fun d => d.entry = i) =
      g.handovers.filter fun d => d.entry = i := by
  induction hsteps generalizing g' with
  | refl =>
      rw [hg] at hg'
      cases hg'
      rfl
  | step hsteps' _ hst ih =>
      obtain ⟨g₁, new, hlater⟩ := continued_of_steps hsteps' hg
      obtain ⟨answered, hmoves, -⟩ := moves_step hst
      obtain ⟨hmany, hsame⟩ := hmoves.behind hlater.group hg'
        (Nat.lt_of_lt_of_le hi hlater.next) hbefore
      exact hsame.trans (ih hlater.group hmany)

/-- Eleven workers have died; a twelfth one asks. -/
theorem eleventh_question_left :
    ∃ (s s' : PoolState) (g g' : ConsumerGroup Str), s.world.group = some g ∧
      s'.world.group = some g' ∧ 10 < g.next ∧
      g'.handovers.length = g.handovers.length + 1 ∧
      g'.handovers.filter (fun d => d.entry = 10) =
        g.handovers.filter fun d => d.entry = 10 := by
  let M := poolMachine .default anyAnswer
  have hrun : ((M.runFrom Any (initial (.initial World.empty 0))
      (queueingSchedule 11 ++ workersSchedule 12 11 ++
        [.ambient (.tick 20000)])).bind fun s =>
      (M.runFrom Any s [.spawn (.worker "other".toList 1), .step 23 ⟨.ok, false⟩,
        .step 23 ⟨.ok, false⟩]).map fun s' => (s, s')).map (fun ss =>
        (ss.1.world.group.map ConsumerGroup.next,
          ss.1.world.group.map (List.length ∘ ConsumerGroup.handovers),
          ss.2.world.group.map (ConsumerGroup.pending · ss.2.world.world.acked),
          ss.2.world.group.map (List.length ∘ ConsumerGroup.handovers))) =
      some (some 11, some 11, some (List.range 11), some 12) := by
    decide +kernel
  obtain ⟨⟨s, s'⟩, hruns, hobs⟩ := Option.map_eq_some_iff.mp hrun
  obtain ⟨t, -, hrest⟩ := Option.bind_eq_some_iff.mp hruns
  obtain ⟨t', hsteps, heq⟩ := Option.map_eq_some_iff.mp hrest
  rw [Prod.mk.injEq] at heq
  obtain ⟨rfl, rfl⟩ := heq
  simp only [Prod.mk.injEq] at hobs
  obtain ⟨hnext, hlen, hpending, hlen'⟩ := hobs
  obtain ⟨g, hg, hnext⟩ := Option.map_eq_some_iff.mp hnext
  obtain ⟨g', hg', hpending⟩ := Option.map_eq_some_iff.mp hpending
  rw [hg] at hlen
  rw [hg'] at hlen'
  have hlen := Option.some.inj hlen
  have hlen' := Option.some.inj hlen'
  have hten : 10 < g.next := by omega
  refine ⟨t, t', g, g', hg, hg', hten, ?_, ?_⟩
  · exact hlen'.trans (congrArg (· + 1) hlen.symm)
  · refine pool_reclaims_oldest (steps_runFrom .refl hsteps) hg hg' hten ?_
    rw [hpending]
    decide

/-- The entry is still where it was; every answered reclaiming command since
has taken an older one. -/
def Overtaken (s₀ s : PoolState) (new : List (Handover Str)) (i : ℕ) : Prop :=
  s.world.world.acked i = true ∨ i ∈ new.map Handover.entry ∨
    reclaims s.log ≤
      reclaims s₀.log + (new.filter fun d => d.entry < i).length

/-- An idle entry among the first ten is taken unless an older one is. -/
theorem claimable_at {new : List (Handover Str)} {i : ℕ}
    (hlater : Continued s.world g s'.world g' new)
    (hi : i ∈ g.pending s.world.world.acked)
    (hidle : g.idle s.world.now cfg.reclaimIdleMs i = true)
    (hbefore : ((g.pending s.world.world.acked).filter fun j =>
      j < i).length < 10)
    (hack : s'.world.world.acked i = false) (hnew : i ∉ new.map Handover.entry) :
    ∃ j ∈ g'.claimable s'.world.world.acked s'.world.now cfg.reclaimIdleMs 1,
      j ≤ i := by
  obtain ⟨⟨hstart, hnext⟩, -⟩ := ConsumerGroup.mem_pending.mp hi
  have hi' : i ∈ g'.pending s'.world.world.acked := by
    refine ConsumerGroup.mem_pending.mpr ⟨⟨?_, ?_⟩, hack⟩
    · rw [hlater.start]
      exact hstart
    · exact Nat.lt_of_lt_of_le hnext hlater.next
  have hlast : g'.last i = g.last i := by
    rw [ConsumerGroup.last, ConsumerGroup.last, hlater.handovers,
      List.find?_append, List.find?_eq_none.mpr]
    · rfl
    · intro d hd hentry
      exact hnew (List.mem_map.mpr ⟨d, hd, of_decide_eq_true hentry⟩)
  have hidle' : g'.idle s'.world.now cfg.reclaimIdleMs i = true := by
    obtain ⟨d, hd, htime⟩ := ConsumerGroup.idle_iff.mp hidle
    exact ConsumerGroup.idle_iff.mpr
      ⟨d, hlast.trans hd, Nat.le_trans htime hlater.now⟩
  refine ConsumerGroup.exists_claimable Nat.one_pos hi' hidle' ?_
  exact Nat.lt_of_le_of_lt (hlater.before_le (Nat.le_of_lt hnext)) hbefore

/-- One step further, if it hands out the entry itself or enough older ones. -/
theorem Overtaken.step {s₀ : PoolState} {new handed : List (Handover Str)} {i : ℕ}
    (h : Overtaken s₀ s new i)
    (hacked : s.world.world.acked i = true → s'.world.world.acked i = true)
    (hhanded : s.world.world.acked i = false → i ∉ new.map Handover.entry →
      i ∈ handed.map Handover.entry ∨ reclaims s'.log ≤
        reclaims s.log + (handed.filter fun d => d.entry < i).length) :
    Overtaken s₀ s' (handed ++ new) i := by
  by_cases hack : s.world.world.acked i = true
  · exact Or.inl (hacked hack)
  refine Or.inr ?_
  rw [Bool.not_eq_true] at hack
  rw [List.map_append, List.mem_append]
  by_cases hin : i ∈ new.map Handover.entry
  · exact Or.inl (Or.inr hin)
  rcases h with htrue | hin' | hle
  · rw [hack] at htrue
    cases htrue
  · exact absurd hin' hin
  rcases hhanded hack hin with hi | hcount
  · exact Or.inl (Or.inl hi)
  · refine Or.inr ?_
    rw [List.filter_append, List.length_append]
    omega

theorem overtaken_of_steps (hsteps : (poolMachine cfg permits).Steps Any s s')
    (hg : s.world.group = some g) {i : ℕ}
    (hi : i ∈ g.pending s.world.world.acked)
    (hidle : g.idle s.world.now cfg.reclaimIdleMs i = true)
    (hbefore : ((g.pending s.world.world.acked).filter fun j =>
      j < i).length < 10) :
    ∃ g' new, Continued s.world g s'.world g' new ∧ Overtaken s s' new i := by
  induction hsteps with
  | refl => exact ⟨g, [], continued_refl hg, Or.inr (Or.inr (Nat.le_refl _))⟩
  | @step t u act _ _ hst ih =>
      obtain ⟨g₁, new, hlater, hover⟩ := ih
      obtain ⟨answered, hmoves, hcount⟩ := moves_step hst
      have hacked : t.world.world.acked i = true → u.world.world.acked i = true := by
        obtain ⟨_, _, hone⟩ := (continued_refl hlater.group).step hmoves
        exact hone.acked i
      rcases hlater.moves hmoves with ⟨hnew, rfl⟩ | ⟨consumerName, g₂, hnew⟩ |
        ⟨_, g₂, rfl, hnew⟩
      · have hnone : Overtaken s u ([] ++ new) i :=
          hover.step hacked fun _ _ => Or.inr (Nat.le_of_eq hcount)
        exact ⟨g₁, new, hnew, hnone⟩
      · refine ⟨g₂, _, hnew, hover.step hacked fun hack hin => ?_⟩
        obtain ⟨j, hj, hle⟩ := claimable_at hlater hi hidle hbefore hack hin
        rcases Nat.lt_or_eq_of_le hle with hlt | rfl
        · have hmem : ⟨j, consumerName, t.world.now⟩ ∈
              (ConsumerGroup.handed consumerName t.world.now
                (g₁.claimable t.world.world.acked t.world.now
                  cfg.reclaimIdleMs 1)).filter fun d => d.entry < i :=
            List.mem_filter.mpr
              ⟨ConsumerGroup.handed_of_mem hj, decide_eq_true hlt⟩
          have hone := List.length_pos_of_mem hmem
          refine Or.inr (Nat.le_trans (Nat.le_of_eq hcount) ?_)
          split <;> omega
        · refine Or.inl ?_
          rw [ConsumerGroup.map_entry_handed, List.mem_reverse]
          exact hj
      · refine ⟨g₂, _, hnew, hover.step hacked fun _ _ => Or.inr ?_⟩
        simp only [Bool.false_eq_true, if_false] at hcount
        omega

/-- Within one idle time each older entry is handed out once at most. -/
theorem overtaking_le {C : PoolState → PoolSchedule → Prop} {w : World} {now : ℕ}
    {new : List (Handover Str)}
    (hs : (poolMachine cfg permits).Reachable C (.initial w now) s')
    (hlater : Continued s.world g s'.world g' new) {i : ℕ} (hi : i < g.next)
    (hwindow : s'.world.now < s.world.now + cfg.reclaimIdleMs) :
    (new.filter fun d => d.entry < i).length ≤
      ((g.pending s.world.world.acked).filter fun j => j < i).length := by
  have hsound := (pool_sound hs).sound.inGroup hlater.group
  have hspaced : ConsumerGroup.Spaced cfg.reclaimIdleMs (new ++ g.handovers) :=
    hlater.handovers ▸ hsound.spaced
  have hmem : ∀ d ∈ new, d ∈ g'.handovers := fun d hd =>
    hlater.handovers ▸ List.mem_append_left _ hd
  have hnodup := hspaced.nodup fun d hd =>
    ⟨(hlater.since d hd).1, Nat.lt_of_le_of_lt (hsound.past d (hmem d hd)) hwindow⟩
  have holder : ((new.filter fun d => d.entry < i).map Handover.entry) ⊆
      (g.pending s.world.world.acked).filter fun j => j < i := by
    intro j hj
    obtain ⟨d, hd, rfl⟩ := List.mem_map.mp hj
    obtain ⟨hd, hlt⟩ := List.mem_filter.mp hd
    have hentry := of_decide_eq_true hlt
    have hrange := ConsumerGroup.mem_entries.mp (List.mem_map_of_mem (hmem d hd))
    have hnext := Nat.lt_trans hentry hi
    refine List.mem_filter.mpr ⟨ConsumerGroup.mem_pending.mpr ⟨⟨?_, hnext⟩, ?_⟩, hlt⟩
    · rw [← hlater.start]
      exact hrange.1
    · exact (hlater.since d hd).2 hnext
  have hsub : ((new.filter fun d => d.entry < i).map Handover.entry).Nodup :=
    hnodup.sublist (List.filter_sublist.map _)
  calc (new.filter fun d => d.entry < i).length
      = ((new.filter fun d => d.entry < i).map Handover.entry).length :=
        (List.length_map _).symm
    _ ≤ _ := (List.subperm_of_subset hsub holder).length_le

/-- An idle entry with fewer than ten pending ones before it is overtaken only
by these: when within one idle time more polls have been answered than there
are older entries, it has been handed out again or acknowledged. -/
theorem pool_reclaims_within {w : World} {now : ℕ}
    (hs : (poolMachine cfg permits).Reachable Any (.initial w now) s)
    (hsteps : (poolMachine cfg permits).Steps Any s s')
    (hg : s.world.group = some g) (hg' : s'.world.group = some g') {i : ℕ}
    (hi : i ∈ g.pending s.world.world.acked)
    (hidle : g.idle s.world.now cfg.reclaimIdleMs i = true)
    (hbefore : ((g.pending s.world.world.acked).filter fun j =>
      j < i).length < 10)
    (hwindow : s'.world.now < s.world.now + cfg.reclaimIdleMs)
    (hpolls : reclaims s.log + ((g.pending s.world.world.acked).filter fun j =>
      j < i).length < reclaims s'.log) :
    s'.world.world.acked i = true ∨
      ∃ d ∈ g'.handovers, d.entry = i ∧ s.world.now ≤ d.time := by
  obtain ⟨g₁, new, hlater, hover⟩ := overtaken_of_steps hsteps hg hi hidle hbefore
  cases hlater.group.symm.trans hg'
  rcases hover with hack | hin | hle
  · exact Or.inl hack
  · obtain ⟨d, hd, hentry⟩ := List.mem_map.mp hin
    refine Or.inr ⟨d, ?_, hentry, (hlater.since d hd).1⟩
    rw [hlater.handovers]
    exact List.mem_append_left _ hd
  · have hfew := overtaking_le (hsteps.reachable hs) hlater
      (ConsumerGroup.mem_pending.mp hi).1.2 hwindow
    omega

/-- A second worker makes the first command of its poll. -/
def secondPoll : List PoolSchedule :=
  [.spawn (.worker "other".toList 1), .step 3 ⟨.ok, false⟩, .step 3 ⟨.ok, false⟩]

/-- The worker that has been handed the question has died; a second one asks. -/
theorem dead_worker_question_reclaimed :
    ∃ (s s' : PoolState) (g' : ConsumerGroup Str), s'.world.group = some g' ∧
      s'.world.world.acked 0 = false ∧
      (s'.world.world.acked 0 = true ∨
        ∃ d ∈ g'.handovers, d.entry = 0 ∧ s.world.now ≤ d.time) := by
  let M := poolMachine .default anyAnswer
  have hrun : ((M.runFrom Any (initial (.initial World.empty 0))
      (handedSchedule (utter 1 "что такое кит") ++
        [.ambient (.tick 20000)])).bind fun s =>
      (M.runFrom Any s secondPoll).map fun s' => (s, s')).map (fun ss =>
        (ss.1.world.group.map (ConsumerGroup.pending · ss.1.world.world.acked),
          ss.1.world.group.map (ConsumerGroup.idle · 20000 20000 0),
          [ss.1.world.now, ss.2.world.now, reclaims ss.1.log, reclaims ss.2.log],
          [ss.2.world.group.isSome, ss.2.world.world.acked 0])) =
      some (some [0], some true, [20000, 20000, 1, 2], [true, false]) := by
    decide +kernel
  obtain ⟨⟨s, s'⟩, hruns, hobs⟩ := Option.map_eq_some_iff.mp hrun
  obtain ⟨t, hs, hrest⟩ := Option.bind_eq_some_iff.mp hruns
  obtain ⟨t', hsteps, heq⟩ := Option.map_eq_some_iff.mp hrest
  rw [Prod.mk.injEq] at heq
  obtain ⟨rfl, rfl⟩ := heq
  simp only [Prod.mk.injEq, List.cons.injEq, and_true] at hobs
  obtain ⟨hpending, hidle, ⟨hnow, hnow', hpolls, hpolls'⟩, hgroup, hack⟩ := hobs
  obtain ⟨g, hg, hpending⟩ := Option.map_eq_some_iff.mp hpending
  rw [hg] at hidle
  have hidle' := Option.some.inj hidle
  obtain ⟨g', hg'⟩ := Option.isSome_iff_exists.mp hgroup
  refine ⟨t, t', g', hg', hack, ?_⟩
  have hlimit : (Settings.default).reclaimIdleMs = 20000 := by decide +kernel
  refine pool_reclaims_within (reachable_runFrom .start hs)
    (steps_runFrom .refl hsteps) hg hg' ?_ ?_ ?_ ?_ ?_
  · rw [hpending]
    exact List.mem_singleton_self 0
  · rw [hnow, hlimit]
    exact hidle'
  · rw [hpending]
    decide
  · omega
  · rw [hpending, hpolls, hpolls']
    decide

end Run

end AliceSkill
