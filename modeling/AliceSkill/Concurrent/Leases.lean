import AliceSkill.Concurrent.Commands
import AliceSkill.Concurrent.Pool
import AliceSkill.Services.Calls

/-!
# Entries and their deliveries

What the queue guarantees in every run of the processes around it.  An entry
waits until it is handed out for the first time, in the order of the stream;
it is pending until a process to which it has been handed acknowledges it; and
it is handed out again only after the time of a whole execution.
-/

namespace AliceSkill

open Text Effects Program Machine Streams ConversationService RedisStreamQueue

/-! ## What a process has been handed -/

def Task.entry : Task → Option StreamId
  | .work i _ => some i
  | .request _ => none

/-- The entry a reply of the queue hands over. -/
def QueueCall.handed (c : QueueCall) (x : Except PyException c.Res) :
    Option StreamId :=
  (c.offer x).bind Task.entry

/-- What a thread is about: a request, or the entry it has been handed last. -/
inductive Errand where
  | serving
  | holding (i : Option StreamId)
  deriving DecidableEq

instance : Inhabited Errand := ⟨.holding none⟩

namespace Errand

/-- Only requests enqueue; a worker acknowledges only what it holds. -/
def May : Errand → Command → Prop
  | serving, .port (.ack _) => False
  | holding _, .port (.enqueue _) => False
  | holding held, .port (.ack i) => held = some i
  | _, _ => True

end Errand

def leases : Protocol ProcessSig PyException Errand where
  may q op :=
    match op with
    | .inl op => q.May op
    | .inr _ => True
  possible _ _ _ := True
  next q op x :=
    match op, x with
    | .inl _, _ => q
    | .inr c, x => .holding (c.handed x)

def Role.errand : Role → Errand
  | request _ => .serving
  | _ => .holding none

section Follows

variable {cfg : Settings} {q : Errand}

/-- Commands that the errand allows. -/
theorem follows_lift {α : Type} {p : StoreCode α} (hp : p.Only q.May) :
    (p.lift QueueSig).Follows leases q fun _ _ => True := by
  refine ((Only.lift hp).follows fun op hop => ?_).mono fun _ _ _ => trivial
  cases op with
  | inl op => exact ⟨hop, fun _ => rfl⟩
  | inr op => exact hop.elim

theorem follows_queue {c : QueueCall} {R : Except PyException c.Res →
    Errand → Prop} (hR : ∀ x, R x (.holding (c.handed x))) :
    (queue c).Follows leases q R :=
  follows_perform.mpr ⟨trivial, fun x _ => hR x⟩

theorem follows_ensureGroup :
    ensureGroup.Follows leases q fun _ _ => True := by
  rw [ensureGroup, Program.bind_eq, follows_bind]
  refine follows_queue fun x => ?_
  rcases x with e | exc | ⟨⟩
  · trivial
  · simp only
    split <;> trivial
  · trivial

theorem may_of_works {job : DeferredJob} {i : StreamId}
    (hjob : job.streamId = some i) {c : Call} {op : Command} (hc : c.Works job)
    (hop : c.Issues op) : (Errand.holding (some i)).May op := by
  rcases op with ⟨caller, cmd⟩ | c'
  · trivial
  · have hc' : c = .port c' := hop
    subst hc'
    cases c' with
    | ack i' => exact hjob.symm.trans hc
    | enqueue job' => exact hc.elim id id
    | _ => trivial

theorem follows_workBatch {items : Batch}
    (hq : ∀ m, items.1 = [m] → q = .holding (some m.1)) :
    (workBatch cfg items).Follows leases q fun _ _ => True := by
  rcases batch_cases items with ⟨hitems, -⟩ | ⟨m, hitems, -⟩
  · rw [workBatch, hitems]
    exact follows_queue fun _ => trivial
  · have hjobs : workBatch cfg items = workJobs cfg (decodeJobs [m]) := by
      rw [workBatch, hitems]
      rfl
    rw [hjobs, hq m hitems]
    refine follows_bind.mpr ?_
    refine (follows_lift ?_).mono fun r q' _ => ?_
    · exact only_interp_implement (only_workJob cfg _) fun c op =>
        may_of_works rfl
    · rcases r <;> trivial

theorem handed_of_batch {items : Batch} {m : Message} (h : items.1 = [m]) :
    Errand.holding ((items.1.head?.map Message.task).bind Task.entry) =
      .holding (some m.1) := by
  rw [h]
  rfl

theorem follows_workerRound (consumerName : Str) :
    (workerRound cfg consumerName).Follows leases q fun _ _ => True := by
  rw [workerRound_eq, follows_bind]
  refine follows_queue fun x => ?_
  rcases x with e | items
  · trivial
  simp only
  split
  · exact follows_workBatch fun m => handed_of_batch
  · rw [follows_bind]
    refine follows_queue fun x => ?_
    rcases x with e | _ | ⟨items', rest⟩
    · trivial
    · exact follows_queue fun _ => trivial
    · exact follows_workBatch fun m => handed_of_batch

theorem follows_workerLoop (consumerName : Str) (n : ℕ) :
    (workerLoop cfg consumerName n).Follows leases q fun _ _ => True := by
  induction n generalizing q with
  | zero => trivial
  | succ n ih =>
      rw [workerLoop, Program.bind_eq, follows_bind]
      refine (follows_workerRound consumerName).mono fun r q' _ => ?_
      rcases r with e | _
      · trivial
      · exact ih

theorem serving_may {c : Call} {op : Command} (hc : c.Serves)
    (hop : c.Issues op) : Errand.serving.May op := by
  rcases op with ⟨caller, cmd⟩ | c'
  · trivial
  · have hc' : c = .port c' := hop
    subst hc'
    cases c' with
    | ack i => exact hc.elim
    | _ => trivial

theorem leases_body (cfg : Settings) (role : Role) :
    (role.body cfg).Follows leases role.errand fun _ _ => True := by
  cases role with
  | start =>
      refine follows_bind.mpr (follows_ensureGroup.mono fun r q _ => ?_)
      rcases r <;> trivial
  | request payload =>
      have hhandle : ((Task.request payload).body cfg).Only Call.Serves :=
        Only.bind (only_handle cfg payload) fun _ => trivial
      exact follows_lift (only_interp_implement hhandle fun c op => serving_may)
  | worker consumerName rounds =>
      refine follows_bind.mpr (follows_ensureGroup.mono fun r q _ => ?_)
      rcases r with e | _
      · trivial
      refine follows_bind.mpr ((follows_workerLoop consumerName rounds).mono
        fun r q _ => ?_)
      rcases r <;> trivial

end Follows

/-! ## The stream under one command -/

section Stream

variable {w w' : World} {i : StreamId}

/-- A command leaves the stream alone, adds an entry or acknowledges one. -/
theorem stream_command_cases (cfg : Settings) (a : Answer) (op : Command) (w : World) :
    (execCommand cfg a op w).2.stream = w.stream ∨
    (∃ job, op = .port (.enqueue job) ∧
      (execCommand cfg a op w).2.stream = w.stream ++ [⟨job, false⟩]) ∨
    (∃ i, op = .port (.ack i) ∧ a.fault = none ∧
      (execCommand cfg a op w).2.stream =
        w.stream.modify i fun e => { e with acked := true }) := by
  rcases hfault : a.fault with _ | e
  · rcases op with ⟨self, cmd⟩ | c
    · rw [execCommand_kv hfault]
      refine Or.inl ?_
      rcases cmd with key | ⟨key, r⟩ | ⟨key, r⟩ | key
      · rfl
      · rfl
      · simp only [KvCommand.apply]
        split <;> rfl
      · rfl
    · rw [execCommand_port hfault]
      cases c with
      | enqueue job => exact Or.inr (Or.inl ⟨job, rfl, rfl⟩)
      | ack i => exact Or.inr (Or.inr ⟨i, rfl, rfl, rfl⟩)
      | checkRateLimit bucket =>
          refine Or.inl ?_
          simp only [PortCall.exec]
          split <;> rfl
      | _ => exact Or.inl rfl
  · rw [execCommand_fault hfault]
    exact Or.inl rfl

theorem acked_congr (h : w'.stream = w.stream) : w'.acked i = w.acked i := by
  rw [World.acked, World.acked, h]

/-- A new entry is not acknowledged. -/
theorem acked_append {job : DeferredJob}
    (h : w'.stream = w.stream ++ [⟨job, false⟩]) : w'.acked i = w.acked i := by
  rw [World.acked, World.acked, h]
  rcases lt_trichotomy i w.stream.length with hlt | rfl | hgt
  · rw [List.getElem?_append_left hlt]
  · simp
  · have hend : (w.stream ++ [StreamEntry.mk job false]).length ≤ i := by
      rw [List.length_append, List.length_singleton]
      exact hgt
    rw [List.getElem?_eq_none hend, List.getElem?_eq_none (Nat.le_of_lt hgt)]

theorem acked_modify {i' : StreamId}
    (h : w'.stream = w.stream.modify i' fun e => { e with acked := true })
    (hacked : w'.acked i = true) : i' = i ∨ w.acked i = true := by
  rw [World.acked, h, List.getElem?_modify] at hacked
  by_cases hi : i' = i
  · exact Or.inl hi
  · rw [World.acked]
    cases hget : w.stream[i]? with
    | none =>
        rw [hget] at hacked
        cases hacked
    | some entry =>
        rw [hget] at hacked
        simpa [hi] using hacked

theorem length_modify {i' : StreamId}
    (h : w'.stream = w.stream.modify i' fun e => { e with acked := true }) :
    w'.stream.length = w.stream.length := by
  rw [h, List.length_modify]

theorem acked_lt (h : w.acked i = true) : i < w.stream.length := by
  by_contra hge
  rw [World.acked, List.getElem?_eq_none (Nat.le_of_not_lt hge)] at h
  cases h

end Stream

/-! ## The group in any run -/

/-- A group created when the stream had `n` entries, on the stream as it is
now. -/
structure GroupSound (cfg : Settings) (n : ℕ) (w : World) (now : ℕ)
    (g : ConsumerGroup Str) : Prop where
  start : g.start = n
  within : g.next ≤ w.stream.length
  unread : ∀ i, g.next ≤ i → w.acked i = false
  spaced : ConsumerGroup.Spaced cfg.reclaimIdleMs g.handovers
  past : ConsumerGroup.Past now g.handovers

/-- Nothing is enqueued before there is a group. -/
def Server.Sound (cfg : Settings) (n : ℕ) (s : Server) : Prop :=
  match s.group with
  | none => s.world.stream.length = n
  | some g => GroupSound cfg n s.world s.now g

section Sound

variable {cfg : Settings} {n : ℕ} {s : Server} {g : ConsumerGroup Str}

theorem Server.Sound.inGroup (h : s.Sound cfg n) (hg : s.group = some g) :
    GroupSound cfg n s.world s.now g := by
  rw [Server.Sound, hg] at h
  exact h

theorem sound_of_group (hg : s.group = some g) (h : GroupSound cfg n s.world s.now g) :
    s.Sound cfg n := by
  rw [Server.Sound, hg]
  exact h

theorem sound_create (hlen : s.world.stream.length = n) :
    GroupSound cfg n s.world s.now (.create s.world.stream.length) where
  start := hlen
  within := Nat.le_refl _
  unread i hi := by
    rw [World.acked, List.getElem?_eq_none hi]
  spaced := List.Pairwise.nil
  past _ hd := by cases hd

theorem GroupSound.autoclaim (h : GroupSound cfg n s.world s.now g) (consumerName : Str) :
    GroupSound cfg n s.world s.now
      (g.autoclaim s.world.acked consumerName s.now cfg.reclaimIdleMs 1).2 where
  start := h.start
  within := h.within
  unread := h.unread
  spaced := h.spaced.autoclaim consumerName s.now 1
  past := ConsumerGroup.past_handed_append h.past

theorem GroupSound.read (h : GroupSound cfg n s.world s.now g) (consumerName : Str) :
    GroupSound cfg n s.world s.now
      (g.read s.world.stream.length consumerName s.now 1).2 where
  start := h.start
  within := by
    have := h.within
    simp only [ConsumerGroup.read]
    omega
  unread i hi := h.unread i (Nat.le_trans (Nat.le_add_right _ _) hi)
  spaced := h.spaced.read s.world.stream.length consumerName s.now 1
  past := ConsumerGroup.past_handed_append h.past

/-- A command on the queue keeps the group sound. -/
theorem Server.Sound.queue (h : s.Sound cfg n) (c : QueueCall) :
    (c.exec cfg s).2.Sound cfg n := by
  cases hg : s.group with
  | none =>
      rw [Server.Sound, hg] at h
      cases c with
      | xgroupCreate =>
          simp only [QueueCall.exec, hg]
          exact sound_create h
      | sleep => simpa only [QueueCall.exec, Server.Sound, hg] using h
      | _ => simpa only [QueueCall.exec, Server.Sound, hg] using h
  | some g =>
      have hsound := h.inGroup hg
      cases c with
      | xautoclaim consumerName =>
          simp only [QueueCall.exec, hg]
          exact hsound.autoclaim consumerName
      | xreadgroup consumerName =>
          simp only [QueueCall.exec, hg]
          exact hsound.read consumerName
      | xgroupCreate =>
          simp only [QueueCall.exec, hg]
          exact h
      | sleep => exact h

theorem Server.Sound.pass (h : s.Sound cfg n) (e : Passing) :
    (s.pass e).Sound cfg n := by
  have hstream : (s.pass e).world.stream = s.world.stream := by
    rcases e with (key | key | key) | ms <;> rfl
  have hgroup : (s.pass e).group = s.group := by
    rcases e with e | ms <;> rfl
  have hnow : s.now ≤ (s.pass e).now := by
    rcases e with e | ms
    · exact Nat.le_refl _
    · exact Nat.le_add_right _ _
  cases hg : s.group with
  | none =>
      rw [Server.Sound, hg] at h
      rw [Server.Sound, hgroup, hg]
      simp only [hstream]
      exact h
  | some g =>
      have hsound := h.inGroup hg
      refine sound_of_group (hgroup.trans hg) ⟨hsound.start, ?_, ?_, hsound.spaced,
        hsound.past.mono hnow⟩
      · rw [hstream]
        exact hsound.within
      · intro i hi
        rw [acked_congr hstream]
        exact hsound.unread i hi

/-! ## What is handed over -/

theorem mem_messages {w : World} {ids : List StreamId} {m : Message}
    (h : m ∈ w.messages ids) :
    m.1 ∈ ids ∧ ∃ entry, w.stream[m.1]? = some entry ∧ m.2 = entry.job := by
  rw [World.messages, List.mem_filterMap] at h
  obtain ⟨i, hi, hm⟩ := h
  obtain ⟨entry, hentry, rfl⟩ := Option.map_eq_some_iff.mp hm
  exact ⟨hi, entry, hentry, rfl⟩

/-- A message of an entry that is not acknowledged stands for an execution
that may be started. -/
theorem admits_of_message {w : World} {ids : List StreamId} {m : Message}
    (h : m ∈ w.messages ids) (hacked : w.acked m.1 = false) :
    m.task.Admits w := by
  obtain ⟨-, entry, hentry, hjob⟩ := mem_messages h
  rw [World.acked, hentry] at hacked
  simp only [Message.task, Task.Admits, hentry]
  refine ⟨hacked, ?_⟩
  rw [hjob]
  rfl

/-- The entry of the task is one that the group has handed out. -/
def HandedOut (group : Option (ConsumerGroup Str)) (i : StreamId) : Prop :=
  ∃ g, group = some g ∧ g.start ≤ i ∧ i < g.next

theorem handedOut_claimable {task : Task} {consumerName : Str}
    (hoffer : (QueueCall.reclaimed cfg s g).1.head?.map Message.task = some task) :
    task.Admits s.world ∧ ∃ i, task.entry = some i ∧
      HandedOut (some (g.autoclaim s.world.acked consumerName s.now
        cfg.reclaimIdleMs 1).2) i := by
  obtain ⟨m, hm, rfl⟩ := head_task hoffer
  have hmem : m ∈ (QueueCall.reclaimed cfg s g).1 := by
    rw [hm]
    exact List.mem_singleton_self m
  have hclaim := (ConsumerGroup.claimable_sublist _ _ _).subset (mem_messages hmem).1
  obtain ⟨hrange, hacked⟩ := ConsumerGroup.mem_pending.mp hclaim
  exact ⟨admits_of_message hmem hacked, m.1, rfl, _, rfl, hrange⟩

theorem handedOut_fresh (h : GroupSound cfg n s.world s.now g)
    {task : Task} {consumerName : Str}
    (hoffer : (QueueCall.unread s g).1.head?.map Message.task = some task) :
    task.Admits s.world ∧ ∃ i, task.entry = some i ∧
      HandedOut (some (g.read s.world.stream.length consumerName s.now 1).2) i := by
  obtain ⟨m, hm, rfl⟩ := head_task hoffer
  have hmem : m ∈ (QueueCall.unread s g).1 := by
    rw [hm]
    exact List.mem_singleton_self m
  have hfresh := List.mem_range'_1.mp (mem_messages hmem).1
  exact ⟨admits_of_message hmem (h.unread _ hfresh.1), m.1, rfl, _, rfl,
    Nat.le_trans g.start_le_next hfresh.1, hfresh.2⟩

/-- Whatever the queue hands over may be worked on, and the group has it in
its list. -/
theorem Server.Sound.offer (h : s.Sound cfg n) {c : QueueCall} {task : Task}
    (hoffer : c.offer (c.exec cfg s).1 = some task) :
    task.Admits s.world ∧ ∃ i, task.entry = some i ∧
      HandedOut (c.exec cfg s).2.group i := by
  cases hg : s.group with
  | none =>
      cases c with
      | sleep => cases hoffer
      | _ =>
          simp only [QueueCall.exec, hg] at hoffer
          cases hoffer
  | some g =>
      have hsound := h.inGroup hg
      cases c with
      | sleep => cases hoffer
      | xgroupCreate =>
          simp only [QueueCall.exec, hg] at hoffer
          cases hoffer
      | xautoclaim consumerName =>
          simp only [QueueCall.exec, hg] at hoffer ⊢
          exact handedOut_claimable hoffer
      | xreadgroup consumerName =>
          simp only [QueueCall.exec, hg] at hoffer ⊢
          by_cases hempty : (QueueCall.unread s g).1 = []
          · rw [if_pos hempty] at hoffer
            cases hoffer
          · rw [if_neg hempty] at hoffer
            exact handedOut_fresh hsound hoffer

end Sound

/-! ## Whole runs -/

/-- The thread has been handed the entry. -/
def Received (log : List (Event ProcessSig PyException)) (tid : ℕ)
    (i : StreamId) : Prop :=
  ∃ (c : QueueCall) (x : Except PyException c.Res),
    (⟨tid, .inr c, x⟩ : Event ProcessSig PyException) ∈ log ∧ c.handed x = some i

/-- A thread has acknowledged the entry after it had been handed it. -/
def Settled (log : List (Event ProcessSig PyException)) (i : StreamId) : Prop :=
  ∃ tid later earlier,
    log = later ++ (⟨tid, .inl (.port (.ack i)), .ok ()⟩ ::
      earlier : List (Event ProcessSig PyException)) ∧ Received earlier tid i

theorem Received.cons {log : List (Event ProcessSig PyException)} {tid : ℕ}
    {i : StreamId} (h : Received log tid i) (e : Event ProcessSig PyException) :
    Received (e :: log) tid i := by
  obtain ⟨c, x, hmem, hx⟩ := h
  exact ⟨c, x, List.mem_cons_of_mem e hmem, hx⟩

theorem Settled.cons {log : List (Event ProcessSig PyException)} {i : StreamId}
    (h : Settled log i) (e : Event ProcessSig PyException) :
    Settled (e :: log) i := by
  obtain ⟨tid, later, earlier, rfl, hrec⟩ := h
  exact ⟨tid, e :: later, earlier, rfl, hrec⟩

/-- A group does not go back. -/
def Advances (group group' : Option (ConsumerGroup Str)) : Prop :=
  ∀ g, group = some g →
    ∃ g', group' = some g' ∧ g'.start = g.start ∧ g.next ≤ g'.next

theorem Advances.refl (group : Option (ConsumerGroup Str)) :
    Advances group group :=
  fun g hg => ⟨g, hg, rfl, Nat.le_refl _⟩

theorem Advances.handedOut {group group' : Option (ConsumerGroup Str)}
    (h : Advances group group') {i : StreamId} (hi : HandedOut group i) :
    HandedOut group' i := by
  obtain ⟨g, hg, hstart, hnext⟩ := hi
  obtain ⟨g', hg', hstart', hnext'⟩ := h g hg
  exact ⟨g', hg', hstart'.symm ▸ hstart, Nat.lt_of_lt_of_le hnext hnext'⟩

theorem Advances.isSome {group group' : Option (ConsumerGroup Str)}
    (h : Advances group group') (hg : group.isSome = true) :
    group'.isSome = true := by
  obtain ⟨g, hg⟩ := Option.isSome_iff_exists.mp hg
  obtain ⟨g', hg', -⟩ := h g hg
  rw [hg']
  rfl

theorem advances_queue (cfg : Settings) (c : QueueCall) (s : Server) :
    Advances s.group (c.exec cfg s).2.group := by
  intro g hg
  cases c with
  | xautoclaim consumerName =>
      simp only [QueueCall.exec, hg]
      exact ⟨_, rfl, rfl, Nat.le_refl _⟩
  | xreadgroup consumerName =>
      simp only [QueueCall.exec, hg]
      exact ⟨_, rfl, rfl, Nat.le_add_right _ _⟩
  | xgroupCreate =>
      simp only [QueueCall.exec, hg]
      exact ⟨_, rfl, rfl, Nat.le_refl _⟩
  | sleep => exact ⟨g, hg, rfl, Nat.le_refl _⟩

theorem advances_process (cfg : Settings) (a : ProcessAnswer) (op : ProcessSig.Op)
    (s : Server) : Advances s.group (execProcess cfg a op s).2.group := by
  rcases op with op | c
  · exact Advances.refl _
  · simp only [execProcess]
    split
    · exact advances_queue cfg c s
    · split
      · exact advances_queue cfg c s
      · exact Advances.refl _

/-- What a thread can rely on: a request is served by a process that has been
started, and the entry held has been handed out to the thread. -/
structure Holds (tid : ℕ) (q : Errand) (s : Server)
    (log : List (Event ProcessSig PyException)) : Prop where
  served : q = .serving → s.group.isSome = true
  received : ∀ i, q = .holding (some i) → Received log tid i
  handedOut : ∀ i, q = .holding (some i) → HandedOut s.group i

/-- The state of the server, and why entries are acknowledged. -/
structure PoolSound (cfg : Settings) (n : ℕ) (s : Server)
    (log : List (Event ProcessSig PyException)) : Prop where
  sound : s.Sound cfg n
  settled : ∀ i, n ≤ i → s.world.acked i = true → Settled log i

theorem Holds.mono {tid : ℕ} {q : Errand} {s s' : Server}
    {log : List (Event ProcessSig PyException)} (h : Holds tid q s log)
    (hadv : Advances s.group s'.group) (e : Event ProcessSig PyException) :
    Holds tid q s' (e :: log) where
  served hq := hadv.isSome (h.served hq)
  received i hi := (h.received i hi).cons e
  handedOut i hi := hadv.handedOut (h.handedOut i hi)

theorem GroupSound.grow {cfg : Settings} {n now : ℕ} {w w' : World}
    {g : ConsumerGroup Str} (h : GroupSound cfg n w now g)
    (hlen : w.stream.length ≤ w'.stream.length)
    (hacked : ∀ i, g.next ≤ i → w'.acked i = false) :
    GroupSound cfg n w' now g :=
  ⟨h.start, Nat.le_trans h.within hlen, hacked, h.spaced, h.past⟩

section Step

variable {cfg : Settings} {n tid : ℕ} {s : Server} {q : Errand}
variable {log : List (Event ProcessSig PyException)}

/-- A command of the service. -/
theorem PoolSound.work (h : PoolSound cfg n s log) (hq : Holds tid q s log)
    {op : Command} (hmay : q.May op) (a : ProcessAnswer) :
    PoolSound cfg n (execProcess cfg a (.inl op) s).2
      (⟨tid, .inl op, (execProcess cfg a (.inl op) s).1⟩ :: log) := by
  have hgroup : (execProcess cfg a (.inl op) s).2.group = s.group := rfl
  rcases stream_command_cases cfg a.answer op s.world with
    hsame | ⟨job, rfl, happ⟩ | ⟨i, rfl, hfault, hmod⟩
  · have hacked : ∀ i, (execProcess cfg a (.inl op) s).2.world.acked i =
        s.world.acked i := fun i => acked_congr hsame
    constructor
    · cases hg : s.group with
      | none =>
          have hlen := h.sound
          rw [Server.Sound, hg] at hlen
          rw [Server.Sound, hgroup, hg]
          exact (congrArg List.length hsame).trans hlen
      | some g =>
          have hsound := h.sound.inGroup hg
          refine sound_of_group (hgroup.trans hg) (hsound.grow ?_ fun i hi => ?_)
          · exact Nat.le_of_eq (congrArg List.length hsame).symm
          · rw [hacked]
            exact hsound.unread i hi
    · intro i hi hack
      rw [hacked] at hack
      exact (h.settled i hi hack).cons _
  · have hserving : q = .serving := by
      rcases q with _ | held
      · rfl
      · exact hmay.elim
    obtain ⟨g, hg⟩ := Option.isSome_iff_exists.mp (hq.served hserving)
    have hsound := h.sound.inGroup hg
    have hacked : ∀ i, (execProcess cfg a (.inl (.port (.enqueue job))) s).2.world.acked i =
        s.world.acked i := fun i => acked_append happ
    constructor
    · refine sound_of_group (hgroup.trans hg) (hsound.grow ?_ fun i hi => ?_)
      · refine Nat.le_trans ?_ (Nat.le_of_eq (congrArg List.length happ).symm)
        rw [List.length_append]
        exact Nat.le_add_right _ _
      · rw [hacked]
        exact hsound.unread i hi
    · intro i hi hack
      rw [hacked] at hack
      exact (h.settled i hi hack).cons _
  · have hheld : q = .holding (some i) := by
      rcases q with _ | held
      · exact hmay.elim
      · exact congrArg _ hmay
    obtain ⟨g, hg, hstart, hnext⟩ := hq.handedOut i hheld
    have hsound := h.sound.inGroup hg
    constructor
    · refine sound_of_group (hgroup.trans hg) (hsound.grow ?_ fun i' hi' => ?_)
      · exact Nat.le_of_eq (length_modify hmod).symm
      · by_contra hack
        rw [Bool.not_eq_false] at hack
        rcases acked_modify hmod hack with rfl | hold
        · exact absurd hnext (Nat.not_lt.mpr hi')
        · rw [hsound.unread i' hi'] at hold
          cases hold
    · intro i' hi' hack
      rcases acked_modify hmod hack with rfl | hold
      · refine ⟨tid, [], log, ?_, hq.received i hheld⟩
        simp only [execProcess, execCommand_port hfault]
        rfl
      · exact (h.settled i' hi' hold).cons _

/-- A command on the queue. -/
theorem PoolSound.queue (h : PoolSound cfg n s log) (c : QueueCall)
    (a : ProcessAnswer) :
    PoolSound cfg n (execProcess cfg a (.inr c) s).2
      (⟨tid, .inr c, (execProcess cfg a (.inr c) s).1⟩ :: log) := by
  constructor
  · simp only [execProcess]
    split
    · exact h.sound.queue c
    · split
      · exact h.sound.queue c
      · exact h.sound
  · intro i hi hack
    rw [execProcess_queue_world] at hack
    exact (h.settled i hi hack).cons _

/-- What a thread holds after a command on the queue. -/
theorem PoolSound.holds (h : PoolSound cfg n s log) (c : QueueCall)
    (a : ProcessAnswer) :
    Holds tid (.holding (c.handed (execProcess cfg a (.inr c) s).1))
      (execProcess cfg a (.inr c) s).2
      (⟨tid, .inr c, (execProcess cfg a (.inr c) s).1⟩ :: log) where
  served hq := by cases hq
  received i hi := by
    rw [Errand.holding.injEq] at hi
    exact ⟨c, _, List.mem_cons_self, hi⟩
  handedOut i hi := by
    rw [Errand.holding.injEq] at hi
    simp only [execProcess] at hi ⊢
    split at hi
    · obtain ⟨task, htask, hentry⟩ := Option.bind_eq_some_iff.mp hi
      obtain ⟨-, i', hi', hout⟩ := h.sound.offer htask
      rw [hentry] at hi'
      cases hi'
      exact hout
    · cases c <;> cases hi

end Step

/-- In every run of the processes the queue is sound and every thread holds
what it has been handed. -/
theorem pool_sound {cfg : Settings} {permits : Answer → Command → Prop}
    {C : PoolState → PoolSchedule → Prop} {w : World} {now : ℕ} {s : PoolState}
    (hs : (poolMachine cfg permits).Reachable C (.initial w now) s) :
    PoolSound cfg w.stream.length s.world s.log := by
  have hrun := hs.discipline (leases_body cfg)
    (G := PoolSound cfg w.stream.length)
    (T := fun tid _ q => Holds tid q) ?_ ?_ ?_ ?_
  · exact hrun.1
  · refine ⟨rfl, fun i hi hack => ?_⟩
    exact absurd (acked_lt hack) (Nat.not_lt.mpr hi)
  · intro s role _ _ hadm hG
    refine ⟨fun hserving => ?_, fun i hi => ?_, fun i hi => ?_⟩
    · cases role with
      | request payload => exact hadm
      | start => cases hserving
      | worker consumerName rounds => cases hserving
    all_goals cases role <;> cases hi
  · intro s tid role q op k a _ _ _ _ hmay hG hT
    have hadv := advances_process cfg a op s.world
    refine ⟨trivial, ?_, fun _ => ?_, ?_⟩
    · cases op with
      | inl op => exact hG.work hT hmay a
      | inr c => exact hG.queue c a
    · cases op with
      | inl op => exact hT.mono hadv _
      | inr c => exact hG.holds c a
    · intro i th q' _ _ hother
      exact hother.mono hadv _
  · intro s e _ _ hG
    have hgroup : (s.world.pass e).group = s.world.group := by
      rcases e with e | ms <;> rfl
    have hacked : ∀ i, (s.world.pass e).world.acked i = s.world.world.acked i := by
      intro i
      rcases e with (key | key | key) | ms <;> rfl
    refine ⟨⟨hG.sound.pass e, fun i hi hack => ?_⟩, ?_⟩
    · rw [hacked] at hack
      exact hG.settled i hi hack
    · intro i th q hold
      refine ⟨fun hq => ?_, hold.received, fun j hj => ?_⟩
      · exact hgroup ▸ hold.served hq
      · exact hgroup ▸ hold.handedOut j hj

/-- A question that is put on the stream, and a worker that has been handed
its entry. -/
def handedSchedule (payload : AliceWebhookRequest) : List PoolSchedule :=
  let ok : ProcessAnswer := ⟨.ok, false⟩
  let lost : ProcessAnswer := ⟨.fails ⟨.timeoutError, none⟩, false⟩
  [.spawn .start, .step 0 ok, .spawn (.request payload),
    .step 1 ok, .step 1 ok, .step 1 ok, .step 1 lost, .step 1 ok, .step 1 ok,
    .step 1 ok, .step 1 ok,
    .spawn (.worker "host".toList 1), .step 2 ok, .step 2 ok, .step 2 ok]

/-- A question of a session of its own. -/
def inSession (k : ℕ) : AliceWebhookRequest :=
  let payload := utter 1 "что такое кит"
  { payload with
    session := { payload.session with sessionId := List.replicate k 's' } }

/-- Questions of `n` sessions are put on the stream. -/
def queueingSchedule : ℕ → List PoolSchedule
  | 0 => [.spawn .start, .step 0 ⟨.ok, false⟩]
  | n + 1 =>
      let ok : ProcessAnswer := ⟨.ok, false⟩
      let lost : ProcessAnswer := ⟨.fails ⟨.timeoutError, none⟩, false⟩
      let tid := n + 1
      queueingSchedule n ++ [.spawn (.request (inSession n)),
        .step tid ok, .step tid ok, .step tid ok, .step tid lost, .step tid ok,
        .step tid ok, .step tid ok, .step tid ok]

/-- The threads from `first` on are workers that are handed an entry each. -/
def workersSchedule (first : ℕ) : ℕ → List PoolSchedule
  | 0 => []
  | n + 1 =>
      let ok : ProcessAnswer := ⟨.ok, false⟩
      let tid := first + n
      workersSchedule first n ++
        [.spawn (.worker "host".toList 1), .step tid ok, .step tid ok,
          .step tid ok]

/-- Three questions and two workers, the first of which answers its question and
acknowledges it just in time. -/
def sharedSchedule : List PoolSchedule :=
  queueingSchedule 3 ++ workersSchedule 4 2 ++ [.ambient (.tick 19999)] ++
    List.replicate 12 (.step 4 ⟨.ok, false⟩)

/-! ## Results -/

/-- The processes are a run of the machine in which jobs are delivered at any
time: with the same stores and the same commands, each made by the thread of
its request or execution. -/
theorem pool_refines {cfg : Settings} {permits : Answer → Command → Prop}
    {w : World} {now : ℕ} {s : PoolState}
    (hs : (poolMachine cfg permits).Reachable Any (.initial w now) s) :
    ∃ t current owner, (redisMachine cfg permits).Reachable Any w t ∧
      Related Server.world (redisMachine cfg permits) QueueCall.offer s t
        current owner := by
  refine (serves_redisMachine permits).simulates ?_ hs
  intro s' tid a c task hr _ _ hoffer
  simp only [execProcess] at hoffer
  split at hoffer
  · exact ((pool_sound hr).sound.offer hoffer).1
  · cases c <;> cases hoffer

theorem handed_question_refines :
    ∃ s : PoolState, s.world.group.map ConsumerGroup.next = some 1 ∧
      ∃ t current owner,
        (redisMachine .default anyAnswer).Reachable Any World.empty t ∧
        Related Server.world (redisMachine .default anyAnswer) QueueCall.offer s t
          current owner := by
  have hrun : ((poolMachine .default anyAnswer).runFrom Any
      (initial (.initial World.empty 0))
      (handedSchedule (utter 1 "что такое кит"))).map (fun s =>
        s.world.group.map ConsumerGroup.next) = some (some 1) := by
    decide +kernel
  obtain ⟨s, hs, hobs⟩ := Option.map_eq_some_iff.mp hrun
  exact ⟨s, hobs, pool_refines (reachable_runFrom .start hs)⟩

/-- First deliveries are made in the order of the stream and leave out
nothing, and every entry enqueued in the run waits, is pending, or has been
acknowledged by a thread that had been handed it. -/
theorem pool_accounts {cfg : Settings} {permits : Answer → Command → Prop}
    {w : World} {now : ℕ} {s : PoolState}
    (hs : (poolMachine cfg permits).Reachable Any (.initial w now) s)
    {g : ConsumerGroup Str} (hg : s.world.group = some g) :
    (g.handovers.map Handover.entry).dedup.reverse =
      List.range' w.stream.length (g.next - w.stream.length) ∧
    ∀ i, w.stream.length ≤ i → i < s.world.world.stream.length →
      (g.next ≤ i ∧ s.world.world.acked i = false) ∨
      i ∈ g.pending s.world.world.acked ∨
      (i < g.next ∧ s.world.world.acked i = true ∧ Settled s.log i) := by
  have hpool := pool_sound hs
  have hsound := hpool.sound.inGroup hg
  constructor
  · rw [g.inOrder, List.reverse_reverse, hsound.start]
  · intro i hstart _
    by_cases hnext : g.next ≤ i
    · exact Or.inl ⟨hnext, hsound.unread i hnext⟩
    · have hlt := Nat.lt_of_not_le hnext
      refine Or.inr ?_
      by_cases hack : s.world.world.acked i = true
      · exact Or.inr ⟨hlt, hack, hpool.settled i hstart hack⟩
      · rw [Bool.not_eq_true] at hack
        rw [← hsound.start] at hstart
        exact Or.inl (ConsumerGroup.mem_pending.mpr ⟨⟨hstart, hlt⟩, hack⟩)

/-- One question has been acknowledged, one is being worked on, one waits. -/
theorem shared_questions_accounted :
    ∃ (s : PoolState) (g : ConsumerGroup Str), s.world.group = some g ∧
      (g.handovers.map Handover.entry).dedup.reverse = [0, 1] ∧
      (s.world.world.acked 0 = true ∧ Settled s.log 0) ∧
      1 ∈ g.pending s.world.world.acked ∧
      g.next ≤ 2 ∧ s.world.world.acked 2 = false := by
  have hrun : ((poolMachine .default anyAnswer).runFrom Any
      (initial (.initial World.empty 0)) sharedSchedule).map (fun s =>
        (s.world.group.map ConsumerGroup.next, s.world.world.stream.length,
          s.world.world.acked 0, s.world.world.acked 1)) =
      some (some 2, 3, true, false) := by
    decide +kernel
  obtain ⟨s, hs, hobs⟩ := Option.map_eq_some_iff.mp hrun
  simp only [Prod.mk.injEq] at hobs
  obtain ⟨hgroup, hlength, hfirst, hsecond⟩ := hobs
  obtain ⟨g, hg, hnext⟩ := Option.map_eq_some_iff.mp hgroup
  obtain ⟨horder, hplaces⟩ := pool_accounts (reachable_runFrom .start hs) hg
  have hplace : ∀ i < 3, (g.next ≤ i ∧ s.world.world.acked i = false) ∨
      i ∈ g.pending s.world.world.acked ∨
      (i < g.next ∧ s.world.world.acked i = true ∧ Settled s.log i) :=
    fun i hi => hplaces i (Nat.zero_le i) (hlength ▸ hi)
  refine ⟨s, g, hg, ?_, ⟨hfirst, ?_⟩, ?_, hnext.le, ?_⟩
  · rw [horder, hnext]
    rfl
  · rcases hplace 0 (by decide) with ⟨-, hwaits⟩ | hpending | ⟨-, -, hsettled⟩
    · rw [hfirst] at hwaits
      cases hwaits
    · rw [(ConsumerGroup.mem_pending.mp hpending).2] at hfirst
      cases hfirst
    · exact hsettled
  · rcases hplace 1 (by decide) with ⟨hwaits, -⟩ | hpending | ⟨-, hacked, -⟩
    · omega
    · exact hpending
    · rw [hsecond] at hacked
      cases hacked
  · rcases hplace 2 (by decide) with ⟨-, hwaits⟩ | hpending | ⟨hlt, -⟩
    · exact hwaits
    · have hrange := (ConsumerGroup.mem_pending.mp hpending).1
      omega
    · omega

end AliceSkill
