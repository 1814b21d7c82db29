import AliceSkill.Concurrent.History
import AliceSkill.Concurrent.Machines
import AliceSkill.Services.Calls

/-!
# Exchanges in the history

An exchange is written with two calls, and nothing keeps other threads from
appending between them.  The history consists of complete exchanges exactly as
long as nobody does and the second call of an exchange does not fail.
-/

namespace AliceSkill

open Text Effects Program Machine ConversationService

/-! ## Sequences of turns -/

/-- Each user turn is followed by the assistant turn of the same thread. -/
def Complete : List SignedTurn → Prop
  | [] => True
  | [_] => False
  | (i, turn) :: (j, turn') :: rest =>
      i = j ∧ turn.role = .user ∧ turn'.role = .assistant ∧ Complete rest

theorem complete_append_iff {done rest : List SignedTurn}
    (h : Complete done) : Complete (done ++ rest) ↔ Complete rest := by
  induction done using Complete.induct with
  | case1 => rfl
  | case2 t => exact h.elim
  | case3 i turn j turn' done ih =>
      obtain ⟨hij, huser, hassistant, hdone⟩ := h
      rw [List.cons_append, List.cons_append, Complete]
      constructor
      · rintro ⟨-, -, -, hrest⟩
        exact (ih hdone).mp hrest
      · intro hrest
        exact ⟨hij, huser, hassistant, (ih hdone).mpr hrest⟩

theorem not_complete_singleton (t : SignedTurn) : ¬Complete [t] := id

/-- The appended turns are complete exchanges, after which one user turn may
stand whose thread appends the assistant turn next. -/
def Paired (key : Str) (s : StoreState) : Prop :=
  Complete (signedTurns key s.log) ∨
  ∃ done i u a, Complete done ∧
    signedTurns key s.log = done ++ [(i, ⟨.user, u⟩)] ∧
    s.next i = some (.port (.appendTurn key ⟨.assistant, a⟩))

/-- A turn is not appended while another thread is between its two turns, and
the second turn of an exchange does not fail. -/
def Undivided (key : Str) (s : StoreState) (act : Schedule) : Prop :=
  ∀ i a turn, act = .step i a → s.next i = some (.port (.appendTurn key turn)) →
    (a.fault = none → ∀ k content, k ≠ i →
      s.next k ≠ some (.port (.appendTurn key ⟨.assistant, content⟩))) ∧
    (turn.role = .assistant → a.fault = none)

/-! ## The protocol of an execution -/

/-- How far an execution has come with its exchange. -/
inductive Exchange where
  | ahead
  | within (key : Str) (user : Str)
  | past

/-- The user turn comes first, and the assistant turn is the very next call. -/
def exchanges : Protocol CallSig PyException Exchange where
  may q op :=
    match q, op with
    | .ahead, .port (.appendTurn _ turn) => turn.role = .user
    | .ahead, _ => True
    | .within key _, .port (.appendTurn k turn) => k = key ∧ turn.role = .assistant
    | .within _ _, _ => False
    | .past, .port (.appendTurn ..) => False
    | .past, _ => True
  possible _ _ _ := True
  next q op x :=
    match q, op, x with
    | .ahead, .port (.appendTurn key turn), .ok _ => .within key turn.content
    | .ahead, .port (.appendTurn ..), .error _ => .past
    | .within _ _, _, _ => .past
    | q, _, _ => q

/-- The execution is not between its two turns. -/
def Outside (q : Exchange) : Prop := ∀ key u, q ≠ .within key u

section Parts

variable {cfg : Settings} {key : Str} {job : DeferredJob}

theorem outside_ahead : Outside .ahead := by
  rintro key u ⟨⟩

theorem outside_past : Outside .past := by
  rintro key u ⟨⟩

/-- Outside an exchange only appending a turn changes the phase. -/
theorem Outside.stays {q : Exchange} (hq : Outside q) :
    Stays exchanges (fun c => ¬c.Appends) q := by
  intro op hop
  cases q with
  | within key u => exact absurd rfl (hq key u)
  | ahead | past =>
      rcases op with c | c
      · exact ⟨trivial, fun _ => rfl⟩
      · rcases c
        case appendTurn => exact (hop trivial).elim
        all_goals exact ⟨trivial, fun _ => rfl⟩

theorem exchange_appendTurns (u a : Str) :
    (appendTurns key ⟨.user, u⟩ ⟨.assistant, a⟩).Follows exchanges .ahead
      fun r q => r = .ok () ∧ q = .past := by
  rw [appendTurns, bind_eq, follows_bind, follows_attempt, bind_eq, follows_bind,
    Ports.appendTurn, Ports.ask, follows_perform]
  refine ⟨rfl, fun x _ => ?_⟩
  rcases x with e | _
  · exact ⟨rfl, rfl⟩
  · show (Ports.appendTurn key ⟨.assistant, a⟩).Follows _ _ _
    rw [Ports.appendTurn, Ports.ask, follows_perform]
    refine ⟨⟨rfl, rfl⟩, fun x _ => ?_⟩
    rcases x with e | _
    · exact ⟨rfl, rfl⟩
    · exact ⟨rfl, rfl⟩

theorem exchange_recordCompletedTurns (key u a : Str) :
    (recordCompletedTurns key ⟨.user, u⟩ ⟨.assistant, a⟩).Follows exchanges
      .ahead fun _ q => q = .past := by
  rw [recordCompletedTurns, bind_eq, follows_bind]
  refine (exchange_appendTurns u a).mono ?_
  rintro r q ⟨rfl, rfl⟩
  exact (only_persistAnalytics _ _ _ _).follows fun op hop =>
    outside_past.stays op (not_appends_of_analytics hop)

theorem exchange_body (cfg : Settings) (task : Task) :
    (task.body cfg).Follows exchanges .ahead fun _ q => Outside q := by
  have hacts : ∀ {q}, Outside q → Stays exchanges Call.Acts q := by
    intro q hq op hop
    exact hq.stays op (not_appends_of_acts hop)
  have houtside : ∀ q, q = Exchange.ahead ∨ q = .past → Outside q := by
    rintro q (rfl | rfl)
    · exact outside_ahead
    · exact outside_past
  cases task with
  | request payload =>
      rw [Task.body, follows_bind]
      refine (follows_handle_of (hacts outside_ahead) (hacts outside_past)
        exchange_recordCompletedTurns cfg payload).mono fun r q hq => ?_
      rcases r with e | response
      · exact houtside q hq
      · exact houtside q hq
  | work i job =>
      rw [Task.body, follows_bind]
      refine (follows_workJob_of outside_ahead.stays outside_past.stays
        (fun key u a => (exchange_appendTurns u a).mono fun _ _ h => h.2)
        cfg job).mono fun r q hq => ?_
      rcases r with e | _
      · exact houtside q hq
      · exact houtside q hq

end Parts

/-! ## Runs -/

section Runs

variable {cfg : Settings} {key u : Str} {w : World} {s : StoreState}
variable {ph : ℕ → Exchange}

/-- Only a user turn that has just been appended brings an execution between
its two turns. -/
theorem appended_of_next_within {q : Exchange} {op : Call}
    {x : Except PyException op.Res} (hmay : exchanges.may q op)
    (h : exchanges.next q op x = .within key u) (i : ℕ) :
    q = .ahead ∧ appendedBy key ⟨i, op, x⟩ = some ⟨.user, u⟩ := by
  cases q with
  | within key' u' => cases h
  | past => cases h
  | ahead =>
      rcases op with c | c
      · cases h
      · rcases c
        case appendTurn key' turn =>
          rcases x with e | _
          · cases h
          · cases h
            have hrole : turn.role = .user := hmay
            rw [← hrole]
            exact ⟨rfl, if_pos rfl⟩
        all_goals cases h

/-- Between its two turns an execution appends the assistant turn next. -/
theorem assistant_of_within {α : Type} {l : Task}
    {p : Program CallSig PyException α}
    (h : p.Follows exchanges (.within key u) fun _ q => Outside q) :
    ∃ a, Thread.next ⟨l, p⟩ =
      some (.port (.appendTurn key ⟨.assistant, a⟩)) := by
  rcases p with b | e | ⟨op, k⟩
  · exact (h key u rfl).elim
  · exact (h key u rfl).elim
  · have hmay := h.1
    rcases op with c | c
    · exact hmay.elim
    · rcases c
      case appendTurn key' turn =>
        obtain ⟨rfl, hrole⟩ := hmay
        obtain ⟨role, a⟩ := turn
        cases hrole
        exact ⟨a, rfl⟩
      all_goals exact hmay.elim

/-- The exchanges seen from the phases of the threads: at most one thread is
between its two turns. -/
inductive Arranged (key : Str) (s : StoreState) (ph : ℕ → Exchange) : Prop where
  | complete (hturns : Complete (signedTurns key s.log))
      (hnone : ∀ k u, ph k ≠ .within key u)
  | divided (done : List SignedTurn) (i : ℕ) (u a : Str) (hdone : Complete done)
      (hturns : signedTurns key s.log = done ++ [(i, ⟨.user, u⟩)])
      (hnext : s.next i = some (.port (.appendTurn key ⟨.assistant, a⟩)))
      (hunique : ∀ k u', ph k = .within key u' → k = i)

theorem Arranged.paired (h : Arranged key s ph) : Paired key s := by
  cases h with
  | complete hturns hnone => exact Or.inl hturns
  | divided done i u a hdone hturns hnext hunique =>
      exact Or.inr ⟨done, i, u, a, hdone, hturns, hnext⟩

theorem Arranged.spawn (h : Arranged key s ph) (task : Task) :
    Arranged key ((storeMachine cfg anyAnswer).spawned s task)
      (Function.update ph s.threads.length .ahead) := by
  have hphase : ∀ k u', Function.update ph s.threads.length .ahead k =
      .within key u' → ph k = .within key u' := by
    intro k u' hk
    by_cases hlen : k = s.threads.length
    · rw [hlen, Function.update_self] at hk
      cases hk
    · rwa [Function.update_of_ne hlen] at hk
  cases h with
  | complete hturns hnone =>
      exact .complete hturns fun k u' hk => hnone k u' (hphase k u' hk)
  | divided done i u a hdone hturns hnext hunique =>
      refine .divided done i u a hdone hturns ?_
        fun k u' hk => hunique k u' (hphase k u' hk)
      obtain ⟨l, k, hth⟩ := State.next_eq_some.mp hnext
      have hlt := (List.getElem?_eq_some_iff.mp hth).1
      refine State.next_eq_some.mpr ⟨l, k, ?_⟩
      rw [spawned_threads, if_neg (by omega), hth]

section Call

variable {tid : ℕ} {l : Task} {op : Call} {a : Answer}
variable {k : Except PyException op.Res →
  Service (Option AliceWebhookResponse)}

theorem next_afterCall_of_ne (hget : s.threads[tid]? = some ⟨l, .call op k⟩)
    {i : ℕ} (hi : i ≠ tid) :
    ((storeMachine cfg anyAnswer).afterCall s tid l op k a).next i =
      s.next i := by
  rw [State.next, afterCall_threads hget, if_neg hi]
  rfl

/-- A call that appends nothing to the conversation. -/
theorem Arranged.other (h : Arranged key s ph)
    (hget : s.threads[tid]? = some ⟨l, .call op k⟩)
    (hmay : exchanges.may (ph tid) op)
    (hundivided : Undivided key s (.step tid a))
    (happ : appendedBy key ⟨tid, op, (execCall cfg a op s.world).1⟩ = none) :
    Arranged key ((storeMachine cfg anyAnswer).afterCall s tid l op k a)
      (Function.update ph tid
        (exchanges.next (ph tid) op (execCall cfg a op s.world).1)) := by
  have hlog : signedTurns key
      (⟨tid, op, (execCall cfg a op s.world).1⟩ :: s.log) =
        signedTurns key s.log := by
    rw [signedTurns_cons, happ, Option.map_none, Option.toList_none,
      List.append_nil]
  have hphase : ∀ i u', Function.update ph tid (exchanges.next (ph tid) op
      (execCall cfg a op s.world).1) i = .within key u' →
        ph i = .within key u' := by
    intro i u' hi
    by_cases hit : i = tid
    · rw [hit, Function.update_self] at hi
      have hsome := (appended_of_next_within hmay hi tid).2
      rw [happ] at hsome
      cases hsome
    · rwa [Function.update_of_ne hit] at hi
  cases h with
  | complete hturns hnone =>
      exact .complete (hlog ▸ hturns) fun i u' hi => hnone i u' (hphase i u' hi)
  | divided done i u a' hdone hturns hnext hunique =>
      have hi : i ≠ tid := by
        rintro rfl
        -- the second turn of the exchange does not fail
        have hop : op = .port (.appendTurn key ⟨.assistant, a'⟩) := by
          rw [State.next, hget] at hnext
          exact Option.some.inj hnext
        have hfault := (hundivided i a _ rfl hnext).2 rfl
        subst hop
        rw [appendedBy_of_fault hfault] at happ
        cases happ
      refine .divided done i u a' hdone (hlog.trans hturns) ?_
        fun i' u' hi' => hunique i' u' (hphase i' u' hi')
      rw [next_afterCall_of_ne hget hi]
      exact hnext

/-- A call that appends a turn to the conversation. -/
theorem Arranged.append (h : Arranged key s ph)
    (hget : s.threads[tid]? = some ⟨l, .call op k⟩)
    (hmay : exchanges.may (ph tid) op)
    (hundivided : Undivided key s (.step tid a)) {turn : ConversationTurn}
    (happ : appendedBy key ⟨tid, op, (execCall cfg a op s.world).1⟩ = some turn)
    (hfollows : (k (execCall cfg a op s.world).1).Follows exchanges
      (exchanges.next (ph tid) op (execCall cfg a op s.world).1)
      fun _ q => Outside q) :
    Arranged key ((storeMachine cfg anyAnswer).afterCall s tid l op k a)
      (Function.update ph tid
        (exchanges.next (ph tid) op (execCall cfg a op s.world).1)) := by
  have hlog : signedTurns key
      (⟨tid, op, (execCall cfg a op s.world).1⟩ :: s.log) =
        signedTurns key s.log ++ [(tid, turn)] := by
    rw [signedTurns_cons, happ, Option.map_some, Option.toList_some]
  have hfault := fault_of_appendedBy happ
  have hop : op = .port (.appendTurn key turn) := op_of_appendedBy happ
  have hnow : s.next tid = some (.port (.appendTurn key turn)) := by
    rw [State.next, hget, ← hop]
    rfl
  have hx : ∃ v, (execCall cfg a op s.world).1 = .ok v := by
    subst hop
    rw [execCall_port hfault]
    exact ⟨(), rfl⟩
  obtain ⟨v, hx⟩ := hx
  cases h with
  | complete hturns hnone =>
      cases hq : ph tid with
      | within key' u' =>
          rw [hq] at hmay
          subst hop
          obtain ⟨rfl, -⟩ := hmay
          exact (hnone tid u' hq).elim
      | past =>
          rw [hq] at hmay
          subst hop
          exact hmay.elim
      | ahead =>
          rw [hq] at hmay hfollows
          subst hop
          obtain ⟨role, u⟩ := turn
          have hrole : role = .user := hmay
          subst hrole
          rw [hx] at hfollows ⊢
          obtain ⟨a', hnext⟩ := assistant_of_within (l := l) hfollows
          refine .divided _ tid u a' hturns hlog ?_ fun i u' hi => ?_
          · rw [State.next, afterCall_threads hget, if_pos rfl, hx]
            exact hnext
          · by_contra hit
            rw [Function.update_of_ne hit] at hi
            exact hnone i u' hi
  | divided done i u a' hdone hturns hnext hunique =>
      have hit : i = tid := by
        by_contra hit
        exact (hundivided tid a _ rfl hnow).1 hfault i a' hit hnext
      subst hit
      rw [hnow] at hnext
      cases hnext
      refine .complete ?_ fun i' u' hi' => ?_
      · show Complete (signedTurns key (_ :: s.log))
        rw [hlog, hturns, List.append_assoc, complete_append_iff hdone]
        exact ⟨rfl, rfl, rfl, trivial⟩
      · by_cases hii : i' = i
        · rw [hii, Function.update_self] at hi'
          have hsome := (appended_of_next_within hmay hi' i).2
          rw [happ] at hsome
          cases hsome
        · rw [Function.update_of_ne hii] at hi'
          exact hii (hunique i' u' hi')

end Call

/-- The exchanges stay arranged in every run whose steps meet the condition. -/
theorem arranged_of_reachable
    (hs : (storeMachine cfg anyAnswer).Reachable (Undivided key) w s) :
    ∃ ph, Arranged key s ph ∧ ∀ tid th, s.threads[tid]? = some th →
      Program.Follows exchanges th.prog (ph tid) fun _ q => Outside q := by
  refine hs.phases (exchange_body cfg) (fun _ => .ahead) ?_ ?_ ?_ ?_
  · exact .complete trivial fun k u' h => by cases h
  · intro s ph l hr hc hadm _ h
    exact h.spawn l
  · intro s ph tid l op k a hr hget hc hperm hmay _ h
    refine ⟨trivial, fun hfollows => ?_⟩
    rcases happ : appendedBy key
        ⟨tid, op, (execCall cfg a op s.world).1⟩ with _ | turn
    · exact h.other hget hmay hc happ
    · exact h.append hget hmay hc happ hfollows
  · intro s ph e hr hc h
    cases h with
    | complete hturns hnone => exact .complete hturns hnone
    | divided done i u a hdone hturns hnext hunique =>
        exact .divided done i u a hdone hturns hnext hunique

/-- A thread that is about to append an assistant turn is between its turns. -/
theorem within_of_assistant {th : Thread CallSig PyException Task
      (Option AliceWebhookResponse)} {q : Exchange} {a : Str}
    (h : th.prog.Follows exchanges q fun _ q => Outside q)
    (hnext : th.next = some (.port (.appendTurn key ⟨.assistant, a⟩))) :
    ∃ u, q = .within key u := by
  have hmay := th.may_next h hnext
  cases q with
  | ahead => cases hmay
  | past => exact hmay.elim
  | within key' u =>
      obtain ⟨rfl, -⟩ := hmay
      exact ⟨u, rfl⟩

/-- The thread that is between its turns is the one the turns show. -/
theorem Arranged.of_within (h : Arranged key s ph) {i : ℕ}
    (hi : ph i = .within key u) :
    ∃ done u', Complete done ∧
      signedTurns key s.log = done ++ [(i, ⟨.user, u'⟩)] := by
  cases h with
  | complete hturns hnone => exact (hnone i u hi).elim
  | divided done i' u' a hdone hturns hnext hunique =>
      rw [hunique i u hi]
      exact ⟨done, u', hdone, hturns⟩

/-- A turn appended between the two turns of another thread parts them. -/
theorem not_paired_of_parted {s' : StoreState} {done : List SignedTurn}
    {k i : ℕ} {turn : ConversationTurn} (hdone : Complete done)
    (hki : k ≠ i) (hturns : signedTurns key s'.log =
      done ++ [(k, ⟨.user, u⟩)] ++ [(i, turn)]) : ¬Paired key s' := by
  rintro (hcomplete | ⟨done', i', u', a', hdone', hturns', -⟩)
  · rw [hturns, List.append_assoc, complete_append_iff hdone] at hcomplete
    exact hki hcomplete.1
  · rw [hturns] at hturns'
    obtain ⟨rfl, -⟩ := List.append_inj' hturns' rfl
    rw [complete_append_iff hdone] at hdone'
    exact not_complete_singleton _ hdone'

/-- A user turn whose thread goes on with something else stays alone. -/
theorem not_paired_of_alone {s' : StoreState} {done : List SignedTurn} {i : ℕ}
    (hdone : Complete done)
    (hturns : signedTurns key s'.log = done ++ [(i, ⟨.user, u⟩)])
    (hnext : ∀ a, s'.next i ≠ some (.port (.appendTurn key ⟨.assistant, a⟩))) :
    ¬Paired key s' := by
  rintro (hcomplete | ⟨done', i', u', a', hdone', hturns', hnext'⟩)
  · rw [hturns, complete_append_iff hdone] at hcomplete
    exact not_complete_singleton _ hcomplete
  · rw [hturns] at hturns'
    obtain ⟨-, hlast⟩ := List.append_inj' hturns' rfl
    cases hlast
    exact hnext a' hnext'

/-- A step that does not meet the condition breaks a pair. -/
theorem undivided_of_paired {s' : StoreState} {act : Schedule}
    (hs : (storeMachine cfg anyAnswer).Reachable (Undivided key) w s)
    (hst : (storeMachine cfg anyAnswer).Step s act s')
    (hpaired : Paired key s') : Undivided key s act := by
  obtain ⟨ph, harranged, hfollows⟩ := arranged_of_reachable hs
  rintro i a turn rfl hnow
  rcases step_cases hst with ⟨l, hl, -⟩ | ⟨tid, a', l, op, k, htid, hget, -, rfl⟩ |
    ⟨e, he, -⟩
  · cases hl
  · cases htid
    have hop : op = .port (.appendTurn key turn) := by
      rw [State.next, hget] at hnow
      exact Option.some.inj hnow
    subst hop
    have hthread := hfollows i _ hget
    constructor
    · intro hfault j content hj hnext
      obtain ⟨l', k', hth⟩ := State.next_eq_some.mp hnext
      obtain ⟨u, hu⟩ := within_of_assistant (hfollows j _ hth) rfl
      obtain ⟨done, u', hdone, hturns⟩ := harranged.of_within hu
      have happ := @appendedBy_of_fault cfg key s.world a hfault i turn
      have hparted : signedTurns key ((storeMachine cfg anyAnswer).afterCall s i l
          (.port (.appendTurn key turn)) k a).log =
            done ++ [(j, ⟨.user, u'⟩)] ++ [(i, turn)] := by
        show signedTurns key (_ :: s.log) = _
        rw [signedTurns_cons, happ, hturns]
        rfl
      exact not_paired_of_parted hdone hj hparted hpaired
    · intro hrole
      obtain ⟨role, a''⟩ := turn
      subst hrole
      obtain ⟨u, hu⟩ := within_of_assistant hthread rfl
      obtain ⟨done, u', hdone, hturns⟩ := harranged.of_within hu
      rcases hfault : a.fault with _ | e
      · rfl
      refine (not_paired_of_alone (i := i) (u := u') hdone ?_ ?_ hpaired).elim
      · have happ : appendedBy key ⟨i, .port (.appendTurn key ⟨.assistant, a''⟩),
            (execCall cfg a (.port (.appendTurn key ⟨.assistant, a''⟩))
              s.world).1⟩ = none := by
          rw [execCall_fault hfault]
          rfl
        show signedTurns key (_ :: s.log) = _
        rw [signedTurns_cons, happ, hturns]
        exact List.append_nil _
      · intro b hnext
        rw [State.next, afterCall_threads hget, if_pos rfl] at hnext
        rw [hu] at hthread
        have hrest := hthread.2 (execCall cfg a (.port (.appendTurn key
          ⟨.assistant, a''⟩)) s.world).1 trivial
        let rest : Thread CallSig PyException Task
            (Option AliceWebhookResponse) := ⟨l, k (execCall cfg a _ s.world).1⟩
        obtain ⟨u₁, hu₁⟩ := @within_of_assistant key rest _ _ hrest hnext
        cases hu₁
  · cases he

end Runs

/-- In every run whose steps meet the condition the history consists of complete
exchanges, and a next step keeps it so if and only if it meets the condition. -/
theorem exchanges_paired_iff {cfg : Settings} {w : World} {key : Str}
    {s : StoreState}
    (hs : (storeMachine cfg anyAnswer).Reachable (Undivided key) w s) :
    Paired key s ∧ ∀ act s', (storeMachine cfg anyAnswer).Step s act s' →
      (Paired key s' ↔ Undivided key s act) := by
  have hpaired : ∀ t, (storeMachine cfg anyAnswer).Reachable (Undivided key) w t →
      Paired key t := by
    intro t ht
    obtain ⟨ph, harranged, -⟩ := arranged_of_reachable ht
    exact harranged.paired
  refine ⟨hpaired s hs, fun act s' hst => ⟨?_, ?_⟩⟩
  · exact undivided_of_paired hs hst
  · intro hc
    exact hpaired s' (.step hs hc hst)

/-! ## Concrete runs -/

/-- The only thread makes a call that does not fail. -/
def Undisturbing (s : StoreState) : Schedule → Prop
  | .step _ a => s.threads.length ≤ 1 ∧ a.fault = none
  | _ => True

instance (s : StoreState) : (act : Schedule) → Decidable (Undisturbing s act)
  | .spawn _ => .isTrue trivial
  | .step _ a =>
      inferInstanceAs (Decidable (s.threads.length ≤ 1 ∧ a.fault = none))
  | .ambient _ => .isTrue trivial

theorem undivided_of_undisturbing (key : Str) (s : StoreState)
    (act : Schedule) (h : Undisturbing s act) : Undivided key s act := by
  rintro i a turn rfl hnow
  obtain ⟨hlone, hfault⟩ := h
  refine ⟨fun _ k content hk hnext => ?_, fun _ => hfault⟩
  obtain ⟨l, p, hth⟩ := State.next_eq_some.mp hnow
  obtain ⟨l', p', hth'⟩ := State.next_eq_some.mp hnext
  have hi := (List.getElem?_eq_some_iff.mp hth).1
  have hk' := (List.getElem?_eq_some_iff.mp hth').1
  omega

/-- A question the model answers. -/
def answeringSchedule (payload : AliceWebhookRequest) : List Schedule :=
  [.spawn (.request payload), .step 0 .ok, .step 0 .ok, .step 0 .ok,
    .step 0 (.replies ['a']), .step 0 .ok, .step 0 .ok]

theorem one_exchange_paired :
    let payload := utter 1 "что такое кит"
    ∃ s, (storeMachine .default anyAnswer).Reachable
        (Undivided payload.conversationKey) World.empty s ∧
      (signedTurns payload.conversationKey s.log).length = 2 ∧
      Paired payload.conversationKey s := by
  intro payload
  have hrun : ((storeMachine .default anyAnswer).runFrom Undisturbing
      (initial World.empty) (answeringSchedule payload)).map (fun s =>
        (signedTurns payload.conversationKey s.log).length) = some 2 := by
    decide +kernel
  obtain ⟨s, hs, hlen⟩ := Option.map_eq_some_iff.mp hrun
  have hreach := (reachable_runFrom .start hs).mono
    (undivided_of_undisturbing payload.conversationKey)
  exact ⟨s, hreach, hlen, (exchanges_paired_iff hreach).1⟩

/-- Two questions of one conversation are answered at the same time. -/
def mixedSchedule : List Schedule :=
  [.spawn (.request (utter 1 "что такое кит")),
    .spawn (.request (utter 2 "что такое слон")),
    .step 0 .ok, .step 1 .ok, .step 0 .ok, .step 1 .ok, .step 0 .ok,
    .step 1 .ok, .step 0 (.replies ['a']), .step 1 (.replies ['b']),
    .step 0 .ok, .step 1 .ok, .step 0 .ok, .step 1 .ok]

/-- A question whose answer cannot be appended. -/
def halfSchedule : List Schedule :=
  [.spawn (.request (utter 1 "что такое кит")), .step 0 .ok, .step 0 .ok,
    .step 0 .ok, .step 0 (.replies ['a']), .step 0 .ok,
    .step 0 (.fails ⟨.other, none⟩)]

/-- Exchanges are mixed by concurrent requests and cut by a failing call. -/
theorem exchanges_break :
    let key := (utter 1 "что такое кит").conversationKey
    (∃ s, (storeMachine .default anyAnswer).Reachable Any World.empty s ∧
      ¬Paired key s ∧ (signedTurns key s.log).map (fun t => (t.1, t.2.role)) =
        [(0, .user), (1, .user), (0, .assistant), (1, .assistant)]) ∧
    ∃ s, (storeMachine .default anyAnswer).Reachable Any World.empty s ∧
      ¬Paired key s ∧ (signedTurns key s.log).map (fun t => (t.1, t.2.role)) =
        [(0, .user)] := by
  intro key
  let M := storeMachine .default anyAnswer
  let question : ConversationTurn := ⟨.user, "что такое кит".toList⟩
  let question' : ConversationTurn := ⟨.user, "что такое слон".toList⟩
  constructor
  · have hrun : (M.runFrom Any (initial World.empty) mixedSchedule).map (fun s =>
        signedTurns key s.log) = some [(0, question), (1, question'),
          (0, ⟨.assistant, ['a']⟩), (1, ⟨.assistant, ['b']⟩)] := by
      decide +kernel
    obtain ⟨s, hs, hturns⟩ := Option.map_eq_some_iff.mp hrun
    refine ⟨s, reachable_runFrom .start hs, ?_, by rw [hturns]; rfl⟩
    rintro (hcomplete | ⟨done, i, u, a, -, hdone, -⟩)
    · rw [hturns] at hcomplete
      cases hcomplete.1
    · rw [hturns] at hdone
      obtain ⟨-, hlast⟩ := List.append_inj' (show [(0, question),
        (1, question'), (0, ⟨.assistant, ['a']⟩)] ++ _ = _ from hdone) rfl
      cases hlast
  · have hrun : (M.runFrom Any (initial World.empty) halfSchedule).map (fun s =>
        (signedTurns key s.log, s.next 0)) = some ([(0, question)],
          some (.port (.persistTurns key [question, ⟨.assistant, ['a']⟩]))) := by
      decide +kernel
    obtain ⟨s, hs, hobs⟩ := Option.map_eq_some_iff.mp hrun
    simp only [Prod.mk.injEq] at hobs
    obtain ⟨hturns, hnext⟩ := hobs
    refine ⟨s, reachable_runFrom .start hs, ?_, by rw [hturns]; rfl⟩
    have hgone : ∀ a, s.next 0 ≠
        some (.port (.appendTurn key ⟨.assistant, a⟩)) := by
      intro a h
      rw [hnext] at h
      cases h
    have hnil : Complete [] := trivial
    exact not_paired_of_alone hnil hturns hgone

end AliceSkill
