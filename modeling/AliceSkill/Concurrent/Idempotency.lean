import AliceSkill.Concurrent.Deliveries

/-!
# One effect for all deliveries

If no delivery of a request reads the cache while another one is between its
read and its write, all of them return the response of the first one that
found the cache empty, and only that one has an effect.
-/

namespace AliceSkill

open Text Effects Program Machine

abbrev CacheEvent := Event CallSig PyException

variable {cfg : Settings} {k : Str} {s s' : StoreState}

/-- The cache read of a delivery that found no response. -/
def missEvent (i : ℕ) (k : Str) : CacheEvent :=
  ⟨i, .port (.getCachedResponse k),
    Except.ok (ε := PyException) (none : Option CachedDict)⟩

/-- The call stores a response. -/
def storesResponse (e : CacheEvent) : Bool :=
  match e.op with
  | .port (.storeResponse ..) => true
  | _ => false

/-- Thread `i` is a delivery of the request with key `k`. -/
def IsDelivery (s : StoreState) (k : Str) (i : ℕ) : Prop :=
  (s.threads[i]?.map Thread.label).bind Task.deliveryKey = some k

/-- The delivery is between its cache read and its cache write. -/
def Open (s : StoreState) (k : Str) (i : ℕ) : Prop :=
  IsDelivery s k i ∧ missEvent i k ∈ s.log ∧
    ∀ e ∈ s.log, e.tid = i → storesResponse e = false

/-- Deliveries of the request with key `k` do not overlap, and its cached
response does not expire. -/
def Alone (k : Str) (s : StoreState) : Schedule → Prop
  | .spawn _ => True
  | .step i _ => s.next i = some (.port (.getCachedResponse k)) →
      ∀ i' < s.threads.length, i' ≠ i → ¬Open s k i'
  | .ambient e => e ≠ .idempotency k

instance (s : StoreState) (k : Str) (i : ℕ) : Decidable (IsDelivery s k i) :=
  inferInstanceAs (Decidable (_ = _))

instance (s : StoreState) (k : Str) (i : ℕ) : Decidable (Open s k i) :=
  inferInstanceAs (Decidable (_ ∧ _ ∧ _))

instance (k : Str) (s : StoreState) : (act : Schedule) →
    Decidable (Alone k s act)
  | .spawn _ => .isTrue trivial
  | .step i _ => inferInstanceAs
      (Decidable (s.next i = some (.port (.getCachedResponse k)) →
        ∀ i' < s.threads.length, i' ≠ i → ¬Open s k i'))
  | .ambient e => inferInstanceAs (Decidable (e ≠ .idempotency k))

/-- The effects `x` that thread `i` has had. -/
def effects (log : List CacheEvent) (i : ℕ) (x : Effect) : List CacheEvent :=
  log.filter fun e => e.tid = i ∧ Call.effect e.op = some x

/-- Thread `i` is a delivery that has returned the response. -/
def Returned (s : StoreState) (k : Str) (i : ℕ)
    (response : AliceWebhookResponse) : Prop :=
  ∃ payload : AliceWebhookRequest, payload.requestKey = k ∧
    s.threads[i]? = some ⟨.request payload, .ret (some response)⟩

/-- The deliveries of a request together act as one: those that are finished
have returned the same response, all effects are those of one delivery, and
each effect has happened at most once. -/
structure ActAsOne (s : StoreState) (k : Str) : Prop where
  returned : ∀ i, IsDelivery s k i → s.next i = none →
    ∃ response, Returned s k i response
  agree : ∀ i i' response response', Returned s k i response →
    Returned s k i' response' → response = response'
  single : ∀ e ∈ s.log, ∀ e' ∈ s.log, IsDelivery s k e.tid →
    IsDelivery s k e'.tid → Call.effect e.op ≠ none →
    Call.effect e'.op ≠ none → e.tid = e'.tid
  once : ∀ i x, IsDelivery s k i → (effects s.log i x).length ≤ 1

/-! ## The phases of all deliveries -/

/-- What the cache and the log know of the deliveries. -/
structure Cached (k : Str) (w : World) (log : List CacheEvent)
    (ph : ℕ → Delivery) : Prop where
  valid : ∀ key, w.idempotency key ≠ some .invalid
  /-- A delivery starts with reading the cache. -/
  unread : ∀ {i key}, ph i = .unread key → ∀ e ∈ log, e.tid ≠ i
  /-- At most one delivery is running, and before it nothing has happened. -/
  running : ∀ {i done}, ph i = .running k done → w.idempotency k = none ∧
    ∀ i', i' ≠ i → (ph i').key = some k → ph i' = .unread k
  missed : ∀ {i done}, ph i = .running k done → missEvent i k ∈ log ∧
    ∀ e ∈ log, e.tid = i → storesResponse e = false
  answered : ∀ {i response}, ph i = .answered k response →
    w.idempotency k = some response
  /-- Effects that are not done have not happened. -/
  undone : ∀ {i key done}, ph i = .running key done → ∀ x, x ∉ done →
    effects log i x = []
  once : ∀ {i key}, (ph i).key = some key → ∀ x,
    (effects log i x).length ≤ 1
  single : ∀ e ∈ log, ∀ e' ∈ log, (ph e.tid).key = some k →
    (ph e'.tid).key = some k → Call.effect e.op ≠ none →
    Call.effect e'.op ≠ none → e.tid = e'.tid

theorem effects_cons {log : List CacheEvent} {e : CacheEvent} {i : ℕ}
    {x : Effect} :
    effects (e :: log) i x =
      if e.tid = i ∧ Call.effect e.op = some x then e :: effects log i x
      else effects log i x := by
  simp [effects, List.filter_cons]

theorem effects_eq_nil {log : List CacheEvent} {i : ℕ} {x : Effect}
    (h : ∀ e ∈ log, e.tid ≠ i) : effects log i x = [] := by
  rw [effects, List.filter_eq_nil_iff]
  intro e he
  simp [h e he]

theorem key_next (q : Delivery) (op : Call) (x : Except PyException op.Res) :
    (onceEach.next q op x).key = q.key := by
  rcases q with key | ⟨key, done⟩ | ⟨key, response⟩ | _
  · simp only [onceEach, Delivery.next]
    split <;> rfl
  · simp only [onceEach, Delivery.next]
    split <;> rfl
  · rfl
  · rfl

/-- The read that starts a delivery. -/
theorem next_unread {w : World} {a : Answer} (hfault : a.fault = none)
    (key : Str) :
    onceEach.next (.unread key) (.port (.getCachedResponse key))
        (execCall cfg a (.port (.getCachedResponse key)) w).1 =
      match w.idempotency key with
      | none => .running key []
      | some response => .answered key response := by
  rw [execCall_port hfault]
  simp only [PortCall.exec, onceEach, Delivery.next]
  rcases w.idempotency key <;> rfl

namespace Cached

variable {w : World} {log : List CacheEvent} {ph : ℕ → Delivery}
variable {tid : ℕ} {op : Call} {a : Answer}

theorem empty : Cached k World.empty [] fun _ => .worker where
  valid := by simp [World.empty]
  unread := by simp
  running := by simp
  missed := by simp
  answered := by simp
  undone := by simp
  once := by simp [Delivery.key]
  single := by simp

/-- A task is started. -/
theorem spawn (h : Cached k w log ph) {n : ℕ} (hn : ∀ e ∈ log, e.tid ≠ n)
    (task : Task) : Cached k w log (Function.update ph n task.delivery) := by
  have hstart : ∀ {key done}, task.delivery ≠ .running key done := by
    rintro key done hq
    rcases task <;> cases hq
  refine { h with
    unread := ?_, running := ?_, missed := ?_, answered := ?_, undone := ?_
    once := ?_, single := ?_ }
  · intro i key hi
    rcases update_cases hi with ⟨rfl, -⟩ | ⟨-, hold⟩
    · exact hn
    · exact h.unread hold
  · intro i done hi
    rcases update_cases hi with ⟨-, hq⟩ | ⟨-, hold⟩
    · exact absurd hq hstart
    · obtain ⟨hnone, hothers⟩ := h.running hold
      refine ⟨hnone, fun i' hne hkey => ?_⟩
      by_cases hin : i' = n
      · rw [hin, Function.update_self] at hkey ⊢
        rcases task with payload | ⟨sid, job⟩
        · cases hkey
          rfl
        · cases hkey
      · rw [Function.update_of_ne hin] at hkey ⊢
        exact hothers i' hne hkey
  · intro i done hi
    rcases update_cases hi with ⟨-, hq⟩ | ⟨-, hold⟩
    · exact absurd hq hstart
    · exact h.missed hold
  · intro i response hi
    rcases update_cases hi with ⟨-, hq⟩ | ⟨-, hold⟩
    · rcases task <;> cases hq
    · exact h.answered hold
  · intro i key done hi
    rcases update_cases hi with ⟨-, hq⟩ | ⟨-, hold⟩
    · exact absurd hq hstart
    · exact h.undone hold
  · intro i key hi x
    by_cases hin : i = n
    · rw [hin, effects_eq_nil hn]
      exact Nat.zero_le _
    · rw [Function.update_of_ne hin] at hi
      exact h.once hi x
  · intro e he e' he' hkey hkey' heffect heffect'
    rw [Function.update_of_ne (hn e he)] at hkey
    rw [Function.update_of_ne (hn e' he')] at hkey'
    exact h.single e he e' he' hkey hkey' heffect heffect'

/-- A key expires. -/
theorem expire (h : Cached k w log ph) {e : Expiry} (he : e ≠ .idempotency k) :
    Cached k (w.expire e) log ph := by
  have hsame : (w.expire e).idempotency k = w.idempotency k := by
    rcases e with key | key | key
    · rfl
    · refine World.updateAt_ne _ _ ?_
      rintro rfl
      exact he rfl
    · rfl
  refine { h with
    valid := ?_
    running := fun hi => hsame ▸ h.running hi
    answered := fun hi => hsame ▸ h.answered hi }
  intro key
  rcases e with key' | key' | key'
  · exact h.valid key
  · by_cases hkey : key = key'
    · subst hkey
      simp [World.expire]
    · have hother : (w.expire (.idempotency key')).idempotency key =
          w.idempotency key := World.updateAt_ne _ _ hkey
      rw [hother]
      exact h.valid key
  · exact h.valid key

theorem key_update {q : Delivery} (hq : q.key = (ph tid).key) (i : ℕ) :
    (Function.update ph tid q i).key = (ph i).key := by
  by_cases hit : i = tid
  · rw [hit, Function.update_self, hq]
  · rw [Function.update_of_ne hit]

/-- While a delivery of `k` runs, the others have not started. -/
theorem running_alone (h : Cached k w log ph) {i i' : ℕ}
    {done done' : List Effect} (hi : ph i = .running k done)
    (hi' : ph i' = .running k done') : i' = i := by
  by_contra hne
  have hkey : (ph i').key = some k := by
    rw [hi']
    rfl
  have hunread := (h.running hi).2 i' hne hkey
  rw [hi'] at hunread
  cases hunread

/-- While a delivery of `k` runs, all calls for `k` have been its own. -/
theorem tid_of_running (h : Cached k w log ph) {i : ℕ} {done : List Effect}
    (hi : ph i = .running k done) {e : CacheEvent} (he : e ∈ log)
    (hk : (ph e.tid).key = some k) : e.tid = i := by
  by_contra hne
  exact h.unread ((h.running hi).2 e.tid hne hk) e he rfl

/-! What one more event leaves as it was. -/

theorem unread_cons (h : Cached k w log ph) {i : ℕ} {key : Str}
    (hi : ph i = .unread key) {e : CacheEvent} (hne : e.tid ≠ i) :
    ∀ e' ∈ e :: log, e'.tid ≠ i := by
  intro e' he'
  rcases List.mem_cons.mp he' with rfl | he'
  · exact hne
  · exact h.unread hi e' he'

theorem missed_cons (h : Cached k w log ph) {i : ℕ} {done : List Effect}
    (hi : ph i = .running k done) {e : CacheEvent}
    (hquiet : e.tid = i → storesResponse e = false) :
    missEvent i k ∈ e :: log ∧
      ∀ e' ∈ e :: log, e'.tid = i → storesResponse e' = false := by
  obtain ⟨hmiss, hold⟩ := h.missed hi
  refine ⟨List.mem_cons_of_mem _ hmiss, fun e' he' hei => ?_⟩
  rcases List.mem_cons.mp he' with rfl | he'
  · exact hquiet hei
  · exact hold e' he' hei

/-- An event without an effect, or of a delivery of another key. -/
theorem single_cons (h : Cached k w log ph) {e : CacheEvent}
    (hhead : (ph e.tid).key = some k → Call.effect e.op = none) :
    ∀ e₁ ∈ e :: log, ∀ e₂ ∈ e :: log, (ph e₁.tid).key = some k →
      (ph e₂.tid).key = some k → Call.effect e₁.op ≠ none →
      Call.effect e₂.op ≠ none → e₁.tid = e₂.tid := by
  intro e₁ he₁ e₂ he₂ hk₁ hk₂ heffect₁ heffect₂
  rcases List.mem_cons.mp he₁ with rfl | he₁
  · exact absurd (hhead hk₁) heffect₁
  rcases List.mem_cons.mp he₂ with rfl | he₂
  · exact absurd (hhead hk₂) heffect₂
  · exact h.single e₁ he₁ e₂ he₂ hk₁ hk₂ heffect₁ heffect₂

/-- The others have not started either when the caller is in its next phase. -/
theorem others_update (h : Cached k w log ph) {i : ℕ} {done : List Effect}
    (hi : ph i = .running k done) {q : Delivery}
    (hkeys : ∀ i, (Function.update ph tid q i).key = (ph i).key)
    (hcaller : tid ≠ i → (ph tid).key = some k → ph tid ≠ .unread k) :
    ∀ i', i' ≠ i → (Function.update ph tid q i').key = some k →
      Function.update ph tid q i' = .unread k := by
  intro i' hne hk
  rw [hkeys] at hk
  have hunread := (h.running hi).2 i' hne hk
  have hother : i' ≠ tid := by
    rintro rfl
    exact hcaller hne hk hunread
  rw [Function.update_of_ne hother]
  exact hunread

/-- A call without an effect leaves the effects as they are. -/
theorem effects_of_none {x : Except PyException op.Res}
    (hop : op.effect = none) (i : ℕ) (y : Effect) :
    effects (⟨tid, op, x⟩ :: log) i y = effects log i y := by
  rw [effects_cons, if_neg]
  rintro ⟨-, heffect⟩
  have heq : op.effect = some y := heffect
  rw [hop] at heq
  cases heq

/-- A call of another kind of thread. -/
theorem other (h : Cached k w log ph) (hq : ph tid = .worker) {w' : World}
    {x : Except PyException op.Res} (hw : w'.idempotency = w.idempotency) :
    Cached k w' (⟨tid, op, x⟩ :: log) (Function.update ph tid .worker) := by
  have hph : Function.update ph tid .worker = ph := by
    rw [← hq]
    exact Function.update_eq_self tid ph
  have hkey : (ph tid).key = none := by
    rw [hq]
    rfl
  have hne : ∀ {i key}, (ph i).key = some key → tid ≠ i := by
    rintro i key hi rfl
    rw [hkey] at hi
    cases hi
  have heffects : ∀ {i key}, (ph i).key = some key → ∀ y,
      effects (⟨tid, op, x⟩ :: log) i y = effects log i y := by
    intro i key hi y
    rw [effects_cons, if_neg]
    exact fun hboth => hne hi hboth.1
  rw [hph]
  refine
    { valid := ?_, unread := ?_, running := ?_, missed := ?_, answered := ?_
      undone := ?_, once := ?_, single := ?_ }
  · rw [hw]
    exact h.valid
  · intro i key hi
    exact h.unread_cons hi (hne (by rw [hi]; rfl))
  · rw [hw]
    exact h.running
  · intro i done hi
    have htid : tid ≠ i := hne (by rw [hi]; rfl)
    exact h.missed_cons hi fun hei => absurd hei htid
  · rw [hw]
    exact h.answered
  · intro i key done hi y hy
    rw [heffects (by rw [hi]; rfl)]
    exact h.undone hi y hy
  · intro i key hi y
    rw [heffects hi]
    exact h.once hi y
  · exact h.single_cons fun hk => absurd rfl (hne hk)

/-- A running delivery does something it has not done yet. -/
theorem act (h : Cached k w log ph) {key : Str} {done : List Effect}
    (hq : ph tid = .running key done) {w' : World}
    {x : Except PyException op.Res} (hw : w'.idempotency = w.idempotency)
    (hnew : ∀ y, op.effect = some y → y ∉ done) (hcache : op.caches = false) :
    Cached k w' (⟨tid, op, x⟩ :: log)
      (Function.update ph tid (.running key (Delivery.after done op))) := by
  have hkey : (ph tid).key = some key := by
    rw [hq]
    rfl
  have hkeys : ∀ i, (Function.update ph tid
      (.running key (Delivery.after done op)) i).key = (ph i).key :=
    key_update hkey.symm
  have hrunning : ∀ {i done'}, Function.update ph tid
      (.running key (Delivery.after done op)) i = .running k done' →
      ∃ done'', ph i = .running k done'' := by
    intro i done' hi
    rcases update_cases hi with ⟨rfl, hq'⟩ | ⟨-, hold⟩
    · cases hq'
      exact ⟨done, hq⟩
    · exact ⟨done', hold⟩
  have hstores : storesResponse ⟨tid, op, x⟩ = false := by
    rcases op with c | c
    · rfl
    · rcases c <;> first | rfl | cases hcache
  have hne : ∀ {i y}, tid ≠ i →
      effects (⟨tid, op, x⟩ :: log) i y = effects log i y := by
    intro i y hit
    rw [effects_cons, if_neg]
    exact fun hboth => hit hboth.1
  refine
    { valid := ?_, unread := ?_, running := ?_, missed := ?_, answered := ?_
      undone := ?_, once := ?_, single := ?_ }
  · rw [hw]
    exact h.valid
  · intro i key' hi
    obtain ⟨hit, hi⟩ := of_update hi nofun
    exact h.unread_cons hi (Ne.symm hit)
  · rw [hw]
    intro i done' hi
    obtain ⟨done'', hold⟩ := hrunning hi
    refine ⟨(h.running hold).1, h.others_update hold hkeys fun _ _ => ?_⟩
    rw [hq]
    intro hunread
    cases hunread
  · intro i done' hi
    obtain ⟨done'', hold⟩ := hrunning hi
    exact h.missed_cons hold fun _ => hstores
  · rw [hw]
    intro i response hi
    obtain ⟨-, hi⟩ := of_update hi nofun
    exact h.answered hi
  · intro i key' done' hi y hy
    rcases update_cases hi with ⟨rfl, hq'⟩ | ⟨hit, hi⟩
    · cases hq'
      have hy' : op.effect ≠ some y ∧ y ∉ done := by
        simpa [Delivery.after, not_or] using hy
      rw [effects_cons, if_neg (fun hboth => hy'.1 hboth.2)]
      exact h.undone hq y hy'.2
    · rw [hne (Ne.symm hit)]
      exact h.undone hi y hy
  · intro i key' hi y
    rw [hkeys] at hi
    by_cases hhead : tid = i ∧ op.effect = some y
    · obtain ⟨rfl, heffect⟩ := hhead
      have hnone := h.undone hq y (hnew y heffect)
      rw [effects_cons, if_pos ⟨rfl, heffect⟩, hnone]
      exact le_rfl
    · rw [effects_cons, if_neg hhead]
      exact h.once hi y
  · have hfirst : key = k → ∀ e ∈ log, (ph e.tid).key = some k →
        e.tid = tid := by
      rintro rfl e he hk
      exact h.tid_of_running hq he hk
    intro e he e' he' hk hk' heffect heffect'
    rw [hkeys] at hk hk'
    rcases List.mem_cons.mp he with rfl | he <;>
      rcases List.mem_cons.mp he' with rfl | he'
    · rfl
    · exact (hfirst (Option.some.inj (hkey.symm.trans hk)) e' he' hk').symm
    · exact hfirst (Option.some.inj (hkey.symm.trans hk')) e he hk
    · exact h.single e he e' he' hk hk' heffect heffect'

/-- A running delivery stores its response. -/
theorem store (h : Cached k w log ph) {key : Str} {done : List Effect}
    (hq : ph tid = .running key done) (response : AliceWebhookResponse)
    {w' : World} {x : Except PyException Unit}
    (hw : w'.idempotency =
      World.updateAt w.idempotency key (some response.modelDump)) :
    Cached k w'
      (⟨tid, .port (.storeResponse key response.modelDump), x⟩ :: log)
      (Function.update ph tid (.answered key response.modelDump)) := by
  have hkey : (ph tid).key = some key := by
    rw [hq]
    rfl
  have hkeys : ∀ i, (Function.update ph tid
      (.answered key response.modelDump) i).key = (ph i).key :=
    key_update hkey.symm
  have hother : key ≠ k → w'.idempotency k = w.idempotency k := by
    intro hne
    rw [hw, World.updateAt_ne _ _ (Ne.symm hne)]
  refine
    { valid := ?_, unread := ?_, running := ?_, missed := ?_, answered := ?_
      undone := ?_, once := ?_, single := ?_ }
  · intro key'
    rw [hw]
    by_cases hkey' : key' = key
    · subst hkey'
      rw [World.updateAt_same]
      rintro ⟨⟩
    · rw [World.updateAt_ne _ _ hkey']
      exact h.valid key'
  · intro i key' hi
    obtain ⟨hit, hi⟩ := of_update hi nofun
    exact h.unread_cons hi (Ne.symm hit)
  · intro i done' hi
    obtain ⟨hit, hi⟩ := of_update hi nofun
    have hne : key ≠ k := by
      rintro rfl
      exact hit (h.running_alone hq hi)
    refine ⟨(hother hne).trans (h.running hi).1,
      h.others_update hi hkeys fun _ _ => ?_⟩
    rw [hq]
    intro hunread
    cases hunread
  · intro i done' hi
    obtain ⟨hit, hi⟩ := of_update hi nofun
    exact h.missed_cons hi fun hei => absurd hei (Ne.symm hit)
  · intro i response' hi
    rcases update_cases hi with ⟨-, hq'⟩ | ⟨-, hi⟩
    · cases hq'
      rw [hw, World.updateAt_same]
    · have hsome := h.answered hi
      have hne : key ≠ k := by
        rintro rfl
        rw [(h.running hq).1] at hsome
        cases hsome
      exact (hother hne).trans hsome
  · intro i key' done' hi y hy
    obtain ⟨-, hi⟩ := of_update hi nofun
    rw [effects_of_none rfl]
    exact h.undone hi y hy
  · intro i key' hi y
    rw [hkeys] at hi
    rw [effects_of_none rfl]
    exact h.once hi y
  · simp only [hkeys]
    exact h.single_cons fun _ => rfl

/-- Without a cached response the deliveries that do not run have not started. -/
theorem unread_of_not_running (h : Cached k w log ph)
    (hnone : w.idempotency k = none) {i : ℕ} (hk : (ph i).key = some k)
    (hidle : ∀ done, ph i ≠ .running k done) : ph i = .unread k := by
  cases hi : ph i with
  | unread key =>
      rw [hi] at hk
      cases hk
      rfl
  | running key done =>
      rw [hi] at hk
      cases hk
      exact absurd hi (hidle done)
  | answered key response =>
      rw [hi] at hk
      cases hk
      rw [h.answered hi] at hnone
      cases hnone
  | worker =>
      rw [hi] at hk
      cases hk

/-- A delivery reads the cache while no other delivery is running. -/
theorem read (h : Cached k w log ph) {key : Str} (hq : ph tid = .unread key)
    (halone : key = k → ∀ i', i' ≠ tid → ∀ done, ph i' ≠ .running k done)
    {q : Delivery} (hnext : q = match w.idempotency key with
      | none => .running key []
      | some response => .answered key response) :
    Cached k w (⟨tid, .port (.getCachedResponse key),
        Except.ok (ε := PyException) (w.idempotency key)⟩ :: log)
      (Function.update ph tid q) := by
  have hkey : (ph tid).key = some key := by
    rw [hq]
    rfl
  have hqkey : q.key = some key := by
    rw [hnext]
    rcases w.idempotency key <;> rfl
  have hkeys : ∀ i, (Function.update ph tid q i).key = (ph i).key :=
    key_update (hqkey.trans hkey.symm)
  have hmissed : ∀ {done}, q = .running k done →
      key = k ∧ w.idempotency k = none := by
    intro done hrun
    rcases hcache : w.idempotency key with _ | response
    · rw [hcache, hrun] at hnext
      cases hnext
      exact ⟨rfl, hcache⟩
    · rw [hcache, hrun] at hnext
      cases hnext
  have hstarted : q ≠ .unread key := by
    rw [hnext]
    rcases w.idempotency key <;> exact nofun
  have hfound : ∀ {response}, q = .answered k response →
      w.idempotency k = some response := by
    intro response hans
    rcases hcache : w.idempotency key with _ | found
    · rw [hcache, hans] at hnext
      cases hnext
    · rw [hcache, hans] at hnext
      cases hnext
      exact hcache
  have hne : ∀ {i done}, i ≠ tid → ph i = .running k done → key ≠ k :=
    fun hit hi hk => halone hk _ hit _ hi
  refine { h with
    unread := ?_, running := ?_, missed := ?_, answered := ?_
    undone := ?_, once := ?_, single := ?_ }
  · intro i key' hi e he
    rcases update_cases hi with ⟨-, hunread⟩ | ⟨hit, hold⟩
    · rw [hunread] at hqkey hstarted
      exact absurd (congrArg Delivery.unread (Option.some.inj hqkey)) hstarted
    · exact h.unread_cons hold (Ne.symm hit) e he
  · intro i done' hi
    rcases update_cases hi with ⟨rfl, hrun⟩ | ⟨hit, hold⟩
    · obtain ⟨rfl, hnone⟩ := hmissed hrun
      refine ⟨hnone, fun i' hne' hk' => ?_⟩
      rw [hkeys] at hk'
      rw [Function.update_of_ne hne']
      exact h.unread_of_not_running hnone hk' (halone rfl i' hne')
    · refine ⟨(h.running hold).1, h.others_update hold hkeys fun _ hk => ?_⟩
      rw [hkey] at hk
      exact absurd (Option.some.inj hk) (hne hit hold)
  · intro i done' hi
    rcases update_cases hi with ⟨rfl, hrun⟩ | ⟨-, hold⟩
    · obtain ⟨rfl, hnone⟩ := hmissed hrun
      refine ⟨?_, fun e he hei => ?_⟩
      · rw [hnone]
        exact List.mem_cons_self
      · rcases List.mem_cons.mp he with rfl | he
        · rfl
        · exact absurd hei (h.unread hq e he)
    · exact h.missed_cons hold fun _ => rfl
  · intro i response' hi
    rcases update_cases hi with ⟨-, hans⟩ | ⟨-, hold⟩
    · exact hfound hans
    · exact h.answered hold
  · intro i key' done' hi y hy
    rw [effects_of_none rfl]
    rcases update_cases hi with ⟨rfl, -⟩ | ⟨-, hold⟩
    · exact effects_eq_nil (h.unread hq)
    · exact h.undone hold y hy
  · intro i key' hi y
    rw [hkeys] at hi
    rw [effects_of_none rfl]
    exact h.once hi y
  · simp only [hkeys]
    exact h.single_cons fun _ => rfl

end Cached

/-! ## Runs without overlapping deliveries -/

/-- The phases of the threads and what they are deliveries of. -/
def Labelled (s : StoreState) (ph : ℕ → Delivery) : Prop :=
  ∀ i (th : Thread CallSig PyException Task (Option AliceWebhookResponse)),
    s.threads[i]? = some th → (ph i).key = th.label.deliveryKey

theorem Labelled.delivery {ph : ℕ → Delivery} (h : Labelled s ph) {i : ℕ}
    (hi : IsDelivery s k i) : (ph i).key = some k := by
  obtain ⟨task, htask, hkey⟩ := Option.bind_eq_some_iff.mp hi
  obtain ⟨th, hth, rfl⟩ := Option.map_eq_some_iff.mp htask
  rw [h i th hth, hkey]

/-- A running delivery is open. -/
theorem open_of_running {permits : Answer → Call → Prop}
    {C : StoreState → Schedule → Prop}
    (hs : (storeMachine cfg permits).Reachable C World.empty s)
    {ph : ℕ → Delivery} (h : Cached k s.world s.log ph) (hlabels : Labelled s ph)
    {i : ℕ} {done : List Effect} (hi : ph i = .running k done) :
    i < s.threads.length ∧ Open s k i := by
  obtain ⟨hmiss, hquiet⟩ := h.missed hi
  have hlt : i < s.threads.length := hs.tid_lt _ hmiss
  refine ⟨hlt, ?_, hmiss, hquiet⟩
  have hth : s.threads[i]? = some s.threads[i] := List.getElem?_eq_getElem hlt
  rw [IsDelivery, hth]
  change s.threads[i].label.deliveryKey = some k
  rw [← hlabels i _ hth, hi]
  rfl

/-- One call of one thread. -/
theorem Cached.call {w : World} {log : List CacheEvent} {ph : ℕ → Delivery}
    {tid : ℕ} {op : Call} {a : Answer} (h : Cached k w log ph)
    (hmay : onceEach.may (ph tid) op) (ha : workingStores a op)
    (halone : op = .port (.getCachedResponse k) →
      ∀ i', i' ≠ tid → ∀ done, ph i' ≠ .running k done) :
    Cached k (execCall cfg a op w).2
      (⟨tid, op, (execCall cfg a op w).1⟩ :: log) (Function.update ph tid
        (onceEach.next (ph tid) op (execCall cfg a op w).1)) := by
  have hsame : op.caches = false →
      (execCall cfg a op w).2.idempotency = w.idempotency := by
    intro hcache
    have hcases : (execCall cfg a op w).2.idempotency = w.idempotency ∨
        a.fault = none ∧ ∃ key response,
          op = .port (.storeResponse key response) ∧
          (execCall cfg a op w).2.idempotency =
            World.updateAt w.idempotency key (some response) := cache_cases
    rcases hcases with hsame | ⟨-, key, response, rfl, -⟩
    · exact hsame
    · cases hcache
  rcases hq : ph tid with key | ⟨key, done⟩ | ⟨key, response⟩ | _
  · rw [hq] at hmay
    have hop : op = .port (.getCachedResponse key) := hmay
    subst hop
    have hfault : a.fault = none := ha.resolve_right (by simp [Call.mayRaise])
    have hnext : onceEach.next (.unread key) (.port (.getCachedResponse key))
        (execCall cfg a (.port (.getCachedResponse key)) w).1 = _ :=
      next_unread hfault key
    have hread := h.read hq (fun hk => halone (hk ▸ rfl)) hnext
    rw [execCall_port hfault] at hread ⊢
    exact hread
  · rw [hq] at hmay
    obtain ⟨hnew, hcaches⟩ := hmay
    rcases hcache : op.caches with _ | _
    · rw [next_running hcache]
      exact h.act hq (hsame hcache) hnew hcache
    · obtain ⟨response, rfl⟩ := hcaches hcache
      have hfault : a.fault = none := ha.resolve_right (by simp [Call.mayRaise])
      rw [execCall_port hfault]
      exact h.store hq response rfl
  · rw [hq] at hmay
    exact hmay.elim
  · rw [hq] at hmay
    exact h.other hq (hsame hmay)

theorem cached_of_reachable
    (hs : (storeMachine cfg workingStores).Reachable (Alone k) World.empty s) :
    ∃ ph, (Cached k s.world s.log ph ∧ Labelled s ph) ∧
      ∀ i (th : Thread CallSig PyException Task _),
        s.threads[i]? = some th →
          th.prog.Follows onceEach (ph i) th.label.Ends := by
  refine hs.phases (P := onceEach) (R := Task.Ends) (onceEach_body cfg)
    (I := fun s ph => Cached k s.world s.log ph ∧ Labelled s ph)
    (fun _ => .worker) ⟨Cached.empty, ?_⟩ ?_ ?_ ?_
  · intro i th hth
    cases hth
  · rintro s ph task hr - - - ⟨h, hlabels⟩
    refine ⟨h.spawn (fun e he => (hr.tid_lt e he).ne) task, ?_⟩
    intro i th hth
    rw [spawned_threads] at hth
    by_cases hi : i = s.threads.length
    · rw [if_pos hi] at hth
      cases hth
      rw [hi, Function.update_self]
      rcases task <;> rfl
    · rw [if_neg hi] at hth
      rw [Function.update_of_ne hi]
      exact hlabels i th hth
  · rintro s ph tid task op k' a hr hth halone ha hmay - ⟨h, hlabels⟩
    refine ⟨⟨?_, ?_⟩, fun _ => ⟨?_, ?_⟩⟩
    · intro e he
      exact mayRaise_of_error ha he
    · rintro key rfl hinvalid
      have hfault : a.fault = none := ha.resolve_right (by simp [Call.mayRaise])
      have hx : (execCall cfg a (.port (.getCachedResponse key)) s.world).1 =
          .ok (some .invalid) := eq_of_heq hinvalid
      rw [execCall_port hfault] at hx
      exact h.valid key (Except.ok.inj hx)
    · refine h.call hmay ha ?_
      rintro rfl i' hne done hi'
      obtain ⟨hlt, hopen⟩ := open_of_running hr h hlabels hi'
      exact halone (State.next_eq_some.mpr ⟨task, k', hth⟩) i' hlt hne hopen
    · intro i th hi
      rw [afterCall_threads hth] at hi
      by_cases hit : i = tid
      · rw [if_pos hit] at hi
        cases hi
        rw [hit, Function.update_self, key_next]
        have hold := hlabels tid _ hth
        exact hold
      · rw [if_neg hit] at hi
        rw [Function.update_of_ne hit]
        exact hlabels i th hi
  · rintro s ph e - he ⟨h, hlabels⟩
    exact ⟨h.expire he, hlabels⟩

/-- In a run in which deliveries of a request do not overlap, they act as
one. -/
theorem deliveries_act_as_one (cfg : Settings) (k : Str) {s : StoreState}
    (hs : (storeMachine cfg workingStores).Reachable (Alone k) World.empty s) :
    ActAsOne s k := by
  obtain ⟨ph, ⟨h, hlabels⟩, hfollows⟩ := cached_of_reachable hs
  have hcache : ∀ {i response}, Returned s k i response →
      s.world.idempotency k = some response.modelDump := by
    rintro i response ⟨payload, rfl, hth⟩
    obtain ⟨response', hr, hq⟩ := hfollows i _ hth
    cases hr
    exact h.answered hq
  refine ⟨?_, ?_, ?_, ?_⟩
  · intro i hi hnext
    obtain ⟨task, htask, hkey⟩ := Option.bind_eq_some_iff.mp hi
    obtain ⟨⟨task, prog⟩, hth, rfl⟩ := Option.map_eq_some_iff.mp htask
    rcases task with payload | ⟨sid, job⟩
    · have hends := hfollows i _ hth
      rcases prog with r | e | ⟨op, k'⟩
      · obtain ⟨response, hr, -⟩ := hends
        cases hr
        exact ⟨response, payload, Option.some.inj hkey, hth⟩
      · obtain ⟨response, hr, -⟩ := hends
        cases hr
      · rw [State.next_eq_some.mpr ⟨_, k', hth⟩] at hnext
        cases hnext
    · cases hkey
  · intro i i' response response' hr hr'
    have heq := (hcache hr).symm.trans (hcache hr')
    cases heq
    rfl
  · intro e he e' he' hd hd'
    exact h.single e he e' he' (hlabels.delivery hd) (hlabels.delivery hd')
  · intro i x hd
    exact h.once (hlabels.delivery hd) x

/-- A question that the model answers, delivered again afterwards. -/
def redeliverySchedule (payload : AliceWebhookRequest) : List Schedule :=
  [.spawn (.request payload), .step 0 .ok, .step 0 .ok, .step 0 .ok,
    .step 0 (.replies ['a']), .step 0 .ok, .step 0 .ok, .step 0 .ok,
    .step 0 .ok, .spawn (.request payload), .step 1 .ok]

theorem redelivery_acts_as_one :
    let k := (utter 1 "что такое кит").requestKey
    ∃ s : StoreState, ActAsOne s k ∧
      ∃ response, Returned s k 0 response ∧ Returned s k 1 response := by
  intro k
  have hrun : ((storeMachine .default workingStores).runFrom (Alone k)
      (initial World.empty)
      (redeliverySchedule (utter 1 "что такое кит"))).map (fun s =>
        (decide (IsDelivery s k 0), s.next 0, decide (IsDelivery s k 1),
          s.next 1)) =
      some (true, none, true, none) := by
    decide +kernel
  obtain ⟨s, hs, hobs⟩ := Option.map_eq_some_iff.mp hrun
  simp only [Prod.mk.injEq, decide_eq_true_eq] at hobs
  obtain ⟨hfirst, hfirstDone, hsecond, hsecondDone⟩ := hobs
  have hone : ActAsOne s k :=
    deliveries_act_as_one .default k (reachable_runFrom .start hs)
  obtain ⟨response, hr⟩ := hone.returned 0 hfirst hfirstDone
  obtain ⟨response', hr'⟩ := hone.returned 1 hsecond hsecondDone
  have hagree : response = response' := hone.agree 0 1 _ _ hr hr'
  subst hagree
  exact ⟨s, hone, response, hr, hr'⟩

/-- Two deliveries of a question that both find the cache empty. -/
def overlappingDeliveries (payload : AliceWebhookRequest) : List Schedule :=
  [.spawn (.request payload), .spawn (.request payload),
    .step 0 .ok, .step 1 .ok, .step 0 .ok, .step 1 .ok, .step 0 .ok,
    .step 1 .ok, .step 0 (.replies ['a']), .step 1 (.replies ['b']),
    .step 0 .ok, .step 1 .ok]

/-- Both deliveries append the question to the history. -/
theorem overlapping_deliveries_repeat :
    ∃ s, (storeMachine .default workingStores).Reachable Any World.empty s ∧
      ¬ActAsOne s (utter 1 "что такое кит").requestKey := by
  let payload := utter 1 "что такое кит"
  let turn : ConversationTurn := ⟨.user, "что такое кит".toList⟩
  let appended : ℕ → CacheEvent := fun i =>
    ⟨i, .port (.appendTurn payload.conversationKey turn),
      Except.ok (ε := PyException) ()⟩
  have hrun : ((storeMachine .default workingStores).runFrom Any
      (initial World.empty) (overlappingDeliveries payload)).map (fun s =>
        (decide (appended 0 ∈ s.log ∧ appended 1 ∈ s.log),
          decide (IsDelivery s payload.requestKey 0),
          decide (IsDelivery s payload.requestKey 1))) =
      some (true, true, true) := by
    decide +kernel
  obtain ⟨s, hs, hobs⟩ := Option.map_eq_some_iff.mp hrun
  simp only [Prod.mk.injEq, decide_eq_true_eq] at hobs
  obtain ⟨⟨hfirst, hsecond⟩, hd, hd'⟩ := hobs
  refine ⟨s, reachable_runFrom .start hs, fun hone => ?_⟩
  have htid : 0 = 1 := hone.single _ hfirst _ hsecond hd hd'
    (Option.some_ne_none _) (Option.some_ne_none _)
  cases htid

end AliceSkill
