import AliceSkill.Sequential.Runs

/-!
# Runs, moment by moment

A sequential run as the list of what happened in it, each moment with the world
before and after it.  Requests have distinct request keys, so that each of them
is handled and none is answered from the cache.  Job ids are drawn from a
counter: a record has an id below it, and no two conversations share one.
-/

namespace AliceSkill

open Text Effects Program RedisPendingReplyStore ConversationService

/-- A request with what came of it, or an execution of a stream entry. -/
inductive Happening where
  | served (payload : AliceWebhookRequest)
      (out : Except PyException AliceWebhookResponse)
  | worked (i : StreamId)

structure Moment where
  before : World
  happening : Happening
  after : World

/-- The stores and the queue work; the model may fail or say anything. -/
inductive Happens (cfg : Settings) : Moment → Prop where
  | served (payload : AliceWebhookRequest) {w w' : World}
      {out : Except PyException AliceWebhookResponse}
      (h : (handle cfg payload).Outcome (execCall cfg) (permits reliable anyText)
        w out w') : Happens cfg ⟨w, .served payload out, w'⟩
  | worked (i : StreamId) (entry : StreamEntry) {w w' : World}
      {r : Except PyException Unit} (hi : w.stream[i]? = some entry)
      (h : (workJob cfg (decodeJob i entry)).Outcome (execCall cfg)
        (permits reliable anyText) w r w') : Happens cfg ⟨w, .worked i, w'⟩

/-- The moments lead from one world to another. -/
inductive Run (cfg : Settings) (w₀ : World) : List Moment → World → Prop where
  | start : Run cfg w₀ [] w₀
  | next {ms : List Moment} {m : Moment} (hrun : Run cfg w₀ ms m.before)
      (hm : Happens cfg m) : Run cfg w₀ (ms ++ [m]) m.after

def Happening.requestKey : Happening → Option Str
  | served payload _ => some payload.requestKey
  | worked _ => none

def requestKeys (ms : List Moment) : List Str :=
  ms.filterMap fun m => m.happening.requestKey

/-- The request keys are distinct, and different from all earlier ones. -/
def DistinctKeys (w₀ : World) (ms : List Moment) : Prop :=
  (requestKeys ms).Nodup ∧ ∀ k ∈ requestKeys ms, w₀.idempotency k = none

/-- A request is answered from the cache if its key has been used. -/
def Happening.New (w : World) : Happening → Prop
  | served payload _ => Uncached payload w
  | worked _ => True

section Caches

variable {cfg : Settings} {T : Str → Prop} {w w' : World} {key k : Str}
variable {payload : AliceWebhookRequest} {response : AliceWebhookResponse}
variable {job : DeferredJob}

theorem withFollowup_idempotency (reply : LLMReply) :
    (w.withFollowup key reply).idempotency = w.idempotency := by
  obtain ⟨short, raw, mode, tail, request⟩ := reply
  cases mode with
  | none => rfl
  | readyTail => rcases tail with _ | _ | ⟨c, cs⟩ <;> rfl
  | deferredOffer => cases request <;> rfl

theorem continued_idempotency (r : PendingReply) :
    (continued payload key r w).2.idempotency = w.idempotency := by
  rw [continued]
  split_ifs <;> rfl

theorem ConversationService.Handled.idempotency
    (h : Handled cfg T payload w response w') :
    w'.idempotency = w.idempotency := by
  cases h with
  | empty htext => rfl
  | nothing hpending hasks => rfl
  | continued r hpending hasks => exact continued_idempotency r
  | blocked r response hpending hasks hblocked => rfl
  | deferred hfree hasks => rfl
  | answered hfree hasks t ht => exact withFollowup_idempotency _

theorem settled_idempotency :
    (settled job w).idempotency = w.idempotency := by
  rw [settled]
  cases job.streamId <;> rfl

theorem ConversationService.Worked.idempotency (h : Worked cfg T job w w') :
    w'.idempotency = w.idempotency := by
  cases h <;> rfl

end Caches

/-! ## What happens -/

section Happens

variable {cfg : Settings} {m : Moment} {ms : List Moment} {w₀ w : World}

/-- What a moment is, when its request is new. -/
inductive Course (cfg : Settings) : Moment → Prop where
  | served (payload : AliceWebhookRequest) {w w' : World}
      (response : AliceWebhookResponse) (hnew : Uncached payload w)
      (h : Handled cfg anyText payload w response w') :
      Course cfg ⟨w, .served payload (.ok response),
        w'.cache payload.requestKey response.modelDump⟩
  | worked (i : StreamId) (entry : StreamEntry) {w w' : World}
      (hi : w.stream[i]? = some entry)
      (h : Worked cfg anyText (decodeJob i entry) w w') :
      Course cfg ⟨w, .worked i, settled (decodeJob i entry) w'⟩

theorem Happens.course (hm : Happens cfg m) (hnew : m.happening.New m.before) :
    Course cfg m := by
  cases hm with
  | @served payload w w' out h =>
      refine h.wp (Q := fun out w' => Course cfg ⟨w, .served payload out, w'⟩) ?_
      exact wp_handle hnew fun response w'' hh =>
        .served payload response hnew hh
  | @worked i entry w w' r hi h =>
      refine h.wp (Q := fun _ w' => Course cfg ⟨w, .worked i, w'⟩) ?_
      exact wp_workJob fun w'' hh => .worked i entry hi hh

/-- A key that nobody has used is not in the cache. -/
theorem Course.idempotency (hm : Course cfg m) {k : Str}
    (hk : m.happening.requestKey ≠ some k) :
    m.after.idempotency k = m.before.idempotency k := by
  cases hm with
  | served payload response hnew h =>
      have hne : k ≠ payload.requestKey := by
        intro heq
        exact hk (congrArg some heq.symm)
      simp only [World.cache, World.updateAt_ne _ _ hne, h.idempotency]
  | worked i entry hi h => simp only [settled_idempotency, h.idempotency]

theorem requestKeys_append (ms : List Moment) (m : Moment) :
    requestKeys (ms ++ [m]) =
      requestKeys ms ++ m.happening.requestKey.toList := by
  have hone : requestKeys [m] = m.happening.requestKey.toList := by
    cases h : m.happening.requestKey <;> simp [requestKeys, h]
  rw [requestKeys, List.filterMap_append, ← hone]
  rfl

theorem DistinctKeys.init (h : DistinctKeys w₀ (ms ++ [m])) :
    DistinctKeys w₀ ms := by
  rw [DistinctKeys, requestKeys_append, List.nodup_append] at h
  constructor
  · exact h.1.1
  · intro k hk
    exact h.2 k (List.mem_append_left _ hk)

/-- With distinct keys the next request is new, if only requests fill the
cache. -/
theorem DistinctKeys.new (h : DistinctKeys w₀ (ms ++ [m]))
    (hcache : ∀ k, k ∉ requestKeys ms →
      m.before.idempotency k = w₀.idempotency k) :
    m.happening.New m.before := by
  rw [DistinctKeys, requestKeys_append, List.nodup_append] at h
  obtain ⟨⟨-, -, hdistinct⟩, hunused⟩ := h
  cases hhappening : m.happening with
  | worked i => trivial
  | served payload out =>
      rw [hhappening] at hdistinct hunused
      have hmem : payload.requestKey ∈
          (Happening.served payload out).requestKey.toList :=
        List.mem_singleton.mpr rfl
      have hfresh : payload.requestKey ∉ requestKeys ms :=
        fun hold => hdistinct _ hold _ hmem rfl
      exact (hcache _ hfresh).trans (hunused _ (List.mem_append_right _ hmem))

/-- Only requests fill the cache. -/
theorem Run.unused (hrun : Run cfg w₀ ms w) (hkeys : DistinctKeys w₀ ms) :
    ∀ k, k ∉ requestKeys ms → w.idempotency k = w₀.idempotency k := by
  induction hrun with
  | start => exact fun k _ => rfl
  | @next ms m hrun hm ih =>
      have hcache := ih hkeys.init
      have hcourse := hm.course (hkeys.new hcache)
      intro k hk
      rw [requestKeys_append, List.mem_append, not_or] at hk
      rw [hcourse.idempotency fun h => hk.2 (by rw [h]; simp)]
      exact hcache k hk.1

theorem Run.course (hrun : Run cfg w₀ ms m.before) (hm : Happens cfg m)
    (hkeys : DistinctKeys w₀ (ms ++ [m])) : Course cfg m :=
  hm.course (hkeys.new (hrun.unused hkeys.init))

/-- What every course of a moment keeps holds after a run. -/
theorem Run.invariant {I : List Moment → World → Prop} (hstart : I [] w₀)
    (hnext : ∀ ms m, I ms m.before → Course cfg m → I (ms ++ [m]) m.after)
    (hrun : Run cfg w₀ ms w) (hkeys : DistinctKeys w₀ ms) : I ms w := by
  induction hrun with
  | start => exact hstart
  | @next ms m hrun hm ih =>
      exact hnext ms m (ih hkeys.init) (hrun.course hm hkeys)

end Happens

/-! ## Job ids -/

/-- Ids of records have been drawn, and identify a conversation. -/
structure World.Numbered (w : World) : Prop where
  drawn : ∀ {key r}, w.pending key = some r → r.jobId < w.nextId
  unique : ∀ {key key' r r'}, w.pending key = some r →
    w.pending key' = some r' → r.jobId = r'.jobId → key = key'

/-- Only the record of one conversation changes; it keeps its id or gets the
next one. -/
structure Renews (key : Str) (w w' : World) : Prop where
  others : ∀ k, k ≠ key → w'.pending k = w.pending k
  drawn : w.nextId ≤ w'.nextId
  record : ∀ r', w'.pending key = some r' →
    (∃ r, w.pending key = some r ∧ r.jobId = r'.jobId) ∨
      r'.jobId = w.nextId ∧ w.nextId < w'.nextId

section Ids

variable {cfg : Settings} {T : Str → Prop} {w w' w'' : World} {key : Str}
variable {payload : AliceWebhookRequest} {response : AliceWebhookResponse}
variable {job : DeferredJob} {m : Moment}

theorem Renews.of_pending (hpending : w'.pending = w.pending)
    (hnext : w'.nextId = w.nextId) : Renews key w w' := by
  constructor
  · intro k _
    rw [hpending]
  · exact hnext.ge
  · intro r' hr'
    rw [hpending] at hr'
    exact Or.inl ⟨r', hr', rfl⟩

theorem Renews.of_eq (h : Renews key w' w'') (hpending : w'.pending = w.pending)
    (hnext : w'.nextId = w.nextId) : Renews key w w'' := by
  obtain ⟨hothers, hdrawn, hrecord⟩ := h
  rw [hpending] at hothers hrecord
  rw [hnext] at hdrawn hrecord
  exact ⟨hothers, hdrawn, hrecord⟩

theorem Renews.setPending {ro : Option PendingReply}
    (h : ∀ r', ro = some r' → ∃ r, w.pending key = some r ∧
      r.jobId = r'.jobId) : Renews key w (w.setPending key ro) := by
  constructor
  · intro k hk
    exact World.setPending_pending_ne _ _ hk
  · exact le_rfl
  · intro r' hr'
    rw [World.setPending_pending_same] at hr'
    exact Or.inl (h r' hr')

theorem Renews.clear : Renews key w (w.setPending key none) :=
  Renews.setPending (by simp)

/-- A record with a new id, over whatever was there. -/
theorem Renews.draw {r : PendingReply} (hr : r.jobId = w.nextId)
    (hothers : ∀ k, k ≠ key → w'.pending k = w.pending k)
    (hrecord : w'.pending key = some r) (hnext : w'.nextId = w.nextId + 1) :
    Renews key w w' := by
  constructor
  · exact hothers
  · rw [hnext]
    exact Nat.le_succ _
  · intro r' hr'
    rw [hrecord] at hr'
    cases hr'
    rw [hnext]
    exact Or.inr ⟨hr, Nat.lt_succ_self _⟩

theorem Renews.after_clear (h : Renews key (w.setPending key none) w') :
    Renews key w w' := by
  constructor
  · intro k hk
    rw [h.others k hk, World.setPending_pending_ne _ _ hk]
  · exact h.drawn
  · intro r' hr'
    rcases h.record r' hr' with ⟨r, hr, -⟩ | hnew
    · simp at hr
    · exact Or.inr hnew

theorem renews_accept (u : Str) : Renews key w (w.accept payload key u) := by
  refine Renews.draw (r := processingRecord w.nextId) rfl ?_ (by simp) rfl
  intro k hk
  simp [World.accept, World.setPending_pending_ne _ _ hk]

theorem renews_withFollowup {reply : LLMReply} (hreply : reply.Coherent) :
    Renews key w (w.withFollowup key reply) := by
  have hothers : ∀ (r : PendingReply) k, k ≠ key →
      (w.drawId.setPending key (some r)).pending k = w.pending k :=
    fun r k hk => World.setPending_pending_ne _ _ hk
  cases hreply with
  | plain shortText rawText => exact .of_pending rfl rfl
  | withTail shortText rawText tail hshort htail =>
      obtain ⟨c, cs, rfl⟩ := List.exists_cons_of_ne_nil htail
      exact .draw rfl (hothers _) (World.setPending_pending_same _ _ _) rfl
  | offer shortText rawText request hrequest =>
      exact .draw rfl (hothers _) (World.setPending_pending_same _ _ _) rfl

theorem afterSpeaking_jobId {r r' : PendingReply}
    (h : afterSpeaking r = some r') : r'.jobId = r.jobId := by
  rw [afterSpeaking] at h
  split at h
  · cases h
    rfl
  · split_ifs at h
    cases h
    rfl

theorem renews_continued {r : PendingReply} (hr : w.pending key = some r) :
    Renews key w (continued payload key r w).2 := by
  rw [continued]
  split_ifs
  · exact .of_pending rfl rfl
  · exact .clear
  · exact (renews_accept _).after_clear
  · exact .setPending fun r' hr' => ⟨r, hr, (afterSpeaking_jobId hr').symm⟩
  · exact .of_pending rfl rfl

theorem ConversationService.Handled.renews
    (h : Handled cfg T payload w response w') :
    Renews payload.conversationKey w w' := by
  cases h with
  | empty htext => exact .of_pending rfl rfl
  | nothing hpending hasks => exact .of_pending rfl rfl
  | continued r hpending hasks => exact renews_continued hpending
  | blocked r response hpending hasks hblocked => exact .of_pending rfl rfl
  | deferred hfree hasks => exact (renews_accept _).after_clear
  | answered hfree hasks t ht =>
      have hstored := @renews_withFollowup
        ((w.setPending payload.conversationKey none).addTurns cfg
          payload.conversationKey payload.text (prepareLlmReply t).rawText)
        payload.conversationKey _ (prepareLlmReply_coherent t)
      exact Renews.after_clear (hstored.of_eq (by simp) rfl)

theorem ConversationService.Worked.renews (h : Worked cfg T job w w') :
    Renews job.conversationKey w w' := by
  cases h with
  | skipped hskip => exact .of_pending rfl rfl
  | finished hrun t ht =>
      obtain ⟨r, hr, hid, -⟩ := record_of_isProcessingFor hrun
      have hadded : (w.addTurns cfg job.conversationKey job.userText
          (prepareLlmReply t).rawText).pending job.conversationKey = some r := by
        rw [World.addTurns_pending, hr]
      refine Renews.of_eq (Renews.setPending ?_)
        (World.addTurns_pending w cfg _ _ _) (World.addTurns_nextId w cfg _ _ _)
      rintro r' ⟨⟩
      exact ⟨r, hadded, hid⟩
  | failed hrun =>
      obtain ⟨r, hr, hid, -⟩ := record_of_isProcessingFor hrun
      refine .setPending ?_
      rintro r' ⟨⟩
      exact ⟨r, hr, hid⟩

theorem settled_nextId : (settled job w).nextId = w.nextId := by
  rw [settled]
  cases job.streamId <;> rfl

theorem Renews.trans_of_eq (h : Renews key w w') (hpending : w''.pending = w'.pending)
    (hnext : w''.nextId = w'.nextId) : Renews key w w'' := by
  obtain ⟨hothers, hdrawn, hrecord⟩ := h
  rw [← hpending] at hothers hrecord
  rw [← hnext] at hdrawn hrecord
  exact ⟨hothers, hdrawn, hrecord⟩

theorem Course.renews (hm : Course cfg m) :
    ∃ key, Renews key m.before m.after := by
  cases hm with
  | served payload response hnew h =>
      exact ⟨_, h.renews.trans_of_eq rfl rfl⟩
  | worked i entry hi h =>
      exact ⟨_, h.renews.trans_of_eq (settled_pending _ _) settled_nextId⟩

theorem World.Numbered.renews (h : w.Numbered) (hr : Renews key w w') :
    w'.Numbered := by
  have hdrawn : ∀ {k r}, w'.pending k = some r → r.jobId < w'.nextId := by
    intro k r hk
    by_cases hkey : k = key
    · subst hkey
      rcases hr.record r hk with ⟨r₀, hr₀, hid⟩ | ⟨hid, hlt⟩
      · rw [← hid]
        exact lt_of_lt_of_le (h.drawn hr₀) hr.drawn
      · rw [hid]
        exact hlt
    · rw [hr.others k hkey] at hk
      exact lt_of_lt_of_le (h.drawn hk) hr.drawn
  -- the record of the conversation is compared with one of another
  have hother : ∀ {k r r'}, w'.pending key = some r → w'.pending k = some r' →
      r.jobId = r'.jobId → key = k := by
    intro k r r' hkey hk hid
    by_contra hne
    rw [hr.others k (Ne.symm hne)] at hk
    rcases hr.record r hkey with ⟨r₀, hr₀, hid₀⟩ | ⟨hnew, -⟩
    · exact hne (h.unique hr₀ hk (hid₀.trans hid))
    · have hlt := h.drawn hk
      rw [← hid, hnew] at hlt
      exact lt_irrefl _ hlt
  constructor
  · exact hdrawn
  · intro k k' r r' hk hk' hid
    by_cases hkey : k = key
    · subst hkey
      exact hother hk hk' hid
    by_cases hkey' : k' = key
    · subst hkey'
      exact (hother hk' hk hid.symm).symm
    · rw [hr.others k hkey] at hk
      rw [hr.others k' hkey'] at hk'
      exact h.unique hk hk' hid

/-- One request draws at most one id. -/
theorem handle_numbered (h : w.Numbered)
    {out : Except PyException AliceWebhookResponse}
    (hr : (handle cfg payload).Outcome (execCall cfg) (permits reliable T)
      w out w') : w'.Numbered := by
  refine hr.wp (Q := fun _ w' => w'.Numbered) ?_
  cases hcache : w.idempotency payload.requestKey with
  | none =>
      refine wp_handle hcache fun response w' hh => ?_
      exact h.renews (hh.renews.trans_of_eq rfl rfl)
  | some cached =>
      cases cached <;>
        simp [handle, hcache, AliceWebhookResponse.modelValidate,
          Call.mayRaise, h]

theorem workJob_numbered (h : w.Numbered) {r : Except PyException Unit}
    (hr : (workJob cfg job).Outcome (execCall cfg) (permits reliable T)
      w r w') : w'.Numbered := by
  refine hr.wp (Q := fun _ w' => w'.Numbered) ?_
  refine wp_workJob fun w' hh => ?_
  exact h.renews (hh.renews.trans_of_eq (settled_pending _ _) settled_nextId)

theorem Reachable.numbered {Tq Tj : Str → Prop}
    (hw : Reachable cfg Tq Tj w) : w.Numbered := by
  induction hw with
  | empty =>
      constructor
      · intro key r h
        simp [World.empty] at h
      · intro key key' r r' h
        simp [World.empty] at h
  | request payload hw hr ih => exact handle_numbered ih hr
  | work i entry hw hi hr ih => exact workJob_numbered ih hr

/-- An id that has been drawn and has no record does not get one again. -/
theorem Renews.gone {j : JobId} (h : Renews key w w') (hj : j < w.nextId)
    (hgone : ∀ k r, w.pending k = some r → r.jobId ≠ j) :
    ∀ k r, w'.pending k = some r → r.jobId ≠ j := by
  intro k r hk hid
  by_cases hkey : k = key
  · subst hkey
    rcases h.record r hk with ⟨r₀, hr₀, hid₀⟩ | ⟨hnew, -⟩
    · exact hgone k r₀ hr₀ (hid₀.trans hid)
    · rw [← hid, hnew] at hj
      exact lt_irrefl _ hj
  · rw [h.others k hkey] at hk
    exact hgone k r hk hid

end Ids

end AliceSkill
