import AliceSkill.Sequential.Worker

/-!
# Runs of whole requests and whole jobs

Requests are handled and stream entries are worked on one at a time, in any
order and any number of times.  In every world reached, each conversation has
a record of one of seven shapes; the shapes are what the promises made to the
user are read off from.
-/

namespace AliceSkill

open Text Effects Program RedisPendingReplyStore ConversationService

/-- The records a conversation can have.  Texts published by a worker satisfy
`S`; they may be empty, unlike tails and requests. -/
inductive PendingReply.Coherent (S : Str → Prop) : PendingReply → Prop where
  | processing (j : JobId) : Coherent S (processingRecord j)
  | failed (j : JobId) (m : Str) : Coherent S (failedRecord j m)
  /-- A complete answer. -/
  | plain (j : JobId) (t : Str) (ht : S t) :
      Coherent S (readyRecord j t t none .none none)
  /-- The beginning of an answer, with the rest of it. -/
  | withTail (j : JobId) (t tail : Str) (ht : t ≠ []) (htail : tail ≠ []) :
      Coherent S (readyRecord j t t (some tail) .readyTail none)
  /-- The rest of an answer whose beginning has been heard. -/
  | lastTail (j : JobId) (t : Str) (ht : t ≠ []) :
      Coherent S (readyRecord j t t none .readyTail none)
  /-- An answer that offers to go on. -/
  | offer (j : JobId) (t c : Str) (ht : S t) (hc : c ≠ []) :
      Coherent S (readyRecord j t t none .deferredOffer (some c))
  /-- The offer of an answer that has been heard. -/
  | openOffer (j : JobId) (t c : Str) (hc : c ≠ []) :
      Coherent S (deliveredRecord j
        (readyRecord j t t none .deferredOffer (some c)))

/-- Every conversation has a coherent record or none. -/
def World.Coherent (S : Str → Prop) (w : World) : Prop :=
  ∀ key r, w.pending key = some r → r.Coherent S

/-- Worlds reached by handling requests and working on entries one at a time;
the texts of the model are in `Tq` for requests and in `Tj` for jobs. -/
inductive Reachable (cfg : Settings) (Tq Tj : Str → Prop) : World → Prop where
  | empty : Reachable cfg Tq Tj World.empty
  | request (payload : AliceWebhookRequest) {w w' : World}
      {r : Except PyException AliceWebhookResponse}
      (hw : Reachable cfg Tq Tj w)
      (hr : (handle cfg payload).Outcome (execCall cfg) (permits reliable Tq)
        w r w') : Reachable cfg Tq Tj w'
  | work (i : StreamId) (entry : StreamEntry) {w w' : World}
      {r : Except PyException Unit} (hw : Reachable cfg Tq Tj w)
      (hi : w.stream[i]? = some entry)
      (hr : (workJob cfg (decodeJob i entry)).Outcome (execCall cfg)
        (permits reliable Tj) w r w') : Reachable cfg Tq Tj w'

variable {cfg : Settings} {S Tq Tj : Str → Prop} {w : World} {key : Str}
variable {payload : AliceWebhookRequest}

namespace World.Coherent

theorem setPending (h : w.Coherent S) {r : Option PendingReply}
    (hr : ∀ r', r = some r' → r'.Coherent S) :
    (w.setPending key r).Coherent S := by
  intro k r' hk
  by_cases hkey : k = key
  · subst hkey
    exact hr r' (by simpa using hk)
  · rw [setPending_pending_ne _ _ hkey] at hk
    exact h k r' hk

theorem clear (h : w.Coherent S) : (w.setPending key none).Coherent S :=
  h.setPending (by simp)

/-- Changes outside the pending store keep the records coherent. -/
theorem of_pending {w' : World} (h : w.Coherent S)
    (heq : w'.pending = w.pending) : w'.Coherent S := by
  intro k r hk
  rw [heq] at hk
  exact h k r hk

theorem accept (h : w.Coherent S) (u : Str) :
    (w.accept payload key u).Coherent S := by
  refine of_pending (w := w.setPending key (some (processingRecord w.nextId)))
    (h.setPending ?_) rfl
  rintro r ⟨⟩
  exact .processing _

theorem withFollowup (h : w.Coherent S) {reply : LLMReply}
    (hreply : reply.Coherent) : (w.withFollowup key reply).Coherent S := by
  cases hreply with
  | plain shortText rawText => exact h
  | withTail shortText rawText tail hshort htail =>
      obtain ⟨c, cs, rfl⟩ := List.exists_cons_of_ne_nil htail
      have hdrawn : w.drawId.Coherent S := h.of_pending rfl
      refine hdrawn.setPending ?_
      rintro r ⟨⟩
      exact .lastTail _ _ htail
  | offer shortText rawText request hrequest =>
      have hdrawn : w.drawId.Coherent S := h.of_pending rfl
      refine hdrawn.setPending ?_
      rintro r ⟨⟩
      exact .openOffer _ _ _ hrequest

end World.Coherent

theorem PendingReply.Coherent.afterSpeaking {r : PendingReply}
    (hr : r.Coherent S) {r' : PendingReply} (h : afterSpeaking r = some r') :
    r'.Coherent S := by
  cases hr with
  | processing j => simp [AliceSkill.afterSpeaking, processingRecord] at h
  | failed j m => simp [AliceSkill.afterSpeaking, failedRecord] at h
  | plain j t ht => simp [AliceSkill.afterSpeaking, readyRecord] at h
  | lastTail j t ht => simp [AliceSkill.afterSpeaking, readyRecord] at h
  | withTail j t tail ht htail =>
      obtain ⟨c, cs, rfl⟩ := List.exists_cons_of_ne_nil htail
      cases h
      exact .lastTail _ _ htail
  | offer j t c ht hc =>
      simp only [AliceSkill.afterSpeaking, readyRecord, truthy_some, hc, ne_eq,
        not_false_iff, and_self, if_true, Option.some.injEq] at h
      subst h
      exact .openOffer _ _ _ hc
  | openOffer j t c hc =>
      simp only [AliceSkill.afterSpeaking, readyRecord, deliveredRecord,
        truthy_some, hc, ne_eq, not_false_iff, and_self, if_true,
        Option.some.injEq] at h
      subst h
      exact .openOffer _ _ _ hc

/-- What a continue request leaves of a coherent record. -/
theorem World.Coherent.continued {r : PendingReply} (h : w.Coherent S)
    (hr : w.pending key = some r) :
    (continued payload key r w).2.Coherent S := by
  rw [ConversationService.continued]
  split_ifs
  · exact h
  · exact h.clear
  · exact h.clear.accept _
  · exact h.setPending fun r' hr' => (h key r hr).afterSpeaking hr'
  · exact h

theorem publishedRecord_coherent {reply : LLMReply} {j : JobId}
    (hreply : reply.Coherent) (hS : S reply.shortText) :
    (publishedRecord j reply).Coherent S := by
  cases hreply with
  | plain shortText rawText => exact .plain _ _ hS
  | withTail shortText rawText tail hshort htail =>
      exact .withTail _ _ _ hshort htail
  | offer shortText rawText request hrequest => exact .offer _ _ _ hS hrequest

theorem ConversationService.Handled.coherent {T : Str → Prop} (h : w.Coherent S)
    {response : AliceWebhookResponse} {w' : World}
    (hh : Handled cfg T payload w response w') : w'.Coherent S := by
  cases hh with
  | empty htext => exact h
  | nothing hpending hasks => exact h
  | continued r hpending hasks => exact h.continued hpending
  | blocked r response hpending hasks hblocked => exact h
  | deferred hfree hasks => exact h.clear.accept _
  | answered hfree hasks t ht =>
      refine World.Coherent.withFollowup ?_ (prepareLlmReply_coherent t)
      exact h.clear.of_pending (World.addTurns_pending _ _ _ _ _)

theorem ConversationService.Worked.coherent {job : DeferredJob} (h : w.Coherent S)
    (hS : ∀ t, Tj t → S (prepareLlmReply t).shortText) {w' : World}
    (hh : Worked cfg Tj job w w') : w'.Coherent S := by
  cases hh with
  | skipped hskip => exact h
  | failed hrun =>
      refine h.setPending ?_
      rintro r ⟨⟩
      exact .failed _ _
  | finished hrun t ht =>
      refine (h.of_pending (by simp)).setPending ?_
      rintro r ⟨⟩
      exact publishedRecord_coherent (prepareLlmReply_coherent t) (hS t ht)

/-- One request keeps all records coherent. -/
theorem handle_coherent {T : Str → Prop} (h : w.Coherent S)
    {r : Except PyException AliceWebhookResponse} {w' : World}
    (hr : (handle cfg payload).Outcome (execCall cfg) (permits reliable T)
      w r w') : w'.Coherent S := by
  refine hr.wp (Q := fun _ w' => w'.Coherent S) ?_
  cases hcache : w.idempotency payload.requestKey with
  | none =>
      refine wp_handle hcache fun response w' hh => ?_
      exact (hh.coherent h).of_pending rfl
  | some cached =>
      cases cached <;>
        simp [handle, hcache, AliceWebhookResponse.modelValidate,
          Call.mayRaise, h]

/-- One execution of a job keeps all records coherent. -/
theorem workJob_coherent {job : DeferredJob} (h : w.Coherent S)
    (hS : ∀ t, Tj t → S (prepareLlmReply t).shortText)
    {r : Except PyException Unit} {w' : World}
    (hr : (workJob cfg job).Outcome (execCall cfg) (permits reliable Tj)
      w r w') : w'.Coherent S := by
  refine hr.wp (Q := fun _ w' => w'.Coherent S) ?_
  refine wp_workJob fun w' hh => ?_
  exact (hh.coherent h hS).of_pending (settled_pending job w')

/-- The records are coherent in every world reached. -/
theorem Reachable.coherent (hw : Reachable cfg Tq Tj w)
    (hS : ∀ t, Tj t → S (prepareLlmReply t).shortText) : w.Coherent S := by
  induction hw with
  | empty => exact fun key r h => by simp [World.empty] at h
  | request payload hw hr ih => exact handle_coherent ih hr
  | work i entry hw hi hr ih => exact workJob_coherent ih hS hr

/-- A new request always gets a response. -/
theorem handle_returns {T : Str → Prop} (hnew : Uncached payload w)
    {r : Except PyException AliceWebhookResponse} {w' : World}
    (hr : (handle cfg payload).Outcome (execCall cfg) (permits reliable T)
      w r w') : ∃ response, r = .ok response :=
  hr.wp (Q := fun r _ => ∃ response, r = .ok response)
    (wp_handle hnew fun response _ _ => ⟨response, rfl⟩)

/-! ## One conversation -/

/-- One request to which the model says `t`. -/
def answeredWith (t : Str) (payload : AliceWebhookRequest) (w : World) :
    Except PyException AliceWebhookResponse × World :=
  (handle .default payload).run (execCall .default) (fun _ _ => .replies t) w

theorem outcome_answeredWith {T : Str → Prop} {t : Str} (ht : T t)
    (payload : AliceWebhookRequest) (w : World) :
    (handle .default payload).Outcome (execCall .default) (permits reliable T)
      w (answeredWith t payload w).1 (answeredWith t payload w).2 :=
  outcome_run fun _ _ => ⟨Or.inl rfl, fun _ _ => ht⟩

/-- One request during which the model runs out of time. -/
def deferredBy (payload : AliceWebhookRequest) (w : World) :
    Except PyException AliceWebhookResponse × World :=
  (handle .default payload).run (execCall .default)
    (fun _ c => if c.asksModel then .fails ⟨.timeoutError, none⟩ else .ok) w

theorem outcome_deferredBy {T : Str → Prop} :
    (handle .default payload).Outcome (execCall .default) (permits reliable T)
      w (deferredBy payload w).1 (deferredBy payload w).2 := by
  refine outcome_run fun _ c => ?_
  cases hc : c.asksModel with
  | false => simp [permits, Answer.ok, hc]
  | true =>
      exact ⟨Or.inr (Call.mayRaise_of_asksModel hc), by simp [Answer.fails]⟩

/-- One execution of the first stream entry, in which the model says `t`. -/
def workedWith (t : Str) (entry : StreamEntry) (w : World) :
    Except PyException Unit × World :=
  (workJob .default (decodeJob 0 entry)).run (execCall .default)
    (fun _ _ => .replies t) w

theorem outcome_workedWith {T : Str → Prop} {t : Str} (ht : T t)
    (entry : StreamEntry) :
    (workJob .default (decodeJob 0 entry)).Outcome (execCall .default)
      (permits reliable T) w (workedWith t entry w).1
      (workedWith t entry w).2 :=
  outcome_run fun _ _ => ⟨Or.inl rfl, fun _ _ => ht⟩

/-- A deferred question whose job was given the text `t`. -/
def workedWorld (t : Str) : World :=
  let w := (deferredBy (utter 1 "что такое кит") World.empty).2
  let job := deferredJob (utter 1 "что такое кит")
    (utter 1 "что такое кит").conversationKey "что такое кит".toList 0
  (workedWith t ⟨job, false⟩ w).2

theorem reachable_workedWorld {Tq Tj : Str → Prop} {t : Str} (ht : Tj t) :
    Reachable .default Tq Tj (workedWorld t) := by
  refine .work 0 _ (.request _ .empty outcome_deferredBy) ?_
    (outcome_workedWith ht _)
  decide +kernel

end AliceSkill
