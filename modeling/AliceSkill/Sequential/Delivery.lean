import AliceSkill.Sequential.Moments
import AliceSkill.Sequential.Progress

/-!
# Delivery of an answer

An answer that waits to be heard is spoken piece by piece: its text, and then
its tail when it has one.  Each continue request on the conversation takes one
piece; nothing else that happens takes or speaks any.  When all pieces have been
taken the record is gone, or it is the offer to go on, which the next continue
request turns into a job.
-/

namespace AliceSkill

open Text Effects Program RedisPendingReplyStore ConversationService

/-! ## Pieces -/

instance (cfg : Settings) (payload : AliceWebhookRequest) (w : World) :
    Decidable (AsksToContinue cfg payload w) :=
  inferInstanceAs (Decidable (_ ∧ _))

/-- The moment is a continue request on the conversation. -/
def Moment.continues (cfg : Settings) (key : Str) (m : Moment) : Bool :=
  match m.happening with
  | .served payload _ =>
      payload.conversationKey = key ∧ AsksToContinue cfg payload m.before
  | .worked _ => false

/-- The number of continue requests on the conversation. -/
def heard (cfg : Settings) (key : Str) (ms : List Moment) : ℕ :=
  ms.countP (Moment.continues cfg key)

/-- The records that speak an answer, in their order. -/
def PendingReply.parts (r : PendingReply) : List PendingReply :=
  r :: r.tailText.toList.map fun t =>
    readyRecord r.jobId t t none .readyTail none

/-- Nothing is left of an answer, or its offer to go on. -/
def Spent (key : Str) (r : PendingReply) (w : World) : Prop :=
  ∀ k r', w.pending k = some r' → r'.jobId = r.jobId →
    k = key ∧ r' = deliveredRecord r.jobId r ∧ isOpenOffer r' = true

/-- What is left of an answer after `n` continue requests. -/
def Stands (key : Str) (r : PendingReply) (n : ℕ) (w : World) : Prop :=
  match r.parts[n]? with
  | some r' => w.pending key = some r'
  | none => Spent key r w

/-- What is said while an answer waits, to silence and to a new question. -/
def waitingTexts : List Str :=
  ["Скажи вопрос еще раз, коротко и без паузы.".toList,
    "У меня готов предыдущий ответ. Скажи: продолжай.".toList]

/-- What a request says apart from the answer in `r`: a phrase of the service, an
answer of its own, made of a text in `T` that the model has just given, or the
text of another record. -/
inductive Elsewhere (T : Str → Prop) (r : PendingReply)
    (payload : AliceWebhookRequest) (w : World) : AliceWebhookResponse → Prop where
  | phrase {text : Str} {buttons : List AliceButtonsItem}
      (htext : text ∈ ownPhrases) :
      Elsewhere T r payload w (respond payload text buttons)
  | model {t : Str} (ht : T t) :
      Elsewhere T r payload w (freshResponse payload (prepareLlmReply t))
  | record {r₀ : PendingReply} (hr₀ : w.pending payload.conversationKey = some r₀)
      (hid : r₀.jobId ≠ r.jobId) :
      Elsewhere T r payload w (spokenResponse payload r₀)

/-- A moment after `n` continue requests. -/
structure Told (cfg : Settings) (key : Str) (r : PendingReply) (n : ℕ)
    (m : Moment) : Prop where
  before : Stands key r n m.before
  /-- A continue request speaks the next piece. -/
  speaks : ∀ r' payload out, r.parts[n]? = some r' →
    m.happening = .served payload out → m.continues cfg key = true →
      ∃ response, out = .ok response ∧ response.Speaks payload r'
  /-- Nothing else speaks it or takes it. -/
  waits : ∀ r', r.parts[n]? = some r' → m.continues cfg key = false →
    m.after.pending key = some r' ∧ ∀ payload out,
      m.happening = .served payload out → payload.conversationKey = key →
        ∃ t ∈ waitingTexts, out = .ok (respond payload t [])
  /-- When all pieces have been spoken, a continue request that finds the record
  makes one job of the offer, and the record is gone. -/
  offers : r.parts[n]? = none → ∀ r' payload out,
    m.happening = .served payload out → m.continues cfg key = true →
    m.before.pending key = some r' → r'.jobId = r.jobId →
      ∃ c job, r.continuationRequest = some c ∧ job.userText = c ∧
        job.conversationKey = key ∧ out = .ok (deferredResponse payload) ∧
        m.after.stream = m.before.stream ++ [⟨job, false⟩] ∧
        ∀ k r'', m.after.pending k = some r'' → r''.jobId ≠ r.jobId
  /-- No request but the next continue request on a waiting answer speaks from its
  record; when all pieces have been spoken, none does any more. -/
  elsewhere : ∀ T payload out, m.happening = .served payload out →
    (handle cfg payload).Outcome (execCall cfg) (permits reliable T) m.before out
      m.after →
    (r.parts[n]? = none ∨ m.continues cfg key = false) →
      ∃ response, out = .ok response ∧ Elsewhere T r payload m.before response
  after : Stands key r (n + if m.continues cfg key then 1 else 0) m.after

section Parts

variable {r r' : PendingReply} {n : ℕ} {t : Str}

/-- Every piece waits to be heard. -/
theorem ready_of_parts (hr : r.Coherent anyText) (hready : r.status = .ready)
    (ht : r.replyText = some t) (hne : t ≠ []) (h : r.parts[n]? = some r') :
    r'.status = .ready ∧ r'.jobId = r.jobId ∧
      ∃ t', t' ≠ [] ∧ r'.replyText = some t' := by
  rcases List.mem_cons.mp (List.mem_of_getElem? h) with rfl | hmem
  · exact ⟨hready, rfl, t, hne, ht⟩
  · obtain ⟨tail, htail, rfl⟩ := List.mem_map.mp hmem
    refine ⟨rfl, rfl, tail, ?_, rfl⟩
    rw [Option.mem_toList] at htail
    cases hr with
    | processing j => cases htail
    | failed j m => cases htail
    | plain j t ht => cases htail
    | lastTail j t ht => cases htail
    | offer j t c ht hc => cases htail
    | openOffer j t c hc => cases htail
    | withTail j t tail' ht htail' =>
        cases htail
        exact htail'

theorem parts_of_no_tail (h : r.tailText = none) : r.parts = [r] := by
  rw [PendingReply.parts, h]
  rfl

/-- After a piece has been spoken the record is the next one, and after the last
it is none or the open offer. -/
theorem afterSpeaking_parts (hr : r.Coherent anyText)
    (hready : r.status = .ready) (h : r.parts[n]? = some r') :
    match r.parts[n + 1]? with
    | some r'' => afterSpeaking r' = some r''
    | none => ∀ r'', afterSpeaking r' = some r'' →
        r'' = deliveredRecord r.jobId r ∧ isOpenOffer r'' = true := by
  have hsingle : r.tailText = none → n = 0 ∧ r' = r := by
    intro htail
    rw [parts_of_no_tail htail] at h
    cases n with
    | zero => exact ⟨rfl, (Option.some.inj h).symm⟩
    | succ n => cases h
  cases hr with
  | processing j => cases hready
  | failed j m => cases hready
  | openOffer j t c hc => cases hready
  | plain j t ht =>
      obtain ⟨rfl, rfl⟩ := hsingle rfl
      intro r'' h''
      cases h''
  | lastTail j t ht =>
      obtain ⟨rfl, rfl⟩ := hsingle rfl
      intro r'' h''
      cases h''
  | offer j t c ht hc =>
      obtain ⟨rfl, rfl⟩ := hsingle rfl
      obtain ⟨d, ds, rfl⟩ := List.exists_cons_of_ne_nil hc
      intro r'' h''
      cases h''
      exact ⟨rfl, rfl⟩
  | withTail j t tail ht htail =>
      obtain ⟨d, ds, rfl⟩ := List.exists_cons_of_ne_nil htail
      rcases n with _ | _ | n
      · cases h
        rfl
      · cases h
        intro r'' h''
        cases h''
      · cases h

end Parts

/-! ## One moment -/

section Step

variable {cfg : Settings} {key k₀ : Str} {r r' : PendingReply} {n : ℕ}
variable {w w' : World} {m : Moment} {payload : AliceWebhookRequest}
variable {response : AliceWebhookResponse}

/-- No record has the id of the answer. -/
def Gone (r : PendingReply) (w : World) : Prop :=
  ∀ k r', w.pending k = some r' → r'.jobId ≠ r.jobId

theorem Gone.spent (h : Gone r w) : Spent key r w :=
  fun k r' hr' hid => absurd hid (h k r' hr')

/-- A change that leaves the offer alone leaves the answer spent. -/
theorem Spent.renews (h : Spent key r w) (hdrawn : r.jobId < w.nextId)
    (hr : Renews k₀ w w')
    (hsame : ∀ r₀, w.pending k₀ = some r₀ → r₀.jobId = r.jobId →
      w'.pending k₀ = w.pending k₀) : Spent key r w' := by
  intro k r' hk hid
  by_cases hkey : k = k₀
  · subst hkey
    rcases hr.record r' hk with ⟨r₀, hr₀, hid₀⟩ | ⟨hnew, -⟩
    · rw [hsame r₀ hr₀ (hid₀.trans hid)] at hk
      exact h k r' hk hid
    · rw [← hid, hnew] at hdrawn
      exact absurd hdrawn (lt_irrefl _)
  · rw [hr.others k hkey] at hk
    exact h k r' hk hid

/-- The record of the answer is elsewhere than in this world. -/
theorem Spent.gone_of_clear (h : Spent key r w) :
    Gone r (w.setPending key none) := by
  intro k r' hk hid
  by_cases hkey : k = key
  · subst hkey
    simp at hk
  · rw [World.setPending_pending_ne _ _ hkey] at hk
    exact hkey (h k r' hk hid).1

/-- What is left in the conversation of an answer, spoken up to its last piece. -/
theorem spent_of_last (hw : w.Numbered) (hr' : w.pending key = some r')
    (hid : r'.jobId = r.jobId) {next : Option PendingReply}
    (hnext : ∀ r'', next = some r'' →
      r'' = deliveredRecord r.jobId r ∧ isOpenOffer r'' = true) :
    Spent key r (w.setPending key next) := by
  intro k r'' hk hid'
  by_cases hkey : k = key
  · subst hkey
    rw [World.setPending_pending_same] at hk
    exact ⟨rfl, hnext r'' hk⟩
  · rw [World.setPending_pending_ne _ _ hkey] at hk
    exact absurd (hw.unique hk hr' (hid'.trans hid.symm)) hkey

theorem continued_of_ready (hready : r'.status = .ready) {t : Str} (hne : t ≠ [])
    (ht : r'.replyText = some t) :
    continued payload key r' w =
      (spokenResponse payload r', w.setPending key (afterSpeaking r')) := by
  have hclosed : isOpenOffer r' = false := by simp [isOpenOffer, hready]
  simp [continued, hready, hclosed, ht, hne]

/-- A request on the conversation of a waiting answer. -/
theorem handled_waiting (hr' : w.pending payload.conversationKey = some r')
    (hready : r'.status = .ready) {t : Str} (hne : t ≠ [])
    (ht : r'.replyText = some t)
    (h : Handled cfg anyText payload w response w') :
    (AsksToContinue cfg payload w ∧ response = spokenResponse payload r' ∧
      w' = w.setPending payload.conversationKey (afterSpeaking r')) ∨
    (¬AsksToContinue cfg payload w ∧ w' = w ∧
      ∃ t ∈ waitingTexts, response = respond payload t []) := by
  cases h with
  | empty htext =>
      refine Or.inr ⟨fun hasks => hasks.1 htext, rfl, _, ?_, rfl⟩
      exact List.mem_cons_self
  | nothing hpending hasks =>
      rw [hr'] at hpending
      cases hpending
  | continued r₀ hpending hasks =>
      obtain rfl : r' = r₀ := Option.some.inj (hr'.symm.trans hpending)
      rw [continued_of_ready hready hne ht]
      exact Or.inl ⟨hasks, rfl, rfl⟩
  | blocked r₀ response hpending hasks hblocked =>
      obtain rfl : r' = r₀ := Option.some.inj (hr'.symm.trans hpending)
      refine Or.inr ⟨hasks, rfl, _, List.mem_cons_of_mem _ List.mem_cons_self, ?_⟩
      simp only [blocked, hready, Prod.mk.injEq, Option.some.injEq] at hblocked
      exact hblocked.1.symm
  | deferred hfree hasks => exact absurd hready (hfree r' hr').2
  | answered hfree hasks t ht => exact absurd hready (hfree r' hr').2

/-- A continue request does what its record says. -/
theorem handled_continue (hr' : w.pending payload.conversationKey = some r')
    (hasks : AsksToContinue cfg payload w)
    (h : Handled cfg anyText payload w response w') :
    (response, w') = continued payload payload.conversationKey r' w := by
  cases h with
  | empty htext => exact absurd htext hasks.1
  | nothing hpending _ =>
      rw [hr'] at hpending
      cases hpending
  | continued r₀ hpending _ =>
      obtain rfl : r' = r₀ := Option.some.inj (hr'.symm.trans hpending)
      rfl
  | blocked r₀ response hpending hnot hblocked => exact absurd hasks hnot
  | deferred hfree hnot => exact absurd hasks hnot
  | answered hfree hnot t ht => exact absurd hasks hnot

/-- An execution of a job leaves alone what is not in progress. -/
theorem worked_pending {job : DeferredJob}
    (hr' : w.pending key = some r') (hstatus : r'.status ≠ .processing)
    (h : Worked cfg anyText job w w') : w'.pending key = some r' := by
  have hother : isProcessingFor (w.pending job.conversationKey) job.jobId =
      true → key ≠ job.conversationKey := by
    rintro hrun rfl
    obtain ⟨r₀, hr₀, -, hprocessing⟩ := record_of_isProcessingFor hrun
    rw [hr'] at hr₀
    cases hr₀
    exact hstatus hprocessing
  cases h with
  | skipped hskip => exact hr'
  | finished hrun t ht =>
      rw [answered, World.setPending_pending_ne _ _ (hother hrun),
        World.addTurns_pending]
      exact hr'
  | failed hrun =>
      rw [World.setPending_pending_ne _ _ (hother hrun)]
      exact hr'

/-- An open offer is turned into a job. -/
theorem continued_offer (hopen : isOpenOffer r' = true) :
    ∃ c, r'.continuationRequest = some c ∧ continued payload key r' w =
      (deferredResponse payload,
        (w.setPending key none).accept payload key c) := by
  have hdelivered : r'.status = .delivered ∧ r'.followupMode = .deferredOffer ∧
      truthy r'.continuationRequest = true := by
    simpa [isOpenOffer] using hopen
  obtain ⟨hstatus, -, hrequest⟩ := hdelivered
  cases hc : r'.continuationRequest with
  | none => simp [hc] at hrequest
  | some c =>
      have hne : c ≠ [] := by simpa [hc] using hrequest
      obtain ⟨d, ds, rfl⟩ := List.exists_cons_of_ne_nil hne
      refine ⟨_, rfl, ?_⟩
      rw [continued, hc]
      simp [hstatus, hopen, orText, orElse]

/-- A continue request speaks the text of its record or a phrase. -/
theorem elsewhere_continued {T : Str → Prop} {r₀ : PendingReply}
    (hr₀ : w.pending payload.conversationKey = some r₀)
    (hown : r₀.jobId = r.jobId → isOpenOffer r₀ = true) :
    Elsewhere T r payload w
      (continued payload payload.conversationKey r₀ w).1 := by
  rw [continued]
  split_ifs with hprocessing hfailed hopen htext
  · exact .phrase (List.mem_of_getElem? (i := 2) rfl)
  · exact .phrase (List.mem_of_getElem? (i := 7) rfl)
  · exact .phrase (List.mem_of_getElem? (i := 1) rfl)
  · exact .record hr₀ fun hid => hopen (hown hid)
  · exact .phrase (List.mem_of_getElem? (i := 6) rfl)

/-- A request speaks from the record of the answer only when it continues. -/
theorem elsewhere_of_handled {T : Str → Prop}
    (hown : ∀ r₀, w.pending payload.conversationKey = some r₀ →
      r₀.jobId = r.jobId → AsksToContinue cfg payload w → isOpenOffer r₀ = true)
    (h : Handled cfg T payload w response w') :
    Elsewhere T r payload w response := by
  cases h with
  | empty htext => exact .phrase (List.mem_of_getElem? (i := 0) rfl)
  | nothing hpending hasks => exact .phrase (List.mem_of_getElem? (i := 5) rfl)
  | continued r₀ hpending hasks =>
      exact elsewhere_continued hpending fun hid => hown r₀ hpending hid hasks
  | blocked r₀ response hpending hasks hblocked =>
      rw [blocked] at hblocked
      split at hblocked <;> cases hblocked
      · exact .phrase (List.mem_of_getElem? (i := 3) rfl)
      · exact .phrase (List.mem_of_getElem? (i := 4) rfl)
  | deferred hfree hasks => exact .phrase (List.mem_of_getElem? (i := 1) rfl)
  | answered hfree hasks t ht => exact .model ht

/-- The same for whatever the model may say. -/
theorem elsewhere_of_outcome {T : Str → Prop} {w'' : World}
    {out : Except PyException AliceWebhookResponse} (hnew : Uncached payload w)
    (hown : ∀ r₀, w.pending payload.conversationKey = some r₀ →
      r₀.jobId = r.jobId → AsksToContinue cfg payload w → isOpenOffer r₀ = true)
    (h : (handle cfg payload).Outcome (execCall cfg) (permits reliable T) w out
      w'') : ∃ response, out = .ok response ∧ Elsewhere T r payload w response := by
  refine h.wp (Q := fun out _ => ∃ response, out = .ok response ∧
    Elsewhere T r payload w response) ?_
  exact wp_handle hnew fun response w' hh =>
    ⟨response, rfl, elsewhere_of_handled hown hh⟩

theorem gone_accept (h : Spent key r w) (hdrawn : r.jobId < w.nextId)
    (u : Str) : Gone r ((w.setPending key none).accept payload key u) :=
  (renews_accept u).gone hdrawn h.gone_of_clear

/-- A request on the conversation, when the answer is spent. -/
theorem handled_spent (h : Spent payload.conversationKey r w)
    (hdrawn : r.jobId < w.nextId)
    (hh : Handled cfg anyText payload w response w') :
    Spent payload.conversationKey r w' := by
  cases hh with
  | empty htext => exact h
  | nothing hpending hasks => exact h
  | blocked r₀ response hpending hasks hblocked => exact h
  | continued r₀ hpending hasks =>
      by_cases hid : r₀.jobId = r.jobId
      · obtain ⟨-, -, hopen⟩ := h _ r₀ hpending hid
        obtain ⟨c, -, hout⟩ := @continued_offer payload.conversationKey r₀ w
          payload hopen
        rw [hout]
        exact (gone_accept h hdrawn c).spent
      · refine h.renews hdrawn (renews_continued hpending) ?_
        intro r₁ hr₁ hid₁
        rw [hpending] at hr₁
        cases hr₁
        exact absurd hid₁ hid
  | deferred hfree hasks => exact (gone_accept h hdrawn payload.text).spent
  | answered hfree hasks t ht =>
      have hstored := @renews_withFollowup
        ((w.setPending payload.conversationKey none).addTurns cfg
          payload.conversationKey payload.text (prepareLlmReply t).rawText)
        payload.conversationKey _ (prepareLlmReply_coherent t)
      exact Gone.spent (hstored.gone hdrawn h.gone_of_clear)

theorem stands_of_some (h : r.parts[n]? = some r') :
    Stands key r n w ↔ w.pending key = some r' := by
  rw [Stands, h]

theorem stands_of_none (h : r.parts[n]? = none) :
    Stands key r n w ↔ Spent key r w := by
  rw [Stands, h]

/-- The next piece, once the one before has been spoken. -/
theorem stands_next (hr : r.Coherent anyText) (hready : r.status = .ready)
    (hpart : r.parts[n]? = some r') (hid : r'.jobId = r.jobId)
    (hw : w.Numbered) (hr' : w.pending key = some r') :
    Stands key r (n + 1) (w.setPending key (afterSpeaking r')) := by
  have hnext := afterSpeaking_parts hr hready hpart
  cases hlast : r.parts[n + 1]? with
  | some r'' =>
      rw [hlast] at hnext
      rw [stands_of_some hlast, World.setPending_pending_same]
      exact hnext
  | none =>
      rw [hlast] at hnext
      rw [stands_of_none hlast]
      exact spent_of_last hw hr' hid hnext

theorem stands_of_pending (hpending : w'.pending = w.pending)
    (h : Stands key r n w) : Stands key r n w' := by
  have hsame : Stands key r n w' ↔ Stands key r n w := by
    simp only [Stands, Spent, hpending]
  exact hsame.mpr h

/-- Nobody else speaks from the record of a waiting answer. -/
theorem elsewhere_waiting (hw : m.before.Numbered)
    (h : m.before.pending key = some r') (hid : r'.jobId = r.jobId)
    (hcontinues : m.continues cfg key = false) (hm : Course cfg m)
    {T : Str → Prop} {out : Except PyException AliceWebhookResponse}
    (hserved : m.happening = .served payload out)
    (hout : (handle cfg payload).Outcome (execCall cfg) (permits reliable T)
      m.before out m.after) :
    ∃ response, out = .ok response ∧ Elsewhere T r payload m.before response := by
  cases hm with
  | worked i entry hi hh => cases hserved
  | served payload response hnew hh =>
      cases hserved
      refine elsewhere_of_outcome hnew (fun r₀ hr₀ hid₀ hasks => ?_) hout
      have hkey := hw.unique hr₀ h (hid₀.trans hid.symm)
      exact absurd ⟨hkey, hasks⟩ (of_decide_eq_false hcontinues)

/-- A moment that passes a waiting answer by. -/
theorem told_of_kept (hw : m.before.Numbered) (hpart : r.parts[n]? = some r')
    (hid : r'.jobId = r.jobId) (hm : Course cfg m)
    (h : m.before.pending key = some r') (hafter : m.after.pending key = some r')
    (hcontinues : m.continues cfg key = false)
    (hsaid : ∀ payload out, m.happening = .served payload out →
      payload.conversationKey = key →
        ∃ t ∈ waitingTexts, out = .ok (respond payload t [])) :
    Told cfg key r n m := by
  constructor
  · exact (stands_of_some hpart).mpr h
  · intro _ _ _ _ _ htrue
    rw [hcontinues] at htrue
    cases htrue
  · intro r'' hr'' _
    obtain rfl : r' = r'' := Option.some.inj (hpart.symm.trans hr'')
    exact ⟨hafter, hsaid⟩
  · intro hnone
    rw [hpart] at hnone
    cases hnone
  · intro T payload out hserved hout _
    exact elsewhere_waiting hw h hid hcontinues hm hserved hout
  · rw [hcontinues]
    exact (stands_of_some hpart).mpr hafter

/-- A moment while the answer waits. -/
theorem told_waiting (hr : r.Coherent anyText) (hready : r.status = .ready)
    {t : Str} (ht : r.replyText = some t) (hne : t ≠ [])
    (hw : m.before.Numbered) (hpart : r.parts[n]? = some r')
    (h : m.before.pending key = some r') (hm : Course cfg m) :
    Told cfg key r n m := by
  obtain ⟨hready', hid, t', hne', ht'⟩ := ready_of_parts hr hready ht hne hpart
  have hcourse := hm
  cases hm with
  | worked i entry hi hh =>
      have hkept := worked_pending h (by rw [hready']; decide) hh
      refine told_of_kept hw hpart hid hcourse h ?_ rfl ?_
      · rw [settled_pending]
        exact hkept
      · intro payload out hserved
        cases hserved
  | @served payload w w' response hnew hh =>
      replace hw : w.Numbered := hw
      replace h : w.pending key = some r' := h
      by_cases hkey : payload.conversationKey = key
      · subst hkey
        rcases handled_waiting h hready' hne' ht' hh with
          ⟨hasks, rfl, rfl⟩ | ⟨hasks, rfl, hsaid⟩
        · have hcontinues : Moment.continues cfg payload.conversationKey
              ⟨w, .served payload (.ok (spokenResponse payload r')),
                (w.setPending payload.conversationKey (afterSpeaking r')).cache
                  payload.requestKey (spokenResponse payload r').modelDump⟩ =
                true := decide_eq_true ⟨rfl, hasks⟩
          constructor
          · exact (stands_of_some hpart).mpr h
          · intro r'' payload' out hr'' hserved _
            obtain rfl : r' = r'' := Option.some.inj (hpart.symm.trans hr'')
            cases hserved
            exact ⟨_, rfl, speaks_spokenResponse payload hne' ht'⟩
          · intro _ _ hfalse
            rw [hcontinues] at hfalse
            cases hfalse
          · intro hnone
            rw [hpart] at hnone
            cases hnone
          · rintro T _ _ _ _ (hnone | hfalse)
            · rw [hpart] at hnone
              cases hnone
            · rw [hcontinues] at hfalse
              cases hfalse
          · rw [hcontinues]
            exact stands_of_pending rfl (stands_next hr hready hpart hid hw h)
        · refine told_of_kept hw hpart hid hcourse h h
            (decide_eq_false fun h => hasks h.2) ?_
          rintro payload' out ⟨⟩ -
          obtain ⟨text, hmem, rfl⟩ := hsaid
          exact ⟨text, hmem, rfl⟩
      · refine told_of_kept hw hpart hid hcourse h ?_
          (decide_eq_false fun h => hkey h.1) ?_
        · rw [World.cache_pending, hh.renews.others key (Ne.symm hkey)]
          exact h
        · rintro payload' out ⟨⟩ heq
          exact absurd heq hkey

theorem parts_none_succ (h : r.parts[n]? = none) (k : ℕ) :
    r.parts[n + k]? = none := by
  rw [List.getElem?_eq_none_iff] at h ⊢
  omega

theorem Spent.of_pending (h : Spent key r w) (hpending : w'.pending = w.pending) :
    Spent key r w' := by
  intro k r' hk
  rw [hpending] at hk
  exact h k r' hk

/-- An answer that has been spoken stays so. -/
theorem Spent.course (h : Spent key r m.before)
    (hdrawn : r.jobId < m.before.nextId) (hm : Course cfg m) :
    Spent key r m.after := by
  cases hm with
  | @worked i entry w w' hi hh =>
      refine Spent.of_pending ?_ (settled_pending _ _)
      refine h.renews hdrawn hh.renews fun r₀ hr₀ hid => ?_
      obtain ⟨-, -, hopen⟩ := h _ r₀ hr₀ hid
      have hstatus : r₀.status ≠ .processing := by
        intro hprocessing
        simp [isOpenOffer, hprocessing] at hopen
      rw [worked_pending hr₀ hstatus hh]
      exact hr₀.symm
  | @served payload w w' response hnew hh =>
      replace h : Spent key r w := h
      apply Spent.of_pending (w := w') _ rfl
      by_cases hkey : payload.conversationKey = key
      · subst hkey
        exact handled_spent h hdrawn hh
      · refine h.renews hdrawn hh.renews fun r₀ hr₀ hid => ?_
        exact absurd (h _ r₀ hr₀ hid).1 hkey

/-- A moment after the answer has been spoken. -/
theorem told_spent (hdrawn : r.jobId < m.before.nextId)
    (hpart : r.parts[n]? = none) (h : Spent key r m.before)
    (hm : Course cfg m) : Told cfg key r n m := by
  constructor
  · exact (stands_of_none hpart).mpr h
  · intro r' _ _ hsome
    rw [hpart] at hsome
    cases hsome
  · intro r' hsome
    rw [hpart] at hsome
    cases hsome
  · intro _ r' payload out hserved hcontinues hr' hid
    cases hm with
    | worked i entry hi hh => cases hserved
    | @served payload w w' response hnew hh =>
        cases hserved
        replace h : Spent key r w := h
        obtain ⟨rfl, hasks⟩ := of_decide_eq_true hcontinues
        obtain ⟨-, hoffer, hopen⟩ := h _ r' hr' hid
        obtain ⟨c, hc, hout⟩ := @continued_offer payload.conversationKey r' w
          payload hopen
        obtain ⟨rfl, rfl⟩ := Prod.mk.inj
          ((handled_continue hr' hasks hh).trans hout)
        refine ⟨c, _, ?_, rfl, rfl, rfl, rfl, ?_⟩
        · rw [hoffer] at hc
          exact hc
        · exact @gone_accept _ r w payload h hdrawn c
  · intro T payload out hserved hout _
    cases hm with
    | worked i entry hi hh => cases hserved
    | served payload response hnew hh =>
        cases hserved
        exact elsewhere_of_outcome hnew
          (fun r₀ hr₀ hid _ => (h _ r₀ hr₀ hid).2.2) hout
  · exact (stands_of_none (parts_none_succ hpart _)).mpr (h.course hdrawn hm)

theorem told_of_course (hr : r.Coherent anyText) (hready : r.status = .ready)
    {t : Str} (ht : r.replyText = some t) (hne : t ≠ [])
    (hw : m.before.Numbered) (hdrawn : r.jobId < m.before.nextId)
    (h : Stands key r n m.before) (hm : Course cfg m) : Told cfg key r n m := by
  cases hpart : r.parts[n]? with
  | none => exact told_spent hdrawn hpart ((stands_of_none hpart).mp h) hm
  | some r' =>
      exact told_waiting hr hready ht hne hw hpart ((stands_of_some hpart).mp h)
        hm

end Step

/-! ## Runs -/

section Runs

variable {cfg : Settings} {key : Str} {r : PendingReply} {w₀ w : World}
variable {ms : List Moment} {m : Moment}

theorem heard_append : heard cfg key (ms ++ [m]) =
    heard cfg key ms + if m.continues cfg key then 1 else 0 := by
  rw [heard, heard, List.countP_append, List.countP_singleton]

/-- What is left of an answer after a run. -/
theorem stands_of_run (hw : Reachable cfg anyText anyText w₀)
    (hr : w₀.pending key = some r) (hready : r.status = .ready) {t : Str}
    (ht : r.replyText = some t) (hne : t ≠ []) (hrun : Run cfg w₀ ms w)
    (hkeys : DistinctKeys w₀ ms) :
    w.Numbered ∧ r.jobId < w.nextId ∧ Stands key r (heard cfg key ms) w := by
  have hcoherent : r.Coherent anyText :=
    hw.coherent (fun _ _ => trivial) key r hr
  refine hrun.invariant (I := fun ms w => w.Numbered ∧ r.jobId < w.nextId ∧
    Stands key r (heard cfg key ms) w) ?_ ?_ hkeys
  · exact ⟨hw.numbered, hw.numbered.drawn hr, hr⟩
  · rintro ms m ⟨hnumbered, hdrawn, hstands⟩ hm
    obtain ⟨k, hrenews⟩ := hm.renews
    have htold := told_of_course hcoherent hready ht hne hnumbered hdrawn hstands
      hm
    rw [heard_append]
    exact ⟨hnumbered.renews hrenews, lt_of_lt_of_le hdrawn hrenews.drawn,
      htold.after⟩

/-- An answer is delivered in order, each piece once. -/
theorem delivered_in_order (hw : Reachable cfg anyText anyText w₀)
    (hr : w₀.pending key = some r) (hready : r.status = .ready) {t : Str}
    (ht : r.replyText = some t) (hne : t ≠ []) (hrun : Run cfg w₀ ms m.before)
    (hm : Happens cfg m) (hkeys : DistinctKeys w₀ (ms ++ [m])) :
    Told cfg key r (heard cfg key ms) m := by
  have hcoherent : r.Coherent anyText :=
    hw.coherent (fun _ _ => trivial) key r hr
  obtain ⟨hnumbered, hdrawn, hstands⟩ :=
    stands_of_run hw hr hready ht hne hrun hkeys.init
  exact told_of_course hcoherent hready ht hne hnumbered hdrawn hstands
    (hrun.course hm hkeys)

/-- A request that the model would answer with `t`. -/
def servedWith (t : Str) (payload : AliceWebhookRequest) (w : World) : Moment :=
  ⟨w, .served payload (answeredWith t payload w).1, (answeredWith t payload w).2⟩

theorem happens_servedWith (t : Str) (payload : AliceWebhookRequest)
    (w : World) : Happens .default (servedWith t payload w) :=
  .served payload (outcome_answeredWith trivial payload w)

/-- The tail of a long answer is spoken second, and then nothing of it. -/
theorem tail_delivered :
    let key := (utter 1 "что такое кит").conversationKey
    let w₀ := workedWorld (List.replicate 450 'a')
    let first := servedWith [] (utter 2 "продолжай") w₀
    let second := servedWith [] (utter 3 "продолжай") first.after
    let third := servedWith [] (utter 4 "продолжай") second.after
    ∃ r, w₀.pending key = some r ∧ r.parts.length = 2 ∧
      heard .default key [first] = 1 ∧
      Told .default key r (heard .default key [first]) second ∧
      heard .default key [first, second] = 2 ∧
      Told .default key r (heard .default key [first, second]) third := by
  intro key w₀ first second third
  -- one evaluation of the run for everything that is read off from it
  have hworlds : (w₀.pending key).map
      (fun r => (r.status, r.replyText.map List.length, r.parts.length)) =
        some (.ready, some 417, 2) ∧
      heard .default key [first] = 1 ∧ heard .default key [first, second] = 2 ∧
      DistinctKeys w₀ [first, second, third] := by
    unfold DistinctKeys
    decide +kernel
  obtain ⟨hrecord, honce, htwice, hkeys⟩ := hworlds
  obtain ⟨r, hr, hobs⟩ := Option.map_eq_some_iff.mp hrecord
  simp only [Prod.mk.injEq] at hobs
  obtain ⟨hready, htext, hparts⟩ := hobs
  obtain ⟨t, ht, hlength⟩ := Option.map_eq_some_iff.mp htext
  have hne : t ≠ [] := by
    rintro rfl
    cases hlength
  have hw : Reachable .default anyText anyText w₀ :=
    reachable_workedWorld trivial
  have hfirst : Run .default w₀ [first] first.after :=
    .next .start (happens_servedWith [] (utter 2 "продолжай") w₀)
  have hsecond : Run .default w₀ [first, second] second.after :=
    .next hfirst (happens_servedWith [] (utter 3 "продолжай") first.after)
  refine ⟨r, hr, hparts, honce, ?_, htwice, ?_⟩
  · exact delivered_in_order hw hr hready ht hne hfirst
      (happens_servedWith _ _ _) (@DistinctKeys.init _ [first, second] _ hkeys)
  · exact delivered_in_order hw hr hready ht hne hsecond
      (happens_servedWith _ _ _) hkeys

end Runs

end AliceSkill
