import AliceSkill.Sequential.Runs

/-!
# Progress of a conversation

A continue request moves the record of its conversation on, and a record that
waits to be heard is heard.
-/

namespace AliceSkill

open Text Effects Program RedisPendingReplyStore ConversationService

/-- The response speaks the text of the record. -/
def AliceWebhookResponse.Speaks (response : AliceWebhookResponse)
    (payload : AliceWebhookRequest) (r : PendingReply) : Prop :=
  ∃ t buttons, r.replyText = some t ∧
    response = respond payload (presentReplyText t r.followupMode) buttons

/-- A request returned a response, the record is not what it was, and if it
was waiting to be heard the response spoke it. -/
def Progresses (payload : AliceWebhookRequest) (r : PendingReply)
    (out : Except PyException AliceWebhookResponse) (w' : World) : Prop :=
  ∃ response, out = .ok response ∧
    w'.pending payload.conversationKey ≠ some r ∧
    (r.status = .ready → response.Speaks payload r)

/-- Texts of the model are not empty. -/
def nonEmpty (t : Str) : Prop := t ≠ []

/-- Texts of the model of which something is left to say after cleaning. -/
def sayable (t : Str) : Prop := t ≠ [] ∧ (prepareLlmReply t).shortText ≠ []

variable {cfg : Settings} {S : Str → Prop} {w : World}
variable {payload : AliceWebhookRequest}

theorem speaks_spokenResponse (payload : AliceWebhookRequest)
    {r : PendingReply} {t : Str} (ht : t ≠ []) (hr : r.replyText = some t) :
    (spokenResponse payload r).Speaks payload r := by
  obtain ⟨c, cs, rfl⟩ := List.exists_cons_of_ne_nil ht
  exact ⟨_, _, hr, by rw [spokenResponse, hr]; rfl⟩

/-- Speaking the text of a record changes the record. -/
theorem afterSpeaking_ne {r : PendingReply} (hr : r.Coherent S)
    (hready : r.status = .ready) : afterSpeaking r ≠ some r := by
  cases hr with
  | processing j => simp [processingRecord] at hready
  | failed j m => simp [failedRecord] at hready
  | openOffer j t c hc => simp [deliveredRecord] at hready
  | plain j t ht => simp [readyRecord, afterSpeaking]
  | lastTail j t ht => simp [readyRecord, afterSpeaking]
  | withTail j t tail ht htail =>
      obtain ⟨c, cs, rfl⟩ := List.exists_cons_of_ne_nil htail
      simp [readyRecord, afterSpeaking]
  | offer j t c ht hc =>
      simp [readyRecord, deliveredRecord, afterSpeaking, hc]

/-- A coherent record that is neither in progress nor failed is waiting with a
text, possibly empty, or is an open offer. -/
theorem PendingReply.Coherent.cases_status {r : PendingReply}
    (hr : r.Coherent S) (hstatus : r.status ≠ .processing) :
    r.status = .failed ∨ isOpenOffer r = true ∨
      (r.status = .ready ∧ ∃ t, r.replyText = some t) := by
  cases hr with
  | processing j => exact absurd rfl hstatus
  | failed j m => exact Or.inl rfl
  | openOffer j t c hc =>
      refine Or.inr (Or.inl ?_)
      simp [isOpenOffer, deliveredRecord, readyRecord, hc]
  | plain j t ht => exact Or.inr (Or.inr ⟨rfl, t, rfl⟩)
  | lastTail j t ht => exact Or.inr (Or.inr ⟨rfl, t, rfl⟩)
  | withTail j t tail ht htail => exact Or.inr (Or.inr ⟨rfl, t, rfl⟩)
  | offer j t c ht hc => exact Or.inr (Or.inr ⟨rfl, t, rfl⟩)

/-- What a continue request does to a coherent record. -/
theorem progresses_continued {r : PendingReply} (hr : r.Coherent S)
    (hstatus : r.status ≠ .processing)
    (hpending : w.pending payload.conversationKey = some r)
    {key : Str} {cached : CachedDict} :
    let out := continued payload payload.conversationKey r w
    Progresses payload r (.ok out.1) (out.2.cache key cached) ↔
      ¬(r.status = .ready ∧ r.replyText = some []) := by
  simp only [Progresses, Except.ok.injEq, exists_eq_left', World.cache_pending]
  rcases hr.cases_status hstatus with hfailed | hopen | ⟨hready, t, ht⟩
  · simp [continued, hfailed]
  · have hdelivered : r.status = .delivered := by
      simp only [isOpenOffer, decide_eq_true_eq] at hopen
      exact hopen.1
    refine iff_of_true ⟨?_, by simp [hdelivered]⟩ (by simp [hdelivered])
    simp only [continued, hdelivered, hopen]
    intro heq
    have hr' : processingRecord w.nextId = r := by simpa using heq
    rw [← hr'] at hdelivered
    cases hdelivered
  · have hclosed : isOpenOffer r = false := by simp [isOpenOffer, hready]
    by_cases hempty : t = []
    · subst hempty
      simp [continued, hready, hclosed, ht, hpending]
    · have hspeaks := speaks_spokenResponse payload hempty ht
      simp [continued, hready, hclosed, ht, hempty, hspeaks,
        afterSpeaking_ne hr hready]

/-- Texts that are not empty when published are not empty when heard. -/
theorem PendingReply.Coherent.text_ne_nil {r : PendingReply}
    (hr : r.Coherent (· ≠ [])) (hready : r.status = .ready) :
    r.replyText ≠ some [] := by
  cases hr with
  | processing j => cases hready
  | failed j m => cases hready
  | openOffer j t c hc => cases hready
  | plain j t ht => simpa [readyRecord] using ht
  | lastTail j t ht => simpa [readyRecord] using ht
  | withTail j t tail ht htail => simpa [readyRecord] using ht
  | offer j t c ht hc => simpa [readyRecord] using ht

theorem continue_progresses {r : PendingReply} (hw : w.Coherent S)
    (hnew : Uncached payload w) (hasks : AsksToContinue cfg payload w)
    (hpending : w.pending payload.conversationKey = some r)
    (hstatus : r.status ≠ .processing)
    {out : Except PyException AliceWebhookResponse} {w' : World}
    (h : (handle cfg payload).Outcome (execCall cfg) (permits reliable nonEmpty)
      w out w') :
    Progresses payload r out w' ↔
      ¬(r.status = .ready ∧ r.replyText = some []) := by
  refine h.wp (Q := fun out w' => Progresses payload r out w' ↔
    ¬(r.status = .ready ∧ r.replyText = some [])) (wp_handle hnew ?_)
  intro response w'' hh
  cases hh with
  | empty htext => exact absurd htext hasks.1
  | nothing hnone _ => simp [hpending] at hnone
  | continued r' hpending' _ =>
      rw [hpending] at hpending'
      cases hpending'
      exact progresses_continued (hw _ _ hpending) hstatus hpending
  | blocked _ _ _ hnot _ => exact absurd hasks hnot
  | deferred _ hnot => exact absurd hasks hnot
  | answered _ hnot _ _ => exact absurd hasks hnot

/-- A continue request for a record that is not in progress makes progress,
except for exactly the READY records whose text is empty.  Such a record comes
about only when a worker gets a text of which the cleaning leaves nothing; in
runs without such texts every continue request makes progress. -/
theorem progress_iff_text (hnew : Uncached payload w)
    (hasks : AsksToContinue cfg payload w) {r : PendingReply}
    (hpending : w.pending payload.conversationKey = some r)
    (hstatus : r.status ≠ .processing)
    {out : Except PyException AliceWebhookResponse} {w' : World}
    (h : (handle cfg payload).Outcome (execCall cfg) (permits reliable nonEmpty)
      w out w') :
    (Reachable cfg nonEmpty nonEmpty w →
      (Progresses payload r out w' ↔
        ¬(r.status = .ready ∧ r.replyText = some []))) ∧
    (Reachable cfg nonEmpty sayable w → Progresses payload r out w') := by
  constructor
  · intro hw
    have hcoh : w.Coherent anyText := hw.coherent fun _ _ => trivial
    exact continue_progresses hcoh hnew hasks hpending hstatus h
  · intro hw
    have hcoh : w.Coherent (· ≠ []) := hw.coherent fun _ ht => ht.2
    rw [continue_progresses hcoh hnew hasks hpending hstatus h]
    rintro ⟨hready, hempty⟩
    exact (hcoh _ _ hpending).text_ne_nil hready hempty

theorem progress_after_short_answer :
    let payload := utter 2 "продолжай"
    let w := workedWorld "Киты".toList
    let out := answeredWith ['a'] payload w
    let r := readyRecord 0 "Киты".toList "Киты".toList none .none none
    w.pending payload.conversationKey = some r ∧
      Progresses payload r out.1 out.2 := by
  intro payload w out r
  -- one evaluation of the run for everything that is read off from it
  have hworld : Uncached payload w ∧ AsksToContinue .default payload w ∧
      w.pending payload.conversationKey = some r ∧
      sayable "Киты".toList := by
    unfold Uncached AsksToContinue sayable
    decide +kernel
  obtain ⟨hnew, hasks, hpending, hsayable⟩ := hworld
  exact ⟨hpending, (progress_iff_text hnew hasks hpending (by decide)
    (outcome_answeredWith (by simp [nonEmpty]) _ _)).2
      (reachable_workedWorld hsayable)⟩

/-- An answer of which the cleaning leaves nothing is stored as READY with an
empty text, which no continue request ever speaks or moves on. -/
theorem empty_text_stuck :
    ∃ w r out w', Reachable .default nonEmpty nonEmpty w ∧
      Uncached (utter 2 "продолжай") w ∧
      AsksToContinue .default (utter 2 "продолжай") w ∧
      w.pending (utter 2 "продолжай").conversationKey = some r ∧
      r.status = .ready ∧
      (handle .default (utter 2 "продолжай")).Outcome (execCall .default)
        (permits reliable nonEmpty) w out w' ∧
      ¬Progresses (utter 2 "продолжай") r out w' := by
  let w := workedWorld ['*']
  have hworld : Uncached (utter 2 "продолжай") w ∧
      AsksToContinue .default (utter 2 "продолжай") w ∧
      w.pending (utter 2 "продолжай").conversationKey =
        some (readyRecord 0 [] [] none .none none) ∧
      (answeredWith ['a'] (utter 2 "продолжай") w).2.pending
        (utter 2 "продолжай").conversationKey =
          some (readyRecord 0 [] [] none .none none) := by
    unfold Uncached AsksToContinue
    decide +kernel
  obtain ⟨hnew, hasks, hpending, hkept⟩ := hworld
  refine ⟨w, readyRecord 0 [] [] none .none none, _, _,
    reachable_workedWorld (by simp [nonEmpty]), hnew, hasks, hpending, rfl,
    outcome_answeredWith (t := ['a']) (by simp [nonEmpty]) _ _, ?_⟩
  rintro ⟨response, -, hchanged, -⟩
  exact hchanged hkept

end AliceSkill
