import AliceSkill.Sequential.Runs

/-!
# Continuation buttons

A button invites the user to go on.  It is alive when a continue request right
after the response finds something to go on with.
-/

namespace AliceSkill

open Text Effects Program RedisPendingReplyStore ConversationService

/-- The response invites the user to go on. -/
def AliceWebhookResponse.Invites (response : AliceWebhookResponse) : Prop :=
  ∃ b ∈ response.response.buttons,
    b.title = "Подробнее".toList ∨ b.title = "Продолжай".toList

/-- There is something to go on with: a job on its way, a text to speak or an
open offer. -/
def Continuable : Option PendingReply → Prop
  | none => False
  | some r => r.status = .processing ∨
      (r.status = .ready ∧ truthy r.replyText = true) ∨
      (r.status = .delivered ∧ r.followupMode = .deferredOffer ∧
        truthy r.continuationRequest = true)

/-- The request takes the last tail of an answer: a text in tail mode that
has no tail itself. -/
def TakesLastTail (cfg : Settings) (payload : AliceWebhookRequest)
    (w : World) : Prop :=
  AsksToContinue cfg payload w ∧
    ∃ r, w.pending payload.conversationKey = some r ∧ r.status = .ready ∧
      r.followupMode = .readyTail ∧ r.tailText = none

@[simp] theorem respond_buttons (payload : AliceWebhookRequest) (text : Str)
    (buttons : List AliceButtonsItem) :
    (respond payload text buttons).response.buttons = buttons := rfl

theorem not_invites_of_nil {response : AliceWebhookResponse}
    (h : response.response.buttons = []) : ¬response.Invites := by
  simp [AliceWebhookResponse.Invites, h]

theorem invites_continuationButtons (payload : AliceWebhookRequest)
    (text : Str) (mode : FollowupMode) :
    (respond payload text (continuationButtons mode)).Invites ↔
      mode ≠ .none := by
  cases mode <;> simp [AliceWebhookResponse.Invites, continuationButtons]

variable {cfg : Settings} {S T : Str → Prop} {w : World}
variable {payload : AliceWebhookRequest}

/-- A fresh answer that invites has left a record to go on with. -/
theorem continuable_withFollowup {key : Str} {reply : LLMReply}
    (hreply : reply.Coherent) (hmode : reply.followupMode ≠ .none) :
    Continuable ((w.withFollowup key reply).pending key) := by
  cases hreply with
  | plain shortText rawText => exact absurd rfl hmode
  | withTail shortText rawText tail hshort htail =>
      obtain ⟨c, cs, rfl⟩ := List.exists_cons_of_ne_nil htail
      simp [World.withFollowup, Continuable, readyRecord]
  | offer shortText rawText request hrequest =>
      simp [World.withFollowup, Continuable, deliveredRecord, readyRecord,
        hrequest]

theorem continuable_accept (key u : Str) :
    Continuable ((w.accept payload key u).pending key) := by
  simp [Continuable, processingRecord]

/-- Speaking the text of a record, by the shape of the record. -/
theorem continuable_afterSpeaking {r : PendingReply} (hr : r.Coherent S)
    (hspeak : r.status = .ready ∨ r.status = .delivered) :
    ((spokenResponse payload r).Invites → Continuable (afterSpeaking r)) ↔
      ¬(r.status = .ready ∧ r.followupMode = .readyTail ∧
        r.tailText = none) := by
  rw [spokenResponse, invites_continuationButtons]
  cases hr with
  | processing j => simp [processingRecord] at hspeak
  | failed j m => simp [failedRecord] at hspeak
  | plain j t ht => simp [readyRecord]
  | withTail j t tail ht htail =>
      obtain ⟨c, cs, rfl⟩ := List.exists_cons_of_ne_nil htail
      simp [readyRecord, afterSpeaking, Continuable]
  | lastTail j t ht => simp [readyRecord, afterSpeaking, Continuable]
  | offer j t c ht hc =>
      simp [readyRecord, deliveredRecord, afterSpeaking, Continuable, hc]
  | openOffer j t c hc =>
      simp [readyRecord, deliveredRecord, afterSpeaking, Continuable, hc]

/-- A continue request, by what it takes. -/
theorem continuable_continued {r : PendingReply} (hw : w.Coherent S)
    (hpending : w.pending payload.conversationKey = some r) :
    let out := continued payload payload.conversationKey r w
    (out.1.Invites → Continuable (out.2.pending payload.conversationKey)) ↔
      ¬(r.status = .ready ∧ r.followupMode = .readyTail ∧
        r.tailText = none) := by
  have hr := hw _ _ hpending
  have hempty : truthy r.replyText = false →
      ¬(r.status = .ready ∧ r.followupMode = .readyTail ∧ r.tailText = none) := by
    cases hr <;>
      simp_all [readyRecord, processingRecord, failedRecord, deliveredRecord]
  simp only [continued]
  split_ifs with hprocessing hfailed hopen htext
  · simp [AliceWebhookResponse.Invites, hprocessing]
  · simp [AliceWebhookResponse.Invites, hfailed]
  · have hdelivered : r.status = .delivered := by
      simp only [isOpenOffer, decide_eq_true_eq] at hopen
      exact hopen.1
    exact iff_of_true (fun _ => continuable_accept _ _) (by simp [hdelivered])
  · rw [World.setPending_pending_same]
    refine continuable_afterSpeaking hr ?_
    cases hs : r.status <;> simp_all
  · simp [AliceWebhookResponse.Invites, hempty (by simpa using htext)]

theorem blocked_buttons {r : PendingReply} {key : Str} {w' : World}
    {response : AliceWebhookResponse}
    (h : blocked payload key r w = (some response, w')) :
    response.response.buttons = [] := by
  rw [blocked] at h
  cases hs : r.status <;> rw [hs] at h <;> cases h <;> rfl

/-- Exactly the last tail of an answer is spoken with a dead button: in every
world reached, a new request gets a response whose buttons are alive if and
only if it does not take a last tail. -/
theorem buttons_alive_iff (hw : Reachable cfg anyText anyText w)
    (hnew : Uncached payload w) {response : AliceWebhookResponse} {w' : World}
    (h : (handle cfg payload).Outcome (execCall cfg) (permits reliable anyText)
      w (.ok response) w') :
    (response.Invites →
        Continuable (w'.pending payload.conversationKey)) ↔
      ¬TakesLastTail cfg payload w := by
  have hcoh : w.Coherent anyText := hw.coherent fun _ _ => trivial
  refine h.wp (Q := fun r w' => ∀ response, r = .ok response →
    ((response.Invites → Continuable (w'.pending payload.conversationKey)) ↔
      ¬TakesLastTail cfg payload w)) ?_ response rfl
  refine wp_handle hnew fun response' w'' hh => ?_
  rintro response ⟨⟩
  rw [World.cache_pending]
  cases hh with
  | empty htext =>
      refine iff_of_true (fun h => ?_) fun h => h.1.1 htext
      exact absurd h (not_invites_of_nil rfl)
  | nothing hpending hasks =>
      refine iff_of_true (fun h => ?_) fun h => ?_
      · exact absurd h (not_invites_of_nil rfl)
      · simp [TakesLastTail, hpending] at h
  | continued r hpending hasks =>
      refine (continuable_continued hcoh hpending).trans (not_congr ?_)
      simp [TakesLastTail, hasks, hpending]
  | blocked r _ hpending hasks hblocked =>
      refine iff_of_true (fun h => ?_) fun h => hasks h.1
      exact absurd h (not_invites_of_nil (blocked_buttons hblocked))
  | deferred hfree hasks =>
      exact iff_of_true (fun _ => continuable_accept _ _) fun h => hasks h.1
  | answered hfree hasks t ht =>
      have hreply := prepareLlmReply_coherent t
      generalize prepareLlmReply t = reply at hreply
      refine iff_of_true (fun h => ?_) fun h => hasks h.1
      have hmode := (invites_continuationButtons payload _ _).mp h
      exact continuable_withFollowup hreply hmode

/-- The beginning of a long answer is spoken with a button, and the tail is there
when the button is pressed. -/
theorem long_answer_button_alive :
    let payload := utter 2 "продолжай"
    let w := workedWorld (List.replicate 450 'a')
    ∃ response w', (handle .default payload).Outcome (execCall .default)
        (permits reliable anyText) w (.ok response) w' ∧
      response.Invites ∧ Continuable (w'.pending payload.conversationKey) := by
  intro payload w
  have hout := outcome_answeredWith (T := anyText) (t := []) trivial payload w
  -- one evaluation of the run for everything that is read off from it
  have hrun : Uncached payload w ∧
      (answeredWith [] payload w).1.toOption.map
        (fun r => r.response.buttons) = some [⟨"Подробнее".toList, true⟩] ∧
      (w.pending payload.conversationKey).map
        (fun r => r.tailText.isSome) = some true := by
    unfold Uncached
    decide +kernel
  obtain ⟨hnew, hbuttons, htail⟩ := hrun
  obtain ⟨response, hr⟩ := handle_returns hnew hout
  rw [hr] at hout hbuttons
  have hinvites : response.Invites := by
    have hone : response.response.buttons = [⟨"Подробнее".toList, true⟩] := by
      simpa [Except.toOption] using hbuttons
    simp [AliceWebhookResponse.Invites, hone]
  refine ⟨response, _, hout, hinvites, ?_⟩
  refine (buttons_alive_iff (reachable_workedWorld trivial) hnew hout).mpr ?_
    hinvites
  rintro ⟨-, r, hpending, -, -, hnone⟩
  rw [hpending, Option.map_some, hnone] at htail
  cases htail

/-- A long answer leaves its tail behind; the request that takes this tail is
answered with a button and leaves nothing. -/
theorem last_tail_button_dead :
    ∃ w response w', Reachable .default anyText anyText w ∧
      Uncached (utter 2 "подробнее") w ∧
      (handle .default (utter 2 "подробнее")).Outcome (execCall .default)
        (permits reliable anyText) w (.ok response) w' ∧
      response.Invites ∧
      ¬Continuable (w'.pending (utter 2 "подробнее").conversationKey) := by
  let w := (answeredWith (List.replicate 450 'a') (utter 1 "что такое кит")
    World.empty).2
  have hw : Reachable .default anyText anyText w :=
    .request _ .empty (outcome_answeredWith trivial _ _)
  have hout := outcome_answeredWith (T := anyText) (t := []) trivial
    (utter 2 "подробнее") w
  -- one evaluation of the run for everything that is read off from it
  have hrun : Uncached (utter 2 "подробнее") w ∧
      (answeredWith [] (utter 2 "подробнее") w).1.toOption.map
        (fun r => r.response.buttons) = some [⟨"Подробнее".toList, true⟩] ∧
      (answeredWith [] (utter 2 "подробнее") w).2.pending
        (utter 2 "подробнее").conversationKey = none := by
    unfold Uncached
    decide +kernel
  obtain ⟨hnew, hbuttons, hpending⟩ := hrun
  obtain ⟨response, hr⟩ := handle_returns hnew hout
  rw [hr] at hout hbuttons
  refine ⟨w, response, _, hw, hnew, hout, ?_, ?_⟩
  · have : response.response.buttons = [⟨"Подробнее".toList, true⟩] := by
      simpa [Except.toOption] using hbuttons
    simp [AliceWebhookResponse.Invites, this]
  · rw [hpending]
    exact id

end AliceSkill
