import AliceSkill.Sequential.Service
import AliceSkill.Services.Lengths

/-!
# Long answers, spoken in full

An answer that is too long for one response is spoken in two pieces, its short
text and the tail.  The short text is never clipped; the tail is, when its
normalization is longer than the protocol allows.
-/

namespace AliceSkill

open Text Effects Program RedisPendingReplyStore ConversationService

/-- The response that speaks a piece of a long answer has the full normalization
of the piece in it. -/
def SpokenInFull (piece : Str) : Prop :=
  ∀ (payload : AliceWebhookRequest) (buttons : List AliceButtonsItem),
    (respond payload (presentReplyText piece .readyTail) buttons).response =
      { text := normalizeText piece, tts := normalizeText piece
        endSession := false, buttons := buttons }

theorem presentReplyText_readyTail (piece : Str) :
    presentReplyText piece .readyTail = piece :=
  if_neg (by decide)

theorem spokenInFull_iff (piece : Str) :
    SpokenInFull piece ↔
      (normalizeText piece).length ≤ maxAliceFieldLength := by
  rw [← clip_eq_self_iff (by decide), SpokenInFull, presentReplyText_readyTail]
  constructor
  · intro h
    have hresponse := h (utter 0 "") []
    simp only [respond, renderVoiceResponse,
      AliceResponsePayload.mk.injEq] at hresponse
    exact hresponse.1
  · intro heq payload buttons
    simp only [respond, renderVoiceResponse, heq]

/-- The record that holds the tail of an answer. -/
def tailRecord (j : JobId) (tail : Str) : PendingReply :=
  readyRecord j tail tail none .readyTail none

/-- The response that speaks a piece of a long answer. -/
def pieceResponse (payload : AliceWebhookRequest) (piece : Str) :
    AliceWebhookResponse :=
  respond payload (presentReplyText piece .readyTail)
    (continuationButtons .readyTail)

/-- The pieces of a long answer are spoken in turn: the short text by the answer
itself or, when a worker has published it, by a continue request, the tail by
the continue request after that, which clears the record. -/
structure SpokenInTurn (cfg : Settings) (reply : LLMReply) (tail : Str) :
    Prop where
  answered : ∀ payload, freshResponse payload reply =
    pieceResponse payload reply.shortText
  stored : ∀ key w, w.pending key = none →
    (storeImmediateFollowup key reply).wp (execCall cfg)
      (permits reliable anyText) (fun x w' => x = .ok () ∧
        w'.pending key = some (tailRecord w.nextId tail)) w
  first : ∀ payload key j w,
    let published := readyRecord j reply.shortText reply.shortText
      reply.followupText reply.followupMode reply.continuationRequest
    w.pending key = some published →
      (handleContinue payload key (some published)).wp (execCall cfg)
        (permits reliable anyText) (fun x w' =>
          x = .ok (pieceResponse payload reply.shortText) ∧
          w'.pending key = some (tailRecord j tail)) w
  second : ∀ payload key j w, w.pending key = some (tailRecord j tail) →
    (handleContinue payload key (some (tailRecord j tail))).wp (execCall cfg)
      (permits reliable anyText) (fun x w' =>
        x = .ok (pieceResponse payload tail) ∧ w'.pending key = none) w

theorem LLMReply.Coherent.mode_of_tail {reply : LLMReply} {tail : Str}
    (hreply : reply.Coherent) (htail : reply.followupText = some tail) :
    reply.followupMode = .readyTail := by
  cases hreply with
  | plain shortText rawText => cases htail
  | withTail shortText rawText tail hshort hne => rfl
  | offer shortText rawText request hrequest => cases htail

theorem spokenInTurn_of_coherent (cfg : Settings) {reply : LLMReply}
    (hreply : reply.Coherent) (hmode : reply.followupMode = .readyTail) :
    ∃ tail, reply.followupText = some tail ∧ SpokenInTurn cfg reply tail := by
  cases hreply with
  | plain shortText rawText => cases hmode
  | offer shortText rawText request hrequest => cases hmode
  | withTail shortText rawText tail hshort htail =>
      obtain ⟨ch, short, rfl⟩ := List.exists_cons_of_ne_nil hshort
      obtain ⟨d, rest, rfl⟩ := List.exists_cons_of_ne_nil htail
      refine ⟨_, rfl, ?_⟩
      constructor
      · intro payload
        rfl
      · intro key w hnone
        rw [wp_storeImmediateFollowup hnone]
        refine ⟨rfl, ?_⟩
        rw [World.withFollowup, if_neg (by simp), World.setPending_pending_same]
        rfl
      · intro payload key j w published hpending
        rw [wp_handleContinue hpending]
        have hcontinued : continued payload key published w =
            (spokenResponse payload published,
              w.setPending key (afterSpeaking published)) := rfl
        rw [hcontinued]
        refine ⟨rfl, ?_⟩
        rw [World.setPending_pending_same]
        rfl
      · intro payload key j w hpending
        rw [wp_handleContinue hpending]
        have hcontinued : continued payload key (tailRecord j (d :: rest)) w =
            (spokenResponse payload (tailRecord j (d :: rest)),
              w.setPending key (afterSpeaking (tailRecord j (d :: rest)))) := rfl
        rw [hcontinued]
        refine ⟨rfl, ?_⟩
        rw [World.setPending_pending_same]
        rfl

/-- The two pieces of a long answer are spoken in turn.  The short text is never
clipped.  The tail is clipped exactly when its normalization is longer than the
protocol allows, which it is not if the tail has at most 477 characters. -/
theorem long_answer_spoken (cfg : Settings) (rawText : Str)
    (h : (prepareLlmReply rawText).followupMode = .readyTail) :
    ∃ tail, (prepareLlmReply rawText).followupText = some tail ∧
      SpokenInTurn cfg (prepareLlmReply rawText) tail ∧
      SpokenInFull (prepareLlmReply rawText).shortText ∧
      (SpokenInFull tail ↔
        (normalizeText tail).length ≤ maxAliceFieldLength) ∧
      (tail.length ≤ 477 → SpokenInFull tail) := by
  obtain ⟨tail, htail, hturn⟩ :=
    spokenInTurn_of_coherent cfg (prepareLlmReply_coherent rawText) h
  refine ⟨tail, htail, hturn, ?_, spokenInFull_iff tail, ?_⟩
  · have hshort := length_shortText h
    rw [spokenInFull_iff]
    apply normalizeText_within
    omega
  · intro hlength
    rw [spokenInFull_iff]
    exact normalizeText_within hlength

/-- A text of `n` letters without a break. -/
def letters (n : ℕ) : Str := List.replicate n 'a'

theorem letters_spoken :
    ∃ tail, (prepareLlmReply (letters 430)).followupText = some tail ∧
      SpokenInFull (prepareLlmReply (letters 430)).shortText ∧
      SpokenInFull tail := by
  have hlength : ((prepareLlmReply (letters 430)).followupText.map
      List.length) = some 37 := by
    decide +kernel
  obtain ⟨tail, htail, hshort⟩ := Option.map_eq_some_iff.mp hlength
  have hmode := (prepareLlmReply_coherent (letters 430)).mode_of_tail htail
  obtain ⟨tail', htail', -, hspoken, -, hfull⟩ :=
    long_answer_spoken .default (letters 430) hmode
  obtain rfl := Option.some.inj (htail.symm.trans htail')
  exact ⟨tail, htail, hspoken, hfull (by omega)⟩

/-- A sentence of 200 characters and 515 semicolons, each of which is spoken as
two characters. -/
def separators : Str :=
  letters 199 ++ ['.'] ++ List.replicate 515 ';'

theorem long_tail_clipped :
    ∃ tail, (prepareLlmReply separators).followupMode = .readyTail ∧
      (prepareLlmReply separators).followupText = some tail ∧
      ¬SpokenInFull tail := by
  have hlength : ((prepareLlmReply separators).followupText.map fun tail =>
      (normalizeText tail).length) = some 1029 := by
    decide +kernel
  obtain ⟨tail, htail, hlong⟩ := Option.map_eq_some_iff.mp hlength
  have hmode := (prepareLlmReply_coherent separators).mode_of_tail htail
  refine ⟨tail, hmode, htail, fun h => ?_⟩
  rw [spokenInFull_iff, hlong, maxAliceFieldLength] at h
  omega

end AliceSkill
