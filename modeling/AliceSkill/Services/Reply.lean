import AliceSkill.Services.Renderer

/-!
# From model text to a reply

The text half of `infra/llm/openai_adapter.py`: extraction of the follow-up
marker, cleaning, and the split of a long answer into a short part and a tail.
-/

namespace AliceSkill

open Text

def shortReplyLimit : ℕ := 420

def shortReplyHeadroom : ℕ := 24

def markerOpening : Str := "[[FOLLOWUP_REQUEST:".toList

/-- Any character, line breaks included. -/
def anyChar : Regex := .cls fun _ => true

/-- `\[\[FOLLOWUP_REQUEST:\s*(?P<request>.*?)\s*\]\]` with `.` matching line
breaks; the request is group 1. -/
def followupMarker : Regex :=
  .seq (.lit markerOpening) <| .seq (.star (.cls isSpace)) <|
    .seq (.group 1 (.lazyStar anyChar)) <|
      .seq (.star (.cls isSpace)) (.lit "]]".toList)

/-- `\[\[FOLLOWUP_REQUEST:[\s\S]*$` -/
def followupMarkerFragment : Regex :=
  .seq (.lit markerOpening) (.seq (.star anyChar) .eos)

def extractFollowupRequest (rawText : Str) : Str × Option Str :=
  let matches' := followupMarker.finditer rawText
  let visibleText := followupMarker.subConst [] rawText
  let visibleText :=
    rstripBy isSpace (followupMarkerFragment.subConst [] visibleText)
  let candidates := matches'.reverse.map fun m =>
    stripBy (oneOf " -") (collapseSpaces (m.group 1))
  (visibleText, candidates.find? (· ≠ []))

/-- `\s+\S+$` -/
def lastWord : Regex :=
  .seq (.plus (.cls isSpace)) (.seq (.plus (.cls fun c => !isSpace c)) .eos)

/-- A text cut off in the middle of a word loses that word, unless too little
would be left.  `int(len(text) * 0.6)` is `3 * len(text) // 5`. -/
def stabilizeIncompleteTail (text : Str) : Str :=
  match text.getLast? with
  | none => text
  | some c =>
      if oneOf ".!?…" c then text
      else
        let trimmed := rstripBy (oneOf " ,;:") (lastWord.subConst [] text)
        if trimmed.length < max 40 (text.length * 3 / 5) then text
        else trimmed ++ "...".toList

/-- Python's `text or None`. -/
def noneIfEmpty (t : Str) : Option Str := if t = [] then none else some t

def splitShortAndTail (text : Str) (limit : ℕ) : Str × Option Str :=
  if text.length ≤ limit then (text, none)
  else
    let preferredCutoff := limit - shortReplyHeadroom
    let cutoff := text.take preferredCutoff
    let sentenceEnd := rfindAny ['.', '!', '?', '…'] cutoff
    let wordEnd := rfind ' ' cutoff
    if sentenceEnd ≥ max 120 (preferredCutoff / 2 : ℕ) then
      let head := rstripBy isSpace (cutoff.take (sentenceEnd + 1).toNat)
      let tail := lstripBy isSpace (text.drop (sentenceEnd + 1).toNat)
      (head, noneIfEmpty tail)
    else if wordEnd ≥ max 80 (preferredCutoff / 2 : ℕ) then
      let head := rstripBy (oneOf " ,;:") (cutoff.take wordEnd.toNat)
      let tail := lstripBy isSpace (text.drop wordEnd.toNat)
      (head ++ "...".toList, noneIfEmpty tail)
    else
      let head := rstripBy (oneOf " ,;:") cutoff
      let tail := lstripBy isSpace (text.drop cutoff.length)
      (head ++ "...".toList, noneIfEmpty tail)

/-- The cleaning of visible text before it is measured. -/
def cleanVisibleText (visibleText : Str) : Str :=
  let normalized := strip (collapseSpaces visibleText)
  let normalized := remove '#' (remove '*' normalized)
  let normalized := codeSpan.subConst [] normalized
  let normalized := markdownLink.sub (·.group 1) normalized
  let normalized := (Regex.cls (oneOf "_~")).subConst [] normalized
  let normalized := stripBy (oneOf " -") normalized
  stabilizeIncompleteTail normalized

def prepareLlmReply (rawText : Str) : LLMReply :=
  let (visibleText, continuationRequest) := extractFollowupRequest rawText
  let normalized := cleanVisibleText visibleText
  if normalized.length ≤ shortReplyLimit then
    { shortText := normalized
      rawText := normalized
      followupMode :=
        if continuationRequest ≠ none then .deferredOffer else .none
      followupText := none
      continuationRequest := continuationRequest }
  else
    let (shortText, tailText) := splitShortAndTail normalized shortReplyLimit
    let shortText :=
      if truthy tailText then shortText ++ " Скажи: подробнее.".toList
      else shortText
    { shortText := shortText
      rawText := normalized
      followupMode := if tailText ≠ none then .readyTail else .none
      followupText := tailText
      continuationRequest := none }

/-! ## Coherence of replies -/

/-- The replies that make sense to the service: the mode agrees with the
texts that come along, and those texts are not empty. -/
inductive LLMReply.Coherent : LLMReply → Prop where
  | plain (shortText rawText : Str) :
      Coherent ⟨shortText, rawText, .none, none, none⟩
  | withTail (shortText rawText tail : Str) (hshort : shortText ≠ [])
      (htail : tail ≠ []) :
      Coherent ⟨shortText, rawText, .readyTail, some tail, none⟩
  | offer (shortText rawText request : Str) (hrequest : request ≠ []) :
      Coherent ⟨shortText, rawText, .deferredOffer, none, some request⟩

theorem extractFollowupRequest_ne_nil {rawText request : Str}
    (h : (extractFollowupRequest rawText).2 = some request) : request ≠ [] := by
  have := List.find?_some h
  simpa using this

theorem noneIfEmpty_ne_nil {t tail : Str} (h : noneIfEmpty t = some tail) :
    tail ≠ [] := by
  rw [noneIfEmpty] at h
  split at h
  · cases h
  · next ht =>
    cases h
    exact ht

theorem splitShortAndTail_ne_nil {text tail : Str} {limit : ℕ}
    (h : (splitShortAndTail text limit).2 = some tail) : tail ≠ [] := by
  rw [splitShortAndTail] at h
  split at h
  · cases h
  · simp only at h
    split at h
    · exact noneIfEmpty_ne_nil h
    · split at h <;> exact noneIfEmpty_ne_nil h

/-- Whatever the model says, the service gets a coherent reply. -/
theorem prepareLlmReply_coherent (rawText : Str) :
    (prepareLlmReply rawText).Coherent := by
  rw [prepareLlmReply]
  simp only
  split
  · cases hrequest : (extractFollowupRequest rawText).2 with
    | none => exact .plain _ _
    | some request =>
        exact .offer _ _ _ (extractFollowupRequest_ne_nil hrequest)
  · cases htail : (splitShortAndTail
      (cleanVisibleText (extractFollowupRequest rawText).1)
      shortReplyLimit).2 with
    | none => exact .plain _ _
    | some tail =>
        have hne := splitShortAndTail_ne_nil htail
        refine .withTail _ _ _ ?_ hne
        simp [hne]

end AliceSkill
