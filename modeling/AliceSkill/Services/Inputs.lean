import AliceSkill.Domain.Models

/-!
# What the model is asked

`_build_input_items` of `infra/llm/openai_adapter.py`: the developer prompt,
the last turns of the history and the question.  The time in the prompt is the
ISO text of a reading of the clock.
-/

namespace AliceSkill

open Text

inductive InputRole where
  | developer
  | user
  | assistant
  deriving DecidableEq

/-- The content of an input item: a text, or a list with one output text. -/
inductive InputContent where
  | text (content : Str)
  | outputText (content : Str)
  deriving DecidableEq

structure InputItem where
  role : InputRole
  content : InputContent
  deriving DecidableEq

/-- Python's `xs[start:]`, where a negative bound counts from the end. -/
def sliceFrom {α : Type} (start : ℤ) (xs : List α) : List α :=
  xs.drop (if start < 0 then xs.length + start else start).toNat

def promptProtocol : Str :=
  ("Visible answer must stay self-contained and spoken. " ++
    "Do not promise future actions, ask for confirmation, or say phrases like " ++
    "\"если хочешь, я могу...\" in visible text. " ++
    "Use [[FOLLOWUP_REQUEST: <concise Russian follow-up task>]] only when a " ++
    "follow-up should run after explicit user confirmation. " ++
    "The marker must appear at most once, on the final line, and must never be " ++
    "explained or shown to the user. Omit it otherwise.").toList

def buildDeveloperPrompt (text utcNow : Str) : Str :=
  let currentUtcLine :=
    "Current UTC date and time: ".toList ++ utcNow ++ ".".toList
  text ++ "\n\nPrompt protocol: ".toList ++ promptProtocol ++ "\n".toList ++
    currentUtcLine

def formatHistoricalSystemTurn (text : Str) : Str :=
  "Conversation-specific instruction: ".toList ++ text

/-- The input item of a turn of the history. -/
def inputItem (turn : ConversationTurn) : InputItem :=
  match turn.role with
  | .assistant => ⟨.assistant, .outputText turn.content⟩
  | .system =>
      ⟨.developer, .text (formatHistoricalSystemTurn turn.content)⟩
  | .user => ⟨.user, .text turn.content⟩

/-- The items of a request; the clock is read when no time is given. -/
def buildInputItems (systemPrompt : Str) (history : List ConversationTurn)
    (userText : Str) (currentUtc : Option Str) (clock : Str) : List InputItem :=
  let utcNow := currentUtc.getD clock
  [⟨.developer, .text (buildDeveloperPrompt systemPrompt utcNow)⟩] ++
    (sliceFrom (-8) history).map inputItem ++ [⟨.user, .text userText⟩]

end AliceSkill
