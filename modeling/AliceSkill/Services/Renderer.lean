import AliceSkill.Domain.Models

/-!
# Rendering for speech

`services/renderer.py`: what is said and shown is the same normalized text,
clipped to the limit of the protocol.
-/

namespace AliceSkill

open Text

def maxAliceFieldLength : ℕ := 1024

def minSentenceTruncationIndex : ℤ := 200

/-- Any character but a line break, the class `.` of patterns. -/
def dot : Regex := .cls (· != '\n')

/-- `` `{1,3}.+?`{1,3} `` -/
def codeSpan : Regex :=
  let ticks := Regex.rep true 1 (some 3) (.cls (· == '`'))
  .seq ticks (.seq (.lazyPlus dot) ticks)

/-- `\[(.+?)\]\(.+?\)` -/
def markdownLink : Regex :=
  .seq (.lit "[".toList) <| .seq (.group 1 (.lazyPlus dot)) <|
    .seq (.lit "](".toList) <| .seq (.lazyPlus dot) (.lit ")".toList)

/-- `(^|\s)#{1,6}\s*` -/
def heading : Regex :=
  .seq (.group 1 (.alt .bos (.cls isSpace))) <|
    .seq (.rep true 1 (some 6) (.cls (· == '#'))) (.star (.cls isSpace))

/-- `\s*;\s*` -/
def semicolon : Regex :=
  .seq (.star (.cls isSpace)) <|
    .seq (.cls (· == ';')) (.star (.cls isSpace))

/-- `https?://\S+` -/
def url : Regex :=
  .seq (.lit "http".toList) <| .seq (.rep true 0 (some 1) (.cls (· == 's'))) <|
    .seq (.lit "://".toList) (.plus (.cls fun c => !isSpace c))

/-- `,\s*,+` -/
def doubledComma : Regex :=
  .seq (.cls (· == ',')) <|
    .seq (.star (.cls isSpace)) (.plus (.cls (· == ',')))

/-- `\s{2,}` -/
def spaceRun : Regex := .rep true 2 none (.cls isSpace)

def normalizeText (text : Str) : Str :=
  let normalized := strip (collapseSpaces text)
  let normalized := remove '*' (removePairs '*' normalized)
  let normalized := codeSpan.subConst [] normalized
  let normalized := markdownLink.sub (·.group 1) normalized
  let normalized := heading.subConst [' '] normalized
  let normalized := replaceChar '•' ' ' normalized
  let normalized := semicolon.subConst ". ".toList normalized
  let normalized := (Regex.cls (· == '|')).subConst ", ".toList normalized
  let normalized := url.subConst "ссылку я опустил".toList normalized
  let normalized := doubledComma.subConst ", ".toList normalized
  let normalized := spaceRun.subConst [' '] normalized
  let normalized := stripBy (oneOf " ,-") normalized
  if normalized ≠ [] then normalized
  else "Я не могу озвучить ответ в этом виде.".toList

def clip (text : Str) (limit : ℕ) : Str :=
  if text.length ≤ limit then text
  else
    let cutoff := text.take (limit - 1)
    let sentenceEnd := rfindAny ['.', '!', '?', '…'] cutoff
    let wordEnd := rfind ' ' cutoff
    let cutoff :=
      if sentenceEnd ≥ minSentenceTruncationIndex then
        cutoff.take (sentenceEnd + 1).toNat
      else if wordEnd ≥ max 80 (limit / 2 : ℕ) then
        cutoff.take wordEnd.toNat
      else cutoff
    rstripBy (oneOf " ,") cutoff ++ ['…']

def renderVoiceResponse (text : Str) (buttons : List AliceButtonsItem) :
    AliceResponsePayload :=
  let clipped := clip (normalizeText text) maxAliceFieldLength
  { text := clipped, tts := clipped, endSession := false, buttons := buttons }

end AliceSkill
