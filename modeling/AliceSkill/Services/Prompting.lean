import AliceSkill.Domain.Models

/-!
# Reading the utterance

`services/prompting.py`: cleaning of user text and the test whether an
utterance asks to go on.
-/

namespace AliceSkill

open Text

def continueMarkers : List Str :=
  ["да давай", "да продолжай", "давай", "давай еще", "давай детальнее",
    "давай дальше", "давай подробнее", "давай продолжай", "давай продолжим",
    "можно дальше", "можно подробнее", "можно продолжение",
    "можешь продолжать", "ну давай", "ну продолжай", "продолжай",
    "продолжай дальше", "продолжай пожалуйста", "продолжай подробнее",
    "расскажи дальше", "продолжить", "подробнее", "расскажи еще",
    "расскажи еще подробнее", "еще", "дальше", "дальше давай",
    "расскажи подробнее", "угу давай"].map String.toList

def affirmationTokens : List Str :=
  ["ага", "да", "ладно", "ок", "окей", "угу", "хорошо"].map String.toList

def continueTokens : List Str :=
  ["давай", "дальше", "детальнее", "еще", "подробнее", "продолжай",
    "продолжить", "продолжим", "продолжение", "продолжать",
    "расскажи"].map String.toList

def fillerTokens : List Str :=
  ["можешь", "можно", "ну", "пожалуйста"].map String.toList

def allowedContinueTokens : List Str :=
  affirmationTokens ++ continueTokens ++ fillerTokens

def maxContinueTokens : ℕ := 5

/-- `[^\w\s]+` -/
def punctuation (u : UnicodeData) : Regex :=
  .plus (.cls fun c => !u.isWord c && !isSpace c)

def normalizeIntentText (u : UnicodeData) (text : Str) : Str :=
  let normalized := replaceChar 'ё' 'е' (u.lower (strip text))
  let normalized := (punctuation u).subConst [' '] normalized
  strip (collapseSpaces normalized)

def isContinueIntent (u : UnicodeData) (text : Str) (pendingExists : Bool) :
    Bool :=
  let normalized := normalizeIntentText u text
  if normalized ∈ continueMarkers then true
  else if normalized = [] then false
  else
    let tokens := split normalized
    if tokens.length > maxContinueTokens then false
    else if tokens.any fun token => token ∉ allowedContinueTokens then false
    else if tokens.any fun token => token ∈ continueTokens then true
    else pendingExists &&
      tokens.all fun token => token ∈ affirmationTokens ++ fillerTokens

/-- What is decided when the table does not have the text. -/
def readTokens (pendingExists : Bool) (tokens : List Str) : Bool :=
  if tokens.length > maxContinueTokens then false
  else if tokens.any fun token => token ∉ allowedContinueTokens then false
  else if tokens.any fun token => token ∈ continueTokens then true
  else pendingExists &&
    tokens.all fun token => token ∈ affirmationTokens ++ fillerTokens

theorem isContinueIntent_eq (u : UnicodeData) (text : Str) (pendingExists : Bool) :
    isContinueIntent u text pendingExists =
      if normalizeIntentText u text ∈ continueMarkers then true
      else if normalizeIntentText u text = [] then false
      else readTokens pendingExists (split (normalizeIntentText u text)) := rfl

/-- `[\x00-\x08\x0b\x0c\x0e-\x1f]` -/
def controlCharacter : Regex :=
  .cls fun c =>
    let n := c.toNat
    n ≤ 8 || n == 11 || n == 12 || (14 ≤ n && n ≤ 31)

def sanitizeUserText (text : Str) : Str :=
  let text := controlCharacter.subConst [' '] text
  let text := strip (collapseSpaces text)
  text.take 1200

end AliceSkill
