import AliceSkill.Formats.Digits
import Mathlib.Data.Option.Basic

/-!
# JSON texts

Values as `json.dumps` writes them and `json.loads` reads them, with the
default options of both.  Fractions and halves of surrogate pairs are left out
of the values; a text that contains one is not read.

`loads_dumps` is the round trip.
-/

namespace Formats

open Text

/-- A JSON value; the members of an object in the order of the text. -/
inductive Json where
  | null
  | bool (b : Bool)
  | int (n : ℤ)
  | str (t : Str)
  | arr (items : List Json)
  | obj (members : List (Str × Json))

/-! ## Writing -/

/-- `\uXXXX` -/
def escapeCode (n : ℕ) : Str := '\\' :: 'u' :: pad 16 4 n

/-- A character between quotes; only ASCII is written as it is. -/
def escapeChar (c : Char) : Str :=
  if c = '"' ∨ c = '\\' then ['\\', c]
  else if c = '\n' then ['\\', 'n']
  else if c = '\r' then ['\\', 'r']
  else if c = '\t' then ['\\', 't']
  else if c.toNat = 8 then ['\\', 'b']
  else if c.toNat = 12 then ['\\', 'f']
  else if 32 ≤ c.toNat ∧ c.toNat ≤ 126 then [c]
  else if c.toNat < 0x10000 then escapeCode c.toNat
  else escapeCode (0xD800 + (c.toNat - 0x10000) / 0x400) ++
    escapeCode (0xDC00 + (c.toNat - 0x10000) % 0x400)

def dumpsStr (t : Str) : Str := '"' :: t.flatMap escapeChar ++ ['"']

def dumpsInt : ℤ → Str
  | .ofNat n => Nat.toDigits 10 n
  | .negSucc n => '-' :: Nat.toDigits 10 (n + 1)

mutual

/-- `json.dumps(value)` -/
def dumps : Json → Str
  | .null => ['n', 'u', 'l', 'l']
  | .bool true => ['t', 'r', 'u', 'e']
  | .bool false => ['f', 'a', 'l', 's', 'e']
  | .int n => dumpsInt n
  | .str t => dumpsStr t
  | .arr [] => ['[', ']']
  | .arr (v :: vs) => '[' :: dumps v ++ dumpsItems vs
  | .obj [] => ['{', '}']
  | .obj ((k, v) :: ms) =>
      '{' :: dumpsStr k ++ ':' :: ' ' :: dumps v ++ dumpsMembers ms

/-- The further items of an array. -/
def dumpsItems : List Json → Str
  | [] => [']']
  | v :: vs => ',' :: ' ' :: dumps v ++ dumpsItems vs

/-- The further members of an object. -/
def dumpsMembers : List (Str × Json) → Str
  | [] => ['}']
  | (k, v) :: ms =>
      ',' :: ' ' :: dumpsStr k ++ ':' :: ' ' :: dumps v ++ dumpsMembers ms

end

/-! ## Reading -/

def isBlank (c : Char) : Bool := c = ' ' || c = '\t' || c = '\n' || c = '\r'

def skipBlanks (t : Str) : Str := t.dropWhile isBlank

/-- The character an escape of one letter stands for. -/
def unescape (c : Char) : Option Char :=
  if c = '"' ∨ c = '\\' ∨ c = '/' then some c
  else if c = 'n' then some '\n'
  else if c = 'r' then some '\r'
  else if c = 't' then some '\t'
  else if c = 'b' then some (Char.ofNat 8)
  else if c = 'f' then some (Char.ofNat 12)
  else none

/-- The rest of a string, up to its closing quote, and what follows it. -/
def scanString : Str → Option (Str × Str)
  | [] => none
  | c :: t =>
      if c = '"' then some ([], t)
      else if c = '\\' then
        match t with
        | [] => none
        | e :: t =>
            if e = 'u' then
              match t with
              | x₁ :: x₂ :: x₃ :: x₄ :: t =>
                  match readDigits 16 [x₁, x₂, x₃, x₄] with
                  | none => none
                  | some n =>
                      if n < 0xD800 ∨ 0xE000 ≤ n then
                        (scanString t).map fun r => (Char.ofNat n :: r.1, r.2)
                      else
                        -- the first half of a pair needs the second one
                        match t with
                        | '\\' :: 'u' :: y₁ :: y₂ :: y₃ :: y₄ :: t =>
                            match readDigits 16 [y₁, y₂, y₃, y₄] with
                            | none => none
                            | some m =>
                                if n < 0xDC00 ∧ 0xDC00 ≤ m ∧ m < 0xE000 then
                                  (scanString t).map fun r =>
                                    (Char.ofNat (0x10000 + (n - 0xD800) * 0x400 +
                                      (m - 0xDC00)) :: r.1, r.2)
                                else none
                        | _ => none
              | _ => none
            else
              match unescape e with
              | none => none
              | some x => (scanString t).map fun r => (x :: r.1, r.2)
      else if c.toNat < 32 then none
      else (scanString t).map fun r => (c :: r.1, r.2)

/-- A number goes on with a fraction or an exponent. -/
def isFraction : Str → Bool
  | '.' :: c :: _ => c.isDigit
  | e :: c :: t =>
      (e = 'e' || e = 'E') && (c.isDigit ||
        (c = '+' || c = '-') && t.head?.any Char.isDigit)
  | _ => false

/-- The digits of a number; after a leading zero there are none. -/
def scanDigits (t : Str) : Option (ℕ × Str) :=
  match leadingDigits t with
  | [] => none
  | c :: ds =>
      let digits := if c = '0' then [c] else c :: ds
      let rest := t.drop digits.length
      if isFraction rest then none
      else some (Nat.ofDigitChars 10 digits 0, rest)

def scanNumber : Str → Option (ℤ × Str)
  | '-' :: t => (scanDigits t).map fun r => (-(r.1 : ℤ), r.2)
  | t => (scanDigits t).map fun r => ((r.1 : ℤ), r.2)

mutual

/-- One value and what follows it.  Every call within another one has taken a
character or is the first one at its place, so that twice the length of the
text is enough fuel. -/
def scanValue : ℕ → Str → Option (Json × Str)
  | 0, _ => none
  | _, [] => none
  | n + 1, c :: t =>
      if c = '"' then (scanString t).map fun r => (.str r.1, r.2)
      else if c = '{' then
        match skipBlanks t with
        | '}' :: t => some (.obj [], t)
        | '"' :: t => (scanMembers n t).map fun r => (.obj r.1, r.2)
        | _ => none
      else if c = '[' then
        match skipBlanks t with
        | ']' :: t => some (.arr [], t)
        | t => (scanItems n t).map fun r => (.arr r.1, r.2)
      else if (c :: t).take 4 = ['n', 'u', 'l', 'l'] then some (.null, t.drop 3)
      else if (c :: t).take 4 = ['t', 'r', 'u', 'e'] then
        some (.bool true, t.drop 3)
      else if (c :: t).take 5 = ['f', 'a', 'l', 's', 'e'] then
        some (.bool false, t.drop 4)
      else (scanNumber (c :: t)).map fun r => (.int r.1, r.2)

/-- The items of an array, of which there is at least one. -/
def scanItems : ℕ → Str → Option (List Json × Str)
  | 0, _ => none
  | n + 1, t =>
      match scanValue n t with
      | none => none
      | some (v, t) =>
          match skipBlanks t with
          | ']' :: t => some ([v], t)
          | ',' :: t =>
              (scanItems n (skipBlanks t)).map fun r => (v :: r.1, r.2)
          | _ => none

/-- The members of an object, the quote of the first name being read. -/
def scanMembers : ℕ → Str → Option (List (Str × Json) × Str)
  | 0, _ => none
  | n + 1, t =>
      match scanString t with
      | none => none
      | some (k, t) =>
          match skipBlanks t with
          | ':' :: t =>
              match scanValue n (skipBlanks t) with
              | none => none
              | some (v, t) =>
                  match skipBlanks t with
                  | '}' :: t => some ([(k, v)], t)
                  | ',' :: t =>
                      match skipBlanks t with
                      | '"' :: t =>
                          (scanMembers n t).map fun r => ((k, v) :: r.1, r.2)
                      | _ => none
                  | _ => none
          | _ => none

end

/-- `json.loads(text)` -/
def loads (t : Str) : Option Json :=
  match scanValue (2 * t.length) (skipBlanks t) with
  | some (v, t) => if skipBlanks t = [] then some v else none
  | none => none

/-! ## Objects as dictionaries -/

/-- `value.get(name)` of a dictionary: the last member of that name. -/
def Json.get? (name : Str) : Json → Option Json
  | .obj members => (members.reverse.find? fun m => m.1 = name).map Prod.snd
  | _ => none

/-! ## Strings are read back -/

theorem scanString_plain {c : Char} (hquote : c ≠ '"') (hback : c ≠ '\\')
    (hc : 32 ≤ c.toNat) (t : Str) :
    scanString (c :: t) = (scanString t).map fun r => (c :: r.1, r.2) := by
  rw [scanString.eq_def]
  simp only [if_neg hquote, if_neg hback, if_neg (Nat.not_lt.mpr hc)]

theorem scanString_escape {e x : Char} (h : unescape e = some x) (he : e ≠ 'u')
    (t : Str) :
    scanString ('\\' :: e :: t) =
      (scanString t).map fun r => (x :: r.1, r.2) := by
  rw [scanString.eq_def]
  simp only [Char.reduceEq, if_false, if_true, if_neg he, h]

theorem scanString_code {n : ℕ} (hn : n < 0x10000)
    (hchar : n < 0xD800 ∨ 0xE000 ≤ n) (t : Str) :
    scanString (escapeCode n ++ t) =
      (scanString t).map fun r => (Char.ofNat n :: r.1, r.2) := by
  have hread : readDigits 16 (pad 16 4 n) = some n :=
    readDigits_pad (Nat.le_refl _) hn
  change readDigits 16 [_, _, _, _] = _ at hread
  change scanString ('\\' :: 'u' :: _ :: _ :: _ :: _ :: t) = _
  rw [scanString, if_neg (by decide), if_pos rfl]
  simp only [if_true, hread, if_pos hchar]

theorem scanString_pair {n m : ℕ} (hn : 0xD800 ≤ n) (hn' : n < 0xDC00)
    (hm : 0xDC00 ≤ m) (hm' : m < 0xE000) (t : Str) :
    scanString (escapeCode n ++ (escapeCode m ++ t)) =
      (scanString t).map fun r =>
        (Char.ofNat (0x10000 + (n - 0xD800) * 0x400 + (m - 0xDC00)) :: r.1, r.2) := by
  have hread : readDigits 16 (pad 16 4 n) = some n :=
    readDigits_pad (Nat.le_refl _) (by omega)
  have hread' : readDigits 16 (pad 16 4 m) = some m :=
    readDigits_pad (Nat.le_refl _) (by omega)
  change readDigits 16 [_, _, _, _] = _ at hread hread'
  change scanString ('\\' :: 'u' :: _ :: _ :: _ :: _ :: '\\' :: 'u' :: _ :: _ :: _ :: _ :: t) = _
  rw [scanString, if_neg (by decide), if_pos rfl]
  have hhalf : ¬(n < 0xD800 ∨ 0xE000 ≤ n) := by omega
  simp only [if_true, hread, if_neg hhalf, hread']
  rw [if_pos ⟨hn', hm, hm'⟩]

theorem scanString_escapeChar (c : Char) (t : Str) :
    scanString (escapeChar c ++ t) =
      (scanString t).map fun r => (c :: r.1, r.2) := by
  have hself : Char.ofNat c.toNat = c := Char.ofNat_toNat c
  rw [escapeChar]
  split_ifs with hq hn hr ht hb hf hp hsmall
  · apply scanString_escape
    · rw [unescape, if_pos (by tauto)]
    · rcases hq with rfl | rfl <;> decide
  · rw [hn]
    exact scanString_escape rfl (by decide) t
  · rw [hr]
    exact scanString_escape rfl (by decide) t
  · rw [ht]
    exact scanString_escape rfl (by decide) t
  · rw [← hself, hb]
    exact scanString_escape rfl (by decide) t
  · rw [← hself, hf]
    exact scanString_escape rfl (by decide) t
  · rw [not_or] at hq
    exact scanString_plain hq.1 hq.2 hp.1 t
  · have hvalid : c.toNat < 0xD800 ∨ 0xE000 ≤ c.toNat := by
      have h := c.valid
      rcases h with h | h
      · exact Or.inl h
      · exact Or.inr h.1
    rw [scanString_code hsmall hvalid, hself]
  · have hmax : c.toNat < 0x110000 := by
      have h := c.valid
      rcases h with h | h
      · exact Nat.lt_trans h (by decide)
      · exact h.2
    rw [List.append_assoc, scanString_pair (by omega) (by omega) (by omega) (by omega)]
    have hcode : 0x10000 + (0xD800 + (c.toNat - 0x10000) / 0x400 - 0xD800) * 0x400 +
        (0xDC00 + (c.toNat - 0x10000) % 0x400 - 0xDC00) = c.toNat := by omega
    rw [hcode, hself]

theorem scanString_escaped (s t : Str) :
    scanString (s.flatMap escapeChar ++ '"' :: t) = some (s, t) := by
  induction s with
  | nil =>
      rw [List.flatMap_nil, List.nil_append, scanString.eq_def]
      simp only [if_true]
  | cons c s ih =>
      rw [List.flatMap_cons, List.append_assoc, scanString_escapeChar, ih]
      rfl

/-! ## Numbers are read back -/

/-- What may follow a value: the end of the text or of something around it. -/
def Closes (t : Str) : Prop := ∀ c ∈ t.head?, c = ',' ∨ c = ']' ∨ c = '}'

theorem closes_nil : Closes [] := by
  intro c hc
  cases hc

theorem closes_dumpsItems (vs : List Json) (t : Str) :
    Closes (dumpsItems vs ++ t) := by
  cases vs with
  | nil => simp [Closes, dumpsItems]
  | cons v vs => simp [Closes, dumpsItems]

theorem closes_dumpsMembers (ms : List (Str × Json)) (t : Str) :
    Closes (dumpsMembers ms ++ t) := by
  cases ms with
  | nil => simp [Closes, dumpsMembers]
  | cons m ms => simp [Closes, dumpsMembers]

theorem isFraction_of_closes {t : Str} (h : Closes t) : isFraction t = false := by
  cases t with
  | nil => rfl
  | cons c t =>
      obtain rfl | rfl | rfl := h c rfl
      all_goals cases t <;> rfl

theorem scanDigits_toDigits (n : ℕ) {t : Str} (ht : Closes t) :
    scanDigits (Nat.toDigits 10 n ++ t) = some (n, t) := by
  have hdigits : ∀ c ∈ Nat.toDigits 10 n, c.isDigit = true := fun c hc =>
    Nat.isDigit_of_mem_toDigits (by omega) (by omega) hc
  have hstop : ∀ c ∈ t.head?, c.isDigit = false := by
    intro c hc
    obtain rfl | rfl | rfl := ht c hc
    all_goals rfl
  have hlead := leadingDigits_append hdigits hstop
  have hvalue : Nat.ofDigitChars 10 (Nat.toDigits 10 n) 0 = n :=
    Nat.ofDigitChars_ten_toDigits
  rw [scanDigits, hlead]
  cases hd : Nat.toDigits 10 n with
  | nil => exact absurd hd Nat.toDigits_ne_nil
  | cons c ds =>
      have hall : (if c = '0' then [c] else c :: ds) = c :: ds := by
        split_ifs with hzero
        · have hn := toDigits_head (by rw [hd, hzero])
          rw [hn, Nat.toDigits_zero, List.cons.injEq] at hd
          rw [← hd.2]
        · rfl
      simp only [hall, List.drop_left, isFraction_of_closes ht, if_false,
        Bool.false_eq_true]
      rw [← hd, hvalue]

theorem scanNumber_dumpsInt (n : ℤ) {t : Str} (ht : Closes t) :
    scanNumber (dumpsInt n ++ t) = some (n, t) := by
  cases n with
  | negSucc n =>
      change (scanDigits (Nat.toDigits 10 (n + 1) ++ t)).map _ = _
      rw [scanDigits_toDigits _ ht]
      rfl
  | ofNat n =>
      have hscan := scanDigits_toDigits n ht
      change scanNumber (Nat.toDigits 10 n ++ t) = _
      cases hd : Nat.toDigits 10 n with
      | nil => exact absurd hd Nat.toDigits_ne_nil
      | cons c ds =>
          have hc : c.isDigit = true :=
            Nat.isDigit_of_mem_toDigits (by omega) (by omega)
              (hd ▸ List.mem_cons_self)
          have hminus : c ≠ '-' := by
            intro h
            rw [h] at hc
            cases hc
          rw [hd] at hscan
          rw [scanNumber, hscan]
          · rfl
          · intro t' ht'
            rw [List.cons_append, List.cons.injEq] at ht'
            exact hminus ht'.1

/-! ## Values are read back -/

theorem dumpsInt_head (n : ℤ) :
    ∃ c t, dumpsInt n = c :: t ∧ (c = '-' ∨ c.isDigit = true) := by
  cases n with
  | negSucc n => exact ⟨_, _, rfl, Or.inl rfl⟩
  | ofNat n =>
      cases hd : Nat.toDigits 10 n with
      | nil => exact absurd hd Nat.toDigits_ne_nil
      | cons c ds =>
          have hc : c.isDigit = true :=
            Nat.isDigit_of_mem_toDigits (by omega) (by omega)
              (hd ▸ List.mem_cons_self)
          exact ⟨c, ds, hd, Or.inr hc⟩

/-- A number does not look like anything else. -/
theorem number_head {c : Char} (h : c = '-' ∨ c.isDigit = true) :
    isBlank c = false ∧
      ∀ d ∈ [']', '"', '{', '[', 'n', 't', 'f'], c ≠ d := by
  have hrange : c.toNat = 45 ∨ 48 ≤ c.toNat ∧ c.toNat ≤ 57 := by
    obtain rfl | hdigit := h
    · exact Or.inl rfl
    · simp only [Char.isDigit, Bool.and_eq_true, decide_eq_true_eq] at hdigit
      exact Or.inr hdigit
  constructor
  · by_contra hblank
    rw [Bool.not_eq_false] at hblank
    simp only [isBlank, Bool.or_eq_true, decide_eq_true_eq] at hblank
    obtain ((rfl | rfl) | rfl) | rfl := hblank
    all_goals exact absurd hrange (by decide)
  · intro d hd heq
    rw [heq] at hrange
    simp only [List.mem_cons, List.not_mem_nil, or_false] at hd
    obtain rfl | rfl | rfl | rfl | rfl | rfl | rfl := hd
    all_goals exact absurd hrange (by decide)

/-- How a value can start. -/
theorem dumps_head (v : Json) :
    ∃ c t, dumps v = c :: t ∧ isBlank c = false ∧ c ≠ ']' := by
  cases v with
  | null => exact ⟨_, _, rfl, by decide⟩
  | bool b => cases b <;> exact ⟨_, _, rfl, by decide⟩
  | str t => exact ⟨_, _, rfl, by decide⟩
  | arr vs => cases vs <;> exact ⟨_, _, rfl, by decide⟩
  | obj ms => cases ms <;> exact ⟨_, _, rfl, by decide⟩
  | int n =>
      obtain ⟨c, t, hn, hc⟩ := dumpsInt_head n
      obtain ⟨hblank, hne⟩ := number_head hc
      exact ⟨c, t, hn, hblank, hne _ List.mem_cons_self⟩

theorem skipBlanks_cons {c : Char} (hc : isBlank c = false) (t : Str) :
    skipBlanks (c :: t) = c :: t :=
  List.dropWhile_cons_of_neg (by simp [hc])

theorem skipBlanks_dumps (v : Json) (t : Str) :
    skipBlanks (dumps v ++ t) = dumps v ++ t := by
  obtain ⟨c, s, hv, hblank, -⟩ := dumps_head v
  rw [hv]
  exact skipBlanks_cons hblank _

theorem length_dumps_pos (v : Json) : 0 < (dumps v).length := by
  obtain ⟨c, t, hv, -⟩ := dumps_head v
  rw [hv]
  exact Nat.succ_pos _

theorem dumpsStr_append (s t : Str) :
    dumpsStr s ++ t = '"' :: (s.flatMap escapeChar ++ '"' :: t) := by
  simp [dumpsStr]

theorem scanValue_str (n : ℕ) (s t : Str) :
    scanValue (n + 1) (dumpsStr s ++ t) = some (.str s, t) := by
  rw [dumpsStr_append, scanValue, if_pos rfl, scanString_escaped]
  rfl

theorem scanValue_int (n : ℕ) (i : ℤ) {t : Str} (ht : Closes t) :
    scanValue (n + 1) (dumpsInt i ++ t) = some (.int i, t) := by
  have hscan := scanNumber_dumpsInt i ht
  obtain ⟨c, s, hs, hc⟩ := dumpsInt_head i
  have hne := (number_head hc).2
  simp only [List.mem_cons, List.not_mem_nil, or_false, forall_eq_or_imp,
    forall_eq] at hne
  rw [hs, List.cons_append] at hscan
  rw [hs, List.cons_append, scanValue, hscan]
  simp only [List.take_succ_cons, List.cons.injEq, hne, false_and, if_false,
    Option.map_some]

theorem scanValue_arr {n : ℕ} {t : Str} {vs : List Json} {r : Str}
    (hblank : skipBlanks t = t) (hne : ∀ s, t ≠ ']' :: s)
    (h : scanItems n t = some (vs, r)) :
    scanValue (n + 1) ('[' :: t) = some (.arr vs, r) := by
  rw [scanValue, if_neg (by decide), if_neg (by decide), if_pos rfl, hblank]
  split
  · exact absurd rfl (hne _)
  · rw [h]
    rfl

theorem scanValue_obj {n : ℕ} {t : Str} {ms : List (Str × Json)} {r : Str}
    (h : scanMembers n t = some (ms, r)) :
    scanValue (n + 1) ('{' :: '"' :: t) = some (.obj ms, r) := by
  rw [scanValue, if_neg (by decide), if_pos rfl,
    skipBlanks_cons (by decide)]
  simp only [h, Option.map_some]

theorem skipBlanks_space (t : Str) : skipBlanks (' ' :: t) = skipBlanks t := rfl

theorem scanItems_more {n : ℕ} {t t' : Str} {v : Json} {vs : List Json}
    {r : Str} (h : scanValue n t = some (v, ',' :: ' ' :: t'))
    (hblank : skipBlanks t' = t') (ht' : scanItems n t' = some (vs, r)) :
    scanItems (n + 1) t = some (v :: vs, r) := by
  rw [scanItems, h]
  change (scanItems n (skipBlanks (' ' :: t'))).map _ = _
  rw [skipBlanks_space, hblank, ht']
  rfl

theorem scanMembers_last {n : ℕ} {t t' : Str} {k : Str} {v : Json} {r : Str}
    (h : scanString t = some (k, ':' :: ' ' :: t'))
    (hblank : skipBlanks t' = t') (ht' : scanValue n t' = some (v, '}' :: r)) :
    scanMembers (n + 1) t = some ([(k, v)], r) := by
  rw [scanMembers, h]
  simp only [skipBlanks_cons (c := ':') (by decide), skipBlanks_space, hblank,
    ht', skipBlanks_cons (c := '}') (by decide)]

theorem scanMembers_more {n : ℕ} {t t' t'' : Str} {k : Str} {v : Json}
    {ms : List (Str × Json)} {r : Str}
    (h : scanString t = some (k, ':' :: ' ' :: t'))
    (hblank : skipBlanks t' = t')
    (ht' : scanValue n t' = some (v, ',' :: ' ' :: '"' :: t''))
    (ht'' : scanMembers n t'' = some (ms, r)) :
    scanMembers (n + 1) t = some ((k, v) :: ms, r) := by
  rw [scanMembers, h]
  simp only [skipBlanks_cons (c := ':') (by decide), skipBlanks_space, hblank,
    ht', skipBlanks_cons (c := ',') (by decide),
    skipBlanks_cons (c := '"') (by decide), ht'', Option.map_some]

mutual

/-- A value that has been written is read back, whatever closes after it. -/
theorem scanValue_dumps : ∀ (v : Json) {n : ℕ} {t : Str},
    (dumps v).length ≤ n → Closes t → scanValue n (dumps v ++ t) = some (v, t)
  | v, 0, _, hn, _ => absurd hn (Nat.not_le.mpr (length_dumps_pos v))
  | .null, n + 1, t, _, _ => rfl
  | .bool true, n + 1, t, _, _ => rfl
  | .bool false, n + 1, t, _, _ => rfl
  | .int i, n + 1, t, _, ht => scanValue_int n i ht
  | .str s, n + 1, t, _, _ => scanValue_str n s t
  | .arr [], n + 1, t, _, _ => rfl
  | .obj [], n + 1, t, _, _ => rfl
  | .arr (v :: vs), n + 1, t, hn, ht => by
      obtain ⟨c, s, hv, -, hc⟩ := dumps_head v
      rw [dumps, List.length_append, List.length_cons] at hn
      have hitems := scanItems_dumps v vs (n := n) (t := t) (by omega)
      rw [dumps, List.cons_append, List.cons_append, List.append_assoc]
      apply scanValue_arr (skipBlanks_dumps v _) _ hitems
      intro s' hs'
      rw [hv, List.cons_append, List.cons.injEq] at hs'
      exact hc hs'.1
  | .obj ((k, v) :: ms), n + 1, t, hn, ht => by
      have hmembers := scanMembers_dumps k v ms (n := n) (t := t) (by
        simp only [dumps, List.length_append, List.length_cons] at hn
        omega)
      rw [dumps]
      simp only [List.cons_append, List.append_assoc, dumpsStr_append]
      exact scanValue_obj hmembers

theorem scanItems_dumps : ∀ (v : Json) (vs : List Json) {n : ℕ} {t : Str},
    (dumps v).length + (dumpsItems vs).length ≤ n →
      scanItems n (dumps v ++ (dumpsItems vs ++ t)) = some (v :: vs, t)
  | v, _, 0, _, hn => absurd hn (by have := length_dumps_pos v; omega)
  | v, [], n + 1, t, hn => by
      have hlen : 0 < (dumpsItems []).length := Nat.succ_pos 0
      have hv := scanValue_dumps v (n := n) (by omega) (closes_dumpsItems [] t)
      rw [scanItems, hv]
      rfl
  | v, w :: ws, n + 1, t, hn => by
      have hpos := length_dumps_pos v
      simp only [dumpsItems, List.length_append, List.length_cons] at hn
      have hv := scanValue_dumps v (n := n) (by omega)
        (closes_dumpsItems (w :: ws) t)
      have hws := scanItems_dumps w ws (n := n) (t := t) (by omega)
      simp only [dumpsItems, List.cons_append, List.append_assoc] at hv ⊢
      exact scanItems_more hv (skipBlanks_dumps w _) hws

theorem scanMembers_dumps : ∀ (k : Str) (v : Json) (ms : List (Str × Json))
    {n : ℕ} {t : Str},
    (dumps v).length + (dumpsMembers ms).length ≤ n →
      scanMembers n (k.flatMap escapeChar ++ '"' :: ':' :: ' ' ::
        (dumps v ++ (dumpsMembers ms ++ t))) = some ((k, v) :: ms, t)
  | _, v, _, 0, _, hn => absurd hn (by have := length_dumps_pos v; omega)
  | k, v, [], n + 1, t, hn => by
      simp only [dumpsMembers, List.length_cons, List.length_nil] at hn
      have hv := scanValue_dumps v (n := n) (by omega)
        (closes_dumpsMembers [] t)
      exact scanMembers_last (scanString_escaped k _) (skipBlanks_dumps v _) hv
  | k, v, (k', w) :: ms, n + 1, t, hn => by
      have hpos := length_dumps_pos v
      simp only [dumpsMembers, List.length_append, List.length_cons] at hn
      have hv := scanValue_dumps v (n := n) (by omega)
        (closes_dumpsMembers ((k', w) :: ms) t)
      have hms := scanMembers_dumps k' w ms (n := n) (t := t) (by omega)
      simp only [dumpsMembers, List.cons_append, List.append_assoc,
        dumpsStr_append] at hv ⊢
      exact scanMembers_more (scanString_escaped k _) (skipBlanks_dumps v _) hv
        hms

end

/-- What has been written is read back. -/
theorem loads_dumps (v : Json) : loads (dumps v) = some v := by
  have hblank := skipBlanks_dumps v []
  have hscan := scanValue_dumps v (n := 2 * (dumps v).length) (by omega)
    closes_nil
  rw [List.append_nil] at hblank hscan
  rw [loads, hblank, hscan]
  rfl

end Formats
