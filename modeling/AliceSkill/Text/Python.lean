import AliceSkill.Text.Regex

/-!
# String operations

The operations of Python's `str` that the skill uses, on lists of code points.
White space is fixed by the language; which code points are letters or digits
and what lower case is come from the Unicode database of the interpreter,
which differs between versions and is therefore a parameter.
-/

namespace Text

/-- What the interpreter takes from its Unicode database. -/
structure UnicodeData where
  /-- `str.isalnum` of one code point. -/
  isAlnum : Char → Bool
  /-- `str.lower` -/
  lower : Str → Str

/-- `str.isspace` of one code point; also the class `\s` of patterns. -/
def isSpace (c : Char) : Bool :=
  let n := c.toNat
  (9 ≤ n && n ≤ 13) || (28 ≤ n && n ≤ 32) || n == 0x85 || n == 0xA0 ||
    n == 0x1680 || (0x2000 ≤ n && n ≤ 0x200A) || n == 0x2028 || n == 0x2029 ||
    n == 0x202F || n == 0x205F || n == 0x3000

/-- The class `\w` of patterns. -/
def UnicodeData.isWord (u : UnicodeData) (c : Char) : Bool :=
  u.isAlnum c || c == '_'

/-- `text.lstrip(chars)`, the characters given by their class. -/
def lstripBy (p : Char → Bool) (t : Str) : Str := t.dropWhile p

/-- `text.rstrip(chars)` -/
def rstripBy (p : Char → Bool) (t : Str) : Str := t.rdropWhile p

/-- `text.strip(chars)` -/
def stripBy (p : Char → Bool) (t : Str) : Str := rstripBy p (lstripBy p t)

/-- `text.strip()` -/
def strip (t : Str) : Str := stripBy isSpace t

/-- The characters listed in a text, as the argument of a strip. -/
def oneOf (chars : String) (c : Char) : Bool := chars.toList.contains c

/-- `text.rfind(c)`: the last index of a character, `-1` when absent. -/
def rfind (c : Char) : Str → ℤ
  | [] => -1
  | d :: t => if 0 ≤ rfind c t then rfind c t + 1 else if d = c then 0 else -1

/-- `text.replace(c, "")` -/
def remove (c : Char) (t : Str) : Str := t.filter (· != c)

/-- `text.replace(c, d)` for single characters. -/
def replaceChar (c d : Char) (t : Str) : Str :=
  t.map fun x => if x = c then d else x

/-- `text.replace(cc, "")` for a doubled character: pairs go left to right. -/
def removePairs (c : Char) : Str → Str
  | x :: y :: t =>
      if x = c ∧ y = c then removePairs c t else x :: removePairs c (y :: t)
  | t => t

/-- The last of several kinds of characters. -/
def rfindAny (chars : List Char) (t : Str) : ℤ :=
  chars.foldl (fun m c => max m (rfind c t)) (-1)

/-- `text.split()` -/
def split (t : Str) : List Str :=
  (t.splitOnP isSpace).filter (· ≠ [])

/-- `sep.join(parts)` -/
def join (sep : Str) (parts : List Str) : Str := sep.intercalate parts

/-- `\s+` -/
def spaces : Regex := .plus (.cls isSpace)

/-- `re.sub(r"\s+", " ", text)` -/
def collapseSpaces (t : Str) : Str := spaces.subConst [' '] t

/-- A database that knows ASCII and the Cyrillic alphabet. -/
def UnicodeData.cyrillic : UnicodeData where
  isAlnum c := c.isAlphanum || (0x400 ≤ c.toNat && c.toNat ≤ 0x45F)
  lower := List.map fun c =>
    if 0x410 ≤ c.toNat ∧ c.toNat ≤ 0x42F then Char.ofNat (c.toNat + 32)
    else if 0x400 ≤ c.toNat ∧ c.toNat ≤ 0x40F then Char.ofNat (c.toNat + 80)
    else c.toLower

end Text
