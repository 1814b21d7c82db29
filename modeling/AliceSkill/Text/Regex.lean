import Mathlib.Data.List.DropRight

/-!
# Backtracking regular expressions

A pattern is matched at a position of the subject by listing, in order of
preference, every position at which the match can end.  The head of that list
is what a backtracking engine reports: alternatives are tried left to right, a
greedy repetition prefers one more iteration, a lazy one prefers to stop.

`Regex.pieces` cuts a subject into the characters left alone and the leftmost
non-overlapping matches; substitution and iteration over matches are both read
off from it.  Patterns that match the empty string are not cut at.
-/

namespace Text

/-- Character strings, as sequences of code points. -/
abbrev Str := List Char

/-- A position in a subject: the text before it, nearest character first, the
text after it, and the groups captured so far. -/
structure Cursor where
  before : Str
  after : Str
  groups : List (ℕ × Str)

namespace Cursor

/-- The text between an earlier position and this one. -/
def since (c start : Cursor) : Str :=
  start.after.take (start.after.length - c.after.length)

/-- The text captured by group `n`, empty when it took no part. -/
def group (c : Cursor) (n : ℕ) : Str :=
  (c.groups.lookup n).getD []

end Cursor

inductive Regex where
  /-- The empty pattern. -/
  | eps
  /-- One character of a class. -/
  | cls (p : Char → Bool)
  | seq (r s : Regex)
  | alt (r s : Regex)
  /-- `r{min,max}`, or its lazy form. -/
  | rep (greedy : Bool) (min : ℕ) (max : Option ℕ) (r : Regex)
  | group (n : ℕ) (r : Regex)
  /-- `^` -/
  | bos
  /-- `$`: the end, or just before a final line break. -/
  | eos

namespace Regex

/-- The pattern of a literal text. -/
def lit : Str → Regex
  | [] => eps
  | c :: cs => seq (cls (· == c)) (lit cs)

/-- `r+` -/
def plus (r : Regex) : Regex := rep true 1 none r

/-- `r*` -/
def star (r : Regex) : Regex := rep true 0 none r

/-- `r+?` -/
def lazyPlus (r : Regex) : Regex := rep false 1 none r

/-- `r*?` -/
def lazyStar (r : Regex) : Regex := rep false 0 none r

/-- Repeat `m`.  An iteration beyond the required ones has to consume
something, so `fuel` above the length of the rest is never used up. -/
def iterate (m : Cursor → List Cursor) (greedy : Bool) :
    ℕ → ℕ → Option ℕ → Cursor → List Cursor
  | 0, _, _, c => [c]
  | fuel + 1, min + 1, max, c =>
      (m c).flatMap fun d => iterate m greedy fuel min (max.map (· - 1)) d
  | fuel + 1, 0, max, c =>
      if max = some 0 then [c]
      else
        let more := ((m c).filter fun d =>
            decide (d.after.length < c.after.length)).flatMap fun d =>
          iterate m greedy fuel 0 (max.map (· - 1)) d
        if greedy then more ++ [c] else c :: more

/-- Where a match of the pattern starting at `c` can end, preferred first. -/
def ends : Regex → Cursor → List Cursor
  | eps, c => [c]
  | cls p, c =>
      match c.after with
      | ch :: rest => if p ch then [⟨ch :: c.before, rest, c.groups⟩] else []
      | [] => []
  | seq r s, c => (r.ends c).flatMap s.ends
  | alt r s, c => r.ends c ++ s.ends c
  | rep greedy min max r, c =>
      iterate r.ends greedy (min + c.after.length + 1) min max c
  | group n r, c =>
      (r.ends c).map fun d => { d with groups := (n, d.since c) :: d.groups }
  | bos, c => if c.before.isEmpty then [c] else []
  | eos, c => if c.after = [] ∨ c.after = ['\n'] then [c] else []

/-- A non-empty match at the given position, if there is one. -/
def matchAt (r : Regex) (before after : Str) : Option Cursor :=
  match (r.ends ⟨before, after, []⟩).head? with
  | some c => if c.after.length < after.length then some c else none
  | none => none

/-- Cut the rest of a subject into untouched characters and matches. -/
def cut (r : Regex) : ℕ → Str → Str → List (Char ⊕ Cursor)
  | 0, _, _ => []
  | fuel + 1, before, after =>
      match r.matchAt before after with
      | some c => .inr c :: cut r fuel c.before c.after
      | none =>
          match after with
          | [] => []
          | ch :: rest => .inl ch :: cut r fuel (ch :: before) rest

/-- The untouched characters and the matches of a subject, left to right. -/
def pieces (r : Regex) (t : Str) : List (Char ⊕ Cursor) :=
  r.cut (t.length + 1) [] t

/-- The matches of a subject, left to right. -/
def finditer (r : Regex) (t : Str) : List Cursor :=
  (r.pieces t).filterMap Sum.getRight?

/-- Replace every match. -/
def sub (r : Regex) (repl : Cursor → Str) (t : Str) : Str :=
  (r.pieces t).flatMap fun
    | .inl ch => [ch]
    | .inr c => repl c

/-- Replace every match by a fixed text. -/
def subConst (r : Regex) (repl : Str) (t : Str) : Str :=
  r.sub (fun _ => repl) t

end Regex

end Text
