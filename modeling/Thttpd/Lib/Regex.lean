/-
Regular expressions that are matched by backtracking.

An expression is tried at the front of a text, and the ways it can match come in an order:
the first alternative before the second, a greedy repetition with the longest run first and
a lazy one with the shortest.  `rests` lists what is left of the text after each of them,
and the match is the first.
-/
import Thttpd.Lib.Rewrite
import Thttpd.Lib.Text

namespace Regex

open Text

/-- Expressions as far as a repetition is of single characters. -/
inductive Re where
  | lit (s : Str)
  | cls (p : Char → Bool)
  | seq (a b : Re)
  | alt (a b : Re)
  /-- `[..]*`. -/
  | many (p : Char → Bool)
  /-- `[..]*?`. -/
  | few (p : Char → Bool)
  /-- `(?=..)`. -/
  | ahead (r : Re)
  /-- `$`, at the end and before a last line feed. -/
  | eol

/-- `[..]+`. -/
def Re.plus (p : Char → Bool) : Re := .seq (.cls p) (.many p)

/-- What is left after a run of characters, the longest run first. -/
def manyRests (p : Char → Bool) : Str → List Str
  | [] => [[]]
  | c :: s => if p c then manyRests p s ++ [c :: s] else [c :: s]

/-- The same, the shortest run first. -/
def fewRests (p : Char → Bool) : Str → List Str
  | [] => [[]]
  | c :: s => (c :: s) :: if p c then fewRests p s else []

namespace Re

/-- What is left of a text after each way an expression matches at its front. -/
def rests : Re → Str → List Str
  | lit w, s => if w.isPrefixOf s then [s.drop w.length] else []
  | cls _, [] => []
  | cls p, c :: s => if p c then [s] else []
  | seq a b, s => (a.rests s).flatMap b.rests
  | alt a b, s => a.rests s ++ b.rests s
  | many p, s => manyRests p s
  | few p, s => fewRests p s
  | ahead r, s => if (r.rests s).isEmpty then [] else [s]
  | eol, s => if s = [] ∨ s = ['\n'] then [s] else []

end Re

/-- A pattern that begins with a literal text, so that no match is empty. -/
structure Pattern where
  head : Str
  tail : Re
  head_ne : head ≠ []

namespace Pattern

/-- What a match at the front of a text leaves of it. -/
def match? (p : Pattern) (s : Str) : Option Str :=
  if p.head.isPrefixOf s then (p.tail.rests (s.drop p.head.length)).head? else none

/-- `sub` of a pattern with a literal replacement. -/
def rule (p : Pattern) (new : Str) : Rewrite.Rule Char := fun s => (p.match? s).map fun rest => (new, rest)

/-- Replace every match, from left to right. -/
def sub (p : Pattern) (new s : Str) : Str := Rewrite.run (p.rule new) s

end Pattern

/-! ### The first match -/

theorem head?_manyRests (p : Char → Bool) (s : Str) : (manyRests p s).head? = some (s.dropWhile p) := by
  induction s with
  | nil => rfl
  | cons c s ih =>
      rw [manyRests]
      by_cases hc : p c = true
      · rw [if_pos hc, List.head?_append, ih, List.dropWhile_cons_of_pos hc]
        rfl
      · rw [if_neg hc, List.dropWhile_cons_of_neg hc]
        rfl

/-- A greedy run goes as far as it can. -/
theorem head?_rests_plus (p : Char → Bool) (s : Str) :
    ((Re.plus p).rests s).head? = if (s.takeWhile p).isEmpty then none else some (s.dropWhile p) := by
  cases s with
  | nil => rfl
  | cons c s =>
      show (List.flatMap _ (if p c then [s] else [])).head? = _
      by_cases hc : p c = true
      · rw [if_pos hc, List.flatMap_singleton, List.takeWhile_cons_of_pos hc,
          List.dropWhile_cons_of_pos hc]
        exact head?_manyRests p s
      · rw [if_neg hc, List.takeWhile_cons_of_neg hc]
        rfl

/--
A lazy run before a lookahead goes to the first place where that holds, if the class
lets it pass every other.
-/
theorem head?_rests_few {p stop : Char → Bool} {r : Re}
    (hstop : ∀ c s, (r.rests (c :: s)).isEmpty = !stop c) (hend : (r.rests []).isEmpty = false)
    (hpass : ∀ c, stop c = false → p c = true) (s : Str) :
    ((Re.seq (.few p) (.ahead r)).rests s).head? = some (s.dropWhile fun c => !stop c) := by
  show ((fewRests p s).flatMap (Re.ahead r).rests).head? = _
  induction s with
  | nil =>
      show ((if (r.rests []).isEmpty then [] else [[]]) ++ []).head? = some []
      rw [hend]
      rfl
  | cons c s ih =>
      rw [fewRests, List.flatMap_cons]
      show ((if (r.rests (c :: s)).isEmpty then [] else [c :: s]) ++ _).head? = _
      rw [hstop]
      by_cases hc : stop c = true
      · rw [List.dropWhile_cons_of_neg (by simp [hc])]
        simp [hc]
      · have hfalse : stop c = false := by simpa using hc
        rw [List.dropWhile_cons_of_pos (by simp [hfalse]), hfalse, if_pos (hpass c hfalse)]
        exact ih

end Regex
