import Markdown.Regex.CharSet

/-!
# Regular expressions

The patterns that the search runs. A repeated pattern is either a run of characters from one set or
a loop over an arbitrary pattern; a loop never takes a further round that would not move on.

A mark is a place that a search passes at most once at each position. Reaching it there again, the
search gives up the attempt, which can only repeat what has already failed. Marks keep searches over
nested loops short, and they settle which way through a loop with empty rounds is preferred.
-/

namespace Markdown

namespace Regex

/-- A condition on a position, seen through the characters on both sides. -/
inductive Assertion where
  | textStart
  | textEnd
  | lineStart
  | lineEnd
  | wordBoundary
  | noWordBoundary
  | wordStart
  | wordEnd
  /-- No word character stands before the position. -/
  | noWordBefore
  /-- No word character stands after the position. -/
  | noWordAfter
deriving DecidableEq, Repr

/-- Whether there is a character and it is a word character. -/
def isWord (c : Option Char) : Bool :=
  c.any Unicode.isWordCharacter

/-- Whether a condition holds between the characters `before` and `after`. -/
def Assertion.holds (before after : Option Char) : Assertion → Bool
  | textStart => before.isNone
  | textEnd => after.isNone
  | lineStart => before.all (· == '\n')
  | lineEnd => after.all (· == '\n')
  | wordBoundary => isWord before != isWord after
  | noWordBoundary => isWord before == isWord after
  | wordStart => !isWord before && isWord after
  | wordEnd => isWord before && !isWord after
  | noWordBefore => !isWord before
  | noWordAfter => !isWord after

end Regex

/-- A regular expression. Alternatives are tried from left to right; a greedy repetition tries a
further round before it stops, the others stop before they try a further round. -/
inductive Regex where
  | empty
  /-- One character of a set. -/
  | one (s : Regex.CharSet)
  | assert (a : Regex.Assertion)
  | seq (r s : Regex)
  | alt (r s : Regex)
  /-- Any number of characters of a set. -/
  | run (greedy : Bool) (s : Regex.CharSet)
  /-- Any number of rounds of a pattern. -/
  | loop (greedy : Bool) (r : Regex)
  /-- A pattern whose match is recorded under a number. -/
  | group (index : Nat) (r : Regex)
  /-- A place passed at most once at each position. -/
  | mark (id : Nat)
deriving DecidableEq, Repr

namespace Regex

/-- The patterns of a list, one after another. -/
def seqs : List Regex → Regex
  | [] => empty
  | [r] => r
  | r :: rs => seq r (seqs rs)

/-- A character standing for itself. -/
def char (c : Char) : Regex := one (.single c)

/-- A text standing for itself. -/
def text (t : List Char) : Regex := seqs (t.map char)

/-- At least one character of a set. -/
def run1 (greedy : Bool) (s : CharSet) : Regex := seq (one s) (run greedy s)

/-- At least one round of a pattern. -/
def loop1 (greedy : Bool) (r : Regex) : Regex := seq r (loop greedy r)

/-- A pattern or nothing. -/
def optional (greedy : Bool) (r : Regex) : Regex :=
  if greedy then alt r empty else alt empty r

end Regex

end Markdown
