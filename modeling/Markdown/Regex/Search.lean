import Markdown.Regex.Basic
import Markdown.Text.Scan
import Std.Data.HashSet

/-!
# Searching with a regular expression

A match is sought by trying, at a given position, the ways through the pattern in order of
preference; the first one that succeeds is the match. What remains of the pattern is passed along as
a continuation, so that a choice made early is reconsidered when a later part fails.

A group keeps the part of the text that its last passage has taken.
-/

namespace Markdown.Regex

universe u

/-- A part of the text, between two positions. -/
structure Capture where
  start : Cursor Char
  stop : Cursor Char

/-- The characters of a captured part. -/
def Capture.text (c : Capture) : Text :=
  c.start.upTo c.stop

/-- The captured parts by group number, the latest first. -/
abbrev Captures := List (Nat × Capture)

/-- The marks that have been passed, each with the number of characters left there. -/
abbrev Passed := Std.HashSet (Nat × Nat)

/-- The result of a search, if there is one, and the marks passed on the way. -/
abbrev Outcome (β : Type u) := Option β × Passed

/-- What is left to be matched behind a part of the pattern. -/
abbrev Continuation (β : Type u) := Cursor Char → Captures → Passed → Outcome β

/-- A part of the pattern, ready to be followed by a continuation. -/
abbrev Matcher (β : Type u) := Cursor Char → Captures → Continuation β → Passed → Outcome β

variable {β : Type u}

/-- The positions reached from a position by taking characters of a set, the farthest first;
`nearer` are the positions before it. -/
def reach (s : CharSet) : (nearer : List (Cursor Char)) → Cursor Char → List (Cursor Char)
  | nearer, ⟨b, [], n, h⟩ => ⟨b, [], n, h⟩ :: nearer
  | nearer, ⟨b, a :: l, n, h⟩ =>
    if s.contains a then reach s (⟨b, a :: l, n, h⟩ :: nearer) (.behind a l n h)
    else ⟨b, a :: l, n, h⟩ :: nearer
termination_by _ c => c.rest.length
decreasing_by simp

/-- Continue at the first of several positions where this succeeds. -/
def firstOf (k : Continuation β) (caps : Captures) :
    List (Cursor Char) → Passed → Outcome β
  | [], passed => (none, passed)
  | c :: cs, passed =>
    match k c caps passed with
    | (none, passed) => firstOf k caps cs passed
    | found => found

/-- Continue at the nearest position reached by taking characters of a set where this succeeds. -/
def nearest (s : CharSet) (caps : Captures) (k : Continuation β) :
    Cursor Char → Passed → Outcome β
  | ⟨b, [], n, h⟩, passed => k ⟨b, [], n, h⟩ caps passed
  | ⟨b, a :: l, n, h⟩, passed =>
    match k ⟨b, a :: l, n, h⟩ caps passed with
    | (none, passed) =>
      if s.contains a then nearest s caps k (.behind a l n h) passed else (none, passed)
    | found => found
termination_by c => c.rest.length
decreasing_by simp

/-- Any number of rounds of `body`, each of which has to move on, and then the continuation. -/
def rounds (greedy : Bool) (body : Matcher β) (k : Continuation β) (c : Cursor Char)
    (caps : Captures) (passed : Passed) : Outcome β :=
  let further := fun passed =>
    body c caps (fun d caps passed =>
      if d.left < c.left then rounds greedy body k d caps passed else (none, passed)) passed
  if greedy then
    match further passed with
    | (none, passed) => k c caps passed
    | found => found
  else
    match k c caps passed with
    | (none, passed) => further passed
    | found => found
termination_by c.left

/-- Match a pattern from a position on and continue behind it. -/
def attempt : Regex → Matcher β
  | empty, c, caps, k, passed => k c caps passed
  | one s, c, caps, k, passed =>
    match c.next? with
    | none => (none, passed)
    | some (a, d) => if s.contains a then k d caps passed else (none, passed)
  | assert a, c, caps, k, passed =>
    if a.holds c.before c.rest.head? then k c caps passed else (none, passed)
  | seq r s, c, caps, k, passed =>
    attempt r c caps (fun d caps passed => attempt s d caps k passed) passed
  | alt r s, c, caps, k, passed =>
    match attempt r c caps k passed with
    | (none, passed) => attempt s c caps k passed
    | found => found
  | run greedy s, c, caps, k, passed =>
    if greedy then firstOf k caps (reach s [] c) passed else nearest s caps k c passed
  | loop greedy r, c, caps, k, passed =>
    rounds greedy (fun c caps k passed => attempt r c caps k passed) k c caps passed
  | group index r, c, caps, k, passed =>
    attempt r c caps (fun d caps passed => k d ((index, ⟨c, d⟩) :: caps) passed) passed
  | mark id, c, caps, k, passed =>
    if passed.contains (id, c.left) then (none, passed)
    else k c caps (passed.insert (id, c.left))

/-- The match of a pattern that begins at a position: its length and the texts of the groups from
one to `groups`. -/
def find (r : Regex) (groups : Nat) : Finder Char (List (Option Text)) := fun c =>
  match attempt r c [] (fun d caps passed => (some (d, caps), passed)) ∅ with
  | (none, _) => none
  | (some (d, caps), _) =>
    some (c.left - d.left,
      (List.range groups).map fun i => (caps.lookup (i + 1)).map Capture.text)

end Markdown.Regex
