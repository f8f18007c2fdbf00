import Markdown.Regex.Basic

/-!
# Expressions

A regular expression as it is written, with counted repetitions, and the pattern that the search
runs for it. Counted repetitions are written out: `e{2,4}` becomes two copies of `e` and then
`(e(e)?)?`.

The choices inside a repeated pattern are marked, and so are the ends of its rounds. Where a round
may be empty, the first one may be, and no later one.
-/

namespace Markdown.Regex

/-- A regular expression as it is written. -/
inductive Expr where
  | empty
  | set (s : CharSet)
  | assert (a : Assertion)
  | seq (e f : Expr)
  | alt (e f : Expr)
  /-- From `min` to `max` rounds, any number from `min` on if there is no `max`. -/
  | rep (min : Nat) (max : Option Nat) (greedy : Bool) (e : Expr)
  | group (index : Nat) (e : Expr)
deriving DecidableEq, Repr

namespace Expr

/-- Whether the expression may match without taking a character. -/
def nullable : Expr → Bool
  | empty | assert _ => true
  | set _ => false
  | seq e f => e.nullable && f.nullable
  | alt e f => e.nullable || f.nullable
  | rep min _ _ e => min == 0 || e.nullable
  | group _ e => e.nullable

/-- Whether the expression never takes a character. -/
def zeroWidth : Expr → Bool
  | empty | assert _ => true
  | set _ => false
  | seq e f | alt e f => e.zeroWidth && f.zeroWidth
  | rep _ max _ e => max == some 0 || e.zeroWidth
  | group _ e => e.zeroWidth

/-! ## Size -/

end Expr

/-- An estimate of the bytes that a set takes in a compiled pattern, where it is held as the UTF-8
forms of its members. -/
def CharSet.weight : CharSet → Nat
  | empty => 32
  | range _ hi => if hi.toNat < 0x80 then 40 else 160
  | decimalDigit => 3500
  | whiteSpace => 700
  | wordCharacter => 45000
  | union s t | inter s t => s.weight + t.weight
  | compl s => s.weight + 320
  | anyCase s => 2 * s.weight

/-- An estimate of the bytes that an expression takes in a compiled pattern. -/
def Expr.weight : Expr → Nat
  | empty | assert _ => 32
  | set s => s.weight
  | seq e f => e.weight + f.weight
  | alt e f => e.weight + f.weight + 40
  | rep min none _ e => Nat.max min 1 * e.weight + 40
  | rep min (some max) _ e => max * e.weight + (max - min) * 40
  | group _ e => e.weight + 64

/-- The largest weight of an expression that is accepted as a pattern. -/
def weightLimit : Nat := 10 * Nat.pow 2 20

/-! ## From expressions to patterns -/

/-- The number of the next mark. -/
abbrev Marking := StateM Nat

/-- A new mark. -/
def freshMark : Marking Regex :=
  fun n => (mark n, n + 1)

/-- A choice, behind a new mark if it is to be marked. -/
def choice (marked : Bool) (r : Regex) : Marking Regex := do
  if marked then return seq (← freshMark) r else return r

/-- Several copies of a pattern, each with marks of its own. -/
def copies (body : Marking Regex) : Nat → Marking (List Regex)
  | 0 => return []
  | n + 1 => return (← body) :: (← copies body n)

/-- Up to `n + 1` rounds of a pattern, each inside the option of the one before it. -/
def optionals (marked greedy : Bool) (body : Marking Regex) : Nat → Marking Regex
  | 0 => do choice marked (optional greedy (← body))
  | n + 1 => do
    let first ← body
    let others ← optionals marked greedy body n
    choice marked (optional greedy (seq first others))

/-- At least one round of a pattern. A mark behind the round keeps the search from ending two rounds
at one position. -/
def loopMarked1 (greedy : Bool) (body : Marking Regex) : Marking Regex := do
  return loop1 greedy (seq (← body) (← freshMark))

/-- Any number of rounds of a pattern. -/
def loopMarked (greedy nullable : Bool) (body : Marking Regex) : Marking Regex := do
  let entry ← freshMark
  if nullable then
    return seq entry (optional greedy (← loopMarked1 greedy body))
  else
    return seq entry (loop greedy (seq (← body) entry))

/-- A repetition of a pattern, from `min` to `max` rounds. -/
def repetition (marked greedy nullable : Bool) (body : Marking Regex) (min : Nat) :
    Option Nat → Marking Regex
  | none =>
    if min = 0 then loopMarked greedy nullable body
    else return seqs ((← copies body (min - 1)) ++ [← loopMarked1 greedy body])
  | some max => do
    let first ← copies body min
    if max ≤ min then return seqs first
    else return seqs (first ++ [← optionals marked greedy body (max - min - 1)])

/-- The pattern of an expression; its choices are marked if `marked` holds. -/
def Expr.toRegex (marked : Bool) : Expr → Marking Regex
  | empty => return .empty
  | set s => return one s
  | assert a => return .assert a
  | seq e f => return .seq (← e.toRegex marked) (← f.toRegex marked)
  | alt e f => do choice marked (.alt (← e.toRegex marked) (← f.toRegex marked))
  | group index e => return .group index (← e.toRegex marked)
  | rep min max greedy e =>
    match e, marked, max with
    | set s, false, none => return seqs (List.replicate min (one s) ++ [run greedy s])
    | set s, false, some max => repetition false greedy false (return one s) min (some max)
    | e, marked, max =>
      -- More than one round of an expression that takes no character adds nothing.
      let min := if e.zeroWidth then Nat.min min 1 else min
      let max := if e.zeroWidth then some (Nat.min (max.getD 1) 1) else max
      let repeated := max.all (1 < ·)
      repetition (marked || repeated) greedy e.nullable (e.toRegex (marked || repeated)) min max

end Markdown.Regex
