import Markdown.Regex.Class
import Markdown.Regex.Expression

/-!
# Reading regular expressions

The written form of a regular expression. A character stands for itself unless it is one of
`\ . + * ? ( ) | [ ] { } ^ $`; a closing bracket or brace without an opening one stands for itself
too. An opening brace always begins a counted repetition.

Every step takes at least one character, so that the length of the text bounds the number of steps.
-/

namespace Markdown.Regex

/-! ## Groups -/

/-- The groups that have been opened: how many there are, and the names among them. -/
structure Groups where
  count : Nat := 0
  names : List Text := []

/-- Whether a character may begin the name of a group. -/
def isNameStart (c : Char) : Bool :=
  c == '_' || Unicode.isWordCharacter c && !Unicode.isDecimalDigit c

/-- Whether a character may stand further on in the name of a group. -/
def isNamePart (c : Char) : Bool :=
  Unicode.isWordCharacter c || c == '.' || c == '[' || c == ']'

/-- Read the name of a group up to its closing angle bracket. -/
def readName (groups : Groups) (t : Text) : Option (Text × Text) :=
  let name := t.takeWhile (· != '>')
  match name, t.dropWhile (· != '>') with
  | c :: cs, _ :: rest =>
    if isNameStart c && cs.all isNamePart && !groups.names.contains name then some (name, rest)
    else none
  | _, _ => none

/-- What an opening parenthesis begins. -/
inductive Opening where
  /-- A group that is recorded. -/
  | capture (index : Nat) (groups : Groups)
  /-- A group that is not recorded, under flags of its own. -/
  | plain (flags : Flags)
  /-- Flags for the rest of the enclosing group. -/
  | flags (flags : Flags)

/-- Open the next group that is recorded, which may have a name. -/
def Opening.next (groups : Groups) (name : Option Text) : Opening :=
  .capture (groups.count + 1) ⟨groups.count + 1, name.toList ++ groups.names⟩

/-- What follows an opening parenthesis. There is no looking ahead or behind. -/
def readOpening (flags : Flags) (groups : Groups) : Text → Option (Opening × Text)
  | '?' :: '=' :: _ | '?' :: '!' :: _ | '?' :: '<' :: '=' :: _ | '?' :: '<' :: '!' :: _ => none
  | '?' :: 'P' :: '<' :: t | '?' :: '<' :: t => do
    let (name, t) ← readName groups t
    some (.next groups name, t)
  | '?' :: t => do
    let ((flags, isBare), t) ← readFlags [] true flags t
    match t with
    | ':' :: t => some (.plain flags, t)
    | _ :: t => if isBare then none else some (.flags flags, t)
    | [] => none
  | t => some (.next groups none, t)

/-! ## Sequences and alternatives -/

/-- An item of a sequence. -/
structure Item where
  expr : Expr
  height : Nat := 0
  /-- A repetition mark may follow. -/
  repeatable : Bool := true

/-- A group that is being read: the alternatives that are finished and the items of the current one,
the last first. -/
structure OpenGroup where
  alternatives : List (Nested Expr) := []
  items : List Item := []

namespace OpenGroup

/-- Add an item. -/
def push (g : OpenGroup) (item : Item) : OpenGroup :=
  { g with items := item :: g.items }

/-- Join expressions that stand in a list, the last first. -/
def joinWith (join : Expr → Expr → Expr) : List Expr → Expr
  | [] => .empty
  | e :: es => es.foldl (fun later e => join e later) e

/-- The height of a list. -/
def heightOf (heights : List Nat) : Nat :=
  match heights with
  | [] => 0
  | [h] => h
  | hs => 1 + hs.foldl max 0

/-- The items of the current alternative, one after another. Flags count for the height only. -/
def sequence (g : OpenGroup) : Nested Expr :=
  ⟨joinWith .seq ((g.items.filter (·.repeatable)).map (·.expr)), heightOf (g.items.map (·.height))⟩

/-- Finish the current alternative and begin another. -/
def alternate (g : OpenGroup) : OpenGroup :=
  { alternatives := g.sequence :: g.alternatives }

/-- The expression of the group. -/
def close (g : OpenGroup) : Nested Expr :=
  let all := g.sequence :: g.alternatives
  ⟨joinWith .alt (all.map (·.value)), heightOf (all.map (·.height))⟩

/-- Repeat the last item. -/
def repeatLast (g : OpenGroup) (min : Nat) (max : Option Nat) (greedy : Bool) : Option OpenGroup :=
  match g.items with
  | [] => none
  | item :: items =>
    if item.repeatable then
      some { g with items := ⟨.rep min max greedy item.expr, item.height + 1, true⟩ :: items }
    else none

end OpenGroup

/-- The number of rounds is below this bound. -/
def roundsBound : Nat := Nat.pow 2 32

/-- A number in a counted repetition, with white space around it. -/
def readCount (t : Text) : Option (Nat × Text) :=
  let t := t.dropWhile Unicode.isWhiteSpace
  let digits := t.takeWhile Char.isDigit
  let count := Text.decimal digits
  if digits.isEmpty || roundsBound ≤ count then none
  else some (count, (t.dropWhile Char.isDigit).dropWhile Unicode.isWhiteSpace)

/-- The bounds of a counted repetition, behind its opening brace. -/
def readBounds (t : Text) : Option ((Nat × Option Nat) × Text) := do
  let (min, t) ← readCount t
  match t with
  | '\x7d' :: t => some ((min, some min), t)
  | ',' :: '\x7d' :: t => some ((min, none), t)
  | ',' :: t =>
    let (max, t) ← readCount t
    match t with
    | '\x7d' :: t => if min ≤ max then some ((min, some max), t) else none
    | _ => none
  | _ => none

/-- A repetition mark: the bounds and whether it is greedy. -/
def readRepetition (flags : Flags) (t : Text) : Option (Option (((Nat × Option Nat) × Bool) × Text)) :=
  let bounds : Option (Option ((Nat × Option Nat) × Text)) := match t with
    | '*' :: t => some (some ((0, none), t))
    | '+' :: t => some (some ((1, none), t))
    | '?' :: t => some (some ((0, some 1), t))
    | '\x7b' :: t => some (readBounds t)
    | _ => none
  bounds.map fun read => read.map fun (bounds, t) =>
    match t with
    | '?' :: t => ((bounds, flags.swapGreed), t)
    | t => ((bounds, !flags.swapGreed), t)

/-- A single character, an escape, the dot or an anchor. -/
def readPrimitive (flags : Flags) : Text → Option (Expr × Text)
  | [] => none
  | '\\' :: t => do
    match ← readEscape t with
    | (.char c, t) => some (.set (flags.literal c), t)
    | (.set s, t) => some (.set s, t)
    | (.assert a, t) => some (.assert a, t)
  | '.' :: t => some (.set (if flags.dotAll then .any else .notLineFeed), t)
  | '^' :: t => some (.assert (if flags.multiLine then .lineStart else .textStart), t)
  | '$' :: t => some (.assert (if flags.multiLine then .lineEnd else .textEnd), t)
  | c :: t => some (.set (flags.literal c), t)

/-- Read a group up to its closing parenthesis, which is not taken, or to the end of the text. -/
def readGroup : (fuel : Nat) → Flags → Groups → OpenGroup → Text → Option ((Nested Expr × Groups) × Text)
  | 0, _, _, _, _ => none
  | _ + 1, _, groups, g, [] => some ((g.close, groups), [])
  | fuel + 1, flags, groups, g, c :: t =>
    match readRepetition flags (c :: t) with
    | some none => none
    | some (some (((min, max), greedy), t)) => do
      readGroup fuel flags groups (← g.repeatLast min max greedy) t
    | none =>
      match c with
      | ')' => some ((g.close, groups), c :: t)
      | '|' => readGroup fuel flags groups g.alternate t
      | '[' => do
        let (cls, t) := openClass t
        let (s, t) ← readClass flags fuel cls t
        readGroup fuel flags groups (g.push { expr := .set s.value, height := s.height }) t
      | '(' => do
        match ← readOpening flags groups t with
        | (.flags flags, t) =>
          readGroup fuel flags groups (g.push { expr := .empty, repeatable := false }) t
        | (.plain inner, t) => do
          let ((e, groups), t) ← readGroup fuel inner groups {} t
          match t with
          | ')' :: t =>
            readGroup fuel flags groups (g.push { expr := e.value, height := e.height + 1 }) t
          | _ => none
        | (.capture index groups, t) => do
          let ((e, groups), t) ← readGroup fuel flags groups {} t
          match t with
          | ')' :: t =>
            readGroup fuel flags groups
              (g.push { expr := .group index e.value, height := e.height + 1 }) t
          | _ => none
      | _ => do
        let (e, t) ← readPrimitive flags (c :: t)
        readGroup fuel flags groups (g.push { expr := e }) t

/-- The largest depth of a pattern. -/
def heightLimit : Nat := 250

/-- The expression of a written form, and the number of its groups. -/
def Expr.parse? (t : Text) : Option (Expr × Nat) :=
  match readGroup (t.length + 1) {} {} {} t with
  | some ((e, groups), []) =>
    if e.height ≤ heightLimit && e.value.weight ≤ weightLimit then some (e.value, groups.count)
    else none
  | _ => none

/-- The pattern of a written form, and the number of its groups. -/
def parse? (t : Text) : Option (Regex × Nat) :=
  (Expr.parse? t).map fun (e, groups) => ((e.toRegex false 0).1, groups)

end Markdown.Regex
