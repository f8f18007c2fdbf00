import Markdown.Regex.Escape
import Markdown.Regex.Flags

/-!
# Classes

Sets of characters in brackets: characters, ranges, escapes, named sets and further classes, of
which a hat takes the complement. Two halves of a class may be joined by `&&` for what they share,
`--` for what only the first has, and `~~` for what only one of them has; the operations are applied
from left to right.
-/

namespace Markdown.Regex

/-- A part of a pattern and the depth to which its brackets, repetitions and lists are nested. -/
structure Nested (α : Type) where
  value : α
  height : Nat

/-- The ranges of a character as a set. -/
def ranges (rs : List (Char × Char)) : CharSet :=
  .unions (rs.map fun (lo, hi) => .range lo hi)

/-- The sets of ASCII characters that have a name inside a class. -/
def namedSets : List (String × CharSet) :=
  [("alnum", ranges [('0', '9'), ('A', 'Z'), ('a', 'z')]),
   ("alpha", ranges [('A', 'Z'), ('a', 'z')]),
   ("ascii", .range '\x00' '\x7f'),
   ("blank", ranges [('\t', '\t'), (' ', ' ')]),
   ("cntrl", ranges [('\x00', '\x1f'), ('\x7f', '\x7f')]),
   ("digit", .range '0' '9'),
   ("graph", .range '!' '~'),
   ("lower", .range 'a' 'z'),
   ("print", .range ' ' '~'),
   ("punct", ranges [('!', '/'), (':', '@'), ('[', '\x60'), ('\x7b', '~')]),
   ("space", ranges [('\t', '\r'), (' ', ' ')]),
   ("upper", .range 'A' 'Z'),
   ("word", ranges [('0', '9'), ('A', 'Z'), ('_', '_'), ('a', 'z')]),
   ("xdigit", ranges [('0', '9'), ('A', 'F'), ('a', 'f')])]

/-- A named set, read behind its opening bracket: `:name:]` or `:^name:]`. -/
def readNamedSet : Text → Option (CharSet × Text)
  | ':' :: t =>
    let (negated, t) := match t with
      | '^' :: t => (true, t)
      | t => (false, t)
    match t.dropWhile (· != ':') with
    | ':' :: ']' :: rest => do
      let s ← namedSets.lookup (String.ofList (t.takeWhile (· != ':')))
      some (if negated then .compl s else s, rest)
    | _ => none
  | _ => none

/-- What joins the two halves of a class. -/
inductive ClassOp where
  | inter
  | diff
  | symmDiff

/-- The set that an operation makes of its two halves. -/
def ClassOp.apply : ClassOp → CharSet → CharSet → CharSet
  | inter => .inter
  | diff => .diff
  | symmDiff => .symmDiff

/-- One end of a range, or a set. -/
def readClassAtom : Text → Option (Escape × Text)
  | [] => none
  | '\\' :: t => readEscape t
  | c :: t => some (.char c, t)

/-- An atom that stands alone in a class. -/
def Escape.toSet? : Escape → Option CharSet
  | char c => some (.single c)
  | set s => some s
  | assert _ => none

/-- A member of a class: an atom or a range. A hyphen before the closing bracket or before another
hyphen makes no range. -/
def readClassItem (t : Text) : Option (CharSet × Text) := do
  let (first, t) ← readClassAtom t
  match t with
  | '-' :: c :: rest =>
    if c == ']' || c == '-' then some (← first.toSet?, t)
    else
      match first, ← readClassAtom (c :: rest) with
      | .char lo, (.char hi, rest) => if lo ≤ hi then some (.range lo hi, rest) else none
      | _, _ => none
  | _ => some (← first.toSet?, t)

/-- A class that is being read: the half before an operation, and the members since, last first. -/
structure OpenClass where
  negated : Bool := false
  half : Option (ClassOp × Nested CharSet) := none
  items : List (Nested CharSet) := []

namespace OpenClass

/-- Add a member. -/
def push (cls : OpenClass) (s : CharSet) (height : Nat := 0) : OpenClass :=
  { cls with items := ⟨s, height⟩ :: cls.items }

/-- The members since the last operation. -/
def union (cls : OpenClass) : Nested CharSet :=
  match cls.items with
  | [item] => item
  | items =>
    ⟨.unions (items.map (·.value)).reverse,
      if items.isEmpty then 0 else 1 + (items.map (·.height)).foldl max 0⟩

/-- The set before closing: the half before the last operation joined with the members since. -/
def joined (cls : OpenClass) (flags : Flags) : Nested CharSet :=
  match cls.half with
  | none => cls.union
  | some (op, lhs) =>
    let rhs := cls.union
    ⟨op.apply (flags.cased lhs.value) (flags.cased rhs.value), 1 + max lhs.height rhs.height⟩

/-- Make what has been read the first half of an operation. -/
def operate (cls : OpenClass) (flags : Flags) (op : ClassOp) : OpenClass :=
  { cls with half := some (op, cls.joined flags), items := [] }

/-- The set of a class; case variants come in before the set is complemented. -/
def close (cls : OpenClass) (flags : Flags) : Nested CharSet :=
  let ⟨s, height⟩ := cls.joined flags
  let s := flags.cased s
  ⟨if cls.negated then .compl s else s, height + 1⟩

end OpenClass

/-- The start of a class behind its bracket: whether it is negated, and the hyphens, or else the
closing bracket, that stand for themselves there. -/
def openClass (t : Text) : OpenClass × Text :=
  let (negated, t) := match t with
    | '^' :: t => (true, t)
    | t => (false, t)
  let hyphens := t.takeWhile (· == '-')
  let cls := hyphens.foldl (fun cls c => cls.push (.single c)) { negated }
  match hyphens, t.dropWhile (· == '-') with
  | [], ']' :: t => (cls.push (.single ']'), t)
  | _, t => (cls, t)

/-- Read a class up to its closing bracket. -/
def readClass (flags : Flags) : (fuel : Nat) → OpenClass → Text → Option (Nested CharSet × Text)
  | 0, _, _ => none
  | _, _, [] => none
  | _ + 1, cls, ']' :: t => some (cls.close flags, t)
  | fuel + 1, cls, '[' :: t =>
    match readNamedSet t with
    | some (s, t) => readClass flags fuel (cls.push s) t
    | none => do
      let (inner, t) := openClass t
      let (s, t) ← readClass flags fuel inner t
      readClass flags fuel (cls.push s.value s.height) t
  | fuel + 1, cls, '&' :: '&' :: t => readClass flags fuel (cls.operate flags .inter) t
  | fuel + 1, cls, '-' :: '-' :: t => readClass flags fuel (cls.operate flags .diff) t
  | fuel + 1, cls, '~' :: '~' :: t => readClass flags fuel (cls.operate flags .symmDiff) t
  | fuel + 1, cls, t => do
    let (s, t) ← readClassItem t
    readClass flags fuel (cls.push s) t

end Markdown.Regex
