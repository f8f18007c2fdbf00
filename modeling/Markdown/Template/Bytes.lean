import Markdown.Template
import Markdown.Text.Utf8

/-!
# Templates in bytes

The parts of a template as they are read off its bytes, step by step from the beginning to the end. A
step takes everything up to the next sign, a doubled sign, a reference, or a sign that stands for
itself.

Nothing of this is taken for granted: a read behind the end, a cut inside a character and a step that
does not lead on are failures, for which the answer is `none`.
-/

namespace Markdown

/-- The byte offset at which a character of some kind stands first. -/
def Text.offsetOf? (p : Char → Bool) (t : Text) : Option Nat :=
  if t.any p then some (byteSize (t.takeWhile (!p ·))) else none

namespace Template

/-! ## Parts -/

/-- A part of a template. -/
inductive Part where
  /-- A text that stands for itself. -/
  | text (t : Text)
  /-- A reference to a group. -/
  | group (index : Nat)
deriving DecidableEq, Repr

/-- What a part stands for in a match. -/
def Part.expand (m : Match) : Part → Text
  | .text t => t
  | .group index => m.group index

/-- How far a template is read: the parts before, and the text behind the last one, which goes on. -/
structure Reading where
  parts : Array Part
  pending : Text

namespace Reading

/-- Go on with the text. -/
def add (s : Reading) (t : Text) : Reading :=
  { s with pending := s.pending ++ t }

/-- End the text; it is a part unless it is empty. -/
def close (s : Reading) : Reading :=
  if s.pending.isEmpty then s else ⟨s.parts.push (.text s.pending), []⟩

/-- A reference ends the text. -/
def refer (s : Reading) (index : Nat) : Reading :=
  { s.close with parts := s.close.parts.push (.group index) }

end Reading

/-! ## References -/

/-- Whether a byte is an ASCII digit. -/
def isDigitByte (b : UInt8) : Bool :=
  decide ('0'.toUInt8 ≤ b) && decide (b ≤ '9'.toUInt8)

/-- A number of one or two digits at the beginning, with the number of its bytes. -/
def digitsGroup (rest : Text) : Option (Option (Nat × Nat)) :=
  let size := ((rest.utf8.take 2).takeWhile isDigitByte).length
  if size = 0 then some none
  else do
    let digits ← rest.between? 0 size
    return (Text.index? digits).map (·, size)

/-- A number before the first closing brace, with the number of bytes up to behind the brace. -/
def bracedGroup (rest : Text) : Option (Option (Nat × Nat)) :=
  match rest.offsetOf? (· == '\x7d') with
  | none => some none
  | some close => do
    let digits ← rest.between? 0 close
    if digits.isEmpty || !digits.utf8.all isDigitByte then return none
    else return (Text.index? digits).map (·, close + 1)

/-- The reference that begins with the sign at an offset, with the number of its bytes. -/
def groupAt (source : Text) (sign : UInt8) (i : Nat) : Option (Option (Nat × Nat)) :=
  if sign = '$'.toUInt8 ∧ source.utf8[i + 1]? = some '\x7b'.toUInt8 then do
    let found ← bracedGroup (← source.from? (i + 2))
    return found.map fun (index, size) => (index, size + 2)
  else do
    let found ← digitsGroup (← source.from? (i + 1))
    return found.map fun (index, size) => (index, size + 1)

/-! ## Reading -/

/-- One step at an offset, with the offset of the next step. -/
def step (source : Text) (i : Nat) (s : Reading) : Option (Nat × Reading) := do
  let b ← source.utf8[i]?
  if b ≠ '\\'.toUInt8 ∧ b ≠ '$'.toUInt8 then
    let rest ← source.from? i
    let next := (rest.offsetOf? isSign).elim (Text.byteSize source) (i + ·)
    return (next, s.add (← source.between? i next))
  else if source.utf8[i + 1]? = some b then
    return (i + 2, s.add [Char.ofUInt8 b])
  else
    match ← groupAt source b i with
    | some (index, size) => return (i + size, s.refer index)
    | none => return (i + 1, s.add [Char.ofUInt8 b])

/-- Read a template from an offset on. -/
def readFrom (source : Text) (i : Nat) (s : Reading) : Option Reading :=
  if i < Text.byteSize source then
    match step source i s with
    | none => none
    | some (next, s) => if i < next then readFrom source next s else none
  else some s
termination_by Text.byteSize source - i

/-- The parts of a template. -/
def parse (source : Text) : Option (Array Part) := do
  let s ← readFrom source 0 ⟨#[], []⟩
  return s.close.parts

/-- The text that the parts of a template make of a match. -/
def expand? (source : Text) (m : Match) : Option Text := do
  let parts ← parse source
  return parts.toList.flatMap (·.expand m)

end Template

end Markdown
