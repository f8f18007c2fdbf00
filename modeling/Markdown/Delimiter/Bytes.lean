import Markdown.Delimiter.Basic
import Markdown.Match
import Markdown.Text.Utf8

/-!
# Delimiters in bytes

The search for delimited spans as it is carried out on the bytes of a text. Tables with an entry for
every byte offset, the end included, are filled in one pass each, from the end of the text; then the
text is scanned from its beginning, and whether a span opens at a place is read from the tables.

Nothing of this is taken for granted: a read or a write outside of a table, a cut inside a character
and a span that does not lead on are failures, for which the answer is `none`.
-/

namespace Markdown

/-! ## Tables -/

/-- Carry out the body of a loop for the numbers below `n`, the largest one first. -/
def downFrom {σ : Type} (body : Nat → σ → Option σ) : (n : Nat) → σ → Option σ
  | 0, s => some s
  | n + 1, s => (body n s).bind (downFrom body n)

/-- Write an entry of a table, which must be there. -/
def write? {α : Type} (table : Array α) (i : Nat) (a : α) : Option (Array α) :=
  if h : i < table.size then some (table.set i a) else none

namespace ByteTable

/-- Write where the line of an offset ends. -/
def writeLineEnd (bytes : List UInt8) (i : Nat) (ends : Array Nat) : Option (Array Nat) := do
  if (← bytes[i]?) = '\n'.toUInt8 then write? ends i i else write? ends i (← ends[i + 1]?)

/-- Where the line of each offset ends: at the next line feed or at the end of the text. -/
def lineEnds (bytes : List UInt8) : Option (Array Nat) :=
  downFrom (writeLineEnd bytes) bytes.length (.replicate (bytes.length + 1) bytes.length)

/-- Write where some bytes stand next, from an offset on. -/
def writeNextStart (bytes needle : List UInt8) (i : Nat) (next : Array Nat) :
    Option (Array Nat) := do
  if bytes.length < i then none
  else if needle.isPrefixOf (bytes.drop i) then write? next i i
  else write? next i (← next[i + 1]?)

/-- Where some bytes stand next, from each offset on. The largest number says that they do not; it is
larger than every offset. -/
def nextStarts (largest : Nat) (bytes needle : List UInt8) : Option (Array Nat) :=
  downFrom (writeNextStart bytes needle) bytes.length (.replicate (bytes.length + 1) largest)

/-- Whether the backticks from an offset on pair up, seen from outside of code. -/
def outsideEntry (b : UInt8) (i : Nat) (outside inside : Array Bool) : Option Bool :=
  if b = '`'.toUInt8 then inside[i + 1]? else outside[i + 1]?

/-- Whether they do, seen from inside. -/
def insideEntry (b : UInt8) (i : Nat) (outside inside : Array Bool) : Option Bool :=
  if b = '`'.toUInt8 then outside[i + 1]?
  else if b = '\n'.toUInt8 ∨ b = '\r'.toUInt8 then some false
  else inside[i + 1]?

/-- Write the entries of an offset in the two tables of backticks. -/
def writeBacktick (bytes : List UInt8) (i : Nat) (tables : Array Bool × Array Bool) :
    Option (Array Bool × Array Bool) := do
  let (outside, inside) := tables
  let b ← bytes[i]?
  let outside ← write? outside i (← outsideEntry b i outside inside)
  let inside ← write? inside i (← insideEntry b i outside inside)
  return (outside, inside)

/-- Whether the backticks from each offset on pair up, seen from outside of code. -/
def outsideCode (bytes : List UInt8) : Option (Array Bool) := do
  let blank := Array.replicate (bytes.length + 1) false
  let outside ← write? blank bytes.length true
  let tables ← downFrom (writeBacktick bytes) bytes.length (outside, blank)
  return tables.1

/-- Whether a `>` follows an offset on its line. -/
def tagEndEntry (b : UInt8) (i : Nat) (tagEnds : Array Bool) : Option Bool :=
  if b = '\n'.toUInt8 then some false
  else if b = '>'.toUInt8 then some true
  else tagEnds[i + 1]?

/-- Whether the two bytes of a `</` begin a closing tag, judged by the character behind them and by
whether a `>` follows that on the line. -/
def isClosingTag (t : Text) (start : Nat) (tagEnds : Array Bool) : Option Bool := do
  match ← t.from? (start + 2) with
  | [] => return false
  | c :: _ => if c = '\n' then return false else tagEnds[start + 2 + c.utf8Size]?

/-- Whether a closing tag follows an offset on its line. -/
def closingTagEntry (t : Text) (b : UInt8) (i : Nat) (tagEnds closingTags : Array Bool) :
    Option Bool :=
  if b = '\n'.toUInt8 then some false
  else if b = '<'.toUInt8 ∧ t.utf8[i + 1]? = some '/'.toUInt8 then do
    if ← isClosingTag t i tagEnds then return true else closingTags[i + 1]?
  else closingTags[i + 1]?

/-- Whether an offset is inside a tag. -/
def insideTagEntry (b : UInt8) (i : Nat) (closingTags inside : Array Bool) : Option Bool :=
  if b = '/'.toUInt8 ∨ b = '<'.toUInt8 then some false
  else if b = '>'.toUInt8 then do
    if ← closingTags[i + 1]? then return true else inside[i + 1]?
  else inside[i + 1]?

/-- Write the entries of an offset in the three tables of tags. -/
def writeTag (t : Text) (i : Nat) (tables : Array Bool × Array Bool × Array Bool) :
    Option (Array Bool × Array Bool × Array Bool) := do
  let (tagEnds, closingTags, inside) := tables
  let b ← t.utf8[i]?
  let tagEnds ← write? tagEnds i (← tagEndEntry b i tagEnds)
  let closingTags ← write? closingTags i (← closingTagEntry t b i tagEnds closingTags)
  let inside ← write? inside i (← insideTagEntry b i closingTags inside)
  return (tagEnds, closingTags, inside)

/-- Whether each offset of a text is inside a tag. -/
def insideTag (t : Text) : Option (Array Bool) := do
  let blank := Array.replicate (t.utf8.length + 1) false
  let tables ← downFrom (writeTag t) t.utf8.length (blank, blank, blank)
  return tables.2.2

end ByteTable

/-- What is known about a text before it is scanned. -/
structure ByteTables where
  outsideCode : Array Bool
  insideTag : Array Bool
  lineEnds : Array Nat
  /-- Each marker, with where it stands next. -/
  markers : List (Text × Array Nat)

/-! ## The scan -/

/-- A span: where its opening marker begins and ends, and its closing one. -/
structure ByteSpan where
  start : Nat
  opened : Nat
  close : Nat
  stop : Nat
deriving DecidableEq, Repr

/-- The match at a span of a text. -/
def ByteSpan.match? (s : ByteSpan) (t : Text) : Option Match := do
  let text ← t.between? s.start s.stop
  let marker ← t.between? s.start s.opened
  let content ← t.between? s.opened s.close
  return ⟨text, [some marker, some content]⟩

/-- A sum, unless it is larger than the largest number. -/
def checkedAdd (largest a b : Nat) : Option Nat :=
  if a + b ≤ largest then some (a + b) else none

namespace Delimiter

/-- The tables for the markers of a delimiter. -/
def tables (largest : Nat) (d : Delimiter) (t : Text) : Option ByteTables := do
  let outsideCode ← ByteTable.outsideCode t.utf8
  let insideTag ← ByteTable.insideTag t
  let lineEnds ← ByteTable.lineEnds t.utf8
  let markers ← d.markers.mapM fun m => do
    return (m, ← ByteTable.nextStarts largest t.utf8 m.utf8)
  return ⟨outsideCode, insideTag, lineEnds, markers⟩

/-- The first marker that stands at an offset. -/
def markerAt (pos : Nat) : List (Text × Array Nat) → Option (Option (Text × Array Nat))
  | [] => some none
  | (m, next) :: markers => do
    if (← next[pos]?) = pos then return some (m, next) else markerAt pos markers

/-- The span that opens at an offset. -/
def spanAt (largest : Nat) (tables : ByteTables) (pos : Nat) : Option (Option ByteSpan) := do
  match ← markerAt pos tables.markers with
  | none => return none
  | some (m, next) =>
    let opened := pos + m.utf8.length
    if !(← tables.outsideCode[opened]?) then return none
    else if ← tables.insideTag[opened]? then return none
    else
      let close ← next[opened]?
      match checkedAdd largest close m.utf8.length with
      | none => return none
      | some stop =>
        if stop > (← tables.lineEnds[opened]?) then return none
        else return some ⟨pos, opened, close, stop⟩

/-- The spans from an offset on, added to those found before it. -/
def spansFrom (largest : Nat) (t : Text) (tables : ByteTables) (pos : Nat) (found : Array ByteSpan) :
    Option (Array ByteSpan) :=
  if pos < Text.byteSize t then
    if (t.from? pos).isNone then spansFrom largest t tables (pos + 1) found
    else
      match spanAt largest tables pos with
      | none => none
      | some none => spansFrom largest t tables (pos + 1) found
      | some (some s) =>
        if pos < s.stop then spansFrom largest t tables s.stop (found.push s) else none
  else some found
termination_by Text.byteSize t - pos

/-- The spans of a text, on a machine with some largest number. -/
def spans (largest : Nat) (d : Delimiter) (t : Text) : Option (Array ByteSpan) :=
  if d.markers.isEmpty then some #[]
  else do spansFrom largest t (← d.tables largest t) 0 #[]

end Delimiter

end Markdown
