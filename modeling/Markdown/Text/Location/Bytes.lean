import Markdown.Text.Location
import Markdown.Text.Utf8

/-!
# Locations in bytes

The location of an offset as it is counted in the bytes of a text: go back to the next place that is
not inside a character, cut the text there, and count its line feeds and the characters behind the
last one.

Going back below zero and cutting inside a character are failures, for which the answer is `none`.
-/

namespace Markdown

namespace Text

/-- The first place that is reached by going back from an offset byte by byte. -/
def placeBack? (t : Text) : Nat → Option Nat
  | 0 => if (t.from? 0).isSome then some 0 else none
  | n + 1 => if (t.from? (n + 1)).isSome then some (n + 1) else placeBack? t n

/-- The byte offset at which a character stands for the last time. -/
def lastOffset? (a : Char) : Text → Option Nat
  | [] => none
  | c :: t =>
    match lastOffset? a t with
    | some i => some (c.utf8Size + i)
    | none => if c = a then some 0 else none

end Text

/-- The location of a byte offset of a text. An offset past the end counts as the end. -/
def Location.ofOffset? (t : Text) (offset : Nat) : Option Location := do
  let place ← t.placeBack? (min offset (Text.byteSize t))
  let before ← t.between? 0 place
  let lineStart := ((before.lastOffset? '\n').map (· + 1)).getD 0
  let onLine ← before.from? lineStart
  return ⟨before.count '\n' + 1, onLine.length + 1⟩

end Markdown
