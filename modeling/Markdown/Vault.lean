import Markdown.Diagnostics
import Markdown.Text.Scan

/-!
# The vault of code blocks

Fenced code is set as HTML at once and kept in a vault while the rules run, so that none of them can
touch it. A placeholder with the index of the block stands in its place.

In a code block the characters that mean something to HTML stand as entities, and each line break, or
two of them in a row, as `<br>`. Line breaks at the ends are left out, and then the blanks that are at
the ends.
-/

namespace Markdown

namespace CodeBlock

/-- The characters that mean something to HTML, and the entities that stand for them. -/
def entities : List (Char × Text) :=
  [('&', "&amp;".toList), ('<', "&lt;".toList), ('>', "&gt;".toList), ('"', "&quot;".toList)]

/-- A character of code, or its entity if it has one. -/
def encode (c : Char) : Text :=
  (entities.lookup c).getD [c]

/-- The tag of a line break. -/
def lineBreak : Text := "<br>".toList

/-- The HTML between the tags of a code block. -/
def body (raw : Text) : Text :=
  let encoded : Text := raw.flatMap encode
  let broken := (encoded.replace ['\n', '\n'] lineBreak).replace ['\n'] lineBreak
  Text.trim (Text.dropTrailing lineBreak (Text.dropLeading lineBreak broken))

/-- The HTML of a code block. -/
def render (raw : Text) : Text :=
  "<pre><code>".toList ++ body raw ++ "</code></pre>".toList

end CodeBlock

/-- The code blocks of a document, as HTML, in order. -/
structure Vault where
  blocks : Array Text := #[]
deriving DecidableEq, Repr

namespace Vault

/-- The vault without blocks. -/
def empty : Vault := {}

/-- The number of blocks. -/
def size (v : Vault) : Nat := v.blocks.size

/-- Whether there is no block. -/
def isEmpty (v : Vault) : Bool := v.blocks.isEmpty

/-- Keep the block of some code; the answer is its placeholder. -/
def extract (v : Vault) (raw : Text) : Text × Vault :=
  (placeholder v.size, ⟨v.blocks.push (CodeBlock.render raw)⟩)

/-- The block with a given index. -/
def reinsert (v : Vault) (index : Nat) : Except Error Text :=
  match v.blocks[index]? with
  | some block => .ok block
  | none => .error (.danglingPlaceholder index v.size)

@[simp] theorem size_empty : empty.size = 0 := rfl

@[simp] theorem size_extract (v : Vault) (raw : Text) : (v.extract raw).2.size = v.size + 1 := by
  simp [extract, size]

theorem reinsert_extract (v : Vault) (raw : Text) :
    (v.extract raw).2.reinsert v.size = .ok (CodeBlock.render raw) := by
  simp [extract, reinsert, size]

theorem reinsert_extract_of_lt {v : Vault} {i : Nat} (h : i < v.size) (raw : Text) :
    (v.extract raw).2.reinsert i = v.reinsert i := by
  simp only [size] at h
  simp [extract, reinsert, Array.getElem?_push, Nat.ne_of_lt h, Array.getElem?_eq_getElem h]

end Vault

end Markdown
