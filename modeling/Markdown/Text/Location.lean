import Markdown.Text.Basic

/-!
# Locations

A location names a place in a text by its line and its column, both counted from one, the column in
characters. Only a line feed ends a line.
-/

namespace Markdown

/-- A line and a column, both counted from one. -/
structure Location where
  line : Nat
  column : Nat
deriving DecidableEq, Repr

namespace Location

/-- The place of the first character. -/
def first : Location := ⟨1, 1⟩

/-- The place behind a character that stands at this one. -/
def advance (l : Location) (c : Char) : Location :=
  if c = '\n' then ⟨l.line + 1, 1⟩ else ⟨l.line, l.column + 1⟩

/-- The place behind a text that begins at this one. -/
def after (l : Location) (t : Text) : Location :=
  t.foldl advance l

/-- The place `offset` bytes into a text that begins at this one. An offset inside a character
counts as the start of the character, one past the end as the end. -/
def atOffset (l : Location) (offset : Nat) : Text → Location
  | [] => l
  | c :: t => if c.utf8Size ≤ offset then (l.advance c).atOffset (offset - c.utf8Size) t else l

/-- The location of a byte offset of a text. -/
def ofOffset (t : Text) (offset : Nat) : Location :=
  first.atOffset offset t

/-- A location is written as line and column with a colon between them. -/
def render (l : Location) : Text :=
  Text.ofNat l.line ++ ':' :: Text.ofNat l.column

/-- An offset at a character boundary has the location behind the characters before it. -/
theorem atOffset_append (l : Location) (s t : Text) :
    l.atOffset (Text.byteSize s) (s ++ t) = l.after s := by
  induction s generalizing l with
  | nil => cases t with
    | nil => rfl
    | cons c t => simp [atOffset, after, Nat.not_le.2 (Char.utf8Size_pos c)]
  | cons c s ih =>
    simp only [List.cons_append, atOffset, Text.byteSize_cons, Nat.le_add_right, if_true,
      Nat.add_sub_cancel_left]
    exact ih (l.advance c)

end Location

end Markdown
