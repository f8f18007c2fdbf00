/-!
# Text

A text is a list of characters. Inside the library every position counts characters; bytes of the
UTF-8 form are counted only where a byte count is reported.
-/

namespace Markdown

/-- A text is the list of its characters. -/
abbrev Text := List Char

namespace Text

/-- The number of bytes of the UTF-8 form. -/
def byteSize (t : Text) : Nat :=
  t.foldl (fun n c => n + c.utf8Size) 0

/-- Bytes counted before a text add to its own. -/
theorem foldl_utf8Size (t : Text) (n : Nat) :
    t.foldl (fun n c => n + c.utf8Size) n = n + byteSize t := by
  induction t generalizing n with
  | nil => rfl
  | cons c t ih =>
    simp only [byteSize, List.foldl_cons]
    rw [ih, ih (0 + _), Nat.zero_add, Nat.add_assoc]

@[simp] theorem byteSize_nil : byteSize [] = 0 := rfl

@[simp] theorem byteSize_cons (c : Char) (t : Text) :
    byteSize (c :: t) = c.utf8Size + byteSize t := by
  rw [byteSize, List.foldl_cons, foldl_utf8Size, Nat.zero_add]

@[simp] theorem byteSize_append (s t : Text) : byteSize (s ++ t) = byteSize s + byteSize t := by
  rw [byteSize, List.foldl_append, foldl_utf8Size]
  rfl

/-- The characters that trimming removes: space, tab, line feed, form feed and carriage return. -/
def isBlank (c : Char) : Bool :=
  c == ' ' || c == '\t' || c == '\n' || c == '\x0c' || c == '\r'

/-- Remove the characters satisfying `p` from both ends. -/
def trimWhere (p : Char → Bool) (t : Text) : Text :=
  ((t.dropWhile p).reverse.dropWhile p).reverse

/-- Remove the blank characters from both ends. -/
def trim (t : Text) : Text :=
  t.trimWhere isBlank

/-- Remove a word from the beginning, as often as it stands there. -/
def dropLeading (w t : Text) : Text :=
  match w.isPrefixOf? t with
  | some rest => if rest.length < t.length then dropLeading w rest else t
  | none => t
termination_by t.length

/-- Remove a word from the end, as often as it stands there. -/
def dropTrailing (w t : Text) : Text :=
  match w.isSuffixOf? t with
  | some rest => if rest.length < t.length then dropTrailing w rest else t
  | none => t
termination_by t.length

/-! ## Numbers -/

/-- A number in decimal. -/
def ofNat (n : Nat) : Text :=
  Nat.toDigits 10 n

/-- Indices of groups and of code blocks are below this number. -/
def indexBound : Nat := Nat.pow 2 64

/-- The value of a row of decimal digits. -/
def decimal (t : Text) : Nat :=
  t.foldl (fun n c => 10 * n + (c.toNat - '0'.toNat)) 0

/-- The index written by a non-empty row of decimal digits; leading zeros are allowed. -/
def index? (t : Text) : Option Nat :=
  if t.isEmpty || !t.all Char.isDigit then none
  else if decimal t < indexBound then some (decimal t) else none

end Text

end Markdown
