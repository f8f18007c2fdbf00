import Markdown.Text.Basic
import Markdown.Text.Cursor

/-!
# Scanning for matches

A finder says of a position whether a match begins there, how many elements it takes and what is to
be known about it. Scanning runs a finder over a list from left to right and cuts the list into
pieces: the elements outside all matches, one by one, and the matches.

An empty match is refused directly at the end of the match before it; after an empty match the scan
moves on by one element.
-/

namespace Markdown

universe u v

variable {α : Type u} {β : Type v}

/-- Whether a match begins at a position: its number of elements and what it carries. -/
abbrev Finder (α : Type u) (β : Type v) := Cursor α → Option (Nat × β)

/-- One piece of a list that has been scanned for matches. -/
inductive Piece (α : Type u) (β : Type v) where
  /-- An element outside all matches. -/
  | kept (a : α)
  /-- A match, with the elements it takes. -/
  | found (taken : List α) (value : β)

namespace Piece

/-- The elements of the scanned list that make up the piece. -/
def source : Piece α β → List α
  | kept a => [a]
  | found taken _ => taken

/-- Whether the piece is a match. -/
def isFound : Piece α β → Bool
  | kept _ => false
  | found .. => true

end Piece

/-- The match a scan accepts at a position; `touching` says that the match before it ends there. -/
def Finder.accept? (find : Finder α β) (touching : Bool) (c : Cursor α) : Option (Nat × β) :=
  match find c with
  | some (0, value) => if touching then none else some (0, value)
  | other => other

/-- Scan from a position on. The next `skip` elements belong to the match found last; `touching`
says that this match is not empty, so that no empty match may follow it directly. The pieces so far
are in `acc`, the last one first. -/
def scanFrom (find : Finder α β) : (skip : Nat) → (touching : Bool) →
    (acc : List (Piece α β)) → Cursor α → List (Piece α β)
  | _, touching, acc, ⟨b, [], n, h⟩ =>
    match find.accept? touching ⟨b, [], n, h⟩ with
    | some (0, value) => (.found [] value :: acc).reverse
    | _ => acc.reverse
  | skip + 1, touching, acc, ⟨_, a :: l, n, h⟩ => scanFrom find skip touching acc (.behind a l n h)
  | 0, touching, acc, ⟨b, a :: l, n, h⟩ =>
    match find.accept? touching ⟨b, a :: l, n, h⟩ with
    | none => scanFrom find 0 false (.kept a :: acc) (.behind a l n h)
    | some (0, value) =>
      scanFrom find 0 false (.kept a :: .found [] value :: acc) (.behind a l n h)
    | some (k + 1, value) =>
      scanFrom find k true (.found ((a :: l).take (k + 1)) value :: acc) (.behind a l n h)
termination_by _ _ _ c => c.rest.length
decreasing_by all_goals simp

/-- The pieces of a list, in order. -/
def scan (find : Finder α β) (l : List α) : List (Piece α β) :=
  scanFrom find 0 false [] (.start l)

/-- The pieces found before a position stand in front of those found from it on. -/
theorem scanFrom_eq_append (find : Finder α β) (skip : Nat) (touching : Bool)
    (acc : List (Piece α β)) (c : Cursor α) :
    scanFrom find skip touching acc c = acc.reverse ++ scanFrom find skip touching [] c := by
  obtain ⟨b, l, n, rfl⟩ := c
  induction l generalizing skip touching acc b with
  | nil =>
    simp only [scanFrom]
    split <;> simp
  | cons a l ih =>
    cases skip with
    | succ skip =>
      simp only [scanFrom]
      exact ih _ _ _ _
    | zero =>
      simp only [scanFrom]
      split
      · rw [Cursor.behind_length, Cursor.of, ih _ _ (_ :: acc), ih _ _ [_]]
        simp
      · rw [Cursor.behind_length, Cursor.of, ih _ _ (_ :: _ :: acc), ih _ _ [_, _]]
        simp
      · rw [Cursor.behind_length, Cursor.of, ih _ _ (_ :: acc), ih _ _ [_]]
        simp

/-- The pieces found from a position on make up what is left behind the skipped elements. -/
theorem flatMap_source_scanFrom (find : Finder α β) (skip : Nat) (touching : Bool)
    (c : Cursor α) :
    (scanFrom find skip touching [] c).flatMap Piece.source = c.rest.drop skip := by
  obtain ⟨b, l, n, rfl⟩ := c
  induction l generalizing skip touching b with
  | nil =>
    simp only [scanFrom]
    split <;> simp [Piece.source]
  | cons a l ih =>
    cases skip with
    | succ skip =>
      simp only [scanFrom]
      exact ih _ _ _
    | zero =>
      simp only [scanFrom]
      split
      all_goals
        rw [Cursor.behind_length, Cursor.of, scanFrom_eq_append, List.flatMap_append, ih]
        simp [Piece.source]

/-- The pieces of a list make up the list. -/
theorem flatMap_source_scan (find : Finder α β) (l : List α) :
    (scan find l).flatMap Piece.source = l :=
  flatMap_source_scanFrom find 0 false (.start l)

/-! ## Literal matches -/

/-- Finds the places where `needle` stands. -/
def literal [BEq α] (needle : List α) : Finder α Unit := fun c =>
  if needle.isPrefixOf c.rest then some (needle.length, ()) else none

namespace Text

/-- Put `new` in the place of every match of `old`, taking the matches from left to right. -/
def replace (t old new : Text) : Text :=
  (scan (literal old) t).flatMap fun
    | .kept c => [c]
    | .found .. => new

/-- Whether `needle` stands somewhere in the text. -/
def includes (needle : Text) : Text → Bool
  | [] => needle.isEmpty
  | c :: t => needle.isPrefixOf (c :: t) || includes needle t

end Text

/-! ## Byte offsets -/

/-- Where the pieces of a text begin, in bytes of its UTF-8 form. The first of them begins at
`offset`, and the offsets so far are in `acc`, the last one first. -/
def offsetsFrom (offset : Nat) (acc : List (Nat × Piece Char β)) :
    List (Piece Char β) → List (Nat × Piece Char β)
  | [] => acc.reverse
  | p :: ps => offsetsFrom (offset + Text.byteSize p.source) ((offset, p) :: acc) ps

/-- The pieces of a text with the byte offsets where they begin. -/
def withOffsets (ps : List (Piece Char β)) : List (Nat × Piece Char β) :=
  offsetsFrom 0 [] ps

end Markdown
