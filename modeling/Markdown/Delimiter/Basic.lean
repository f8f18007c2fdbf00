import Markdown.Delimiter.Guard
import Markdown.Text.Scan

/-!
# Delimiters

A delimited span opens with one of several markers and closes with the next occurrence of the same
marker on the line; what it encloses may be empty. At each place the first marker of the list that
stands there decides. If its span is refused, by a guard or for want of a closing marker, no other
marker is tried there.
-/

namespace Markdown

/-- A list of markers, the first of which take precedence. -/
structure Delimiter where
  markers : List Text
  ne_nil_of_mem : ∀ m ∈ markers, m ≠ []

namespace Delimiter

/-- The delimiter with some markers, from which the empty ones are left out. -/
def ofMarkers (markers : List Text) : Delimiter :=
  ⟨markers.filter (!·.isEmpty), by simp [List.mem_filter]⟩

/-- The key of a delimiter: the word `delimited`, a colon and the markers with bars between. -/
def key (d : Delimiter) : Text :=
  "delimited:".toList ++ List.intercalate ['|'] d.markers

/-- Whether some spots begin with a marker. -/
def standsAt : (marker : Text) → List Spot → Bool
  | [], _ => true
  | _ :: _, [] => false
  | c :: marker, s :: spots => c == s.char && standsAt marker spots

/-- How far ahead on the line a marker stands first; `n` characters have been passed. A marker that
holds a line feed stands on no line. -/
def closing? (marker : Text) (n : Nat) : List Spot → Option Nat
  | [] => none
  | s :: spots =>
    if standsAt marker (s :: spots) then
      if marker.contains '\n' then none else some n
    else if s.char = '\n' then none
    else closing? marker (n + 1) spots

/-- The span that opens at a position. Its groups are the marker and what it encloses. -/
def find (d : Delimiter) : Finder Spot (List (Option Text)) := fun c => do
  let marker ← d.markers.find? (standsAt · c.rest)
  let inside := c.rest.drop marker.length
  if !(Spot.ahead inside).mayOpen then none
  else
    let n ← closing? marker 0 inside
    some (marker.length + n + marker.length, [some marker, some ((inside.take n).map Spot.char)])

/-- The pieces of a text, cut at its delimited spans. -/
def pieces (d : Delimiter) (t : Text) : List (Piece Char (List (Option Text))) :=
  (scan d.find (Spot.ofText t)).map fun
    | .kept s => .kept s.char
    | .found spots groups => .found (spots.map Spot.char) groups

/-- The pieces of a text make up the text. -/
theorem flatMap_source_pieces (d : Delimiter) (t : Text) :
    (d.pieces t).flatMap Piece.source = t := by
  have h : ∀ ps : List (Piece Spot (List (Option Text))),
      (ps.map fun
        | .kept s => .kept s.char
        | .found spots groups => .found (spots.map Spot.char) groups).flatMap
          (Piece.source : Piece Char (List (Option Text)) → Text) =
        (ps.flatMap Piece.source).map Spot.char := by
    intro ps
    induction ps with
    | nil => rfl
    | cons p ps ih => cases p <;> simp [Piece.source, ih]
  rw [pieces, h, flatMap_source_scan, Spot.map_char_ofText]

end Delimiter

end Markdown
