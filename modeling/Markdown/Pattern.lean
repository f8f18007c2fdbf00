import Markdown.Delimiter.Basic
import Markdown.Diagnostics
import Markdown.Match
import Markdown.Regex.Parser
import Markdown.Regex.Search

/-!
# Patterns

How a rule finds what it rewrites: by a regular expression or by a delimiter. A pattern has a key,
under which a table knows its rule.
-/

namespace Markdown

/-- A pattern. -/
inductive Pattern where
  /-- A regular expression, as it is written and as it is run, with the number of its groups. -/
  | regex (source : Text) (program : Regex) (groups : Nat)
  /-- Delimited spans. -/
  | delimiter (d : Delimiter)

namespace Pattern

/-- The pattern of a regular expression. -/
def ofRegex (source : Text) : Except Error Pattern :=
  match Regex.parse? source with
  | some (program, groups) => .ok (regex source program groups)
  | none => .error (.invalidPattern source)

/-- The pattern of a list of markers. -/
def ofMarkers (markers : List Text) : Pattern :=
  delimiter (.ofMarkers markers)

/-- The key of a pattern; that of a regular expression is its written form. -/
def key : Pattern → Text
  | regex source _ _ => source
  | delimiter d => d.key

/-- The pieces of a text, cut at the matches of a pattern, which carry the texts of their groups. -/
def pieces (p : Pattern) (t : Text) : List (Piece Char (List (Option Text))) :=
  match p with
  | regex _ program groups => scan (program.find groups) t
  | delimiter d => d.pieces t

/-- The pieces of a text make up the text. -/
theorem flatMap_source_pieces (p : Pattern) (t : Text) :
    (p.pieces t).flatMap Piece.source = t := by
  cases p with
  | regex => exact flatMap_source_scan ..
  | delimiter d => exact d.flatMap_source_pieces t

end Pattern

/-- The match that a piece is, unless it lies outside all matches. -/
def Piece.match? : Piece Char (List (Option Text)) → Option Match
  | .kept _ => none
  | .found taken groups => some ⟨taken, groups⟩

/-- The matches of a pattern in a text, with the byte offsets where they begin. -/
def Pattern.matches (p : Pattern) (t : Text) : List (Nat × Match) :=
  (withOffsets (p.pieces t)).filterMap fun (offset, piece) => piece.match?.map (offset, ·)

end Markdown
