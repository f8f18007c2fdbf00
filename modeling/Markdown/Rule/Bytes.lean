import Markdown.Delimiter.Bytes
import Markdown.Rule

/-!
# Rewriting in bytes

A rule as it is carried out on the bytes of a text: the stretches between the matches are cut from the
text by byte offsets, and what takes the place of the matches is put in between. It may depend on
where a match begins.

A cut inside a character, past the end or from behind to the front is a failure, for which the answer
is `none`.
-/

namespace Markdown

/-- What takes the place of a match, given with the byte offset where it begins. -/
abbrev Replacer := Nat × Match → Context → Text × Context

/-- An action does not ask where a match begins. -/
def Action.replacer (a : Action) : Replacer :=
  fun (_, m) cx => a.replacement m cx

/-- Replace some matches of a text, of which everything up to the offset `last` is done and stands in
`out`. -/
def Replacer.spliceFrom (f : Replacer) (t : Text) (last : Nat) (out : Text) :
    List (Nat × Match) → Context → Option (Text × Context)
  | [], cx => do return (out ++ (← t.from? last), cx)
  | (start, m) :: ms, cx => do
    let gap ← t.between? last start
    let (new, cx) := f (start, m) cx
    spliceFrom f t (start + Text.byteSize m.text) (out ++ gap ++ new) ms cx

namespace Pattern

/-- The matches of a pattern in a text, each with the byte offset where it begins. The spans of a
delimiter are found in the bytes of the text, on a machine with some largest number. -/
def locate (largest : Nat) (p : Pattern) (t : Text) : Option (List (Nat × Match)) :=
  match p with
  | regex .. => some (p.matches t)
  | delimiter d => do
    let spans ← d.spans largest t
    spans.toList.mapM fun s => (s.match? t).map (s.start, ·)

/-- Replace the matches of a pattern in a text, on such a machine. -/
def splice (largest : Nat) (p : Pattern) (f : Replacer) (t : Text) (cx : Context) :
    Option (Text × Context) := do
  let ms ← p.locate largest t
  if ms.isEmpty then return (t, cx)
  else f.spliceFrom t 0 [] ms (cx.note (.rewrote p.key ms.length))

end Pattern

end Markdown
