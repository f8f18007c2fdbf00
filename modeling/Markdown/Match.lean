import Markdown.Text.Basic

/-!
# Matches

What a pattern has found: the text it takes and the texts of its groups.
-/

namespace Markdown

/-- A match of a pattern. -/
structure Match where
  /-- The whole text of the match. -/
  text : Text
  /-- The texts of the groups from number one on; a group may have taken no part. -/
  groups : List (Option Text)
deriving DecidableEq, Repr

namespace Match

/-- The text of a group, if it took part; group zero is the whole match. -/
def group? (m : Match) : Nat → Option Text
  | 0 => some m.text
  | n + 1 => m.groups[n]?.join

/-- The text of a group, empty if it took no part. -/
def group (m : Match) (n : Nat) : Text :=
  (m.group? n).getD []

@[simp] theorem group_zero (m : Match) : m.group 0 = m.text := rfl

end Match

end Markdown
