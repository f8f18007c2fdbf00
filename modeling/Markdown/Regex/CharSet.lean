import Markdown.Unicode.CaseVariants
import Markdown.Unicode.Ranges
import Markdown.Unicode.WordCharacter

/-!
# Character sets

The sets of characters that a pattern can name, as expressions over ranges and Unicode properties.
-/

namespace Markdown.Regex

/-- A set of characters. -/
inductive CharSet where
  | empty
  /-- The characters from `lo` to `hi`, both included. -/
  | range (lo hi : Char)
  | decimalDigit
  | whiteSpace
  | wordCharacter
  | union (s t : CharSet)
  | inter (s t : CharSet)
  | compl (s : CharSet)
  /-- The characters with a member among their case variants, and the members. -/
  | anyCase (s : CharSet)
deriving DecidableEq, Repr

namespace CharSet

/-- Whether a character belongs to a set. -/
def contains : CharSet → Char → Bool
  | empty, _ => false
  | range lo hi, c => lo ≤ c && c ≤ hi
  | decimalDigit, c => Unicode.isDecimalDigit c
  | whiteSpace, c => Unicode.isWhiteSpace c
  | wordCharacter, c => Unicode.isWordCharacter c
  | union s t, c => s.contains c || t.contains c
  | inter s t, c => s.contains c && t.contains c
  | compl s, c => !s.contains c
  | anyCase s, c => s.contains c || (Unicode.caseVariants c).any s.contains

/-- The set of one character. -/
def single (c : Char) : CharSet := range c c

/-- The set of all characters. -/
def any : CharSet := compl empty

/-- All characters but the line feed. -/
def notLineFeed : CharSet := compl (single '\n')

/-- The members of the first set outside the second. -/
def diff (s t : CharSet) : CharSet := inter s (compl t)

/-- The members of exactly one of two sets. -/
def symmDiff (s t : CharSet) : CharSet := union (diff s t) (diff t s)

/-- The union of a list of sets. -/
def unions : List CharSet → CharSet
  | [] => empty
  | [s] => s
  | s :: ss => union s (unions ss)

theorem contains_single (c d : Char) : (single c).contains d = decide (d = c) := by
  rw [Bool.eq_iff_iff]
  simp only [single, contains, Bool.and_eq_true, decide_eq_true_eq]
  exact ⟨fun h => Char.le_antisymm h.2 h.1, fun h => h ▸ ⟨Char.le_refl _, Char.le_refl _⟩⟩

@[simp] theorem contains_any (c : Char) : any.contains c = true := rfl

@[simp] theorem contains_notLineFeed (c : Char) :
    notLineFeed.contains c = decide (c ≠ '\n') := by
  simp [notLineFeed, contains, contains_single]

end CharSet

end Markdown.Regex
