import Markdown.Regex.CharSet
import Markdown.Text.Basic

/-!
# Flags

Letters that change what the written form of a regular expression means, from the place where they
stand to the end of the enclosing group.
-/

namespace Markdown.Regex

/-- What the flags in force say. -/
structure Flags where
  ignoreCase : Bool := false
  /-- The anchors match at every line. -/
  multiLine : Bool := false
  /-- The dot stands for a line feed too. -/
  dotAll : Bool := false
  /-- A repetition is greedy where it has the mark of the others. -/
  swapGreed : Bool := false

/-- The set of a character that stands for itself. -/
def Flags.literal (flags : Flags) (c : Char) : CharSet :=
  if flags.ignoreCase && !(Unicode.caseVariants c).isEmpty then .anyCase (.single c) else .single c

/-- A set as it is meant under the flags. -/
def Flags.cased (flags : Flags) (s : CharSet) : CharSet :=
  if flags.ignoreCase then .anyCase s else s

/-- Set one flag. -/
def Flags.set? (flags : Flags) (letter : Char) (on : Bool) : Option Flags :=
  match letter with
  | 'i' => some { flags with ignoreCase := on }
  | 'm' => some { flags with multiLine := on }
  | 's' => some { flags with dotAll := on }
  | 'U' => some { flags with swapGreed := on }
  | 'u' => if on then some flags else none
  | _ => none

/-- Read flags up to a colon or a closing parenthesis, which is not taken. No flag stands twice, and
a hyphen, of which there is at most one, has a flag behind it. -/
def readFlags : (seen : List Char) → (on : Bool) → Flags → Text → Option ((Flags × Bool) × Text)
  | _, _, _, [] => none
  | seen, on, flags, c :: t =>
    if c == ':' || c == ')' then
      if seen.head? == some '-' then none else some ((flags, seen.isEmpty), c :: t)
    else if seen.contains c then none
    else if c == '-' then readFlags (c :: seen) false flags t
    else
      match flags.set? c on with
      | some flags => readFlags (c :: seen) on flags t
      | none => none

end Markdown.Regex
