import Markdown.Text.Location

/-!
# Diagnostics

What can be said about a rendering apart from its result: warnings, which do not keep a document
from being rendered, errors, and the entries of the log.
-/

namespace Markdown

/-! ## Warnings -/

/-- A warning. -/
inductive Warning where
  /-- A code fence has no partner and stays in the text. -/
  | unclosedCodeFence (location : Location)
  /-- A placeholder names a code block that does not exist. -/
  | danglingPlaceholder (index : Nat)
deriving DecidableEq, Repr

namespace Warning

/-- The wording of a warning. -/
def message : Warning → Text
  | unclosedCodeFence location => "Unclosed code fence at ".toList ++ location.render
  | danglingPlaceholder index =>
    "Dangling code block placeholder #".toList ++ Text.ofNat index

/-- The index that a dangling placeholder names. -/
def danglingIndex? : Warning → Option Nat
  | danglingPlaceholder index => some index
  | unclosedCodeFence _ => none

end Warning

/-- The index named by the first dangling placeholder among some warnings. -/
def firstDangling? (warnings : List Warning) : Option Nat :=
  warnings.findSome? Warning.danglingIndex?

/-! ## Placeholders -/

/-- The placeholder of the code block with a given index: the index in triple braces. -/
def placeholder (index : Nat) : Text :=
  "\x7b\x7b\x7b".toList ++ Text.ofNat index ++ "\x7d\x7d\x7d".toList

/-! ## Errors -/

/-- Why something cannot be done. -/
inductive Error where
  /-- The written form of a pattern is broken. -/
  | invalidPattern (pattern : Text)
  /-- A placeholder names a code block that does not exist, since only `stored` do. -/
  | danglingPlaceholder (index stored : Nat)
deriving DecidableEq, Repr

namespace Error

/-- The wording of an error. For a broken pattern it ends where a description of the fault would
begin. -/
def message : Error → Text
  | invalidPattern pattern => "invalid rule pattern `".toList ++ pattern ++ "`: ".toList
  | danglingPlaceholder index stored =>
    "placeholder ".toList ++ placeholder index ++ " has no code block (".toList ++
      Text.ofNat stored ++ " stored)".toList

end Error

/-! ## The log -/

/-- How much an entry of the log matters. -/
inductive Level where
  | warn
  | debug
  | trace
deriving DecidableEq, Repr

/-- The name of a level. -/
def Level.name : Level → Text
  | warn => "WARN".toList
  | debug => "DEBUG".toList
  | trace => "TRACE".toList

/-- An entry of the log. -/
inductive Event where
  /-- A code fence without a partner was seen. -/
  | unclosedCodeFence (location : Location)
  /-- Every private-use character occurs in the document, so that none can stand in for a brace. -/
  | noStandIn
  /-- A rule rewrote some matches. -/
  | rewrote (key : Text) (count : Nat)
  /-- A placeholder could not be resolved. -/
  | unresolved (index stored : Nat)
  /-- A document was rendered. -/
  | rendered (bytes rules blocks : Nat)
  /-- A rule took the place of the one with the same key. -/
  | replaced (key : Text)
deriving DecidableEq, Repr

namespace Event

/-- The level of an entry. -/
def level : Event → Level
  | unclosedCodeFence _ | noStandIn | unresolved .. => .warn
  | rewrote .. => .trace
  | rendered .. | replaced _ => .debug

/-- The wording of an entry. -/
def message : Event → Text
  | unclosedCodeFence location => "unclosed code fence at ".toList ++ location.render
  | noStandIn => "no free private-use character, reserved tokens left as is".toList
  | rewrote key count =>
    "rule `".toList ++ key ++ "` rewrote ".toList ++ Text.ofNat count ++ " match(es)".toList
  | unresolved index stored => (Error.danglingPlaceholder index stored).message
  | rendered bytes rules blocks =>
    "rendered ".toList ++ Text.ofNat bytes ++ " bytes with ".toList ++ Text.ofNat rules ++
      " rules, ".toList ++ Text.ofNat blocks ++ " code block(s)".toList
  | replaced key => "replacing rule `".toList ++ key ++ "`".toList

/-- An entry as a line of the log. -/
def line (e : Event) : Text :=
  e.level.name ++ ' ' :: e.message

end Event

end Markdown
