import Markdown.Url
import Std.Data.TreeSet

/-!
# Reserved tokens

The rules write tokens into the document that the rules after them look for: placeholders of code
blocks, and the tokens of addresses. A document in which such a token, or the beginning of one,
stands already is rendered with a stand-in for every opening brace, which no rule can mistake. The
stand-in is a private-use character that the document does not have; in the result it becomes the
character reference of the brace.
-/

namespace Markdown

namespace Reserved

/-- The beginnings of the tokens that the rules write. -/
def tokens : List Text :=
  ["\x7b\x7b\x7b".toList, Url.underscoreToken, Url.asteriskToken]

/-- Whether a reserved token stands in a text. -/
def occursIn (t : Text) : Bool :=
  tokens.any (Text.includes · t)

/-- The private-use characters in the order in which they are considered. -/
def privateUse : List Char :=
  (List.range' 0xE000 0x1900 ++ List.range' 0xF0000 0xFFFE).map Char.ofNat

/-- The first private-use character that a text does not have. -/
def standIn? (t : Text) : Option Char :=
  let used := Std.TreeSet.ofList t
  privateUse.find? (!used.contains ·)

/-- The character reference of the opening brace. -/
def braceReference : Text := "&#123;".toList

end Reserved

/-- A text made safe for the rules. -/
structure Protected where
  /-- The text as the rules get it. -/
  text : Text
  /-- The character that stands for an opening brace, if there is one. -/
  standIn : Option Char
deriving DecidableEq, Repr

namespace Protected

/-- Hide the opening braces of a text in which a reserved token stands, if a character is left to
stand in for them. -/
def ofText (t : Text) : Protected :=
  if Reserved.occursIn t then
    match Reserved.standIn? t with
    | some c => ⟨t.map fun d => if d = '\x7b' then c else d, some c⟩
    | none => ⟨t, none⟩
  else ⟨t, none⟩

/-- The document as the first rule gets it. -/
def document (p : Protected) : Text :=
  '\n' :: p.text ++ ['\n']

/-- Write the hidden braces as character references. -/
def release (p : Protected) (output : Text) : Text :=
  match p.standIn with
  | some c => output.flatMap fun d => if d = c then Reserved.braceReference else [d]
  | none => output

end Protected

end Markdown
