import Markdown.Rule
import Markdown.Url

/-!
# Handlers

The actions of the standard rules that are more than a template.
-/

namespace Markdown.Handler

/-- An element with some content. -/
def element (name content : Text) : Text :=
  '<' :: name ++ '>' :: content ++ '<' :: '/' :: name ++ ['>']

/-- The handler that needs nothing of the context. -/
def ofMatch (f : Match → Text) : Handler :=
  fun m cx => (f m, cx)

/-- Fenced code goes into the vault and leaves its placeholder. -/
def codeBlock : Handler := fun m cx =>
  let (token, vault) := cx.vault.extract (m.group 1)
  (token, { cx with vault })

/-- A heading; the number of its signs gives the level. -/
def header : Handler := fun m cx =>
  let level := cx.options.headingLevel (Text.byteSize (m.group 1))
  ('\n' :: element ('h' :: Text.ofNat level) (Text.trim (m.group 2)), cx)

/-- An image, from a description and an address. -/
def image : Handler := ofMatch fun m =>
  "<img src='".toList ++ Url.hide (m.group 2) ++ "' alt='".toList ++ m.group 1 ++ "' />".toList

/-- A link, from a text and an address. -/
def link : Handler := ofMatch fun m =>
  "<a href='".toList ++ Url.hide (m.group 2) ++ "'>".toList ++ m.group 1 ++ "</a>".toList

/-- A list with one item. -/
def singleItem (list item : Text) : Text :=
  '\n' :: element list ("\n\t".toList ++ element "li".toList (Text.trim item) ++ ['\n'])

/-- An item of a bulleted list. -/
def unorderedItem : Handler := ofMatch fun m => singleItem "ul".toList (m.group 1)

/-- An item of a numbered list. -/
def orderedItem : Handler := ofMatch fun m => singleItem "ol".toList (m.group 1)

/-- A quoted line. -/
def blockquote : Handler := ofMatch fun m =>
  '\n' :: element "blockquote".toList (Text.trim (m.group 2))

/-- What the names of block elements begin with. -/
def blockNames : List Text :=
  ["ul", "ol", "li", "h", "p", "bl", "table", "tr", "th", "td", "code"].map String.toList

/-- Whether a text begins with the opening or closing tag of a block element. -/
def beginsBlock : Text → Bool
  | '<' :: '/' :: t => blockNames.any (·.isPrefixOf t)
  | '<' :: t => blockNames.any (·.isPrefixOf t)
  | _ => false

/-- A line as a paragraph, unless it is blank or begins with the tag of a block element. -/
def paragraphLine (line : Text) : Text :=
  let trimmed := Text.trim line
  if beginsBlock trimmed then line
  else if trimmed.isEmpty then []
  else element ['p'] trimmed

/-- A line of the document that is not set yet. -/
def paragraph : Handler := ofMatch fun m => paragraphLine (m.group 1)

/-- Put the markers back into the address of a link. -/
def unescapeLink : Handler := ofMatch fun m =>
  "<a href='".toList ++ Url.reveal (m.group 1) ++ "'>".toList

/-- Put the markers back into the address of an image. -/
def unescapeImage : Handler := ofMatch fun m =>
  "<img src='".toList ++ Url.reveal (m.group 1) ++ ['\'']

/-- The index that a placeholder names; a plus sign may stand before it. -/
def placeholderIndex? (digits : Text) : Option Nat :=
  match digits with
  | '+' :: digits => Text.index? digits
  | digits => Text.index? digits

/-- A code block takes the place of its placeholder. The digits of the placeholder are in the first
group that took part. A placeholder whose block does not exist stays and is reported. -/
def reinsertCodeBlock : Handler := fun m cx =>
  let digits := ((m.group? 1).or (m.group? 2)).getD []
  match placeholderIndex? digits with
  | none => (m.text, cx)
  | some index =>
    match cx.vault.reinsert index with
    | .ok block => (block, cx)
    | .error _ =>
      (m.text, (cx.note (.unresolved index cx.vault.size)).warn (.danglingPlaceholder index))

end Markdown.Handler
