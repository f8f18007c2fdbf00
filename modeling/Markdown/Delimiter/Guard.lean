import Markdown.Text.Basic

/-!
# Guards of a delimiter

An opening delimiter is ignored inside inline code and inside the tags that earlier rules have
written. Both are judged by the text behind it.

* It is outside code if the backticks behind it pair up, no pair holding a line break.
* It is inside a tag if a `>` is behind it, with no `/` or `<` in between, and a closing tag follows
  on the line of that `>`. A closing tag is `</`, a character that is no line feed, and a `>` later
  on the line.

The guards of all places of a text are found in one pass from its end.
-/

namespace Markdown

/-- What can be said about the text from a place on. -/
structure Outlook where
  /-- The backticks pair up, seen from outside of code. -/
  outsideCode : Bool
  /-- The backticks pair up, seen from inside of code. -/
  insideCode : Bool
  /-- A `>` follows on the line. -/
  tagEndAhead : Bool
  /-- A closing tag follows on the line. -/
  closingTagAhead : Bool
  /-- The place is inside a tag. -/
  insideTag : Bool
deriving DecidableEq, Repr

/-- What can be said at the end of a text. -/
def Outlook.atEnd : Outlook := ⟨true, false, false, false, false⟩

/-- A character of a text, with what can be said about the text from it on. -/
structure Spot where
  char : Char
  outlook : Outlook
deriving DecidableEq, Repr

namespace Spot

/-- What can be said about the text of some spots. -/
def ahead : List Spot → Outlook
  | [] => .atEnd
  | s :: _ => s.outlook

/-- Whether the text of some spots completes a `<` to a closing tag. -/
def completesClosingTag : List Spot → Bool
  | slash :: s :: spots => slash.char == '/' && s.char != '\n' && (ahead spots).tagEndAhead
  | _ => false

/-- What can be said about a text from its first character and the spots of the others. -/
def outlookOf (c : Char) (spots : List Spot) : Outlook :=
  let next := ahead spots
  { outsideCode := if c = '`' then next.insideCode else next.outsideCode
    insideCode :=
      if c = '`' then next.outsideCode else c != '\n' && c != '\r' && next.insideCode
    tagEndAhead := c != '\n' && (c == '>' || next.tagEndAhead)
    closingTagAhead :=
      c != '\n' && (c == '<' && completesClosingTag spots || next.closingTagAhead)
    insideTag :=
      c != '/' && c != '<' && (c == '>' && next.closingTagAhead || next.insideTag) }

/-- The spots of a text. -/
def ofText (t : Text) : List Spot :=
  t.foldr (fun c spots => ⟨c, outlookOf c spots⟩ :: spots) []

@[simp] theorem ofText_nil : ofText [] = [] := rfl

theorem ofText_cons (c : Char) (t : Text) :
    ofText (c :: t) = ⟨c, outlookOf c (ofText t)⟩ :: ofText t := rfl

/-- The spots of a text hold its characters. -/
@[simp] theorem map_char_ofText (t : Text) : (ofText t).map char = t := by
  induction t with
  | nil => rfl
  | cons c t ih => simp [ofText_cons, ih]

end Spot

/-- Whether a delimiter in front of some spots may open. -/
def Outlook.mayOpen (o : Outlook) : Bool :=
  o.outsideCode && !o.insideTag

end Markdown
