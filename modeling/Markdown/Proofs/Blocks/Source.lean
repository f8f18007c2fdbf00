import Markdown.Proofs.Pattern.Lines
import Markdown.Proofs.Pattern.Tokens
import Markdown.Proofs.Words

/-!
# Documents line by line

The kinds of lines that make blocks of words, and the HTML that is expected for a list of them. Lists
and block quotes of neighbouring lines are joined if the options ask for it.
-/

namespace Markdown

/-! ## Blocks -/

/-- The blocks that can be merged with others of their kind. -/
inductive Family where
  | bulleted
  | numbered
  | quoted
deriving DecidableEq, Repr

/-- An item on a line of its own. -/
def itemLine (t : Text) : Text :=
  '\t' :: Handler.element "li".toList t ++ ['\n']

/-- A block that has some texts in it: a list with an item for each of them and a line feed between
the items, or a quote with a line for each. -/
def Family.block : Family → List Text → Text
  | bulleted, ts =>
    Handler.element "ul".toList ('\n' :: List.intercalate ['\n'] (ts.map itemLine))
  | numbered, ts =>
    Handler.element "ol".toList ('\n' :: List.intercalate ['\n'] (ts.map itemLine))
  | quoted, ts => Handler.element "blockquote".toList (List.intercalate ['\n'] ts)

/-! ## Lines -/

/-- A line that a carriage return may end. -/
inductive BlockLine where
  /-- Spaces and tabs. -/
  | blank (indent : Text) (isIndent : ∀ c ∈ indent, Line.isIndent c)
  /-- Words that are not blank. -/
  | plain (words : Words) (not_blank : Text.trim words.text ≠ [])
  /-- Number signs, spaces or tabs, and words. -/
  | heading (signs : Nat) (signs_pos : 0 < signs) (gap : Text) (gap_ne : gap ≠ [])
    (isIndent : ∀ c ∈ gap, Line.isIndent c) (words : Words)
  /-- An asterisk and words. -/
  | bullet (words : Words)
  /-- A number, a full stop and words. -/
  | numbered (digits : Text) (isDigits : IsDigits digits) (words : Words)
  /-- A closing angle bracket or its entity, and words. -/
  | quote (entity : Bool) (words : Words)

namespace BlockLine

/-- A line as it is written. -/
def text : BlockLine → Text
  | blank indent _ => indent
  | plain words _ => words.text
  | heading signs _ gap _ _ words => List.replicate signs '#' ++ gap ++ words.text
  | bullet words => '*' :: words.text
  | numbered digits _ words => digits ++ '.' :: words.text
  | quote entity words => (if entity then "&gt;".toList else ['>']) ++ words.text

/-- What a line says. -/
def content : BlockLine → Text
  | blank _ _ => []
  | plain words _ | heading _ _ _ _ _ words | bullet words | numbered _ _ words
  | quote _ words => Text.trim words.text

/-- The kind of block that a line can be merged as. -/
def family? : BlockLine → Option Family
  | bullet _ => some .bulleted
  | numbered _ _ _ => some .numbered
  | quote _ _ => some .quoted
  | _ => none

/-- The HTML of a line. -/
def html (o : Options) : BlockLine → Text
  | blank _ _ => []
  | plain words _ => Handler.element ['p'] (Text.trim words.text)
  | heading signs _ _ _ _ words =>
    Handler.element ('h' :: Text.ofNat (o.headingLevel signs)) (Text.trim words.text)
  | bullet words => Family.bulleted.block [Text.trim words.text]
  | numbered _ _ words => Family.numbered.block [Text.trim words.text]
  | quote _ words => Family.quoted.block [Text.trim words.text]

end BlockLine

/-- A line of a document. -/
inductive SourceLine where
  /-- A line that may end with a carriage return. -/
  | block (line : BlockLine) (carriageReturn : Bool)
  /-- Five hyphens and some more. -/
  | rule (more : Nat)

namespace SourceLine

/-- A line as it is written. -/
def text : SourceLine → Text
  | block line carriageReturn => line.text ++ if carriageReturn then ['\r'] else []
  | rule more => List.replicate (more + 5) '-'

/-- What a line says. -/
def content : SourceLine → Text
  | block line _ => line.content
  | rule _ => []

/-- The kind of block that a line can be merged as. -/
def family? : SourceLine → Option Family
  | block line _ => line.family?
  | rule _ => none

/-- The HTML of a line. -/
def html (o : Options) : SourceLine → Text
  | block line _ => line.html o
  | rule _ => "<hr />".toList

@[simp] theorem html_block (o : Options) (line : BlockLine) (carriageReturn : Bool) :
    html o (block line carriageReturn) = line.html o := rfl

@[simp] theorem html_rule (o : Options) (more : Nat) : html o (rule more) = "<hr />".toList := rfl

/-- Whether a line is merged with the one behind it. -/
def joins (l l' : SourceLine) : Bool :=
  l.family?.isSome && l.family? == l'.family?

/-- The HTML of some lines that are merged with each other; a line that cannot be merged is alone. -/
def runHtml (o : Options) (run : List SourceLine) : Text :=
  match run.head?.bind family? with
  | some f => f.block (run.map content)
  | none => run.flatMap (html o)

/-- The HTML that is expected for the lines of a document. -/
def reference (o : Options) (ls : List SourceLine) : Text :=
  List.intercalate ['\n']
    (if o.mergeAdjacentBlocks then (ls.splitBy joins).map (runHtml o) else ls.map (html o))

end SourceLine

end Markdown
