import Markdown.Handler
import Markdown.Proofs.Words

/-!
# Lines with spans

The spans that can stand in a line of words, and the HTML that is expected for them.
-/

namespace Markdown

/-! ## What a span holds -/

/-- Words that are there. -/
structure Phrase extends Words where
  ne_nil : text ≠ []

/-- The characters of an address. -/
def isAddressChar (c : Char) : Bool :=
  c.isAlphanum || [':', '/', '.', '_', '-', '?', '=', '&', '#'].contains c

/-- Where a link leads or an image is. -/
structure Address where
  text : Text
  ne_nil : text ≠ []
  isAddressChar_of_mem : ∀ c ∈ text, isAddressChar c

/-- The characters that cannot stand in a piece of code. -/
def nonCodeChars : List Char :=
  ['`', '\r', '\n', '<', '>', '[', ']', '\x7b', '"']

/-- A piece of code, which may be empty. -/
structure Code where
  text : Text
  notMem : ∀ c ∈ nonCodeChars, c ∉ text

theorem Address.notMem (u : Address) {c : Char} (h : isAddressChar c = false) : c ∉ u.text := by
  intro hc
  rw [u.isAddressChar_of_mem c hc] at h
  exact absurd h (by simp)

/-! ## Spans -/

/-- What stands between the words of a line. The markers of emphasis are underscores or asterisks. -/
inductive Span where
  | strong (underscores : Bool) (phrase : Phrase)
  | emphasis (underscores : Bool) (phrase : Phrase)
  | deleted (phrase : Phrase)
  | quotation (phrase : Phrase)
  | code (code : Code)
  | link (phrase : Phrase) (address : Address)
  | image (phrase : Phrase) (address : Address)

namespace Span

/-- The character that markers are made of. -/
def markerChar (underscores : Bool) : Char :=
  if underscores then '_' else '*'

/-- A span as it is written. -/
def text : Span → Text
  | strong underscores x =>
    let c := markerChar underscores
    [c, c] ++ x.text ++ [c, c]
  | emphasis underscores x => markerChar underscores :: x.text ++ [markerChar underscores]
  | deleted x => "~~".toList ++ x.text ++ "~~".toList
  | quotation x => ":\"".toList ++ x.text ++ "\":".toList
  | code c => '`' :: c.text ++ ['`']
  | link x u => '[' :: x.text ++ "](".toList ++ u.text ++ [')']
  | image x u => "![".toList ++ x.text ++ "](".toList ++ u.text ++ [')']

/-- The HTML of a span with what is made of the address of a link and of an image. -/
def htmlWith (link image : Text → Text) : Span → Text
  | strong _ x => Handler.element "strong".toList x.text
  | emphasis _ x => Handler.element "em".toList x.text
  | deleted x => Handler.element "del".toList x.text
  | quotation x => Handler.element ['q'] x.text
  | code c => Handler.element "code".toList c.text
  | .link x u => "<a href='".toList ++ link u.text ++ "'>".toList ++ x.text ++ "</a>".toList
  | .image x u =>
    "<img src='".toList ++ image u.text ++ "' alt='".toList ++ x.text ++ "' />".toList

/-- The HTML of a span. -/
def html : Span → Text :=
  htmlWith id id

variable (underscores : Bool) (x : Phrase) (u : Address) (c : Code) (f g : Text → Text)

@[simp] theorem text_strong : text (strong underscores x) =
    [markerChar underscores, markerChar underscores] ++ x.text ++
      [markerChar underscores, markerChar underscores] := rfl

@[simp] theorem text_emphasis : text (emphasis underscores x) =
    [markerChar underscores] ++ x.text ++ [markerChar underscores] := rfl

@[simp] theorem text_deleted : text (deleted x) = ['~', '~'] ++ x.text ++ ['~', '~'] := rfl

@[simp] theorem text_quotation : text (quotation x) = [':', '"'] ++ x.text ++ ['"', ':'] := rfl

@[simp] theorem text_code : text (code c) = ['`'] ++ c.text ++ ['`'] := rfl

@[simp] theorem text_link :
    text (link x u) = ['['] ++ x.text ++ [']', '('] ++ u.text ++ [')'] := rfl

@[simp] theorem text_image :
    text (image x u) = ['!', '['] ++ x.text ++ [']', '('] ++ u.text ++ [')'] := rfl

@[simp] theorem htmlWith_strong :
    htmlWith f g (strong underscores x) = Handler.element "strong".toList x.text := rfl

@[simp] theorem htmlWith_emphasis :
    htmlWith f g (emphasis underscores x) = Handler.element "em".toList x.text := rfl

@[simp] theorem htmlWith_deleted :
    htmlWith f g (deleted x) = Handler.element "del".toList x.text := rfl

@[simp] theorem htmlWith_quotation :
    htmlWith f g (quotation x) = Handler.element ['q'] x.text := rfl

@[simp] theorem htmlWith_code :
    htmlWith f g (code c) = Handler.element "code".toList c.text := rfl

@[simp] theorem htmlWith_link : htmlWith f g (link x u) =
    "<a href='".toList ++ f u.text ++ "'>".toList ++ x.text ++ "</a>".toList := rfl

@[simp] theorem htmlWith_image : htmlWith f g (image x u) =
    "<img src='".toList ++ g u.text ++ "' alt='".toList ++ x.text ++ "' />".toList := rfl

end Span

/-- Words, and spans with words behind each of them. -/
def spanned (f : Span → Text) (w : Words) (ss : List (Span × Words)) : Text :=
  w.text ++ ss.flatMap fun s => f s.1 ++ s.2.text

/-- A line that begins with a letter, with spans between its words. -/
structure SpanLine where
  first : Words
  rest : List (Span × Words)
  isAlpha_head : ∃ c t, first.text = c :: t ∧ c.isAlpha
  ne_nil : ∀ s ∈ rest, s.2.text ≠ []

namespace SpanLine

/-- A line as it is written. -/
def text (line : SpanLine) : Text :=
  spanned Span.text line.first line.rest

/-- The HTML of what stands in a line. -/
def html (line : SpanLine) : Text :=
  spanned Span.html line.first line.rest

end SpanLine

end Markdown
