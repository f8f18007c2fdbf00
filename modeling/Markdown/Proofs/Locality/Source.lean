import Markdown.Proofs.Inline.Setting

/-!
# Paragraphs and quotes with emphasis

Documents of paragraphs and quotes of one line each, with an empty line between two of them. A block
is rendered as if it were alone unless the tags of a quote behind it close one of its markers
(`Block.IsLocal`).
-/

namespace Markdown

namespace Span

/-- Strong emphasis, emphasis and deleted text are found by their delimiters. -/
def isDelimited : Span → Bool
  | strong _ _ => true
  | emphasis _ _ => true
  | deleted _ => true
  | _ => false

theorem rank_of_isDelimited {s : Span} (h : s.isDelimited) : 2 ≤ s.rank ∧ s.rank ≤ 4 := by
  cases s <;> simp [isDelimited, rank] at h ⊢

end Span

/-- The words that a line ends with. -/
def lastWords (w : Words) (ss : List (Span × Words)) : Words :=
  (ss.getLast?.map Prod.snd).getD w

/-- A line whose spans have delimiters, and which begins and ends with a letter. -/
structure DelimitedLine extends SpanLine where
  isDelimited_of_mem : ∀ s ∈ rest, s.1.isDelimited
  isAlpha_getLast : ∃ t c, (lastWords first rest).text = t ++ [c] ∧ c.isAlpha

/-- A line as a paragraph or as a quote. -/
structure Block where
  quoted : Bool
  line : DelimitedLine

namespace Block

/-- A block as it is written. -/
def text (b : Block) : Text :=
  (if b.quoted then ['>', ' '] else []) ++ b.line.text

/-- The element of a block around its content. -/
def element (quoted : Bool) (content : Text) : Text :=
  Handler.element (if quoted then "blockquote".toList else ['p']) content

/-- The block `b` behind the block `a` does not close a marker of `a`: it is no quote, or for every
span of `a` it has no span that is set before, or such a span stands behind that one in `a`. -/
def IsLocal (a b : Block) : Prop :=
  b.quoted → ∀ earlier s later, a.line.rest = earlier ++ s :: later →
    (∀ t ∈ b.line.rest, s.1.rank ≤ t.1.rank) ∨ ∃ t ∈ later, t.1.rank < s.1.rank

end Block

/-- Blocks with an empty line between two of them. -/
def joinBlocks (ts : List Text) : Text :=
  List.intercalate ['\n', '\n'] ts

/-! ## Spans that are set -/

/-- A span of a line with the words behind it, and whether its delimiters are found. -/
structure FlaggedSpan where
  span : Span
  words : Words
  isSet : Bool

namespace FlaggedSpan

/-- A span that is set before the rule of rank `n`. -/
def isSetBefore (n : Nat) (s : FlaggedSpan) : Bool :=
  s.isSet && decide (s.span.rank < n)

/-- A span before the rule of rank `n`. -/
def atRank (n : Nat) (s : FlaggedSpan) : Text :=
  if s.isSetBefore n then s.span.hidden else s.span.text

end FlaggedSpan

/-- Which spans of a line are set. If the text behind the line makes the rule of rank `n` believe that
it is inside of a tag, the delimiters in front of a tag of the line are found and the others are
not. -/
def flagSpans (inside : Nat → Bool) : List (Span × Words) → List FlaggedSpan
  | [] => []
  | s :: ss =>
    ⟨s.1, s.2, !inside s.1.rank || (flagSpans inside ss).any (·.isSetBefore s.1.rank)⟩ ::
      flagSpans inside ss

/-- A block of which it is known which spans are set. -/
structure FlaggedBlock where
  quoted : Bool
  first : Words
  spans : List FlaggedSpan

/-- Whether the rule of rank `n` believes to be inside of a tag in front of some blocks: the first of
them that has a tag is a quote. -/
def insideTag (n : Nat) : List FlaggedBlock → Bool
  | [] => false
  | b :: bs => if b.spans.any (·.isSetBefore n) then b.quoted else insideTag n bs

/-- Which spans of a block are set in front of others. -/
def flagBlock (b : Block) (bs : List FlaggedBlock) : FlaggedBlock :=
  ⟨b.quoted, b.line.first, flagSpans (insideTag · bs) b.line.rest⟩

/-- Which spans of the blocks of a document are set. -/
def flagBlocks : List Block → List FlaggedBlock
  | [] => []
  | b :: bs => flagBlock b (flagBlocks bs) :: flagBlocks bs

/-- A line before the rule of rank `n`. -/
def spannedAt (n : Nat) (w : Words) (ss : List FlaggedSpan) : Text :=
  w.text ++ ss.flatMap fun s => s.atRank n ++ s.words.text

namespace FlaggedBlock

/-- What stands in a block before the rule of rank `n`. -/
def content (n : Nat) (b : FlaggedBlock) : Text :=
  spannedAt n b.first b.spans

/-- The line of a block before the rule of rank `n`. -/
def lineAt (n : Nat) (b : FlaggedBlock) : Text :=
  (if b.quoted then ['>', ' '] else []) ++ b.content n

/-- The HTML of a block. -/
def html (b : FlaggedBlock) : Text :=
  Block.element b.quoted (b.content 5)

end FlaggedBlock

/-- The lines of some blocks behind another one. -/
def linesBehind (f : FlaggedBlock → Text) (bs : List FlaggedBlock) : List Text :=
  bs.flatMap fun b => [[], f b]

/-- What stands behind a block before the rule of rank `n`, up to the end of the document. -/
def blocksBehind (n : Nat) (bs : List FlaggedBlock) : Text :=
  bs.flatMap (fun b => '\n' :: '\n' :: b.lineAt n) ++ ['\n']

/-- A document of blocks before the rule of rank `n`. -/
def blocksAt (n : Nat) (b : FlaggedBlock) (bs : List FlaggedBlock) : Text :=
  '\n' :: b.lineAt n ++ blocksBehind n bs

end Markdown
