import Markdown.Pattern

/-!
# The standard patterns

What the rules of the standard table look for. Each regular expression stands here twice, as it is
written, which is its key, and as it is run; `agreesWithSource_of_mem_standard` says that the two
agree.
-/

namespace Markdown

namespace Pattern

open Regex

/-- Three backticks. -/
def fence : Text := "```".toList

/-- Code between two fences. -/
def fencedCode : Pattern :=
  regex "(?s)```(.*?)```".toList
    (seqs (fence.map char ++ [group 1 (run false .any)] ++ fence.map char)) 1

/-- A line that begins with number signs and blanks. -/
def header : Pattern :=
  regex "\\n(#+)[ \\t]+(.*)".toList
    (seqs [char '\n', group 1 (run1 true (.single '#')),
      run1 true (.union (.single ' ') (.single '\t')), group 2 (run true .notLineFeed)]) 2

/-- A description in brackets and an address in parentheses. -/
def reference : List Regex :=
  [char '[', group 1 (run1 true (.compl (.single '['))), char ']', char '(',
    group 2 (run1 true (.compl (.single ')'))), char ')']

/-- A reference behind an exclamation mark. -/
def image : Pattern :=
  regex "!\\[([^\\[]+)\\]\\(([^\\)]+)\\)".toList (seqs (char '!' :: reference)) 2

/-- A reference. -/
def link : Pattern :=
  regex "\\[([^\\[]+)\\]\\(([^\\)]+)\\)".toList (seqs reference) 2

/-- The markers of strong emphasis. -/
def strong : Pattern := ofMarkers ["**".toList, "__".toList]

/-- The markers of emphasis. -/
def emphasis : Pattern := ofMarkers ["*".toList, "_".toList]

/-- The marker of deleted text. -/
def deleted : Pattern := ofMarkers ["~~".toList]

/-- A quotation between `:"` and `":`. -/
def quotation : Pattern :=
  regex ":\"(.*?)\":".toList
    (seqs [char ':', char '"', group 1 (run false .notLineFeed), char '"', char ':']) 1

/-- Code between backticks. -/
def inlineCode : Pattern :=
  regex "`(.*?)`".toList (seqs [char '`', group 1 (run false .notLineFeed), char '`']) 1

/-- A line that begins with an asterisk. -/
def unorderedItem : Pattern :=
  regex "\\n\\*(.*)".toList (seqs [char '\n', char '*', group 1 (run true .notLineFeed)]) 1

/-- A line that begins with a number and a full stop. -/
def orderedItem : Pattern :=
  regex "\\n[0-9]+\\.(.*)".toList
    (seqs [char '\n', run1 true (.range '0' '9'), char '.', group 1 (run true .notLineFeed)]) 1

/-- A line that begins with a closing angle bracket or its entity. -/
def blockquote : Pattern :=
  regex "\\n(&gt;|>)(.*)".toList
    (seqs [char '\n', group 1 (alt (text "&gt;".toList) (char '>')),
      group 2 (run true .notLineFeed)]) 2

/-- A line that begins with five hyphens, and the hyphens behind them. -/
def horizontalRule : Pattern :=
  regex "\\n-\x7b5,\x7d".toList
    (seqs [char '\n', seqs (List.replicate 5 (char '-') ++ [run true (.single '-')])]) 0

/-- A line that is not empty. -/
def paragraph : Pattern :=
  regex "(?m)^([^\\n]+)$".toList
    (seqs [assert .lineStart, group 1 (run1 true .notLineFeed), assert .lineEnd]) 1

/-- The end of one element and the beginning of the next, with at most one white space between. -/
def adjacent (closing opening : Text) : Pattern :=
  regex (closing ++ "\\s?".toList ++ opening)
    (seqs (closing.map char ++ optional true (one .whiteSpace) :: opening.map char)) 0

/-- The seam between two bulleted lists. -/
def adjacentUnordered : Pattern := adjacent "</ul>".toList "<ul>".toList

/-- The seam between two numbered lists. -/
def adjacentOrdered : Pattern := adjacent "</ol>".toList "<ol>".toList

/-- The seam between two block quotes. -/
def adjacentBlockquotes : Pattern := adjacent "</blockquote>".toList "<blockquote>".toList

/-- The opening tag of a link. -/
def linkTag : Pattern :=
  regex "<a href='(.*?)'>".toList
    (seqs ("<a href='".toList.map char ++
      [group 1 (run false .notLineFeed), char '\'', char '>'])) 1

/-- The beginning of the tag of an image, with its address. -/
def imageTag : Pattern :=
  regex "<img src='(.*?)'".toList
    (seqs ("<img src='".toList.map char ++ [group 1 (run false .notLineFeed), char '\''])) 1

/-- The parts of a placeholder whose digits are recorded under a number. -/
def placeholderParts (index : Nat) : List Regex :=
  List.replicate 3 (char '\x7b') ++ [group index (run1 true (.range '0' '9'))] ++
    List.replicate 3 (char '\x7d')

/-- A placeholder, with the tags of a paragraph if they are directly around it. -/
def placeholder : Pattern :=
  let token := "\\\x7b\\\x7b\\\x7b([0-9]+)\\\x7d\\\x7d\\\x7d".toList
  regex ("<p>".toList ++ token ++ "</p>|".toList ++ token)
    (alt (seqs ("<p>".toList.map char ++ placeholderParts 1 ++ "</p>".toList.map char))
      (seqs (placeholderParts 2))) 2

/-- The patterns of the standard rules. -/
def standard : List Pattern :=
  [fencedCode, header, image, link, strong, emphasis, deleted, quotation, inlineCode,
    unorderedItem, orderedItem, blockquote, horizontalRule, paragraph, adjacentUnordered,
    adjacentOrdered, adjacentBlockquotes, linkTag, imageTag, placeholder]

/-- Whether a pattern is the one that its written form stands for. -/
def agreesWithSource : Pattern → Bool
  | regex source program groups => parse? source == some (program, groups)
  | delimiter _ => true

/-- The standard patterns are what their written forms stand for. -/
theorem agreesWithSource_of_mem_standard :
    ∀ p ∈ standard, p.agreesWithSource = true := by
  decide +kernel

end Pattern

end Markdown
