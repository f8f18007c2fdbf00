/-!
# Options

What can be chosen about the rendering of a document.
-/

namespace Markdown

/-- The options of a renderer. -/
structure Options where
  /-- Keep the levels of headings within those that HTML has, one to six. -/
  clampHeadingLevel : Bool := false
  /-- Join lists that follow each other directly into one, and block quotes likewise. -/
  mergeAdjacentBlocks : Bool := true
deriving DecidableEq, Repr

namespace Options

/-- The options under which every level of heading is one that HTML has. -/
def strictHtml : Options := { clampHeadingLevel := true }

/-- The level of a heading that begins with a row of `markers` signs. -/
def headingLevel (o : Options) (markers : Nat) : Nat :=
  if o.clampHeadingLevel then max 1 (min markers 6) else markers

theorem headingLevel_mem {o : Options} (h : o.clampHeadingLevel = true) (n : Nat) :
    1 ≤ o.headingLevel n ∧ o.headingLevel n ≤ 6 := by
  simp only [headingLevel, h, if_true]
  omega

end Options

end Markdown
