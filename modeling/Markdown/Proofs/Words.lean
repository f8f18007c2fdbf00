import Markdown.Proofs.Text.Trimming

/-!
# Words

Letters, digits, spaces and commas mean nothing to the rules.
-/

namespace Markdown

/-- An ASCII letter or digit, a space or a comma. -/
def isWordChar (c : Char) : Bool :=
  c.isAlphanum || c == ' ' || c == ','

/-- A text of letters, digits, spaces and commas. -/
structure Words where
  text : Text
  isWordChar_of_mem : ∀ c ∈ text, isWordChar c

namespace Words

variable (w : Words) {c : Char}

/-- Other characters do not stand among words. -/
theorem notMem (h : isWordChar c = false) : c ∉ w.text := by
  intro hc
  rw [w.isWordChar_of_mem c hc] at h
  exact absurd h (by simp)

theorem isWordChar_of_mem_trim (h : c ∈ Text.trim w.text) : isWordChar c :=
  w.isWordChar_of_mem c (Text.mem_of_mem_trim h)

end Words

end Markdown
