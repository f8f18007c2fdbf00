import Markdown.Proofs.Inline.Rendering

/-!
# Lines without signs

A line that has none of the characters with which Markdown marks something is rendered as a
paragraph that has it as it is (`Renderer.render_of_isUnmarked`): each rule but the one for paragraphs
leaves the document.
-/

namespace Markdown

open Pattern

/-- The characters that mark something, in a line or at its beginning. -/
def markingChars : List Char :=
  Table.spanChars ++ "\n#&-<>".toList

/-- A line that marks nothing. -/
structure IsUnmarked (t : Text) : Prop where
  notMem : ∀ c ∈ markingChars, c ∉ t
  isDigit_head : ∀ c ∈ t.head?, c.isDigit = false
  trim_eq : Text.trim t = t
  ne_nil : t ≠ []

namespace IsUnmarked

variable {t : Text} {c : Char} (h : IsUnmarked t)

include h

theorem isPlainLine (o : Options) : IsPlainLine o t := by
  obtain ⟨c, t, rfl⟩ := List.exists_cons_of_ne_nil h.ne_nil
  refine isPlainLine_cons o t (h.isDigit_head c (by simp)) fun hc => ?_
  have hsigns : ['#', '*', '>', '&', '-'] ⊆ markingChars := by decide
  exact h.notMem c (hsigns hc) (by simp)

theorem notMem_document (hc : c ∈ markingChars) (hlf : c ≠ '\n') : c ∉ '\n' :: t ++ ['\n'] := by
  simp [hlf, h.notMem c hc]

/-- The rules before the one for paragraphs leave the document. -/
theorem pass_setting (o : Options) :
    Table.setting.pass o ('\n' :: t ++ ['\n']) = '\n' :: t ++ ['\n'] := by
  have hlf := h.notMem '\n' (by decide)
  have hplain := h.isPlainLine o
  have hne : '\n' ∉ Table.spanChars := by decide
  refine Table.pass_setting_eq_self (fun c hc => ?_) ?_
  · exact h.notMem_document (List.mem_append_left _ hc) fun he => hne (he ▸ hc)
  · simp only [Table.lineRules, List.forall_mem_cons]
    exact ⟨hplain.pass_header hlf, hplain.pass_unorderedItem hlf, hplain.pass_orderedItem hlf,
      hplain.pass_blockquote hlf, hplain.pass_horizontalRule hlf, by simp⟩

theorem pass_wrapping (o : Options) :
    Table.wrapping.pass o ('\n' :: t ++ ['\n']) =
      '\n' :: Handler.element ['p'] t ++ ['\n'] := by
  have hhead : (Text.trim t).head? ≠ some '<' := by
    rw [h.trim_eq]
    exact fun he => h.notMem '<' (by decide) (List.mem_of_mem_head? he)
  have hne : Text.trim t ≠ [] := h.trim_eq.symm ▸ h.ne_nil
  rw [pass_wrapping_line o (h.notMem '\n' (by decide)) (Handler.beginsBlock_of_head? hhead) hne,
    h.trim_eq]

/-- Another tag does not begin in the paragraph. -/
theorem isFree_paragraph {m : Text}
    (hm : Text.lacks ('<' :: m) "\n<p>".toList ∧ Text.lacks ('<' :: m) "</p>\n".toList) :
    Text.IsFree ('<' :: m) ('\n' :: Handler.element ['p'] t ++ ['\n']) := by
  have hsplit : '\n' :: Handler.element ['p'] t ++ ['\n'] =
      "\n<p>".toList ++ (t ++ "</p>\n".toList) := by simp [Handler.element]
  rw [hsplit]
  exact (Text.isFree_of_lacks hm.1).append
    ((Text.isFree_of_notMem m (h.notMem '<' (by decide))).append (Text.isFree_of_lacks hm.2))

theorem pass_merging (o : Options) :
    (if o.mergeAdjacentBlocks then Table.merging else []).pass o
        ('\n' :: Handler.element ['p'] t ++ ['\n']) =
      '\n' :: Handler.element ['p'] t ++ ['\n'] :=
  Family.pass_merging_of_isFree o fun f => h.isFree_paragraph (by cases f <;> decide)

theorem pass_revealing (o : Options) :
    Table.revealing.pass o ('\n' :: Handler.element ['p'] t ++ ['\n']) =
      '\n' :: Handler.element ['p'] t ++ ['\n'] := by
  have hlink := Table.isPure_linkTag.pass_of_isFree_word isProper_linkTag opensWith_linkTag o
    (h.isFree_paragraph (by decide))
  have himage := Table.isPure_imageTag.pass_of_isFree_word isProper_imageTag opensWith_imageTag o
    (h.isFree_paragraph (by decide))
  rw [Table.revealing, Table.pass_cons, Table.pass_cons, Table.pass_nil, hlink, himage]

end IsUnmarked

/-- A line that marks nothing is rendered as a paragraph, if no braces of it are hidden. -/
theorem Renderer.render_of_isUnmarked (o : Options) {t : Text} (h : IsUnmarked t)
    (hbraces : (Protected.ofText t) = ⟨t, none⟩) :
    (ofOptions o).render t = Handler.element ['p'] t := by
  have hfence : ¬ Pattern.fence <:+: (Protected.ofText t).document := by
    rw [hbraces]
    intro hin
    exact h.notMem_document (by decide) (by decide) (hin.subset (show '`' ∈ Pattern.fence by decide))
  rw [render_of_not_fence o hfence, hbraces, Protected.document, Table.pass_between, h.pass_setting,
    h.pass_wrapping, h.pass_merging, h.pass_revealing, Text.trim_document, Handler.trim_element]
  rfl

end Markdown
