import Markdown.Proofs.Blocks.Merging
import Markdown.Proofs.Reinsertion

/-!
# Rendering line by line

A document of words in lines is rendered as its reference says (`Renderer.render_lines`).
-/

namespace Markdown

open Pattern

namespace SourceLine

variable (o : Options) (ls : List SourceLine)

theorem stage_zero (l : SourceLine) (ls : List SourceLine) :
    stage o 0 (l :: ls) = '\n' :: List.intercalate ['\n'] ((l :: ls).map text) ++ ['\n'] := by
  have hlines : (l :: ls).flatMap (atRank o 0) = (l :: ls).map text := by
    rw [List.map_eq_flatMap]
    rfl
  rw [stage, hlines, Text.ofLines_append, List.map_cons, Text.intercalate_lineFeed]
  rfl

/-- Behind the rule for paragraphs, all lines are set. -/
theorem stage_six : stage o 6 ls = ls.flatMap ('\n' :: html o ·) ++ ['\n'] := by
  have hline (l : SourceLine) : (l.atRank o 6).flatMap ('\n' :: ·) = '\n' :: l.html o := by
    have hrank : l.rank < 6 := by
      unfold rank
      split <;> decide
    rw [atRank, if_pos hrank, flatMap_htmlLines]
  rw [stage, Text.ofLines_append, Text.ofLines, List.nil_append, List.flatMap_assoc]
  simp only [hline]
  rfl

theorem stage_six_eq_runs : stage o 6 ls = runs o [] (ls.splitBy joins) := by
  have hrun : ∀ g ∈ ls.splitBy joins,
      '\n' :: mergedHtml o [] g = g.flatMap ('\n' :: html o ·) := by
    intro g hg
    obtain ⟨l, g, rfl⟩ := List.exists_cons_of_ne_nil (List.ne_nil_of_mem_splitBy hg)
    rw [mergedHtml_nil, List.map_cons, Text.intercalate_lineFeed, Text.ofLines, List.flatMap_map]
    rfl
  rw [stage_six, runs, List.flatMap_congr hrun]
  congr 1
  conv => lhs; rw [← List.flatten_splitBy joins ls]
  rw [← List.flatMap_id, List.flatMap_assoc]
  rfl

/-- The rules behind the one for paragraphs leave the blocks of the reference. -/
theorem pass_merging_stage :
    (if o.mergeAdjacentBlocks then Table.merging else []).pass o (stage o 6 ls) =
      (if o.mergeAdjacentBlocks then (ls.splitBy joins).map (runHtml o)
        else ls.map (html o)).flatMap ('\n' :: ·) ++ ['\n'] := by
  split
  · rw [stage_six_eq_runs, pass_merging, List.flatMap_map]
  · rw [Table.pass_nil, stage_six, List.flatMap_map]

theorem quote_notMem_pass_merging :
    '\'' ∉ (if o.mergeAdjacentBlocks then Table.merging else []).pass o (stage o 6 ls) := by
  have hstage : '\'' ∉ stage o 6 ls := notMem_stage (by decide) (by decide) (by decide)
  split
  · have hpass (f : Family) {d : Text} (hd : '\'' ∉ d) :
        '\'' ∉ f.seamPattern.rewriteFrom (fun _ => f.glue) none d := by
      intro hm
      rcases mem_rewriteFrom (Family.isProper_seamPattern f) _ hm with hm | ⟨-, hm⟩
      · exact hd hm
      · cases f <;> simp [Family.glue] at hm
    rw [Table.pass_merging]
    exact hpass .quoted (hpass .numbered (hpass .bulleted hstage))
  · exact hstage

theorem pass_revealing {d : Text} (h : '\'' ∉ d) : Table.revealing.pass o d = d := by
  rw [Table.revealing, Table.pass_cons, Table.pass_cons, Table.pass_nil,
    Table.isPure_linkTag.pass_of_notMem_word isProper_linkTag opensWith_linkTag o (by decide) h,
    Table.isPure_imageTag.pass_of_notMem_word isProper_imageTag opensWith_imageTag o (by decide) h]

end SourceLine

namespace Renderer

open SourceLine

theorem render_lines_cons (o : Options) (l : SourceLine) (ls : List SourceLine) :
    (ofOptions o).render (List.intercalate ['\n'] ((l :: ls).map text)) =
      Text.trim (reference o (l :: ls)) := by
  have hdocument := SourceLine.stage_zero o l ls
  have hnotMem {c : Char} (hc : isBaseChar c = false) (hlf : c ≠ '\n')
      (hsign : c ∉ ['#', '*', '.', '-']) : c ∉ List.intercalate ['\n'] ((l :: ls).map text) := by
    have hstage : c ∉ SourceLine.stage o 0 (l :: ls) := notMem_stage hc hlf hsign
    rw [hdocument] at hstage
    exact fun hm => hstage (List.mem_append_left _ (List.mem_cons_of_mem _ hm))
  have hfence : ¬ fence <:+: List.intercalate ['\n'] ((l :: ls).map text) := fun hin =>
    hnotMem (c := '`') (by decide) (by decide) (by decide) (hin.subset (by decide))
  have hblocks : ∃ x xs, (if o.mergeAdjacentBlocks then ((l :: ls).splitBy joins).map (runHtml o)
      else (l :: ls).map (html o)) = x :: xs := by
    refine List.exists_cons_of_ne_nil ?_
    split <;> simp
  obtain ⟨x, xs, hblocks⟩ := hblocks
  rw [render_of_notMem o (hnotMem (by decide) (by decide) (by decide)) hfence, ← hdocument,
    Table.pass_between, pass_setting, pass_wrapping,
    pass_revealing o (quote_notMem_pass_merging o (l :: ls)), pass_merging_stage,
    SourceLine.reference, hblocks, Text.intercalate_lineFeed]
  exact Text.trim_document (Text.ofLines x xs)

/-- A document of words in lines is rendered line by line, but for the neighbouring blocks that are
merged. -/
theorem render_lines (o : Options) (ls : List SourceLine) :
    (ofOptions o).render (List.intercalate ['\n'] (ls.map text)) = Text.trim (reference o ls) := by
  cases ls with
  | nil =>
    -- a document without lines is one with an empty line
    have hempty := render_lines_cons o (.block (.blank [] (by simp)) false) []
    have hreference : reference o [.block (.blank [] (by simp)) false] = [] := by
      unfold SourceLine.reference
      split <;> rfl
    have hnil : reference o [] = [] := by
      unfold SourceLine.reference
      split <;> rfl
    rw [hreference] at hempty
    rw [hnil]
    exact hempty
  | cons l ls => exact render_lines_cons o l ls

end Renderer

end Markdown
