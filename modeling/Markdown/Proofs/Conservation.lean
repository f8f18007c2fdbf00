import Markdown.Proofs.Marks.Passes
import Markdown.Proofs.Reserved
import Markdown.Proofs.Stages
import Markdown.Proofs.Tokens

/-!
# Conservation of code blocks

A placeholder is a durable word, so that it is still there when the last rule looks for it, as often
as the first rule has written it. If no reserved token stands in the text, that is once, and no other
token stands in the document (`Renderer.placeholders_settled`).
-/

namespace Markdown

open Text

variable {ps : List (Piece Char (List (Option Text)))}

/-- The placeholders that extraction writes stand in its text. -/
theorem placeholder_infix_withPlaceholders (n : Nat) {j : Nat} (h : j < ps.countP Piece.isFound) :
    placeholder (n + j) <:+: withPlaceholders n ps := by
  induction ps generalizing n j with
  | nil => simp at h
  | cons p ps ih =>
    cases p with
    | kept c =>
      have h' : j < ps.countP Piece.isFound := by simpa [Piece.isFound] using h
      exact List.infix_cons_iff.2 (.inr (ih n h'))
    | found taken groups =>
      rw [withPlaceholders]
      cases j with
      | zero => exact ⟨[], withPlaceholders (n + 1) ps, rfl⟩
      | succ j =>
        rw [List.countP_cons_of_pos rfl] at h
        have htail := ih (n + 1) (Nat.lt_of_succ_lt_succ h)
        rw [Nat.add_assoc, Nat.add_comm 1] at htail
        exact htail.trans (List.suffix_append ..).isInfix

/-- If no three braces stand in the pieces, the tokens in their text are the placeholders that
extraction has written. -/
theorem occurrences_withPlaceholders {ds : Text} (hds : IsDigits ds) (n : Nat)
    (h : ¬ "\x7b\x7b\x7b".toList <:+: ps.flatMap Piece.source) :
    occurrences (token ds) (withPlaceholders n ps) =
      (List.range' n (ps.countP Piece.isFound)).countP fun i => token ds = placeholder i := by
  have hnone {t : Text} (ht : ¬ "\x7b\x7b\x7b".toList <:+: t) : occurrences (token ds) t = 0 := by
    rw [occurrences_eq_zero_iff (isDurable_token hds).ne_nil]
    refine fun hin => ht (List.IsInfix.trans ?_ hin)
    exact ⟨[], ds ++ "\x7d\x7d\x7d".toList, by simp [token]⟩
  -- `l` is what has been passed since the last match
  have hbehind (l : Text) (hl : ¬ "\x7b\x7b\x7b".toList <:+: l ++ ps.flatMap Piece.source) :
      occurrences (token ds) (l ++ withPlaceholders n ps) =
        (List.range' n (ps.countP Piece.isFound)).countP fun i => token ds = placeholder i := by
    clear h
    induction ps generalizing n l with
    | nil =>
      rw [withPlaceholders, hnone (by simpa using hl)]
      rfl
    | cons p ps ih =>
      cases p with
      | kept c =>
        have hl' : ¬ "\x7b\x7b\x7b".toList <:+: l ++ [c] ++ ps.flatMap Piece.source := by
          simpa [Piece.source] using hl
        rw [withPlaceholders, List.append_cons, ih n _ hl']
        simp [Piece.isFound]
      | found taken groups =>
        have hps : ¬ "\x7b\x7b\x7b".toList <:+: [] ++ ps.flatMap Piece.source := fun hin =>
          hl (hin.trans ⟨l ++ taken, [], by simp [Piece.source]⟩)
        have hfront : ¬ "\x7b\x7b\x7b".toList <:+: l := fun hin =>
          hl (hin.trans (List.prefix_append ..).isInfix)
        have hclosed := isClosed_token hds (isDigits_ofNat n)
        have hone := occurrences_token hds (isDigits_ofNat n)
        have htail := ih (n + 1) [] hps
        rw [List.nil_append] at htail
        rw [withPlaceholders, ← List.append_assoc, placeholder_eq_token, hclosed, hone, htail,
          hnone hfront]
        rw [List.countP_cons_of_pos rfl, List.range'_succ, List.countP_cons, placeholder_eq_token]
        have hiff : token ds = token (Text.ofNat n) ↔ ds = Text.ofNat n :=
          ⟨token_inj, congrArg token⟩
        simp only [hiff, decide_eq_true_eq]
        omega
  exact hbehind [] h

namespace Renderer

variable (o : Options) (t : Text)

/-- The tokens in the document behind the first rule are its placeholders, if no reserved token has
been left in the text. -/
theorem occurrences_extracted {ds : Text} (hds : IsDigits ds)
    (h : Reserved.occursIn t = false ∨ (Protected.ofText t).standIn.isSome) :
    occurrences (token ds) (extracted o t).1 =
      (List.range (extracted o t).2.vault.size).countP fun i => token ds = placeholder i := by
  have hsource : (fencedPieces t).flatMap Piece.source = (Protected.ofText t).document :=
    Pattern.flatMap_source_pieces ..
  rw [text_extracted, size_vault_extracted, List.range_eq_range']
  refine occurrences_withPlaceholders hds 0 ?_
  rw [hsource]
  exact Protected.not_braces_infix_document h

theorem countP_placeholder {i k : Nat} (hi : i < k) :
    (List.range k).countP (fun j => placeholder i = placeholder j) = 1 := by
  have hcongr : (List.range k).countP (fun j => placeholder i = placeholder j) =
      (List.range k).count i := by
    refine List.countP_congr fun j _ => ?_
    simp only [decide_eq_true_eq, beq_iff_eq]
    exact ⟨fun h => (placeholder_inj h).symm, fun h => congrArg placeholder h.symm⟩
  rw [hcongr, List.nodup_range.count, if_pos (List.mem_range.2 hi)]

/-- Each stored block has its placeholder in the document that the last rule gets. If blocks are not
merged and no reserved token stands in the text, it stands there once, and there is no other
token. -/
theorem placeholders_settled :
    (∀ i < (extracted o t).2.vault.size, 1 ≤ occurrences (placeholder i) (settled o t).1) ∧
      (o.mergeAdjacentBlocks = false → Reserved.occursIn t = false →
        (∀ i < (extracted o t).2.vault.size, occurrences (placeholder i) (settled o t).1 = 1) ∧
          OnlyPlaceholders (extracted o t).2.vault.size (settled o t).1) := by
  have hdurable (i : Nat) : IsDurable (placeholder i) := isDurable_token (isDigits_ofNat i)
  constructor
  · intro i hi
    have hone : 1 ≤ occurrences (placeholder i) (extracted o t).1 := by
      rw [Nat.one_le_iff_ne_zero, Nat.ne_zero_iff_zero_lt, occurrences_pos_iff (hdurable i).ne_nil,
        text_extracted]
      rw [size_vault_extracted] at hi
      have hin := placeholder_infix_withPlaceholders 0 hi
      rwa [Nat.zero_add] at hin
    rw [(settled_eq o t).1]
    exact Nat.le_trans hone (Table.occurrences_le_between (hdurable i) o _)
  · intro ho ht
    have hcount {ds : Text} (hds : IsDigits ds) : occurrences (token ds) (settled o t).1 =
        (List.range (extracted o t).2.vault.size).countP fun i => token ds = placeholder i := by
      rw [(settled_eq o t).1, Table.occurrences_between (isDurable_token hds) o _ ho,
        occurrences_extracted o t hds (.inl ht)]
    constructor
    · intro i hi
      exact (hcount (isDigits_ofNat i)).trans (countP_placeholder hi)
    · intro ds hds hin
      have hpos := (occurrences_pos_iff (isDurable_token hds).ne_nil).2 hin
      rw [hcount hds, List.countP_pos_iff] at hpos
      obtain ⟨i, hi, heq⟩ := hpos
      exact ⟨i, List.mem_range.1 hi, of_decide_eq_true heq⟩

end Renderer

end Markdown
