import Markdown.Proofs.Blocks.Rendering

/-!
# Texts that are set

A text whose lines are made of the characters of HTML, and do not begin with the sign of a quote, holds
nothing that a rule before the one for paragraphs looks for. Rendering it wraps lines and merges
blocks (`Renderer.render_of_isSet`). It stays if no line is wrapped and no block merged; if a line
is wrapped, the text grows, since merging takes no paragraph away.
-/

namespace Markdown

/-! ## Wrapping a line -/

namespace Handler

theorem mem_paragraphLine {x : Text} {c : Char} (h : c ∈ paragraphLine x) :
    c ∈ x ∨ c ∈ ['<', '>', '/', 'p'] := by
  rcases paragraphLine_cases x with heq | ⟨-, heq⟩ | heq
  · exact .inl (heq ▸ h)
  · rw [heq] at h
    simp at h
  · rw [heq] at h
    rcases mem_element h with h | h | h
    · exact .inr (by simp only [List.mem_cons, List.not_mem_nil, or_false] at h ⊢; tauto)
    · exact .inr (by simp at h; simp [h])
    · exact .inl (Text.mem_of_mem_trim h)

theorem count_trim (x : Text) : (Text.trim x).count 'p' = x.count 'p' := by
  obtain ⟨a, b, hx, ha, hb⟩ := Text.exists_trimWhere Text.isBlank x
  have hzero {u : Text} (hu : ∀ c ∈ u, Text.isBlank c) : u.count 'p' = 0 :=
    List.count_eq_zero.2 fun hm => absurd (hu _ hm) (by decide)
  conv => rhs; rw [hx, List.count_append, List.count_append, hzero ha, hzero hb]
  rw [Nat.zero_add, Nat.add_zero]
  rfl

theorem count_element_paragraph (x : Text) : (element ['p'] x).count 'p' = x.count 'p' + 2 := by
  simp [element, List.count_append]

theorem count_le_paragraphLine (x : Text) : x.count 'p' ≤ (paragraphLine x).count 'p' := by
  rcases paragraphLine_cases x with heq | ⟨htrim, -⟩ | heq
  · rw [heq]
  · rw [← count_trim, htrim]
    exact Nat.zero_le _
  · rw [heq, count_element_paragraph, count_trim]
    omega

end Handler

/-! ## Set lines -/

/-- A line that has only characters of HTML and is no quote. -/
structure IsSetLine (x : Text) : Prop where
  isBaseChar_of_mem : ∀ c ∈ x, isBaseChar c
  head?_ne : x.head? ≠ some '>' ∧ x.head? ≠ some '&'

/-- A text of such lines. -/
def IsSet (d : Text) : Prop :=
  ∀ x ∈ Text.lines d, IsSetLine x

theorem isSetLine_nil : IsSetLine [] :=
  ⟨by simp, by simp⟩

theorem document_eq_ofLines (d : Text) :
    '\n' :: d ++ ['\n'] = Text.ofLines [] (Text.lines d ++ [[]]) := by
  rw [Text.ofLines_append, Text.ofLines_lines]
  rfl

theorem lineFeed_notMem_of_mem_document (d : Text) : ∀ x ∈ Text.lines d ++ [[]], '\n' ∉ x := by
  intro x hx
  rcases List.mem_append.1 hx with hx | hx
  · exact Text.lineFeed_notMem_of_mem_lines hx
  · rw [List.mem_singleton.1 hx]
    simp

namespace Pattern.MapsLines

variable {p : Pattern} {ρ : Match → Text} {f : Text → Text}

/-- A document stays if its lines do. -/
theorem rewriteFrom_lines (h : p.MapsLines ρ f) {d : Text} (hf : ∀ x ∈ Text.lines d, f x = x)
    (hnil : f [] = []) : p.rewriteFrom ρ none ('\n' :: d ++ ['\n']) = '\n' :: d ++ ['\n'] := by
  have hmap : (Text.lines d ++ [[]]).map f = Text.lines d ++ [[]] := by
    rw [List.map_append, List.map_singleton, hnil, List.map_congr_left hf, List.map_id']
  rw [document_eq_ofLines, h.rewriteFrom_ofLines none (by simp)
    (lineFeed_notMem_of_mem_document d), hmap]

end Pattern.MapsLines

namespace IsSet

open Pattern

variable {d : Text} {c : Char}

theorem notMem_document (h : IsSet d) (hc : isBaseChar c = false) (hlf : c ≠ '\n') :
    c ∉ '\n' :: d ++ ['\n'] := by
  intro hm
  rw [document_eq_ofLines] at hm
  rcases Text.mem_ofLines hm with rfl | ⟨x, hx, hcx⟩
  · exact hlf rfl
  · simp only [List.mem_cons, List.mem_append, List.not_mem_nil, or_false] at hx
    rcases hx with rfl | hx | rfl
    · simp at hcx
    · rw [(h x hx).isBaseChar_of_mem c hcx] at hc
      exact absurd hc (by simp)
    · simp at hcx

theorem head?_ne (h : IsSet d) (hc : isBaseChar c = false) {x : Text} (hx : x ∈ Text.lines d) :
    x.head? ≠ some c := by
  intro he
  rw [(h x hx).isBaseChar_of_mem c (List.mem_of_mem_head? he)] at hc
  exact absurd hc (by simp)

/-- The rules before the one for paragraphs leave the document. -/
theorem pass_setting (h : IsSet d) (o : Options) :
    Table.setting.pass o ('\n' :: d ++ ['\n']) = '\n' :: d ++ ['\n'] := by
  have hheader : (Table.handling .header Handler.header).pass o ('\n' :: d ++ ['\n']) =
      '\n' :: d ++ ['\n'] := by
    rw [Table.isPure_header.pass_eq]
    exact (mapsLines_header o).rewriteFrom_lines
      (fun x hx => Line.header_of_head? o (h.head?_ne rfl hx)) rfl
  have hunordered : (Table.handling .unorderedItem Handler.unorderedItem).pass o
      ('\n' :: d ++ ['\n']) = '\n' :: d ++ ['\n'] := by
    rw [Table.isPure_unorderedItem.pass_eq]
    exact mapsLines_unorderedItem.rewriteFrom_lines
      (fun x hx => Line.unorderedItem_of_head? (h.head?_ne rfl hx)) rfl
  have hordered : (Table.handling .orderedItem Handler.orderedItem).pass o
      ('\n' :: d ++ ['\n']) = '\n' :: d ++ ['\n'] := by
    rw [Table.isPure_orderedItem.pass_eq]
    refine mapsLines_orderedItem.rewriteFrom_lines
      (fun x hx => Line.orderedItem_of_notMem fun hm => ?_) rfl
    exact absurd ((h x hx).isBaseChar_of_mem '.' hm) (by decide)
  have hquote : (Table.handling .blockquote Handler.blockquote).pass o
      ('\n' :: d ++ ['\n']) = '\n' :: d ++ ['\n'] := by
    rw [Table.isPure_blockquote.pass_eq]
    exact mapsLines_blockquote.rewriteFrom_lines
      (fun x hx => Line.blockquote_of_head? (h x hx).head?_ne.1 (h x hx).head?_ne.2) rfl
  have hrule : (Table.rewriting .horizontalRule "\n<hr />").pass o ('\n' :: d ++ ['\n']) =
      '\n' :: d ++ ['\n'] := by
    rw [Table.isPure_horizontalRule.pass_eq]
    exact mapsLines_horizontalRule.rewriteFrom_lines
      (fun x hx => Line.horizontalRule_of_head? (h.head?_ne rfl hx)) rfl
  have hchars : Table.spanChars.all fun c => !isBaseChar c && c != '\n' := rfl
  refine Table.pass_setting_eq_self (fun c hc => ?_) ?_
  · have hchar := List.all_eq_true.1 hchars c hc
    simp only [Bool.and_eq_true, Bool.not_eq_true', bne_iff_ne] at hchar
    exact h.notMem_document hchar.1 hchar.2
  · simp only [Table.lineRules, List.forall_mem_cons]
    exact ⟨hheader, hunordered, hordered, hquote, hrule, by simp⟩

end IsSet

/-! ## Wrapping and merging -/

/-- The document of a text, every line of which has been wrapped if it is no block. -/
def wrappedDocument (d : Text) : Text :=
  Text.ofLines [] ((Text.lines d).map Handler.paragraphLine ++ [[]])

theorem pass_wrapping_document (o : Options) (d : Text) :
    Table.wrapping.pass o ('\n' :: d ++ ['\n']) = wrappedDocument d := by
  rw [Table.isPure_wrapping.pass_eq, document_eq_ofLines]
  refine (Pattern.rewriteFrom_paragraph Handler.paragraphLine rfl rfl (by simp)
    (lineFeed_notMem_of_mem_document d)).trans ?_
  rw [List.map_append]
  rfl

theorem wrappedDocument_eq_self {d : Text}
    (h : ∀ x ∈ Text.lines d, Handler.paragraphLine x = x) :
    wrappedDocument d = '\n' :: d ++ ['\n'] := by
  rw [document_eq_ofLines, wrappedDocument, List.map_congr_left h, List.map_id']

theorem IsSet.quote_notMem_wrappedDocument {d : Text} (h : IsSet d) :
    '\'' ∉ wrappedDocument d := by
  intro hm
  rcases Text.mem_ofLines hm with heq | ⟨x, hx, hc⟩
  · exact absurd heq (by decide)
  · simp only [List.mem_cons, List.mem_append, List.mem_map, List.not_mem_nil, or_false] at hx
    rcases hx with rfl | ⟨y, hy, rfl⟩ | rfl
    · simp at hc
    · rcases Handler.mem_paragraphLine hc with hc | hc
      · exact absurd ((h y hy).isBaseChar_of_mem _ hc) (by decide)
      · exact absurd hc (by decide)
    · simp at hc

theorem count_le_map_paragraphLine (xs : List Text) :
    (xs.flatMap ('\n' :: ·)).count 'p' ≤
      ((xs.map Handler.paragraphLine).flatMap ('\n' :: ·)).count 'p' := by
  induction xs with
  | nil => exact Nat.zero_le _
  | cons x xs ih =>
    have hx := Handler.count_le_paragraphLine x
    simp only [List.map_cons, List.flatMap_cons, List.count_append, List.count_cons]
    omega

/-- A text of which a line is wrapped grows. -/
theorem count_lt_wrappedDocument {d x : Text} (hx : x ∈ Text.lines d)
    (hlt : x.count 'p' < (Handler.paragraphLine x).count 'p') :
    d.count 'p' < (wrappedDocument d).count 'p' := by
  obtain ⟨u, v, huv⟩ := List.append_of_mem hx
  have hd := congrArg (List.count 'p') (Text.ofLines_lines d)
  have hu := count_le_map_paragraphLine u
  have hv := count_le_map_paragraphLine v
  rw [wrappedDocument, huv, Text.ofLines, List.nil_append]
  rw [huv, Text.ofLines, List.nil_append] at hd
  simp only [List.map_append, List.map_cons, List.flatMap_append, List.flatMap_cons,
    List.count_append, List.count_cons] at hd ⊢
  omega

namespace Pattern

/-- A character that the replacements have as often as the matches stays as often as it was. -/
theorem count_le_rewriteFrom {p : Pattern} (hp : p.finder.IsProper) {ρ : Match → Text} {c : Char}
    (h : ∀ b s r v, p.finder (.of b (s ++ r)) = some (s.length, v) →
      s.count c ≤ (ρ ⟨s, v⟩).count c) (b : Option Char) (t : Text) :
    t.count c ≤ (p.rewriteFrom ρ b t).count c := by
  refine hp.induction (motive := fun b t => t.count c ≤ (p.rewriteFrom ρ b t).count c)
    ?_ ?_ ?_ b t
  · intro b
    exact Nat.zero_le _
  · intro b d t hf ih
    rw [rewriteFrom_cons hp ρ hf, List.count_cons, List.count_cons]
    omega
  · intro b s t v _ hf ih
    have hs := h b s t v hf
    rw [rewriteFrom_append hp ρ hf, List.count_append, List.count_append]
    omega

end Pattern

/-- Merging takes no paragraph away. -/
theorem count_le_pass_merging (o : Options) (t : Text) :
    t.count 'p' ≤ (Table.merging.pass o t).count 'p' := by
  have hpass (f : Family) (t : Text) :
      t.count 'p' ≤ (f.seamPattern.rewriteFrom (fun _ => f.glue) none t).count 'p' := by
    refine Pattern.count_le_rewriteFrom (Family.isProper_seamPattern f) (fun b s r v hf => ?_) none t
    obtain ⟨space, hspace, rfl, -⟩ := Pattern.eq_of_finder_adjacent hf
    have htags : f.closing.count 'p' = 0 ∧ f.opening.count 'p' = 0 := by
      cases f <;> exact ⟨rfl, rfl⟩
    have hzero : space.count 'p' = 0 := by
      rcases hspace with rfl | ⟨c, hc, rfl⟩
      · rfl
      · refine List.count_eq_zero.2 fun hm => ?_
        rw [← List.mem_singleton.1 hm] at hc
        exact absurd hc (by decide)
    rw [Pattern.seam, List.count_append, List.count_append, htags.1, htags.2, hzero]
    exact Nat.zero_le _
  rw [Table.pass_merging]
  exact (hpass .bulleted t).trans ((hpass .numbered _).trans (hpass .quoted _))

theorem quote_notMem_pass_merging_of {t : Text} (h : '\'' ∉ t) (o : Options) :
    '\'' ∉ Table.merging.pass o t := by
  have hpass (f : Family) {t : Text} (ht : '\'' ∉ t) :
      '\'' ∉ f.seamPattern.rewriteFrom (fun _ => f.glue) none t := by
    intro hm
    rcases Pattern.mem_rewriteFrom (Family.isProper_seamPattern f) _ hm with hm | ⟨-, hm⟩
    · exact ht hm
    · cases f <;> simp [Family.glue] at hm
  rw [Table.pass_merging]
  exact hpass .quoted (hpass .numbered (hpass .bulleted h))

namespace Renderer

variable {d : Text} (o : Options)

/-- Rendering a text that is set wraps its lines and merges its blocks. -/
theorem render_of_isSet (h : IsSet d) : (ofOptions o).render d =
    Text.trim ((if o.mergeAdjacentBlocks then Table.merging else []).pass o
      (wrappedDocument d)) := by
  have hnotMem {c : Char} (hc : isBaseChar c = false) (hlf : c ≠ '\n') : c ∉ d := fun hm =>
    h.notMem_document hc hlf (List.mem_append_left _ (List.mem_cons_of_mem _ hm))
  have hfence : ¬ Pattern.fence <:+: d := fun hin =>
    hnotMem (c := '`') (by decide) (by decide) (hin.subset (by decide))
  have hquote : '\'' ∉ (if o.mergeAdjacentBlocks then Table.merging else []).pass o
      (wrappedDocument d) := by
    split
    · exact quote_notMem_pass_merging_of h.quote_notMem_wrappedDocument o
    · exact h.quote_notMem_wrappedDocument
  rw [render_of_notMem o (hnotMem (by decide) (by decide)) hfence, Table.pass_between,
    h.pass_setting, pass_wrapping_document, SourceLine.pass_revealing o hquote]

/-- A text that is set, trimmed and merged is rendered as it is, if no line of it is wrapped. -/
theorem render_eq_self (h : IsSet d) (htrim : Text.trim d = d)
    (hmerged : o.mergeAdjacentBlocks → Table.merging.pass o ('\n' :: d ++ ['\n']) =
      '\n' :: d ++ ['\n'])
    (hlines : ∀ x ∈ Text.lines d, Handler.paragraphLine x = x) : (ofOptions o).render d = d := by
  have hpass : (if o.mergeAdjacentBlocks then Table.merging else []).pass o
      ('\n' :: d ++ ['\n']) = '\n' :: d ++ ['\n'] := by
    split
    · exact hmerged ‹_›
    · rfl
  rw [render_of_isSet o h, wrappedDocument_eq_self hlines, hpass, Text.trim_document, htrim]

/-- A text of which a line is wrapped is not rendered as it is. -/
theorem render_ne_self (h : IsSet d) {x : Text} (hx : x ∈ Text.lines d)
    (hlt : x.count 'p' < (Handler.paragraphLine x).count 'p') : (ofOptions o).render d ≠ d := by
  have hwrapped := count_lt_wrappedDocument hx hlt
  have hmerged : (wrappedDocument d).count 'p' ≤
      ((if o.mergeAdjacentBlocks then Table.merging else []).pass o
        (wrappedDocument d)).count 'p' := by
    split
    · exact count_le_pass_merging o _
    · exact Nat.le_refl _
  intro heq
  have hcount := congrArg (List.count 'p') heq
  rw [render_of_isSet o h, Handler.count_trim] at hcount
  omega

end Renderer

end Markdown
