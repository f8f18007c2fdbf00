import Markdown.Proofs.Inline.Passes

/-!
# Wrapping a line with spans

Since the line begins with a letter, no rule for blocks takes notice of it but the one for
paragraphs. Trimming the line is trimming the words behind its last span (`exists_trim_spanned`).
-/

namespace Markdown

open Pattern

variable {w : Words} {ss : List (Span × Words)}

/-! ## A line that begins with a letter -/

theorem not_isDigit_of_isAlpha {c : Char} (hc : c.isAlpha) : c.isDigit = false := by
  have hvalues : '9'.val.toNat = 57 ∧ 'A'.val.toNat = 65 ∧ 'a'.val.toNat = 97 := by decide
  refine Bool.eq_false_iff.2 fun hdigit => ?_
  have hle : c.val.toNat ≤ '9'.val.toNat :=
    UInt32.le_iff_toNat_le.1 (of_decide_eq_true (Bool.and_eq_true_iff.1 hdigit).2)
  rcases Bool.or_eq_true_iff.1 hc with hletter | hletter
  · have hge : 'A'.val.toNat ≤ c.val.toNat :=
      UInt32.le_iff_toNat_le.1 (of_decide_eq_true hletter).1
    omega
  · have hge : 'a'.val.toNat ≤ c.val.toNat :=
      UInt32.le_iff_toNat_le.1 (of_decide_eq_true (Bool.and_eq_true_iff.1 hletter).1)
    omega

/-- The rules for lines take no notice of a line. -/
structure IsPlainLine (o : Options) (l : Text) : Prop where
  header : Line.header o l = l
  unorderedItem : Line.unorderedItem l = l
  orderedItem : Line.orderedItem l = l
  blockquote : Line.blockquote l = l
  horizontalRule : Line.horizontalRule l = l

/-- What begins with none of the signs of blocks is no block but a paragraph. -/
theorem isPlainLine_cons (o : Options) {c : Char} (t : Text) (hdigit : c.isDigit = false)
    (hsign : c ∉ ['#', '*', '>', '&', '-']) : IsPlainLine o (c :: t) := by
  have hne {d : Char} (hd : d ∈ ['#', '*', '>', '&', '-']) : (c :: t).head? ≠ some d := by
    rintro he
    exact hsign (Option.some.inj he ▸ hd)
  refine ⟨Line.header_of_head? o (hne (by decide)), Line.unorderedItem_of_head? (hne (by decide)),
    Line.orderedItem_of_head? fun d hd => ?_,
    Line.blockquote_of_head? (hne (by decide)) (hne (by decide)),
    Line.horizontalRule_of_head? (hne (by decide))⟩
  rw [← Option.some.inj hd, hdigit]

theorem isPlainLine_of_isAlpha (o : Options) {l : Text} (h : ∃ c t, l = c :: t ∧ c.isAlpha) :
    IsPlainLine o l := by
  obtain ⟨c, t, rfl, hc⟩ := h
  refine isPlainLine_cons o t (not_isDigit_of_isAlpha hc) fun hsign => ?_
  have hnone : ['#', '*', '>', '&', '-'].all (!·.isAlpha) := rfl
  have hc' := List.all_eq_true.1 hnone c hsign
  rw [hc] at hc'
  exact absurd hc' (by simp)

namespace IsPlainLine

variable {o : Options} {l : Text} (h : IsPlainLine o l) (hl : '\n' ∉ l)

include h hl

theorem pass_header :
    (Table.handling .header Handler.header).pass o ('\n' :: l ++ ['\n']) = '\n' :: l ++ ['\n'] := by
  rw [Table.isPure_header.pass_eq]
  exact (mapsLines_header o).rewriteFrom_document hl h.header (Line.header_of_head? o (by simp))

theorem pass_unorderedItem : (Table.handling .unorderedItem Handler.unorderedItem).pass o
    ('\n' :: l ++ ['\n']) = '\n' :: l ++ ['\n'] := by
  rw [Table.isPure_unorderedItem.pass_eq]
  exact mapsLines_unorderedItem.rewriteFrom_document hl h.unorderedItem rfl

theorem pass_orderedItem : (Table.handling .orderedItem Handler.orderedItem).pass o
    ('\n' :: l ++ ['\n']) = '\n' :: l ++ ['\n'] := by
  rw [Table.isPure_orderedItem.pass_eq]
  exact mapsLines_orderedItem.rewriteFrom_document hl h.orderedItem rfl

theorem pass_blockquote : (Table.handling .blockquote Handler.blockquote).pass o
    ('\n' :: l ++ ['\n']) = '\n' :: l ++ ['\n'] := by
  rw [Table.isPure_blockquote.pass_eq]
  exact mapsLines_blockquote.rewriteFrom_document hl h.blockquote rfl

theorem pass_horizontalRule : (Table.rewriting .horizontalRule "\n<hr />").pass o
    ('\n' :: l ++ ['\n']) = '\n' :: l ++ ['\n'] := by
  rw [Table.isPure_horizontalRule.pass_eq]
  exact mapsLines_horizontalRule.rewriteFrom_document hl h.horizontalRule rfl

end IsPlainLine

theorem spanned_eq_cons (hw : ∃ c t, w.text = c :: t ∧ c.isAlpha) (ss : List (Span × Words))
    (f : Span → Text) :
    ∃ c t, spanned f w ss = c :: t ∧ c.isAlpha := by
  obtain ⟨c, t, hw, hc⟩ := hw
  exact ⟨c, _, by rw [spanned, hw, List.cons_append], hc⟩

theorem notMem_spanned {f : Span → Text} {c : Char} (hc : isWordChar c = false)
    (hf : ∀ s, c ∉ f s) : c ∉ spanned f w ss := by
  intro h
  rcases List.mem_append.1 h with h | h
  · exact w.notMem hc h
  · obtain ⟨s, -, h⟩ := List.mem_flatMap.1 h
    exact (List.mem_append.1 h).elim (hf s.1) (s.2.notMem hc)

theorem lineFeed_notMem_atRank (n : Nat) (s : Span) : '\n' ∉ s.atRank n := by
  unfold Span.atRank
  split
  · by_cases hcode : s.rank = 6
    · obtain ⟨x, rfl⟩ := Span.exists_code hcode
      simp [Span.hidden, Handler.element, x.notMem '\n' (by decide)]
    · exact Span.notMem_hidden hcode (by decide)
  · by_cases hcode : s.rank = 6
    · obtain ⟨x, rfl⟩ := Span.exists_code hcode
      simp [x.notMem '\n' (by decide)]
    · exact Span.notMem_text hcode (by decide)

/-- The rules before the one for paragraphs set the spans of a line. -/
theorem pass_setting_spans (o : Options) (hw : ∃ c t, w.text = c :: t ∧ c.isAlpha)
    (hss : ∀ s ∈ ss, s.2.text ≠ []) :
    Table.setting.pass o (stage 0 w ss) = stage 7 w ss := by
  have hline (n : Nat) : IsPlainLine o (spanned (Span.atRank n) w ss) :=
    isPlainLine_of_isAlpha o (spanned_eq_cons hw ss (Span.atRank n))
  have hlf (n : Nat) : '\n' ∉ spanned (Span.atRank n) w ss :=
    notMem_spanned (by decide) (lineFeed_notMem_atRank n)
  have hstage (n : Nat) : stage n w ss = '\n' :: spanned (Span.atRank n) w ss ++ ['\n'] := rfl
  rw [Table.setting]
  simp only [Table.pass_cons, Table.pass_nil]
  rw [hstage 0, (hline 0).pass_header (hlf 0), ← hstage, pass_image o w hss, pass_link o w hss,
    pass_strong o w hss, pass_emphasis o w hss, pass_deleted o w hss, pass_quotation o w hss,
    pass_inlineCode o w hss, hstage 7, (hline 7).pass_unorderedItem (hlf 7),
    (hline 7).pass_orderedItem (hlf 7), (hline 7).pass_blockquote (hlf 7),
    (hline 7).pass_horizontalRule (hlf 7)]

/-! ## Trimming -/

/-- The blanks at the end of a line stand in the words behind its last span. -/
theorem exists_spanned_append_blank (w : Words) (ss : List (Span × Words)) :
    ∃ (w' : Words) (ss' : List (Span × Words)) (b : Text), (∀ c ∈ b, Text.isBlank c) ∧
      (w.text = w'.text ∨ w.text = w'.text ++ b) ∧
      ∀ f : Span → Text, (∀ s, (f s).getLast? = some '>') →
        spanned f w ss = spanned f w' ss' ++ b ∧
          ∀ c ∈ (spanned f w' ss').getLast?, Text.isBlank c = false := by
  induction ss generalizing w with
  | nil =>
    obtain ⟨a, b, hab, hb, ha⟩ := Text.exists_append_blank w.text
    refine ⟨⟨a, fun c hc => w.isWordChar_of_mem c (by simp [hab, hc])⟩, [], b, hb, .inr hab, ?_⟩
    intro f _
    simpa [spanned] using ⟨hab, ha⟩
  | cons s ss ih =>
    obtain ⟨w', ss', b, hb, -, hf⟩ := ih s.2
    refine ⟨w, (s.1, w') :: ss', b, hb, .inl rfl, fun f hlast => ?_⟩
    obtain ⟨heq, hend⟩ := hf f hlast
    rw [spanned_cons, spanned_cons, heq, ← List.append_assoc, ← List.append_assoc,
      ← List.append_assoc]
    refine ⟨rfl, fun c hc => ?_⟩
    rw [List.getLast?_append, List.getLast?_append, hlast] at hc
    cases hempty : (spanned f w' ss').getLast? with
    | none =>
      rw [hempty] at hc
      obtain rfl : '>' = c := by simpa using hc
      rfl
    | some d =>
      rw [hempty] at hc
      obtain rfl : d = c := by simpa using hc
      exact hend d hempty

theorem isBlank_of_isAlpha {c : Char} (hc : c.isAlpha) : Text.isBlank c = false := by
  rw [← Bool.not_eq_true]
  intro h
  simp only [Text.isBlank, Bool.or_eq_true, beq_iff_eq] at h
  rcases h with (((rfl | rfl) | rfl) | rfl) | rfl <;> exact absurd hc (by decide)

/-- A trimmed line has the same spans. -/
theorem exists_trim_spanned (hw : ∃ c t, w.text = c :: t ∧ c.isAlpha)
    (ss : List (Span × Words)) :
    ∃ (w' : Words) (ss' : List (Span × Words)), (∃ c t, w'.text = c :: t ∧ c.isAlpha) ∧
      ∀ f : Span → Text, (∀ s, (f s).getLast? = some '>') →
        Text.trim (spanned f w ss) = spanned f w' ss' := by
  obtain ⟨w', ss', b, hb, hwords, hf⟩ := exists_spanned_append_blank w ss
  have hletter : ∃ c t, w'.text = c :: t ∧ c.isAlpha := by
    obtain ⟨c, t, hct, hc⟩ := hw
    rcases hwords with h | h
    · exact ⟨c, t, by rw [← h, hct], hc⟩
    · cases hw' : w'.text with
      | nil =>
        rw [hct, hw', List.nil_append] at h
        have hblank : Text.isBlank c := hb c (by simp [← h])
        rw [isBlank_of_isAlpha hc] at hblank
        exact absurd hblank (by simp)
      | cons d t' =>
        rw [hct, hw', List.cons_append] at h
        exact ⟨d, t', rfl, (List.cons.inj h).1 ▸ hc⟩
  refine ⟨w', ss', hletter, fun f hlast => ?_⟩
  obtain ⟨heq, hend⟩ := hf f hlast
  rw [heq, Text.trim_append_right _ hb]
  refine Text.trim_eq_self (fun c hc => ?_) hend
  obtain ⟨d, t, hd, halpha⟩ := spanned_eq_cons hletter ss' f
  rw [hd] at hc
  obtain rfl : d = c := by simpa using hc
  exact isBlank_of_isAlpha halpha

/-! ## The paragraph -/

theorem spanned_atRank_seven (w : Words) (ss : List (Span × Words)) :
    spanned (Span.atRank 7) w ss = spanned Span.hidden w ss := by
  have hset (s : Span) : s.atRank 7 = s.hidden := Span.hidden_of_lt (by cases s <;> simp [Span.rank])
  simp only [spanned, hset]

/-- The rule for paragraphs makes an element of a line. -/
theorem pass_wrapping_line (o : Options) {l : Text} (hl : '\n' ∉ l)
    (hbegins : Handler.beginsBlock (Text.trim l) = false) (hne : Text.trim l ≠ []) :
    Table.wrapping.pass o ('\n' :: l ++ ['\n']) =
      '\n' :: Handler.element ['p'] (Text.trim l) ++ ['\n'] := by
  have hsplit (l : Text) : '\n' :: l ++ ['\n'] = Text.ofLines [] [l, []] := by simp [Text.ofLines]
  rw [Table.isPure_wrapping.pass_eq, hsplit, hsplit]
  refine (rewriteFrom_paragraph _ rfl rfl (by simp) (by simpa using hl)).trans ?_
  rw [List.map_cons, List.map_singleton, Handler.paragraphLine_of_not_beginsBlock hbegins hne]
  rfl

/-- So it does of a line with spans. -/
theorem pass_wrapping_spans (o : Options) (hw : ∃ c t, w.text = c :: t ∧ c.isAlpha) :
    Table.wrapping.pass o (stage 7 w ss) =
      '\n' :: Handler.element ['p'] (Text.trim (spanned Span.hidden w ss)) ++ ['\n'] := by
  have hlf : '\n' ∉ spanned (Span.atRank 7) w ss :=
    notMem_spanned (by decide) (lineFeed_notMem_atRank 7)
  have hstage : stage 7 w ss = '\n' :: spanned (Span.atRank 7) w ss ++ ['\n'] := rfl
  obtain ⟨w', ss', hw', htrim⟩ := exists_trim_spanned hw ss
  obtain ⟨c, t, hct, hc⟩ := spanned_eq_cons hw' ss' Span.hidden
  have htrimmed : Text.trim (spanned Span.hidden w ss) = c :: t :=
    (htrim Span.hidden (Span.getLast?_htmlWith _ _)).trans hct
  have hhead : (Text.trim (spanned Span.hidden w ss)).head? ≠ some '<' := fun hhead => by
    rw [htrimmed] at hhead
    rw [Option.some.inj hhead] at hc
    exact absurd hc (by decide)
  rw [spanned_atRank_seven] at hlf hstage
  rw [hstage]
  exact pass_wrapping_line o hlf (Handler.beginsBlock_of_head? hhead) (by simp [htrimmed])

end Markdown
