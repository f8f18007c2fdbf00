import Markdown.Proofs.Marks.Basic
import Markdown.Proofs.Passes
import Markdown.Proofs.Text.Replacing

/-!
# What the rules do to marks

Every pass between the first rule and the last one, apart from the merging of lists, puts marks in
the place of marks. The marks that are written before blocks are merged are tags, which neither
begin the end of a list nor are the beginning of one.
-/

namespace Markdown

open Pattern

/-! ## Tags -/

/-- The ends of the lists that merging joins without anything between, also in the middle of one
another. -/
def listEnds : List Text :=
  ["</ul>", "</ol>", "<</ul>", "</</ul>", "</o</ul>", "</ol</ul>"].map String.toList

/-- Whether a mark can be written before blocks are merged. -/
def isTag (a : Text) : Bool :=
  isMark a && a.head?.any ['<', '\'', '\n'].contains &&
    listEnds.all fun e => !a.isPrefixOf e && !e.isPrefixOf a

/-- Tags and the tokens of addresses. -/
def isTagOrToken (a : Text) : Bool :=
  isTag a || a == Url.underscoreToken || a == Url.asteriskToken

theorem isMarkOrToken_of_isMark {a : Text} (h : isMark a) : isMarkOrToken a := by
  simp [isMarkOrToken, h]

theorem isTagOrToken_of_isTag {a : Text} (h : isTag a) : isTagOrToken a := by
  simp [isTagOrToken, h]

theorem isMarkOrToken_of_isTagOrToken {a : Text} (h : isTagOrToken a) : isMarkOrToken a := by
  simp only [isTagOrToken, isTag, isMarkOrToken, Bool.or_eq_true, Bool.and_eq_true] at *
  exact h.imp_left (.imp_left fun h => h.1.1)

/-! ## Headings -/

theorem isDigit_of_mem_ofNat {n : Nat} {c : Char} (h : c ∈ Text.ofNat n) : c.isDigit :=
  Nat.isDigit_of_mem_toDigits (by decide) (by decide) h

theorem all_ofNat (n : Nat) : (Text.ofNat n).all fun c => isMarkChar c || c.isDigit :=
  List.all_eq_true.2 fun c hc => by rw [isDigit_of_mem_ofNat hc, Bool.or_true]

theorem isTag_headingStart (n : Nat) : isTag ('<' :: 'h' :: Text.ofNat n ++ ['>']) := by
  have hopen : isMarkChar '<' ∧ isMarkChar 'h' ∧ isMarkChar '>' := by decide
  simp [isTag, isMark, listEnds, all_ofNat n, hopen, List.getLast?_cons, List.isPrefixOf]

theorem isTag_headingEnd (n : Nat) : isTag ('<' :: '/' :: 'h' :: Text.ofNat n ++ ['>']) := by
  have hopen : isMarkChar '<' ∧ isMarkChar '/' ∧ isMarkChar 'h' ∧ isMarkChar '>' := by decide
  simp [isTag, isMark, listEnds, all_ofNat n, hopen, List.getLast?_cons, List.isPrefixOf]

/-! ## Lines -/

theorem element_eq (name content : Text) :
    Handler.element name content =
      '<' :: name ++ ['>'] ++ content ++ ('<' :: '/' :: name ++ ['>']) := by
  simp [Handler.element]

theorem singleItem_eq (list item : Text) :
    Line.singleItem list item = '<' :: list ++ ">\n\t<li>".toList ++ Text.trim item ++
      ("</li>\n</".toList ++ list ++ ['>']) := by
  simp [Line.singleItem, Handler.element]

namespace Line

theorem remarked_header (o : Options) (l : Text) :
    Remarked isMark isTag l (header o l) := by
  rcases header_cases o l with h | ⟨a, l', n, rfl, ha, h⟩
  · rw [h]
    exact .refl l
  · have hchars : ∀ c ∈ a, isMarkChar c := by
      intro c hc
      rcases ha c hc with rfl | hindent
      · decide
      · simp only [isIndent, Bool.or_eq_true, beq_iff_eq] at hindent
        rcases hindent with rfl | rfl <;> decide
    rw [h, element_eq]
    exact remarked_trim hchars (.inr (isTag_headingStart n))
      (.inr (isTag_headingEnd n)) l'

theorem remarked_unorderedItem (l : Text) : Remarked isMark isTag l (unorderedItem l) := by
  rcases unorderedItem_cases l with h | ⟨l', rfl, h⟩
  · rw [h]
    exact .refl l
  · rw [h, singleItem_eq]
    exact remarked_trim (a := ['*']) (List.all_eq_true.1 rfl) (.inr (by decide)) (.inr (by decide)) l'

theorem remarked_orderedItem (l : Text) : Remarked isMark isTag l (orderedItem l) := by
  rcases orderedItem_cases l with h | ⟨d, l', rfl, hd, h⟩
  · rw [h]
    exact .refl l
  · have hbehind : Remarked isMark isTag l' ("".toList ++ Text.trim l' ++
        "</li>\n</ol>".toList) :=
      remarked_trim (a := []) (by simp) (.inl rfl) (.inr (by decide)) l'
    have hnumber : Remarked isMark isTag (d ++ ['.'] ++ l')
        ("<ol>\n\t<li>".toList ++ (Text.trim l' ++ "</li>\n</ol>".toList)) :=
      .number hd (by decide) (.inr (by decide)) hbehind
    rw [h, singleItem_eq]
    exact hnumber

theorem remarked_blockquote (l : Text) : Remarked isMark isTag l (blockquote l) := by
  rcases blockquote_cases l with h | ⟨a, l', rfl, ha, h⟩
  · rw [h]
    exact .refl l
  · have hchars : ∀ c ∈ a, isMarkChar c := by
      rcases ha with rfl | rfl <;> exact List.all_eq_true.1 rfl
    rw [h, quote, element_eq]
    exact remarked_trim hchars (.inr (by decide)) (.inr (by decide)) l'

theorem remarked_horizontalRule (l : Text) :
    Remarked isMark isTag l (horizontalRule l) := by
  rcases horizontalRule_cases l with h | ⟨a, l', rfl, hne, ha, h⟩
  · rw [h]
    exact .refl l
  · have hchars : ∀ c ∈ a, isMarkChar c := fun c hc => by
      rw [ha c hc]
      decide
    rw [h]
    exact .front (.inr (isMark_of_forall hne hchars)) (.inr (by decide)) (.refl l')

theorem remarked_paragraph (l : Text) :
    Remarked isMark isTag l (Handler.paragraphLine l) := by
  rcases Handler.paragraphLine_cases l with h | ⟨htrim, h⟩ | h
  · rw [h]
    exact .refl l
  · rw [h, ← htrim]
    exact remarked_trim_self l
  · rw [h, element_eq]
    exact remarked_trim (a := []) (by simp) (.inr (by decide)) (.inr (by decide)) l

end Line

theorem Pattern.MapsLines.remarked {p : Pattern} {ρ : Match → Text} {f : Text → Text}
    (h : p.MapsLines ρ f) (hf : ∀ l, Remarked isMark isTag l (f l)) (t : Text) :
    Remarked isMark isTag t (p.rewriteFrom ρ none t) := by
  obtain ⟨l, ls, rfl, hl, hls⟩ := Text.exists_ofLines t
  rw [h.rewriteFrom_ofLines none hl hls]
  exact .ofLines (by decide) (by decide) (.refl l) fun x _ => hf x

theorem remarked_rewriteFrom_paragraph (t : Text) :
    Remarked isMark isTag t
      (paragraph.rewriteFrom (fun m => Handler.paragraphLine (m.group 1)) none t) := by
  obtain ⟨l, ls, rfl, hl, hls⟩ := Text.exists_ofLines t
  rw [rewriteFrom_paragraph Handler.paragraphLine rfl rfl hl hls]
  exact .ofLines (by decide) (by decide) (Line.remarked_paragraph l) fun x _ =>
    Line.remarked_paragraph x

/-! ## Inside a line -/

/-- Putting `s'` in the place of `s` changes marks only. -/
def Replaces (M N : Text → Bool) (s s' : Text) : Prop :=
  ∀ l r r', Remarked M N r r' → Remarked M N (l ++ s ++ r) (l ++ s' ++ r')

/-- A text gets other marks on both ends, and between them it may be changed as well. -/
theorem replaces_of_ends {M N : Text → Bool} {a a' b b' g g' : Text} (ha : M a) (ha' : N a')
    (hb : M b) (hb' : N b') (hg : Remarked M N g g') :
    Replaces M N (a ++ g ++ b) (a' ++ g' ++ b') :=
  fun _ _ _ hr => .around ha ha' hb hb' hg hr

/-- If each match gets other marks, so does the text. -/
theorem Pattern.remarked_rewriteFrom {M N : Text → Bool} {p : Pattern} {ρ : Match → Text}
    (hp : p.finder.IsProper)
    (h : ∀ b s r v, p.finder (.of b (s ++ r)) = some (s.length, v) → Replaces M N s (ρ ⟨s, v⟩))
    (t : Text) : Remarked M N t (p.rewriteFrom ρ none t) :=
  rewriteFrom_induction hp ρ .refl (fun b l s r r' v hf hr => h b s r v hf l r r' hr) t

theorem replaces_element {a b name : Text} (ha : isMark a) (hb : isMark b)
    (hopen : isTag ('<' :: name ++ ['>'])) (hclose : isTag ('<' :: '/' :: name ++ ['>']))
    (g : Text) : Replaces isMark isTag (a ++ g ++ b) (Handler.element name g) := by
  rw [element_eq]
  exact replaces_of_ends ha hopen hb hclose
    (.refl g)

theorem remarked_delimiter {d : Delimiter} (hd : ∀ m ∈ d.markers, isMark m) {name : Text}
    (hopen : isTag ('<' :: name ++ ['>'])) (hclose : isTag ('<' :: '/' :: name ++ ['>']))
    (t : Text) :
    Remarked isMark isTag t
      ((delimiter d).rewriteFrom (fun m => Handler.element name (m.group 2)) none t) := by
  refine Pattern.remarked_rewriteFrom (isProper_finder_delimiter d) (fun b s r v h => ?_) t
  obtain ⟨marker, hm, g, rfl, rfl, -, -⟩ := eq_of_finder_delimiter h
  exact replaces_element (hd marker hm) (hd marker hm) hopen hclose g

theorem remarked_enclosed {source : Text} (opening closing : Text) {S : Regex.CharSet}
    (ho : isMark opening) (hc : isMark closing) {name : Text} (hopen : isTag ('<' :: name ++ ['>']))
    (hclose : isTag ('<' :: '/' :: name ++ ['>'])) (t : Text) :
    Remarked isMark isTag t ((enclosed source opening closing S).rewriteFrom
      (fun m => Handler.element name (m.group 1)) none t) := by
  have hne : opening ≠ [] := by
    rintro rfl
    exact absurd ho (by decide)
  refine Pattern.remarked_rewriteFrom (isProper_enclosed source S hne) (fun b s r v h => ?_) t
  obtain ⟨g, rfl, rfl, -⟩ := eq_of_finder_enclosed h
  exact replaces_element ho hc hopen hclose g

/-- Hiding the markers of an address puts tokens in their places. -/
theorem remarked_hide (u : Text) : Remarked isMark isTagOrToken u (Url.hide u) := by
  refine remarked_flatMap (fun c => ?_) u
  unfold Url.hideChar
  split
  · rename_i hc
    rw [hc]
    exact .inr ⟨by decide, by decide⟩
  split
  · rename_i hc
    rw [hc]
    exact .inr ⟨by decide, by decide⟩
  · exact .inl rfl

/-- A reference gets tags in the place of its brackets, the address in front of the description. -/
theorem remarked_referring {source : Text} (opening : Text) (ho : isMark opening) {a c b : Text}
    (ha : isTag a) (hc : isTag c) (hb : isTag b) (t : Text) :
    Remarked isMark isTagOrToken t ((referring source opening).rewriteFrom
      (fun m => a ++ Url.hide (m.group 2) ++ c ++ m.group 1 ++ b) none t) := by
  refine Pattern.remarked_rewriteFrom (isProper_referring source opening) (fun b' s r v h => ?_) t
  obtain ⟨x, u, -, rfl, rfl⟩ := eq_of_finder_referring h
  have hswap : Remarked isMark isTagOrToken (x ++ [']', '('] ++ u) (Url.hide u ++ c ++ x) :=
    .swap (by decide) (isTagOrToken_of_isTag hc) (.refl x) (remarked_hide u)
  have h := replaces_of_ends ho (isTagOrToken_of_isTag ha) (b := [')']) (by decide)
    (isTagOrToken_of_isTag hb) hswap
  simpa [referenceText, Match.group, Match.group?] using h

/-! ## Addresses with their markers again -/

/-- Replacing a mark by another one. -/
theorem remarked_replace {M N : Text → Bool} {old new : Text} (hne : old ≠ []) (hold : M old)
    (hnew : N new) (t : Text) : Remarked M N t (t.replace old new) := by
  have hproper : (literal old : Finder Char Unit).IsProper := isProper_literal hne
  rw [Text.replace_eq_replaceFrom]
  have hbehind (b : Option Char) (t : Text) :
      ∀ l, Remarked M N (l ++ t) (l ++ Text.replaceFrom old new b t) := by
    refine hproper.induction
      (motive := fun b t => ∀ l, Remarked M N (l ++ t) (l ++ Text.replaceFrom old new b t))
      ?_ ?_ ?_ b t
    · intro b l
      rw [Text.replaceFrom_nil hne]
      exact .refl _
    · intro b c t hf ih l
      have hp : ¬ old <+: c :: t := by
        rintro ⟨r, hr⟩
        rw [← hr, literal_append] at hf
        simp at hf
      rw [Text.replaceFrom_cons hne new b hp, List.append_cons l c t,
        List.append_cons l c (Text.replaceFrom old new (some c) t)]
      exact ih (l ++ [c])
    · intro b s t v _ hf ih l
      have hs : s = old := by
        obtain ⟨⟨r, hr⟩, hlen⟩ := of_literal_eq_some hf
        exact (List.append_inj hr hlen.symm).1.symm
      rw [hs, Text.replaceFrom_append hne, ← List.append_assoc, ← List.append_assoc]
      exact .mark hold hnew (.refl l) (hs ▸ ih [])
  exact hbehind none t []

theorem remarked_reveal (u : Text) : Remarked isMarkOrToken isMark u (Url.reveal u) :=
  .trans (remarked_replace (by decide) (by decide) (by decide) u)
    (remarked_replace (by decide) (by decide) (by decide) _)

theorem remarked_address {source : Text} (opening closing : Text) {S : Regex.CharSet}
    (ho : isMark opening) (hc : isMark closing) (t : Text) :
    Remarked isMarkOrToken isMark t ((enclosed source opening closing S).rewriteFrom
      (fun m => opening ++ Url.reveal (m.group 1) ++ closing) none t) := by
  have hne : opening ≠ [] := by
    rintro rfl
    exact absurd ho (by decide)
  refine Pattern.remarked_rewriteFrom (isProper_enclosed source S hne) (fun b s r v h => ?_) t
  obtain ⟨g, rfl, rfl, -⟩ := eq_of_finder_enclosed h
  exact replaces_of_ends (isMarkOrToken_of_isMark ho) ho (isMarkOrToken_of_isMark hc) hc
    (remarked_reveal g)

/-! ## Tables -/

namespace Table

theorem Remarked.pass {M N : Text → Bool} {t : Table} {o : Options}
    (h : ∀ r ∈ t, ∀ d, Remarked M N d (r.pass o d)) (d : Text) : Remarked M N d (t.pass o d) := by
  induction t generalizing d with
  | nil => exact .refl d
  | cons r t ih => exact .trans (h r (by simp) d) (ih (fun q hq => h q (by simp [hq])) _)

theorem remarked_heading (o : Options) (d : Text) :
    Remarked isMark isTag d (heading.pass o d) := by
  rw [heading, isPure_header.pass_eq]
  exact (mapsLines_header o).remarked (Line.remarked_header o) d

/-- The rules for images and links write tokens of addresses. -/
theorem remarked_references (o : Options) (d : Text) :
    Remarked isMark isTagOrToken d (references.pass o d) := by
  refine Remarked.pass (fun r hr d => ?_) d
  simp only [references, List.mem_cons, List.not_mem_nil, or_false] at hr
  rcases hr with rfl | rfl
  · rw [isPure_image.pass_eq]
    exact remarked_referring ['!', '['] (by decide) (by decide) (by decide)
      (by decide) d
  · rw [isPure_link.pass_eq]
    exact remarked_referring ['['] (by decide) (by decide) (by decide) (by decide) d

theorem remarked_behindReferences (o : Options) (d : Text) :
    Remarked isMark isTag d (behindReferences.pass o d) := by
  refine Remarked.pass (fun r hr d => ?_) d
  simp only [behindReferences, setting, List.drop_succ_cons, List.drop_zero, List.mem_cons,
    List.not_mem_nil, or_false] at hr
  rcases hr with rfl | rfl | rfl | rfl | rfl | rfl | rfl | rfl | rfl
  · rw [isPure_strong.pass_eq]
    exact remarked_delimiter (by decide) (by decide) (by decide) d
  · rw [isPure_emphasis.pass_eq]
    exact remarked_delimiter (by decide) (by decide) (by decide) d
  · rw [isPure_deleted.pass_eq]
    exact remarked_delimiter (by decide) (by decide) (by decide) d
  · rw [isPure_quotation.pass_eq]
    exact remarked_enclosed [':', '"'] ['"', ':'] (by decide)
      (by decide) (by decide) (by decide) d
  · rw [isPure_inlineCode.pass_eq]
    exact remarked_enclosed ['`'] ['`'] (by decide) (by decide)
      (by decide) (by decide) d
  · rw [isPure_unorderedItem.pass_eq]
    exact mapsLines_unorderedItem.remarked Line.remarked_unorderedItem d
  · rw [isPure_orderedItem.pass_eq]
    exact mapsLines_orderedItem.remarked Line.remarked_orderedItem d
  · rw [isPure_blockquote.pass_eq]
    exact mapsLines_blockquote.remarked Line.remarked_blockquote d
  · rw [isPure_horizontalRule.pass_eq]
    exact mapsLines_horizontalRule.remarked Line.remarked_horizontalRule d

theorem remarked_wrapping (o : Options) (d : Text) :
    Remarked isMark isTag d (wrapping.pass o d) := by
  rw [isPure_wrapping.pass_eq]
  exact remarked_rewriteFrom_paragraph d

/-- Until the blocks are merged, tags and tokens of addresses take the place of marks. -/
theorem remarked_setting_wrapping (o : Options) (d : Text) :
    Remarked isMark isTagOrToken d ((setting ++ [wrapping]).pass o d) := by
  have htag {t t' : Text} (h : Remarked isMark isTag t t') : Remarked isMark isTagOrToken t t' :=
    h.mono (fun _ => id) fun _ => isTagOrToken_of_isTag
  rw [setting_eq, List.cons_append, List.cons_append, pass_cons, pass_append, pass_append, pass_cons,
    pass_nil]
  exact (htag (remarked_heading o d)).trans ((remarked_references o _).trans
    ((htag (remarked_behindReferences o _)).trans (htag (remarked_wrapping o _))))

/-- Markers take the place of the tokens in addresses. -/
theorem remarked_revealing (o : Options) (d : Text) :
    Remarked isMarkOrToken isMark d (revealing.pass o d) := by
  refine Remarked.pass (fun r hr d => ?_) d
  simp only [revealing, List.mem_cons, List.not_mem_nil, or_false] at hr
  rcases hr with rfl | rfl
  · rw [isPure_linkTag.pass_eq]
    exact remarked_address "<a href='".toList ['\'', '>'] (by decide)
      (by decide) d
  · rw [isPure_imageTag.pass_eq]
    exact remarked_address "<img src='".toList ['\''] (by decide)
      (by decide) d

end Table

/-! ## Merging -/

/-- Taking out stretches into which no occurrence of a word reaches leaves the occurrences. -/
theorem Pattern.occurrences_le_rewriteFrom {w : Text} {p : Pattern} (hp : p.finder.IsProper)
    (ρ : Match → Text)
    (h : ∀ b s r v, p.finder (.of b (s ++ r)) = some (s.length, v) →
      Text.IsClosed w s ∧ Text.occurrences w s = 0)
    (t : Text) : Text.occurrences w t ≤ Text.occurrences w (p.rewriteFrom ρ none t) := by
  refine rewriteFrom_induction hp ρ
    (P := fun t t' => Text.occurrences w t ≤ Text.occurrences w t') (fun _ => Nat.le_refl _)
    (fun b l s r r' v hf hr => ?_) t
  obtain ⟨hclosed, hzero⟩ := h b s r v hf
  have hnew := Text.add_occurrences_le w (l ++ ρ ⟨s, v⟩) r'
  have hfront := Text.add_occurrences_le w l (ρ ⟨s, v⟩)
  rw [hclosed, hzero]
  omega

/-- A seam is a mark. -/
theorem isMark_seam {closing opening space : Text} (hc : ∀ c ∈ closing, isMarkChar c)
    (ho : ∀ c ∈ opening, isMarkChar c) (hne : closing ≠ []) (hs : IsSeamSpace space) :
    isMark (seam closing opening space) := by
  refine isMark_of_forall (by simp [seam, hne]) fun c hm => ?_
  simp only [seam, List.mem_append] at hm
  rcases hm with (hm | hm) | hm
  · exact hc c hm
  · rcases hs with rfl | ⟨d, hd, rfl⟩
    · simp at hm
    · obtain rfl := List.mem_singleton.1 hm
      simp [isMarkChar, hd]
  · exact ho c hm

theorem occurrences_le_adjacent {w : Text} (hw : IsDurable w) (closing opening : Text)
    (hc : ∀ c ∈ closing, isMarkChar c) (ho : ∀ c ∈ opening, isMarkChar c) (hne : closing ≠ [])
    (ρ : Match → Text) (t : Text) : Text.occurrences w t ≤
      Text.occurrences w ((adjacent closing opening).rewriteFrom ρ none t) := by
  refine Pattern.occurrences_le_rewriteFrom (isProper_adjacent opening hne) ρ (fun b s r v h => ?_) t
  obtain ⟨space, hspace, rfl, -⟩ := eq_of_finder_adjacent h
  exact hw.of_isMark (isMark_seam hc ho hne hspace)

namespace Table

variable {w : Text} (hw : IsDurable w) (o : Options) (d : Text)

include hw

theorem occurrences_le_merging : Text.occurrences w d ≤ Text.occurrences w (merging.pass o d) := by
  rw [pass_merging]
  have h₁ := occurrences_le_adjacent hw "</ul>".toList "<ul>".toList (List.all_eq_true.1 rfl)
    (List.all_eq_true.1 rfl) (by simp) (fun _ => []) d
  have h₂ := occurrences_le_adjacent hw "</ol>".toList "<ol>".toList (List.all_eq_true.1 rfl)
    (List.all_eq_true.1 rfl) (by simp) (fun _ => [])
    (adjacentUnordered.rewriteFrom (fun _ => []) none d)
  have h₃ := occurrences_le_adjacent hw "</blockquote>".toList "<blockquote>".toList
    (List.all_eq_true.1 rfl) (List.all_eq_true.1 rfl) (by simp) (fun _ => ['\n'])
    (adjacentOrdered.rewriteFrom (fun _ => []) none
      (adjacentUnordered.rewriteFrom (fun _ => []) none d))
  exact Nat.le_trans h₁ (Nat.le_trans h₂ h₃)

/-- Until the blocks are merged, a durable word is as frequent as before. -/
theorem occurrences_setting_wrapping :
    Text.occurrences w ((setting ++ [wrapping]).pass o d) = Text.occurrences w d := by
  exact ((remarked_setting_wrapping o d).mono (fun _ => isMarkOrToken_of_isMark)
    fun _ => isMarkOrToken_of_isTagOrToken).occurrences_eq hw

theorem occurrences_revealing :
    Text.occurrences w (revealing.pass o d) = Text.occurrences w d :=
  ((remarked_revealing o d).mono (fun _ => id)
    fun _ => isMarkOrToken_of_isMark).occurrences_eq hw

/-- No durable word is lost. -/
theorem occurrences_le_between :
    Text.occurrences w d ≤ Text.occurrences w ((between o).pass o d) := by
  rw [between, pass_append, pass_append, occurrences_revealing hw]
  split
  · exact Nat.le_trans (Nat.le_of_eq (occurrences_setting_wrapping hw o d).symm)
      (occurrences_le_merging hw o _)
  · exact Nat.le_of_eq (by rw [pass_nil, occurrences_setting_wrapping hw])

/-- A durable word is as frequent as before, if blocks are not merged. -/
theorem occurrences_between (ho : o.mergeAdjacentBlocks = false) :
    Text.occurrences w ((between o).pass o d) = Text.occurrences w d := by
  rw [between, ho, pass_append, pass_append, occurrences_revealing hw, if_neg (by simp), pass_nil,
    occurrences_setting_wrapping hw]

end Table

end Markdown
