import Markdown.Proofs.Blocks.SetText
import Markdown.Proofs.Inline.Rendering
import Markdown.Proofs.Locality.Setting

/-!
# Rendering paragraphs and quotes with emphasis

A document of blocks is rendered as the blocks with the spans in them that are set
(`Renderer.render_blocks`), and two blocks are rendered like each of them alone if, and only if, the
second one is local to the first one (`Renderer.render_join_iff`).
-/

namespace Markdown

open Pattern

/-! ## Lines -/

/-- A block whose spans have delimiters, and which begins and ends with a letter. -/
structure FlaggedBlock.IsSound (b : FlaggedBlock) : Prop where
  isDelimited_of_mem : ∀ s ∈ b.spans, s.span.isDelimited
  isAlpha_head : ∃ c t, b.first.text = c :: t ∧ c.isAlpha
  isAlpha_getLast : ∃ t c, ((b.spans.getLast?.map FlaggedSpan.words).getD b.first).text = t ++ [c] ∧
    c.isAlpha

theorem map_words_flagSpans (inside : Nat → Bool) (ss : List (Span × Words)) :
    (flagSpans inside ss).map FlaggedSpan.words = ss.map Prod.snd := by
  induction ss with
  | nil => rfl
  | cons s ss ih => rw [flagSpans, List.map_cons, List.map_cons, ih]

theorem isSound_flagBlock (b : Block) (bs : List FlaggedBlock) : (flagBlock b bs).IsSound where
  isDelimited_of_mem := isDelimited_of_mem_flagSpans b.line.isDelimited_of_mem
  isAlpha_head := b.line.isAlpha_head
  isAlpha_getLast := by
    have hlast : (flagBlock b bs).spans.getLast?.map FlaggedSpan.words =
        b.line.rest.getLast?.map Prod.snd := by
      rw [← List.getLast?_map, ← List.getLast?_map]
      exact congrArg _ (map_words_flagSpans _ _)
    rw [hlast]
    exact b.line.isAlpha_getLast

theorem isSound_of_mem_flagBlocks {bs : List Block} : ∀ b ∈ flagBlocks bs, b.IsSound := by
  induction bs with
  | nil => exact fun b hb => absurd hb List.not_mem_nil
  | cons b bs ih => exact List.forall_mem_cons.2 ⟨isSound_flagBlock b _, ih⟩

namespace FlaggedBlock

variable {b : FlaggedBlock} {n : Nat} {c : Char}

theorem IsSound.exists_content_eq_cons (h : b.IsSound) (n : Nat) :
    ∃ c t, b.content n = c :: t ∧ c.isAlpha := by
  obtain ⟨c, t, hct, hc⟩ := h.isAlpha_head
  exact ⟨c, _, by rw [content, spannedAt, hct, List.cons_append], hc⟩

theorem IsSound.exists_content_eq_concat (h : b.IsSound) (n : Nat) :
    ∃ t c, b.content n = t ++ [c] ∧ c.isAlpha := by
  obtain ⟨t, c, htc, hc⟩ := h.isAlpha_getLast
  rcases List.eq_nil_or_concat b.spans with hnil | ⟨ss, s, hconcat⟩
  · rw [hnil] at htc
    refine ⟨t, c, ?_, hc⟩
    rw [content, spannedAt, hnil, List.flatMap_nil, List.append_nil]
    exact htc
  · rw [List.concat_eq_append] at hconcat
    rw [hconcat, List.getLast?_concat] at htc
    have hwords : s.words.text = t ++ [c] := htc
    refine ⟨spannedAt n b.first ss ++ s.atRank n ++ t, c, ?_, hc⟩
    simp [content, spannedAt, hconcat, hwords]

theorem IsSound.trim_content (h : b.IsSound) (n : Nat) : Text.trim (b.content n) = b.content n := by
  obtain ⟨c, t, hct, hc⟩ := h.exists_content_eq_cons n
  obtain ⟨u, d, hud, hd⟩ := h.exists_content_eq_concat n
  refine Text.trim_eq_self (fun e he => ?_) fun e he => ?_
  · rw [hct] at he
    exact Option.some.inj he ▸ isBlank_of_isAlpha hc
  · rw [hud, List.getLast?_concat] at he
    exact Option.some.inj he ▸ isBlank_of_isAlpha hd

/-- The line of a block behind the rules that precede the one for paragraphs. -/
def setLine (b : FlaggedBlock) : Text :=
  if b.quoted then Block.element true (b.content 5) else b.content 5

/-- The rules for lines that come before the one for quotes take no notice of a block. -/
theorem IsSound.lines_lineAt (h : b.IsSound) (o : Options) (n : Nat) :
    Line.header o (b.lineAt n) = b.lineAt n ∧ Line.unorderedItem (b.lineAt n) = b.lineAt n ∧
      Line.orderedItem (b.lineAt n) = b.lineAt n := by
  cases hquoted : b.quoted with
  | false =>
    have hline : b.lineAt n = b.content n := by simp [lineAt, hquoted]
    have hplain := isPlainLine_of_isAlpha o (h.exists_content_eq_cons n)
    rw [hline]
    exact ⟨hplain.header, hplain.unorderedItem, hplain.orderedItem⟩
  | true =>
    have hline : b.lineAt n = '>' :: ' ' :: b.content n := by simp [lineAt, hquoted]
    rw [hline]
    refine ⟨Line.header_of_head? o (by simp), Line.unorderedItem_of_head? (by simp),
      Line.orderedItem_of_head? fun c hc => ?_⟩
    obtain rfl : '>' = c := Option.some.inj hc
    rfl

/-- The rule for quotes makes an element of a quote. -/
theorem IsSound.blockquote_lineAt (h : b.IsSound) : Line.blockquote (b.lineAt 5) = b.setLine := by
  cases hquoted : b.quoted with
  | false =>
    have hline : b.lineAt 5 = b.content 5 := by simp [lineAt, hquoted]
    rw [hline, setLine, hquoted]
    exact (isPlainLine_of_isAlpha {} (h.exists_content_eq_cons 5)).blockquote
  | true =>
    have hline : b.lineAt 5 = '>' :: ' ' :: b.content 5 := by simp [lineAt, hquoted]
    have htrim : Text.trim (' ' :: b.content 5) = b.content 5 :=
      (Text.trim_append_left (u := [' ']) (List.all_eq_true.1 rfl) _).trans (h.trim_content 5)
    rw [hline, setLine, hquoted, if_pos rfl]
    show Handler.element "blockquote".toList (Text.trim (' ' :: b.content 5)) = _
    rw [htrim]
    rfl

theorem IsSound.horizontalRule_setLine (h : b.IsSound) :
    Line.horizontalRule b.setLine = b.setLine := by
  unfold setLine
  split
  · exact Line.horizontalRule_of_head? (by simp [Block.element, Handler.element])
  · exact (isPlainLine_of_isAlpha {} (h.exists_content_eq_cons 5)).horizontalRule

/-- The rule for paragraphs makes an element of any other block. -/
theorem IsSound.paragraphLine_setLine (h : b.IsSound) :
    Handler.paragraphLine b.setLine = b.html := by
  unfold setLine html
  cases b.quoted with
  | true =>
    refine Handler.paragraphLine_of_beginsBlock ?_
    rw [if_pos rfl, Block.element, Handler.trim_element]
    rfl
  | false =>
    obtain ⟨c, t, hct, hc⟩ := h.exists_content_eq_cons 5
    have htrim := h.trim_content 5
    have hhead : (Text.trim (b.content 5)).head? ≠ some '<' := fun hhead => by
      rw [htrim, hct] at hhead
      rw [Option.some.inj hhead] at hc
      exact absurd hc (by decide)
    have hne : Text.trim (b.content 5) ≠ [] := by
      rw [htrim, hct]
      exact List.cons_ne_nil c t
    rw [if_neg (by simp), Handler.paragraphLine_of_head? hhead hne, htrim]
    rfl

theorem IsSound.lineFeed_notMem_lineAt (h : b.IsSound) (n : Nat) : '\n' ∉ b.lineAt n :=
  notMem_lineAt h.isDelimited_of_mem (by decide) (by decide) (by decide)

theorem IsSound.lineFeed_notMem_setLine (h : b.IsSound) : '\n' ∉ b.setLine := by
  have hcontent : '\n' ∉ b.content 5 :=
    notMem_spannedAt h.isDelimited_of_mem (by decide) (by decide) (by decide)
  unfold setLine
  split
  · intro hm
    rcases Handler.mem_element hm with hm | hm | hm
    · exact absurd hm (by decide)
    · exact absurd hm (by decide)
    · exact hcontent hm
  · exact hcontent

theorem IsSound.quote_notMem_html (h : b.IsSound) : '\'' ∉ b.html := by
  intro hm
  rcases Handler.mem_element hm with hm | hm | hm
  · exact absurd hm (by decide)
  · split at hm <;> exact absurd hm (by decide)
  · exact notMem_spannedAt h.isDelimited_of_mem (by decide) (by decide) (by decide) hm

end FlaggedBlock

/-! ## The passes over a document of blocks -/

section Passes

variable {b : FlaggedBlock} {bs : List FlaggedBlock} {f g : FlaggedBlock → Text}

/-- A document with a line for each block and empty lines between them. -/
def blocksWith (f : FlaggedBlock → Text) (b : FlaggedBlock) (bs : List FlaggedBlock) : Text :=
  Text.ofLines [] (f b :: linesBehind f bs ++ [[]])

theorem blocksAt_eq_blocksWith (n : Nat) (b : FlaggedBlock) (bs : List FlaggedBlock) :
    blocksAt n b bs = blocksWith (·.lineAt n) b bs := by
  simp [blocksAt, blocksBehind, blocksWith, linesBehind, Text.ofLines, List.flatMap_assoc]

theorem mem_lines {x : Text} (hx : x ∈ f b :: linesBehind f bs ++ [[]]) :
    x = [] ∨ ∃ b' ∈ b :: bs, x = f b' := by
  simp only [linesBehind, List.mem_append, List.mem_cons, List.mem_flatMap, List.not_mem_nil,
    or_false] at hx
  rcases hx with (rfl | ⟨b', hb', rfl | rfl⟩) | rfl
  · exact .inr ⟨b, by simp, rfl⟩
  · exact .inl rfl
  · exact .inr ⟨b', by simp [hb'], rfl⟩
  · exact .inl rfl

theorem lineFeed_notMem_lines (hf : ∀ b' ∈ b :: bs, '\n' ∉ f b') :
    ∀ x ∈ f b :: linesBehind f bs ++ [[]], '\n' ∉ x := by
  intro x hx
  rcases mem_lines hx with rfl | ⟨b', hb', rfl⟩
  · exact List.not_mem_nil
  · exact hf b' hb'

theorem map_lines {k : Text → Text} (hnil : k [] = []) (hfg : ∀ b' ∈ b :: bs, k (f b') = g b') :
    (f b :: linesBehind f bs ++ [[]]).map k = g b :: linesBehind g bs ++ [[]] := by
  have hbehind : (linesBehind f bs).map k = linesBehind g bs := by
    rw [linesBehind, List.map_flatMap]
    refine List.flatMap_congr fun b' hb' => ?_
    rw [List.map_cons, List.map_singleton, hnil, hfg b' (by simp [hb'])]
  rw [List.map_append, List.map_cons, hbehind, hfg b (by simp), List.map_singleton, hnil]

/-- A rule that works line by line maps the lines of the blocks. -/
theorem pass_blocksWith {r : Rule} {ρ : Options → Match → Text} (hr : r.IsPure ρ) (o : Options)
    {k : Text → Text} (h : r.pattern.MapsLines (ρ o) k) (hnil : k [] = [])
    (hf : ∀ b' ∈ b :: bs, '\n' ∉ f b') (hfg : ∀ b' ∈ b :: bs, k (f b') = g b') :
    r.pass o (blocksWith f b bs) = blocksWith g b bs := by
  rw [hr.pass_eq, blocksWith, h.rewriteFrom_ofLines none (by simp) (lineFeed_notMem_lines hf),
    map_lines hnil hfg]
  rfl

/-- What stands in no line stands only in a document with line feeds. -/
theorem notMem_blocksWith {c : Char} (hf : ∀ b' ∈ b :: bs, c ∉ f b') (hlf : c ≠ '\n') :
    c ∉ blocksWith f b bs := by
  intro h
  rcases Text.mem_ofLines h with h | ⟨x, hx, h⟩
  · exact hlf h
  rcases List.mem_cons.1 hx with rfl | hx
  · exact absurd h List.not_mem_nil
  rcases mem_lines hx with rfl | ⟨b', hb', rfl⟩
  · exact absurd h List.not_mem_nil
  · exact hf b' hb' h

theorem notMem_blocksAt (hsound : ∀ b' ∈ b :: bs, b'.IsSound) (n : Nat) {c : Char}
    (hc : isWordChar c = false) (hsign : c ∉ ['<', '>', '/']) (hmarker : c ∉ ['*', '_', '~'])
    (hlf : c ≠ '\n') : c ∉ blocksAt n b bs := by
  rw [blocksAt_eq_blocksWith]
  exact notMem_blocksWith (fun b' hb' =>
    FlaggedBlock.notMem_lineAt (hsound b' hb').isDelimited_of_mem hc hsign hmarker) hlf

theorem pass_header_blocksAt (o : Options) (hsound : ∀ b' ∈ b :: bs, b'.IsSound) (n : Nat) :
    (Table.handling .header Handler.header).pass o (blocksAt n b bs) = blocksAt n b bs := by
  rw [blocksAt_eq_blocksWith]
  exact pass_blocksWith Table.isPure_header o (mapsLines_header o) (Line.header_of_head? o (by simp))
    (fun b' hb' => (hsound b' hb').lineFeed_notMem_lineAt n)
    fun b' hb' => ((hsound b' hb').lines_lineAt o n).1

/-- The rules for images, links, quotations and code find no sign of theirs. -/
theorem pass_signs_blocksAt (o : Options) (hsound : ∀ b' ∈ b :: bs, b'.IsSound) (n : Nat) :
    Table.pass [Table.handling .image Handler.image, Table.handling .link Handler.link] o
        (blocksAt n b bs) = blocksAt n b bs ∧
      Table.pass [Table.rewriting .quotation "<q>\\1</q>",
        Table.rewriting .inlineCode "<code>\\1</code>"] o (blocksAt n b bs) = blocksAt n b bs := by
  have hbracket : '[' ∉ blocksAt n b bs :=
    notMem_blocksAt hsound n (by decide) (by decide) (by decide) (by decide)
  have himage := Table.isPure_image.pass_of_notMem_word isProper_image opensWith_image o
    (by decide) hbracket
  have hlink := Table.isPure_link.pass_of_notMem_word isProper_link opensWith_link o
    (by decide) hbracket
  have hquotation := Table.isPure_quotation.pass_of_notMem_word isProper_quotation
    opensWith_quotation o (c := '"') (by decide)
    (notMem_blocksAt hsound n (by decide) (by decide) (by decide) (by decide))
  have hcode := Table.isPure_inlineCode.pass_of_notMem_word isProper_inlineCode
    opensWith_inlineCode o (c := '`') (by decide)
    (notMem_blocksAt hsound n (by decide) (by decide) (by decide) (by decide))
  simp only [Table.pass_cons, Table.pass_nil, himage, hlink, hquotation, hcode, and_self]

/-- The rules for lines make elements of the quotes. -/
theorem pass_lines_blocksAt (o : Options) (hsound : ∀ b' ∈ b :: bs, b'.IsSound) :
    Table.pass [Table.handling .unorderedItem Handler.unorderedItem,
      Table.handling .orderedItem Handler.orderedItem, Table.handling .blockquote Handler.blockquote,
      Table.rewriting .horizontalRule "\n<hr />"] o (blocksAt 5 b bs) =
        blocksWith FlaggedBlock.setLine b bs := by
  have hlf : ∀ b' ∈ b :: bs, '\n' ∉ b'.lineAt 5 := fun b' hb' =>
    (hsound b' hb').lineFeed_notMem_lineAt 5
  have hunordered := pass_blocksWith Table.isPure_unorderedItem o mapsLines_unorderedItem rfl hlf
    fun b' hb' => ((hsound b' hb').lines_lineAt o 5).2.1
  have hordered := pass_blocksWith Table.isPure_orderedItem o mapsLines_orderedItem rfl hlf
    fun b' hb' => ((hsound b' hb').lines_lineAt o 5).2.2
  have hquote := pass_blocksWith Table.isPure_blockquote o mapsLines_blockquote rfl hlf
    fun b' hb' => (hsound b' hb').blockquote_lineAt
  have hrule := pass_blocksWith Table.isPure_horizontalRule o mapsLines_horizontalRule rfl
    (fun b' hb' => (hsound b' hb').lineFeed_notMem_setLine)
    fun b' hb' => (hsound b' hb').horizontalRule_setLine
  rw [blocksAt_eq_blocksWith, Table.pass_cons, hunordered, Table.pass_cons, hordered,
    Table.pass_cons, hquote, Table.pass_cons, hrule, Table.pass_nil]

/-- The rules before the one for paragraphs set the spans and make elements of the quotes. -/
theorem pass_setting_blocksAt (o : Options) (b : Block) (bs : List Block) :
    Table.setting.pass o (blocksAt 2 (flagBlock b (flagBlocks bs)) (flagBlocks bs)) =
      blocksWith FlaggedBlock.setLine (flagBlock b (flagBlocks bs)) (flagBlocks bs) := by
  have hsound : ∀ b' ∈ flagBlock b (flagBlocks bs) :: flagBlocks bs, b'.IsSound :=
    List.forall_mem_cons.2 ⟨isSound_flagBlock b _, isSound_of_mem_flagBlocks⟩
  have hreferences := (pass_signs_blocksAt o hsound 2).1
  have hquoted := (pass_signs_blocksAt o hsound 5).2
  have hlines := pass_lines_blocksAt o hsound
  simp only [Table.pass_cons, Table.pass_nil] at hreferences hquoted hlines
  simp only [Table.setting, Table.pass_cons, Table.pass_nil, pass_header_blocksAt o hsound,
    hreferences, pass_strong_blocksAt, pass_emphasis_blocksAt, pass_deleted_blocksAt, hquoted, hlines]

theorem pass_wrapping_blocksWith (o : Options) (hsound : ∀ b' ∈ b :: bs, b'.IsSound) :
    Table.wrapping.pass o (blocksWith FlaggedBlock.setLine b bs) =
      blocksWith FlaggedBlock.html b bs := by
  rw [Table.isPure_wrapping.pass_eq]
  refine (rewriteFrom_paragraph _ rfl rfl (by simp) (lineFeed_notMem_lines fun b' hb' =>
    (hsound b' hb').lineFeed_notMem_setLine)).trans ?_
  rw [map_lines rfl fun b' hb' => (hsound b' hb').paragraphLine_setLine]
  rfl

/-! ### Merging -/

/-- No tag of a list or a quote stands in a block. -/
theorem FlaggedBlock.IsSound.isFree_content (h : b.IsSound) (f : Family) :
    Text.IsFree f.closing (b.content 5) := by
  have hnone {t : Text} (ht : '<' ∉ t) : Text.IsFree f.closing t := Text.isFree_of_notMem _ ht
  refine (hnone (b.first.notMem (by decide))).append (Text.isFree_flatMap fun s hs => ?_)
  refine .append ?_ (hnone (s.words.notMem (by decide)))
  unfold FlaggedSpan.atRank
  split
  · exact isFree_closing_hidden f s.span
  · obtain ⟨htwo, hfour⟩ := Span.rank_of_isDelimited (h.isDelimited_of_mem s hs)
    exact hnone (Span.notMem_text (by omega) (by decide))

/-- No seam begins with a closing tag in front of an empty line or at the end of the document. -/
theorem finder_seamPattern_closing (f : Family) (c : Option Char) (r : Text)
    (hr : r = ['\n'] ∨ ∃ r', r = '\n' :: '\n' :: r') :
    f.seamPattern.finder (.of c (f.closing ++ r)) = none := by
  refine finder_eq_none (Family.isProper_seamPattern f) fun s l v hsl hfound => ?_
  obtain ⟨space, hspace, rfl, -⟩ := eq_of_finder_adjacent hfound
  rw [seam, List.append_assoc, List.append_assoc, List.append_cancel_left_eq] at hsl
  rcases hspace with rfl | ⟨d, -, rfl⟩
  · rcases hr with rfl | ⟨r', rfl⟩ <;> exact absurd (List.cons.inj hsl).1 (by decide)
  · rcases hr with rfl | ⟨r', rfl⟩
    · exact absurd (List.cons.inj hsl).2 (by simp [Family.opening])
    · exact absurd (List.cons.inj (List.cons.inj hsl).2).1 (by decide)

/-- A block in front of an empty line or at the end of the document stays. -/
theorem FlaggedBlock.IsSound.turns_html (h : b.IsSound) (f : Family) {r : Text}
    (hr : r = ['\n'] ∨ ∃ r', r = '\n' :: '\n' :: r') :
    f.seamPattern.Turns (fun _ => f.glue) r b.html b.html := by
  have hfree := h.isFree_content f
  cases hquoted : b.quoted with
  | false =>
    have hhtml : b.html = "<p>".toList ++ b.content 5 ++ "</p>".toList := by
      simp [html, Block.element, hquoted, Handler.element]
    rw [hhtml]
    refine Family.turns_of_isFree f r ((Text.IsFree.append ?_ hfree).append ?_)
    all_goals cases f <;> exact Text.isFree_of_lacks rfl
  | true =>
    have hhtml : b.html = "<blockquote>".toList ++ b.content 5 ++ Family.quoted.closing := by
      simp [html, Block.element, hquoted, Handler.element, Family.closing, Family.name, Family.tag]
    rw [hhtml]
    refine .append (Family.turns_of_isFree f _ (.append ?_ hfree)) ?_
    · cases f <;> exact Text.isFree_of_lacks rfl
    · cases f with
      | bulleted => exact Family.turns_of_isFree _ r (Text.isFree_of_lacks rfl)
      | numbered => exact Family.turns_of_isFree _ r (Text.isFree_of_lacks rfl)
      | quoted =>
        exact Family.turns_closing .quoted fun c => finder_seamPattern_closing .quoted c r hr

/-- Blocks with empty lines between them stay. -/
theorem turns_htmlLines (f : Family) (hsound : ∀ b' ∈ b :: bs, b'.IsSound) :
    f.seamPattern.Turns (fun _ => f.glue) []
      (b.html ++ (bs.flatMap (fun b' => ['\n', '\n'] ++ b'.html) ++ ['\n']))
      (b.html ++ (bs.flatMap (fun b' => ['\n', '\n'] ++ b'.html) ++ ['\n'])) := by
  have hblank (t r : Text) (ht : '<' ∉ t) : f.seamPattern.Turns (fun _ => f.glue) r t t :=
    Family.turns_of_isFree f r (Text.isFree_of_notMem _ ht)
  induction bs generalizing b with
  | nil => exact ((hsound b (by simp)).turns_html f (.inl rfl)).append (hblank ['\n'] [] (by decide))
  | cons b' bs ih =>
    have hrest : ∀ b'' ∈ b' :: bs, b''.IsSound := fun b'' hb'' => hsound b'' (by simp [hb''])
    rw [List.flatMap_cons, List.append_assoc, List.append_assoc]
    exact ((hsound b (by simp)).turns_html f (.inr ⟨_, rfl⟩)).append
      ((hblank _ _ (by decide)).append (ih hrest))

/-- The blocks are not merged, since an empty line is between them. -/
theorem pass_merging_blocksWith (o : Options) (hsound : ∀ b' ∈ b :: bs, b'.IsSound) :
    (if o.mergeAdjacentBlocks then Table.merging else []).pass o
        (blocksWith FlaggedBlock.html b bs) = blocksWith FlaggedBlock.html b bs := by
  split
  · refine Family.pass_merging_eq_self o fun f => ?_
    have hsplit : blocksWith FlaggedBlock.html b bs =
        ['\n'] ++ (b.html ++ (bs.flatMap (fun b' => ['\n', '\n'] ++ b'.html) ++ ['\n'])) := by
      simp [blocksWith, linesBehind, Text.ofLines, List.flatMap_assoc]
    have hlf := Family.turns_of_isFree f (b.html ++
      (bs.flatMap (fun b' => ['\n', '\n'] ++ b'.html) ++ ['\n']) ++ [])
      (Text.isFree_of_notMem (t := ['\n']) _ (by decide))
    rw [hsplit]
    exact Turns.rewriteFrom_eq (Family.isProper_seamPattern f)
      (hlf.append (turns_htmlLines f hsound)) none
  · exact Table.pass_nil o _

theorem quote_notMem_blocksWith (hsound : ∀ b' ∈ b :: bs, b'.IsSound) :
    '\'' ∉ blocksWith FlaggedBlock.html b bs :=
  notMem_blocksWith (fun b' hb' => (hsound b' hb').quote_notMem_html) (by decide)

end Passes

/-! ## Rendering -/

/-- Before the first rule with delimiters, nothing is set. -/
theorem lineAt_two (b : Block) (bs : List FlaggedBlock) : (flagBlock b bs).lineAt 2 = b.text := by
  have hspans (inside : Nat → Bool) {ss : List (Span × Words)} (hss : ∀ s ∈ ss, s.1.isDelimited) :
      ((flagSpans inside ss).flatMap fun s => s.atRank 2 ++ s.words.text) =
        ss.flatMap fun s => s.1.text ++ s.2.text := by
    induction ss with
    | nil => rfl
    | cons s ss ih =>
      have htwo := (Span.rank_of_isDelimited (hss s (by simp))).1
      have hbefore (flag : Bool) : (⟨s.1, s.2, flag⟩ : FlaggedSpan).isSetBefore 2 = false := by
        rw [FlaggedSpan.isSetBefore, decide_eq_false (Nat.not_lt.2 htwo), Bool.and_false]
      rw [flagSpans, List.flatMap_cons, List.flatMap_cons, ih fun t ht => hss t (by simp [ht]),
        FlaggedSpan.atRank, hbefore]
      rfl
  rw [FlaggedBlock.lineAt, FlaggedBlock.content, spannedAt, Block.text, SpanLine.text, spanned]
  show _ ++ (_ ++ (flagSpans _ b.line.rest).flatMap _) = _
  rw [hspans _ b.line.isDelimited_of_mem]
  rfl

theorem blocksAt_two (b : Block) (bs : List Block) :
    blocksAt 2 (flagBlock b (flagBlocks bs)) (flagBlocks bs) =
      '\n' :: joinBlocks ((b :: bs).map Block.text) ++ ['\n'] := by
  have hbehind (bs : List Block) : (flagBlocks bs).flatMap (fun b => '\n' :: '\n' :: b.lineAt 2) =
      bs.flatMap fun b => ['\n', '\n'] ++ b.text := by
    induction bs with
    | nil => rfl
    | cons b bs ih =>
      rw [flagBlocks, List.flatMap_cons, List.flatMap_cons, ih, lineAt_two]
      rfl
  rw [blocksAt, blocksBehind, hbehind, lineAt_two, joinBlocks, List.map_cons, Text.intercalate_cons,
    List.flatMap_map]
  simp

/-- The HTML of a document of blocks. -/
theorem blocksWith_html (b : FlaggedBlock) (bs : List FlaggedBlock) :
    blocksWith FlaggedBlock.html b bs =
      '\n' :: joinBlocks ((b :: bs).map FlaggedBlock.html) ++ ['\n'] := by
  rw [joinBlocks, List.map_cons, Text.intercalate_cons, List.flatMap_map]
  simp [blocksWith, linesBehind, Text.ofLines, List.flatMap_assoc]

theorem exists_joinBlocks_eq_tag (b : FlaggedBlock) (bs : List FlaggedBlock) :
    ∃ t, joinBlocks ((b :: bs).map FlaggedBlock.html) = '<' :: t ++ ['>'] := by
  have hhtml (b : FlaggedBlock) : ∃ t, b.html = '<' :: t ++ ['>'] :=
    Handler.exists_tag_element _ _
  rw [joinBlocks]
  induction bs generalizing b with
  | nil => simpa using hhtml b
  | cons b' bs ih =>
    obtain ⟨t, ht⟩ := hhtml b
    obtain ⟨u, hu⟩ := ih b'
    rw [List.map_cons] at hu
    refine ⟨t ++ ['>'] ++ ['\n', '\n'] ++ '<' :: u, ?_⟩
    rw [List.map_cons, List.map_cons, List.intercalate_cons_cons, hu, ht]
    simp

namespace Renderer

/-- A document of blocks is rendered block by block, with the spans in them that are set. -/
theorem render_blocks (o : Options) (b : Block) (bs : List Block) :
    (ofOptions o).render (joinBlocks ((b :: bs).map Block.text)) =
      joinBlocks ((flagBlocks (b :: bs)).map FlaggedBlock.html) := by
  have hsound : ∀ b' ∈ flagBlocks (b :: bs), b'.IsSound := isSound_of_mem_flagBlocks
  have hnotMem {c : Char} (hc : isWordChar c = false) (hsign : c ∉ ['<', '>', '/'])
      (hmarker : c ∉ ['*', '_', '~']) (hlf : c ≠ '\n') :
      c ∉ joinBlocks ((b :: bs).map Block.text) := by
    intro h
    have hdelimited : AreDelimited (flagBlocks (b :: bs)) := areDelimited_flagBlocks (b :: bs)
    refine notMem_blocksBehind (n := 2) hdelimited hc hsign hmarker hlf ?_
    have hbehind : blocksBehind 2 (flagBlocks (b :: bs)) =
        '\n' :: blocksAt 2 (flagBlock b (flagBlocks bs)) (flagBlocks bs) := by
      simp [blocksBehind, blocksAt, flagBlocks]
    rw [hbehind, blocksAt_two]
    exact List.mem_cons_of_mem _ (List.mem_append_left _ (List.mem_cons_of_mem _ h))
  have hfence : ¬ fence <:+: joinBlocks ((b :: bs).map Block.text) := fun hin =>
    hnotMem (c := '`') (by decide) (by decide) (by decide) (by decide) (hin.subset (by decide))
  obtain ⟨t, ht⟩ := exists_joinBlocks_eq_tag (flagBlock b (flagBlocks bs)) (flagBlocks bs)
  rw [flagBlocks] at hsound ⊢
  rw [render_of_notMem o (hnotMem (by decide) (by decide) (by decide) (by decide)) hfence,
    ← blocksAt_two, Table.pass_between, pass_setting_blocksAt, pass_wrapping_blocksWith o hsound,
    pass_merging_blocksWith o hsound, SourceLine.pass_revealing o (quote_notMem_blocksWith hsound),
    blocksWith_html, Text.trim_document, ht, Text.trim_tag]

end Renderer

/-! ## Blocks next to each other -/

section Local

variable {inside : Nat → Bool} {ss : List (Span × Words)}

theorem any_isSetBefore_flagSpans (h : ∀ s ∈ flagSpans inside ss, s.isSet) (n : Nat) :
    (flagSpans inside ss).any (·.isSetBefore n) = ss.any (decide <| ·.1.rank < n) := by
  induction ss with
  | nil => rfl
  | cons s ss ih =>
    rw [flagSpans, List.forall_mem_cons] at h
    rw [flagSpans, List.any_cons, List.any_cons, ih h.2, FlaggedSpan.isSetBefore, h.1, Bool.true_and]

/-- All spans of a line are set if, and only if, each of them where the rule believes to be inside of
a tag is in front of one that is set before. -/
theorem forall_isSet_flagSpans_iff :
    (∀ s ∈ flagSpans inside ss, s.isSet) ↔ ∀ earlier s later, ss = earlier ++ s :: later →
      inside s.1.rank = false ∨ ∃ t ∈ later, t.1.rank < s.1.rank := by
  induction ss with
  | nil => simp [flagSpans]
  | cons s ss ih =>
    rw [flagSpans, List.forall_mem_cons]
    constructor
    · rintro ⟨hs, hss⟩ earlier s' later hsplit
      rcases List.cons_eq_append_iff.1 hsplit with ⟨rfl, heq⟩ | ⟨earlier', rfl, heq⟩
      · obtain ⟨rfl, rfl⟩ := List.cons.inj heq
        simpa [any_isSetBefore_flagSpans hss] using hs
      · exact ih.1 hss earlier' s' later heq
    · intro h
      have hss : ∀ s ∈ flagSpans inside ss, s.isSet := ih.2 fun earlier s' later hsplit =>
        h (s :: earlier) s' later (by rw [hsplit]; rfl)
      exact ⟨by simpa [any_isSetBefore_flagSpans hss] using h [] s ss rfl, hss⟩

theorem flagSpans_of_forall_isSet (h : ∀ s ∈ flagSpans inside ss, s.isSet) :
    flagSpans inside ss = ss.map fun s => ⟨s.1, s.2, true⟩ := by
  induction ss with
  | nil => rfl
  | cons s ss ih =>
    rw [flagSpans, List.forall_mem_cons] at h
    exact congrArg₂ List.cons (congrArg (FlaggedSpan.mk s.1 s.2) h.1) (ih h.2)

/-- Alone, all spans of a block are set. -/
theorem spans_flagBlock_nil (b : Block) :
    (flagBlock b []).spans = b.line.rest.map fun s => ⟨s.1, s.2, true⟩ :=
  flagSpans_of_forall_isSet (forall_isSet_flagSpans_iff.2 fun _ _ _ _ => .inl rfl)

theorem insideTag_flagBlock_nil (n : Nat) (b : Block) :
    insideTag n [flagBlock b []] = (b.quoted && b.line.rest.any (decide <| ·.1.rank < n)) := by
  have hany : (flagBlock b []).spans.any (·.isSetBefore n) =
      b.line.rest.any (decide <| ·.1.rank < n) := by
    rw [spans_flagBlock_nil, List.any_map]
    exact congrArg _ (funext fun s => Bool.true_and _)
  rw [insideTag, insideTag, hany]
  show (if _ then b.quoted else false) = _
  cases b.line.rest.any _ <;> cases b.quoted <;> rfl

theorem Block.isLocal_iff (a b : Block) :
    a.IsLocal b ↔ ∀ s ∈ (flagBlock a [flagBlock b []]).spans, s.isSet := by
  show _ ↔ ∀ s ∈ flagSpans _ _, s.isSet
  rw [forall_isSet_flagSpans_iff]
  simp only [IsLocal, insideTag_flagBlock_nil, Bool.and_eq_false_iff, List.any_eq_false,
    decide_eq_true_eq, Nat.not_lt]
  cases b.quoted <;> simp

/-! ### Markers in the HTML -/

/-- A span that is not set leaves a marker in the line. -/
theorem exists_marker_mem_text {s : Span} (hs : s.isDelimited) : ∃ c ∈ ['*', '_', '~'], c ∈ s.text := by
  cases s with
  | strong underscores x => cases underscores <;> simp [Span.markerChar]
  | emphasis underscores x => cases underscores <;> simp [Span.markerChar]
  | deleted x => simp
  | _ => simp [Span.isDelimited] at hs

theorem exists_marker_mem_html {b : FlaggedBlock} {s : FlaggedSpan} (hs : s ∈ b.spans)
    (hdelimited : s.span.isDelimited) (hset : s.isSet = false) : ∃ c ∈ ['*', '_', '~'], c ∈ b.html := by
  obtain ⟨c, hc, hmem⟩ := exists_marker_mem_text hdelimited
  refine ⟨c, hc, ?_⟩
  have hat : s.atRank 5 = s.span.text := by simp [FlaggedSpan.atRank, FlaggedSpan.isSetBefore, hset]
  have hcontent : c ∈ b.content 5 :=
    List.mem_append_right _ (List.mem_flatMap.2 ⟨s, hs, List.mem_append_left _ (hat ▸ hmem)⟩)
  exact Handler.subset_element _ _ hcontent

/-- If all spans are set, no marker is left. -/
theorem marker_notMem_html {b : FlaggedBlock} (hset : ∀ s ∈ b.spans, s.isSet)
    (hdelimited : ∀ s ∈ b.spans, s.span.isDelimited) {c : Char} (hc : c ∈ ['*', '_', '~']) :
    c ∉ b.html := by
  have hother := isOther_of_marker hc
  intro hm
  rcases Handler.mem_element hm with hm | hm | hm
  · exact hother.2 hm
  · have hname : isWordChar c := by
      split at hm
      · exact List.all_eq_true.1 (rfl : "blockquote".toList.all isWordChar) c hm
      · exact List.mem_singleton.1 hm ▸ rfl
    rw [hother.1] at hname
    exact absurd hname (by simp)
  · rcases List.mem_append.1 hm with hm | hm
    · exact b.first.notMem hother.1 hm
    · obtain ⟨s, hs, hm⟩ := List.mem_flatMap.1 hm
      rcases List.mem_append.1 hm with hm | hm
      · have hat : s.atRank 5 = s.span.hidden := by
          have hfour := (Span.rank_of_isDelimited (hdelimited s hs)).2
          simp [FlaggedSpan.atRank, FlaggedSpan.isSetBefore, hset s hs, Nat.lt_succ_of_le hfour]
        rw [hat] at hm
        exact Span.notMem_hidden_of_isDelimited (hdelimited s hs) hother.1 hother.2 hm
      · exact s.words.notMem hother.1 hm

/-- A block in front of another one has the HTML that it has alone if, and only if, the other one is
local to it. -/
theorem Block.html_flagBlock_eq_iff (a b : Block) :
    (flagBlock a [flagBlock b []]).html = (flagBlock a []).html ↔ a.IsLocal b := by
  rw [isLocal_iff]
  have halone : ∀ s ∈ (flagBlock a []).spans, s.isSet := by
    rw [spans_flagBlock_nil]
    intro s hs
    obtain ⟨_, _, rfl⟩ := List.mem_map.1 hs
    rfl
  constructor
  · intro heq s hs
    by_contra hset
    obtain ⟨c, hc, hmem⟩ := exists_marker_mem_html hs
      ((isSound_flagBlock a _).isDelimited_of_mem s hs) (Bool.not_eq_true _ ▸ hset)
    rw [heq] at hmem
    exact marker_notMem_html halone (isSound_flagBlock a []).isDelimited_of_mem hc hmem
  · intro hset
    have hspans : (flagBlock a [flagBlock b []]).spans = (flagBlock a []).spans :=
      (flagSpans_of_forall_isSet hset).trans (flagSpans_of_forall_isSet halone).symm
    rw [FlaggedBlock.html, FlaggedBlock.html, FlaggedBlock.content, FlaggedBlock.content, hspans]
    rfl

end Local

namespace Renderer

theorem render_alone (o : Options) (b : Block) :
    (ofOptions o).render b.text = (flagBlock b []).html := by
  have hrender := render_blocks o b []
  simpa [joinBlocks, flagBlocks] using hrender

theorem render_join (o : Options) (a b : Block) :
    (ofOptions o).render (a.text ++ ['\n', '\n'] ++ b.text) =
      (flagBlock a [flagBlock b []]).html ++ ['\n', '\n'] ++ (flagBlock b []).html := by
  have hrender := render_blocks o a [b]
  simpa [joinBlocks, flagBlocks, List.intercalate_cons_cons] using hrender

/-- Two blocks are rendered like each of them alone if, and only if, the second one does not close a
marker of the first one. -/
theorem render_join_iff (o : Options) (a b : Block) :
    (ofOptions o).render (a.text ++ ['\n', '\n'] ++ b.text) =
        (ofOptions o).render a.text ++ ['\n', '\n'] ++ (ofOptions o).render b.text ↔
      a.IsLocal b := by
  rw [render_join, render_alone, render_alone, List.append_left_inj, List.append_left_inj,
    Block.html_flagBlock_eq_iff]

/-- The sign of a quote and the closing tag behind it take the emphasis away from a paragraph in front
of the quote. -/
theorem render_join_quote_ne :
    (ofOptions {}).render ("a *x* c".toList ++ ['\n', '\n'] ++ "> b __y__ c".toList) ≠
      (ofOptions {}).render "a *x* c".toList ++ ['\n', '\n'] ++
        (ofOptions {}).render "> b __y__ c".toList := by
  let phrase (c : Char) (h : [c].all isWordChar) : Phrase := ⟨⟨[c], List.all_eq_true.1 h⟩, by simp⟩
  let a : Block := ⟨false, ⟨⟨⟨"a ".toList, List.all_eq_true.1 rfl⟩,
    [(.emphasis false (phrase 'x' rfl), ⟨" c".toList, List.all_eq_true.1 rfl⟩)],
    ⟨'a', [' '], rfl, rfl⟩, by simp⟩, by simp [Span.isDelimited], ⟨[' '], 'c', rfl, rfl⟩⟩⟩
  let b : Block := ⟨true, ⟨⟨⟨"b ".toList, List.all_eq_true.1 rfl⟩,
    [(.strong true (phrase 'y' rfl), ⟨" c".toList, List.all_eq_true.1 rfl⟩)],
    ⟨'b', [' '], rfl, rfl⟩, by simp⟩, by simp [Span.isDelimited], ⟨[' '], 'c', rfl, rfl⟩⟩⟩
  have ha : a.text = "a *x* c".toList := rfl
  have hb : b.text = "> b __y__ c".toList := rfl
  rw [← ha, ← hb, render_join, render_alone, render_alone, Ne, List.append_left_inj,
    List.append_left_inj, Block.html_flagBlock_eq_iff]
  intro hlocal
  -- The only span of the paragraph is set behind the one of the quote.
  rcases hlocal rfl [] _ [] rfl with h | ⟨_, h, -⟩
  · exact absurd (h _ (List.mem_singleton.2 rfl)) (by decide)
  · exact List.not_mem_nil h

end Renderer

end Markdown
