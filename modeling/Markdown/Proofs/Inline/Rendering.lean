import Markdown.Proofs.Blocks.Merging
import Markdown.Proofs.Hiding
import Markdown.Proofs.Inline.Wrapping
import Markdown.Proofs.Reinsertion

/-!
# Rendering a line with spans

Behind the rule for paragraphs the addresses get their markers back, first those of links and then
those of images, and a line of words and spans is rendered as its reference says
(`Renderer.render_line`).
-/

namespace Markdown

open Pattern

/-! ## Addresses -/

namespace Address

variable (u : Address)

theorem reveal_hide : Url.reveal (Url.hide u.text) = u.text :=
  Url.reveal_hide (u.notMem (by decide))

theorem notMem_hide {c : Char} (hc : isAddressChar c = false)
    (htokens : c ∉ Url.underscoreToken ∧ c ∉ Url.asteriskToken) : c ∉ Url.hide u.text :=
  Url.notMem_hide (u.notMem hc) htokens

end Address

/-! ## Tags that do not stand in a line -/

namespace Span

/-- The parts of the HTML of a span in which tags begin. -/
def tags : Span → List Text
  | strong _ _ => ["<strong>".toList, "</strong>".toList]
  | emphasis _ _ => ["<em>".toList, "</em>".toList]
  | deleted _ => ["<del>".toList, "</del>".toList]
  | quotation _ => ["<q>".toList, "</q>".toList]
  | code _ => ["<code>".toList, "</code>".toList]
  | link _ _ => ["<a href='".toList, "</a>".toList]
  | image _ _ => ["<img src='".toList]

variable {s : Span} {m : Text} {f g : Text → Text}

/-- A word that begins with an angle bracket begins nowhere in the HTML of a span, if it does not in
its tags. -/
theorem isFree_htmlWith (hf : ∀ u : Address, '<' ∉ f u.text) (hg : ∀ u : Address, '<' ∉ g u.text)
    (h : ∀ t ∈ s.tags, Text.lacks ('<' :: m) t) : Text.IsFree ('<' :: m) (s.htmlWith f g) := by
  have hwords (x : Phrase) : Text.IsFree ('<' :: m) x.text :=
    Text.isFree_of_notMem m (x.notMem (by decide))
  have helement (opening closing : Text) (hs : s.tags = [opening, closing]) {t : Text}
      (ht : Text.IsFree ('<' :: m) t) : Text.IsFree ('<' :: m) (opening ++ t ++ closing) :=
    ((Text.isFree_of_lacks (h opening (by simp [hs]))).append ht).append
      (Text.isFree_of_lacks (h closing (by simp [hs])))
  have hnone {t : Text} (ht : '<' ∉ t) : Text.IsFree ('<' :: m) t := Text.isFree_of_notMem m ht
  cases s with
  | strong _ x =>
    rw [htmlWith_strong, element_eq]
    exact helement _ _ rfl (hwords x)
  | emphasis _ x =>
    rw [htmlWith_emphasis, element_eq]
    exact helement _ _ rfl (hwords x)
  | deleted x =>
    rw [htmlWith_deleted, element_eq]
    exact helement _ _ rfl (hwords x)
  | quotation x =>
    rw [htmlWith_quotation, element_eq]
    exact helement _ _ rfl (hwords x)
  | code c =>
    rw [htmlWith_code, element_eq]
    exact helement _ _ rfl (hnone (c.notMem '<' (by decide)))
  | link x u =>
    have hsplit : htmlWith f g (link x u) =
        "<a href='".toList ++ (f u.text ++ "'>".toList ++ x.text) ++ "</a>".toList := by simp
    rw [hsplit]
    exact helement _ _ rfl (((hnone (hf u)).append (hnone (by decide))).append (hwords x))
  | image x u =>
    rw [htmlWith_image]
    exact ((((Text.isFree_of_lacks (h _ (by simp [tags]))).append (hnone (hg u))).append
      (hnone (by decide))).append (hwords x)).append (hnone (by decide))

theorem isFree_linkTag (hs : s.rank ≠ 1) (hf : ∀ u : Address, '<' ∉ f u.text)
    (hg : ∀ u : Address, '<' ∉ g u.text) : Text.IsFree "<a href='".toList (s.htmlWith f g) := by
  have htags : ∀ t ∈ s.tags, Text.lacks "<a href='".toList t := by
    cases s with
    | link _ _ => exact absurd rfl hs
    | _ => exact List.all_eq_true.1 rfl
  exact isFree_htmlWith hf hg htags

theorem isFree_imageTag (hs : s.rank ≠ 0) (hf : ∀ u : Address, '<' ∉ f u.text)
    (hg : ∀ u : Address, '<' ∉ g u.text) : Text.IsFree "<img src='".toList (s.htmlWith f g) := by
  have htags : ∀ t ∈ s.tags, Text.lacks "<img src='".toList t := by
    cases s with
    | image _ _ => exact absurd rfl hs
    | _ => exact List.all_eq_true.1 rfl
  exact isFree_htmlWith hf hg htags

/-- Only links depend on what is made of their addresses. -/
theorem htmlWith_of_rank_ne_one (hs : s.rank ≠ 1) (f f' g : Text → Text) :
    s.htmlWith f g = s.htmlWith f' g := by
  cases s with
  | link _ _ => exact absurd rfl hs
  | _ => rfl

theorem htmlWith_of_rank_ne_zero (hs : s.rank ≠ 0) (f g g' : Text → Text) :
    s.htmlWith f g = s.htmlWith f g' := by
  cases s with
  | image _ _ => exact absurd rfl hs
  | _ => rfl

theorem exists_link (hs : s.rank = 1) : ∃ x u, s = link x u := by
  cases s with
  | link x u => exact ⟨x, u, rfl⟩
  | _ => exact absurd hs (by simp [rank])

theorem exists_image (hs : s.rank = 0) : ∃ x u, s = image x u := by
  cases s with
  | image x u => exact ⟨x, u, rfl⟩
  | _ => exact absurd hs (by simp [rank])

end Span

/-! ## Addresses that are revealed -/

/-- The rule for the tags of links reveals an address. -/
theorem turns_linkTag {l : Text} (hlf : '\n' ∉ l) (hquote : '\'' ∉ l) (r : Text) :
    linkTag.Turns (fun m => "<a href='".toList ++ Url.reveal (m.group 1) ++ "'>".toList) r
      ("<a href='".toList ++ l ++ "'>".toList)
      ("<a href='".toList ++ Url.reveal l ++ "'>".toList) :=
  turns_enclosed "<a href='(.*?)'>".toList "<a href='".toList ['>'] (by decide)
    (fun m => "<a href='".toList ++ Url.reveal (m.group 1) ++ "'>".toList) r
    (contains_notLineFeed_of_notMem hlf) hquote

/-- The rule for the tags of images does the same. -/
theorem turns_imageTag {l : Text} (hlf : '\n' ∉ l) (hquote : '\'' ∉ l) (r : Text) :
    imageTag.Turns (fun m => "<img src='".toList ++ Url.reveal (m.group 1) ++ ['\'']) r
      ("<img src='".toList ++ l ++ ['\'']) ("<img src='".toList ++ Url.reveal l ++ ['\'']) :=
  turns_enclosed "<img src='(.*?)'".toList "<img src='".toList [] (by decide)
    (fun m => "<img src='".toList ++ Url.reveal (m.group 1) ++ ['\'']) r
    (contains_notLineFeed_of_notMem hlf) hquote

/-! ## The passes over a paragraph -/

/-- A line with spans as a paragraph, a line feed on either side. -/
def paragraphOf (f : Span → Text) (w : Words) (ss : List (Span × Words)) : Text :=
  '\n' :: Handler.element ['p'] (spanned f w ss) ++ ['\n']

theorem paragraphOf_eq (f : Span → Text) (w : Words) (ss : List (Span × Words)) :
    paragraphOf f w ss =
      ['\n'] ++ ("<p>".toList ++ (spanned f w ss ++ ("</p>".toList ++ ['\n']))) := by
  simp [paragraphOf, Handler.element]

/-- A rule that looks for a tag turns a paragraph into another one span by span. -/
theorem rewriteFrom_paragraphOf {p : Pattern} (hp : p.finder.IsProper) {m : Text}
    (hms : p.OpensWith ['<' :: m]) (hm : Text.lacks ('<' :: m) "<p>".toList ∧
      Text.lacks ('<' :: m) "</p>".toList) {ρ : Match → Text} {f g : Span → Text}
    (hspan : ∀ s r, p.Turns ρ r (f s) (g s)) (w : Words) (ss : List (Span × Words)) :
    p.rewriteFrom ρ none (paragraphOf f w ss) = paragraphOf g w ss := by
  have hfree {t : Text} (ht : Text.IsFree ('<' :: m) t) (r : Text) : p.Turns ρ r t t :=
    .of_isFree_word hp hms ρ r ht
  have hwords (w : Words) (r : Text) : p.Turns ρ r w.text w.text :=
    hfree (Text.isFree_of_notMem m (w.notMem (by decide))) r
  have hlf (r : Text) : p.Turns ρ r ['\n'] ['\n'] :=
    hfree (Text.isFree_of_notMem m (by decide)) r
  have hspans (r : Text) : p.Turns ρ r (spanned f w ss) (spanned g w ss) :=
    (hwords w _).append (.flatMap fun _ s _ _ => (hspan s.1 _).append (hwords s.2 _))
  rw [paragraphOf_eq, paragraphOf_eq]
  exact Turns.rewriteFrom_eq hp ((hlf _).append ((hfree (Text.isFree_of_lacks hm.1) _).append
    ((hspans _).append ((hfree (Text.isFree_of_lacks hm.2) _).append (hlf []))))) none

/-- A word that begins with an angle bracket begins nowhere in a paragraph, if it does not in the
spans and in the tags of the paragraph. -/
theorem isFree_paragraphOf {m : Text} (hm : Text.lacks ('<' :: m) "<p>".toList ∧
      Text.lacks ('<' :: m) "</p>".toList) {f : Span → Text}
    (hspan : ∀ s, Text.IsFree ('<' :: m) (f s)) (w : Words) (ss : List (Span × Words)) :
    Text.IsFree ('<' :: m) (paragraphOf f w ss) := by
  have hlf : Text.IsFree ('<' :: m) ['\n'] := Text.isFree_of_notMem m (by decide)
  have hwords (w : Words) : Text.IsFree ('<' :: m) w.text :=
    Text.isFree_of_notMem m (w.notMem (by decide))
  have hspans : Text.IsFree ('<' :: m) (spanned f w ss) :=
    (hwords w).append (Text.isFree_flatMap fun s _ => (hspan s.1).append (hwords s.2))
  rw [paragraphOf_eq]
  exact hlf.append ((Text.isFree_of_lacks hm.1).append
    (hspans.append ((Text.isFree_of_lacks hm.2).append hlf)))

theorem angle_notMem_hide (u : Address) : '<' ∉ Url.hide u.text :=
  u.notMem_hide (by decide) (by decide)

/-- No block ends in a span, and none in its paragraph. -/
theorem isFree_closing_hidden (f : Family) (s : Span) : Text.IsFree f.closing s.hidden := by
  refine Span.isFree_htmlWith angle_notMem_hide angle_notMem_hide ?_
  cases f <;> cases s <;> exact List.all_eq_true.1 rfl

theorem pass_merging_paragraphOf (o : Options) (w : Words) (ss : List (Span × Words)) :
    (if o.mergeAdjacentBlocks then Table.merging else []).pass o (paragraphOf Span.hidden w ss) =
      paragraphOf Span.hidden w ss :=
  Family.pass_merging_of_isFree o fun f =>
    isFree_paragraphOf (by cases f <;> decide) (isFree_closing_hidden f) w ss

/-- The rule for the tags of links leaves all spans but links. -/
theorem pass_linkTag_paragraphOf (o : Options) (w : Words) (ss : List (Span × Words)) :
    (Table.handling .linkTag Handler.unescapeLink).pass o (paragraphOf Span.hidden w ss) =
      paragraphOf (Span.htmlWith id Url.hide) w ss := by
  rw [Table.isPure_linkTag.pass_eq]
  refine rewriteFrom_paragraphOf isProper_linkTag opensWith_linkTag (by decide) (fun s r => ?_) w ss
  have hfree {t : Text} (ht : Text.IsFree "<a href='".toList t) (ρ : Match → Text) (r : Text) :
      linkTag.Turns ρ r t t :=
    .of_isFree_word isProper_linkTag opensWith_linkTag ρ r ht
  by_cases hs : s.rank = 1
  · obtain ⟨x, u, rfl⟩ := Span.exists_link hs
    have hsplit (f : Text → Text) : Span.htmlWith f Url.hide (.link x u) =
        "<a href='".toList ++ f u.text ++ "'>".toList ++ (x.text ++ "</a>".toList) := by simp
    have htail : Text.IsFree "<a href='".toList (x.text ++ "</a>".toList) :=
      .append (Text.isFree_of_notMem _ (x.notMem (by decide))) (Text.isFree_of_lacks rfl)
    have hfound := turns_linkTag (u.notMem_hide (by decide) (by decide))
      (u.notMem_hide (by decide) (by decide)) (x.text ++ "</a>".toList ++ r)
    rw [u.reveal_hide] at hfound
    rw [Span.hidden, hsplit, hsplit]
    exact hfound.append (hfree htail _ r)
  · have hid (u : Address) : '<' ∉ id u.text := u.notMem (by decide)
    rw [Span.hidden, Span.htmlWith_of_rank_ne_one hs Url.hide id]
    exact hfree (Span.isFree_linkTag hs hid angle_notMem_hide) _ r

/-- The rule for the tags of images leaves all spans but images. -/
theorem pass_imageTag_paragraphOf (o : Options) (w : Words) (ss : List (Span × Words)) :
    (Table.handling .imageTag Handler.unescapeImage).pass o
        (paragraphOf (Span.htmlWith id Url.hide) w ss) = paragraphOf Span.html w ss := by
  rw [Table.isPure_imageTag.pass_eq]
  refine rewriteFrom_paragraphOf isProper_imageTag opensWith_imageTag (by decide) (fun s r => ?_) w ss
  have hfree {t : Text} (ht : Text.IsFree "<img src='".toList t) (ρ : Match → Text) (r : Text) :
      imageTag.Turns ρ r t t :=
    .of_isFree_word isProper_imageTag opensWith_imageTag ρ r ht
  by_cases hs : s.rank = 0
  · obtain ⟨x, u, rfl⟩ := Span.exists_image hs
    have hsplit (g : Text → Text) : Span.htmlWith id g (.image x u) =
        "<img src='".toList ++ g u.text ++ ['\''] ++
          (" alt='".toList ++ x.text ++ "' />".toList) := by simp
    have htail : Text.IsFree "<img src='".toList (" alt='".toList ++ x.text ++ "' />".toList) :=
      .append (.append (Text.isFree_of_notMem _ (by decide))
        (Text.isFree_of_notMem _ (x.notMem (by decide)))) (Text.isFree_of_notMem _ (by decide))
    have hfound := turns_imageTag (u.notMem_hide (by decide) (by decide))
      (u.notMem_hide (by decide) (by decide)) (" alt='".toList ++ x.text ++ "' />".toList ++ r)
    rw [u.reveal_hide] at hfound
    rw [Span.html, hsplit, hsplit]
    exact hfound.append (hfree htail _ r)
  · have hid (u : Address) : '<' ∉ id u.text := u.notMem (by decide)
    rw [Span.html, Span.htmlWith_of_rank_ne_zero hs id Url.hide id]
    exact hfree (Span.isFree_imageTag hs hid hid) _ r

/-- The last two rules for addresses reveal those of links and those of images. -/
theorem pass_revealing_paragraphOf (o : Options) (w : Words) (ss : List (Span × Words)) :
    Table.revealing.pass o (paragraphOf Span.hidden w ss) = paragraphOf Span.html w ss := by
  rw [Table.revealing, Table.pass_cons, Table.pass_cons, Table.pass_nil, pass_linkTag_paragraphOf,
    pass_imageTag_paragraphOf]

/-! ## Lines -/

/-- No fence stands in words with single backticks between them. -/
theorem isFree_fence_spanned (w : Words) {ss : List (Span × Words)}
    (hss : ∀ s ∈ ss, s.2.text ≠ []) : Text.IsFree fence (spanned Span.text w ss) := by
  have hnone {t : Text} (ht : '`' ∉ t) : Text.IsFree fence t := Text.isFree_of_notMem _ ht
  have hwords (w : Words) : Text.IsFree fence w.text := hnone (w.notMem (by decide))
  refine (hwords w).append (Text.isFree_flatMap fun s hs => ?_)
  by_cases hcode : s.1.rank = 6
  · obtain ⟨c, hc⟩ := Span.exists_code hcode
    have hbacktick : '`' ∉ c.text := c.notMem '`' (by decide)
    obtain ⟨a, t, ha⟩ := List.exists_cons_of_ne_nil (hss s hs)
    have hword : a ≠ '`' := by
      rintro rfl
      exact absurd (s.2.isWordChar_of_mem '`' (by simp [ha])) (by decide)
    have hclosing : Text.IsFree fence ('`' :: s.2.text) := by
      refine ⟨fun r hr => ?_, hwords s.2⟩
      rw [ha] at hr
      exact hword (List.cons_prefix_cons.1 (List.cons_prefix_cons.1 hr).2).1.symm
    have hopening : Text.IsFree fence ('`' :: (c.text ++ '`' :: s.2.text)) := by
      refine ⟨fun r hr => ?_, (hnone hbacktick).append hclosing⟩
      cases hempty : c.text with
      | nil =>
        rw [hempty, ha] at hr
        have htail := (List.cons_prefix_cons.1 (List.cons_prefix_cons.1 hr).2).2
        exact hword (List.cons_prefix_cons.1 htail).1.symm
      | cons d u =>
        rw [hempty] at hr hbacktick
        have hd : '`' = d := (List.cons_prefix_cons.1 (List.cons_prefix_cons.1 hr).2).1
        exact hbacktick (hd ▸ List.mem_cons_self)
    have hsplit : s.1.text ++ s.2.text = '`' :: (c.text ++ '`' :: s.2.text) := by simp [hc]
    rw [hsplit]
    exact hopening
  · exact (hnone (Span.notMem_text hcode (by decide))).append (hwords s.2)

theorem brace_notMem_spanned (w : Words) (ss : List (Span × Words)) :
    '\x7b' ∉ spanned Span.text w ss := by
  refine notMem_spanned (by decide) fun s => ?_
  by_cases hcode : s.rank = 6
  · obtain ⟨c, rfl⟩ := Span.exists_code hcode
    simp [c.notMem '\x7b' (by decide)]
  · exact Span.notMem_text hcode (by decide)

theorem stage_zero (w : Words) (ss : List (Span × Words)) :
    stage 0 w ss = '\n' :: spanned Span.text w ss ++ ['\n'] := by
  have hwritten (s : Span) : s.atRank 0 = s.text := Span.text_of_le (Nat.zero_le _)
  simp only [stage, behind, spanned, hwritten]
  rfl

namespace Renderer

/-- A line of words and spans is a paragraph with the HTML of the spans between the words. -/
theorem render_line (o : Options) (line : SpanLine) :
    (ofOptions o).render line.text = Handler.element ['p'] (Text.trim line.html) := by
  obtain ⟨w, ss, -, htrim⟩ := exists_trim_spanned line.isAlpha_head line.rest
  have hhidden : Text.trim (spanned Span.hidden line.first line.rest) = spanned Span.hidden w ss :=
    htrim Span.hidden (Span.getLast?_htmlWith _ _)
  have hhtml : Text.trim line.html = spanned Span.html w ss :=
    htrim Span.html (Span.getLast?_htmlWith _ _)
  have hfence : ¬ fence <:+: spanned Span.text line.first line.rest :=
    (isFree_fence_spanned _ line.ne_nil).not_isInfix
  have hwrapped : Table.wrapping.pass o (stage 7 line.first line.rest) =
      paragraphOf Span.hidden w ss := by
    rw [pass_wrapping_spans o line.isAlpha_head, hhidden, paragraphOf]
  rw [SpanLine.text, render_of_notMem o (brace_notMem_spanned _ _) hfence, ← stage_zero,
    Table.pass_between, pass_setting_spans o line.isAlpha_head line.ne_nil, hwrapped,
    pass_merging_paragraphOf, pass_revealing_paragraphOf, hhtml, paragraphOf, Text.trim_document,
    Handler.trim_element]

end Renderer

end Markdown
