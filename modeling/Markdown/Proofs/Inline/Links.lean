import Markdown.Proofs.Blocks.Merging
import Markdown.Proofs.Inline.Addresses

/-!
# Rendering a link

A document that is one link is rendered as a paragraph with the link in it, to the address that
`shownAddress` gives. This is the address as it is written if, and only if, behind none of its
asterisks another one and a slash stand (`Renderer.render_link_iff`).
-/

namespace Markdown

open Pattern

/-- A link as it is written. -/
def linkText (x u : Text) : Text :=
  ['['] ++ x ++ [']', '('] ++ u ++ [')']

/-- The HTML of a link. -/
def linkHtml (x u : Text) : Text :=
  "<a href='".toList ++ u ++ "'>".toList ++ x ++ "</a>".toList

theorem linkHtml_eq (x u : Text) :
    linkHtml x u = "<a href='".toList ++ u ++ "'>".toList ++ x ++ "</a>".toList := rfl

/-- A line between two line feeds. -/
def documentOf (l : Text) : Text :=
  '\n' :: l ++ ['\n']

section

variable {o : Options} {x : Phrase} {u : LinkAddress} {c : Char} {l m : Text}

/-! ## What does not stand in a link -/

theorem notMem_documentOf (hl : c ∉ l) (hlf : c ≠ '\n') : c ∉ documentOf l := by
  simp [documentOf, hl, hlf]

theorem notMem_linkText (hword : isWordChar c = false) (haddress : isLinkChar c = false)
    (hsign : c ∉ ['[', ']', '(', ')']) : c ∉ linkText x.text u.text := by
  have hsign' : c ≠ '[' ∧ c ≠ ']' ∧ c ≠ '(' ∧ c ≠ ')' := by simpa using hsign
  simp [linkText, x.notMem hword, u.notMem haddress, hsign']

theorem notMem_linkHtml (hword : isWordChar c = false) (hl : c ∉ l)
    (hsign : ∀ t ∈ ["<a href='".toList, "'>".toList, "</a>".toList], c ∉ t) :
    c ∉ linkHtml x.text l := by
  intro h
  rcases List.mem_append.1 h with h | h
  · rcases List.mem_append.1 h with h | h
    · rcases List.mem_append.1 h with h | h
      · rcases List.mem_append.1 h with h | h
        · exact hsign _ (by simp) h
        · exact hl h
      · exact hsign _ (by simp) h
    · exact x.notMem hword h
  · exact hsign _ (by simp) h

theorem isFree_linkHtml (hl : Text.IsFree ('<' :: m) l)
    (htags : Text.lacks ('<' :: m) "<a href='".toList ∧ Text.lacks ('<' :: m) "</a>".toList) :
    Text.IsFree ('<' :: m) (linkHtml x.text l) :=
  ((((Text.isFree_of_lacks htags.1).append hl).append (Text.isFree_of_notMem m (by decide))).append
    (Text.isFree_of_notMem m (x.notMem (by decide)))).append (Text.isFree_of_lacks htags.2)

/-- The address of a link once deleted text is set. -/
def LinkAddress.torn (u : LinkAddress) : Text :=
  (addressParts false u.text).flatMap AddressPart.hidden

theorem LinkAddress.notMem_hide (hc : isLinkChar c = false)
    (htokens : c ∉ Url.underscoreToken ∧ c ∉ Url.asteriskToken) : c ∉ Url.hide u.text :=
  notMem_hide_of_isLinkChar u.isLinkChar_of_mem hc htokens

theorem LinkAddress.notMem_torn (hc : isLinkChar c = false)
    (htokens : c ∉ Url.underscoreToken ∧ c ∉ Url.asteriskToken)
    (htorn : c ∉ AddressPart.openingToken ∧ c ∉ AddressPart.closingToken) : c ∉ u.torn := by
  have hparts : ∀ part ∈ addressParts false u.text, c ∉ part.hidden :=
    forall_addressParts htorn.1 htorn.2 fun d hd hm =>
      u.notMem_hide hc htokens (List.mem_flatMap_of_mem hd hm)
  intro h
  obtain ⟨part, hpart, hm⟩ := List.mem_flatMap.1 h
  exact hparts part hpart hm

/-- A word that begins with an angle bracket begins nowhere in an address, if it does not in the torn
tokens. -/
theorem LinkAddress.isFree_torn (h : Text.lacks ('<' :: m) AddressPart.openingToken ∧
    Text.lacks ('<' :: m) AddressPart.closingToken) : Text.IsFree ('<' :: m) u.torn :=
  Text.isFree_flatMap <| forall_addressParts (Text.isFree_of_lacks h.1) (Text.isFree_of_lacks h.2)
    fun _ hd => Text.isFree_of_notMem m fun hm =>
      u.notMem_hide (by decide) (by decide) (List.mem_flatMap_of_mem hd hm)

theorem LinkAddress.isFree_shownAddress (h : Text.lacks ('<' :: m) AddressPart.openingToken ∧
    Text.lacks ('<' :: m) AddressPart.closingToken) :
    Text.IsFree ('<' :: m) (shownAddress u.text) :=
  Text.isFree_flatMap <| forall_addressParts (Text.isFree_of_lacks h.1) (Text.isFree_of_lacks h.2)
    fun _ hd => Text.isFree_of_notMem m fun hm =>
      u.notMem (by decide) (List.mem_singleton.1 hm ▸ hd)

theorem asterisk_notMem : '*' ∉ documentOf (linkHtml x.text (Url.hide u.text)) :=
  notMem_documentOf
    (notMem_linkHtml (by decide) (Url.marker_notMem_hide _ (.inl rfl)) (by decide)) (by decide)

theorem underscore_notMem : '_' ∉ documentOf (linkHtml x.text (Url.hide u.text)) :=
  notMem_documentOf
    (notMem_linkHtml (by decide) (Url.marker_notMem_hide _ (.inr rfl)) (by decide)) (by decide)

/-- What stands in no word, no address and no tag does not stand in the HTML with the torn address. -/
theorem notMem_linkHtml_torn (h : isWordChar c = false ∧ isLinkChar c = false ∧
    (∀ t ∈ [Url.underscoreToken, Url.asteriskToken, AddressPart.openingToken,
      AddressPart.closingToken], c ∉ t) ∧
    ∀ t ∈ ["<a href='".toList, "'>".toList, "</a>".toList], c ∉ t) :
    c ∉ linkHtml x.text u.torn := by
  obtain ⟨hword, haddress, htokens, hsign⟩ := h
  exact notMem_linkHtml hword (u.notMem_torn haddress ⟨htokens _ (by simp), htokens _ (by simp)⟩
    ⟨htokens _ (by simp), htokens _ (by simp)⟩) hsign

theorem LinkAddress.lineFeed_notMem_linkHtml (u : LinkAddress) (x : Phrase) :
    '\n' ∉ linkHtml x.text u.torn :=
  notMem_linkHtml_torn (by decide)

/-! ## The passes over a link -/

theorem pass_image_link (o : Options) (x : Phrase) (u : LinkAddress) :
    (Table.handling .image Handler.image).pass o (documentOf (linkText x.text u.text)) =
      documentOf (linkText x.text u.text) :=
  Table.isPure_image.pass_of_notMem_word isProper_image opensWith_image o (c := '!') (by decide)
    (notMem_documentOf (notMem_linkText (by decide) (by decide) (by decide)) (by decide))

/-- The rule for links finds the link, and hides its address. -/
theorem pass_link_link (o : Options) (x : Phrase) (u : LinkAddress) :
    (Table.handling .link Handler.link).pass o (documentOf (linkText x.text u.text)) =
      documentOf (linkHtml x.text (Url.hide u.text)) := by
  have href : IsReference x.text u.text :=
    ⟨x.ne_nil, u.ne_nil, x.notMem (by decide), u.notMem (by decide)⟩
  have hend : ']' ∉ (u.text ++ ')' :: ['\n']).takeWhile (· != '[') := fun h => by
    have hm := (List.takeWhile_sublist _).subset h
    simp [u.notMem (c := ']') (by decide)] at hm
  have hstay (ρ : Match → Text) (r : Text) : link.Turns ρ r ['\n'] ['\n'] :=
    .of_notMem_word isProper_link opensWith_link ρ r (by decide)
  have hfound (ρ : Match → Text) : link.Turns ρ ['\n'] (referenceText ['['] x.text u.text)
      (ρ ⟨referenceText ['['] x.text u.text, [some x.text, some u.text]⟩) :=
    .of_found isProper_link ρ fun b =>
      finder_referring _ ['['] b ['\n'] href (x.notMem (by decide)) hend
  have hsplit : documentOf (linkText x.text u.text) =
      ['\n'] ++ (referenceText ['['] x.text u.text ++ ['\n']) := by
    simp [documentOf, linkText, referenceText]
  rw [Table.isPure_link.pass_eq, hsplit]
  exact Turns.rewriteFrom_eq isProper_link
    ((hstay _ _).append ((hfound _).append (hstay _ []))) none

/-- The rules for emphasis find no marker in the HTML of the link. -/
theorem pass_strong_link (o : Options) (x : Phrase) (u : LinkAddress) :
    (Table.rewriting .strong "<strong>\\2</strong>").pass o
        (documentOf (linkHtml x.text (Url.hide u.text))) =
      documentOf (linkHtml x.text (Url.hide u.text)) := by
  refine Table.isPure_strong.pass_of_notMem (isProper_finder_delimiter _) opensWith_strong o ?_
  simp only [List.forall_mem_cons]
  exact ⟨⟨'*', by decide, asterisk_notMem⟩, ⟨'_', by decide, underscore_notMem⟩, by simp⟩

theorem pass_emphasis_link (o : Options) (x : Phrase) (u : LinkAddress) :
    (Table.rewriting .emphasis "<em>\\2</em>").pass o
        (documentOf (linkHtml x.text (Url.hide u.text))) =
      documentOf (linkHtml x.text (Url.hide u.text)) := by
  refine Table.isPure_emphasis.pass_of_notMem (isProper_finder_delimiter _) opensWith_emphasis o ?_
  simp only [List.forall_mem_cons]
  exact ⟨⟨'*', by decide, asterisk_notMem⟩, ⟨'_', by decide, underscore_notMem⟩, by simp⟩

/-- The rule for deleted text tears the tokens of asterisks. -/
theorem pass_deleted_link (o : Options) (x : Phrase) (u : LinkAddress) :
    (Table.rewriting .deleted "<del>\\2</del>").pass o
        (documentOf (linkHtml x.text (Url.hide u.text))) =
      documentOf (linkHtml x.text u.torn) := by
  have hp : deleted.finder.IsProper := isProper_finder_delimiter _
  -- what stands behind the address
  let r : Text := x.text ++ "</a>".toList ++ ['\n']
  have htilde : '~' ∉ r := by simp [r, x.notMem (c := '~') (by decide)]
  have hclosing : (Outlook.ofText r).closingTagAhead := by
    have hsplit : r = x.text ++ ("</a>".toList ++ ['\n']) := List.append_assoc ..
    rw [hsplit]
    exact Outlook.closingTagAhead_append (x.notMem (by decide)) rfl
  have hpaired : Outlook.IsPaired (.ofText r) := by
    have hbacktick : '`' ∉ r := by simp [r, x.notMem (c := '`') (by decide)]
    have h := Outlook.isPaired_append hbacktick Outlook.isPaired_atEnd
    rwa [List.append_nil] at h
  have haddress := turns_hide u.isLinkChar_of_mem htilde hclosing hpaired
  have hsplit (l : Text) : documentOf (linkHtml x.text l) =
      ('\n' :: "<a href='".toList) ++ (l ++ '\'' :: '>' :: r) := by
    simp [documentOf, linkHtml_eq, r]
  have hbehind : '~' ∉ '\'' :: '>' :: r := by simpa using htilde
  rw [Table.isPure_deleted.pass_eq, hsplit, hsplit]
  refine Turns.rewriteFrom_eq hp (.append (turns_deleted_of_notMem _ (by decide))
    (.append ?_ (turns_deleted_of_notMem _ hbehind))) none
  rw [List.append_nil]
  exact haddress

/-- The rules for other spans find no sign of theirs. -/
theorem pass_quotation_link (o : Options) (x : Phrase) (u : LinkAddress) :
    (Table.rewriting .quotation "<q>\\1</q>").pass o (documentOf (linkHtml x.text u.torn)) =
      documentOf (linkHtml x.text u.torn) :=
  Table.isPure_quotation.pass_of_notMem_word isProper_quotation opensWith_quotation o (c := '"')
    (by decide) (notMem_documentOf (notMem_linkHtml_torn (by decide)) (by decide))

theorem pass_inlineCode_link (o : Options) (x : Phrase) (u : LinkAddress) :
    (Table.rewriting .inlineCode "<code>\\1</code>").pass o (documentOf (linkHtml x.text u.torn)) =
      documentOf (linkHtml x.text u.torn) :=
  Table.isPure_inlineCode.pass_of_notMem_word isProper_inlineCode opensWith_inlineCode o (c := '`')
    (by decide) (notMem_documentOf (notMem_linkHtml_torn (by decide)) (by decide))

/-- The rules before the one for paragraphs set the link. -/
theorem pass_setting_link (o : Options) (x : Phrase) (u : LinkAddress) :
    Table.setting.pass o (documentOf (linkText x.text u.text)) =
      documentOf (linkHtml x.text u.torn) := by
  have hlinkText : '\n' ∉ linkText x.text u.text :=
    notMem_linkText (by decide) (by decide) (by decide)
  have hheader : (Table.handling .header Handler.header).pass o
      (documentOf (linkText x.text u.text)) = documentOf (linkText x.text u.text) :=
    (isPlainLine_cons o _ (by decide) (by decide)).pass_header hlinkText
  have hline : IsPlainLine o (linkHtml x.text u.torn) := isPlainLine_cons o _ (by decide) (by decide)
  have hlf := u.lineFeed_notMem_linkHtml x
  have hunordered := hline.pass_unorderedItem hlf
  have hordered := hline.pass_orderedItem hlf
  have hquote := hline.pass_blockquote hlf
  have hrule := hline.pass_horizontalRule hlf
  rw [← documentOf] at hunordered hordered hquote hrule
  rw [Table.setting]
  simp only [Table.pass_cons, Table.pass_nil, hheader, pass_image_link, pass_link_link,
    pass_strong_link, pass_emphasis_link, pass_deleted_link, pass_quotation_link,
    pass_inlineCode_link, hunordered, hordered, hquote, hrule]

/-- A link is no block but a paragraph. -/
theorem pass_wrapping_link (o : Options) (x : Phrase) (u : LinkAddress) :
    Table.wrapping.pass o (documentOf (linkHtml x.text u.torn)) =
      documentOf (Handler.element ['p'] (linkHtml x.text u.torn)) := by
  have htrim : Text.trim (linkHtml x.text u.torn) = linkHtml x.text u.torn := by
    have hsplit : linkHtml x.text u.torn =
        '<' :: ("a href='".toList ++ u.torn ++ "'>".toList ++ x.text ++ "</a".toList) ++ ['>'] := by
      simp [linkHtml_eq]
    rw [hsplit]
    exact Text.trim_tag _
  have hwrapped := pass_wrapping_line o (u.lineFeed_notMem_linkHtml x)
    (by rw [htrim]; rfl) (by rw [htrim]; exact List.cons_ne_nil _ _)
  rwa [htrim] at hwrapped

/-- The HTML of a paragraph with a link in it, a line feed on either side. -/
def linkDocument (x l : Text) : Text :=
  documentOf (Handler.element ['p'] (linkHtml x l))

/-- A word that begins with an angle bracket begins nowhere in the HTML of a link, if it does not in
the tags. -/
theorem isFree_linkDocument (hl : Text.IsFree ('<' :: m) l)
    (htags : Text.lacks ('<' :: m) "<a href='".toList ∧ Text.lacks ('<' :: m) "</a>".toList)
    (hparagraph : Text.lacks ('<' :: m) "<p>".toList ∧ Text.lacks ('<' :: m) "</p>".toList) :
    Text.IsFree ('<' :: m) (linkDocument x.text l) := by
  have hlf : Text.IsFree ('<' :: m) ['\n'] := Text.isFree_of_notMem m (by decide)
  have hsplit : linkDocument x.text l =
      ['\n'] ++ ("<p>".toList ++ linkHtml x.text l ++ "</p>".toList) ++ ['\n'] := by
    simp [linkDocument, documentOf, Handler.element]
  rw [hsplit]
  exact (hlf.append (((Text.isFree_of_lacks hparagraph.1).append (isFree_linkHtml hl htags)).append
    (Text.isFree_of_lacks hparagraph.2))).append hlf

/-- Nothing is merged in a paragraph. -/
theorem pass_merging_link (o : Options) (x : Phrase) (u : LinkAddress) :
    (if o.mergeAdjacentBlocks then Table.merging else []).pass o (linkDocument x.text u.torn) =
      linkDocument x.text u.torn :=
  Family.pass_merging_of_isFree o fun f => by
    cases f <;> exact isFree_linkDocument (u.isFree_torn (by decide)) (by decide) (by decide)

theorem linkDocument_eq (x l : Text) :
    linkDocument x l = ('\n' :: "<p>".toList) ++ ("<a href='".toList ++ l ++ "'>".toList ++
      (x ++ ("</a></p>".toList ++ ['\n']))) := by
  simp [linkDocument, documentOf, linkHtml_eq, Handler.element]

/-- The address of a link is revealed part by part. -/
theorem pass_linkTag_link (o : Options) (x : Phrase) (u : LinkAddress) :
    (Table.handling .linkTag Handler.unescapeLink).pass o (linkDocument x.text u.torn) =
      linkDocument x.text (shownAddress u.text) := by
  have hfree {t : Text} (ht : Text.IsFree "<a href='".toList t) (ρ : Match → Text) (r : Text) :
      linkTag.Turns ρ r t t :=
    .of_isFree_word isProper_linkTag opensWith_linkTag ρ r ht
  have hbefore : Text.IsFree "<a href='".toList ('\n' :: "<p>".toList) := Text.isFree_of_lacks rfl
  have hbehind : Text.IsFree "<a href='".toList (x.text ++ ("</a></p>".toList ++ ['\n'])) :=
    .append (Text.isFree_of_notMem _ (x.notMem (by decide))) (Text.isFree_of_lacks rfl)
  have hfound := turns_linkTag (u.notMem_torn (by decide) (by decide) (by decide))
    (u.notMem_torn (by decide) (by decide) (by decide))
    (x.text ++ ("</a></p>".toList ++ ['\n']) ++ [])
  have hshown : Url.reveal u.torn = shownAddress u.text :=
    reveal_flatMap_hidden (u.notMem (by decide))
  rw [hshown] at hfound
  rw [Table.isPure_linkTag.pass_eq, linkDocument_eq, linkDocument_eq]
  exact Turns.rewriteFrom_eq isProper_linkTag
    ((hfree hbefore _ _).append (hfound.append (hfree hbehind _ []))) none

theorem pass_imageTag_link (o : Options) (x : Phrase) (u : LinkAddress) :
    (Table.handling .imageTag Handler.unescapeImage).pass o
      (linkDocument x.text (shownAddress u.text)) = linkDocument x.text (shownAddress u.text) :=
  Table.isPure_imageTag.pass_of_isFree_word isProper_imageTag opensWith_imageTag o
    (isFree_linkDocument (u.isFree_shownAddress (by decide)) (by decide) (by decide))

theorem pass_revealing_link (o : Options) (x : Phrase) (u : LinkAddress) :
    Table.revealing.pass o (linkDocument x.text u.torn) =
      linkDocument x.text (shownAddress u.text) := by
  rw [Table.revealing, Table.pass_cons, Table.pass_cons, Table.pass_nil, pass_linkTag_link,
    pass_imageTag_link]

end

namespace Renderer

/-- A link is rendered as a paragraph with a link to the address as it is shown. -/
theorem render_link_eq (o : Options) (x : Phrase) (u : LinkAddress) :
    (ofOptions o).render (linkText x.text u.text) =
      Handler.element ['p'] (linkHtml x.text (shownAddress u.text)) := by
  have hbrace : '\x7b' ∉ linkText x.text u.text :=
    notMem_linkText (by decide) (by decide) (by decide)
  have hfence : ¬ fence <:+: linkText x.text u.text := fun hin =>
    notMem_linkText (c := '`') (by decide) (by decide) (by decide) (hin.subset (by decide))
  rw [render_of_notMem o hbrace hfence, ← documentOf, Table.pass_between, pass_setting_link,
    pass_wrapping_link, ← linkDocument, pass_merging_link, pass_revealing_link, linkDocument,
    documentOf, Text.trim_document, Handler.trim_element]

/-- A link leads to its address as it is written if, and only if, behind none of the asterisks in the
address another one and a slash stand. -/
theorem render_link_iff (o : Options) (x : Phrase) (u : LinkAddress) :
    (ofOptions o).render (linkText x.text u.text) = Handler.element ['p'] (linkHtml x.text u.text) ↔
      IsGuarded u.text := by
  have hinj {l l' : Text} : Handler.element ['p'] (linkHtml x.text l) =
      Handler.element ['p'] (linkHtml x.text l') ↔ l = l' := by
    simp [Handler.element, linkHtml_eq]
  rw [render_link_eq, hinj, shownAddress_eq_self_iff (u.notMem (by decide))]

/-- The asterisks of an address are taken for deleted text. -/
theorem render_link_asterisks_ne :
    (ofOptions {}).render "[t](a*b*c/d)".toList ≠ "<p><a href='a*b*c/d'>t</a></p>".toList := by
  let x : Phrase := ⟨⟨['t'], List.all_eq_true.1 rfl⟩, by simp⟩
  let u : LinkAddress := ⟨"a*b*c/d".toList, by simp, List.all_eq_true.1 rfl⟩
  have hrender : (ofOptions {}).render "[t](a*b*c/d)".toList =
      Handler.element ['p'] (linkHtml ['t'] (shownAddress "a*b*c/d".toList)) :=
    render_link_eq {} x u
  rw [hrender]
  decide

end Renderer

end Markdown
