import Markdown.Proofs.Blocks.Rendering
import Markdown.Proofs.Confinement.Revealing
import Markdown.Proofs.Reinsertion
import Markdown.Proofs.Unmarked

/-!
# No token of an address leaks

The stages of a rendering one after another: the document behind the rules for addresses has no token
(`Renderer.not_infix_settled`), and neither the code blocks that are put back nor the references for
hidden braces bring one in (`Renderer.no_address_token_leaks`). What the rules for images and links are
asked for is stated of the documents that they get. If reserved tokens cannot be hidden, they stay
(`Renderer.not_forall_no_address_token_leaks`).
-/

namespace Markdown

open Pattern Text

variable {w : Text}

/-! ## Behind the rules for addresses -/

/-- The text has none of the characters of the tokens. -/
def isTokenless (b : Text) : Bool :=
  b.all fun c => !("\x7b^~\x7d".toList.elem c)

theorem isForeign_of_mem_addressTokens (hw : w ∈ addressTokens) {b : Text} (hb : b ≠ [])
    (h : isTokenless b = true) : IsForeign [w] b := by
  have hchars : w ≠ [] ∧ w ⊆ "\x7b^~\x7d".toList := by
    simp only [addressTokens, List.mem_cons, List.not_mem_nil, or_false] at hw
    rcases hw with rfl | rfl <;> decide
  refine isForeign_of_forall_notMem hchars.1 hb fun c hc hmem => ?_
  have hlacks := List.all_eq_true.1 h c hc
  rw [List.elem_eq_true_of_mem (hchars.2 hmem)] at hlacks
  exact absurd hlacks (by simp)

theorem ne_nil_of_mem_addressTokens (hw : w ∈ addressTokens) : w ≠ [] := by
  simp only [addressTokens, List.mem_cons, List.not_mem_nil, or_false] at hw
  rcases hw with rfl | rfl <;> decide

namespace CodeBlock

/-- Setting code makes no token. -/
theorem not_infix_body {raw : Text} (hw : w ∈ addressTokens) (h : ¬ w <:+: raw) :
    ¬ w <:+: body raw := by
  have hreplace : ¬ w <:+: Text.replace raw ['\n', '\n'] ['\n'] := by
    refine (Edited.of_replace (by simp) raw).not_isInfix (ne_nil_of_mem_addressTokens hw) ?_ ?_ h
    · rintro _ _ ⟨rfl, -⟩
      simp
    · rintro _ _ ⟨-, rfl⟩
      exact isForeign_of_mem_addressTokens hw (by simp) rfl
  have hnormalize : ¬ w <:+: normalize raw := fun hin =>
    hreplace (hin.trans ((trimWhere_isInfix _ _).trans (trimWhere_isInfix _ _)))
  have hescape : Edited (fun m m' => m ≠ [] ∧ m' ≠ [] ∧ isTokenless m' = true)
      (normalize raw) (body raw) := by
    rw [body_eq]
    refine .flatMap (fun c => ?_) _
    rcases escape_cases c with h | ⟨h, -⟩
    · exact .inr ⟨by simp,
        (by decide : ∀ e ∈ marks, e.2 ≠ [] ∧ isTokenless e.2 = true) _ h⟩
    · exact .inl h
  exact hescape.not_isInfix (ne_nil_of_mem_addressTokens hw) (fun _ _ hm => hm.1)
    (fun _ _ hm => isForeign_of_mem_addressTokens hw hm.2.1 hm.2.2) hnormalize

theorem render_eq (raw : Text) :
    render raw = "<pre><code>".toList ++ body raw ++ "</code></pre>".toList := rfl

/-- No token begins in a block or reaches into it, if none stands in the code. -/
theorem isForeign_render {raw : Text} (hw : w ∈ addressTokens) (h : ¬ w <:+: raw) :
    IsForeign [w] (render raw) := by
  have hangle : '<' ∉ w := by
    simp only [addressTokens, List.mem_cons, List.not_mem_nil, or_false] at hw
    rcases hw with rfl | rfl <;> decide
  have htags {b : Text} (hb : b ≠ []) (hchars : isTokenless b = true) : IsFree w b :=
    (isForeign_of_mem_addressTokens hw hb hchars w (by simp)).1
  have hsplit : render raw = "<pre><code>".toList ++ ((body raw ++ ['<']) ++ "/code></pre>".toList) := by
    rw [render_eq]
    simp
  refine List.forall_mem_singleton.2 ⟨?_, ?_⟩
  · rw [hsplit]
    exact (htags (by simp) rfl).append
      ((isFree_concat hangle (not_infix_body hw h)).append (htags (by simp) rfl))
  · exact isClear_of_notMem _ fun hm => hangle (List.mem_of_mem_tail hm)

end CodeBlock

/-- The last rule puts blocks in the places of stretches. -/
theorem Table.edited_reinsertion (d : Text) (cx : Context) :
    Edited (fun m m' => m ≠ [] ∧ m' ∈ cx.vault.blocks) d (reinsertion.apply d cx).1 := by
  rw [text_apply_reinsertion]
  refine .rewriteFrom isProper_placeholder fun b s r v _ h => ?_
  rcases Handler.reinsertCodeBlock_cases ⟨s, v⟩ cx with he | hm
  · rw [he]
    exact .refl s
  · exact .single ⟨List.length_pos_iff.1 (isProper_placeholder _ _ _ _ h).1, hm⟩

/-- Neither trimming nor the references for hidden braces make a token. -/
theorem Protected.not_infix_release (p : Protected) {out : Text} (hw : w ∈ addressTokens)
    (h : ¬ w <:+: out) : ¬ w <:+: p.release (trim out) := by
  have htrim : ¬ w <:+: trim out := fun hin => h (hin.trans (trimWhere_isInfix _ _))
  unfold release
  split
  · rename_i c _
    have hedit : Edited (fun m m' => m = [c] ∧ m' = Reserved.braceReference) (trim out)
        ((trim out).flatMap fun d => if d = c then Reserved.braceReference else [d]) := by
      refine .flatMap (fun d => ?_) _
      split
      · rename_i hd
        exact .inr ⟨by rw [hd], rfl⟩
      · exact .inl rfl
    refine hedit.not_isInfix (ne_nil_of_mem_addressTokens hw) ?_ ?_ htrim
    · rintro _ _ ⟨rfl, -⟩
      simp
    · rintro _ _ ⟨-, rfl⟩
      exact isForeign_of_mem_addressTokens hw (by decide) rfl
  · exact htrim

namespace Renderer

variable (o : Options) (t : Text)

/-! ## The result -/

/-- The document that the rule for images gets. -/
def beforeImages : Text :=
  Table.heading.pass o (extracted o t).1

/-- The document that the rule for links gets. -/
def beforeLinks : Text :=
  (Table.handling .image Handler.image).pass o (beforeImages o t)

/-- Until the last rule, the tokens of addresses stay in their tags, and they are all taken out of
them. -/
theorem not_infix_settled
    (hraw : Confined (confinedWords o) (IsImageTag o) [] (extracted o t).1)
    (himages : ∀ m ∈ Pattern.image.matches (beforeImages o t),
      IsWholeImage o (m.2.group 1) (m.2.group 2))
    (hlinks : ∀ m ∈ Pattern.link.matches (beforeLinks o t), IsWholeLink o (m.2.group 2)) :
    ∀ w ∈ addressTokens, ¬ w <:+: (settled o t).1 := by
  have hheading : Confined (confinedWords o) (IsImageTag o) [] (beforeImages o t) :=
    Table.confined_heading (areTags_isImageTag o) hraw
  have himage : Confined (confinedWords o) (IsUncutTag o) [] (beforeLinks o t) :=
    Table.confined_image himages hheading
  have hwrapping := Table.confined_behindReferences (Table.confined_link hlinks himage)
  have hsettled : (settled o t).1 = Table.revealing.pass o
      ((if o.mergeAdjacentBlocks then Table.merging else []).pass o
        ((Table.behindReferences ++ [Table.wrapping]).pass o
          ((Table.handling .link Handler.link).pass o (beforeLinks o t)))) := by
    rw [(settled_eq o t).1, Table.pass_between, Table.setting_eq, Table.pass_append]
    rw [Table.pass_append Table.behindReferences]
    rfl
  rw [hsettled]
  exact Table.not_infix_revealing (Table.confined_merging hwrapping)

/-- If reserved tokens can be hidden, the addresses of images and links have markers only where the
search for the end of a tag comes to them, and no reference begins or ends in the address of an image's
tag that stands in the text, the HTML has no token of an address. -/
theorem no_address_token_leaks
    (hreserved : Reserved.occursIn t = true → (Reserved.standIn? t).isSome)
    (hraw : Confined (confinedWords o) (IsImageTag o) [] (extracted o t).1)
    (himages : ∀ m ∈ Pattern.image.matches (beforeImages o t),
      IsWholeImage o (m.2.group 1) (m.2.group 2))
    (hlinks : ∀ m ∈ Pattern.link.matches (beforeLinks o t), IsWholeLink o (m.2.group 2)) :
    ¬ Url.underscoreToken <:+: (ofOptions o).render t ∧
      ¬ Url.asteriskToken <:+: (ofOptions o).render t := by
  have hrender : ∀ w ∈ addressTokens, ¬ w <:+: (ofOptions o).render t := by
    intro w hw
    have hdocument : ¬ w <:+: (Protected.ofText t).document :=
      Protected.not_infix_document (List.mem_cons_of_mem _ hw)
        (Protected.not_occursIn_or_standIn hreserved)
    have hblocks : ∀ block ∈ (settled o t).2.vault.blocks, IsForeign [w] block := by
      intro block hmem
      rw [vault_settled, vault_extracted] at hmem
      obtain ⟨raw, rfl, hraw⟩ := exists_of_mem_codeBlocks (List.mem_toArray.1 hmem)
      exact CodeBlock.isForeign_render hw fun hin => hdocument (hin.trans hraw)
    have hrewritten : ¬ w <:+: ((ofOptions o).rewritten t).1 := by
      rw [rewritten_eq]
      exact (Table.edited_reinsertion _ _).not_isInfix (ne_nil_of_mem_addressTokens hw)
        (fun _ _ hm => hm.1) (fun _ _ hm => hblocks _ hm.2)
        (not_infix_settled o t hraw himages hlinks w hw)
    rw [render_eq]
    exact Protected.not_infix_release _ hw hrewritten
  exact ⟨hrender _ (by simp [addressTokens]), hrender _ (by simp [addressTokens])⟩

/-- An image with a quote behind the marker in its address, a link with a marker, and one without any
whose address goes over two lines. -/
theorem no_address_token_leaks_of_references :
    ¬ Url.underscoreToken <:+: (ofOptions {}).render "![a_b](c_d's), [e](f*g), [h](i\nj)".toList ∧
      ¬ Url.asteriskToken <:+: (ofOptions {}).render "![a_b](c_d's), [e](f*g), [h](i\nj)".toList := by
  have hextracted : (extracted {} "![a_b](c_d's), [e](f*g), [h](i\nj)".toList).1 =
      "\n![a_b](c_d's), [e](f*g), [h](i\nj)\n".toList := by decide +kernel
  have himages : Pattern.image.matches (beforeImages {} "![a_b](c_d's), [e](f*g), [h](i\nj)".toList) =
      [(1, ⟨"![a_b](c_d's)".toList, [some "a_b".toList, some "c_d's".toList]⟩)] := by decide +kernel
  have hlinks : Pattern.link.matches (beforeLinks {} "![a_b](c_d's), [e](f*g), [h](i\nj)".toList) =
      [(36, ⟨"[e](f*g)".toList, [some ['e'], some "f*g".toList]⟩),
        (46, ⟨"[h](i\nj)".toList, [some ['h'], some "i\nj".toList]⟩)] := by decide +kernel
  have hplain {u : Text} (hu : u.all fun c => c ≠ '_' && c ≠ '*') : IsPlain u := by
    intro c hc hm
    have hmarker := List.all_eq_true.1 hu c hm
    rcases List.mem_pair.1 hc with rfl | rfl <;> simp at hmarker
  refine no_address_token_leaks {} _ (fun h => absurd h (by decide)) ?_ ?_ ?_
  · rw [hextracted]
    exact Confined.of_isFree (isFree_confinedWords_of_all rfl)
  · rw [himages]
    have haddress : IsImageAddress {} "c_d".toList := by
      refine ⟨fun c hc => ?_, isSeamless_of_notMem (by decide)⟩
      rcases List.mem_pair.1 hc with rfl | rfl <;> decide
    have huncut : IsUncut "c_d".toList [] := by
      refine ⟨fun c hc => ?_, by decide⟩
      rcases List.mem_pair.1 hc with rfl | rfl <;> decide
    have hwhole : IsWholeImage {} "a_b".toList "c_d's".toList :=
      ⟨by decide, "c_d".toList, [], "'s".toList, rfl, ⟨by decide, by decide, fun _ => haddress⟩, huncut,
        hplain rfl, .inr (by decide)⟩
    exact List.forall_mem_singleton.2 hwhole
  · rw [hlinks]
    have haddress : IsLinkAddress {} "f*g".toList :=
      ⟨by decide, by decide, isSeamless_of_notMem (by decide)⟩
    have hmarked : IsWholeLink {} "f*g".toList :=
      ⟨by decide, .inr ⟨_, [], rfl, haddress, by decide, hplain rfl, .inl rfl⟩⟩
    have hlines : IsWholeLink {} "i\nj".toList := ⟨by decide, .inl (hplain rfl)⟩
    exact List.forall_mem_cons.2 ⟨hmarked, List.forall_mem_singleton.2 hlines⟩

/-- A text with a token of addresses and all characters for private use. -/
def exhaustedAddress : Text :=
  Url.underscoreToken ++ Reserved.privateUse

theorem standIn?_exhaustedAddress : Reserved.standIn? exhaustedAddress = none := by
  simp only [Reserved.standIn?, List.find?_eq_none]
  intro c hc
  simp [exhaustedAddress, hc]

/-- The text marks nothing. -/
theorem isUnmarked_exhaustedAddress : IsUnmarked exhaustedAddress := by
  -- characters for private use neither mark anything nor are they blank
  have hmember {c : Char} (hc : c ∈ exhaustedAddress) :
      c ∈ Url.underscoreToken ∨ 0xE000 ≤ c.toNat :=
    (List.mem_append.1 hc).imp_right Protected.le_toNat_of_mem_privateUse
  have hmarks : markingChars.all fun c => !Url.underscoreToken.elem c && c.toNat < 0xE000 := rfl
  have hblank {c : Char} (hc : c ∈ exhaustedAddress) : Text.isBlank c = false := by
    rw [← Bool.not_eq_true]
    intro h
    simp only [Text.isBlank, Bool.or_eq_true, beq_iff_eq] at h
    rcases hmember hc with hc | hc <;> rcases h with (((rfl | rfl) | rfl) | rfl) | rfl <;>
      exact absurd hc (by decide)
  refine ⟨fun c hc hm => ?_, by simp [exhaustedAddress, Url.underscoreToken],
    Text.trim_eq_self (fun c hc => hblank (List.mem_of_mem_head? hc))
      fun c hc => hblank (List.mem_of_mem_getLast? hc), by simp [exhaustedAddress, Url.underscoreToken]⟩
  have hmark := List.all_eq_true.1 hmarks c hc
  simp only [Bool.and_eq_true, Bool.not_eq_true', List.elem_eq_mem, decide_eq_false_iff_not,
    decide_eq_true_eq] at hmark
  rcases hmember hm with hm | hm
  · exact hmark.1 hm
  · exact absurd hmark.2 (Nat.not_lt.2 hm)

/-- With all characters for private use in the text, its token of addresses cannot be hidden. -/
theorem not_forall_no_address_token_leaks :
    ¬ ∀ (o : Options) (t : Text), ¬ Url.underscoreToken <:+: (ofOptions o).render t ∧
      ¬ Url.asteriskToken <:+: (ofOptions o).render t := by
  intro h
  have hrender := render_of_isUnmarked {} isUnmarked_exhaustedAddress
    (Protected.ofText_of_standIn?_eq_none standIn?_exhaustedAddress)
  refine (h {} exhaustedAddress).1 ?_
  rw [hrender]
  exact ⟨"<p>".toList, Reserved.privateUse ++ "</p>".toList, by
    simp [Handler.element, exhaustedAddress]⟩

/-- The rule for addresses does not find a tag across two lines. -/
theorem underscoreToken_infix_render_of_lineFeed :
    Url.underscoreToken <:+: (ofOptions {}).render "[a](b_c\nd)".toList := by
  decide +kernel

end Renderer

end Markdown
