import Markdown.Proofs.Merging
import Markdown.Proofs.Reinsertion

/-!
# No token leaks

The last rule finds a block for every token, so that the HTML has none, no placeholder is reported,
and rendering with errors answers what rendering without them does
(`Renderer.no_token_leaks`). Two things have to be excluded. If every character for private use
stands in the text, its reserved tokens cannot be hidden. And merging may join what stands around the
end of a list and the beginning of the next one to a token (`Renderer.MergingForges`); with hidden
braces it does not.
-/

namespace Markdown

open Text

/-! ## The number of blocks -/

theorem length_le_byteSize (t : Text) : t.length ≤ byteSize t := by
  induction t with
  | nil => exact Nat.le_refl _
  | cons c t ih =>
    have := c.utf8Size_pos
    rw [byteSize_cons, List.length_cons]
    omega

/-- Matches of some length do not exceed the text. -/
theorem mul_countP_isFound_le {ps : List (Piece Char (List (Option Text)))} {n : Nat}
    (h : ∀ taken groups, Piece.found taken groups ∈ ps → n ≤ taken.length) :
    n * ps.countP Piece.isFound ≤ (ps.flatMap Piece.source).length := by
  induction ps with
  | nil => simp
  | cons p ps ih =>
    have htail := ih fun taken groups hm => h taken groups (by simp [hm])
    rw [List.flatMap_cons, List.length_append]
    cases p with
    | kept c =>
      rw [List.countP_cons_of_neg (by simp [Piece.isFound])]
      omega
    | found taken groups =>
      have hlen := h taken groups (by simp)
      rw [List.countP_cons_of_pos rfl, Nat.mul_succ, Piece.source]
      omega

namespace Renderer

variable (o : Options) (t : Text)

/-- The blocks of a text can be numbered. -/
theorem size_vault_extracted_le (h : byteSize t < indexBound) :
    (extracted o t).2.vault.size ≤ indexBound := by
  have hpieces : ∀ taken groups, Piece.found taken groups ∈ fencedPieces t → 6 ≤ taken.length := by
    intro taken groups hm
    obtain ⟨g, rfl, -, -⟩ := Pattern.of_found_mem_pieces_fencedCode hm
    simp [Pattern.fence]
  have hcount := mul_countP_isFound_le hpieces
  rw [fencedPieces, Pattern.flatMap_source_pieces, ← fencedPieces] at hcount
  have hdocument : (Protected.ofText t).document.length = t.length + 2 := by
    have htext : (Protected.ofText t).text.length = t.length := by
      unfold Protected.ofText
      split
      · split <;> simp
      · rfl
    simp [Protected.document, htext]
  have hlen := length_le_byteSize t
  rw [size_vault_extracted]
  omega

/-! ## The result -/

/-- Trimming takes blanks from the ends, and references take the place of characters. -/
theorem remarked_release (p : Protected) (out : Text) :
    Remarked (fun _ => true) isMark out (p.release (trim out)) := by
  have htrim : Remarked (fun _ => true) isMark out (trim out) :=
    (remarked_trim_self out).mono (fun _ _ => rfl) fun _ => id
  refine htrim.trans ?_
  unfold Protected.release
  split
  · refine remarked_flatMap (fun c => ?_) _
    split
    · exact .inr ⟨rfl, by decide⟩
    · exact .inl rfl
  · exact .refl _

/-- Trimming and writing references for hidden braces makes no token. -/
theorem not_token_infix_release {ds out : Text} (hds : IsDigits ds) (h : ¬ token ds <:+: out)
    (p : Protected) : ¬ token ds <:+: p.release (trim out) := by
  have hdurable := isDurable_token hds
  have hle := (remarked_release p out).occurrences_le fun _ => hdurable.of_isMark
  rw [← occurrences_eq_zero_iff hdurable.ne_nil] at h ⊢
  omega

/-- If reserved tokens can be hidden and merging makes none, the HTML has no token and no placeholder
is reported. -/
theorem no_token_leaks (hsize : byteSize t < indexBound)
    (hreserved : Reserved.occursIn t = true → (Reserved.standIn? t).isSome)
    (hmerging : o.mergeAdjacentBlocks = true → Reserved.occursIn t = false →
      ¬ MergingForges o t) :
    (∀ ds, IsDigits ds → ¬ token ds <:+: (ofOptions o).render t) ∧
      (∀ i, Warning.danglingPlaceholder i ∉ (ofOptions o).warnings t) ∧
      (ofOptions o).tryRender t = .ok ((ofOptions o).render t) := by
  have hprotected : Reserved.occursIn t = false ∨ (Protected.ofText t).standIn.isSome := by
    by_cases hoccurs : Reserved.occursIn t = true
    · obtain ⟨c, hc⟩ := Option.isSome_iff_exists.1 (hreserved hoccurs)
      rw [Protected.ofText_of_standIn hoccurs hc]
      exact .inr rfl
    · exact .inl (by simpa using hoccurs)
  have hforges : o.mergeAdjacentBlocks = true → ¬ MergingForges o t := by
    intro ho
    rcases hprotected with h | h
    · exact hmerging ho h
    · exact not_mergingForges o t h
  have hblocks : ∀ block ∈ (settled o t).2.vault.blocks, ∀ ds, IsDigits ds →
      IsClosed (token ds) block ∧ occurrences (token ds) block = 0 := by
    intro block hmem ds hds
    rw [vault_settled, vault_extracted] at hmem
    obtain ⟨raw, rfl, hraw⟩ := exists_of_mem_codeBlocks (List.mem_toArray.1 hmem)
    obtain ⟨hclosed, hcount⟩ := CodeBlock.occurrences_render (isDurable_token hds) raw
    refine ⟨hclosed, hcount.trans ?_⟩
    rw [occurrences_eq_zero_iff (isDurable_token hds).ne_nil]
    intro hin
    refine Protected.not_braces_infix_document hprotected (List.IsInfix.trans ?_ (hin.trans hraw))
    exact ⟨[], ds ++ "\x7d\x7d\x7d".toList, by simp [token]⟩
  have honly := onlyPlaceholders_settled o t hprotected hforges
  have hbound := size_vault_extracted_le o t hsize
  rw [← vault_settled] at honly hbound
  obtain ⟨htokens, hquiet⟩ := Table.apply_reinsertion hbound honly hblocks
  rw [← rewritten_eq] at htokens hquiet
  have hwarnings : (ofOptions o).warnings t =
      ((unclosedFence? t).map Warning.unclosedCodeFence).toList := by
    rw [warnings_eq, ← Context.warnings_quiet, hquiet, (settled_eq o t).2,
      Context.warnings_quiet, warnings_extracted]
  have hdangling : ∀ w ∈ (ofOptions o).warnings t, w.danglingIndex? = none := by
    intro w hw
    rw [hwarnings] at hw
    obtain ⟨location, -, rfl⟩ := Option.map_eq_some_iff.1 (Option.mem_toList.1 hw)
    rfl
  refine ⟨fun ds hds => ?_, fun i hi => ?_, ?_⟩
  · rw [render_eq]
    exact not_token_infix_release hds (htokens ds hds) _
  · exact absurd (hdangling _ hi) (by simp [Warning.danglingIndex?])
  · exact tryRender_of_firstDangling?_eq_none t (List.findSome?_eq_none_iff.2 hdangling)

/-- A token of the text is hidden, and the code in it comes back. -/
theorem no_token_leaks_of_forged_token :
    (∀ ds, IsDigits ds → ¬ token ds <:+: (ofOptions {}).render "\x7b\x7b\x7b0\x7d\x7d\x7d ```x```".toList) ∧
      (∀ i, .danglingPlaceholder i ∉
        (ofOptions {}).warnings "\x7b\x7b\x7b0\x7d\x7d\x7d ```x```".toList) ∧
      (ofOptions {}).tryRender "\x7b\x7b\x7b0\x7d\x7d\x7d ```x```".toList =
        .ok ((ofOptions {}).render "\x7b\x7b\x7b0\x7d\x7d\x7d ```x```".toList) :=
  no_token_leaks {} _ (by decide) (fun _ => by decide +kernel)
    fun _ h => absurd h (by decide +kernel)

/-! ## What has to be excluded -/

/-- A token of a text without fences stays, if reserved tokens cannot be hidden. -/
theorem token_infix_render {t : Text} (hstandIn : Reserved.standIn? t = none) (hfence : '`' ∉ t)
    {ds : Text} (hds : IsDigits ds) (h : token ds <:+: t) :
    token ds <:+: (ofOptions o).render t := by
  have hdurable := isDurable_token hds
  have hprotected := Protected.ofText_of_standIn?_eq_none hstandIn
  have hdocument : ¬ Pattern.fence <:+: (Protected.ofText t).document := by
    intro hin
    have hmem := hin.subset (show '`' ∈ Pattern.fence by decide)
    simp [hprotected, Protected.document, hfence] at hmem
  have hlf : '\n' ∉ token ds := hdurable.notMem_of_isMarkChar (by decide)
  have hpos : 0 < occurrences (token ds)
      ((Table.between o).pass o (Protected.ofText t).document) := by
    have hle := Table.occurrences_le_between hdurable o (Protected.ofText t).document
    rw [Protected.occurrences_document hlf hdurable.ne_nil, hprotected] at hle
    rw [hprotected]
    exact Nat.lt_of_lt_of_le ((occurrences_pos_iff hdurable.ne_nil).2 h) hle
  have htrim : Remarked isMark isMark _ _ :=
    remarked_trim_self ((Table.between o).pass o (Protected.ofText t).document)
  have hcount := (htrim.mono (fun _ => isMarkOrToken_of_isMark)
    fun _ => isMarkOrToken_of_isMark).occurrences_eq hdurable
  rw [render_of_not_fence o hdocument, ← occurrences_pos_iff hdurable.ne_nil]
  rw [hprotected] at hcount hpos ⊢
  exact hcount ▸ hpos

/-- A text with a token and all characters for private use. -/
def exhaustedText : Text :=
  token ['5'] ++ Reserved.privateUse

/-- With all characters for private use in the text, its token cannot be hidden. -/
theorem not_forall_no_token_leaks :
    ¬ ∀ (o : Options) (t : Text),
      (∀ ds, IsDigits ds → ¬ token ds <:+: (ofOptions o).render t) ∧
        (∀ i, .danglingPlaceholder i ∉ (ofOptions o).warnings t) ∧
        (ofOptions o).tryRender t = .ok ((ofOptions o).render t) := by
  intro h
  have hdigits : IsDigits ['5'] := ⟨by simp, List.all_eq_true.1 rfl⟩
  have hstandIn : Reserved.standIn? exhaustedText = none := by
    simp only [Reserved.standIn?, List.find?_eq_none]
    intro c hc
    simp [exhaustedText, hc]
  have hfence : '`' ∉ exhaustedText := by
    intro hm
    rcases List.mem_append.1 hm with hm | hm
    · exact absurd hm (by decide)
    · exact absurd (Protected.le_toNat_of_mem_privateUse hm) (by decide)
  exact (h {} exhaustedText).1 ['5'] hdigits
    (token_infix_render {} hstandIn hfence hdigits (List.prefix_append ..).isInfix)

/-- Merging can make a token of braces that stand around the tags of two lists. -/
theorem mergingForges_of_braces :
    MergingForges {} "\x7b\x7b</ul><ul>\x7b5\x7d\x7d\x7d".toList ∧
      (ofOptions {}).render "\x7b\x7b</ul><ul>\x7b5\x7d\x7d\x7d".toList =
        "<p>\x7b\x7b\x7b5\x7d\x7d\x7d</p>".toList ∧
      (ofOptions {}).warnings "\x7b\x7b</ul><ul>\x7b5\x7d\x7d\x7d".toList = [.danglingPlaceholder 5] := by
  refine ⟨⟨['5'], ⟨by simp, List.all_eq_true.1 rfl⟩, ?_, ?_⟩, by decide +kernel, by decide +kernel⟩
  · decide +kernel
  · decide +kernel

end Renderer

end Markdown
