import Markdown.Proofs.Cuts
import Markdown.Proofs.Marks.Passes
import Markdown.Proofs.Reserved
import Markdown.Proofs.Stages
import Markdown.Proofs.Tokens
import Markdown.Proofs.Vault.NormalForm

/-!
# Reinsertion

The last rule puts a block in the place of every token whose number has one. If all tokens of a
document are placeholders of stored blocks, and no block has a token in it, no token is left and
nothing is reported (`Table.apply_reinsertion`).
-/

namespace Markdown

open Text

/-! ## Blocks -/

namespace CodeBlock

/-- In a code block marks take the place of marks. -/
theorem remarked_body (raw : Text) : Remarked isMark isMark raw (body raw) := by
  have hreplace : Remarked isMark isMark raw (raw.replace ['\n', '\n'] ['\n']) :=
    remarked_replace (by simp) (by decide) (by decide) raw
  have hescape (t : Text) : Remarked isMark isMark t (t.flatMap escape) := by
    refine remarked_flatMap (fun c => ?_) t
    rcases escape_cases c with h | ⟨h, -⟩
    · exact .inr ((by decide : ∀ e ∈ marks, isMark [e.1] ∧ isMark e.2) _ h)
    · exact .inl h
  rw [body_eq]
  refine .trans hreplace (.trans (remarked_trimWhere_self (fun c hc => ?_) _)
    (.trans (remarked_trimWhere_self (fun c hc => ?_) _) (hescape _)))
  · obtain rfl := of_decide_eq_true hc
    decide
  · exact List.all_eq_true.1 (by decide : [' ', '\t', '\r', '\x0c'].all isMarkChar) c (of_decide_eq_true hc)

/-- A durable word is as frequent in a code block as in the code. -/
theorem occurrences_render {w : Text} (hw : IsDurable w) (raw : Text) :
    IsClosed w (render raw) ∧ occurrences w (render raw) = occurrences w raw := by
  have hmarks : isMark "<pre><code>".toList ∧ isMark "</code></pre>".toList := by decide
  obtain ⟨hopen, hopen'⟩ := hw.of_isMark hmarks.1
  obtain ⟨hclose, hclose'⟩ := hw.of_isMark hmarks.2
  have hbody := ((remarked_body raw).mono (fun _ => isMarkOrToken_of_isMark)
    fun _ => isMarkOrToken_of_isMark).occurrences_eq hw
  unfold render
  refine ⟨hopen.enclose hclose _, ?_⟩
  rw [hclose.append_right, hopen.append_left, hopen', hclose', hbody, Nat.zero_add,
    Nat.add_zero]

end CodeBlock

/-- A stored block is the HTML of code in the document. -/
theorem exists_of_mem_codeBlocks {d block : Text}
    (h : block ∈ codeBlocks (Pattern.fencedCode.pieces d)) :
    ∃ raw, block = CodeBlock.render raw ∧ raw <:+: d := by
  have hpieces : ∀ taken groups, Piece.found taken groups ∈ Pattern.fencedCode.pieces d →
      Match.group ⟨taken, groups⟩ 1 <:+: d := by
    intro taken groups hm
    obtain ⟨g, rfl, rfl, hd⟩ := Pattern.of_found_mem_pieces_fencedCode hm
    have hg : Match.group ⟨Pattern.fence ++ g ++ Pattern.fence, [some g]⟩ 1 = g := rfl
    rw [hg]
    exact List.IsInfix.trans ⟨Pattern.fence, Pattern.fence, rfl⟩ hd
  generalize Pattern.fencedCode.pieces d = ps at h hpieces
  induction ps with
  | nil => simp [codeBlocks] at h
  | cons p ps ih =>
    have ih' (h : block ∈ codeBlocks ps) := ih h fun taken groups hm =>
      hpieces taken groups (by simp [hm])
    cases p with
    | kept c => exact ih' h
    | found taken groups =>
      rw [codeBlocks, List.mem_cons] at h
      rcases h with rfl | h
      · exact ⟨_, rfl, hpieces taken groups (by simp)⟩
      · exact ih' h

/-! ## Taking the tokens out -/

/-- If a word is found wherever it stands, and neither it nor its replacements can be part of an
occurrence across their ends, replacing the matches takes all occurrences out. -/
theorem Pattern.occurrences_rewriteFrom_eq_zero {w : Text} {p : Pattern} (hp : p.finder.IsProper)
    {ρ : Match → Text} {t : Text} (hkept : ∀ b r, w <+: r → p.finder (.of b r) ≠ none)
    (hfound : ∀ b s r v, s <:+: t → p.finder (.of b (s ++ r)) = some (s.length, v) →
      IsClosed w s ∧ IsClosed w (ρ ⟨s, v⟩) ∧ occurrences w (ρ ⟨s, v⟩) = 0) :
    occurrences w (p.rewriteFrom ρ none t) = 0 := by
  -- the occurrences that begin in `l` are the only ones
  have hbehind (b : Option Char) (t' : Text) (ht' : t' <:+ t) : ∀ l,
      occurrences w (l ++ p.rewriteFrom ρ b t') + occurrences w t' = occurrences w (l ++ t') := by
    revert ht'
    refine hp.induction (motive := fun b t' => t' <:+ t → ∀ l,
      occurrences w (l ++ p.rewriteFrom ρ b t') + occurrences w t' =
        occurrences w (l ++ t')) ?_ ?_ ?_ b t'
    · intro b _ l
      rw [rewriteFrom_nil hp, occurrences_nil, Nat.add_zero]
    · intro b c t' hf ih ht' l
      have hc : ¬ w <+: c :: t' := fun hw => hkept b _ hw hf
      have htail := ih ((List.suffix_cons c t').trans ht') (l ++ [c])
      rw [rewriteFrom_cons hp ρ hf, occurrences_cons_of_not hc, List.append_cons l,
        List.append_cons l c t']
      exact htail
    · intro b s t' v _ hf ih ht' l
      have hs : s <:+: t := (List.prefix_append s t').isInfix.trans ht'.isInfix
      obtain ⟨hclosed, hclosed', hzero⟩ := hfound b s t' v hs hf
      have htail := ih ((List.suffix_append s t').trans ht') []
      simp only [List.nil_append] at htail
      rw [rewriteFrom_append hp ρ hf, ← List.append_assoc, ← List.append_assoc, hclosed', hclosed,
        hclosed.append_left, hzero]
      omega
  have h := hbehind none t List.suffix_rfl []
  simp only [List.nil_append] at h
  omega

/-! ## The last rule -/

namespace Handler

theorem placeholderIndex?_of_isDigits {ds : Text} (h : IsDigits ds) :
    placeholderIndex? ds = if decimal ds < indexBound then some (decimal ds) else none := by
  obtain ⟨hne, hall⟩ := h
  have hdigits : ds.all Char.isDigit := List.all_eq_true.2 hall
  unfold placeholderIndex?
  split
  · rename_i digits
    exact absurd (hall '+' List.mem_cons_self) (by decide)
  · simp [index?, hne, hdigits]

theorem placeholderIndex?_ofNat {i : Nat} (h : i < indexBound) :
    placeholderIndex? (Text.ofNat i) = some i := by
  rw [placeholderIndex?_of_isDigits (isDigits_ofNat i), decimal_ofNat, if_pos h]

/-- The block with its number takes the place of a placeholder. -/
theorem reinsertCodeBlock_of_lt {cx : Context} {i : Nat} (hi : i < cx.vault.size)
    (hbound : i < indexBound) {m : Match}
    (hm : m.groups = [some (Text.ofNat i), none] ∨ m.groups = [none, some (Text.ofNat i)]) :
    reinsertCodeBlock m cx = (cx.vault.blocks[i], cx) := by
  have hdigits : ((m.group? 1).or (m.group? 2)).getD [] = Text.ofNat i := by
    rcases hm with hm | hm <;> simp [Match.group?, hm]
  have hblock : cx.vault.blocks[i]? = some cx.vault.blocks[i] := Array.getElem?_eq_getElem hi
  simp only [reinsertCodeBlock, hdigits, placeholderIndex?_ofNat hbound, Vault.reinsert, hblock]

end Handler

/-- A match of the last rule is a token, with its digits in one of the groups. -/
theorem of_found_mem_pieces_placeholder {d taken : Text} {groups : List (Option Text)}
    (h : Piece.found taken groups ∈ Pattern.placeholder.pieces d) :
    ∃ ds, IsDigits ds ∧ token ds <:+: d ∧
      (groups = [some ds, none] ∨ groups = [none, some ds]) := by
  rw [Pattern.pieces_eq_piecesFrom] at h
  obtain ⟨b, r, hr, hf⟩ := Pattern.isProper_placeholder.of_found_mem_piecesFrom h
  have htaken : taken <:+: d := (List.prefix_append taken r).isInfix.trans hr.isInfix
  obtain ⟨ds, hds, ⟨rfl, rfl⟩ | ⟨rfl, rfl⟩⟩ := Pattern.eq_of_finder_placeholder hf
  · exact ⟨ds, hds, List.IsInfix.trans ⟨"<p>".toList, "</p>".toList, rfl⟩ htaken, .inl rfl⟩
  · exact ⟨ds, hds, htaken, .inr rfl⟩

/-- If all tokens are placeholders of blocks, the last rule puts these in and reports nothing. -/
theorem Table.apply_reinsertion_of_forall {d : Text} {cx : Context}
    (hd : ∀ ds, IsDigits ds → token ds <:+: d →
      ∃ i < cx.vault.size, i < indexBound ∧ ds = Text.ofNat i) :
    (reinsertion.apply d cx).1 = Pattern.placeholder.rewriteFrom
      (fun m => (Handler.reinsertCodeBlock m cx).1) none d ∧
        (reinsertion.apply d cx).2.quiet = cx.quiet := by
  refine Rule.apply_eq_of_forall fun taken groups hm cx' hcx => ?_
  obtain ⟨ds, hds, hin, hgroups⟩ := of_found_mem_pieces_placeholder hm
  obtain ⟨i, hi, hbound, rfl⟩ := hd ds hds hin
  have hvault : cx'.vault = cx.vault := by
    rw [← Context.vault_quiet, hcx, Context.vault_quiet]
  have hi' : i < cx'.vault.size := by rwa [hvault]
  have hblock := Handler.reinsertCodeBlock_of_lt (m := ⟨taken, groups⟩) hi hbound hgroups
  have hblock' := Handler.reinsertCodeBlock_of_lt (m := ⟨taken, groups⟩) hi' hbound hgroups
  simp only [hvault] at hblock'
  rw [hblock]
  exact hblock'

/-- If all tokens are placeholders of blocks without tokens, no token is left, and nothing is
reported. -/
theorem Table.apply_reinsertion {d : Text} {cx : Context} (hsize : cx.vault.size ≤ indexBound)
    (hd : OnlyPlaceholders cx.vault.size d)
    (hblocks : ∀ block ∈ cx.vault.blocks, ∀ ds, IsDigits ds →
      IsClosed (token ds) block ∧ occurrences (token ds) block = 0) :
    (∀ ds, IsDigits ds → ¬ token ds <:+: (reinsertion.apply d cx).1) ∧
      (reinsertion.apply d cx).2.quiet = cx.quiet := by
  have htokens (ds : Text) (hds : IsDigits ds) (hin : token ds <:+: d) :
      ∃ i < cx.vault.size, i < indexBound ∧ ds = Text.ofNat i := by
    obtain ⟨i, hi, heq⟩ := hd ds hds hin
    exact ⟨i, hi, Nat.lt_of_lt_of_le hi hsize, token_inj heq⟩
  obtain ⟨htext, hquiet⟩ := apply_reinsertion_of_forall htokens
  refine ⟨fun ds hds => ?_, hquiet⟩
  rw [htext, ← occurrences_eq_zero_iff (isDurable_token hds).ne_nil]
  refine Pattern.occurrences_rewriteFrom_eq_zero Pattern.isProper_placeholder ?_ ?_
  · rintro b r ⟨r, rfl⟩
    exact Pattern.finder_placeholder_ne_none hds b r
  · intro b s r v hs hf
    obtain ⟨ds', hds', hcases⟩ := Pattern.eq_of_finder_placeholder hf
    have hdurable := isDurable_token hds
    have htoken := isClosed_token hds hds'
    have hmarks : isMark "<p>".toList ∧ isMark "</p>".toList := by decide
    have hclosed : IsClosed (token ds) s := by
      rcases hcases with ⟨rfl, -⟩ | ⟨rfl, -⟩
      · exact (hdurable.of_isMark hmarks.1).1.enclose (hdurable.of_isMark hmarks.2).1 _
      · exact htoken
    have hin : token ds' <:+: d := by
      rcases hcases with ⟨rfl, -⟩ | ⟨rfl, -⟩
      · exact List.IsInfix.trans ⟨"<p>".toList, "</p>".toList, rfl⟩ hs
      · exact hs
    have hgroups : v = [some ds', none] ∨ v = [none, some ds'] :=
      hcases.imp (fun h => h.2) fun h => h.2
    obtain ⟨i, hi, hbound, rfl⟩ := htokens ds' hds' hin
    rw [Handler.reinsertCodeBlock_of_lt hi hbound (m := ⟨s, v⟩) hgroups]
    exact ⟨hclosed, hblocks _ (Array.getElem_mem hi) ds hds⟩

/-! ## One token -/

/-- What takes the place of a token is the token itself or a block of the vault, and it depends on the
vault only. -/
theorem Handler.reinsertCodeBlock_cases (m : Match) (cx : Context) :
    (reinsertCodeBlock m cx).1 = m.text ∨ (reinsertCodeBlock m cx).1 ∈ cx.vault.blocks := by
  simp only [reinsertCodeBlock]
  split
  · exact .inl rfl
  · rename_i index _
    cases h : cx.vault.blocks[index]? with
    | none => simp [Vault.reinsert, h]
    | some block => simp [Vault.reinsert, h, Array.mem_of_getElem? h]

theorem Handler.reinsertCodeBlock_of_vault_eq {cx cx' : Context} (h : cx'.vault = cx.vault)
    (m : Match) : (reinsertCodeBlock m cx').1 = (reinsertCodeBlock m cx).1 ∧
      (reinsertCodeBlock m cx').2.vault = cx.vault := by
  simp only [reinsertCodeBlock, h]
  split
  · exact ⟨rfl, h⟩
  · split
    · exact ⟨rfl, h⟩
    · exact ⟨rfl, h⟩

/-! ## What is reported -/

namespace Handler

/-- The digits in a match of the last rule. -/
def digits (m : Match) : Text :=
  ((m.group? 1).or (m.group? 2)).getD []

/-- The number that a match of the last rule names. -/
def named? (m : Match) : Option Nat :=
  placeholderIndex? (digits m)

/-- That number, if no block has it. -/
def dangling? (size : Nat) (m : Match) : Option Nat :=
  (named? m).filter fun i => decide (size ≤ i)

theorem reinsertCodeBlock_of_named?_eq_none {m : Match} (h : named? m = none) (cx : Context) :
    reinsertCodeBlock m cx = (m.text, cx) := by
  unfold named? digits at h
  simp only [reinsertCodeBlock, h]

theorem reinsertCodeBlock_of_named?_lt {m : Match} {cx : Context} {i : Nat} (h : named? m = some i)
    (hi : i < cx.vault.size) : reinsertCodeBlock m cx = (cx.vault.blocks[i], cx) := by
  unfold named? digits at h
  have hblock : cx.vault.blocks[i]? = some cx.vault.blocks[i] := Array.getElem?_eq_getElem hi
  simp only [reinsertCodeBlock, h, Vault.reinsert, hblock]

theorem reinsertCodeBlock_of_named?_le {m : Match} {cx : Context} {i : Nat} (h : named? m = some i)
    (hi : cx.vault.size ≤ i) : reinsertCodeBlock m cx =
      (m.text, (cx.note (.unresolved i cx.vault.size)).warn (.danglingPlaceholder i)) := by
  unfold named? digits at h
  have hblock : cx.vault.blocks[i]? = none := Array.getElem?_eq_none hi
  simp only [reinsertCodeBlock, h, Vault.reinsert, hblock]

theorem warnings_reinsertCodeBlock (m : Match) (cx : Context) :
    (reinsertCodeBlock m cx).2.warnings.toList = cx.warnings.toList ++
      (dangling? cx.vault.size m).toList.map Warning.danglingPlaceholder := by
  cases h : named? m with
  | none => simp [reinsertCodeBlock_of_named?_eq_none h, dangling?, h]
  | some i =>
    by_cases hi : i < cx.vault.size
    · simp [reinsertCodeBlock_of_named?_lt h hi, dangling?, h, hi]
    · have hle : cx.vault.size ≤ i := Nat.le_of_not_lt hi
      have hdangling : dangling? cx.vault.size m = some i := by
        rw [dangling?, h, Option.filter_some, if_pos (decide_eq_true hle)]
      simp [reinsertCodeBlock_of_named?_le h hle, hdangling, Context.warn, Context.note]

end Handler

/-- The numbers without a block that the tokens of a document name. -/
def Table.danglingIndices (size : Nat) (d : Text) : List Nat :=
  (Pattern.placeholder.pieces d).filterMap fun
    | .kept _ => none
    | .found taken groups => Handler.dangling? size ⟨taken, groups⟩

theorem Table.danglingIndices_eq_filterMap (size : Nat) (d : Text) : danglingIndices size d =
    (Pattern.placeholder.matches d).filterMap fun m => Handler.dangling? size m.2 :=
  filterMap_eq_filterMap_matchesFrom 0 (Pattern.placeholder.pieces d) _

/-! ## Token by token -/

/-- What takes the place of the tokens depends on the vault at the beginning only, which stays, and the
numbers without a block are reported one after another. -/
theorem Table.replacements_reinsertion {cx cx' : Context} (h : cx'.vault = cx.vault)
    (ms : List (Nat × Match)) :
    (reinsertion.action.replacer.replacements ms cx').1 =
        ms.map (fun m => (Handler.reinsertCodeBlock m.2 cx).1) ∧
      (reinsertion.action.replacer.replacements ms cx').2.vault = cx.vault ∧
      (reinsertion.action.replacer.replacements ms cx').2.warnings.toList = cx'.warnings.toList ++
        (ms.filterMap fun m => Handler.dangling? cx.vault.size m.2).map Warning.danglingPlaceholder := by
  induction ms generalizing cx' with
  | nil => simp [Replacer.replacements, h]
  | cons m ms ih =>
    have hreplace : reinsertion.action.replacer m cx' = Handler.reinsertCodeBlock m.2 cx' := rfl
    obtain ⟨htext, hvault⟩ := Handler.reinsertCodeBlock_of_vault_eq h m.2
    obtain ⟨htexts, hvaults, hwarnings⟩ := ih hvault
    rw [Replacer.replacements, hreplace]
    refine ⟨?_, hvaults, ?_⟩
    · simp only [htexts, htext, List.map_cons]
    · simp only [hwarnings, Handler.warnings_reinsertCodeBlock, h, List.append_assoc]
      cases hdangling : Handler.dangling? cx.vault.size m.2 <;> simp [hdangling]

/-- The last rule replaces each token by what the vault at the beginning has for it. -/
theorem Table.text_apply_reinsertion (d : Text) (cx : Context) :
    (reinsertion.apply d cx).1 = Pattern.placeholder.rewriteFrom
      (fun m => (Handler.reinsertCodeBlock m cx).1) none d := by
  rw [Rule.apply_eq_interleave, (replacements_reinsertion (Context.vault_announce ..) _).1,
    Pattern.rewriteFrom, ← Pattern.pieces_eq_piecesFrom, flatMap_image_eq_interleave 0]
  rfl

/-- Without blocks, the last rule leaves the document as it is. -/
theorem Table.text_apply_reinsertion_of_empty {d : Text} {cx : Context} (h : cx.vault = .empty) :
    (reinsertion.apply d cx).1 = d := by
  have hself (m : Match) : (Handler.reinsertCodeBlock m cx).1 = m.text := by
    refine (Handler.reinsertCodeBlock_cases m cx).resolve_right ?_
    rw [h]
    simp [Vault.empty]
  have hpieces : Piece.image (fun m => (Handler.reinsertCodeBlock m cx).1) = Piece.source := by
    funext p
    cases p with
    | kept c => rfl
    | found taken groups => exact hself _
  rw [text_apply_reinsertion, Pattern.rewriteFrom, ← Pattern.pieces_eq_piecesFrom, hpieces,
    Pattern.flatMap_source_pieces]

/-- The last rule leaves the vault as it is and reports the numbers without a block. -/
theorem Table.warnings_apply_reinsertion (d : Text) (cx : Context) :
    (reinsertion.apply d cx).2.vault = cx.vault ∧
      (reinsertion.apply d cx).2.warnings.toList = cx.warnings.toList ++
        (danglingIndices cx.vault.size d).map Warning.danglingPlaceholder := by
  obtain ⟨-, hvault, hwarnings⟩ := replacements_reinsertion
    (Context.vault_announce Pattern.placeholder (Pattern.placeholder.matches d) cx)
    (Pattern.placeholder.matches d)
  rw [Context.warnings_announce] at hwarnings
  rw [Rule.apply_eq_interleave, danglingIndices_eq_filterMap]
  exact ⟨hvault, hwarnings⟩

namespace Renderer

/-- A document in which no fence stands goes through the passes as it is, and no placeholder is
looked up. -/
theorem render_of_not_fence (o : Options) {t : Text}
    (h : ¬ Pattern.fence <:+: (Protected.ofText t).document) :
    (ofOptions o).render t =
      (Protected.ofText t).release
        (trim ((Table.between o).pass o (Protected.ofText t).document)) := by
  have hnone : (fencedPieces t).countP Piece.isFound = 0 := by
    rw [List.countP_eq_zero]
    rintro (c | ⟨taken, groups⟩) hm
    · simp [Piece.isFound]
    · obtain ⟨g, rfl, -, hin⟩ := Pattern.of_found_mem_pieces_fencedCode hm
      rw [List.append_assoc] at hin
      exact absurd ((List.prefix_append Pattern.fence _).isInfix.trans hin) h
  have hextracted : (extracted o t).1 = (Protected.ofText t).document := by
    rw [text_extracted, withPlaceholders_of_countP_eq_zero hnone, fencedPieces,
      Pattern.flatMap_source_pieces]
  have hvault : (settled o t).2.vault = .empty := by
    have hblocks : codeBlocks (fencedPieces t) = [] := by
      rw [← List.length_eq_zero_iff, length_codeBlocks, hnone]
    rw [vault_settled, vault_extracted, hblocks]
    rfl
  rw [render_eq, rewritten_eq, Table.text_apply_reinsertion_of_empty hvault, (settled_eq o t).1,
    hextracted]

/-- Without fences and opening braces, a text is set by the passes between the first rule and the
last one. -/
theorem render_of_notMem (o : Options) {t : Text} (hbrace : '\x7b' ∉ t)
    (hfence : ¬ Pattern.fence <:+: t) :
    (ofOptions o).render t = trim ((Table.between o).pass o ('\n' :: t ++ ['\n'])) := by
  have hoccurs : Reserved.occursIn t = false := by
    rw [← Bool.not_eq_true, Reserved.occursIn, List.any_eq_true]
    rintro ⟨w, hw, hin⟩
    have hhead : '\x7b' ∈ w := by
      simp only [Reserved.tokens, List.mem_cons, List.not_mem_nil, or_false] at hw
      rcases hw with rfl | rfl | rfl <;> decide
    exact hbrace ((Text.includes_iff.1 hin).subset hhead)
  have hprotected := Protected.ofText_of_not_occursIn hoccurs
  have hdocument : ¬ Pattern.fence <:+: (Protected.ofText t).document := by
    rw [← Text.occurrences_eq_zero_iff (by decide),
      Protected.occurrences_document (by decide) (by decide), hprotected,
      Text.occurrences_eq_zero_iff (by decide)]
    exact hfence
  rw [render_of_not_fence o hdocument, hprotected]
  rfl

end Renderer

end Markdown
