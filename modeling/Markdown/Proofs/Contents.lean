import Markdown.Proofs.Conservation
import Markdown.Proofs.Fences.Extraction
import Markdown.Proofs.Frames
import Markdown.Proofs.Leakage

/-!
# Contents are kept

A character that is neither ASCII nor white space is part of no mark, so that every rule keeps each of
its occurrences. The first rule moves some of them into the vault, and the last one puts every block
back at least once. So no such character is lost, and none is doubled if each block is put back just
once (`Renderer.contents_kept`).
-/

namespace Markdown

open Pattern (fence)
open Text

/-! ## Lasting characters -/

/-- A character that is neither ASCII nor white space. -/
structure IsLasting (c : Char) : Prop where
  le_toNat : 128 ≤ c.toNat
  not_whiteSpace : Unicode.isWhiteSpace c = false

/-- Whether a text has ASCII characters only. -/
def Text.isAscii (t : Text) : Bool :=
  t.all fun c => decide (c.toNat < 128)

theorem Text.occurrences_singleton (c : Char) (t : Text) : occurrences [c] t = t.count c := by
  induction t with
  | nil => rfl
  | cons d t ih =>
    rw [occurrences, ih, List.count_cons, Nat.add_comm]
    by_cases h : d = c
    · simp [h]
    · have h' : ¬ c = d := fun heq => h heq.symm
      simp [h, h']

namespace IsLasting

variable {c : Char} (hc : IsLasting c) {s t t' : Text}

include hc

theorem ne_of_lt {d : Char} (hd : d.toNat < 128) : c ≠ d := by
  rintro rfl
  exact absurd hc.le_toNat (by omega)

theorem isMarkChar_eq : isMarkChar c = false := by
  have hle := hc.le_toNat
  simp only [isMarkChar, hc.not_whiteSpace, Bool.false_or]
  rw [decide_eq_false (by omega)]
  rfl

theorem notMem_of_isAscii (h : isAscii s) : c ∉ s :=
  fun hm => hc.ne_of_lt (of_decide_eq_true (List.all_eq_true.1 h c hm)) rfl

theorem isDurable : IsDurable [c] := by
  refine ⟨fun d hd => ?_, ⟨c, by simp, ?_⟩, ?_, ?_⟩
  · rw [List.mem_singleton.1 hd]
    exact hc.isMarkChar_eq
  · refine Bool.eq_false_iff.2 fun hdigit => ?_
    have hrange : 48 ≤ c.toNat ∧ c.toNat ≤ 57 := Char.isDigit_iff_toNat.1 hdigit
    have hle := hc.le_toNat
    omega
  · simpa using hc.ne_of_lt (by decide)
  · simpa using hc.ne_of_lt (by decide)

/-- Marks do not change the number of lasting characters. -/
theorem count_eq_of_remarked (h : Remarked isMarkOrToken isMarkOrToken t t') :
    t'.count c = t.count c := by
  rw [← occurrences_singleton, ← occurrences_singleton]
  exact h.occurrences_eq hc.isDurable

theorem count_trim (t : Text) : (trim t).count c = t.count c :=
  hc.count_eq_of_remarked ((remarked_trim_self t).mono (fun _ => isMarkOrToken_of_isMark)
    fun _ => isMarkOrToken_of_isMark)

theorem count_render (raw : Text) : (CodeBlock.render raw).count c = raw.count c := by
  rw [← occurrences_singleton, ← occurrences_singleton]
  exact (CodeBlock.occurrences_render hc.isDurable raw).2

theorem notMem_token {ds : Text} (hds : IsDigits ds) : c ∉ token ds := by
  intro hm
  simp only [token, List.mem_append] at hm
  rcases hm with (hm | hm) | hm
  · exact hc.ne_of_lt (by decide) (List.eq_of_mem_replicate (n := 3) hm)
  · have hrange : 48 ≤ c.toNat ∧ c.toNat ≤ 57 := Char.isDigit_iff_toNat.1 (hds.2 c hm)
    have hle := hc.le_toNat
    omega
  · exact hc.ne_of_lt (by decide) (List.eq_of_mem_replicate (n := 3) hm)

end IsLasting

/-! ## The passes -/

/-- Matches that keep the number of a character keep it in the text. -/
theorem Pattern.count_rewriteFrom {p : Pattern} (hp : p.finder.IsProper) {ρ : Match → Text} {c : Char}
    (h : ∀ b s r v, p.finder (.of b (s ++ r)) = some (s.length, v) →
      (ρ ⟨s, v⟩).count c = s.count c) (t : Text) :
    (p.rewriteFrom ρ none t).count c = t.count c := by
  refine hp.induction (motive := fun b t => (p.rewriteFrom ρ b t).count c = t.count c)
    ?_ ?_ ?_ none t
  · intro b
    rw [rewriteFrom_nil hp]
  · intro b d t hf ih
    rw [rewriteFrom_cons hp ρ hf, List.count_cons, List.count_cons, ih]
  · intro b s t v _ hf ih
    rw [rewriteFrom_append hp ρ hf, List.count_append, List.count_append, ih, h b s t v hf]

namespace IsLasting

variable {c : Char} (hc : IsLasting c)

include hc

theorem count_adjacent {closing opening new : Text} (hclosing : isAscii closing)
    (hopening : isAscii opening) (hnew : isAscii new) (hne : closing ≠ []) (t : Text) :
    ((Pattern.adjacent closing opening).rewriteFrom (fun _ => new) none t).count c = t.count c := by
  refine Pattern.count_rewriteFrom (Pattern.isProper_adjacent opening hne) (fun b s r v h => ?_) t
  obtain ⟨space, hspace, rfl, -⟩ := Pattern.eq_of_finder_adjacent h
  have hc' : c ∉ space := by
    rcases hspace with rfl | ⟨d, hd, rfl⟩
    · simp
    · rintro hm
      obtain rfl := List.mem_singleton.1 hm
      rw [hc.not_whiteSpace] at hd
      exact absurd hd (by simp)
  rw [List.count_eq_zero.2 (hc.notMem_of_isAscii hnew), eq_comm, List.count_eq_zero, Pattern.seam]
  simp [hc.notMem_of_isAscii hclosing, hc.notMem_of_isAscii hopening, hc']

/-- The rules between the first and the last one keep every lasting character. -/
theorem count_between (o : Options) (d : Text) : ((Table.between o).pass o d).count c = d.count c := by
  have hmerging (d : Text) : (Table.merging.pass o d).count c = d.count c := by
    rw [Table.pass_merging]
    exact (hc.count_adjacent rfl rfl rfl (by simp) _).trans
      ((hc.count_adjacent rfl rfl rfl (by simp) _).trans (hc.count_adjacent rfl rfl rfl (by simp) _))
  have hsetting := Table.occurrences_setting_wrapping hc.isDurable o d
  have hrevealing (d : Text) := Table.occurrences_revealing hc.isDurable o d
  simp only [occurrences_singleton] at hsetting hrevealing
  rw [Table.between, Table.pass_append, Table.pass_append, hrevealing]
  split
  · rw [hmerging, hsetting]
  · rw [Table.pass_nil, hsetting]

end IsLasting

/-! ## The vault -/

/-- The code in a text goes into the vault, and the other characters stay. -/
theorem IsLasting.count_weave {c : Char} (hc : IsLasting c) (n : Nat) (t : Text) :
    (weave n (gaps t)).count c + ((codes (gaps t)).map (List.count c)).sum = t.count c := by
  have hfence : fence.count c = 0 := List.count_eq_zero.2 (hc.notMem_of_isAscii rfl)
  induction t using fences_induction generalizing n with
  | none t h =>
    rw [gaps_eq_singleton h]
    rfl
  | single g r hg hr =>
    rw [gaps_append hg, gaps_eq_singleton hr]
    rfl
  | pair g code r hg hcode ih =>
    have hplaceholder : (placeholder n).count c = 0 :=
      List.count_eq_zero.2 (hc.notMem_token (isDigits_ofNat n))
    have htail := ih (n + 1)
    rw [gaps_append hg, gaps_append hcode, weave_pair, codes_pair, List.map_cons, List.sum_cons]
    simp only [List.count_append, hfence, hplaceholder]
    omega

/-- A token has no lasting character, so that all of them are characters of the frame. -/
theorem IsLasting.count_chars_frame {c : Char} (hc : IsLasting c) (size : Nat) (d : Text) :
    (Table.frame size d).chars.count c = d.count c := by
  have hpieces : ∀ taken groups, .found taken groups ∈ Pattern.placeholder.pieces d →
      taken.count c = 0 := by
    intro taken groups hm
    rw [Pattern.pieces_eq_piecesFrom] at hm
    obtain ⟨b, r, -, hf⟩ := Pattern.isProper_placeholder.of_found_mem_piecesFrom hm
    obtain ⟨ds, hds, ⟨rfl, -⟩ | ⟨rfl, -⟩⟩ := Pattern.eq_of_finder_placeholder hf
    · have hwrapped : Pattern.wrappedToken ds = "<p>".toList ++ token ds ++ "</p>".toList := rfl
      rw [List.count_eq_zero, hwrapped]
      have hopen : c ∉ "<p>".toList := hc.notMem_of_isAscii rfl
      have hclose : c ∉ "</p>".toList := hc.notMem_of_isAscii rfl
      simp only [List.mem_append, hopen, hclose, hc.notMem_token hds, or_self, not_false_eq_true]
    · exact List.count_eq_zero.2 (hc.notMem_token hds)
  have hsource := Pattern.flatMap_source_pieces Pattern.placeholder d
  rw [Table.frame]
  conv_rhs => rw [← hsource]
  generalize Pattern.placeholder.pieces d = ps at hpieces
  clear hsource
  induction ps with
  | nil => rfl
  | cons p ps ih =>
    have ih := ih fun taken groups hm => hpieces taken groups (by simp [hm])
    rw [List.flatMap_cons, List.flatMap_cons, Frame.chars_append, List.count_append,
      List.count_append, ih]
    cases p with
    | kept d => rfl
    | found taken groups =>
      congr 1
      rcases Handler.framed_cases size ⟨taken, groups⟩ with hframed | ⟨i, -, -, hframed⟩
      · simp only [hframed, Frame.chars_map_inl]
        rfl
      · simp only [hframed]
        rw [Piece.source, hpieces taken groups (by simp)]
        rfl

namespace Renderer

variable (o : Options) (t : Text)

/-- The code in the vault, as the first rule finds it. -/
def storedCode : List Text :=
  (codes (gaps t)).map (List.map (Protected.ofText t).hide)

theorem blocks_settled :
    (settled o t).2.vault.blocks.toList = (storedCode t).map CodeBlock.render := by
  rw [vault_settled, vault_extracted, fencedPieces, codeBlocks_pieces, document_eq,
    (gaps_lineFeed _).2, codes_gaps_map (hide_eq_backtick_iff t)]
  rfl

theorem size_vault_settled : (settled o t).2.vault.size = (storedCode t).length := by
  rw [Vault.size, ← Array.length_toList, blocks_settled, List.length_map]

/-- The page is the frame of the document that the last rule gets. -/
theorem rewritten_eq_fill : ((ofOptions o).rewritten t).1 =
    (Table.frame (storedCode t).length (settled o t).1).fill
      ((storedCode t).map CodeBlock.render) := by
  rw [rewritten_eq, Table.text_apply_reinsertion_eq_fill, size_vault_settled, blocks_settled]

variable {c : Char} (hc : IsLasting c)

include hc

/-- Until the last rule, a lasting character stands in the document or in the code of the vault. -/
theorem count_settled : (settled o t).1.count c + ((storedCode t).map (List.count c)).sum =
    (t.map (Protected.ofText t).hide).count c := by
  have hlf : c ≠ '\n' := hc.ne_of_lt (by decide)
  have hweave := hc.count_weave 0 (t.map (Protected.ofText t).hide ++ ['\n'])
  rw [codes_gaps_map (hide_eq_backtick_iff t), List.count_append, List.count_singleton] at hweave
  rw [(settled_eq o t).1, hc.count_between, text_extracted_eq_weave,
    List.count_cons_of_ne hlf.symm, storedCode, hweave]
  simp [hlf.symm]

/-- The last rule puts a number of blocks in, and nothing else with a lasting character. -/
theorem count_rewritten : ((ofOptions o).rewritten t).1.count c =
    (settled o t).1.count c +
      ((Table.frame (storedCode t).length (settled o t).1).indices.map fun i =>
        ((storedCode t).getD i []).count c).sum := by
  have hblock (i : Nat) : (((storedCode t).map CodeBlock.render).getD i []).count c =
      ((storedCode t).getD i []).count c := by
    rw [List.getD_eq_getElem?_getD, List.getD_eq_getElem?_getD, List.getElem?_map]
    cases (storedCode t)[i]? with
    | none => rfl
    | some raw => exact hc.count_render raw
  rw [rewritten_eq_fill, Frame.count_fill, hc.count_chars_frame]
  simp only [hblock]

omit hc

/-- What stands in the vault, block by block. -/
theorem sum_range_storedCode (f : Text → Nat) :
    ((List.range (storedCode t).length).map fun i => f ((storedCode t).getD i [])).sum =
      ((storedCode t).map f).sum := by
  congr 1
  refine List.ext_getElem (by simp) fun i hi _ => ?_
  have hlt : i < (storedCode t).length := by simpa using hi
  simp [hlt]

theorem size_storedCode_le (hsize : byteSize t < indexBound) :
    (storedCode t).length ≤ indexBound := by
  rw [← size_vault_settled ({} : Options), vault_settled]
  exact size_vault_extracted_le {} t hsize

/-- Every block is put back. -/
theorem range_subset_indices (hsize : byteSize t < indexBound) :
    List.range (storedCode t).length ⊆
      (Table.frame (storedCode t).length (settled o t).1).indices := by
  intro i hi
  have hlt := List.mem_range.1 hi
  refine Table.mem_indices_frame hlt (Nat.lt_of_lt_of_le hlt (size_storedCode_le t hsize)) ?_
  have hdurable : IsDurable (placeholder i) := isDurable_token (isDigits_ofNat i)
  rw [← size_vault_settled o, vault_settled, size_vault_extracted] at hlt
  have hin := placeholder_infix_withPlaceholders 0 hlt
  rw [Nat.zero_add, ← text_extracted o] at hin
  rw [← occurrences_pos_iff hdurable.ne_nil] at hin ⊢
  rw [(settled_eq o t).1]
  exact Nat.lt_of_lt_of_le hin (Table.occurrences_le_between hdurable o _)

/-- The tokens that the last rule gets are the placeholders that the first one has written. -/
def IsIntact : Prop :=
  ∀ ds, IsDigits ds → occurrences (token ds) (settled o t).1 =
    (List.range (storedCode t).length).countP fun i => token ds = placeholder i

variable {o t}

theorem IsIntact.onlyPlaceholders (h : IsIntact o t) :
    OnlyPlaceholders (storedCode t).length (settled o t).1 := by
  intro ds hds hin
  have hpos := (occurrences_pos_iff (isDurable_token hds).ne_nil).2 hin
  rw [h ds hds, List.countP_pos_iff] at hpos
  obtain ⟨i, hi, heq⟩ := hpos
  exact ⟨i, List.mem_range.1 hi, of_decide_eq_true heq⟩

/-- Then every block is put back once. -/
theorem IsIntact.count_indices (h : IsIntact o t) (hsize : byteSize t < indexBound) (i : Nat) :
    (Table.frame (storedCode t).length (settled o t).1).indices.count i =
      if i < (storedCode t).length then 1 else 0 := by
  rw [(Table.of_onlyPlaceholders (size_storedCode_le t hsize) h.onlyPlaceholders).1]
  split
  · rename_i hi
    rw [placeholder_eq_token, h _ (isDigits_ofNat i)]
    exact countP_placeholder hi
  · rfl

theorem IsIntact.indices_perm (h : IsIntact o t) (hsize : byteSize t < indexBound) :
    (Table.frame (storedCode t).length (settled o t).1).indices.Perm
      (List.range (storedCode t).length) := by
  rw [List.perm_iff_count]
  intro i
  rw [h.count_indices hsize, List.nodup_range.count]
  simp only [List.mem_range]

/-- Without merging, and without reserved tokens in the text, nothing happens to the placeholders. -/
theorem isIntact_of_not_occursIn (ho : o.mergeAdjacentBlocks = false)
    (ht : Reserved.occursIn t = false) : IsIntact o t := by
  intro ds hds
  rw [(settled_eq o t).1, Table.occurrences_between (isDurable_token hds) o _ ho,
    occurrences_extracted o t hds (.inl ht), ← size_vault_settled o, vault_settled]

variable (o t)

include hc

theorem le_count_rewritten (hsize : byteSize t < indexBound) :
    (t.map (Protected.ofText t).hide).count c ≤ ((ofOptions o).rewritten t).1.count c := by
  obtain ⟨l, hperm, hsub⟩ := List.subperm_of_subset List.nodup_range (range_subset_indices o t hsize)
  have hle := (hsub.map fun i => ((storedCode t).getD i []).count c).sum_le_sum fun _ _ => Nat.zero_le _
  have heq := (hperm.map fun i => ((storedCode t).getD i []).count c).sum_nat
  have hrange := sum_range_storedCode t (List.count c)
  rw [← count_settled o t hc, count_rewritten o t hc]
  omega

theorem count_rewritten_of_isIntact (h : IsIntact o t) (hsize : byteSize t < indexBound) :
    ((ofOptions o).rewritten t).1.count c = (t.map (Protected.ofText t).hide).count c := by
  have heq := ((h.indices_perm hsize).map fun i => ((storedCode t).getD i []).count c).sum_nat
  have hrange := sum_range_storedCode t (List.count c)
  rw [← count_settled o t hc, count_rewritten o t hc]
  omega

omit hc

/-! ## The result -/

/-- A lasting character that does not stand in for the brace is hidden from no rule. -/
theorem count_map_hide (hc : IsLasting c) (hstand : (Protected.ofText t).standIn ≠ some c) :
    (t.map (Protected.ofText t).hide).count c = t.count c := by
  have hhide (d : Char) : (Protected.ofText t).hide d = c ↔ d = c := by
    have hbrace : c ≠ '\x7b' := hc.ne_of_lt (by decide)
    unfold Protected.hide
    split
    · rename_i s hs
      have hs' : s ≠ c := fun h => hstand (by rw [hs, h])
      split
      · rename_i hd
        simp [hd, hs', hbrace.symm]
      · rfl
    · rfl
  generalize (Protected.ofText t).hide = f at hhide
  clear hstand
  induction t with
  | nil => rfl
  | cons d t ih =>
    rw [List.map_cons, List.count_cons, List.count_cons, ih]
    simp only [beq_iff_eq, hhide]

theorem count_release (hc : IsLasting c) {p : Protected} (hstand : p.standIn ≠ some c) (u : Text) :
    (p.release u).count c = u.count c := by
  unfold Protected.release
  split
  · rename_i s hs
    have hs' : s ≠ c := fun h => hstand (by rw [hs, h])
    have hreference : Reserved.braceReference.count c = 0 :=
      List.count_eq_zero.2 (hc.notMem_of_isAscii rfl)
    induction u with
    | nil => rfl
    | cons d u ih =>
      rw [List.flatMap_cons, List.count_append, ih, List.count_cons]
      by_cases hd : d = s
      · simp [hd, hs', hreference]
      · simp [hd, List.count_singleton, Nat.add_comm]
  · rfl

theorem count_render_eq (hc : IsLasting c) (hstand : (Protected.ofText t).standIn ≠ some c) :
    ((ofOptions o).render t).count c = ((ofOptions o).rewritten t).1.count c := by
  rw [render_eq, count_release hc hstand, hc.count_trim]

/-- No lasting character is lost. None is doubled either, if blocks are not merged and no reserved
token stands in the text. The bound, which every text in memory keeps, is there for the numbers of
blocks. -/
theorem contents_kept (hsize : byteSize t < indexBound) {c : Char} (hascii : 128 ≤ c.toNat)
    (hspace : Unicode.isWhiteSpace c = false) :
    t.count c ≤ ((ofOptions o).render t).count c ∧
      (o.mergeAdjacentBlocks = false → Reserved.occursIn t = false →
        ((ofOptions o).render t).count c = t.count c) := by
  have hc : IsLasting c := ⟨hascii, hspace⟩
  constructor
  · by_cases hstand : (Protected.ofText t).standIn = some c
    · rw [List.count_eq_zero.2 (Protected.of_standIn?_eq_some (Protected.of_standIn_ofText hstand).2).1]
      exact Nat.zero_le _
    · rw [count_render_eq o t hc hstand, ← count_map_hide t hc hstand]
      exact le_count_rewritten o t hc hsize
  · intro ho ht
    have hstand : (Protected.ofText t).standIn ≠ some c := by
      simp [Protected.ofText_of_not_occursIn ht]
    rw [count_render_eq o t hc hstand, count_rewritten_of_isIntact o t hc (isIntact_of_not_occursIn ho ht)
      hsize, count_map_hide t hc hstand]

/-- A letter stands in a text, in an address, in code and behind it. -/
theorem contents_kept_umlaut :
    ((ofOptions { mergeAdjacentBlocks := false }).render "[ä](ä) ```ä``` ä".toList).count 'ä' = 4 := by
  have hkept := contents_kept { mergeAdjacentBlocks := false } "[ä](ä) ```ä``` ä".toList (by decide)
    (show 128 ≤ 'ä'.toNat by decide) (by decide)
  exact hkept.2 rfl (by decide)

end Renderer

end Markdown
