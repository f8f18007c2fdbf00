import Markdown.Proofs.Fences.Gaps
import Markdown.Proofs.Reinsertion

/-!
# Fences and the vault

A renderer looks for a fence without a partner in the text as it is given, and the first rule pairs
fences in the protected document. Both take the same ones: hidden braces and the line feeds around
the document make no fence and take none away. The vault has a block for every two fences, and the
warning about an odd fence names the one that the first rule leaves in the document
(`Renderer.unclosed_fence_agrees`).
-/

namespace Markdown

open Pattern (fence)
open Text

variable {g r t c : Text}

/-! ## Where fences stand -/

/-- The byte offsets of the fences of a text that begins `offset` bytes into a document, from left to
right and without overlaps. -/
def fenceOffsets (offset : Nat) : Text → List Nat
  | '`' :: '`' :: '`' :: t => offset :: fenceOffsets (offset + 3) t
  | c :: t => fenceOffsets (offset + c.utf8Size) t
  | [] => []

/-- The characters that begin at the byte offsets from `a` on. -/
def Text.dropBytes : Nat → Text → Text
  | a, c :: t => if c.utf8Size ≤ a then dropBytes (a - c.utf8Size) t else c :: t
  | _, [] => []

/-- The characters that end within the first `n` bytes. -/
def Text.takeBytes : Nat → Text → Text
  | n, c :: t => if c.utf8Size ≤ n then c :: takeBytes (n - c.utf8Size) t else []
  | _, [] => []

/-- The part of a text between two byte offsets. -/
def Text.slice (t : Text) (a b : Nat) : Text :=
  takeBytes (b - a) (dropBytes a t)

theorem Text.dropBytes_append (s t : Text) : dropBytes (byteSize s) (s ++ t) = t := by
  induction s with
  | nil =>
    cases t with
    | nil => rfl
    | cons c t => simp [dropBytes, Nat.not_le.2 (Char.utf8Size_pos c)]
  | cons c s ih => simpa [dropBytes] using ih

theorem Text.takeBytes_append (s t : Text) : takeBytes (byteSize s) (s ++ t) = s := by
  induction s with
  | nil =>
    cases t with
    | nil => rfl
    | cons c t => simp [takeBytes, Nat.not_le.2 (Char.utf8Size_pos c)]
  | cons c s ih => simpa [takeBytes] using ih

/-- What stands behind `s` and in front of `r`. -/
theorem Text.slice_append (s t r : Text) {a b : Nat} (ha : a = byteSize s)
    (hb : b = byteSize s + byteSize t) : slice (s ++ (t ++ r)) a b = t := by
  subst ha hb
  rw [slice, dropBytes_append, Nat.add_sub_cancel_left, takeBytes_append]

theorem byteSize_fence : byteSize fence = 3 := rfl

theorem fenceOffsets_cons {a : Char} (h : ¬ fence <+: a :: t) (offset : Nat) :
    fenceOffsets offset (a :: t) = fenceOffsets (offset + a.utf8Size) t := by
  rw [fenceOffsets]
  rintro t' rfl rfl
  exact h ⟨t', rfl⟩

theorem fenceOffsets_fence_append (offset : Nat) (t : Text) :
    fenceOffsets offset (fence ++ t) = offset :: fenceOffsets (offset + 3) t := rfl

theorem fenceOffsets_eq_nil (h : ¬ fence <:+: t) (offset : Nat) : fenceOffsets offset t = [] := by
  induction t generalizing offset with
  | nil => rfl
  | cons a t ih =>
    rw [fenceOffsets_cons fun hp => h hp.isInfix, ih fun hin => h (hin.trans (List.suffix_cons a t).isInfix)]

/-- The next fence stands behind what is free of fences. -/
theorem fenceOffsets_append (h : IsFree fence g) (offset : Nat) (r : Text) :
    fenceOffsets offset (g ++ fence ++ r) =
      (offset + byteSize g) :: fenceOffsets (offset + byteSize g + 3) r := by
  induction g generalizing offset with
  | nil => exact fenceOffsets_fence_append offset r
  | cons a g ih =>
    rw [List.cons_append, List.cons_append, fenceOffsets_cons (not_isPrefix_gap h r), ih h.2,
      byteSize_cons, Nat.add_assoc offset]

/-- A scan for fences finds them where they stand. -/
theorem offsets_scan_fence (offset : Nat) (b : Option Char) (t : Text) :
    ((offsetsFrom offset [] (piecesFrom (literal fence : Finder Char Unit) b t)).filter
      (·.2.isFound)).map Prod.fst = fenceOffsets offset t := by
  have hproper : (literal fence : Finder Char Unit).IsProper := isProper_literal (by decide)
  induction offset, t using fenceOffsets.induct generalizing b with
  | case1 offset t ih =>
    have hfound : piecesFrom (literal fence : Finder Char Unit) b (fence ++ t) =
        .found fence () :: piecesFrom (literal fence) (lastOr b fence) t :=
      hproper.piecesFrom_append (literal_append fence b t)
    have hsplit : '`' :: '`' :: '`' :: t = fence ++ t := rfl
    rw [hsplit, hfound, offsetsFrom_cons, fenceOffsets_fence_append, ← ih (lastOr b fence)]
    rfl
  | case2 offset a t h ih =>
    have hp : ¬ fence <+: a :: t := by
      rintro ⟨t', ht'⟩
      obtain ⟨ha, ht⟩ := List.cons.inj ht'
      exact h t' ha.symm ht.symm
    rw [hproper.piecesFrom_cons (literal_eq_none b hp), offsetsFrom_cons, fenceOffsets_cons hp,
      ← ih (some a)]
    simp [Piece.isFound, Piece.source]
  | case3 offset =>
    rw [hproper.piecesFrom_nil]
    rfl

/-- The warning is about the last fence, if their number is odd. -/
theorem unclosedFence?_eq (t : Text) :
    unclosedFence? t = if (fenceOffsets 0 t).length % 2 = 1 then
      (fenceOffsets 0 t).getLast?.map (Location.ofOffset t) else none := by
  have hoffsets := offsets_scan_fence 0 none t
  rw [← scan_eq_piecesFrom] at hoffsets
  rw [unclosedFence?, withOffsets, ← hoffsets, List.length_map, List.getLast?_map, Option.map_map]
  rfl

/-! ## Fences in the protected document -/

section Map

variable {f : Char → Char} (hf : ∀ a, f a = '`' ↔ a = '`')

include hf

theorem fence_isPrefix_map : fence <+: t.map f ↔ fence <+: t := by
  have hcons {w : Text} (a : Char) (t : Text) (ih : w <+: t.map f ↔ w <+: t) :
      '`' :: w <+: (a :: t).map f ↔ '`' :: w <+: a :: t := by
    rw [List.map_cons, List.cons_prefix_cons, List.cons_prefix_cons, ih, eq_comm, hf, eq_comm]
  unfold fence
  cases t with
  | nil => rfl
  | cons a t =>
    refine hcons a t ?_
    cases t with
    | nil => rfl
    | cons d t =>
      refine hcons d t ?_
      cases t with
      | nil => rfl
      | cons e t => exact hcons e t (by simp)

theorem fence_isInfix_map : fence <:+: t.map f ↔ fence <:+: t := by
  induction t with
  | nil => rfl
  | cons a t ih =>
    have hp := fence_isPrefix_map hf (t := a :: t)
    rw [List.map_cons] at hp
    rw [List.map_cons, List.infix_cons_iff, List.infix_cons_iff, ih, hp]

theorem isFree_fence_map (h : IsFree fence g) : IsFree fence (g.map f) := by
  rw [isFree_fence_iff] at h ⊢
  rw [fence_isInfix_map hf, List.getLast?_map]
  refine ⟨h.1, fun hlast => h.2 ?_⟩
  obtain ⟨a, ha, hfa⟩ := Option.map_eq_some_iff.1 hlast
  rw [ha, (hf a).1 hfa]

/-- A fence stays one. -/
theorem map_append_fence (g r : Text) :
    (g ++ fence ++ r).map f ++ ['\n'] = g.map f ++ fence ++ (r.map f ++ ['\n']) := by
  have hfence : fence.map f = fence := by
    simp [fence, (hf '`').2 rfl]
  simp [hfence]

/-- A line feed completes no fence. -/
theorem not_fence_map (h : ¬ fence <:+: t) : ¬ fence <:+: t.map f ++ ['\n'] := by
  rw [← fence_isInfix_map hf] at h
  rintro ⟨x, y, hxy⟩
  rcases List.eq_nil_or_concat y with rfl | ⟨y, a, rfl⟩
  · have hlast := congrArg List.getLast? hxy
    have hfence : fence.getLast? = some '`' := rfl
    rw [List.append_nil, List.getLast?_append, List.getLast?_concat, hfence] at hlast
    exact absurd (Option.some.inj hlast) (by decide)
  · rw [List.concat_eq_append, ← List.append_assoc] at hxy
    exact h ⟨x, y, (List.append_inj' hxy rfl).1⟩

/-- The gaps that are code are the same, with the hidden characters. -/
theorem codes_gaps_map (t : Text) :
    codes (gaps (t.map f ++ ['\n'])) = (codes (gaps t)).map (List.map f) := by
  induction t using fences_induction with
  | none t h => rw [gaps_eq_singleton h, gaps_eq_singleton (not_fence_map hf h)]; rfl
  | single g r hg hr =>
    rw [map_append_fence hf, gaps_append hg, gaps_append (isFree_fence_map hf hg),
      gaps_eq_singleton hr, gaps_eq_singleton (not_fence_map hf hr)]
    rfl
  | pair g c r hg hc ih =>
    rw [map_append_fence hf, map_append_fence hf, gaps_append hg, gaps_append hc,
      gaps_append (isFree_fence_map hf hg), gaps_append (isFree_fence_map hf hc), codes_pair,
      codes_pair, ih, List.map_cons]

end Map

/-! ## The gaps by their offsets -/

/-- The members of a list two by two; an odd one is left out. -/
def pairs : List Nat → List (Nat × Nat)
  | a :: b :: l => (a, b) :: pairs l
  | _ => []

theorem pairs_eq_map_range (l : List Nat) :
    pairs l = (List.range (l.length / 2)).map fun i => (l.getD (2 * i) 0, l.getD (2 * i + 1) 0) := by
  induction l using pairs.induct with
  | case1 a b l ih =>
    have hlen : (a :: b :: l).length / 2 = l.length / 2 + 1 := by
      simp only [List.length_cons]
      omega
    rw [hlen, List.range_succ_eq_map, List.map_cons, List.map_map, pairs, ih]
    congr 1
  | case2 l h =>
    match l, h with
    | [], _ => rfl
    | [a], _ => simp [pairs]
    | a :: b :: l, h => exact absurd rfl (h a b l)

/-- Code stands between a fence with an even number and the next one. -/
theorem codes_gaps_eq (s t : Text) :
    codes (gaps t) =
      (pairs (fenceOffsets (byteSize s) t)).map fun p => slice (s ++ t) (p.1 + 3) p.2 := by
  induction t using fences_induction generalizing s with
  | none t h =>
    rw [gaps_eq_singleton h, fenceOffsets_eq_nil h]
    rfl
  | single g r hg hr =>
    rw [gaps_append hg, gaps_eq_singleton hr, fenceOffsets_append hg, fenceOffsets_eq_nil hr]
    rfl
  | pair g c r hg hc ih =>
    have hbefore : byteSize s + byteSize g + 3 + byteSize c + 3 =
        byteSize (s ++ g ++ fence ++ c ++ fence) := by
      simp only [byteSize_append, byteSize_fence]
    have htail := ih (s ++ g ++ fence ++ c ++ fence)
    have hcode : slice (s ++ (g ++ fence ++ (c ++ fence ++ r))) (byteSize s + byteSize g + 3)
        (byteSize s + byteSize g + 3 + byteSize c) = c := by
      have hsplit : s ++ (g ++ fence ++ (c ++ fence ++ r)) = (s ++ g ++ fence) ++ (c ++ (fence ++ r)) := by
        simp
      rw [hsplit]
      exact slice_append _ c _ (by simp only [byteSize_append, byteSize_fence])
        (by simp only [byteSize_append, byteSize_fence])
    rw [gaps_append hg, gaps_append hc, codes_pair, fenceOffsets_append hg, fenceOffsets_append hc,
      pairs, List.map_cons, hcode, hbefore, htail]
    simp

/-! ## The fence that is left -/

theorem fence_isInfix_append (hg : IsFree fence g) (r : Text) : fence <:+: g ++ r ↔ fence <:+: r := by
  induction g with
  | nil => rfl
  | cons a g ih =>
    rw [List.cons_append, List.infix_cons_iff, ih hg.2]
    exact ⟨fun h => h.resolve_left (hg.1 r), .inr⟩

theorem isFree_fence_placeholder (n : Nat) : IsFree fence (placeholder n) := by
  refine isFree_of_notMem _ fun hm => ?_
  simp only [placeholder, List.mem_append] at hm
  rcases hm with (hm | hm) | hm
  · exact absurd hm (by decide)
  · exact absurd ((isDigits_ofNat n).2 _ hm) (by decide)
  · exact absurd hm (by decide)

/-- Behind the first rule no fence is left of an even number, and the last one of an odd number. -/
theorem fence_left {f : Char → Char} (hf : ∀ a, f a = '`' ↔ a = '`') (n offset : Nat) (t : Text) :
    (fenceOffsets offset t).length % 2 = 0 ∧ ¬ fence <:+: weave n (gaps (t.map f ++ ['\n'])) ∨
      ∃ s e u, t = s ++ fence ++ e ∧ (fenceOffsets offset t).length % 2 = 1 ∧
        (fenceOffsets offset t).getLast? = some (offset + byteSize s) ∧
        weave n (gaps (t.map f ++ ['\n'])) = u ++ fence ++ (e.map f ++ ['\n']) ∧
        IsFree fence u ∧ ¬ fence <:+: e.map f ++ ['\n'] := by
  induction t using fences_induction generalizing n offset with
  | none t h =>
    rw [fenceOffsets_eq_nil h, gaps_eq_singleton (not_fence_map hf h)]
    exact .inl ⟨rfl, not_fence_map hf h⟩
  | single g r hg hr =>
    rw [map_append_fence hf, fenceOffsets_append hg, fenceOffsets_eq_nil hr,
      gaps_append (isFree_fence_map hf hg), gaps_eq_singleton (not_fence_map hf hr)]
    exact .inr ⟨g, r, g.map f, rfl, rfl, rfl, rfl, isFree_fence_map hf hg, not_fence_map hf hr⟩
  | pair g c r hg hc ih =>
    have hfree : IsFree fence (g.map f ++ placeholder n) :=
      (isFree_fence_map hf hg).append (isFree_fence_placeholder n)
    have hlen (a b : Nat) (l : List Nat) : (a :: b :: l).length % 2 = l.length % 2 := by
      simp only [List.length_cons]
      omega
    rw [map_append_fence hf, map_append_fence hf, fenceOffsets_append hg, fenceOffsets_append hc,
      gaps_append (isFree_fence_map hf hg), gaps_append (isFree_fence_map hf hc), weave_pair, hlen]
    rcases ih (n + 1) (offset + byteSize g + 3 + byteSize c + 3) with
      ⟨heven, hnot⟩ | ⟨s, e, u, rfl, hodd, hlast, hweave, hu, he⟩
    · exact .inl ⟨heven, by rwa [fence_isInfix_append hfree]⟩
    · refine .inr ⟨g ++ fence ++ (c ++ fence ++ s), e, g.map f ++ placeholder n ++ u, by simp, hodd, ?_,
        by rw [hweave]; simp, hfree.append hu, he⟩
      rw [List.getLast?_cons, List.getLast?_cons, hlast]
      simp only [byteSize_append, byteSize_fence, Option.getD_some]
      congr 1
      omega

/-- A line feed in front of a text goes to its first gap. -/
theorem gaps_lineFeed (t : Text) :
    weave 0 (gaps ('\n' :: t)) = '\n' :: weave 0 (gaps t) ∧ codes (gaps ('\n' :: t)) = codes (gaps t) := by
  have hp : ¬ fence <+: '\n' :: t := fun h => absurd (List.cons_prefix_cons.1 h).1 (by decide)
  rw [gaps_cons hp]
  obtain ⟨g, gs, h⟩ := List.exists_cons_of_ne_nil (gaps_ne_nil t)
  rw [h]
  match gs with
  | [] => exact ⟨rfl, rfl⟩
  | [_] => exact ⟨rfl, rfl⟩
  | _ :: _ :: _ => exact ⟨rfl, rfl⟩

namespace Renderer

variable (o : Options) (t : Text)

theorem hide_eq_backtick_iff (d : Char) : (Protected.ofText t).hide d = '`' ↔ d = '`' :=
  Protected.hide_eq_iff (by decide) (by decide) t d

theorem document_eq : (Protected.ofText t).document =
    '\n' :: (t.map (Protected.ofText t).hide ++ ['\n']) := by
  rw [Protected.document, Protected.text_ofText]
  rfl

theorem text_extracted_eq_weave : (extracted o t).1 =
    '\n' :: weave 0 (gaps (t.map (Protected.ofText t).hide ++ ['\n'])) := by
  rw [text_extracted, fencedPieces, withPlaceholders_pieces, document_eq, (gaps_lineFeed _).1]

theorem vault_run_eq (r : Renderer) : (r.run t).2.vault = (r.rewritten t).2.vault := rfl

/-- The vault at the end has the code between fences. -/
theorem vault_run : ((ofOptions o).run t).2.vault =
    ⟨((codes (gaps t)).map fun c => CodeBlock.render (c.map (Protected.ofText t).hide)).toArray⟩ := by
  rw [vault_run_eq, rewritten_eq, (Table.warnings_apply_reinsertion _ _).1, vault_settled, vault_extracted,
    fencedPieces, codeBlocks_pieces, document_eq, (gaps_lineFeed _).2,
    codes_gaps_map (hide_eq_backtick_iff t), List.map_map]
  rfl

/-- A fence without a partner is reported first, and then the numbers without a block. -/
theorem warnings_ofOptions : (ofOptions o).warnings t =
    ((unclosedFence? t).map Warning.unclosedCodeFence).toList ++
      (Table.danglingIndices (settled o t).2.vault.size (settled o t).1).map
        Warning.danglingPlaceholder := by
  rw [warnings_eq, rewritten_eq, (Table.warnings_apply_reinsertion _ _).2, ← Context.warnings_quiet,
    (settled_eq o t).2, Context.warnings_quiet, warnings_extracted]

/-- The vault has a block for every two fences, with the code between them. There is a warning about
a fence without a partner, before all other warnings, if the number of fences is odd; it is about the
last fence, and the first rule leaves that fence in the document and no other. -/
theorem unclosed_fence_agrees :
    ((ofOptions o).run t).2.vault.size = (fenceOffsets 0 t).length / 2 ∧
    ((ofOptions o).run t).2.vault.blocks.toList =
      ((List.range ((fenceOffsets 0 t).length / 2)).map fun i => CodeBlock.render
        ((t.slice ((fenceOffsets 0 t).getD (2 * i) 0 + 3) ((fenceOffsets 0 t).getD (2 * i + 1) 0)).map
          (Protected.ofText t).hide)) ∧
    (∃ indices : List Nat, (ofOptions o).warnings t =
      (if (fenceOffsets 0 t).length % 2 = 1 then
        (fenceOffsets 0 t).getLast?.toList.map fun last =>
          Warning.unclosedCodeFence (.ofOffset t last) else []) ++
        indices.map Warning.danglingPlaceholder) ∧
    ((fenceOffsets 0 t).length % 2 = 0 ∧ fenceOffsets 0 (extracted o t).1 = [] ∨
      ∃ s e u, t = s ++ fence ++ e ∧ (fenceOffsets 0 t).getLast? = some (byteSize s) ∧
        (extracted o t).1 = u ++ fence ++ e.map (Protected.ofText t).hide ++ ['\n'] ∧
        fenceOffsets 0 (extracted o t).1 = [byteSize u]) := by
  have hcodes := codes_gaps_eq [] t
  rw [byteSize_nil, pairs_eq_map_range, List.map_map] at hcodes
  refine ⟨?_, ?_, ⟨Table.danglingIndices (settled o t).2.vault.size (settled o t).1, ?_⟩, ?_⟩
  · rw [vault_run, hcodes]
    simp [Vault.size]
  · rw [vault_run, hcodes, List.map_map]
    rfl
  · rw [warnings_ofOptions, unclosedFence?_eq]
    congr 1
    split
    · cases (fenceOffsets 0 t).getLast? <;> rfl
    · rfl
  · rw [text_extracted_eq_weave]
    have hlf : IsFree fence ['\n'] := isFree_of_notMem _ (by decide)
    rcases fence_left (hide_eq_backtick_iff t) 0 0 t with
      ⟨heven, hnot⟩ | ⟨s, e, u, hsplit, -, hlast, hweave, hu, he⟩
    · refine .inl ⟨heven, fenceOffsets_eq_nil ?_ 0⟩
      rwa [← List.singleton_append, fence_isInfix_append hlf]
    · have hoffsets := fenceOffsets_append (hlf.append hu) 0 (e.map (Protected.ofText t).hide ++ ['\n'])
      rw [fenceOffsets_eq_nil he, Nat.zero_add] at hoffsets
      refine .inr ⟨s, e, ['\n'] ++ u, hsplit, by rw [hlast, Nat.zero_add], ?_, ?_⟩
      · rw [hweave]
        simp
      · rw [hweave, ← hoffsets]
        simp

end Renderer

end Markdown
