import Markdown.Proofs.Pattern.Enclosed
import Markdown.Proofs.Rewriting
import Markdown.Proofs.Stages
import Markdown.Proofs.Text.Free

/-!
# The gaps between fences

Fences are taken from left to right and do not overlap. `gaps` cuts a text at them: a gap that is
followed by a fence is free of fences and does not end with a backtick, and the last gap has no fence
in it. The first rule pairs the fences in this order, so that every second gap is code
(`withPlaceholders_pieces`, `codeBlocks_pieces`); a fence that is left over stays.
-/

namespace Markdown

open Pattern (fence)
open Text

/-! ## Cutting at fences -/

/-- The texts before, between and behind the fences of a text. -/
def gaps : Text → List Text
  | '`' :: '`' :: '`' :: t => [] :: gaps t
  | c :: t => (gaps t).modifyHead (c :: ·)
  | [] => [[]]

variable {g r t c : Text} {b : Option Char}

/-- The next fence cannot begin in a gap that has none and does not end with a backtick. -/
theorem isFree_fence_iff : IsFree fence g ↔ ¬ fence <:+: g ∧ g.getLast? ≠ some '`' := by
  constructor
  · refine fun h => ⟨h.not_isInfix, fun hlast => ?_⟩
    obtain ⟨u, rfl⟩ := List.getLast?_eq_some_iff.1 hlast
    exact h.not_isPrefix (x := u) (y := []) rfl ['`', '`'] List.prefix_rfl
  · rintro ⟨hin, hlast⟩
    induction g with
    | nil => trivial
    | cons a g ih =>
      refine ⟨fun r hp => ?_, ih (fun h => hin (h.trans (List.suffix_cons a g).isInfix)) ?_⟩
      · obtain ⟨rfl, hp₁⟩ : '`' = a ∧ ['`', '`'] <+: g ++ r := List.cons_prefix_cons.1 hp
        cases g with
        | nil => exact hlast rfl
        | cons d g =>
          obtain ⟨rfl, hp₂⟩ : '`' = d ∧ ['`'] <+: g ++ r := List.cons_prefix_cons.1 hp₁
          cases g with
          | nil => exact hlast rfl
          | cons e g =>
            obtain ⟨rfl, -⟩ : '`' = e ∧ [] <+: g ++ r := List.cons_prefix_cons.1 hp₂
            exact hin (List.prefix_append fence g).isInfix
      · cases g with
        | nil => simp
        | cons d g => simpa using hlast

theorem gaps_cons {a : Char} (h : ¬ fence <+: a :: t) :
    gaps (a :: t) = (gaps t).modifyHead (a :: ·) := by
  rw [gaps]
  rintro t' rfl rfl
  exact h ⟨t', rfl⟩

theorem gaps_fence_append (t : Text) : gaps (fence ++ t) = [] :: gaps t := rfl

/-- A text is one gap if no fence stands in it. -/
theorem gaps_eq_singleton (h : ¬ fence <:+: t) : gaps t = [t] := by
  induction t with
  | nil => rfl
  | cons a t ih =>
    rw [gaps_cons fun hp => h hp.isInfix, ih fun hin => h (hin.trans (List.suffix_cons a t).isInfix)]
    rfl

/-- No fence begins in a gap. -/
theorem not_isPrefix_gap {a : Char} (h : IsFree fence (a :: g)) (r : Text) :
    ¬ fence <+: a :: (g ++ fence ++ r) := by
  have hnot := h.1 (fence ++ r)
  rwa [← List.append_assoc] at hnot

/-- What is free of fences is the gap before the next fence. -/
theorem gaps_append (h : IsFree fence g) (r : Text) : gaps (g ++ fence ++ r) = g :: gaps r := by
  induction g with
  | nil => exact gaps_fence_append r
  | cons a g ih =>
    rw [List.cons_append, List.cons_append, gaps_cons (not_isPrefix_gap h r), ih h.2]
    rfl

/-- Before the first fence of a text stands something that is free of fences. -/
theorem exists_eq_append_fence (h : fence <:+: t) : ∃ g r, IsFree fence g ∧ t = g ++ fence ++ r := by
  induction t with
  | nil => exact absurd (List.infix_nil.1 h) (by decide)
  | cons a t ih =>
    by_cases hp : fence <+: a :: t
    · obtain ⟨r, hr⟩ := hp
      exact ⟨[], r, trivial, hr.symm⟩
    · obtain ⟨g, r, hg, rfl⟩ := ih ((List.infix_cons_iff.1 h).resolve_left hp)
      refine ⟨a :: g, r, isFree_fence_iff.2 ⟨fun hin => ?_, fun hlast => ?_⟩, rfl⟩
      · rcases List.infix_cons_iff.1 hin with hbegin | hin
        · exact hp (hbegin.trans ⟨fence ++ r, by simp⟩)
        · exact (isFree_fence_iff.1 hg).1 hin
      · cases g with
        | nil =>
          obtain rfl : a = '`' := by simpa using hlast
          exact hp ⟨'`' :: r, rfl⟩
        | cons d g => exact (isFree_fence_iff.1 hg).2 (by simpa using hlast)

/-- A text has no fence, or just one, or begins with a gap, code between two fences and a text of
which the same can be said. -/
theorem fences_induction {motive : Text → Prop}
    (none : ∀ t, ¬ fence <:+: t → motive t)
    (single : ∀ g r, IsFree fence g → ¬ fence <:+: r → motive (g ++ fence ++ r))
    (pair : ∀ g c r, IsFree fence g → IsFree fence c → motive r →
      motive (g ++ fence ++ (c ++ fence ++ r))) (t : Text) : motive t := by
  induction hn : t.length using Nat.strongRecOn generalizing t with
  | ind n ih =>
    by_cases ht : fence <:+: t
    · obtain ⟨g, r, hg, rfl⟩ := exists_eq_append_fence ht
      by_cases hr : fence <:+: r
      · obtain ⟨c, r, hc, rfl⟩ := exists_eq_append_fence hr
        refine pair g c r hg hc (ih r.length ?_ r rfl)
        have hlen : fence.length = 3 := rfl
        simp only [← hn, List.length_append, hlen]
        omega
      · exact single g r hg hr
    · exact none t ht

/-! ## The pieces of the first rule -/

/-- The document that the first rule makes of some gaps; `n` is the number of the first block. A
fence without a partner stays. -/
def weave (n : Nat) : List Text → Text
  | g :: _ :: r :: gs => g ++ placeholder n ++ weave (n + 1) (r :: gs)
  | [g, r] => g ++ fence ++ r
  | [g] => g
  | [] => []

/-- The gaps that are code: every second one, if a fence stands behind it. -/
def codes : List Text → List Text
  | _ :: c :: r :: gs => c :: codes (r :: gs)
  | _ => []

theorem gaps_ne_nil (t : Text) : gaps t ≠ [] := by
  induction t using gaps.induct with
  | case1 t _ => simp [gaps]
  | case2 c t h ih =>
    rw [gaps]
    · simpa [List.modifyHead_eq_nil_iff] using ih
    · exact h
  | case3 => simp [gaps]

/-- Code takes up the gap between two fences. -/
theorem weave_pair (n : Nat) (g c t : Text) :
    weave n (g :: c :: gaps t) = g ++ placeholder n ++ weave (n + 1) (gaps t) := by
  obtain ⟨r, gs, h⟩ := List.exists_cons_of_ne_nil (gaps_ne_nil t)
  rw [h, weave]

theorem codes_pair (g c t : Text) : codes (g :: c :: gaps t) = c :: codes (gaps t) := by
  obtain ⟨r, gs, h⟩ := List.exists_cons_of_ne_nil (gaps_ne_nil t)
  rw [h, codes]

theorem finder_fencedCode_eq_none (b : Option Char) (h : ¬ fence <+: t) :
    Pattern.fencedCode.finder (.of b t) = none := by
  rw [Pattern.fencedCode_eq]
  exact Pattern.finder_enclosed_eq_none _ _ .any b h

/-- Code is found between two fences. -/
theorem finder_fencedCode_append (b : Option Char) (hc : IsFree fence c) (r : Text) :
    Pattern.fencedCode.finder (.of b (fence ++ (c ++ fence ++ r))) =
      some ((fence ++ c ++ fence).length, [some c]) := by
  have hcut : cut? Regex.CharSet.any.contains fence (c ++ fence ++ r) = some (c, r) := by
    induction c with
    | nil =>
      rw [List.nil_append, cut?_of_prefix (List.prefix_append ..)]
      rfl
    | cons a c ih =>
      rw [List.cons_append, List.cons_append, cut?,
        if_neg fun h => not_isPrefix_gap hc r (List.isPrefixOf_iff_prefix.1 h),
        if_pos (Regex.CharSet.contains_any a), ih hc.2]
      rfl
  rw [Pattern.fencedCode_eq, Pattern.finder_enclosed_append, hcut]
  rfl

/-- The pieces of a gap are its characters. -/
theorem piecesFrom_gap (b : Option Char) (hg : IsFree fence g) (r : Text) :
    piecesFrom Pattern.fencedCode.finder b (g ++ fence ++ r) =
      g.map .kept ++ piecesFrom Pattern.fencedCode.finder (lastOr b g) (fence ++ r) := by
  induction g generalizing b with
  | nil => rfl
  | cons a g ih =>
    have hnone := finder_fencedCode_eq_none b (not_isPrefix_gap hg r)
    rw [List.cons_append, List.cons_append, Pattern.isProper_fencedCode.piecesFrom_cons hnone,
      ih _ hg.2, lastOr_cons]
    rfl

theorem withPlaceholders_kept_append (n : Nat) (g : Text)
    (ps : List (Piece Char (List (Option Text)))) :
    withPlaceholders n (g.map .kept ++ ps) = g ++ withPlaceholders n ps := by
  induction g with
  | nil => rfl
  | cons a g ih => rw [List.map_cons, List.cons_append, withPlaceholders, ih, List.cons_append]

theorem codeBlocks_kept_append (g : Text) (ps : List (Piece Char (List (Option Text)))) :
    codeBlocks (g.map .kept ++ ps) = codeBlocks ps := by
  induction g with
  | nil => rfl
  | cons a g ih => rw [List.map_cons, List.cons_append, codeBlocks, ih]

/-- No code is found in a text without a second fence. -/
theorem countP_piecesFrom_eq_zero (b : Option Char)
    (h : ∀ c, ¬ fence ++ c ++ fence <:+: t) :
    (piecesFrom Pattern.fencedCode.finder b t).countP Piece.isFound = 0 := by
  rw [List.countP_eq_zero]
  rintro (a | ⟨taken, groups⟩) hm
  · simp [Piece.isFound]
  · obtain ⟨b', l, hl, hf⟩ := Pattern.isProper_fencedCode.of_found_mem_piecesFrom hm
    rw [Pattern.fencedCode_eq] at hf
    obtain ⟨c, rfl, -, -⟩ := Pattern.eq_of_finder_enclosed hf
    exact absurd ((List.prefix_append _ l).isInfix.trans hl.isInfix) (h c)

/-- A text with one fence has no two. -/
theorem not_pair_isInfix (hg : IsFree fence g) (hr : ¬ fence <:+: r) (c : Text) :
    ¬ fence ++ c ++ fence <:+: g ++ fence ++ r := by
  induction g with
  | nil =>
    rintro ⟨x, y, h⟩
    have hsplit : (x ++ fence) ++ (c ++ fence ++ y) = fence ++ r := by
      simpa using h
    have hdrop := congrArg (List.drop fence.length) hsplit
    rw [List.drop_append_of_le_length (by simp), List.drop_left] at hdrop
    exact hr (hdrop ▸ ⟨(x ++ fence).drop fence.length ++ c, y, by simp⟩)
  | cons a g ih =>
    intro hin
    rcases List.infix_cons_iff.1 hin with hp | hin
    · refine hg.1 (fence ++ r) ?_
      have hbegin : fence <+: fence ++ c ++ fence := ⟨c ++ fence, by simp⟩
      simpa using hbegin.trans hp
    · exact ih hg.2 hin

theorem withPlaceholders_of_not_pair (b : Option Char) (n : Nat)
    (h : ∀ c, ¬ fence ++ c ++ fence <:+: t) :
    withPlaceholders n (piecesFrom Pattern.fencedCode.finder b t) = t ∧
      codeBlocks (piecesFrom Pattern.fencedCode.finder b t) = [] := by
  have hcount := countP_piecesFrom_eq_zero b h
  refine ⟨?_, ?_⟩
  · rw [withPlaceholders_of_countP_eq_zero hcount, piecesFrom, flatMap_source_scanFrom]
    rfl
  · rw [← List.length_eq_zero_iff, length_codeBlocks, hcount]

/-- The first rule makes placeholders of every second gap, and blocks. -/
theorem extraction_gaps (b : Option Char) (n : Nat) (t : Text) :
    withPlaceholders n (piecesFrom Pattern.fencedCode.finder b t) = weave n (gaps t) ∧
      codeBlocks (piecesFrom Pattern.fencedCode.finder b t) =
        (codes (gaps t)).map CodeBlock.render := by
  induction t using fences_induction generalizing b n with
  | none t h =>
    rw [gaps_eq_singleton h]
    refine withPlaceholders_of_not_pair b n fun c hin => h (List.IsInfix.trans ?_ hin)
    exact ⟨[], c ++ fence, by simp⟩
  | single g r hg hr =>
    rw [gaps_append hg, gaps_eq_singleton hr]
    exact withPlaceholders_of_not_pair b n (not_pair_isInfix hg hr)
  | pair g c r hg hc ih =>
    have hsplit : fence ++ (c ++ fence ++ r) = (fence ++ c ++ fence) ++ r := by simp
    rw [gaps_append hg, gaps_append hc, weave_pair, codes_pair, piecesFrom_gap b hg, hsplit,
      Pattern.isProper_fencedCode.piecesFrom_append (by rw [← hsplit, finder_fencedCode_append _ hc]),
      withPlaceholders_kept_append, codeBlocks_kept_append]
    obtain ⟨htext, hblocks⟩ := ih (lastOr (lastOr b g) (fence ++ c ++ fence)) (n + 1)
    rw [withPlaceholders, codeBlocks, htext, hblocks, List.append_assoc]
    exact ⟨rfl, rfl⟩

/-- What the first rule leaves of a text. -/
theorem withPlaceholders_pieces (n : Nat) (t : Text) :
    withPlaceholders n (Pattern.fencedCode.pieces t) = weave n (gaps t) := by
  rw [Pattern.pieces_eq_piecesFrom]
  exact (extraction_gaps none n t).1

/-- The blocks that the first rule keeps. -/
theorem codeBlocks_pieces (t : Text) :
    codeBlocks (Pattern.fencedCode.pieces t) = (codes (gaps t)).map CodeBlock.render := by
  rw [Pattern.pieces_eq_piecesFrom]
  exact (extraction_gaps none 0 t).2

end Markdown
