import Markdown.Proofs.Blocks.LineStarts

/-!
# Paragraphs line by line

The rule for paragraphs goes through a document line by line, and what it makes of a line is a line
that it leaves (`paragraphLine_of_isBlockLine`). So it keeps the line feeds, and a second time it
changes nothing (`Table.wrapping_linewise`).

A line is left if, blanks apart, it begins with the tag of a block element. This is what a search for
the pattern of such tags finds (`Pattern.any_isFound_blockTag`).
-/

namespace Markdown

open Text

variable {l t : Text} {b : Option Char}

/-! ## The pattern of block tags -/

namespace Regex

/-- The patterns of a list as alternatives. -/
def alts : List Regex → Regex
  | [] => empty
  | [r] => r
  | r :: rs => alt r (alts rs)

variable {r : Regex} {rs : List Regex}

theorem ways_seqs_assert_ne_nil_iff {a : Assertion} : (seqs (assert a :: rs)).ways b t ≠ [] ↔
    a.holds b t.head? ∧ (seqs rs).ways b t ≠ [] := by
  rw [ways_seqs_cons, ways]
  split
  · rename_i h
    simp [h]
  · rename_i h
    simp [h]

theorem ways_seqs_char_ne_nil_iff {c : Char} : (seqs (char c :: rs)).ways b t ≠ [] ↔
    ∃ u, t = c :: u ∧ (seqs rs).ways (some c) u ≠ [] := by
  rw [ways_seqs_cons]
  cases t with
  | nil => simp [char, ways]
  | cons d t =>
    rw [char, ways, CharSet.contains_single]
    by_cases hd : d = c
    · simp [hd]
    · simp [hd]

/-- A part that may be left out matches or is left out. -/
theorem ways_seqs_optional_ne_nil_iff {greedy : Bool} :
    (seqs (optional greedy r :: rs)).ways b t ≠ [] ↔
      (seqs (r :: rs)).ways b t ≠ [] ∨ (seqs rs).ways b t ≠ [] := by
  rw [ways_seqs_cons, ways_seqs_cons]
  cases greedy with
  | true => simp [optional, ways, not_and_or, -not_and]
  | false => simp [optional, ways, not_and_or, -not_and, or_comm]

/-- Alternatives match if one of them does. -/
theorem ways_alts_ne_nil_iff (hne : rs ≠ []) :
    (alts rs).ways b t ≠ [] ↔ ∃ s ∈ rs, s.ways b t ≠ [] := by
  induction rs with
  | nil => exact absurd rfl hne
  | cons r rs ih =>
    cases rs with
    | nil => simp [alts]
    | cons r' rs =>
      have halt : (alts (r :: r' :: rs)).ways b t = r.ways b t ++ (alts (r' :: rs)).ways b t := rfl
      have ih' := ih (List.cons_ne_nil r' rs)
      rw [halt, ne_eq, List.append_eq_nil_iff, not_and_or, ← ne_eq, ← ne_eq, ih',
        List.exists_mem_cons_iff (p := fun s => s.ways b t ≠ []) (a := r)]

theorem ways_text_ne_nil_iff {u : Text} : (text u).ways b t ≠ [] ↔ u <+: t := by
  constructor
  · intro h
    by_contra hnot
    exact h (ways_text_eq_nil hnot)
  · rintro ⟨r, rfl⟩
    simp [ways_text]

end Regex

namespace Pattern

open Regex

/-- The beginning of the opening or closing tag of a block element, at the start of a text. -/
def blockTag : Pattern :=
  regex "^</?(ul|ol|li|h|p|bl|table|tr|th|td|code)".toList
    (seqs [assert .textStart, char '<', optional true (char '/'),
      group 1 (alts (Handler.blockNames.map text))]) 1

/-- The program is what the pattern is read as. -/
theorem agreesWithSource_blockTag : blockTag.agreesWithSource = true := by
  decide +kernel

theorem isProper_blockTag : blockTag.finder.IsProper :=
  isProper_finder_regex rfl rfl

/-- The pattern is found at the start of a text that begins with such a tag, and nowhere else. -/
theorem finder_blockTag_ne_none_iff :
    blockTag.finder (.of b t) ≠ none ↔ b = none ∧ ∃ k ∈ blockTags, k <+: t := by
  have hname (b : Option Char) (u : Text) :
      (seqs [group 1 (alts (Handler.blockNames.map text))]).ways b u ≠ [] ↔
        ∃ name ∈ Handler.blockNames, name <+: u := by
    rw [seqs, ways, ne_eq, List.map_eq_nil_iff, ← ne_eq, ways_alts_ne_nil_iff (by decide)]
    simp only [List.mem_map, exists_exists_and_eq_and, ways_text_ne_nil_iff]
  have hstart : Assertion.textStart.holds b t.head? ↔ b = none := by
    simp [Assertion.holds]
  rw [blockTag, finder, find_eq_head?_ways rfl, ne_eq, Option.map_eq_none_iff,
    List.head?_eq_none_iff, ← ne_eq, exists_mem_blockTags_iff]
  simp only [ways_seqs_assert_ne_nil_iff, ways_seqs_char_ne_nil_iff, ways_seqs_optional_ne_nil_iff,
    hname, hstart]

/-- A search for the pattern tells whether a text begins with the tag of a block element. -/
theorem any_isFound_blockTag (t : Text) :
    (blockTag.pieces t).any Piece.isFound ↔ ∃ k ∈ blockTags, k <+: t := by
  have hstart := finder_blockTag_ne_none_iff (b := none) (t := t)
  simp only [true_and] at hstart
  -- behind a character nothing is found
  have hlater (c : Char) (t : Text) : piecesFrom blockTag.finder (some c) t = t.map .kept := by
    induction t generalizing c with
    | nil => exact isProper_blockTag.piecesFrom_nil _
    | cons d t ih =>
      have hnone : blockTag.finder (.of (some c) (d :: t)) = none := by
        by_contra h
        exact absurd (finder_blockTag_ne_none_iff.1 h).1 (by simp)
      rw [isProper_blockTag.piecesFrom_cons hnone, ih, List.map_cons]
  rw [pieces_eq_piecesFrom, ← hstart]
  cases hf : blockTag.finder (.of none t) with
  | none =>
    cases t with
    | nil => simp [isProper_blockTag.piecesFrom_nil]
    | cons c t => simp [isProper_blockTag.piecesFrom_cons hf, hlater, Piece.isFound]
  | some found =>
    obtain ⟨n, v⟩ := found
    have hlen : (t.take n).length = n := List.length_take_of_le (isProper_blockTag _ _ _ _ hf).2
    rw [← List.take_append_drop n t] at hf ⊢
    rw [isProper_blockTag.piecesFrom_append (s := t.take n) (by rw [hf, hlen])]
    simp [Piece.isFound]

end Pattern

/-! ## Paragraphs -/

/-- What a line is replaced by. -/
theorem paragraphLine_eq (l : Text) : Handler.paragraphLine l =
    if trim l = [] then []
    else if ∃ k ∈ blockTags, k <+: trim l then l
    else "<p>".toList ++ trim l ++ "</p>".toList := by
  split
  · rename_i hempty
    simp [Handler.paragraphLine, hempty, Handler.beginsBlock]
  · rename_i hne
    split
    · rename_i htag
      exact Handler.paragraphLine_of_beginsBlock (beginsBlock_iff.2 htag)
    · rename_i hnot
      have hbegins : Handler.beginsBlock (trim l) = false := by
        rwa [← Bool.not_eq_true, beginsBlock_iff]
      rw [Handler.paragraphLine_of_not_beginsBlock hbegins hne, Handler.element]
      simp

/-- A line that is empty or begins with the tag of a block element is left. -/
theorem paragraphLine_of_isBlockLine (h : IsBlockLine l) : Handler.paragraphLine l = l := by
  rcases h with rfl | htag
  · rfl
  · exact Handler.paragraphLine_of_beginsBlock (beginsBlock_iff.2 htag)

namespace Table

/-- Lines of which none is to be wrapped are left. -/
theorem pass_wrapping_of_areBlockLines (o : Options) {d : Text} (h : AreBlockLines d) :
    wrapping.pass o d = d := by
  refine eq_of_lines_eq ?_
  rw [lines_wrapping]
  exact (List.map_congr_left fun l hl => paragraphLine_of_isBlockLine (h l hl)).trans (List.map_id _)

/-- The rule for paragraphs goes line by line, and a second time it changes nothing.

* A search for the pattern of block tags tells whether a text begins with the tag of a block element.
* A line of blanks is emptied. A line that begins with such a tag, blanks apart, is left with its
  blanks. Any other line loses them and is set as a paragraph.
* Whatever the document and the state, this is done to each line on its own. There are as many line
  feeds as before, and nothing but the log of the state is touched.
* What comes out is left by the rule, in this state or in another one. -/
theorem wrapping_linewise :
    (∀ x, (Pattern.blockTag.pieces x).any Piece.isFound ↔ ∃ k ∈ blockTags, k <+: x) ∧
    (∀ l, Handler.paragraphLine l =
      if trim l = [] then []
      else if ∃ k ∈ blockTags, k <+: trim l then l
      else "<p>".toList ++ trim l ++ "</p>".toList) ∧
    ∀ (d : Text) (cx : Context),
      lines (wrapping.apply d cx).1 = (lines d).map Handler.paragraphLine ∧
      (wrapping.apply d cx).1.count '\n' = d.count '\n' ∧
      (wrapping.apply d cx).2.quiet = cx.quiet ∧
      ∀ cx', (wrapping.apply (wrapping.apply d cx).1 cx').1 = (wrapping.apply d cx).1 := by
  refine ⟨Pattern.any_isFound_blockTag, paragraphLine_eq, fun d cx => ?_⟩
  obtain ⟨hpass, hquiet⟩ := isPure_wrapping.apply_eq_pass d cx
  have hlines := lines_wrapping cx.options d
  rw [hpass]
  refine ⟨hlines, ?_, hquiet, fun cx' => ?_⟩
  · have hlength := congrArg List.length hlines
    rw [List.length_map, length_lines, length_lines] at hlength
    exact Nat.succ_inj.1 hlength
  · rw [(isPure_wrapping.apply_eq_pass _ cx').1]
    exact pass_wrapping_of_areBlockLines _ (areBlockLines_wrapping cx.options d)

end Table

end Markdown
