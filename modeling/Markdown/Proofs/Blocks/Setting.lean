import Markdown.Proofs.Blocks.Source
import Markdown.Proofs.Marks.Passes

/-!
# Setting the lines

The rules for blocks set one kind of line after another. A document stands between two of them as
`stage o n` says: the lines of a rank below `n` are set, and the others are as they are written. The
rules for what stands inside a line find nothing.
-/

namespace Markdown

/-! ## Characters -/

/-- The characters that lines and their HTML have in common. -/
def isBaseChar (c : Char) : Bool :=
  isWordChar c || ['\t', '\r', '<', '>', '/', '&', ';'].contains c

theorem isBaseChar_of_isWordChar {c : Char} (h : isWordChar c) : isBaseChar c := by
  rw [isBaseChar, h, Bool.true_or]

theorem isBaseChar_of_isIndent {c : Char} (h : Line.isIndent c) : isBaseChar c := by
  simp only [Line.isIndent, Bool.or_eq_true, beq_iff_eq] at h
  rcases h with rfl | rfl <;> decide

theorem isBaseChar_of_isDigit {c : Char} (h : c.isDigit) : isBaseChar c := by
  simp [isBaseChar, isWordChar, Char.isAlphanum, h]

theorem isBaseChar_of_mem_element {name x : Text} (hname : ∀ c ∈ name, isBaseChar c)
    (hx : ∀ c ∈ x, isBaseChar c) {c : Char} (h : c ∈ Handler.element name x) : isBaseChar c := by
  have hsigns : ∀ d ∈ ['<', '>', '/'], isBaseChar d := List.all_eq_true.1 rfl
  rcases Handler.mem_element h with h | h | h
  · exact hsigns c h
  · exact hname c h
  · exact hx c h

namespace Words

variable (w : Words)

theorem isBaseChar_of_mem {c : Char} (h : c ∈ w.text) : isBaseChar c :=
  isBaseChar_of_isWordChar (w.isWordChar_of_mem c h)

theorem isBaseChar_of_mem_trim {c : Char} (h : c ∈ Text.trim w.text) : isBaseChar c :=
  isBaseChar_of_isWordChar (w.isWordChar_of_mem_trim h)

end Words

/-! ## The HTML of a line, line by line -/

/-- The lines of a list with one item. -/
def itemLines (list t : Text) : List Text :=
  ['<' :: list ++ ['>'], '\t' :: Handler.element "li".toList t, '<' :: '/' :: list ++ ['>']]

namespace SourceLine

/-- The lines of the HTML of a line. -/
def htmlLines (o : Options) : SourceLine → List Text
  | block (.bullet words) _ => itemLines "ul".toList (Text.trim words.text)
  | block (.numbered _ _ words) _ => itemLines "ol".toList (Text.trim words.text)
  | l => [l.html o]

/-- Which of the rules for blocks sets a line; paragraphs come last. -/
def rank : SourceLine → Nat
  | block (.heading ..) _ => 0
  | block (.bullet _) _ => 1
  | block (.numbered ..) _ => 2
  | block (.quote ..) _ => 3
  | rule _ => 4
  | block (.plain ..) _ | block (.blank ..) _ => 5

/-- The sign of a line that its HTML does not have. -/
def sign? : SourceLine → Option Char
  | block (.heading ..) _ => some '#'
  | block (.bullet _) _ => some '*'
  | block (.numbered ..) _ => some '.'
  | rule _ => some '-'
  | _ => none

theorem flatMap_htmlLines (o : Options) (l : SourceLine) :
    (l.htmlLines o).flatMap ('\n' :: ·) = '\n' :: l.html o := by
  unfold htmlLines
  split
  · simp [itemLines, BlockLine.html, Family.block, itemLine, Handler.element]
  · simp [itemLines, BlockLine.html, Family.block, itemLine, Handler.element]
  · simp

/-- A line has no characters but those that are common to all of them and its sign. -/
theorem isBaseChar_of_mem_text {l : SourceLine} {c : Char} (h : c ∈ l.text) :
    isBaseChar c ∨ l.sign? = some c := by
  cases l with
  | rule more => exact .inr (by rw [(List.mem_replicate.1 h).2]; rfl)
  | block line carriageReturn =>
    rcases List.mem_append.1 h with h | h
    · cases line with
      | blank indent hindent => exact .inl (isBaseChar_of_isIndent (hindent c h))
      | plain words _ => exact .inl (words.isBaseChar_of_mem h)
      | heading signs _ gap _ hgap words =>
        simp only [BlockLine.text, List.mem_append, List.mem_replicate] at h
        rcases h with (⟨-, rfl⟩ | h) | h
        · exact .inr rfl
        · exact .inl (isBaseChar_of_isIndent (hgap c h))
        · exact .inl (words.isBaseChar_of_mem h)
      | bullet words =>
        rcases List.mem_cons.1 h with rfl | h
        · exact .inr rfl
        · exact .inl (words.isBaseChar_of_mem h)
      | numbered digits hdigits words =>
        simp only [BlockLine.text, List.mem_append, List.mem_cons] at h
        rcases h with h | rfl | h
        · exact .inl (isBaseChar_of_isDigit (hdigits.2 c h))
        · exact .inr rfl
        · exact .inl (words.isBaseChar_of_mem h)
      | quote entity words =>
        rcases List.mem_append.1 h with h | h
        · have hmark : ∀ d ∈ (if entity then "&gt;".toList else ['>']), isBaseChar d := by
            cases entity
            · exact List.all_eq_true.1 rfl
            · exact List.all_eq_true.1 rfl
          exact .inl (hmark c h)
        · exact .inl (words.isBaseChar_of_mem h)
    · cases carriageReturn with
      | false => simp at h
      | true =>
        obtain rfl : c = '\r' := by simpa using h
        exact .inl (by decide)

theorem isBaseChar_of_mem_itemLines {list : Text} (hlist : ∀ c ∈ list, isBaseChar c)
    {words : Words} {x : Text} (hx : x ∈ itemLines list (Text.trim words.text)) {c : Char}
    (h : c ∈ x) : isBaseChar c := by
  have hsigns : isBaseChar '<' ∧ isBaseChar '>' ∧ isBaseChar '/' ∧ isBaseChar '\t' := by decide
  simp only [itemLines, List.mem_cons, List.not_mem_nil, or_false] at hx
  rcases hx with rfl | rfl | rfl
  · simp only [List.mem_append, List.mem_cons, List.not_mem_nil, or_false] at h
    rcases h with (rfl | h) | rfl
    · exact hsigns.1
    · exact hlist c h
    · exact hsigns.2.1
  · rcases List.mem_cons.1 h with rfl | h
    · exact hsigns.2.2.2
    · exact isBaseChar_of_mem_element (List.all_eq_true.1 rfl)
        (fun c hc => words.isBaseChar_of_mem_trim hc) h
  · simp only [List.mem_append, List.mem_cons, List.not_mem_nil, or_false] at h
    rcases h with (rfl | rfl | h) | rfl
    · exact hsigns.1
    · exact hsigns.2.2.1
    · exact hlist c h
    · exact hsigns.2.1

theorem isBaseChar_of_mem_htmlLines {o : Options} {l : SourceLine} {x : Text}
    (hx : x ∈ l.htmlLines o) {c : Char} (h : c ∈ x) : isBaseChar c := by
  unfold htmlLines at hx
  split at hx
  · exact isBaseChar_of_mem_itemLines (List.all_eq_true.1 rfl) hx h
  · exact isBaseChar_of_mem_itemLines (List.all_eq_true.1 rfl) hx h
  · rename_i hbullet hnumbered
    rw [List.mem_singleton.1 hx] at h
    cases l with
    | rule more =>
      have hrule : ∀ d ∈ "<hr />".toList, isBaseChar d := List.all_eq_true.1 rfl
      exact hrule c h
    | block line carriageReturn =>
      cases line with
      | blank indent _ => simp [BlockLine.html] at h
      | plain words _ =>
        exact isBaseChar_of_mem_element (List.all_eq_true.1 rfl)
          (fun c hc => words.isBaseChar_of_mem_trim hc) h
      | heading signs _ _ _ _ words =>
        refine isBaseChar_of_mem_element (fun d hd => ?_)
          (fun c hc => words.isBaseChar_of_mem_trim hc) h
        rcases List.mem_cons.1 hd with rfl | hd
        · decide
        · exact isBaseChar_of_isDigit (isDigit_of_mem_ofNat hd)
      | bullet words => exact absurd rfl (hbullet words carriageReturn)
      | numbered digits _ words => exact absurd rfl (hnumbered digits _ words carriageReturn)
      | quote entity words =>
        refine isBaseChar_of_mem_element (List.all_eq_true.1 rfl) (fun d hd => ?_) h
        rw [List.intercalate_singleton] at hd
        exact words.isBaseChar_of_mem_trim hd

/-! ## Stages -/

/-- A line before the rule of rank `n`. -/
def atRank (o : Options) (n : Nat) (l : SourceLine) : List Text :=
  if l.rank < n then l.htmlLines o else [l.text]

/-- A document before the rule of rank `n`, a line feed on either side. -/
def stage (o : Options) (n : Nat) (ls : List SourceLine) : Text :=
  Text.ofLines [] (ls.flatMap (atRank o n) ++ [[]])

variable {o : Options} {n : Nat} {l : SourceLine} {ls : List SourceLine}

theorem isBaseChar_of_mem_atRank {x : Text} (hx : x ∈ l.atRank o n) {c : Char} (h : c ∈ x) :
    isBaseChar c ∨ l.sign? = some c := by
  unfold atRank at hx
  split at hx
  · exact .inl (isBaseChar_of_mem_htmlLines hx h)
  · rw [List.mem_singleton.1 hx] at h
    exact isBaseChar_of_mem_text h

theorem eq_of_sign?_eq_some {c : Char} (h : l.sign? = some c) :
    l.rank = 0 ∧ c = '#' ∨ l.rank = 1 ∧ c = '*' ∨ l.rank = 2 ∧ c = '.' ∨ l.rank = 4 ∧ c = '-' := by
  unfold sign? at h
  split at h
  · exact .inl ⟨rfl, (Option.some.inj h).symm⟩
  · exact .inr (.inl ⟨rfl, (Option.some.inj h).symm⟩)
  · exact .inr (.inr (.inl ⟨rfl, (Option.some.inj h).symm⟩))
  · exact .inr (.inr (.inr ⟨rfl, (Option.some.inj h).symm⟩))
  · exact absurd h (by simp)

/-- A character that is neither a sign nor common to all lines. -/
theorem notMem_of_mem_atRank {x : Text} (hx : x ∈ l.atRank o n) {c : Char}
    (hc : isBaseChar c = false) (hsign : c ∉ ['#', '*', '.', '-']) : c ∉ x := by
  intro h
  rcases isBaseChar_of_mem_atRank hx h with h | h
  · rw [hc] at h
    exact absurd h (by simp)
  · rcases eq_of_sign?_eq_some h with ⟨-, rfl⟩ | ⟨-, rfl⟩ | ⟨-, rfl⟩ | ⟨-, rfl⟩ <;> simp at hsign

theorem notMem_stage {c : Char} (hc : isBaseChar c = false) (hlf : c ≠ '\n')
    (hsign : c ∉ ['#', '*', '.', '-']) : c ∉ stage o n ls := by
  intro h
  rcases Text.mem_ofLines h with rfl | ⟨x, hx, h⟩
  · exact hlf rfl
  · simp only [List.mem_cons, List.mem_append, List.mem_flatMap, List.not_mem_nil, or_false] at hx
    rcases hx with rfl | ⟨l, -, hx⟩ | rfl
    · simp at h
    · exact notMem_of_mem_atRank hx hc hsign h
    · simp at h

/-- What the rule of rank `n` makes of a document, if it sets the lines of that rank and leaves the
others. -/
theorem stage_succ {p : Pattern} {ρ : Match → Text} {f : Text → Text}
    (hp : ∀ xs : List Text, (∀ x ∈ xs, '\n' ∉ x) →
      p.rewriteFrom ρ none (Text.ofLines [] xs) = Text.ofLines [] (xs.map f))
    (hnil : f [] = []) (hdone : ∀ l : SourceLine, l.rank < n → ∀ x ∈ l.htmlLines o, f x = x)
    (hset : ∀ l : SourceLine, l.rank = n → f l.text = l.html o)
    (hlater : ∀ l : SourceLine, n < l.rank → f l.text = l.text) (ls : List SourceLine) :
    p.rewriteFrom ρ none (stage o n ls) = stage o (n + 1) ls := by
  have hline (l : SourceLine) : ((l.atRank o n).map f).flatMap ('\n' :: ·) =
      (l.atRank o (n + 1)).flatMap ('\n' :: ·) := by
    unfold atRank
    rcases Nat.lt_trichotomy l.rank n with h | h | h
    · have hfix : (l.htmlLines o).map f = l.htmlLines o := by
        conv => rhs; rw [← List.map_id (l.htmlLines o)]
        exact List.map_congr_left (hdone l h)
      rw [if_pos h, if_pos (Nat.lt_succ_of_lt h), hfix]
    · rw [if_neg (by omega), if_pos (by omega), flatMap_htmlLines, ← hset l h]
      simp
    · rw [if_neg (by omega), if_neg (by omega), List.map_singleton, hlater l h]
  rw [stage, hp, stage, List.map_append, Text.ofLines_append, Text.ofLines_append, List.map_flatMap]
  · congr 1
    · rw [Text.ofLines, Text.ofLines, List.nil_append, List.nil_append, List.flatMap_assoc,
        List.flatMap_assoc]
      congr 1
      funext l
      exact hline l
    · rw [List.map_singleton, hnil]
  · intro x hx
    simp only [List.mem_append, List.mem_flatMap, List.mem_singleton] at hx
    rcases hx with ⟨l, -, hx⟩ | rfl
    · exact notMem_of_mem_atRank hx (by decide) (by decide)
    · simp

end SourceLine

end Markdown
