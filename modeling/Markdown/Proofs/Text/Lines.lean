import Markdown.Text.Basic

/-!
# Lines

A text is a first line and the lines behind its line feeds, and a rule that works line by line maps
a function over them.
-/

namespace Markdown.Text

/-- The text of a first line and later ones, each behind a line feed. -/
def ofLines (l : Text) (ls : List Text) : Text :=
  l ++ ls.flatMap ('\n' :: ·)

@[simp] theorem ofLines_nil (l : Text) : ofLines l [] = l := by
  simp [ofLines]

theorem ofLines_cons (l l' : Text) (ls : List Text) :
    ofLines l (l' :: ls) = l ++ '\n' :: ofLines l' ls := by
  simp [ofLines]

theorem ofLines_append (l : Text) (ls ls' : List Text) :
    ofLines l (ls ++ ls') = ofLines l ls ++ ls'.flatMap ('\n' :: ·) := by
  simp [ofLines]

/-- Every text has its lines. -/
theorem exists_ofLines (t : Text) :
    ∃ l ls, t = ofLines l ls ∧ '\n' ∉ l ∧ ∀ l' ∈ ls, '\n' ∉ l' := by
  induction t with
  | nil => exact ⟨[], [], rfl, by simp, by simp⟩
  | cons c t ih =>
    obtain ⟨l, ls, rfl, hl, hls⟩ := ih
    by_cases hc : c = '\n'
    · subst hc
      exact ⟨[], l :: ls, rfl, by simp, by simpa [hl] using hls⟩
    · exact ⟨c :: l, ls, rfl, by simp [hl, Ne.symm hc], hls⟩

/-- Texts with another one in between. -/
theorem intercalate_cons (sep x : Text) (xs : List Text) :
    List.intercalate sep (x :: xs) = x ++ xs.flatMap (sep ++ ·) := by
  induction xs generalizing x with
  | nil => simp
  | cons y xs ih =>
    rw [List.intercalate_cons_cons, ih, List.flatMap_cons, List.append_assoc, List.append_assoc]

theorem intercalate_concat (sep x : Text) (xs : List Text) :
    List.intercalate sep (xs ++ [x]) = xs.flatMap (· ++ sep) ++ x := by
  induction xs with
  | nil => simp
  | cons y xs ih =>
    obtain ⟨z, zs, hz⟩ := List.exists_cons_of_ne_nil (List.append_ne_nil_of_right_ne_nil xs
      (List.cons_ne_nil x []))
    rw [hz] at ih
    rw [List.cons_append, hz, List.intercalate_cons_cons, ih, List.flatMap_cons, List.append_assoc,
      List.append_assoc, List.append_assoc]

theorem intercalate_lineFeed (l : Text) (ls : List Text) :
    List.intercalate ['\n'] (l :: ls) = ofLines l ls :=
  intercalate_cons ['\n'] l ls

theorem mem_ofLines {c : Char} {l : Text} {ls : List Text} (h : c ∈ ofLines l ls) :
    c = '\n' ∨ ∃ x ∈ l :: ls, c ∈ x := by
  rcases List.mem_append.1 h with h | h
  · exact .inr ⟨l, by simp, h⟩
  · obtain ⟨x, hx, hc⟩ := List.mem_flatMap.1 h
    rcases List.mem_cons.1 hc with rfl | hc
    · exact .inl rfl
    · exact .inr ⟨x, by simp [hx], hc⟩

/-! ## The lines of a text -/

/-- The lines of a text. -/
def lines (t : Text) : List Text :=
  t.splitOn '\n'

theorem lines_append_lineFeed (t u : Text) : lines (t ++ '\n' :: u) = lines t ++ lines u := by
  simp only [lines, List.splitOn_eq_splitOnP]
  exact List.splitOnP_append_cons t u rfl

theorem lines_of_notMem {t : Text} (h : '\n' ∉ t) : lines t = [t] :=
  List.splitOn_eq_singleton h

theorem lines_ofLines {l : Text} {ls : List Text} (h : ∀ x ∈ l :: ls, '\n' ∉ x) :
    lines (ofLines l ls) = l :: ls := by
  rw [← intercalate_lineFeed, lines, List.splitOn_intercalate '\n' h (List.cons_ne_nil l ls)]

theorem lineFeed_notMem_of_mem_lines {t x : Text} (h : x ∈ lines t) : '\n' ∉ x := by
  obtain ⟨l, ls, rfl, hl, hls⟩ := exists_ofLines t
  rw [lines_ofLines (List.forall_mem_cons.2 ⟨hl, hls⟩)] at h
  rcases List.mem_cons.1 h with rfl | h
  · exact hl
  · exact hls x h

/-- A text is made of its lines. -/
theorem ofLines_lines (t : Text) : ofLines [] (lines t) = '\n' :: t := by
  obtain ⟨l, ls, rfl, hl, hls⟩ := exists_ofLines t
  rw [lines_ofLines (List.forall_mem_cons.2 ⟨hl, hls⟩), ofLines_cons]
  rfl

theorem eq_of_lines_eq {t u : Text} (h : lines t = lines u) : t = u := by
  have hjoin (t : Text) : List.intercalate ['\n'] (lines t) = t := List.intercalate_splitOn '\n'
  rw [← hjoin t, h, hjoin u]

/-- What stands in front of a text belongs to its first line, if it has no line feed. -/
theorem exists_lines_append {u : Text} (hu : '\n' ∉ u) (t : Text) :
    ∃ l ls, lines t = l :: ls ∧ lines (u ++ t) = (u ++ l) :: ls := by
  obtain ⟨l, ls, rfl, hl, hls⟩ := exists_ofLines t
  have hsplit : u ++ ofLines l ls = ofLines (u ++ l) ls := by simp [ofLines]
  refine ⟨l, ls, lines_ofLines (List.forall_mem_cons.2 ⟨hl, hls⟩), ?_⟩
  rw [hsplit, lines_ofLines (List.forall_mem_cons.2 ⟨by simp [hu, hl], hls⟩)]

/-- There is one more line than there are line feeds. -/
theorem length_lines (t : Text) : (lines t).length = t.count '\n' + 1 := by
  induction t with
  | nil => rfl
  | cons c t ih =>
    by_cases hc : c = '\n'
    · subst hc
      have hlines : lines ('\n' :: t) = [] :: lines t := lines_append_lineFeed [] t
      rw [hlines, List.length_cons, ih, List.count_cons_self]
    · obtain ⟨l, ls, hlines, hcons⟩ := exists_lines_append (u := [c]) (by simpa using Ne.symm hc) t
      rw [List.singleton_append] at hcons
      rw [List.count_cons_of_ne hc, ← ih, hlines, hcons, List.length_cons, List.length_cons]

theorem lines_intercalate (x : Text) (xs : List Text) :
    lines (List.intercalate ['\n'] (x :: xs)) = (x :: xs).flatMap lines := by
  induction xs generalizing x with
  | nil => simp
  | cons y xs ih =>
    rw [List.intercalate_cons_cons, List.append_assoc, List.singleton_append,
      lines_append_lineFeed, ih]
    rfl

/-! ## Words in a line -/

/-- A word without line feeds that stands in a text stands within a line. -/
theorem exists_infix_of_infix_ofLines {s l : Text} {ls : List Text} (hs : '\n' ∉ s)
    (h : s <:+: ofLines l ls) : ∃ x ∈ l :: ls, s <:+: x := by
  induction ls generalizing l with
  | nil => exact ⟨l, by simp, by simpa using h⟩
  | cons l' ls ih =>
    obtain ⟨u, v, huv⟩ := h
    rw [ofLines_cons, List.append_assoc] at huv
    rcases List.append_eq_append_iff.1 huv with ⟨w, hw, hsv⟩ | ⟨w, hw, hsv⟩
    · rcases List.append_eq_append_iff.1 hsv with ⟨y, hy, -⟩ | ⟨y, hy, hv⟩
      · exact ⟨l, by simp, u, y, by rw [List.append_assoc, ← hy, ← hw]⟩
      · cases y with
        | nil => exact ⟨l, by simp, u, [], by rw [hw, hy, List.append_nil, List.append_nil]⟩
        | cons c y =>
          obtain ⟨rfl, -⟩ := List.cons.inj hv
          exact absurd (by simp [hy]) hs
    · cases w with
      | nil =>
        cases s with
        | nil => exact ⟨l, by simp, List.nil_infix⟩
        | cons c s =>
          obtain ⟨rfl, -⟩ := List.cons.inj hsv
          simp at hs
      | cons c w =>
        obtain ⟨rfl, htail⟩ := List.cons.inj hsv
        have hin : s <:+: ofLines l' ls := ⟨w, v, by rw [List.append_assoc]; exact htail.symm⟩
        obtain ⟨x, hx, hin'⟩ := ih hin
        exact ⟨x, List.mem_cons_of_mem l hx, hin'⟩

/-- Nothing, or a line feed and something. -/
def EndsLine (t : Text) : Prop :=
  t = [] ∨ ∃ t', t = '\n' :: t'

theorem endsLine_flatMap (ls : List Text) : EndsLine (ls.flatMap ('\n' :: ·)) := by
  cases ls with
  | nil => exact .inl rfl
  | cons l ls => exact .inr ⟨_, rfl⟩

/-- A text without line feeds that stands at the beginning of a line stands within the line. -/
theorem prefix_append_of_endsLine {lit l t : Text} (hlit : '\n' ∉ lit) (ht : EndsLine t) :
    lit <+: l ++ t ↔ lit <+: l := by
  refine ⟨fun h => ?_, fun h => h.trans (List.prefix_append ..)⟩
  induction lit generalizing l with
  | nil => exact List.nil_prefix
  | cons c lit ih =>
    cases l with
    | nil =>
      rcases ht with rfl | ⟨t, rfl⟩
      · exact h
      · have hc : c = '\n' := by simpa using (List.cons_prefix_cons.1 h).1
        simp [hc] at hlit
    | cons d l =>
      obtain ⟨rfl, htail⟩ := List.cons_prefix_cons.1 h
      exact List.cons_prefix_cons.2 ⟨rfl, ih (fun hm => hlit (by simp [hm])) htail⟩

variable {p : Char → Bool} (hp : p '\n' = false) (l : Text) {t : Text} (ht : EndsLine t)

include hp ht

/-- A run of characters that are no line feeds ends with the line. -/
theorem takeWhile_append_of_endsLine : (l ++ t).takeWhile p = l.takeWhile p := by
  induction l with
  | nil => rcases ht with rfl | ⟨t, rfl⟩ <;> simp [hp]
  | cons c l ih => simp only [List.cons_append, List.takeWhile_cons, ih]

theorem dropWhile_append_of_endsLine : (l ++ t).dropWhile p = l.dropWhile p ++ t := by
  induction l with
  | nil => rcases ht with rfl | ⟨t, rfl⟩ <;> simp [hp]
  | cons c l ih =>
    simp only [List.cons_append, List.dropWhile_cons, ih]
    split <;> rfl

end Markdown.Text
