import Markdown.Text.Location.Bytes
import Mathlib.Data.List.Induction
import Mathlib.Data.Prod.Lex
import Mathlib.Order.Bounds.Basic
import Mathlib.Order.Monotone.Defs

/-!
# Locations and offsets

Locations are ordered by their lines, and on a line by their columns. In this order a location
identifies a place of a text (`Location.ofOffset_identifies`).

1. A location grows with each character that is passed (`lt_advance`), so of two places the one
   further back has the larger location.
2. An offset inside a character or past the end has the location of the last place before it
   (`exists_ofOffset_eq`, `isGreatest_places`).
3. Going back from an offset byte by byte leads to that place (`exists_placeBack?`). What is counted
   there is the location, as it is counted character by character (`ofOffset?_eq`).
-/

namespace Markdown

namespace Text

variable {t u v : Text} {i n : Nat}

/-- The places of a text: how many bytes its beginnings have. -/
def places (t : Text) : Set Nat :=
  {i | ∃ u, u <+: t ∧ byteSize u = i}

theorem byteSize_mem_places (u v : Text) : byteSize u ∈ places (u ++ v) :=
  ⟨u, List.prefix_append u v, rfl⟩

theorem isSome_from?_iff : (t.from? i).isSome ↔ i ∈ places t := by
  rw [Option.isSome_iff_exists]
  constructor
  · rintro ⟨v, hv⟩
    obtain ⟨u, rfl, rfl⟩ := from?_eq_some_iff.1 hv
    exact byteSize_mem_places u v
  · rintro ⟨u, ⟨v, rfl⟩, rfl⟩
    exact ⟨v, from?_append u v⟩

/-- No place is between the beginning of a character and its end, nor behind the text. -/
theorem isGreatest_places (hu : byteSize u ≤ n)
    (hv : ∀ c ∈ v.head?, n < byteSize u + c.utf8Size) :
    IsGreatest {i ∈ places (u ++ v) | i ≤ n} (byteSize u) := by
  refine ⟨⟨byteSize_mem_places u v, hu⟩, ?_⟩
  rintro _ ⟨⟨x, ⟨y, hxy⟩, rfl⟩, hle⟩
  by_contra hlt
  obtain ⟨z, rfl, rfl⟩ := exists_of_append_eq_append hxy.symm (Nat.le_of_not_le hlt)
  cases z with
  | nil => simp at hlt
  | cons c z =>
    have hc := hv c rfl
    simp only [byteSize_append, byteSize_cons] at hle
    omega

/-- Going back never fails, and it leads to the next place. -/
theorem exists_placeBack? (t : Text) (n : Nat) :
    ∃ i, t.placeBack? n = some i ∧ IsGreatest {i ∈ places t | i ≤ n} i := by
  induction n with
  | zero =>
    have hzero : 0 ∈ places t := byteSize_mem_places [] t
    rw [placeBack?, if_pos (isSome_from?_iff.2 hzero)]
    exact ⟨0, rfl, ⟨hzero, Nat.le_refl 0⟩, fun j hj => hj.2⟩
  | succ n ih =>
    rw [placeBack?]
    by_cases hplace : n + 1 ∈ places t
    · rw [if_pos (isSome_from?_iff.2 hplace)]
      exact ⟨n + 1, rfl, ⟨hplace, Nat.le_refl _⟩, fun j hj => hj.2⟩
    · rw [if_neg (isSome_from?_iff.not.2 hplace)]
      obtain ⟨i, hi, hgreatest⟩ := ih
      refine ⟨i, hi, ⟨hgreatest.1.1, Nat.le_succ_of_le hgreatest.1.2⟩, fun j hj => ?_⟩
      have hne : j ≠ n + 1 := fun h => hplace (h ▸ hj.1)
      exact hgreatest.2 ⟨hj.1, Nat.le_of_lt_succ (Nat.lt_of_le_of_ne hj.2 hne)⟩

/-- A text with its last line apart, which begins the text or stands behind a line feed. -/
structure EndsWithLine (t before line : Text) : Prop where
  eq_append : t = before ++ line
  before_eq : before = [] ∨ before.getLast? = some '\n'
  lineFeed_notMem : '\n' ∉ line

theorem exists_endsWithLine (t : Text) : ∃ before line, EndsWithLine t before line := by
  induction t using List.reverseRecOn with
  | nil => exact ⟨[], [], rfl, .inl rfl, List.not_mem_nil⟩
  | append_singleton t c ih =>
    by_cases hc : c = '\n'
    · subst hc
      exact ⟨t ++ ['\n'], [], by simp, .inr (List.getLast?_concat ..), List.not_mem_nil⟩
    · obtain ⟨before, line, h⟩ := ih
      exact ⟨before, line ++ [c], by rw [h.eq_append, List.append_assoc], h.before_eq,
        by simp [h.lineFeed_notMem, Ne.symm hc]⟩

theorem lastOffset?_of_notMem {a : Char} (h : a ∉ t) : lastOffset? a t = none := by
  induction t with
  | nil => rfl
  | cons c t ih =>
    rw [List.mem_cons, not_or] at h
    rw [lastOffset?, ih h.2]
    exact if_neg (Ne.symm h.1)

theorem lastOffset?_append {a : Char} (h : a ∉ v) (u : Text) :
    lastOffset? a (u ++ a :: v) = some (byteSize u) := by
  induction u with
  | nil =>
    rw [List.nil_append, lastOffset?, lastOffset?_of_notMem h]
    exact if_pos rfl
  | cons c u ih => rw [List.cons_append, lastOffset?, ih, byteSize_cons]

/-- The last line stands behind the last line feed. -/
theorem EndsWithLine.from?_eq {before line : Text} (h : EndsWithLine t before line) :
    t.from? (((t.lastOffset? '\n').map (· + 1)).getD 0) = some line := by
  obtain ⟨rfl, rfl | hlast, hline⟩ := h
  · rw [List.nil_append, lastOffset?_of_notMem hline]
    exact from?_append [] line
  · obtain ⟨x, rfl⟩ := List.getLast?_eq_some_iff.1 hlast
    have hsize : byteSize (x ++ ['\n']) = byteSize x + 1 := by
      rw [byteSize_append]
      rfl
    have hoffset : lastOffset? '\n' (x ++ ['\n'] ++ line) = some (byteSize x) := by
      rw [List.append_assoc]
      exact lastOffset?_append hline x
    rw [hoffset, Option.map_some, Option.getD_some, ← hsize]
    exact from?_append _ _

end Text

open Text

namespace Location

variable {t u v : Text} {offset : Nat}

/-- The line counts before the column. -/
def readingOrder (l : Location) : ℕ ×ₗ ℕ :=
  toLex (l.line, l.column)

theorem readingOrder_injective : Function.Injective readingOrder := by
  rintro ⟨line, column⟩ ⟨line', column'⟩ h
  obtain ⟨rfl, rfl⟩ := Prod.mk.inj (toLex.injective h)
  rfl

instance : PartialOrder Location := .lift readingOrder readingOrder_injective

theorem lt_iff {l l' : Location} :
    l < l' ↔ l.line < l'.line ∨ l.line = l'.line ∧ l.column < l'.column :=
  Prod.Lex.toLex_lt_toLex

/-! ## Passing characters -/

theorem after_append (l : Location) (u v : Text) : l.after (u ++ v) = (l.after u).after v :=
  List.foldl_append

theorem lt_advance (l : Location) (c : Char) : l < l.advance c := by
  rw [lt_iff, advance]
  split
  · exact .inl (Nat.lt_succ_self _)
  · exact .inr ⟨rfl, Nat.lt_succ_self _⟩

theorem le_after (l : Location) (t : Text) : l ≤ l.after t := by
  induction t generalizing l with
  | nil => exact le_refl l
  | cons c t ih => exact (lt_advance l c).le.trans (ih (l.advance c))

theorem lt_after (l : Location) (ht : t ≠ []) : l < l.after t := by
  obtain ⟨c, t, rfl⟩ := List.exists_cons_of_ne_nil ht
  exact (lt_advance l c).trans_le (le_after (l.advance c) t)

theorem line_after (l : Location) (t : Text) : (l.after t).line = l.line + t.count '\n' := by
  induction t generalizing l with
  | nil => rfl
  | cons c t ih =>
    change ((l.advance c).after t).line = _
    rw [ih, advance]
    split
    · rename_i hc
      rw [hc, List.count_cons_self]
      exact Nat.add_right_comm ..
    · rename_i hc
      rw [List.count_cons_of_ne hc]

theorem column_after_of_notMem (l : Location) (h : '\n' ∉ t) :
    (l.after t).column = l.column + t.length := by
  induction t generalizing l with
  | nil => rfl
  | cons c t ih =>
    rw [List.mem_cons, not_or] at h
    change ((l.advance c).after t).column = _
    rw [ih _ h.2, advance, if_neg (Ne.symm h.1), List.length_cons]
    exact Nat.add_right_comm ..

/-- Behind a text, the line feeds give the line, and the last line gives the column. -/
theorem first_after_eq {before line : Text} (h : EndsWithLine t before line) :
    first.after t = ⟨t.count '\n' + 1, line.length + 1⟩ := by
  have hbefore : (first.after before).column = 1 := by
    rcases h.before_eq with rfl | hlast
    · rfl
    · obtain ⟨x, rfl⟩ := List.getLast?_eq_some_iff.1 hlast
      rw [after_append]
      rfl
  have hcolumn : (first.after t).column = line.length + 1 := by
    rw [h.eq_append, after_append, column_after_of_notMem _ h.lineFeed_notMem, hbefore,
      Nat.add_comm]
  have hline : (first.after t).line = t.count '\n' + 1 := by
    rw [line_after]
    exact Nat.add_comm ..
  calc first.after t = ⟨(first.after t).line, (first.after t).column⟩ := rfl
    _ = _ := by rw [hline, hcolumn]

/-! ## Offsets -/

theorem ofOffset_byteSize (u v : Text) : ofOffset (u ++ v) (byteSize u) = first.after u :=
  atOffset_append first u v

theorem exists_atOffset_eq (l : Location) (offset : Nat) (t : Text) :
    ∃ u v, t = u ++ v ∧ l.atOffset offset t = l.after u ∧ byteSize u ≤ offset ∧
      ∀ c ∈ v.head?, offset < byteSize u + c.utf8Size := by
  induction t generalizing l offset with
  | nil => exact ⟨[], [], rfl, rfl, Nat.zero_le _, by simp⟩
  | cons c t ih =>
    rw [atOffset]
    by_cases hle : c.utf8Size ≤ offset
    · rw [if_pos hle]
      obtain ⟨u, v, rfl, hloc, hu, hv⟩ := ih (l.advance c) (offset - c.utf8Size)
      refine ⟨c :: u, v, rfl, hloc, ?_, fun d hd => ?_⟩
      · rw [byteSize_cons]
        omega
      · have := hv d hd
        rw [byteSize_cons]
        omega
    · rw [if_neg hle]
      refine ⟨[], c :: t, rfl, rfl, Nat.zero_le _, fun d hd => ?_⟩
      obtain rfl : c = d := Option.some.inj hd
      simpa using hle

/-- An offset has the location behind the characters that end before it. -/
theorem exists_ofOffset_eq (t : Text) (offset : Nat) :
    ∃ u v, t = u ++ v ∧ ofOffset t offset = first.after u ∧
      IsGreatest {i ∈ places t | i ≤ min offset (byteSize t)} (byteSize u) := by
  obtain ⟨u, v, rfl, hloc, hu, hv⟩ := exists_atOffset_eq first offset t
  refine ⟨u, v, rfl, hloc, isGreatest_places (Nat.le_min.2 ⟨hu, by simp⟩) fun c hc => ?_⟩
  exact Nat.lt_of_le_of_lt (Nat.min_le_left ..) (hv c hc)

theorem strictMonoOn_ofOffset (t : Text) : StrictMonoOn (ofOffset t) (places t) := by
  rintro _ ⟨u, ⟨v, rfl⟩, rfl⟩ _ ⟨x, ⟨y, hxy⟩, rfl⟩ hlt
  obtain ⟨z, rfl, rfl⟩ := exists_of_append_eq_append hxy.symm hlt.le
  have hz : z ≠ [] := by
    rintro rfl
    simp at hlt
  rw [ofOffset_byteSize, ← List.append_assoc, ofOffset_byteSize, after_append]
  exact lt_after _ hz

/-- Counting in bytes does not fail and gives the location. -/
theorem ofOffset?_eq (t : Text) (offset : Nat) :
    ofOffset? t offset = some (ofOffset t offset) := by
  obtain ⟨u, v, rfl, hloc, hgreatest⟩ := exists_ofOffset_eq t offset
  obtain ⟨i, hback, hi⟩ := exists_placeBack? (u ++ v) (min offset (byteSize (u ++ v)))
  obtain rfl := hi.unique hgreatest
  obtain ⟨before, line, h⟩ := exists_endsWithLine u
  have hcut : (u ++ v).between? 0 (byteSize u) = some u := between?_append [] u v
  rw [ofOffset?, hback]
  simp only [Option.bind_eq_bind, Option.bind_some, hcut, h.from?_eq]
  rw [hloc, first_after_eq h]
  rfl

/-- A location identifies a place of a text.

* Locations grow from place to place, so that no two places have the same one.
* Every offset, be it inside a character or past the end, has the location of the greatest place that
  is above neither the offset nor the end. Going back to it byte by byte does not fail, and what is
  counted there in the bytes is the location.
* The line is one more than the line feeds before that place. The column is one more than the
  characters between it and the last of them, or the beginning of the text. -/
theorem ofOffset_identifies (t : Text) :
    StrictMonoOn (ofOffset t) (places t) ∧ Set.InjOn (ofOffset t) (places t) ∧
      ∀ offset, ∃ u v before line, t = u ++ v ∧ EndsWithLine u before line ∧
        IsGreatest {i ∈ places t | i ≤ min offset (byteSize t)} (byteSize u) ∧
        t.placeBack? (min offset (byteSize t)) = some (byteSize u) ∧
        ofOffset? t offset = some (ofOffset t offset) ∧
        ofOffset t offset = ofOffset t (byteSize u) ∧
        (ofOffset t offset).line = u.count '\n' + 1 ∧
        (ofOffset t offset).column = line.length + 1 := by
  refine ⟨strictMonoOn_ofOffset t, (strictMonoOn_ofOffset t).injOn, fun offset => ?_⟩
  obtain ⟨u, v, rfl, hloc, hgreatest⟩ := exists_ofOffset_eq t offset
  obtain ⟨before, line, h⟩ := exists_endsWithLine u
  obtain ⟨i, hback, hi⟩ := exists_placeBack? (u ++ v) (min offset (byteSize (u ++ v)))
  have hplace : ofOffset (u ++ v) offset = ofOffset (u ++ v) (byteSize u) := by
    rw [hloc, ofOffset_byteSize]
  have hcounted : ofOffset (u ++ v) offset = ⟨u.count '\n' + 1, line.length + 1⟩ := by
    rw [hloc, first_after_eq h]
  exact ⟨u, v, before, line, rfl, h, hgreatest, hi.unique hgreatest ▸ hback, ofOffset?_eq _ offset,
    hplace, congrArg Location.line hcounted, congrArg Location.column hcounted⟩

/-- An offset inside the character of two bytes behind a line feed. -/
example : ofOffset? "a\né".toList 3 = some ⟨2, 1⟩ := by
  decide

end Location

end Markdown
