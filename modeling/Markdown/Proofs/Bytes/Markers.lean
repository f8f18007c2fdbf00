import Markdown.Proofs.Bytes.Tables

/-!
# Where a span closes

The closing marker of a span is the nearest place of its marker, if that is on the line. The search
in the text (`Delimiter.closing?_eq_some_iff`) and the look into the tables
(`ByteTable.closeAt?_eq_some_iff`) both find it: at a byte that is not the first one of a character
no marker stands, and what stands at an offset ends on the line if it has no line feed.
-/

namespace Markdown

open Text

variable {u w m g : Text} {c : Char} {i n j largest : Nat}

/-! ## The nearest place of a marker -/

/-- A marker stands in a text behind `g`, and nowhere nearer. -/
structure IsNearest (m w g : Text) : Prop where
  exists_eq : ∃ r, w = g ++ m ++ r
  le_length : ∀ x y, w = x ++ m ++ y → g.length ≤ x.length

theorem isNearest_iff_of_isPrefix (h : m <+: w) : IsNearest m w g ↔ g = [] := by
  obtain ⟨r, hr⟩ := h
  constructor
  · intro hg
    exact List.eq_nil_of_length_eq_zero (Nat.le_zero.1 (hg.le_length [] r (by simpa using hr.symm)))
  · rintro rfl
    exact ⟨⟨r, by simpa using hr.symm⟩, fun x y _ => Nat.zero_le _⟩

theorem isNearest_cons_iff (h : ¬ m <+: c :: w) :
    IsNearest m (c :: w) g ↔ ∃ g', g = c :: g' ∧ IsNearest m w g' := by
  -- the marker is behind at least one character
  have hcons {x y : Text} (hx : c :: w = x ++ m ++ y) : ∃ x', x = c :: x' ∧ w = x' ++ m ++ y := by
    cases x with
    | nil => exact absurd ⟨y, by simpa using hx.symm⟩ h
    | cons d x =>
      obtain ⟨rfl, hw⟩ := List.cons.inj hx
      exact ⟨x, rfl, hw⟩
  constructor
  · rintro ⟨⟨r, hr⟩, hle⟩
    obtain ⟨g', rfl, hg'⟩ := hcons hr
    refine ⟨g', rfl, ⟨r, hg'⟩, fun x y hx => ?_⟩
    simpa using hle (c :: x) y (by rw [hx]; rfl)
  · rintro ⟨g', rfl, ⟨r, hr⟩, hle⟩
    refine ⟨⟨r, by rw [hr]; rfl⟩, fun x y hx => ?_⟩
    obtain ⟨x', rfl, hx'⟩ := hcons hx
    simpa using hle x' y hx'

/-- Behind a character other than a line feed, where a marker is nearest on the line depends on the
rest of the line only. -/
theorem exists_isNearest_cons_iff (hc : c ≠ '\n') (h : ¬ m <+: c :: w) {P : Text → Prop} :
    (∃ g, IsNearest m (c :: w) g ∧ '\n' ∉ g ++ m ∧ P g) ↔
      ∃ g, IsNearest m w g ∧ '\n' ∉ g ++ m ∧ P (c :: g) := by
  simp only [isNearest_cons_iff h]
  constructor
  · rintro ⟨_, ⟨g, rfl, hg⟩, hlf, hP⟩
    exact ⟨g, hg, by simpa [Ne.symm hc] using hlf, hP⟩
  · rintro ⟨g, hg, hlf, hP⟩
    exact ⟨c :: g, ⟨g, rfl, hg⟩, by simpa [Ne.symm hc] using hlf, hP⟩

/-- Behind a line feed at which it does not begin, a marker is on another line. -/
theorem IsNearest.lineFeed_mem (h : ¬ m <+: '\n' :: w) (hg : IsNearest m ('\n' :: w) g) :
    '\n' ∈ g ++ m := by
  obtain ⟨g', rfl, -⟩ := (isNearest_cons_iff h).1 hg
  exact List.mem_cons_self

theorem not_isNearest_nil (hm : m ≠ []) : ¬ IsNearest m [] g := by
  rintro ⟨⟨r, hr⟩, -⟩
  simp [hm] at hr

/-- The closing marker is the nearest one, if it is on the line. -/
theorem Delimiter.closing?_eq_some_iff (hm : m ≠ []) :
    closing? m n (Spot.ofText w) = some j ↔
      ∃ g, IsNearest m w g ∧ '\n' ∉ g ++ m ∧ j = n + g.length := by
  induction w generalizing n with
  | nil => simp [closing?, not_isNearest_nil hm]
  | cons c w ih =>
    rw [Spot.ofText_cons, closing?, ← Spot.ofText_cons, standsAt_ofText]
    by_cases hp : m <+: c :: w
    · rw [if_pos (List.isPrefixOf_iff_prefix.2 hp)]
      simp [isNearest_iff_of_isPrefix hp, eq_comm]
    rw [if_neg (by rwa [List.isPrefixOf_iff_prefix])]
    by_cases hc : c = '\n'
    · subst hc
      rw [if_pos rfl]
      refine iff_of_false (by simp) ?_
      rintro ⟨g, hg, hlf, -⟩
      exact hlf (hg.lineFeed_mem hp)
    · rw [if_neg hc, ih, exists_isNearest_cons_iff hc hp]
      simp only [List.length_cons, Nat.add_assoc, Nat.add_comm 1]

namespace ByteTable

theorem lineEnd_append {bytes : List UInt8} (h : '\n'.toUInt8 ∉ bytes) (i : Nat)
    (rest : List UInt8) : lineEnd i (bytes ++ rest) = lineEnd (i + bytes.length) rest := by
  induction bytes generalizing i with
  | nil => rfl
  | cons b bytes ih =>
    rw [List.mem_cons, not_or] at h
    rw [List.cons_append, lineEnd, if_neg (Ne.symm h.1), ih h.2, List.length_cons, Nat.add_assoc,
      Nat.add_comm 1]

theorem lineFeed_notMem_utf8EncodeChar (hc : c ≠ '\n') :
    '\n'.toUInt8 ∉ String.utf8EncodeChar c := by
  obtain ⟨b, bs, hbs, -⟩ := exists_utf8EncodeChar c
  rw [hbs, List.mem_cons, not_or]
  refine ⟨fun h => hc ((tellsAscii hbs '\n' (by decide)).1 h.symm), fun h => ?_⟩
  exact ne_toUInt8 hbs h (a := '\n') (by decide) rfl

theorem lineEnd_lineFeed (i : Nat) (w : Text) : lineEnd i (utf8 ('\n' :: w)) = i := rfl

theorem lineEnd_append_text (hu : '\n' ∉ u) (i : Nat) (w : Text) :
    lineEnd i (utf8 (u ++ w)) = lineEnd (i + byteSize u) (utf8 w) := by
  have hbytes : '\n'.toUInt8 ∉ utf8 u := fun hm => by
    obtain ⟨c, hc, hm⟩ := List.mem_flatMap.1 hm
    exact lineFeed_notMem_utf8EncodeChar (fun h => hu (h ▸ hc)) hm
  rw [utf8_append, lineEnd_append hbytes, length_utf8]

theorem le_lineEnd (i : Nat) (bytes : List UInt8) : i ≤ lineEnd i bytes := by
  induction bytes generalizing i with
  | nil => exact Nat.le_refl i
  | cons b bytes ih =>
    rw [lineEnd]
    split_ifs
    · exact Nat.le_refl i
    · exact Nat.le_of_succ_le (ih (i + 1))

/-- What stands at an offset ends on the line if it holds no line feed. -/
theorem le_lineEnd_iff (m r : Text) (i : Nat) :
    i + byteSize m ≤ lineEnd i (utf8 (m ++ r)) ↔ '\n' ∉ m := by
  constructor
  · intro h hm
    obtain ⟨x, y, rfl, hx⟩ := List.eq_append_cons_of_mem hm
    rw [List.append_assoc, lineEnd_append_text hx, List.cons_append, lineEnd_lineFeed] at h
    rw [byteSize_append, byteSize_cons] at h
    have := Char.utf8Size_pos '\n'
    omega
  · intro hm
    rw [lineEnd_append_text hm]
    exact le_lineEnd _ _

theorem nextStart_of_isPrefix (hm : m ≠ []) (h : m <+: w) (largest i : Nat) :
    nextStart largest (utf8 m) i (utf8 w) = i := by
  have hbytes := utf8_isPrefix_iff.2 h
  have hne : utf8 w ≠ [] := by
    obtain ⟨c, m, rfl⟩ := List.exists_cons_of_ne_nil hm
    obtain ⟨r, rfl⟩ := h
    simp [String.utf8EncodeChar_ne_nil]
  obtain ⟨b, bytes, hw⟩ := List.exists_cons_of_ne_nil hne
  rw [hw] at hbytes ⊢
  rw [nextStart, if_pos (List.isPrefixOf_iff_prefix.2 hbytes)]

/-- A marker that does not stand at a character does not stand at any byte of it. -/
theorem nextStart_cons (hm : m ≠ []) (h : ¬ m <+: c :: w) (largest i : Nat) :
    nextStart largest (utf8 m) i (utf8 (c :: w)) =
      nextStart largest (utf8 m) (i + c.utf8Size) (utf8 w) := by
  obtain ⟨b, bs, hc, -, hbs⟩ := exists_utf8EncodeChar c
  have hskip : ∀ (bs : List UInt8) (i : Nat), (∀ x ∈ bs, ¬ x.IsUTF8FirstByte) →
      nextStart largest (utf8 m) i (bs ++ utf8 w) =
        nextStart largest (utf8 m) (i + bs.length) (utf8 w) := by
    intro bs
    induction bs with
    | nil => exact fun i _ => rfl
    | cons x bs ih =>
      intro i hbs
      have hnot : ¬ utf8 m <+: x :: bs ++ utf8 w := fun hp => by
        obtain ⟨d, m, rfl⟩ := List.exists_cons_of_ne_nil hm
        obtain ⟨b, bs', hd, hfirst, -⟩ := exists_utf8EncodeChar d
        rw [utf8_cons, hd] at hp
        obtain rfl := (List.cons_prefix_cons.1 hp).1
        exact hbs b List.mem_cons_self hfirst
      rw [List.cons_append, nextStart, if_neg (by rwa [List.isPrefixOf_iff_prefix]),
        ih _ fun y hy => hbs y (List.mem_cons_of_mem x hy), List.length_cons, Nat.add_assoc,
        Nat.add_comm 1]
  have hfirst : ¬ utf8 m <+: utf8 (c :: w) := by rwa [utf8_isPrefix_iff]
  rw [utf8_cons, hc, List.cons_append] at hfirst ⊢
  rw [nextStart, if_neg (by rwa [List.isPrefixOf_iff_prefix]), hskip bs _ hbs,
    ← String.length_utf8EncodeChar, hc, List.length_cons, Nat.add_assoc, Nat.add_comm 1]

theorem le_nextStart {bytes : List UInt8} (needle : List UInt8) (h : i + bytes.length ≤ largest) :
    i ≤ nextStart largest needle i bytes := by
  induction bytes generalizing i with
  | nil => exact h
  | cons b bytes ih =>
    rw [List.length_cons] at h
    rw [nextStart]
    split_ifs
    · exact Nat.le_refl i
    · exact Nat.le_of_succ_le (ih (by omega))

/-- A marker stands at an offset if it is the first place where it does. -/
theorem nextStart_eq_iff (hm : m ≠ []) (h : i + byteSize w < largest) :
    nextStart largest (utf8 m) i (utf8 w) = i ↔ m <+: w := by
  constructor
  · intro heq
    cases w with
    | nil =>
      rw [byteSize_nil] at h
      exact absurd heq (Nat.ne_of_gt h)
    | cons c w =>
      refine Decidable.byContradiction fun hnot => ?_
      have hpos := c.utf8Size_pos
      rw [byteSize_cons] at h
      have hfits : i + c.utf8Size + (utf8 w).length ≤ largest := by
        rw [length_utf8]
        omega
      have hle := le_nextStart (utf8 m) hfits
      rw [← nextStart_cons hm hnot, heq] at hle
      omega
  · exact fun h => nextStart_of_isPrefix hm h largest i

/-- Where the closing marker begins of a span whose content begins at an offset. -/
def closeAt? (largest : Nat) (m w : Text) (i : Nat) : Option Nat :=
  (checkedAdd largest (nextStart largest (utf8 m) i (utf8 w)) (byteSize m)).bind fun stop =>
    if stop > lineEnd i (utf8 w) then none else some (nextStart largest (utf8 m) i (utf8 w))

theorem closeAt?_nil (hm : m ≠ []) (largest i : Nat) : closeAt? largest m [] i = none := by
  have hpos := byteSize_pos hm
  have hover : ¬ largest + byteSize m ≤ largest := by omega
  simp [closeAt?, nextStart, checkedAdd, hover]

/-- A span closes at once if its marker stands there, and if the marker is on the line. -/
theorem closeAt?_of_isPrefix (hm : m ≠ []) (hp : m <+: w) (h : i + byteSize w < largest) :
    closeAt? largest m w i = if '\n' ∈ m then none else some i := by
  obtain ⟨r, rfl⟩ := hp
  have hsum : i + byteSize m ≤ largest := by
    rw [byteSize_append] at h
    omega
  rw [closeAt?, nextStart_of_isPrefix hm (List.prefix_append m r), checkedAdd, if_pos hsum,
    Option.bind_some]
  simp only [gt_iff_lt, ← Nat.not_le, le_lineEnd_iff, Decidable.not_not]

/-- At a line feed nothing closes, if the marker does not stand there. -/
theorem closeAt?_lineFeed (hm : m ≠ []) (hp : ¬ m <+: '\n' :: w)
    (h : i + byteSize ('\n' :: w) < largest) : closeAt? largest m ('\n' :: w) i = none := by
  have hpos := byteSize_pos hm
  have hfits : i + '\n'.utf8Size + (utf8 w).length ≤ largest := by
    rw [byteSize_cons] at h
    rw [length_utf8]
    omega
  have hle := le_nextStart (utf8 m) hfits
  rw [← nextStart_cons hm hp] at hle
  rw [closeAt?, Option.bind_eq_none_iff]
  intro stop hstop
  have hsum : nextStart largest (utf8 m) i (utf8 ('\n' :: w)) + byteSize m = stop := by
    unfold checkedAdd at hstop
    split_ifs at hstop
    exact Option.some.inj hstop
  rw [lineEnd_lineFeed, if_pos (by omega)]

/-- At any other character, where a span closes depends on what stands behind it. -/
theorem closeAt?_cons (hm : m ≠ []) (hp : ¬ m <+: c :: w) (hc : c ≠ '\n') (largest i : Nat) :
    closeAt? largest m (c :: w) i = closeAt? largest m w (i + c.utf8Size) := by
  have hline : lineEnd i (utf8 (c :: w)) = lineEnd (i + c.utf8Size) (utf8 w) := by
    simpa using lineEnd_append_text (u := [c]) (by simpa using Ne.symm hc) i w
  rw [closeAt?, nextStart_cons hm hp, hline, closeAt?]

theorem closeAt?_eq_some_iff (hm : m ≠ []) (h : i + byteSize w < largest) :
    closeAt? largest m w i = some j ↔
      ∃ g, IsNearest m w g ∧ '\n' ∉ g ++ m ∧ j = i + byteSize g := by
  induction w generalizing i with
  | nil => simp [closeAt?_nil hm, not_isNearest_nil hm]
  | cons c w ih =>
    by_cases hp : m <+: c :: w
    · rw [closeAt?_of_isPrefix hm hp h]
      simp [isNearest_iff_of_isPrefix hp, eq_comm]
    by_cases hc : c = '\n'
    · subst hc
      rw [closeAt?_lineFeed hm hp h]
      refine iff_of_false (by simp) ?_
      rintro ⟨g, hg, hlf, -⟩
      exact hlf (hg.lineFeed_mem hp)
    · have hbelow : i + c.utf8Size + byteSize w < largest := by
        rw [byteSize_cons] at h
        omega
      rw [closeAt?_cons hm hp hc, exists_isNearest_cons_iff hc hp]
      simpa only [byteSize_cons, Nat.add_assoc] using ih hbelow

end ByteTable

end Markdown
