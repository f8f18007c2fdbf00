import Markdown.Proofs.Bytes.Tables
import Mathlib.Data.Nat.Init

/-!
# Tags ahead

The table of the places inside of a tag is filled backwards from the tables of the closing tags and of
the `>` on each line. Each of these says whether something stands ahead before the search stops
(`ahead_iff`); nested into each other, they say that a `>` is ahead, no `/` or `<` in between, with a
closing tag further on its line.
-/

namespace Markdown.ByteTable

open Text

variable {t : Text} {i k : Nat}

/-- None of some characters of ASCII stands at an offset from one on and below another. -/
def NoneBetween (bytes : List UInt8) (stops : List Char) (i j : Nat) : Prop :=
  ∀ l, i ≤ l → l < j → ∀ c ∈ stops, bytes[l]? ≠ some c.toUInt8

/-- At an offset begins a closing tag: `</`, a character that is no line feed, and a `>` further on the
line. -/
def IsClosingTag (t : Text) (k : Nat) : Prop :=
  ∃ c v w, t.from? k = some ('<' :: '/' :: c :: (v ++ '>' :: w)) ∧ c ≠ '\n' ∧ '\n' ∉ v

/-- What a table says that is filled backwards, each entry from what the byte there is or else from the
next entry, unless the byte stops the search. -/
theorem ahead_iff {bytes : List UInt8} {stops : List Char} {f : Nat → Bool} {Hit : Nat → Prop}
    (hend : f bytes.length = false)
    (hstep : ∀ i < bytes.length, f i = true ↔
      (∀ c ∈ stops, bytes[i]? ≠ some c.toUInt8) ∧ (Hit i ∨ f (i + 1) = true))
    (hhit : ∀ j, Hit j → j < bytes.length ∧ ∀ c ∈ stops, bytes[j]? ≠ some c.toUInt8)
    (hi : i ≤ bytes.length) :
    f i = true ↔ ∃ j, i ≤ j ∧ Hit j ∧ NoneBetween bytes stops i j := by
  induction hi using Nat.decreasingInduction with
  | self =>
    rw [hend]
    constructor
    · simp
    · rintro ⟨j, hj, h, -⟩
      exact absurd (hhit j h).1 (Nat.not_lt.2 hj)
  | of_succ i hi ih =>
    rw [hstep i hi, ih]
    constructor
    · rintro ⟨hi, h | ⟨j, hj, h, hnone⟩⟩
      · exact ⟨i, Nat.le_refl i, h, fun l hl hl' => by omega⟩
      · refine ⟨j, by omega, h, fun l hl hl' => ?_⟩
        rcases Nat.eq_or_lt_of_le hl with rfl | hl
        · exact hi
        · exact hnone l hl hl'
    · rintro ⟨j, hj, h, hnone⟩
      rcases Nat.eq_or_lt_of_le hj with rfl | hj
      · exact ⟨(hhit i h).2, .inl h⟩
      · exact ⟨hnone i (Nat.le_refl i) hj, .inr ⟨j, hj, h, fun l hl => hnone l (by omega)⟩⟩

/-! ## Closing tags -/

/-- A `>` is on the line. -/
theorem tagEndAhead_iff :
    (Outlook.ofText t).tagEndAhead = true ↔ ∃ v w, t = v ++ '>' :: w ∧ '\n' ∉ v := by
  induction t with
  | nil => simp [Outlook.ofText, Spot.ahead, Outlook.atEnd]
  | cons c t ih =>
    have hcons : (Outlook.ofText (c :: t)).tagEndAhead =
        (c != '\n' && (c == '>' || (Outlook.ofText t).tagEndAhead)) := rfl
    simp only [hcons, Bool.and_eq_true, Bool.or_eq_true, bne_iff_ne, beq_iff_eq, ih]
    constructor
    · rintro ⟨hc, rfl | ⟨v, w, rfl, hv⟩⟩
      · exact ⟨[], t, rfl, by simp⟩
      · exact ⟨c :: v, w, rfl, by simp [hv, hc.symm]⟩
    · rintro ⟨v, w, h, hv⟩
      cases v with
      | nil =>
        obtain ⟨rfl, -⟩ := List.cons.inj h
        exact ⟨by decide, .inl rfl⟩
      | cons d v =>
        obtain ⟨rfl, rfl⟩ := List.cons.inj h
        rw [List.mem_cons, not_or] at hv
        exact ⟨Ne.symm hv.1, .inr ⟨v, w, rfl, hv.2⟩⟩

/-- What completes a `<` to a closing tag. -/
theorem completesClosingTag_iff :
    Spot.completesClosingTag (Spot.ofText t) = true ↔
      ∃ c v w, t = '/' :: c :: (v ++ '>' :: w) ∧ c ≠ '\n' ∧ '\n' ∉ v := by
  match t with
  | [] => simp [Spot.completesClosingTag]
  | [d] => simp [Spot.ofText_cons, Spot.completesClosingTag]
  | d :: c :: t =>
    have hcons : Spot.completesClosingTag (Spot.ofText (d :: c :: t)) =
        (d == '/' && c != '\n' && (Outlook.ofText t).tagEndAhead) := rfl
    simp only [hcons, Bool.and_eq_true, beq_iff_eq, bne_iff_ne, tagEndAhead_iff]
    constructor
    · rintro ⟨⟨rfl, hc⟩, v, w, rfl, hv⟩
      exact ⟨c, v, w, rfl, hc, hv⟩
    · rintro ⟨c', v, w, h, hc, hv⟩
      obtain ⟨rfl, htail⟩ := List.cons.inj h
      obtain ⟨rfl, rfl⟩ := List.cons.inj htail
      exact ⟨⟨rfl, hc⟩, v, w, rfl, hv⟩

theorem isClosingTag_iff :
    IsClosingTag t k ↔ (utf8 t)[k]? = some '<'.toUInt8 ∧ completesAt t (k + 1) = true := by
  constructor
  · rintro ⟨c, v, w, hfrom, hc, hv⟩
    obtain ⟨u, rfl, rfl⟩ := from?_eq_some_iff.1 hfrom
    exact ⟨(getElem?_utf8_eq_iff (by decide) u _).2 rfl,
      (completesAt_append u _).trans (completesClosingTag_iff.2 ⟨c, v, w, rfl, hc, hv⟩)⟩
  · rintro ⟨hk, hcompletes⟩
    obtain ⟨u, v, rfl, rfl⟩ := exists_of_getElem?_utf8 (by decide) hk
    rw [completesAt_append, completesClosingTag_iff] at hcompletes
    obtain ⟨c, v, w, rfl, hc, hv⟩ := hcompletes
    exact ⟨c, v, w, from?_append u _, hc, hv⟩

/-! ## The tables -/

/-- The byte of a character is not the byte of another one. -/
theorem getElem?_ne {bytes : List UInt8} {a : Char} {j : Nat} (h : bytes[j]? = some a.toUInt8)
    {stops : List Char} (ha : a.toUInt8 ∉ stops.map Char.toUInt8) :
    j < bytes.length ∧ ∀ c ∈ stops, bytes[j]? ≠ some c.toUInt8 := by
  refine ⟨(List.getElem?_eq_some_iff.1 h).1, fun c hc hj => ha ?_⟩
  rw [Option.some.inj (h.symm.trans hj)]
  exact List.mem_map_of_mem hc

theorem closingTagAhead_iff (hi : i ≤ (utf8 t).length) :
    (outlookAt t i).closingTagAhead = true ↔
      ∃ k, i ≤ k ∧ IsClosingTag t k ∧ NoneBetween (utf8 t) ['\n'] i k := by
  refine ahead_iff (f := fun i => (outlookAt t i).closingTagAhead) ?_ (fun i hi => ?_)
    (fun k hk => getElem?_ne (isClosingTag_iff.1 hk).1 (by decide)) hi
  · rw [length_utf8, outlookAt_byteSize]
    rfl
  · obtain ⟨b, hb, hstep⟩ := exists_outlookAt_eq (length_utf8 t ▸ hi)
    rw [isClosingTag_iff, hb, hstep]
    simp [before]

theorem insideTag_iff (hi : i ≤ (utf8 t).length) :
    (outlookAt t i).insideTag = true ↔
      ∃ j, i ≤ j ∧ ((utf8 t)[j]? = some '>'.toUInt8 ∧
        (outlookAt t (j + 1)).closingTagAhead = true) ∧ NoneBetween (utf8 t) ['/', '<'] i j := by
  refine ahead_iff (f := fun i => (outlookAt t i).insideTag) ?_ (fun i hi => ?_)
    (fun j hj => getElem?_ne hj.1 (by decide)) hi
  · rw [length_utf8, outlookAt_byteSize]
    rfl
  · obtain ⟨b, hb, hstep⟩ := exists_outlookAt_eq (length_utf8 t ▸ hi)
    rw [hb, hstep]
    simp [before, and_assoc]

/-- The table of the places inside of a tag is computed for every text, with an entry for each offset
and the end, and no cut of the text is inside a character. An entry is true if from its offset on a `>`
is ahead with no `/` or `<` in front of it, and a closing tag begins behind that `>` on its line. -/
theorem insideTag_closingTag (t : Text) :
    ∃ table, insideTag t = some table ∧ table.size = (utf8 t).length + 1 ∧
      ∀ i ≤ (utf8 t).length, (table[i]? = some true ↔
        ∃ j, i ≤ j ∧ (utf8 t)[j]? = some '>'.toUInt8 ∧ NoneBetween (utf8 t) ['/', '<'] i j ∧
          ∃ k, j < k ∧ IsClosingTag t k ∧ NoneBetween (utf8 t) ['\n'] (j + 1) k) := by
  obtain ⟨table, htable, hfilled⟩ := exists_insideTag t
  refine ⟨table, htable, by rw [hfilled.size, length_utf8], fun i hi => ?_⟩
  have hbehind {j : Nat} (hbyte : (utf8 t)[j]? = some '>'.toUInt8) :=
    closingTagAhead_iff (t := t) (List.getElem?_eq_some_iff.1 hbyte).1
  rw [hfilled.get i (Nat.zero_le i) (length_utf8 t ▸ hi), Option.some_inj, insideTag_iff hi]
  constructor
  · rintro ⟨j, hj, ⟨hbyte, hclosing⟩, hnone⟩
    exact ⟨j, hj, hbyte, hnone, (hbehind hbyte).1 hclosing⟩
  · rintro ⟨j, hj, hbyte, hnone, hclosing⟩
    exact ⟨j, hj, ⟨hbyte, (hbehind hbyte).2 hclosing⟩, hnone⟩

-- a `</>` has no character between the slash and its `>`
example : insideTag "b></i>".toList = some #[true, true, false, false, false, false, false] ∧
    insideTag "b></>".toList = some (.replicate 6 false) := by decide +kernel

end Markdown.ByteTable
