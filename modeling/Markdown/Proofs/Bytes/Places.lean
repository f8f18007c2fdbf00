import Markdown.Text.Utf8

/-!
# Byte offsets of a text

An offset is in front of a character or inside of one. In front of a character stands its first byte,
by which an ASCII character can be recognised; inside of a character stand bytes that no character
begins with, and that are none of ASCII (`Text.offset_cases`).

A text stands at an offset of the bytes of another one if it stands in that text, unless it is empty
(`Text.exists_of_utf8_isPrefix_drop`).
-/

namespace Markdown.Text

variable {t u v m : Text} {c : Char} {i : Nat} {b : UInt8} {bs : List UInt8}

/-- The text from the first character on that begins at an offset or behind it. -/
def charsFrom : Text → Nat → Text
  | t, 0 => t
  | [], _ + 1 => []
  | c :: t, n + 1 => charsFrom t (n + 1 - c.utf8Size)

theorem charsFrom_cons (hi : 0 < i) (c : Char) (t : Text) :
    charsFrom (c :: t) i = charsFrom t (i - c.utf8Size) := by
  obtain ⟨n, rfl⟩ := Nat.exists_eq_succ_of_ne_zero (Nat.pos_iff_ne_zero.1 hi)
  rfl

theorem charsFrom_append (u v : Text) : charsFrom (u ++ v) (byteSize u) = v := by
  induction u with
  | nil => cases v <;> rfl
  | cons c u ih =>
    rw [List.cons_append, charsFrom_cons (byteSize_pos (List.cons_ne_nil c u)), byteSize_cons,
      Nat.add_sub_cancel_left, ih]

theorem charsFrom_byteSize (t : Text) : charsFrom t (byteSize t) = [] := by
  simpa using charsFrom_append t []

/-- Behind the first byte of a character, the next character is the next to begin. -/
theorem charsFrom_inside (h : byteSize u < i) (hi : i ≤ byteSize u + c.utf8Size) :
    charsFrom (u ++ c :: v) i = v := by
  induction u generalizing i with
  | nil =>
    rw [List.nil_append, charsFrom_cons (by simpa using h), Nat.sub_eq_zero_of_le (by simpa using hi)]
    cases v <;> rfl
  | cons d u ih =>
    rw [byteSize_cons] at h hi
    rw [List.cons_append, charsFrom_cons (by omega)]
    exact ih (by omega) (by omega)

theorem toNat_toUInt8 (h : c.toNat < 128) : c.toUInt8.toNat = c.toNat := by
  change (c.val.toUInt8).toNat = c.val.toNat
  rw [UInt32.toNat_toUInt8]
  exact Nat.mod_eq_of_lt (Nat.lt_trans h (by decide))

/-- A byte is told from those of ASCII in the same way as the character that it begins. -/
def TellsAscii (b : UInt8) (c : Char) : Prop :=
  ∀ a : Char, a.toNat < 128 → (b = a.toUInt8 ↔ c = a)

theorem tellsAscii (h : String.utf8EncodeChar c = b :: bs) : TellsAscii b c := by
  intro a ha
  rcases utf8EncodeChar_cases c with ⟨hc, heq⟩ | ⟨hc, hge⟩
  · obtain ⟨rfl, -⟩ := List.cons.inj (heq.symm.trans h)
    rw [← UInt8.toNat_inj, toNat_toUInt8 ha, toNat_toUInt8 hc, Char.toNat_inj]
  · have hb : 128 ≤ b.toNat := hge b (by rw [h]; exact List.mem_cons_self)
    constructor
    · rintro rfl
      rw [toNat_toUInt8 ha] at hb
      omega
    · rintro rfl
      omega

theorem ne_toUInt8 (h : String.utf8EncodeChar c = b :: bs) {x : UInt8} (hx : x ∈ bs) {a : Char}
    (ha : a.toNat < 128) : x ≠ a.toUInt8 := by
  rintro rfl
  rcases utf8EncodeChar_cases c with ⟨-, heq⟩ | ⟨-, hge⟩
  · obtain ⟨-, rfl⟩ := List.cons.inj (heq.symm.trans h)
    simp at hx
  · have := hge _ (by rw [h]; exact List.mem_cons_of_mem b hx)
    rw [toNat_toUInt8 ha] at this
    omega

/-- The first byte of a character tells whether it is one of ASCII. -/
theorem exists_getElem?_utf8 (u : Text) (c : Char) (v : Text) :
    ∃ b, (utf8 (u ++ c :: v))[byteSize u]? = some b ∧ TellsAscii b c := by
  obtain ⟨b, bs, hc, -⟩ := exists_utf8EncodeChar c
  have hget := getElem?_utf8 u c v (j := 0) c.utf8Size_pos
  rw [hc, Nat.add_zero] at hget
  exact ⟨b, hget, tellsAscii hc⟩

/-- An ASCII character is read off the byte in front of it. -/
theorem getElem?_utf8_eq_iff {a : Char} (ha : a.toNat < 128) (u v : Text) :
    (utf8 (u ++ v))[byteSize u]? = some a.toUInt8 ↔ v.head? = some a := by
  cases v with
  | nil => simp
  | cons c v =>
    obtain ⟨b, hget, htells⟩ := exists_getElem?_utf8 u c v
    rw [hget, List.head?_cons]
    simpa using htells a ha

/-- At each offset begins a character, with its first byte, or there is a byte further back in a
character. -/
theorem offset_cases (h : i < byteSize t) :
    (∃ u c v, t = u ++ c :: v ∧ i = byteSize u ∧ charsFrom t i = c :: v ∧ charsFrom t (i + 1) = v ∧
      ∃ b, (utf8 t)[i]? = some b ∧ b.IsUTF8FirstByte ∧ TellsAscii b c) ∨
    (t.from? i = none ∧ charsFrom t (i + 1) = charsFrom t i ∧
      ∃ b, (utf8 t)[i]? = some b ∧ ¬ b.IsUTF8FirstByte ∧
        ∀ a : Char, a.toNat < 128 → b ≠ a.toUInt8) := by
  obtain ⟨u, c, v, rfl, hle, hlt⟩ := exists_char_at h
  obtain ⟨b, bs, hc, hfirst, hbs⟩ := exists_utf8EncodeChar c
  obtain ⟨j, rfl⟩ := Nat.exists_eq_add_of_le hle
  have hget := getElem?_utf8 u c v (j := j) (by omega)
  rw [hc] at hget
  have hsize : c.utf8Size = bs.length + 1 := by rw [← String.length_utf8EncodeChar, hc]; rfl
  cases j with
  | zero =>
    refine .inl ⟨u, c, v, rfl, rfl, charsFrom_append u _, ?_, b, hget, hfirst, tellsAscii hc⟩
    exact charsFrom_inside (by omega) (by omega)
  | succ j =>
    have hj : j < bs.length := by omega
    rw [List.getElem?_cons_succ, List.getElem?_eq_getElem hj] at hget
    have hmem : bs[j] ∈ bs := List.getElem_mem hj
    refine .inr ⟨from?_eq_none (by omega) hlt, ?_, bs[j], hget, hbs _ hmem,
      fun a => ne_toUInt8 hc hmem⟩
    rw [charsFrom_inside (by omega) (by omega), charsFrom_inside (by omega) (by omega)]

/-- The byte of an ASCII character is that character. -/
theorem exists_of_getElem?_utf8 {a : Char} (ha : a.toNat < 128)
    (h : (utf8 t)[i]? = some a.toUInt8) : ∃ u v, t = u ++ a :: v ∧ i = byteSize u := by
  have hi : i < byteSize t := by
    rw [← length_utf8]
    exact (List.getElem?_eq_some_iff.1 h).1
  rcases offset_cases hi with ⟨u, c, v, ht, hu, -, -, b, hb, -, htells⟩ | ⟨-, -, b, hb, -, hne⟩
  · obtain rfl := Option.some.inj (hb.symm.trans h)
    obtain rfl := (htells a ha).1 rfl
    exact ⟨u, v, ht, hu⟩
  · exact absurd (Option.some.inj (hb.symm.trans h)) (hne a ha)

/-- Where the bytes of a text stand in those of another, the text stands in the other one. -/
theorem exists_of_utf8_isPrefix_drop (hm : m ≠ []) (h : utf8 m <+: (utf8 t).drop i) :
    ∃ u v, t = u ++ m ++ v ∧ i = byteSize u := by
  obtain ⟨d, m, rfl⟩ := List.exists_cons_of_ne_nil hm
  obtain ⟨b, bs, hd, hfirst, -⟩ := exists_utf8EncodeChar d
  have hget : (utf8 t)[i]? = some b := by
    obtain ⟨r, hr⟩ := h
    rw [← List.head?_drop, ← hr, utf8_cons, hd]
    rfl
  have hi : i < byteSize t := by
    rw [← length_utf8]
    exact (List.getElem?_eq_some_iff.1 hget).1
  rcases offset_cases hi with ⟨u, c, v, rfl, rfl, -⟩ | ⟨-, -, b', hget', hnot, -⟩
  · rw [drop_utf8, utf8_isPrefix_iff] at h
    obtain ⟨r, hr⟩ := h
    exact ⟨u, r, by rw [List.append_assoc, hr], rfl⟩
  · obtain rfl := Option.some.inj (hget'.symm.trans hget)
    exact absurd hfirst hnot

end Markdown.Text
