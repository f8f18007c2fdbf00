import Mathlib.Tactic.SplitIfs
import Markdown.Text.Basic

/-!
# Texts as bytes

The bytes of a text are those of its UTF-8 form. An offset into the bytes names a place of the text
if a character begins there or the text ends there; otherwise it is inside a character.
-/

namespace Markdown.Text

/-- The bytes of the UTF-8 form. -/
def utf8 (t : Text) : List UInt8 :=
  t.flatMap String.utf8EncodeChar

/-- The text from a byte offset on, unless the offset is inside a character or past the end. -/
def from? : Text → Nat → Option Text
  | t, 0 => some t
  | [], _ + 1 => none
  | c :: t, n + 1 => if c.utf8Size ≤ n + 1 then from? t (n + 1 - c.utf8Size) else none

/-- The text between two byte offsets, none of which may be inside a character or past the end. -/
def between? (t : Text) (a b : Nat) : Option Text := do
  let behindA ← t.from? a
  let behindB ← t.from? b
  if a ≤ b then some (behindA.take (behindA.length - behindB.length)) else none

variable {t u v w m : Text} {c d : Char} {i : Nat}

@[simp] theorem utf8_nil : utf8 [] = [] := rfl

@[simp] theorem utf8_cons (c : Char) (t : Text) :
    utf8 (c :: t) = String.utf8EncodeChar c ++ utf8 t := List.flatMap_cons

@[simp] theorem utf8_append (u v : Text) : utf8 (u ++ v) = utf8 u ++ utf8 v :=
  List.flatMap_append

@[simp] theorem length_utf8 (t : Text) : (utf8 t).length = byteSize t := by
  induction t with
  | nil => rfl
  | cons c t ih => simp [ih]

theorem byteSize_pos (h : t ≠ []) : 0 < byteSize t := by
  obtain ⟨c, t, rfl⟩ := List.exists_cons_of_ne_nil h
  rw [byteSize_cons]
  exact Nat.add_pos_left c.utf8Size_pos _

theorem eq_nil_of_byteSize_eq_zero (h : byteSize t = 0) : t = [] := by
  cases t with
  | nil => rfl
  | cons c t => exact absurd h (Nat.ne_of_gt (byteSize_pos (List.cons_ne_nil c t)))

/-- Of two texts in front of places of a text, the one with fewer bytes is the beginning of the
other one. -/
theorem exists_of_append_eq_append {x y : Text} (h : u ++ v = x ++ y)
    (hle : byteSize u ≤ byteSize x) : ∃ z, x = u ++ z ∧ v = z ++ y := by
  rcases List.append_eq_append_iff.1 h with hz | ⟨z, rfl, rfl⟩
  · exact hz
  · rw [byteSize_append] at hle
    obtain rfl := eq_nil_of_byteSize_eq_zero (t := z) (by omega)
    exact ⟨[], by simp, rfl⟩

/-! ## Places -/

theorem from?_append (u v : Text) : from? (u ++ v) (byteSize u) = some v := by
  induction u with
  | nil => cases v <;> rfl
  | cons c u ih =>
    obtain ⟨n, hn⟩ := Nat.exists_eq_add_one.2 (byteSize_pos (List.cons_ne_nil c u))
    rw [hn, List.cons_append, from?, ← hn, byteSize_cons, if_pos (Nat.le_add_right ..),
      Nat.add_sub_cancel_left, ih]

/-- The offsets that name a place are the numbers of bytes in front of it. -/
theorem from?_eq_some_iff : from? t i = some v ↔ ∃ u, t = u ++ v ∧ byteSize u = i := by
  constructor
  · intro h
    induction t generalizing i with
    | nil =>
      cases i with
      | zero => exact ⟨[], by simpa [from?] using h, rfl⟩
      | succ n => simp [from?] at h
    | cons c t ih =>
      cases i with
      | zero => exact ⟨[], by simpa [from?] using h, rfl⟩
      | succ n =>
        rw [from?] at h
        split at h
        · rename_i hle
          obtain ⟨u, rfl, hu⟩ := ih h
          exact ⟨c :: u, rfl, by rw [byteSize_cons, hu, Nat.add_sub_cancel' hle]⟩
        · simp at h
  · rintro ⟨u, rfl, rfl⟩
    exact from?_append u v

theorem between?_append (u v w : Text) :
    between? (u ++ v ++ w) (byteSize u) (byteSize (u ++ v)) = some v := by
  have hu : from? (u ++ v ++ w) (byteSize u) = some (v ++ w) := by
    rw [List.append_assoc, from?_append]
  rw [between?, hu, from?_append]
  simp

/-- Every byte belongs to a character. -/
theorem exists_char_at (h : i < byteSize t) :
    ∃ u c v, t = u ++ c :: v ∧ byteSize u ≤ i ∧ i < byteSize u + c.utf8Size := by
  induction t generalizing i with
  | nil => simp at h
  | cons d t ih =>
    by_cases hd : i < d.utf8Size
    · exact ⟨[], d, t, rfl, by simp, by simpa using hd⟩
    · rw [byteSize_cons] at h
      obtain ⟨u, c, v, rfl, hle, hlt⟩ := ih (i := i - d.utf8Size) (by omega)
      refine ⟨d :: u, c, v, rfl, ?_, ?_⟩
      · rw [byteSize_cons]
        omega
      · rw [byteSize_cons]
        omega

/-- No place is inside a character. -/
theorem from?_eq_none (h : byteSize u < i) (hi : i < byteSize u + c.utf8Size) :
    from? (u ++ c :: v) i = none := by
  rw [Option.eq_none_iff_forall_ne_some]
  intro w hw
  obtain ⟨x, hx, rfl⟩ := from?_eq_some_iff.1 hw
  -- the text in front of such a place would be longer than `u`, but not longer than `u` and `c`
  rcases List.append_eq_append_iff.1 hx with ⟨y, hy, hcv⟩ | ⟨y, rfl, -⟩
  · subst hy
    cases y with
    | nil => simp at h
    | cons d y =>
      obtain rfl := (List.cons.inj hcv).1
      simp only [byteSize_append, byteSize_cons] at hi
      omega
  · rw [byteSize_append] at h
    omega

/-! ## Bytes -/

/-- The byte at an offset belongs to the character there. -/
theorem getElem?_utf8 (u : Text) (c : Char) (v : Text) {j : Nat} (hj : j < c.utf8Size) :
    (utf8 (u ++ c :: v))[byteSize u + j]? = (String.utf8EncodeChar c)[j]? := by
  have hlen : j < (String.utf8EncodeChar c).length := by simpa using hj
  rw [utf8_append, utf8_cons, List.getElem?_append_right (by simp), length_utf8,
    Nat.add_sub_cancel_left, List.getElem?_append_left hlen]

theorem drop_utf8 (u v : Text) : (utf8 (u ++ v)).drop (byteSize u) = utf8 v := by
  rw [utf8_append, ← length_utf8, List.drop_left]

/-- An ASCII character is one byte; the bytes of all others are different from those. -/
theorem utf8EncodeChar_cases (c : Char) :
    (c.toNat < 128 ∧ String.utf8EncodeChar c = [c.toUInt8]) ∨
      (128 ≤ c.toNat ∧ ∀ x ∈ String.utf8EncodeChar c, 128 ≤ x.toNat) := by
  have hge (n : Nat) (hn : 128 ≤ n % 256) : 128 ≤ (UInt8.ofNat n).toNat := by
    rwa [UInt8.toNat_ofNat']
  unfold String.utf8EncodeChar
  change (c.toNat < 128 ∧
      (if c.toNat ≤ 0x7f then _ else if c.toNat ≤ 0x7ff then _ else _) = _) ∨
    (128 ≤ c.toNat ∧
      ∀ x ∈ (if c.toNat ≤ 0x7f then _ else if c.toNat ≤ 0x7ff then _ else _), _)
  split_ifs
  · exact .inl ⟨by omega, rfl⟩
  all_goals
    refine .inr ⟨by omega, ?_⟩
    simp only [List.forall_mem_cons, List.not_mem_nil, false_implies, implies_true, and_true]
  · exact ⟨hge _ (by omega), hge _ (by omega)⟩
  · exact ⟨hge _ (by omega), hge _ (by omega), hge _ (by omega)⟩
  · exact ⟨hge _ (by omega), hge _ (by omega), hge _ (by omega), hge _ (by omega)⟩

/-- The first byte of a character is none that stands further back in a character. -/
theorem exists_utf8EncodeChar (c : Char) :
    ∃ b bs, String.utf8EncodeChar c = b :: bs ∧ b.IsUTF8FirstByte ∧
      ∀ x ∈ bs, ¬ x.IsUTF8FirstByte := by
  obtain ⟨b, bs, hc⟩ := List.exists_cons_of_ne_nil (String.utf8EncodeChar_ne_nil (c := c))
  have hfirst (i : Nat) (hi : i < (b :: bs).length) : (b :: bs)[i].IsUTF8FirstByte ↔ i = 0 := by
    have := @UInt8.isUTF8FirstByte_getElem_utf8EncodeChar c i (hc ▸ hi)
    simpa only [hc] using this
  refine ⟨b, bs, hc, (hfirst 0 (by simp)).2 rfl, fun x hx => ?_⟩
  obtain ⟨i, hi, rfl⟩ := List.getElem_of_mem hx
  exact fun h => absurd ((hfirst (i + 1) (by simpa using hi)).1 h) (by simp)

/-- Two characters whose bytes begin alike are the same. -/
theorem eq_of_utf8EncodeChar_append {x y : List UInt8}
    (h : String.utf8EncodeChar c ++ x = String.utf8EncodeChar d ++ y) : c = d := by
  have hdecode (c : Char) (x : List UInt8) :
      (String.utf8EncodeChar c ++ x).toByteArray.utf8DecodeChar? 0 = some c := by
    rw [List.toByteArray_append]
    exact ByteArray.utf8DecodeChar?_utf8EncodeChar_append
  exact Option.some.inj ((hdecode c x).symm.trans (h ▸ hdecode d y))

/-- The bytes of a text begin with those of another if the texts do so. -/
theorem utf8_isPrefix_iff : utf8 m <+: utf8 t ↔ m <+: t := by
  constructor
  · intro h
    induction m generalizing t with
    | nil => exact List.nil_prefix
    | cons c m ih =>
      obtain ⟨x, hx⟩ := h
      cases t with
      | nil => simp at hx
      | cons d t =>
        rw [utf8_cons, utf8_cons, List.append_assoc] at hx
        obtain rfl := eq_of_utf8EncodeChar_append hx
        exact List.cons_prefix_cons.2 ⟨rfl, ih ⟨x, List.append_cancel_left hx⟩⟩
  · rintro ⟨r, rfl⟩
    rw [utf8_append]
    exact List.prefix_append ..

end Markdown.Text
