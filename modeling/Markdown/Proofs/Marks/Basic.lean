import Markdown.Proofs.Text.Lines
import Markdown.Proofs.Text.Occurrences
import Markdown.Proofs.Text.Trimming
import Markdown.Unicode.Ranges
import Markdown.Url

/-!
# Texts that differ in marks only

What the rules put in the place of what they take are marks for marks: markers, tags and blanks, and
the tokens of addresses. Between them a text stays as it is, though two neighbours may change places.

A durable word, such as a placeholder or a letter that is not ASCII, cannot reach into a mark, so
that texts that differ in marks only have it equally often (`Remarked.occurrences_eq`).
-/

namespace Markdown

/-! ## Marks and durable words -/

/-- The characters that make up the marks, apart from the digits in them. -/
def isMarkChar (c : Char) : Bool :=
  Unicode.isWhiteSpace c || (c.toNat < 128 && !c.isDigit && c != '\x7b' && c != '\x7d')

/-- Whether a text is a mark; its digits stand inside. -/
def isMark (a : Text) : Bool :=
  a.head?.any isMarkChar && a.getLast?.any isMarkChar && a.all fun c => isMarkChar c || c.isDigit

/-- Marks and the tokens of addresses. -/
def isMarkOrToken (a : Text) : Bool :=
  isMark a || a == Url.underscoreToken || a == Url.asteriskToken

theorem isMark_of_forall {a : Text} (hne : a ≠ []) (h : ∀ c ∈ a, isMarkChar c) : isMark a := by
  have hhead : a.head?.any isMarkChar := by
    rw [List.head?_eq_some_head hne]
    exact h _ (List.head_mem hne)
  have hlast : a.getLast?.any isMarkChar := by
    rw [List.getLast?_eq_some_getLast hne]
    exact h _ (List.getLast_mem hne)
  have hall : a.all fun c => isMarkChar c || c.isDigit := by
    rw [List.all_eq_true]
    intro c hc
    rw [h c hc, Bool.true_or]
  rw [isMark, hhead, hlast, hall]
  rfl

/-- A word that no rule can make, break or reach into. -/
structure IsDurable (w : Text) : Prop where
  notMark : ∀ c ∈ w, isMarkChar c = false
  exists_notDigit : ∃ c ∈ w, c.isDigit = false
  head_ne : w.head? ≠ some '\x7d'
  last_ne : w.getLast? ≠ some '\x7b'

namespace IsDurable

open Text

variable {w : Text} (h : IsDurable w)

include h

theorem ne_nil : w ≠ [] := by
  obtain ⟨c, hc, -⟩ := h.exists_notDigit
  exact List.ne_nil_of_mem hc

theorem notMem_of_isMarkChar {c : Char} (hc : isMarkChar c) : c ∉ w := by
  intro hw
  rw [h.notMark c hw] at hc
  exact absurd hc (by simp)

theorem occurrences_digits {d : Text} (hd : ∀ c ∈ d, c.isDigit) : occurrences w d = 0 := by
  obtain ⟨c, hc, hdigit⟩ := h.exists_notDigit
  refine occurrences_eq_zero_of_notMem hc fun hm => ?_
  rw [hd c hm] at hdigit
  exact absurd hdigit (by simp)

/-- No occurrence reaches into a mark. -/
theorem of_isMark {a : Text} (ha : isMark a) : IsClosed w a ∧ occurrences w a = 0 := by
  simp only [isMark, Bool.and_eq_true, List.all_eq_true] at ha
  obtain ⟨⟨hhead, hlast⟩, hall⟩ := ha
  have hne : a ≠ [] := by
    rintro rfl
    simp at hhead
  constructor
  · refine isClosed_of_ends hne ?_ ?_
    · intro c hc
      rw [Option.mem_def.1 hc] at hhead
      exact h.notMem_of_isMarkChar hhead
    · intro c hc
      rw [Option.mem_def.1 hc] at hlast
      exact h.notMem_of_isMarkChar hlast
  · obtain ⟨c, hc, hdigit⟩ := h.exists_notDigit
    refine occurrences_eq_zero_of_notMem hc fun hm => ?_
    have := hall c hm
    rw [h.notMark c hc, hdigit] at this
    exact absurd this (by simp)

/-- No occurrence reaches into braces around a mark. -/
theorem of_braced {a : Text} (ha : isMark a) :
    IsClosed w ('\x7b' :: a ++ ['\x7d']) ∧ occurrences w ('\x7b' :: a ++ ['\x7d']) = 0 := by
  obtain ⟨hclosed, hzero⟩ := h.of_isMark ha
  have hopen (l : Text) : occurrences w (l ++ ['\x7b']) = occurrences w l :=
    occurrences_concat_of_last h.last_ne h.ne_nil
  have hclose (r : Text) : occurrences w ('\x7d' :: r) = occurrences w r :=
    occurrences_cons_of_head h.head_ne h.ne_nil
  have hword (l r : Text) : occurrences w (l ++ ('\x7b' :: a ++ ['\x7d']) ++ r) =
      occurrences w l + occurrences w r := by
    have hsplit : l ++ ('\x7b' :: a ++ ['\x7d']) ++ r = (l ++ ['\x7b']) ++ a ++ '\x7d' :: r := by
      simp
    rw [hsplit, hclosed, hopen, hclose, hzero, Nat.add_zero]
  have hnone : occurrences w ('\x7b' :: a ++ ['\x7d']) = 0 := by
    have := hword [] []
    rwa [List.nil_append, List.append_nil, occurrences_nil] at this
  refine ⟨fun l r => ?_, hnone⟩
  rw [hword, hnone, Nat.add_zero]

theorem of_isMarkOrToken {a : Text} (ha : isMarkOrToken a) :
    IsClosed w a ∧ occurrences w a = 0 := by
  simp only [isMarkOrToken, Bool.or_eq_true, beq_iff_eq] at ha
  obtain (ha | rfl) | rfl := ha
  · exact h.of_isMark ha
  · exact h.of_braced (a := "^^^".toList) (by decide)
  · exact h.of_braced (a := "~~~".toList) (by decide)

end IsDurable

/-! ## The relation -/

/-- The second text comes from the first one by putting marks of the kind `N` in the place of marks of
the kind `M`. At the ends of a text a mark may also vanish or appear. -/
inductive Remarked (M N : Text → Bool) : Text → Text → Prop where
  | refl (t : Text) : Remarked M N t t
  | trans {t t' t'' : Text} : Remarked M N t t' → Remarked M N t' t'' → Remarked M N t t''
  /-- A mark stands for a mark. -/
  | mark {g g' a a' h h' : Text} : M a → N a' → Remarked M N g g' → Remarked M N h h' →
      Remarked M N (g ++ a ++ h) (g' ++ a' ++ h')
  /-- A mark stands for a mark, and its neighbours change places. -/
  | swap {g g' a a' h h' : Text} : M a → N a' → Remarked M N g g' → Remarked M N h h' →
      Remarked M N (g ++ a ++ h) (h' ++ a' ++ g')
  | front {g g' a a' : Text} : (a = [] ∨ M a) → (a' = [] ∨ N a') → Remarked M N g g' →
      Remarked M N (a ++ g) (a' ++ g')
  | back {g g' a a' : Text} : (a = [] ∨ M a) → (a' = [] ∨ N a') → Remarked M N g g' →
      Remarked M N (g ++ a) (g' ++ a')
  /-- A number at the beginning of the text vanishes with the mark behind it. -/
  | number {d g g' a a' : Text} : (∀ c ∈ d, c.isDigit) → M a → (a' = [] ∨ N a') →
      Remarked M N g g' → Remarked M N (d ++ a ++ g) (a' ++ g')

namespace Remarked

open Text

variable {M N M' N' : Text → Bool} {t t' w : Text}

theorem mono (hM : ∀ a, M a → M' a) (hN : ∀ a, N a → N' a) (h : Remarked M N t t') :
    Remarked M' N' t t' := by
  induction h with
  | refl t => exact .refl t
  | trans _ _ ih ih' => exact .trans ih ih'
  | mark ha ha' _ _ ihg ihh => exact .mark (hM _ ha) (hN _ ha') ihg ihh
  | swap ha ha' _ _ ihg ihh => exact .swap (hM _ ha) (hN _ ha') ihg ihh
  | front ha ha' _ ih => exact .front (ha.imp_right (hM _)) (ha'.imp_right (hN _)) ih
  | back ha ha' _ ih => exact .back (ha.imp_right (hM _)) (ha'.imp_right (hN _)) ih
  | number hd ha ha' _ ih => exact .number hd (hM _ ha) (ha'.imp_right (hN _)) ih

/-- A word that cannot reach into the new marks is not more frequent than before. -/
theorem occurrences_le (hN : ∀ a, N a → IsClosed w a ∧ occurrences w a = 0)
    (h : Remarked M N t t') : occurrences w t' ≤ occurrences w t := by
  have hthree (x y z : Text) : occurrences w x + occurrences w z ≤ occurrences w (x ++ y ++ z) := by
    have hxy := add_occurrences_le w x y
    have hxyz := add_occurrences_le w (x ++ y) z
    omega
  induction h with
  | refl t => exact Nat.le_refl _
  | trans _ _ ih ih' => exact Nat.le_trans ih' ih
  | @mark g g' a a' h h' _ ha' _ _ ihg ihh =>
    have := hthree g a h
    rw [(hN _ ha').1, (hN _ ha').2]
    omega
  | @swap g g' a a' h h' _ ha' _ _ ihg ihh =>
    have := hthree g a h
    rw [(hN _ ha').1, (hN _ ha').2]
    omega
  | @front g g' a a' _ ha' _ ih =>
    have := add_occurrences_le w a g
    rcases ha' with rfl | ha'
    · rw [List.nil_append]
      omega
    · rw [(hN _ ha').1.append_left, (hN _ ha').2]
      omega
  | @back g g' a a' _ ha' _ ih =>
    have := add_occurrences_le w g a
    rcases ha' with rfl | ha'
    · rw [List.append_nil]
      omega
    · rw [(hN _ ha').1.append_right, (hN _ ha').2]
      omega
  | @number d g g' a a' _ _ ha' _ ih =>
    have := hthree d a g
    rcases ha' with rfl | ha'
    · rw [List.nil_append]
      omega
    · rw [(hN _ ha').1.append_left, (hN _ ha').2]
      omega

/-- A durable word is as frequent as before. -/
theorem occurrences_eq (hw : IsDurable w) (h : Remarked isMarkOrToken isMarkOrToken t t') :
    occurrences w t' = occurrences w t := by
  have hmark (a : Text) (ha : isMarkOrToken a) := hw.of_isMarkOrToken ha
  have hfront (a : Text) (ha : a = [] ∨ isMarkOrToken a) (g : Text) :
      occurrences w (a ++ g) = occurrences w g := by
    rcases ha with rfl | ha
    · rfl
    · rw [(hmark a ha).1.append_left, (hmark a ha).2, Nat.zero_add]
  have hback (a : Text) (ha : a = [] ∨ isMarkOrToken a) (g : Text) :
      occurrences w (g ++ a) = occurrences w g := by
    rcases ha with rfl | ha
    · rw [List.append_nil]
    · rw [(hmark a ha).1.append_right, (hmark a ha).2, Nat.add_zero]
  induction h with
  | refl t => rfl
  | trans _ _ ih ih' => exact ih'.trans ih
  | mark ha ha' _ _ ihg ihh =>
    rw [(hmark _ ha).1, (hmark _ ha').1, (hmark _ ha).2, (hmark _ ha').2, ihg, ihh]
  | swap ha ha' _ _ ihg ihh =>
    rw [(hmark _ ha).1, (hmark _ ha').1, (hmark _ ha).2, (hmark _ ha').2, ihg, ihh]
    omega
  | front ha ha' _ ih => rw [hfront _ ha, hfront _ ha', ih]
  | back ha ha' _ ih => rw [hback _ ha, hback _ ha', ih]
  | number hd ha ha' _ ih =>
    rw [(hmark _ ha).1, (hmark _ ha).2, hw.occurrences_digits hd, hfront _ ha', ih]
    omega

/-! ## Ways to change marks -/

/-- Marks change on both ends of a text. -/
theorem ends {a a' b b' g g' : Text} (ha : a = [] ∨ M a) (ha' : a' = [] ∨ N a')
    (hb : b = [] ∨ M b) (hb' : b' = [] ∨ N b') (h : Remarked M N g g') :
    Remarked M N (a ++ g ++ b) (a' ++ g' ++ b') :=
  .back hb hb' (.front ha ha' h)

/-- Marks change around a stretch of a text. -/
theorem around {l a a' b b' g g' r r' : Text} (ha : M a) (ha' : N a') (hb : M b) (hb' : N b')
    (hg : Remarked M N g g') (hr : Remarked M N r r') :
    Remarked M N (l ++ (a ++ g ++ b) ++ r) (l ++ (a' ++ g' ++ b') ++ r') := by
  have h := mark hb hb' (mark ha ha' (.refl l) hg) hr
  simpa only [List.append_assoc] using h

/-- A text of lines, each of which has got other marks. -/
theorem ofLines {f : Text → Text} (hM : M ['\n']) (hN : N ['\n']) {l l' : Text}
    (hl : Remarked M N l l') {ls : List Text} (hls : ∀ x ∈ ls, Remarked M N x (f x)) :
    Remarked M N (Text.ofLines l ls) (Text.ofLines l' (ls.map f)) := by
  induction ls generalizing l l' with
  | nil => simpa using hl
  | cons x ls ih =>
    have htail := ih (hls x (by simp)) fun y hy => hls y (by simp [hy])
    have h := mark hM hN hl htail
    rw [List.map_cons, ofLines_cons, ofLines_cons]
    simpa using h

end Remarked

/-! ## Blanks at the ends -/

theorem isMarkChar_of_isBlank {c : Char} (h : Text.isBlank c) : isMarkChar c := by
  simp only [Text.isBlank, Bool.or_eq_true, beq_iff_eq] at h
  obtain (((rfl | rfl) | rfl) | rfl) | rfl := h <;> decide

/-- A text is trimmed and gets new marks around it, in the place of the ones in front of it. -/
theorem remarked_trimWhere {N : Text → Bool} {p : Char → Bool} (hp : ∀ c, p c → isMarkChar c)
    {a a' b' : Text} (ha : ∀ c ∈ a, isMarkChar c) (ha' : a' = [] ∨ N a') (hb' : b' = [] ∨ N b')
    (g : Text) : Remarked isMark N (a ++ g) (a' ++ Text.trimWhere p g ++ b') := by
  have hmark (x : Text) (hx : ∀ c ∈ x, isMarkChar c) : x = [] ∨ isMark x := by
    by_cases hne : x = []
    · exact .inl hne
    · exact .inr (isMark_of_forall hne hx)
  obtain ⟨l, r, hg, hl, hr⟩ := Text.exists_trimWhere p g
  have hsplit : a ++ g = a ++ l ++ Text.trimWhere p g ++ r := by
    rw [List.append_assoc a l, List.append_assoc a, ← hg]
  rw [hsplit]
  refine .ends (hmark _ ?_) ha' (hmark _ fun c hc => hp c (hr c hc)) hb' (.refl _)
  intro c hc
  rcases List.mem_append.1 hc with hc | hc
  · exact ha c hc
  · exact hp c (hl c hc)

theorem remarked_trim {N : Text → Bool} {a a' b' : Text} (ha : ∀ c ∈ a, isMarkChar c)
    (ha' : a' = [] ∨ N a') (hb' : b' = [] ∨ N b') (g : Text) :
    Remarked isMark N (a ++ g) (a' ++ Text.trim g ++ b') :=
  remarked_trimWhere (fun _ => isMarkChar_of_isBlank) ha ha' hb' g

/-- A text is trimmed. -/
theorem remarked_trimWhere_self {N : Text → Bool} {p : Char → Bool}
    (hp : ∀ c, p c → isMarkChar c) (g : Text) : Remarked isMark N g (Text.trimWhere p g) := by
  have h : Remarked isMark N ([] ++ g) ([] ++ Text.trimWhere p g ++ []) :=
    remarked_trimWhere hp (by simp) (.inl rfl) (.inl rfl) g
  rwa [List.append_nil] at h

theorem remarked_trim_self {N : Text → Bool} (g : Text) : Remarked isMark N g (Text.trim g) :=
  remarked_trimWhere_self (fun _ => isMarkChar_of_isBlank) g

/-! ## Character by character -/

/-- Replacing some characters by marks. -/
theorem remarked_flatMap {M N : Text → Bool} {f : Char → Text}
    (h : ∀ c, f c = [c] ∨ (M [c] ∧ N (f c))) (t : Text) : Remarked M N t (t.flatMap f) := by
  -- what has been passed stands in front as it is
  have hbehind (l : Text) : Remarked M N (l ++ t) (l ++ t.flatMap f) := by
    induction t generalizing l with
    | nil => exact .refl _
    | cons c t ih =>
      rw [List.flatMap_cons, List.append_cons, ← List.append_assoc]
      rcases h c with hc | ⟨hM, hN⟩
      · rw [hc]
        exact ih (l ++ [c])
      · exact .mark hM hN (.refl l) (ih [])
  exact hbehind []

end Markdown
