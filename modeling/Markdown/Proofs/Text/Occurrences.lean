import Markdown.Text.Basic

/-!
# Occurrences of a word

The occurrences of a word in two texts add up behind each other, if no occurrence reaches over the
seam (`occurrences_append_of_apart`). A text is closed for a word if none reaches over its ends,
whatever stands around it.
-/

namespace Markdown.Text

/-- How often a word stands in a text. -/
def occurrences (w : Text) : Text → Nat
  | [] => 0
  | c :: t => (if w <+: c :: t then 1 else 0) + occurrences w t

variable {w s t x y l r : Text} {c : Char}

@[simp] theorem occurrences_nil (w : Text) : occurrences w [] = 0 := rfl

theorem occurrences_cons_of_not (h : ¬ w <+: c :: t) :
    occurrences w (c :: t) = occurrences w t := by
  rw [occurrences, if_neg h, Nat.zero_add]

/-- A word stands in a text if it has an occurrence. -/
theorem occurrences_pos_iff (hw : w ≠ []) : 0 < occurrences w t ↔ w <:+: t := by
  induction t with
  | nil => simp [hw]
  | cons c t ih =>
    rw [List.infix_cons_iff, ← ih, occurrences]
    by_cases h : w <+: c :: t
    · simp only [h, if_true, true_or, iff_true]
      omega
    · simp [h]

theorem occurrences_eq_zero_iff (hw : w ≠ []) : occurrences w t = 0 ↔ ¬ w <:+: t := by
  rw [← occurrences_pos_iff hw]
  omega

theorem occurrences_cons_of_head (h : w.head? ≠ some c) (hw : w ≠ []) :
    occurrences w (c :: t) = occurrences w t := by
  refine occurrences_cons_of_not fun hp => h ?_
  obtain ⟨d, w, rfl⟩ := List.exists_cons_of_ne_nil hw
  rw [List.head?_cons, (List.cons_prefix_cons.1 hp).1]

theorem occurrences_eq_zero_of_notMem (hc : c ∈ w) (ht : c ∉ t) : occurrences w t = 0 := by
  rw [occurrences_eq_zero_iff (List.ne_nil_of_mem hc)]
  exact fun h => ht (h.subset hc)

/-- The occurrences in the parts of a text are among those in the text. -/
theorem add_occurrences_le (w x y : Text) :
    occurrences w x + occurrences w y ≤ occurrences w (x ++ y) := by
  induction x with
  | nil => simp
  | cons c x ih =>
    have hpre : w <+: c :: x → w <+: c :: (x ++ y) := fun h =>
      h.trans (List.prefix_append (c :: x) y)
    rw [List.cons_append, occurrences, occurrences]
    by_cases h : w <+: c :: x
    · rw [if_pos h, if_pos (hpre h)]
      omega
    · rw [if_neg h]
      omega

/-! ## Seams that no occurrence reaches over -/

/-- No occurrence of a word begins in `x` and ends in `y` behind it. -/
def Apart (w x y : Text) : Prop :=
  ∀ u v, w = u ++ v → u ≠ [] → v ≠ [] → u <:+ x → ¬ v <+: y

theorem occurrences_append_of_apart (h : Apart w x y) :
    occurrences w (x ++ y) = occurrences w x + occurrences w y := by
  induction x with
  | nil => simp
  | cons c x ih =>
    have htail : Apart w x y := fun u v hw hu hv hux =>
      h u v hw hu hv (hux.trans (List.suffix_cons c x))
    have hpre : w <+: c :: (x ++ y) ↔ w <+: c :: x := by
      refine ⟨fun hw => ?_, fun hw => hw.trans (List.prefix_append (c :: x) y)⟩
      obtain ⟨z, hz⟩ := hw
      rw [← List.cons_append] at hz
      rcases List.append_eq_append_iff.1 hz with ⟨v, hv, -⟩ | ⟨v, rfl, hv⟩
      · exact ⟨v, hv.symm⟩
      · by_cases hne : v = []
        · subst hne
          exact ⟨[], by simp⟩
        · exact absurd ⟨z, hv.symm⟩ (h (c :: x) v rfl (by simp) hne List.suffix_rfl)
    rw [List.cons_append, occurrences, occurrences, ih htail]
    simp only [hpre]
    omega

theorem occurrences_concat_of_last (h : w.getLast? ≠ some c) (hw : w ≠ []) :
    occurrences w (l ++ [c]) = occurrences w l := by
  have hapart : Apart w l [c] := by
    intro u v hwv hu hv _ hp
    obtain rfl : v = [c] := by
      rcases List.prefix_cons_iff.1 hp with rfl | ⟨v', rfl, hv'⟩
      · exact absurd rfl hv
      · rw [List.prefix_nil.1 hv']
    exact h (by simp [hwv])
  have hlast : ¬ w <+: [c] := by
    intro hp
    rcases List.prefix_cons_iff.1 hp with rfl | ⟨v', rfl, hv'⟩
    · exact hw rfl
    · exact h (by simp [List.prefix_nil.1 hv'])
  rw [occurrences_append_of_apart hapart, occurrences_cons_of_not hlast, occurrences_nil,
    Nat.add_zero]

theorem apart_of_head (h : ∀ d ∈ y.head?, d ∉ w) : Apart w x y := by
  intro u v hw hu hv hux hvy
  obtain ⟨d, v, rfl⟩ := List.exists_cons_of_ne_nil hv
  obtain ⟨y', rfl⟩ := hvy
  exact h d (by simp) (by simp [hw])

theorem apart_of_last (h : ∀ d ∈ x.getLast?, d ∉ w) : Apart w x y := by
  intro u v hw hu hv hux hvy
  obtain ⟨x', rfl⟩ := hux
  refine h (u.getLast hu) ?_ ?_
  · simp [List.getLast?_append, List.getLast?_eq_some_getLast hu]
  · rw [hw]
    exact List.mem_append_left _ (List.getLast_mem hu)

/-! ## Closed texts -/

/-- No occurrence of a word reaches over an end of a text. -/
def IsClosed (w s : Text) : Prop :=
  ∀ l r, occurrences w (l ++ s ++ r) = occurrences w l + occurrences w s + occurrences w r

theorem isClosed_of_apart (hl : ∀ l r, Apart w l (s ++ r)) (hr : ∀ r, Apart w s r) :
    IsClosed w s := by
  intro l r
  rw [List.append_assoc, occurrences_append_of_apart (hl l r), occurrences_append_of_apart (hr r)]
  omega

/-- A text that begins and ends with characters that a word does not have is closed for it. -/
theorem isClosed_of_ends (hne : s ≠ []) (hhead : ∀ c ∈ s.head?, c ∉ w)
    (hlast : ∀ c ∈ s.getLast?, c ∉ w) : IsClosed w s := by
  refine isClosed_of_apart (fun l r => apart_of_head ?_) fun r => apart_of_last hlast
  intro c hc
  obtain ⟨d, s, rfl⟩ := List.exists_cons_of_ne_nil hne
  exact hhead c hc

theorem isClosed_singleton (h : c ∉ w) : IsClosed w [c] :=
  isClosed_of_ends (by simp) (by simpa using h) (by simpa using h)

namespace IsClosed

theorem append_left (h : IsClosed w s) (r : Text) :
    occurrences w (s ++ r) = occurrences w s + occurrences w r := by
  have := h [] r
  rwa [List.nil_append, occurrences_nil, Nat.zero_add] at this

theorem append_right (h : IsClosed w s) (l : Text) :
    occurrences w (l ++ s) = occurrences w l + occurrences w s := by
  have := h l []
  rwa [List.append_nil, occurrences_nil, Nat.add_zero] at this

/-- What stands between two closed texts makes one with them. -/
theorem enclose (hx : IsClosed w x) (hy : IsClosed w y) (g : Text) : IsClosed w (x ++ g ++ y) := by
  intro l r
  have hinner : occurrences w (x ++ g ++ y) =
      occurrences w x + occurrences w g + occurrences w y := by
    rw [hy.append_right, hx.append_left]
  have hsplit : l ++ (x ++ g ++ y) ++ r = l ++ x ++ (g ++ y ++ r) := by simp
  rw [hsplit, hx l, hy g r, hinner]
  omega

end IsClosed

end Markdown.Text
