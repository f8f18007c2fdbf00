import Markdown.Text.Basic

/-!
# Texts in which a word does not begin

A text is free of a word if the word stands at none of its positions, whatever comes behind. Parts
that are free make a text that is, and for a text that is written out it can be computed
(`isFree_of_lacks`).
-/

namespace Markdown.Text

/-- A word begins nowhere in a text, whatever stands behind it. -/
def IsFree (w : Text) : Text → Prop
  | [] => True
  | c :: t => (∀ r, ¬ w <+: c :: t ++ r) ∧ IsFree w t

variable {w t u : Text} {c : Char}

@[simp] theorem isFree_nil (w : Text) : IsFree w [] := trivial

theorem IsFree.append (ht : IsFree w t) (hu : IsFree w u) : IsFree w (t ++ u) := by
  induction t with
  | nil => exact hu
  | cons c t ih =>
    refine ⟨fun r hr => ht.1 (u ++ r) ?_, ih ht.2⟩
    rwa [← List.append_assoc]

/-- Where a word does not begin, no longer one begins either. -/
theorem IsFree.append_word (h : IsFree w t) (u : Text) : IsFree (w ++ u) t := by
  induction t with
  | nil => trivial
  | cons c t ih => exact ⟨fun r hr => h.1 r ((List.prefix_append w u).trans hr), ih h.2⟩

/-- The word does not stand at the end of the part `x` of a text that is free of it. -/
theorem IsFree.not_isPrefix (h : IsFree w t) {x y : Text} (ht : t = x ++ c :: y) (r : Text) :
    ¬ w <+: c :: y ++ r := by
  subst ht
  induction x with
  | nil => exact h.1 r
  | cons d x ih => exact ih h.2

theorem IsFree.not_isInfix (h : IsFree (c :: w) t) : ¬ c :: w <:+: t := by
  rintro ⟨x, y, rfl⟩
  have hsplit : x ++ c :: w ++ y = x ++ c :: (w ++ y) := by simp
  refine h.not_isPrefix hsplit [] ?_
  rw [List.append_nil]
  exact List.prefix_append (c :: w) y

theorem isFree_of_forall (h : ∀ d ∈ t, w.head? ≠ some d) (hw : w ≠ []) : IsFree w t := by
  induction t with
  | nil => trivial
  | cons d t ih =>
    refine ⟨fun r hr => h d (by simp) ?_, ih fun d hd => h d (by simp [hd])⟩
    obtain ⟨e, w, rfl⟩ := List.exists_cons_of_ne_nil hw
    rw [List.head?_cons, (List.cons_prefix_cons.1 hr).1]

/-- A text is free of the words that begin with a character that it does not have. -/
theorem isFree_of_notMem (w : Text) (h : c ∉ t) : IsFree (c :: w) t :=
  isFree_of_forall (fun d hd he => h (by simpa using Option.some.inj he ▸ hd)) (by simp)

/-- A text is free of a word with a character that neither it has nor what stands behind its last
characters, if these do not begin the word. -/
theorem isFree_pair {d : Char} (hd : d ∉ t) (hlast : t.getLast? ≠ some c) :
    IsFree [c, d] t := by
  induction t with
  | nil => trivial
  | cons e t ih =>
    cases t with
    | nil =>
      refine ⟨fun r hr => hlast ?_, trivial⟩
      rw [List.getLast?_singleton, (List.cons_prefix_cons.1 hr).1]
    | cons e' t =>
      refine ⟨fun r hr => hd ?_, ih (fun h => hd (by simp [h])) (by simpa using hlast)⟩
      have htail := (List.cons_prefix_cons.1 hr).2
      rw [(List.cons_prefix_cons.1 htail).1]
      simp

theorem isFree_flatMap {α : Type} {f : α → Text} {l : List α} (h : ∀ a ∈ l, IsFree w (f a)) :
    IsFree w (l.flatMap f) := by
  induction l with
  | nil => trivial
  | cons a l ih => exact (h a (by simp)).append (ih fun a ha => h a (by simp [ha]))

/-- Whether a word stands at no position of a text, nor begins at one with the rest of the text. -/
def lacks (w : Text) : Text → Bool
  | [] => true
  | c :: t => !w.isPrefixOf (c :: t) && !(c :: t).isPrefixOf w && lacks w t

theorem isFree_of_lacks (h : lacks w t) : IsFree w t := by
  induction t with
  | nil => trivial
  | cons c t ih =>
    simp only [lacks, Bool.and_eq_true, Bool.not_eq_true', ← Bool.not_eq_true,
      List.isPrefixOf_iff_prefix] at h
    obtain ⟨⟨hw, ht⟩, hlacks⟩ := h
    refine ⟨fun r hr => ?_, ih hlacks⟩
    rcases List.prefix_or_prefix_of_prefix hr (List.prefix_append (c :: t) r) with hp | hp
    · exact hw hp
    · exact ht hp

end Markdown.Text
