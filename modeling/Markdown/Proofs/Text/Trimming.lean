import Markdown.Text.Basic
import Mathlib.Data.List.TakeWhile

/-!
# Trimming

What trimming leaves out of a text, and where it changes nothing.
-/

namespace Markdown.Text

variable {p : Char → Bool} {t u : Text}

/-- Trimming takes characters from both ends. -/
theorem exists_trimWhere (p : Char → Bool) (t : Text) :
    ∃ a b, t = a ++ trimWhere p t ++ b ∧ (∀ c ∈ a, p c) ∧ ∀ c ∈ b, p c := by
  refine ⟨t.takeWhile p, ((t.dropWhile p).reverse.takeWhile p).reverse, ?_, ?_, ?_⟩
  · rw [trimWhere, List.append_assoc, ← List.reverse_append, List.takeWhile_append_dropWhile,
      List.reverse_reverse, List.takeWhile_append_dropWhile]
  · intro c hc
    exact List.all_eq_true.1 List.all_takeWhile c hc
  · intro c hc
    exact List.all_eq_true.1 List.all_takeWhile c (List.mem_reverse.1 hc)

theorem trimWhere_isInfix (p : Char → Bool) (t : Text) : trimWhere p t <:+: t := by
  obtain ⟨a, b, ht, -, -⟩ := exists_trimWhere p t
  exact ⟨a, b, ht.symm⟩

theorem mem_of_mem_trim {c : Char} (h : c ∈ trim t) : c ∈ t :=
  (trimWhere_isInfix isBlank t).subset h

theorem trim_eq_nil_iff : trim t = [] ↔ ∀ c ∈ t, isBlank c := by
  constructor
  · intro h c hc
    obtain ⟨a, b, ht, ha, hb⟩ := exists_trimWhere isBlank t
    rw [ht, show trimWhere isBlank t = [] from h, List.append_nil] at hc
    exact (List.mem_append.1 hc).elim (ha c) (hb c)
  · intro h
    rw [trim, trimWhere, List.dropWhile_eq_nil_iff.2 h]
    rfl

theorem trim_append_left (h : ∀ c ∈ u, isBlank c) (t : Text) : trim (u ++ t) = trim t := by
  rw [trim, trimWhere, List.dropWhile_append_of_pos h]
  rfl

theorem trim_append_right (t : Text) (h : ∀ c ∈ u, isBlank c) : trim (t ++ u) = trim t := by
  have hu : u.dropWhile isBlank = [] := List.dropWhile_eq_nil_iff.2 h
  have hrev : ∀ c ∈ u.reverse, isBlank c := fun c hc => h c (List.mem_reverse.1 hc)
  unfold trim trimWhere
  rw [List.dropWhile_append, hu]
  split
  · rename_i ht
    rw [List.isEmpty_iff.1 ht]
  · rw [List.reverse_append, List.dropWhile_append_of_pos hrev]

/-- The line feeds around a document are trimmed. -/
theorem trim_document (t : Text) : trim ('\n' :: t ++ ['\n']) = trim t := by
  have hblank : ∀ c ∈ ['\n'], isBlank c := List.all_eq_true.1 rfl
  rw [trim_append_right _ hblank]
  exact trim_append_left hblank t

/-- Blanks in front of a text do not count. -/
theorem trim_dropWhile (hp : ∀ c, p c → isBlank c) (t : Text) : trim (t.dropWhile p) = trim t := by
  have hblank : ∀ c ∈ t.takeWhile p, isBlank c := fun c hc =>
    hp c (List.all_eq_true.1 List.all_takeWhile c hc)
  have h := trim_append_left hblank (t.dropWhile p)
  rwa [List.takeWhile_append_dropWhile, eq_comm] at h

/-- A text without blanks at its ends stays. -/
theorem trim_eq_self (hhead : ∀ c ∈ t.head?, isBlank c = false)
    (hlast : ∀ c ∈ t.getLast?, isBlank c = false) : trim t = t := by
  have hdrop (s : Text) (h : ∀ c ∈ s.head?, isBlank c = false) : s.dropWhile isBlank = s := by
    cases s with
    | nil => rfl
    | cons c s => rw [List.dropWhile_cons_of_neg (by simp [h c rfl])]
  unfold trim trimWhere
  rw [hdrop t hhead, hdrop t.reverse (by simpa using hlast), List.reverse_reverse]

theorem isBlank_of_mem_head?_trim {c : Char} (h : c ∈ (trim t).head?) : isBlank c = false := by
  have hprefix : trim t <+: t.dropWhile isBlank := by
    have hsuffix := List.dropWhile_suffix isBlank (l := (t.dropWhile isBlank).reverse)
    rwa [← List.reverse_prefix, List.reverse_reverse] at hsuffix
  have hhead := List.head?_dropWhile_not isBlank t
  obtain ⟨u, hu⟩ := hprefix
  obtain ⟨s, hs⟩ := List.head?_eq_some_iff.1 h
  rw [← hu, hs] at hhead
  exact hhead

theorem isBlank_of_mem_getLast?_trim {c : Char} (h : c ∈ (trim t).getLast?) :
    isBlank c = false := by
  have hlast := List.head?_dropWhile_not isBlank (t.dropWhile isBlank).reverse
  rw [trim, trimWhere, List.getLast?_reverse] at h
  rwa [h] at hlast

/-- No blank is last if none is last in either part. -/
theorem isBlank_of_mem_getLast?_append (ht : ∀ c ∈ t.getLast?, isBlank c = false)
    (hu : ∀ c ∈ u.getLast?, isBlank c = false) : ∀ c ∈ (t ++ u).getLast?, isBlank c = false := by
  intro c hc
  rw [List.getLast?_append] at hc
  cases hlast : u.getLast? with
  | none => exact ht c (by simpa [hlast] using hc)
  | some d => exact hu c (by simpa [hlast] using hc)

/-- A text between angle brackets is not trimmed. -/
theorem trim_tag (t : Text) : trim ('<' :: t ++ ['>']) = '<' :: t ++ ['>'] := by
  refine trim_eq_self (fun c hc => ?_) fun c hc => ?_
  · obtain rfl : '<' = c := by simpa using hc
    rfl
  · obtain rfl : '>' = c := by
      rw [List.getLast?_concat] at hc
      exact Option.some.inj hc
    rfl

/-- What a text is up to its last character that is no blank. -/
theorem exists_append_blank (t : Text) :
    ∃ a b, t = a ++ b ∧ (∀ c ∈ b, isBlank c) ∧ ∀ c ∈ a.getLast?, isBlank c = false := by
  refine ⟨(t.reverse.dropWhile isBlank).reverse, (t.reverse.takeWhile isBlank).reverse,
    ?_, ?_, ?_⟩
  · rw [← List.reverse_append, List.takeWhile_append_dropWhile, List.reverse_reverse]
  · intro c hc
    exact List.all_eq_true.1 List.all_takeWhile c (List.mem_reverse.1 hc)
  · intro c hc
    have hhead := List.head?_dropWhile_not isBlank t.reverse
    rw [List.getLast?_reverse] at hc
    rwa [hc] at hhead

end Markdown.Text
