import Markdown.Template

/-!
# Templates behind each other

A template is read segment by segment, and the segments behind the first one are those of the text
behind it (`Template.segments_cons`). So a text that begins with no sign, no brace and no digit does
not change how a template in front of it is read (`Template.BeginsAfresh.segments_append`), and a text
with all its signs doubled is a template of that text (`Template.segments_doubleSigns`).
-/

namespace Markdown

open Text

namespace Template

variable {c : Char} {t u b : Text}

theorem eq_or_eq_of_isSign (h : isSign c = true) : c = '\\' ∨ c = '$' :=
  (Bool.or_eq_true_iff.1 h).imp eq_of_beq eq_of_beq

/-! ## Segment by segment -/

/-- The segment that a character begins, and the text behind that segment. -/
def firstSegment (c : Char) (t : Text) : Segment × Text :=
  if !isSign c then (.char c, t)
  else if t.head? = some c then (.char c, t.tail)
  else
    match reference? c t with
    | some (index, rest) => (.group index, rest)
    | none => (.char c, t)

theorem readSegments_cons (acc : List Segment) (c : Char) (t : Text) :
    readSegments acc (c :: t) =
      readSegments ((firstSegment c t).1 :: acc) (firstSegment c t).2 := by
  rw [readSegments, firstSegment]
  split
  · rfl
  · split
    · rfl
    · split
      · rename_i h
        rw [h]
      · rename_i h
        rw [h]

theorem length_firstSegment_le (c : Char) (t : Text) : (firstSegment c t).2.length ≤ t.length := by
  rw [firstSegment]
  split
  · exact Nat.le_refl _
  · split
    · exact List.length_tail ▸ Nat.sub_le ..
    · split
      · rename_i h
        exact Nat.le_of_lt (reference?_length h)
      · exact Nat.le_refl _

/-- What holds of a text if it holds behind its first segment, holds of every text. -/
theorem segments_induction {motive : Text → Prop} (nil : motive [])
    (cons : ∀ c t, motive (firstSegment c t).2 → motive (c :: t)) (t : Text) : motive t := by
  induction hlength : t.length using Nat.strongRecOn generalizing t with
  | ind n ih =>
    cases t with
    | nil => exact nil
    | cons c t =>
      refine cons c t (ih _ ?_ _ rfl)
      rw [← hlength]
      exact Nat.lt_succ_of_le (length_firstSegment_le c t)

/-- The segments do not depend on those that are read before. -/
theorem readSegments_eq (acc : List Segment) (t : Text) :
    readSegments acc t = acc.reverse ++ segments ⟨t⟩ := by
  rw [segments]
  induction t using segments_induction generalizing acc with
  | nil => simp [readSegments]
  | cons c t ih =>
    rw [readSegments_cons, readSegments_cons, ih, ih [_]]
    simp

@[simp] theorem segments_nil : segments ⟨[]⟩ = [] := by
  rw [segments, readSegments, List.reverse_nil]

theorem segments_cons (c : Char) (t : Text) :
    segments ⟨c :: t⟩ = (firstSegment c t).1 :: segments ⟨(firstSegment c t).2⟩ := by
  rw [segments, readSegments_cons, readSegments_eq]
  rfl

theorem firstSegment_of_not_isSign (h : isSign c = false) (t : Text) :
    firstSegment c t = (.char c, t) := by
  rw [firstSegment, if_pos (by simp [h])]

theorem firstSegment_doubled (h : isSign c = true) (t : Text) :
    firstSegment c (c :: t) = (.char c, t) := by
  rw [firstSegment, if_neg (by simp [h]), if_pos List.head?_cons, List.tail_cons]

/-- Characters that are no signs stand for themselves. -/
theorem segments_text_append (h : ∀ c ∈ u, isSign c = false) (t : Text) :
    segments ⟨u ++ t⟩ = u.map .char ++ segments ⟨t⟩ := by
  induction u with
  | nil => rfl
  | cons c u ih =>
    rw [List.forall_mem_cons] at h
    rw [List.cons_append, segments_cons, firstSegment_of_not_isSign h.1, ih h.2]
    rfl

theorem segments_text (h : ∀ c ∈ u, isSign c = false) : segments ⟨u⟩ = u.map .char := by
  simpa using segments_text_append h []

/-- A single sign begins a reference or stands for itself. -/
theorem firstSegment_single (h : isSign c = true) (hhead : t.head? ≠ some c) :
    firstSegment c t =
      ((reference? c t).map fun (n, rest) => (.group n, rest)).getD (.char c, t) := by
  rw [firstSegment, if_neg (by simp [h]), if_neg hhead]
  cases reference? c t <;> rfl

/-! ## References -/

theorem reference?_braced (t : Text) : reference? '$' ('\x7b' :: t) = bracedReference? t := rfl

theorem reference?_short (h : ¬ (c = '$' ∧ t.head? = some '\x7b')) :
    reference? c t = shortReference? t := by
  rw [reference?.eq_def]
  split
  · exact absurd ⟨rfl, rfl⟩ h
  · rfl

theorem bracedReference?_of_notMem (h : '\x7d' ∉ t) : bracedReference? t = none := by
  have hne : ∀ c ∈ t, (c != '\x7d') = true := fun c hc => bne_iff_ne.2 (ne_of_mem_of_not_mem hc h)
  have hdrop : (t ++ []).dropWhile (· != '\x7d') = [] := List.dropWhile_append_of_pos hne
  rw [List.append_nil] at hdrop
  rw [bracedReference?, hdrop]

theorem bracedReference?_closed (h : '\x7d' ∉ t) (rest : Text) :
    bracedReference? (t ++ '\x7d' :: rest) = (index? t).map (·, rest) := by
  have hne : ∀ c ∈ t, (c != '\x7d') = true := fun c hc => bne_iff_ne.2 (ne_of_mem_of_not_mem hc h)
  rw [bracedReference?, List.dropWhile_append_of_pos hne, List.takeWhile_append_of_pos hne]
  simp

/-! ## Templates with one reference -/

theorem flatMap_expand_map_char (u : Text) (m : Match) :
    (u.map Segment.char).flatMap (·.expand m) = u := by
  induction u with
  | nil => rfl
  | cons c u ih =>
    rw [List.map_cons, List.flatMap_cons, ih]
    rfl

theorem expand_of_segments {t : Template} {a b : Text} {n : Nat}
    (h : t.segments = a.map .char ++ Segment.group n :: b.map .char) (m : Match) :
    t.expand m = a ++ m.group n ++ b := by
  rw [expand, h, List.flatMap_append, List.flatMap_cons, flatMap_expand_map_char,
    flatMap_expand_map_char, List.append_assoc]
  rfl

/-- A backslash before a digit refers to a group. -/
theorem segments_reference {v : Text} {d : Char} (hu : ∀ c ∈ u, isSign c = false) (hd : d.isDigit)
    (hv : ∀ c ∈ v, isSign c = false) (hdigit : ∀ c ∈ v.head?, c.isDigit = false) :
    segments ⟨u ++ '\\' :: d :: v⟩ =
      u.map .char ++ Segment.group (Text.decimal [d]) :: v.map .char := by
  have hreference : reference? '\\' (d :: v) = some (Text.decimal [d], v) := by
    cases v with
    | nil => simp [reference?, shortReference?, hd]
    | cons c v => simp [reference?, shortReference?, hd, hdigit c rfl]
  have hne : (d :: v).head? ≠ some '\\' := by
    intro h
    obtain rfl := Option.some.inj h
    exact absurd hd (by decide)
  rw [segments_text_append hu, segments_cons, firstSegment_single (by decide) hne, hreference,
    ← segments_text hv]
  rfl

/-! ## A text behind a template -/

/-- A text begins afresh if no reference goes on with its first character and no sign is doubled or
begun by it. -/
def BeginsAfresh (b : Text) : Prop :=
  ∀ c ∈ b.head?, c ∉ ['\\', '$', '\x7b', '\x7d'] ∧ c.isDigit = false

namespace BeginsAfresh

theorem ne_sign (h : BeginsAfresh b) (hc : isSign c = true) : b.head? ≠ some c := by
  intro hhead
  rcases eq_or_eq_of_isSign hc with rfl | rfl
  · exact absurd (h _ hhead).1 (by decide)
  · exact absurd (h _ hhead).1 (by decide)

/-- Digits do not go on in such a text. -/
theorem shortReference?_append (h : BeginsAfresh b) (t : Text) :
    shortReference? (t ++ b) = (shortReference? t).map fun (n, rest) => (n, rest ++ b) := by
  match t with
  | [] =>
    cases b with
    | nil => rfl
    | cons c b =>
      have hc := (h c rfl).2
      cases b with
      | nil => simp [shortReference?, hc]
      | cons d b => simp [shortReference?, hc]
  | [a] =>
    cases b with
    | nil => by_cases ha : a.isDigit <;> simp [shortReference?, ha]
    | cons c b =>
      have hc := (h c rfl).2
      by_cases ha : a.isDigit <;> simp [shortReference?, ha, hc]
  | a :: d :: t =>
    by_cases ha : a.isDigit
    · by_cases hd : d.isDigit <;> simp [shortReference?, ha, hd]
    · simp [shortReference?, ha]

/-- If the closing brace stands in such a text, something that is no digit stands before it. -/
theorem bracedReference?_append (h : BeginsAfresh b) (t : Text) :
    bracedReference? (t ++ b) = (bracedReference? t).map fun (n, rest) => (n, rest ++ b) := by
  by_cases hclose : '\x7d' ∈ t
  · obtain ⟨u, v, rfl, hu⟩ := List.eq_append_cons_of_mem hclose
    rw [List.append_assoc, List.cons_append, bracedReference?_closed hu, bracedReference?_closed hu]
    cases index? u <;> rfl
  rw [bracedReference?_of_notMem hclose]
  by_cases hclose' : '\x7d' ∈ b
  · obtain ⟨u, v, rfl, hu⟩ := List.eq_append_cons_of_mem hclose'
    have hboth : '\x7d' ∉ t ++ u := by simp [hclose, hu]
    have hdigits : (t ++ u).all Char.isDigit = false := by
      cases u with
      | nil => exact absurd (h _ rfl).1 (by decide)
      | cons c u => simp [(h c rfl).2]
    rw [← List.append_assoc, bracedReference?_closed hboth, index?, if_pos (by simp [hdigits])]
    rfl
  · rw [bracedReference?_of_notMem (by simp [hclose, hclose'])]
    rfl

theorem reference?_append (h : BeginsAfresh b) (c : Char) (t : Text) :
    reference? c (t ++ b) = (reference? c t).map fun (n, rest) => (n, rest ++ b) := by
  by_cases hbraced : c = '$' ∧ t.head? = some '\x7b'
  · obtain ⟨rfl, hhead⟩ := hbraced
    obtain ⟨t, rfl⟩ := List.head?_eq_some_iff.1 hhead
    exact h.bracedReference?_append t
  · have hbraced' : ¬ (c = '$' ∧ (t ++ b).head? = some '\x7b') := by
      rintro ⟨hc, hhead⟩
      rw [List.head?_append, Option.or_eq_some_iff] at hhead
      rcases hhead with hhead | ⟨-, hhead⟩
      · exact hbraced ⟨hc, hhead⟩
      · exact absurd (h _ hhead).1 (by decide)
    rw [reference?_short hbraced, reference?_short hbraced', h.shortReference?_append]

theorem firstSegment_append (h : BeginsAfresh b) (c : Char) (t : Text) :
    firstSegment c (t ++ b) = ((firstSegment c t).1, (firstSegment c t).2 ++ b) := by
  by_cases hc : isSign c = true
  · by_cases hhead : t.head? = some c
    · obtain ⟨t, rfl⟩ := List.head?_eq_some_iff.1 hhead
      rw [List.cons_append, firstSegment_doubled hc, firstSegment_doubled hc]
    · have hhead' : (t ++ b).head? ≠ some c := by
        rw [List.head?_append, Ne, Option.or_eq_some_iff]
        exact not_or.2 ⟨hhead, fun hb => h.ne_sign hc hb.2⟩
      rw [firstSegment_single hc hhead, firstSegment_single hc hhead', h.reference?_append]
      cases reference? c t <;> rfl
  · have hc' : isSign c = false := by simpa using hc
    rw [firstSegment_of_not_isSign hc', firstSegment_of_not_isSign hc']

/-- A template in front of such a text is read as it is alone. -/
theorem segments_append (h : BeginsAfresh b) (a : Text) :
    segments ⟨a ++ b⟩ = segments ⟨a⟩ ++ segments ⟨b⟩ := by
  induction a using segments_induction with
  | nil => simp
  | cons c a ih =>
    rw [List.cons_append, segments_cons, segments_cons, h.firstSegment_append, ih]
    rfl

end BeginsAfresh

/-! ## Doubled signs -/

/-- A text with all its signs doubled. -/
def doubleSigns (s : Text) : Text :=
  s.flatMap fun c => if isSign c then [c, c] else [c]

/-- Doubled signs stand for single ones. -/
theorem segments_doubleSigns (s : Text) : segments ⟨doubleSigns s⟩ = s.map .char := by
  induction s with
  | nil => exact segments_nil
  | cons c s ih =>
    rw [doubleSigns, List.flatMap_cons, ← doubleSigns]
    by_cases hc : isSign c = true
    · rw [if_pos hc, List.cons_append, segments_cons, List.singleton_append,
        firstSegment_doubled hc, ih, List.map_cons]
    · rw [if_neg hc, List.singleton_append, segments_cons,
        firstSegment_of_not_isSign (by simpa using hc), ih, List.map_cons]

end Template

end Markdown
