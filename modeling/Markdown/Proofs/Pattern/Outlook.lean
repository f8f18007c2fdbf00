import Markdown.Proofs.Pattern.Delimited

/-!
# Where a delimiter may open

The outlook of a text in terms of its parts: a part without backticks has no influence on whether they
pair up, nor has code; a part without closing angle brackets does not bring a place into a tag, nor
does anything that begins with an opening one.
-/

namespace Markdown.Outlook

/-- The backticks ahead pair up seen from outside of code, but not from inside. -/
structure IsPaired (o : Outlook) : Prop where
  outsideCode : o.outsideCode = true
  insideCode : o.insideCode = false

variable {c : Char} {t u : Text}

theorem isPaired_atEnd : IsPaired (ofText []) :=
  ⟨rfl, rfl⟩

theorem isPaired_cons (hc : c ≠ '`') (h : IsPaired (ofText t)) : IsPaired (ofText (c :: t)) := by
  obtain ⟨hout, hin⟩ := h
  constructor
  · show (if c = '`' then _ else (ofText t).outsideCode) = true
    rw [if_neg hc, hout]
  · show (if c = '`' then _ else c != '\n' && c != '\r' && (ofText t).insideCode) = false
    rw [if_neg hc, hin, Bool.and_false]

theorem isPaired_append (hu : '`' ∉ u) (h : IsPaired (ofText t)) : IsPaired (ofText (u ++ t)) := by
  induction u with
  | nil => exact h
  | cons c u ih =>
    exact isPaired_cons (fun hc => hu (by simp [hc])) (ih fun hm => hu (by simp [hm]))

/-- The next backtick decides what is seen from the outside. -/
theorem outsideCode_append_backtick (hu : '`' ∉ u) (t : Text) :
    (ofText (u ++ '`' :: t)).outsideCode = (ofText t).insideCode := by
  induction u with
  | nil => rfl
  | cons c u ih =>
    have hc : c ≠ '`' := fun hc => hu (by simp [hc])
    show (if c = '`' then _ else (ofText (u ++ '`' :: t)).outsideCode) = _
    rw [if_neg hc, ih fun hm => hu (by simp [hm])]

/-- So it does for what is seen from the inside, if no line ends before. -/
theorem insideCode_append_backtick (hu : ∀ c ∈ ['`', '\n', '\r'], c ∉ u) (t : Text) :
    (ofText (u ++ '`' :: t)).insideCode = (ofText t).outsideCode := by
  induction u with
  | nil => rfl
  | cons c u ih =>
    have hc : c ≠ '`' := fun hc => hu '`' (by simp) (by simp [hc])
    have hlf : c ≠ '\n' := fun hc => hu '\n' (by simp) (by simp [hc])
    have hcr : c ≠ '\r' := fun hc => hu '\r' (by simp) (by simp [hc])
    show (if c = '`' then _ else
      c != '\n' && c != '\r' && (ofText (u ++ '`' :: t)).insideCode) = _
    rw [if_neg hc, ih fun d hd hm => hu d hd (by simp [hm])]
    simp [hlf, hcr]

/-- Code has no influence on what is behind it. -/
theorem isPaired_code (hu : ∀ c ∈ ['`', '\n', '\r'], c ∉ u) (h : IsPaired (ofText t)) :
    IsPaired (ofText ('`' :: (u ++ '`' :: t))) := by
  have hout : (ofText ('`' :: (u ++ '`' :: t))).outsideCode =
      (ofText (u ++ '`' :: t)).insideCode := rfl
  have hin : (ofText ('`' :: (u ++ '`' :: t))).insideCode =
      (ofText (u ++ '`' :: t)).outsideCode := rfl
  constructor
  · rw [hout, insideCode_append_backtick hu, h.outsideCode]
  · rw [hin, outsideCode_append_backtick (hu '`' (by simp)), h.insideCode]

/-- In front of a closing angle bracket, a place is inside of a tag if a closing tag is on the line. -/
theorem insideTag_angle_eq (t : Text) : (ofText ('>' :: t)).insideTag =
    ((ofText t).closingTagAhead || (ofText t).insideTag) := rfl

theorem insideTag_angle (t : Text) : (ofText ('<' :: t)).insideTag = false := rfl

theorem insideTag_append (hu : '>' ∉ u) (h : (ofText t).insideTag = false) :
    (ofText (u ++ t)).insideTag = false := by
  induction u with
  | nil => exact h
  | cons c u ih =>
    have hc : (c == '>') = false := by simpa using fun he => hu (by simp [he])
    show (c != '/' && c != '<' &&
      (c == '>' && _ || (ofText (u ++ t)).insideTag)) = false
    rw [hc, ih fun hm => hu (by simp [hm])]
    simp

/-- A part without slashes and angle brackets does not matter. -/
theorem insideTag_append_of_notMem (hu : ∀ c ∈ ['/', '<', '>'], c ∉ u) (t : Text) :
    (ofText (u ++ t)).insideTag = (ofText t).insideTag := by
  induction u with
  | nil => rfl
  | cons c u ih =>
    have hother {d : Char} (hd : d ∈ ['/', '<', '>']) : c ≠ d := fun he => hu d hd (by simp [he])
    have hslash : (c != '/') = true := by simpa using hother (d := '/') (by simp)
    have hopening : (c != '<') = true := by simpa using hother (d := '<') (by simp)
    have hclosing : (c == '>') = false := by simpa using hother (d := '>') (by simp)
    show (c != '/' && c != '<' &&
      (c == '>' && _ || (ofText (u ++ t)).insideTag)) = _
    rw [hslash, hopening, hclosing, ih fun d hd hm => hu d hd (List.mem_cons_of_mem c hm)]
    rfl

/-- A slash in front of the next closing angle bracket keeps a place out of tags. -/
theorem insideTag_append_slash (hu : '>' ∉ u) (t : Text) :
    (ofText (u ++ '/' :: t)).insideTag = false :=
  insideTag_append hu rfl

theorem closingTagAhead_append_of_notMem (hu : ∀ c ∈ ['\n', '<'], c ∉ u) (t : Text) :
    (ofText (u ++ t)).closingTagAhead = (ofText t).closingTagAhead := by
  induction u with
  | nil => rfl
  | cons c u ih =>
    have hother {d : Char} (hd : d ∈ ['\n', '<']) : c ≠ d := fun he => hu d hd (by simp [he])
    have hlf : (c != '\n') = true := by simpa using hother (d := '\n') (by simp)
    have hangle : (c == '<') = false := by simpa using hother (d := '<') (by simp)
    show (c != '\n' && (c == '<' && _ || (ofText (u ++ t)).closingTagAhead)) = _
    rw [hlf, hangle, ih fun d hd hm => hu d hd (List.mem_cons_of_mem c hm)]
    rfl

theorem closingTagAhead_append (hu : '\n' ∉ u) (h : (ofText t).closingTagAhead) :
    (ofText (u ++ t)).closingTagAhead := by
  induction u with
  | nil => exact h
  | cons c u ih =>
    have hc : (c != '\n') = true := by simpa using fun he => hu (by simp [he])
    show (c != '\n' && (c == '<' && _ || (ofText (u ++ t)).closingTagAhead)) = true
    rw [hc, ih fun hm => hu (by simp [hm]), Bool.or_true]
    rfl

/-- Without a slash and an opening angle bracket in between, a place in front of one inside of a tag
is inside of it. -/
theorem insideTag_append_of_insideTag (hslash : '/' ∉ u) (hangle : '<' ∉ u)
    (h : (ofText t).insideTag) : (ofText (u ++ t)).insideTag := by
  induction u with
  | nil => exact h
  | cons c u ih =>
    have hslash' : (c != '/') = true := by simpa using fun he => hslash (by simp [he])
    have hangle' : (c != '<') = true := by simpa using fun he => hangle (by simp [he])
    show (c != '/' && c != '<' && (c == '>' && _ || (ofText (u ++ t)).insideTag)) = true
    rw [hslash', hangle', ih (fun hm => hslash (by simp [hm])) fun hm => hangle (by simp [hm]),
      Bool.or_true]
    rfl

/-- So it is if the closing one behind it has a closing tag on its line. -/
theorem insideTag_of_closingTagAhead (hslash : '/' ∉ u) (hangle : '<' ∉ u)
    (h : (ofText t).closingTagAhead) : (ofText (u ++ '>' :: t)).insideTag :=
  insideTag_append_of_insideTag hslash hangle (by rw [insideTag_angle_eq, h, Bool.true_or])

theorem mayOpen_of_insideTag {o : Outlook} (h : o.insideTag) : o.mayOpen = false := by
  rw [Outlook.mayOpen, h, Bool.not_true, Bool.and_false]

/-- A place outside of code and tags. -/
structure IsOutside (o : Outlook) : Prop extends IsPaired o where
  insideTag : o.insideTag = false

namespace IsOutside

theorem mayOpen {o : Outlook} (h : IsOutside o) : o.mayOpen = true := by
  rw [Outlook.mayOpen, h.outsideCode, h.insideTag]
  rfl

theorem append (hu : ∀ c ∈ ['`', '>'], c ∉ u) (h : IsOutside (ofText t)) :
    IsOutside (ofText (u ++ t)) :=
  ⟨isPaired_append (hu '`' (by simp)) h.toIsPaired, insideTag_append (hu '>' (by simp)) h.insideTag⟩

/-- In front of a tag. -/
theorem tag (hu : '`' ∉ '<' :: u) (h : IsOutside (ofText t)) :
    IsOutside (ofText ('<' :: u ++ t)) :=
  ⟨isPaired_append hu h.toIsPaired, insideTag_angle (u ++ t)⟩

/-- In front of code. -/
theorem code (hu : ∀ c ∈ ['`', '\n', '\r', '>'], c ∉ u) (h : IsOutside (ofText t)) :
    IsOutside (ofText ('`' :: (u ++ '`' :: t))) := by
  have hsplit : '`' :: (u ++ '`' :: t) = ('`' :: u ++ ['`']) ++ t := by simp
  refine ⟨isPaired_code (fun c hc => hu c ?_) h.toIsPaired, ?_⟩
  · simp only [List.mem_cons, List.not_mem_nil, or_false] at hc ⊢
    rcases hc with rfl | rfl | rfl <;> simp
  · rw [hsplit]
    exact insideTag_append (by simp [hu '>' (by simp)]) h.insideTag

end IsOutside

/-- Inside of code, no delimiter may open. -/
theorem mayOpen_append_backtick (hu : '`' ∉ u) (h : IsPaired (ofText t)) :
    (ofText (u ++ '`' :: t)).mayOpen = false := by
  rw [Outlook.mayOpen, outsideCode_append_backtick hu, h.insideCode]
  rfl

end Markdown.Outlook

namespace Markdown.Pattern

variable {d : Delimiter} {u r : Text}

/-- A word without backticks that stands before a backtick ends before it. -/
theorem isPrefix_append_backtick {m : Text} (hm : '`' ∉ m) :
    m <+: u ++ '`' :: r ↔ m <+: u := by
  refine ⟨fun h => ?_, fun h => h.trans (List.prefix_append ..)⟩
  obtain ⟨t, ht⟩ := h
  rcases List.append_eq_append_iff.1 ht with ⟨x, hx, -⟩ | ⟨x, hx, hxt⟩
  · exact ⟨x, hx.symm⟩
  · cases x with
    | nil => exact ⟨[], by rw [hx, List.append_nil, List.append_nil]⟩
    | cons c x =>
      obtain ⟨rfl, -⟩ := List.cons.inj hxt
      exact absurd (by simp [hx]) hm

/-- No span opens within code. -/
theorem turns_code (hd : ∀ m ∈ d.markers, '`' ∉ m) (ρ : Match → Text) (hu : '`' ∉ u)
    (hr : Outlook.IsPaired (Outlook.ofText r)) :
    (delimiter d).Turns ρ r ('`' :: u ++ ['`']) ('`' :: u ++ ['`']) := by
  have hp := isProper_finder_delimiter d
  have hbacktick (r : Text) : (delimiter d).Turns ρ r ['`'] ['`'] :=
    .of_isFree hp (opensWith_delimiter d) ρ r fun m hm => by
      obtain ⟨c, m', rfl⟩ := List.exists_cons_of_ne_nil (d.ne_nil_of_mem m hm)
      refine Text.isFree_of_notMem m' fun hc => hd _ hm ?_
      rw [← List.mem_singleton.1 hc]
      exact List.mem_cons_self
  have hinside : (delimiter d).Turns ρ (['`'] ++ r) u u := by
    refine .of_none hp ρ fun b x c y hxy => finder_delimiter_of_not_mayOpen fun m hm hpre => ?_
    have hy : '`' ∉ c :: y := fun hc => hu (hxy ▸ List.mem_append_right x hc)
    obtain ⟨z, hz⟩ := (isPrefix_append_backtick (hd m hm)).1 hpre
    have hdrop : (c :: y ++ (['`'] ++ r)).drop m.length = z ++ '`' :: r := by
      rw [← hz, List.append_assoc, List.drop_left]
      rfl
    rw [hdrop]
    exact Outlook.mayOpen_append_backtick (fun hc => hy (hz ▸ List.mem_append_right m hc)) hr
  exact (hbacktick _).append (hinside.append (hbacktick r))

end Markdown.Pattern
