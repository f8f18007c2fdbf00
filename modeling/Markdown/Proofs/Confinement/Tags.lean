import Markdown.Proofs.Confinement.Words

/-!
# Tags with addresses

The tag of an image is found again by the search that begins with it, if the quote behind its address
stands in the same line. A search that begins elsewhere is idle if the quote that ends it does not
begin another tag. The openings of the two kinds (`IsOpening`) and the tags of links (`IsLinkTag`) are
the parts that address words are confined to, and edits inside of them leave them what they are
(`StaysInside.confined`). As long as links are still to be set, no reference may begin or end where the
search goes (`IsUncutTag`).
-/

namespace Markdown

open Pattern Text

variable {o : Options} {a b g p s t t' u x y z : Text}

/-! ## Quotes -/

/-- The next quote is not the end of the beginning of an image's tag. -/
def IsQuiet (t : Text) : Prop :=
  ∃ g s, t = g ++ '\'' :: s ∧ '\'' ∉ g ∧ ¬ "<img src=".toList <:+ g

theorem IsQuiet.quote_mem (h : IsQuiet t) : '\'' ∈ t := by
  obtain ⟨g, s, rfl, -⟩ := h
  simp

/-- Up to its first quote, a text has the beginning of an image's tag exactly if it reads so in front of
the quote. -/
theorem imageOpening_isInfix_iff (hg : '\'' ∉ g) :
    "<img src='".toList <:+: g ++ ['\''] ↔ "<img src=".toList <:+ g := by
  constructor
  · rintro ⟨l, r, h⟩
    rcases List.eq_nil_or_concat r with rfl | ⟨r, c, rfl⟩
    · have hsplit : (l ++ "<img src=".toList) ++ ['\''] = g ++ ['\''] := by simpa using h
      exact ⟨l, (List.append_inj' hsplit rfl).1⟩
    · have hsplit : (l ++ "<img src='".toList ++ r) ++ [c] = g ++ ['\''] := by simpa using h
      exact absurd (by simp [← (List.append_inj' hsplit rfl).1]) hg
  · rintro ⟨l, rfl⟩
    exact ⟨l, [], by simp⟩

theorem isQuiet_append_quote (hg : '\'' ∉ g) (s : Text) :
    IsQuiet (g ++ '\'' :: s) ↔ ¬ "<img src=".toList <:+ g := by
  refine ⟨?_, fun h => ⟨g, s, rfl, hg, h⟩⟩
  rintro ⟨g', s', h, hg', hnot⟩
  rwa [(append_cons_inj h hg hg').1]

/-- If a text has a quote, what stands behind it does not matter. -/
theorem IsQuiet.of_mem (h : IsQuiet (x ++ y)) (hx : '\'' ∈ x) (z : Text) : IsQuiet (x ++ z) := by
  obtain ⟨g, s, rfl, hg⟩ := List.eq_append_cons_of_mem hx
  rw [List.append_assoc, List.cons_append, isQuiet_append_quote hg] at h ⊢
  exact h

/-- If it has none, only the lines behind it matter. -/
theorem isQuiet_append_lineFeed (hx : '\'' ∉ x) (y : Text) : IsQuiet (x ++ '\n' :: y) ↔ IsQuiet y := by
  have hfront {g : Text} (hg : '\'' ∉ g) : '\'' ∉ x ++ '\n' :: g := by simp [hx, hg]
  have hsplit (g s : Text) : x ++ '\n' :: (g ++ '\'' :: s) = (x ++ '\n' :: g) ++ '\'' :: s := by simp
  constructor
  · intro hquiet
    have hy : '\'' ∈ y := by simpa [hx] using hquiet.quote_mem
    obtain ⟨g, s, h, hg, hnot⟩ := hquiet
    obtain ⟨g', s', rfl, hg'⟩ := List.eq_append_cons_of_mem hy
    rw [hsplit] at h
    obtain ⟨rfl, -⟩ := append_cons_inj h (hfront hg') hg
    exact ⟨g', s', rfl, hg', fun hs =>
      hnot (hs.trans ((List.suffix_cons '\n' g').trans (List.suffix_append x _)))⟩
  · rintro ⟨g, s, rfl, hg, hnot⟩
    exact ⟨_, s, hsplit g s, hfront hg, fun hs => hnot (suffix_of_notMem (by decide) hs)⟩

/-! ## Addresses -/

/-- What one of the rules for merging takes out of a text. -/
def IsSeam (s : Text) : Prop :=
  ∃ (f : Family) (space : Text), IsSeamSpace space ∧ s = seam f.closing f.opening space

/-- Merging, if the options ask for it, takes nothing out of an address. -/
def IsSeamless (o : Options) (u : Text) : Prop :=
  o.mergeAdjacentBlocks → ∀ s, IsSeam s → ¬ s <:+: u

theorem isSeamless_of_notMem {u : Text} (h : '<' ∉ u) : IsSeamless o u := by
  rintro - s ⟨f, space, -, rfl⟩ hin
  have hangle : '<' ∈ f.closing := by cases f <;> decide
  exact h (hin.subset (List.mem_append_left _ (List.mem_append_left _ hangle)))

theorem IsSeamless.of_isInfix (h : IsSeamless o u) (hin : x <:+: u) : IsSeamless o x :=
  fun ho s hs hx => h ho s hs (hx.trans hin)

/-- The address of an image, if the search for its end finds it and it stays as it is. -/
structure IsImageAddress (o : Options) (u : Text) : Prop where
  notMem : ∀ c ∈ ['\n', '\''], c ∉ u
  isSeamless : IsSeamless o u

theorem IsImageAddress.of_isInfix (h : IsImageAddress o u) (hin : x <:+: u) : IsImageAddress o x :=
  ⟨fun c hc hx => h.notMem c hc (hin.subset hx), h.isSeamless.of_isInfix hin⟩

/-- The address of a link, if it stays in its tag as a whole. -/
structure IsLinkAddress (o : Options) (u : Text) : Prop where
  lineFeed_notMem : '\n' ∉ u
  /-- Neither in the address nor directly in front of it does the tag end. -/
  not_isInfix : ¬ ['\'', '>'] <:+: '\'' :: u
  isSeamless : IsSeamless o u

/-! ## Stretches -/

/-- The search for the address of an image goes over `p ++ g`, and it may find tokens in `p`. -/
structure IsStretch (o : Options) (p g : Text) : Prop where
  quote_notMem : '\'' ∉ p ++ g
  /-- The quote behind the stretch is not the end of the beginning of another tag. -/
  not_suffix : ¬ "<img src=".toList <:+ g
  isImageAddress : p ≠ [] → IsImageAddress o (p ++ g)

/-- A reference ends nowhere in the stretch, and does not begin in `p`. -/
structure IsUncut (p g : Text) : Prop where
  notMem : ∀ c ∈ ['[', ']'], c ∉ p
  not_isInfix : ¬ [']', '('] <:+: g

/-- The beginning of the tag of an image, in front of the rest of the stretch that the search for the
address goes over. No link that is still to be set ends there, or begins in the tag. -/
def IsUncutTag (o : Options) (a b : Text) : Prop :=
  ∃ p g s, IsStretch o p g ∧ IsUncut p g ∧ ')' ∉ p ++ g ∧ a = "<img src='".toList ++ p ∧
    b = g ++ '\'' :: s

/-- Such a tag in a text in which no image is set yet: its address ends in the same line, and no image
begins there. -/
def IsImageTag (o : Options) (a b : Text) : Prop :=
  ∃ p g s, IsStretch o p g ∧ IsUncut p g ∧ (∀ c ∈ ['\n', ')'], c ∉ p ++ g) ∧
    ¬ ['!', '['] <:+: p ++ g ∧ a = "<img src='".toList ++ p ∧ b = g ++ '\'' :: s

theorem IsImageTag.isUncutTag (h : IsImageTag o a b) : IsUncutTag o a b := by
  obtain ⟨p, g, s, hstretch, huncut, hnot, -, rfl, rfl⟩ := h
  exact ⟨p, g, s, hstretch, huncut, hnot ')' (by simp), rfl, rfl⟩

/-! ## Parts of a text -/

/-- The beginning of the tag of an image, with which a search begins. -/
inductive IsOpening (o : Options) : Text → Text → Prop where
  /-- What the search finds may have tokens. The quote that ends it may stand in front of the address
  of a link. -/
  | found {u b : Text} : IsImageAddress o u → ['\''] <+: b ∨ "<a href='".toList <+: b →
      IsOpening o ("<img src='".toList ++ u) b
  /-- A search that finds no token, and leaves alone what has some. -/
  | idle {b : Text} : IsQuiet b → IsOpening o "<img src='".toList b

/-- In a text, the tags of images begin with openings only. -/
def HasOpenings (o : Options) (t : Text) : Prop :=
  Confined ["<img src='".toList] (IsOpening o) [] t

/-- The tag of a link. Images in its address are found again, with the quote behind it. -/
def IsLinkTag (o : Options) (a : Text) : Prop :=
  ∃ u, IsLinkAddress o u ∧ HasOpenings o (u ++ ['\'']) ∧ a = "<a href='".toList ++ u ++ ['\'', '>']

/-- What has an address. -/
def IsAddressTag (o : Options) (a b : Text) : Prop :=
  IsOpening o a b ∨ IsLinkTag o a

theorem IsOpening.exists_eq (h : IsOpening o a b) :
    ∃ u, (∀ c ∈ ['\n', '\''], c ∉ u) ∧ a = "<img src='".toList ++ u := by
  cases h with
  | found hu _ => exact ⟨_, hu.notMem, rfl⟩
  | idle _ => exact ⟨[], by simp, by simp⟩

/-- The text goes on with a quote or a bracket behind an address. -/
theorem IsOpening.eq_nil_or (h : IsOpening o ("<img src='".toList ++ u) b) :
    u = [] ∨ ∃ c s, b = c :: s ∧ c ∈ ['\'', '<'] := by
  generalize hx : "<img src='".toList ++ u = a at h
  cases h with
  | found _ hb =>
    rcases hb with ⟨s, rfl⟩ | ⟨s, rfl⟩
    · exact .inr ⟨'\'', s, rfl, by simp⟩
    · exact .inr ⟨'<', "a href='".toList ++ s, rfl, by simp⟩
  | idle _ => exact .inl (by simpa using hx)

theorem IsAddressTag.lineFeed_notMem (h : IsAddressTag o a b) : '\n' ∉ a := by
  rcases h with h | ⟨u, hu, -, rfl⟩
  · obtain ⟨u, hu, rfl⟩ := h.exists_eq
    simp [hu]
  · simp [hu.lineFeed_notMem]

/-! ### Beginnings of parts -/

section Parts

variable {W : List Text} {P : Text → Text → Prop} {r : Text} {c : Char}

/-- Parts of some kind begin with an angle bracket. -/
def AreAngled (P : Text → Text → Prop) : Prop :=
  ∀ a b, P a b → a.head? = some '<'

theorem AreAngled.ne_nil (hP : AreAngled P) (a b : Text) (ha : P a b) : a ≠ [] :=
  List.ne_nil_of_mem (List.mem_of_mem_head? (hP a b ha))

/-- They do not begin in a text without one. -/
theorem Confined.of_append_of_notMem (hP : AreAngled P) (h : Confined W P r (x ++ t)) (hx : '<' ∉ x) :
    Confined W P r t := by
  refine h.of_append_of_isFree fun a b ha => ?_
  obtain ⟨a, rfl⟩ := List.head?_eq_some_iff.1 (hP a b ha)
  exact isFree_of_notMem a hx

theorem Confined.of_cons (hP : AreAngled P) (h : Confined W P r (c :: t)) (hc : c ≠ '<') :
    Confined W P r t :=
  of_append_of_notMem (x := [c]) hP h (by simpa using hc.symm)

/-- Parts of some kind have one quote only, behind the beginning of the tag of an image. -/
def AreQuoted (P : Text → Text → Prop) : Prop :=
  ∀ a b, P a b → ∃ u, a = "<img src=".toList ++ '\'' :: u ∧ '\'' ∉ u

theorem AreQuoted.areAngled (hP : AreQuoted P) : AreAngled P := by
  intro a b ha
  obtain ⟨u, rfl, -⟩ := hP a b ha
  rfl

theorem areQuoted_isOpening (o : Options) : AreQuoted (IsOpening o) := by
  intro a b h
  obtain ⟨u, hu, rfl⟩ := h.exists_eq
  exact ⟨u, by simp, hu '\'' (by simp)⟩

theorem areQuoted_isUncutTag (o : Options) : AreQuoted (IsUncutTag o) := by
  rintro _ _ ⟨p, g, s, hstretch, -, -, rfl, -⟩
  exact ⟨p, by simp, fun hm => hstretch.quote_notMem (List.mem_append_left g hm)⟩

theorem areQuoted_isImageTag (o : Options) : AreQuoted (IsImageTag o) :=
  fun a b h => areQuoted_isUncutTag o a b h.isUncutTag

theorem areAngled_isAddressTag (o : Options) : AreAngled (IsAddressTag o) := by
  rintro a b (ha | ⟨u, -, -, rfl⟩)
  · exact (areQuoted_isOpening o).areAngled a b ha
  · rfl

/-- A text can be divided at a quote that does not complete such a beginning. -/
theorem Confined.of_append_quote (hP : AreQuoted P) (h : Confined W P r (x ++ y))
    (hy : y = [] ∨ ['\''] <+: y ∧ ¬ "<img src=".toList <:+ x) :
    Confined W P (y ++ r) x ∧ Confined W P r y := by
  refine h.of_append fun w w' b hw hw' _ hne ha _ => ?_
  rcases hy with rfl | ⟨⟨y, rfl⟩, hnot⟩
  · exact hne (List.prefix_nil.1 hw')
  · obtain ⟨c, w', rfl⟩ := List.exists_cons_of_ne_nil hne
    obtain rfl := (List.cons_prefix_cons.1 hw').1
    obtain ⟨u, heq, hu⟩ := hP _ b ha
    rcases append_cons_cases heq with ⟨rfl, -⟩ | ⟨z, hz, -⟩ | ⟨z, -, rfl⟩
    · exact hnot hw
    · exact absurd (hz ▸ List.mem_append_right w List.mem_cons_self) (by decide)
    · exact hu (by simp)

end Parts

/-! ## Edits inside of tags -/

/-- The characters of the tags around addresses. -/
def tagChars : List Char :=
  "<a href='img src>".toList

/-- Whether a text that is replaced is no part of a tag around an address. -/
def isInside (m : Text) : Bool :=
  !m.isEmpty && m.all fun c => !tagChars.elem c

/-- Whether a text can be put into an address: it ends nothing, and it is no part of the beginning of
a tag or of a seam. -/
def isHarmless (m : Text) : Bool :=
  m.all (fun c => !(['\n', '\''].elem c)) && m.head?.any (!Unicode.isWhiteSpace ·) &&
    foreign ["<img src='".toList] m && foreign [['\'', '>']] m &&
    [Family.bulleted, Family.numbered, Family.quoted].all fun f =>
      lacks f.closing m && clears m f.closing.tail && clears m f.opening

theorem of_isInside {m : Text} (h : isInside m) : m ≠ [] ∧ ∀ c ∈ m, c ∉ tagChars := by
  simpa [isInside] using h

theorem subset_tagChars :
    "<img src='".toList ⊆ tagChars ∧ "<a href='".toList ⊆ tagChars := by
  have hsubset {t : Text} (h : t.all (tagChars.elem ·)) : t ⊆ tagChars := fun c hc =>
    List.mem_of_elem_eq_true (List.all_eq_true.1 h c hc)
  exact ⟨hsubset rfl, hsubset rfl⟩

/-- A harmless text is no part of a seam. -/
theorem isForeign_seam {m s : Text} (h : isHarmless m) (hs : IsSeam s) : IsForeign [s] m := by
  obtain ⟨f, space, hspace, rfl⟩ := hs
  simp only [isHarmless, Bool.and_eq_true, List.all_cons, List.all_nil, and_true] at h
  obtain ⟨⟨⟨⟨-, hblank⟩, -⟩, -⟩, hul, hol, hquote⟩ := h
  have hclosing : IsFree f.closing m := by
    cases f
    · exact isFree_of_lacks hul.1.1
    · exact isFree_of_lacks hol.1.1
    · exact isFree_of_lacks hquote.1.1
  have htail : IsClear f.closing.tail m := by
    cases f
    · exact isClear_of_clears hul.1.2
    · exact isClear_of_clears hol.1.2
    · exact isClear_of_clears hquote.1.2
  have hopening : IsClear f.opening m := by
    cases f
    · exact isClear_of_clears hul.2
    · exact isClear_of_clears hol.2
    · exact isClear_of_clears hquote.2
  have hclear : IsClear space m := by
    rcases hspace with rfl | ⟨d, hd, rfl⟩
    · exact fun v hv hne => absurd (List.suffix_nil.1 hv) hne
    · cases m with
      | nil => simp at hblank
      | cons c m =>
        refine isClear_of_notMem m fun hc => ?_
        obtain rfl := List.mem_singleton.1 hc
        simp [hd] at hblank
  refine List.forall_mem_singleton.2 ⟨?_, (htail.append hclear).append hopening⟩
  rw [seam, List.append_assoc]
  exact hclosing.append_word _

/-- Texts that can take each other's places inside of tags with addresses. -/
structure StaysInside (ms ms' : List Text) : Prop where
  isInside_of_mem : ∀ m ∈ ms, isInside m
  isHarmless_of_mem : ∀ m ∈ ms', isHarmless m

namespace StaysInside

variable {ms ms' : List Text} {m m' u u' : Text} {c : Char}

theorem old (h : StaysInside ms ms') :
    ∀ m m', OneFor ms ms' m m' → m ≠ [] ∧ ∀ c ∈ m, c ∉ tagChars :=
  fun _ _ hm => of_isInside (h.isInside_of_mem _ hm.1)

theorem notMem_old (h : StaysInside ms ms') (hc : c ∈ tagChars) :
    ∀ m m', OneFor ms ms' m m' → m ≠ [] ∧ c ∉ m :=
  fun m m' hm => ⟨(h.old m m' hm).1, fun hmem => (h.old m m' hm).2 c hmem hc⟩

theorem isFree_old (h : StaysInside ms ms') (ht : t ⊆ tagChars) :
    ∀ m m', OneFor ms ms' m m' → IsFree m t := by
  intro m m' hm
  obtain ⟨hne, hnot⟩ := h.old m m' hm
  exact isFree_of_forall (fun d hd hhead => hnot d (List.mem_of_mem_head? hhead) (ht hd)) hne

theorem notMem_new (h : StaysInside ms ms') (hc : c ∈ ['\n', '\'']) :
    ∀ m m', OneFor ms ms' m m' → c ∉ m' := by
  intro m m' hm hmem
  have hharmless := h.isHarmless_of_mem m' hm.2
  simp only [isHarmless, Bool.and_eq_true, List.all_eq_true] at hharmless
  have hnot := hharmless.1.1.1.1 c hmem
  rw [List.elem_eq_true_of_mem hc] at hnot
  exact absurd hnot (by simp)

theorem isForeign_imageOpening (h : StaysInside ms ms') :
    ∀ m m', OneFor ms ms' m m' → IsForeign ["<img src='".toList] m' := by
  intro m m' hm
  have hharmless := h.isHarmless_of_mem m' hm.2
  simp only [isHarmless, Bool.and_eq_true] at hharmless
  exact isForeign_of_foreign hharmless.1.1.2

theorem isForeign_end (h : StaysInside ms ms') :
    ∀ m m', OneFor ms ms' m m' → IsForeign [['\'', '>']] m' := by
  intro m m' hm
  have hharmless := h.isHarmless_of_mem m' hm.2
  simp only [isHarmless, Bool.and_eq_true] at hharmless
  exact isForeign_of_foreign hharmless.1.2

theorem isSeamless (h : StaysInside ms ms') (he : Edited (OneFor ms ms') u u')
    (hu : IsSeamless o u) : IsSeamless o u' := by
  intro ho s hs
  have hne : s ≠ [] := by
    obtain ⟨f, space, -, rfl⟩ := hs
    simp [seam, Family.closing]
  exact he.not_isInfix hne (fun m m' hm => (h.old m m' hm).1)
    (fun m m' hm => isForeign_seam (h.isHarmless_of_mem m' hm.2) hs) (hu ho s hs)

theorem isImageAddress (h : StaysInside ms ms') (he : Edited (OneFor ms ms') u u')
    (hu : IsImageAddress o u) : IsImageAddress o u' where
  notMem c hc := he.notMem (h.notMem_new hc) (hu.notMem c hc)
  isSeamless := h.isSeamless he hu.isSeamless

theorem isLinkAddress (h : StaysInside ms ms') (he : Edited (OneFor ms ms') u u')
    (hu : IsLinkAddress o u) : IsLinkAddress o u' where
  lineFeed_notMem := he.notMem (h.notMem_new (by simp)) hu.lineFeed_notMem
  not_isInfix := (Edited.keep '\'' he).not_isInfix (by simp) (fun m m' hm => (h.old m m' hm).1)
    h.isForeign_end hu.not_isInfix
  isSeamless := h.isSeamless he hu.isSeamless

theorem isQuiet (h : StaysInside ms ms') (he : Edited (OneFor ms ms') t t') (ht : IsQuiet t) :
    IsQuiet t' := by
  obtain ⟨g, s, rfl, hg, hnot⟩ := ht
  obtain ⟨g', s', rfl, hg', -⟩ := he.exists_eq_append_cons (h.notMem_old (by decide))
  have hquote : '\'' ∉ g' := hg'.notMem (h.notMem_new (by simp)) hg
  refine ⟨g', s', rfl, hquote, ?_⟩
  rw [← imageOpening_isInfix_iff hg] at hnot
  rw [← imageOpening_isInfix_iff hquote]
  exact (hg'.append (.refl ['\''])).not_isInfix (by simp) (fun m m' hm => (h.old m m' hm).1)
    h.isForeign_imageOpening hnot

theorem isOpening (h : StaysInside ms ms') (ha : IsOpening o ("<img src='".toList ++ u) t)
    (hu : Edited (OneFor ms ms') u u') (ht : Edited (OneFor ms ms') t t') :
    IsOpening o ("<img src='".toList ++ u') t' := by
  generalize hx : "<img src='".toList ++ u = a at ha
  cases ha with
  | found hv hb =>
    obtain rfl := List.append_cancel_left hx
    refine .found (h.isImageAddress hu hv) ?_
    rcases hb with ⟨s, rfl⟩ | ⟨s, rfl⟩
    · obtain ⟨y, rfl, -⟩ := ht.exists_eq_append (h.isFree_old (t := ['\'']) (by decide))
      exact .inl ⟨y, rfl⟩
    · obtain ⟨y, rfl, -⟩ := ht.exists_eq_append (h.isFree_old subset_tagChars.2)
      exact .inr ⟨y, rfl⟩
  | idle hb =>
    obtain rfl : u = [] := by simpa using hx
    rw [hu.eq_nil fun m m' hm => (h.old m m' hm).1, List.append_nil]
    exact .idle (h.isQuiet ht hb)

/-- An edit goes through an opening. -/
theorem exists_isOpening (h : StaysInside ms ms') (ha : IsOpening o a t)
    (he : Edited (OneFor ms ms') (a ++ t) t') :
    ∃ a' r, t' = a' ++ r ∧ IsOpening o a' r ∧ Edited (OneFor ms ms') t r := by
  obtain ⟨u, -, rfl⟩ := ha.exists_eq
  rw [List.append_assoc] at he
  obtain ⟨y, rfl, hy⟩ := he.exists_eq_append (h.isFree_old subset_tagChars.1)
  obtain ⟨u', r, rfl, hu, hr⟩ : ∃ u' r, y = u' ++ r ∧ Edited (OneFor ms ms') u u' ∧
      Edited (OneFor ms ms') t r := by
    rcases ha.eq_nil_or with rfl | ⟨c, s, rfl, hc⟩
    · exact ⟨[], y, rfl, .nil, hy⟩
    · have hmem : c ∈ tagChars := by
        rcases List.mem_pair.1 hc with rfl | rfl <;> decide
      obtain ⟨u', s', rfl, hu, hs⟩ := hy.exists_eq_append_cons (h.notMem_old hmem)
      exact ⟨u', c :: s', rfl, hu, .keep c hs⟩
  exact ⟨_, r, by simp, h.isOpening ha hu hr, hr⟩

/-- Nothing of what is replaced begins like a tag. -/
theorem not_of_areAngled (h : StaysInside ms ms') {P : Text → Text → Prop} (hP : AreAngled P)
    (m m' x y b : Text) (hm : OneFor ms ms' m m') (hx : x <:+ m) (hne : x ≠ []) : ¬ P (x ++ y) b := by
  intro ha
  obtain ⟨c, x, rfl⟩ := List.exists_cons_of_ne_nil hne
  obtain rfl : c = '<' := Option.some.inj (hP _ b ha)
  exact (h.notMem_old (by decide) m m' hm).2 (hx.subset List.mem_cons_self)

/-- Behind an edit, the tags of images begin with openings. -/
theorem hasOpenings (h : StaysInside ms ms') (he : Edited (OneFor ms ms') t t')
    (ht : HasOpenings o t) : HasOpenings o t' := by
  have hP := (areQuoted_isOpening o).areAngled
  exact ht.edited_of_isForeign hP.ne_nil (fun m m' hm => (h.old m m' hm).1)
    h.isForeign_imageOpening (h.not_of_areAngled hP) (fun _ _ _ ha _ he => h.exists_isOpening ha he) he

/-- An edit goes through the tag of a link. -/
theorem exists_isLinkTag (h : StaysInside ms ms') (ha : IsLinkTag o a)
    (he : Edited (OneFor ms ms') (a ++ t) t') :
    ∃ a' r, t' = a' ++ r ∧ IsLinkTag o a' ∧ Edited (OneFor ms ms') t r := by
  obtain ⟨u, hu, himages, rfl⟩ := ha
  have hsplit : "<a href='".toList ++ u ++ ['\'', '>'] ++ t =
      "<a href='".toList ++ (u ++ '\'' :: (['>'] ++ t)) := by
    simp
  rw [hsplit] at he
  obtain ⟨y, rfl, hy⟩ := he.exists_eq_append (h.isFree_old subset_tagChars.2)
  obtain ⟨u', z, rfl, hu', hz⟩ := hy.exists_eq_append_cons (h.notMem_old (by decide))
  obtain ⟨r, rfl, hr⟩ := hz.exists_eq_append (h.isFree_old (by decide))
  refine ⟨_, r, by simp, ⟨u', h.isLinkAddress hu' hu, ?_, rfl⟩, hr⟩
  exact h.hasOpenings (hu'.append (.refl ['\''])) himages

/-- An edit goes through a tag with an address. -/
theorem exists_isAddressTag (h : StaysInside ms ms') (ha : IsAddressTag o a t)
    (he : Edited (OneFor ms ms') (a ++ t) t') :
    ∃ a' r, t' = a' ++ r ∧ IsAddressTag o a' r ∧ Edited (OneFor ms ms') t r := by
  rcases ha with ha | ha
  · obtain ⟨a', r, rfl, ha', hr⟩ := h.exists_isOpening ha he
    exact ⟨a', r, rfl, .inl ha', hr⟩
  · obtain ⟨a', r, rfl, ha', hr⟩ := h.exists_isLinkTag ha he
    exact ⟨a', r, rfl, .inr ha', hr⟩

/-- Words stay confined to the tags with addresses if nothing that is put in makes one of them. -/
theorem confined {W : List Text} (h : StaysInside ms ms') (hW : ∀ m ∈ ms', IsForeign W m)
    (ht : Confined W (IsAddressTag o) [] t) (he : Edited (OneFor ms ms') t t') :
    Confined W (IsAddressTag o) [] t' := by
  have hP := areAngled_isAddressTag o
  exact ht.edited_of_isForeign hP.ne_nil (fun m m' hm => (h.old m m' hm).1) (fun _ m' hm => hW m' hm.2)
    (h.not_of_areAngled hP) (fun _ _ _ ha _ he => h.exists_isAddressTag ha he) he

end StaysInside

end Markdown
