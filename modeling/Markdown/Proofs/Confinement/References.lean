import Markdown.Proofs.Confinement.Passes

/-!
# Images in tags that are found again

The rules for images and links hide the markers in addresses and so write the tokens of addresses, but
only where the searches for tags find them. The search for the address of an image ends at the first
quote, and a reference that begins or ends in the address takes it apart: `IsWholeImage` says of which
images tags can be written so that the tokens stay confined (`Table.confined_image`).
-/

namespace Markdown

open Pattern Text

variable {o : Options} {W : List Text} {P : Text → Text → Prop} {a b g p x y z u t d : Text}

/-! ## Addresses of images -/

/-- A text without markers, so that nothing is to be hidden in it. -/
def IsPlain (u : Text) : Prop :=
  ∀ c ∈ ['_', '*'], c ∉ u

theorem hide_of_isPlain (h : IsPlain u) : Url.hide u = u := by
  induction u with
  | nil => rfl
  | cons c u ih =>
    have hc (e : Char) (he : e ∈ ['_', '*']) : c ≠ e := fun hce => h e he (by simp [hce])
    rw [Url.hide_cons, ih fun e he hm => h e he (List.mem_cons_of_mem c hm), Url.hideChar,
      if_neg (hc '_' (by simp)), if_neg (hc '*' (by simp)), List.singleton_append]

/-- An image whose tag hides markers only where they are found again. The search for the address ends
at the first quote in it, in front of `z`. -/
structure IsWholeImage (o : Options) (x u : Text) : Prop where
  /-- The quote behind the description does not complete the beginning of another tag. -/
  not_suffix : ¬ "<img src=".toList <:+ x
  exists_stretch : ∃ p g z, u = p ++ g ++ z ∧ IsStretch o p g ∧ IsUncut p g ∧ IsPlain (g ++ z) ∧
    (z = [] ∨ ['\''] <+: z ∧ ¬ "<img src=".toList <:+ p ++ g)

theorem staysInside_hide : StaysInside [['_'], ['*']] addressTokens :=
  ⟨by decide, by decide⟩

theorem IsStretch.hide (h : IsStretch o p g) (hg : IsPlain g) : IsStretch o (Url.hide p) g where
  quote_notMem hm := by
    rcases List.mem_append.1 hm with hm | hm
    · exact Url.notMem_hide (fun hp => h.quote_notMem (List.mem_append_left g hp)) (by decide) hm
    · exact h.quote_notMem (List.mem_append_right p hm)
  not_suffix := h.not_suffix
  isImageAddress hne := by
    have hp : p ≠ [] := fun he => hne (by rw [he]; rfl)
    have hhide := staysInside_hide.isImageAddress (Url.edited_hide (p ++ g)) (h.isImageAddress hp)
    rwa [Url.hide_append, hide_of_isPlain hg] at hhide

theorem IsUncut.hide (h : IsUncut p g) : IsUncut (Url.hide p) g where
  notMem c hc := by
    refine Url.notMem_hide (h.notMem c hc) ?_
    rcases List.mem_pair.1 hc with rfl | rfl <;> decide
  not_isInfix := h.not_isInfix

/-- If the quote behind an address completes the beginning of another tag, the search that begins there
ends in front of the description. -/
theorem isUncutTag_alternative (o : Options) (t : Text) :
    IsUncutTag o "<img src='".toList (" alt='".toList ++ t) :=
  ⟨[], " alt=".toList, t, ⟨by decide, by decide, by simp⟩, ⟨by simp, by decide⟩, by decide,
    rfl, rfl⟩

/-- The quote behind a stretch stands in the same text as its beginning, or behind that text. -/
theorem IsUncutTag.rest_cases (h : IsUncutTag o a (z ++ y)) : (∀ y', IsUncutTag o a (z ++ y')) ∨
    ∃ k s, y = k ++ '\'' :: s ∧ (∀ c ∈ ['\'', ')'], c ∉ k) ∧ ¬ [']', '('] <:+: k ∧
      ∀ s', IsUncutTag o a (z ++ (k ++ '\'' :: s')) := by
  obtain ⟨p, g, s, hstretch, huncut, hparen, rfl, hz⟩ := h
  rcases List.append_eq_append_iff.1 hz with ⟨k, rfl, hk⟩ | ⟨k, rfl, hk⟩
  · refine .inr ⟨k, s, hk, fun c hc hm => ?_, fun hin => ?_, fun s' => ?_⟩
    · have hmem : c ∈ p ++ (z ++ k) := by simp [hm]
      rcases List.mem_pair.1 hc with rfl | rfl
      · exact hstretch.quote_notMem hmem
      · exact hparen hmem
    · exact huncut.not_isInfix (hin.trans (List.suffix_append z k).isInfix)
    · exact ⟨p, z ++ k, s', hstretch, huncut, hparen, rfl, by simp⟩
  · cases k with
    | nil =>
      rw [List.nil_append] at hk
      refine .inr ⟨[], s, hk.symm, by simp, by simp, fun s' => ?_⟩
      exact ⟨p, g, s', hstretch, huncut, hparen, rfl, by simp⟩
    | cons c k =>
      obtain ⟨rfl, -⟩ := List.cons.inj hk
      exact .inl fun y' => ⟨p, g, k ++ y', hstretch, huncut, hparen, rfl, by simp⟩

/-- In the description of a reference, a stretch ends. -/
theorem IsUncutTag.of_description (h : IsUncutTag o a (z ++ ']' :: '(' :: y)) (y' : Text) :
    IsUncutTag o a (z ++ y') := by
  rcases h.rest_cases with h | ⟨k, s, hk, -, hnot, -⟩
  · exact h y'
  · rcases k with _ | ⟨c, _ | ⟨e, k⟩⟩
    · exact absurd (List.cons.inj hk).1 (by decide)
    · exact absurd (List.cons.inj (List.cons.inj hk).2).1 (by decide)
    · simp only [List.cons_append, List.cons.injEq] at hk
      obtain ⟨rfl, rfl, -⟩ := hk
      exact absurd ⟨[], k, rfl⟩ hnot

/-- A stretch does not reach over text without a quote to a closing parenthesis. -/
theorem IsUncutTag.of_parenthesis (h : IsUncutTag o a (z ++ (x ++ ')' :: y))) (hx : '\'' ∉ x)
    (y' : Text) : IsUncutTag o a (z ++ y') := by
  rcases h.rest_cases with h | ⟨k, s, hk, hnot, -⟩
  · exact h y'
  · rcases append_cons_cases hk with ⟨-, habsurd, -⟩ | ⟨k, rfl, -⟩ | ⟨x, rfl, -⟩
    · exact absurd habsurd (by decide)
    · exact absurd (by simp) (hnot ')' (by simp))
    · exact absurd (by simp) hx

/-- In the address of a reference, a stretch ends. -/
theorem IsUncutTag.of_address (h : IsUncutTag o a (z ++ ')' :: y)) (y' : Text) :
    IsUncutTag o a (z ++ y') :=
  of_parenthesis (x := []) h (by simp) y'

/-- So it does if the address ends early. -/
theorem IsUncutTag.of_quote (h : IsUncutTag o a (z ++ '\'' :: y)) : IsUncutTag o a (z ++ ['\'']) := by
  rcases h.rest_cases with h | ⟨k, s, hk, hnot, -, h⟩
  · exact h ['\'']
  · cases k with
    | nil => exact h []
    | cons c k =>
      obtain ⟨rfl, -⟩ := List.cons.inj hk
      exact absurd List.mem_cons_self (hnot '\'' (by simp))

/-! ## References -/

/-- Every match is among the matches of a text. -/
theorem exists_mem_matches {p : Pattern} {s : Text} {v : List (Option Text)}
    (h : Piece.found s v ∈ p.pieces t) : ∃ n, (n, ⟨s, v⟩) ∈ p.matches t := by
  have hoffsets (ps acc) (n : Nat) : (offsetsFrom n acc ps).map Prod.snd =
      (acc.reverse.map Prod.snd ++ ps : List (Piece Char (List (Option Text)))) := by
    induction ps generalizing n acc with
    | nil => simp [offsetsFrom]
    | cons q ps ih =>
      rw [offsetsFrom, ih]
      simp
  rw [← List.nil_append (p.pieces t), ← List.map_nil (f := Prod.snd), ← List.reverse_nil,
    ← hoffsets _ _ 0] at h
  obtain ⟨⟨n, _⟩, hmem, rfl⟩ := List.mem_map.1 h
  exact ⟨n, List.mem_filterMap.2 ⟨_, hmem, rfl⟩⟩

/-- Parts are tags in which no reference begins or ends. -/
structure AreUncut (P : Text → Text → Prop) : Prop where
  areAngled : AreAngled P
  notMem : ∀ a b, P a b → ∀ c ∈ ['[', ']', ')'], c ∉ a

theorem areUncut_isUncutTag (o : Options) : AreUncut (IsUncutTag o) where
  areAngled := (areQuoted_isUncutTag o).areAngled
  notMem := by
    rintro _ _ ⟨p, g, s, -, huncut, hparen, rfl, -⟩ c hc hm
    simp only [List.mem_cons, List.not_mem_nil, or_false] at hc
    rcases List.mem_append.1 hm with hm | hm
    · rcases hc with rfl | rfl | rfl <;> exact absurd hm (by decide)
    · rcases hc with rfl | rfl | rfl
      · exact huncut.notMem '[' (by simp) hm
      · exact huncut.notMem ']' (by simp) hm
      · exact hparen (List.mem_append_left g hm)

theorem areUncut_isImageTag (o : Options) : AreUncut (IsImageTag o) where
  areAngled := (areQuoted_isImageTag o).areAngled
  notMem a b h := (areUncut_isUncutTag o).notMem a b h.isUncutTag

/-- The parts of a reference, and what stands behind it. -/
theorem Confined.of_referenceText (hP : AreUncut P) {opening : Text} (hopening : '<' ∉ opening)
    (h : Confined W P [] (referenceText opening x u ++ t)) :
    Confined W P (']' :: '(' :: (u ++ ')' :: t)) x ∧ Confined W P (')' :: t) u ∧
      Confined W P [] t := by
  have hnot {c : Char} (hc : c ∈ ['[', ']', ')']) (a b : Text) (ha : P a b) : c ∉ a :=
    hP.notMem a b ha c hc
  have hsplit : referenceText opening x u ++ t = opening ++ (x ++ ']' :: ('(' :: (u ++ ')' :: t))) := by
    simp [referenceText]
  rw [hsplit] at h
  obtain ⟨hx, hbehind⟩ := (h.of_append_of_notMem hP.areAngled hopening).of_append_cons (hnot (by simp))
  have haddress := (hbehind.of_cons hP.areAngled (by decide)).of_cons hP.areAngled (by decide)
  obtain ⟨hu, ht⟩ := haddress.of_append_cons (hnot (by simp))
  rw [List.append_nil] at hx hu
  exact ⟨hx, hu, ht.of_cons hP.areAngled (by decide)⟩

/-- `f` gives what is written for a reference of the kind `S`. -/
def WritesReference (opening : Text) (S : Text → Text → Prop) (f : Text → Text → Text)
    (m m' : Text) : Prop :=
  ∃ x u, IsReference x u ∧ S x u ∧ m = referenceText opening x u ∧ m' = f x u

/-- A rule for references leaves words confined if what it writes for a reference does. -/
theorem confined_referring {P' : Text → Text → Prop} {source opening : Text}
    {S : Text → Text → Prop} {f : Text → Text → Text} (hP : AreUncut P) (hopening : '<' ∉ opening)
    (hclear : ∀ x u, ∀ w ∈ W, IsClear w.tail (f x u))
    (hpart : ∀ a t t', P a t → Edited (WritesReference opening S f) (a ++ t) t' →
      ∃ a' r, t' = a' ++ r ∧ P' a' r ∧ Edited (WritesReference opening S f) t r)
    (hnew : ∀ x u y z r, IsReference x u → S x u → Confined W P (']' :: '(' :: y) x →
      Confined W P (')' :: z) u → Confined W P' [] r → Confined W P' [] (f x u ++ r))
    (hmatches : ∀ m ∈ (referring source opening).matches d, S (m.2.group 1) (m.2.group 2))
    (h : Confined W P [] d) :
    Confined W P' [] ((referring source opening).rewriteFrom
      (fun m => f (m.group 1) (m.group 2)) none d) := by
  have he : Edited (WritesReference opening S f) d ((referring source opening).rewriteFrom
      (fun m => f (m.group 1) (m.group 2)) none d) := by
    refine .rewriteFrom (isProper_referring source opening) fun b s r v hpiece hf => ?_
    obtain ⟨x, u, href, rfl, rfl⟩ := eq_of_finder_referring hf
    rw [← pieces_eq_piecesFrom] at hpiece
    obtain ⟨n, hmem⟩ := exists_mem_matches hpiece
    exact .single ⟨x, u, href, hmatches _ hmem, rfl, rfl⟩
  refine h.edited hP.areAngled.ne_nil ?_ ?_ (fun a t t' ha _ => hpart a t t' ha) ?_ he
  · rintro _ _ ⟨x, u, -, -, rfl, -⟩
    simp [referenceText]
  · intro c t t' he hw w hmem
    refine he.not_isPrefix_cons ?_ (hw w hmem)
    rintro _ _ ⟨x, u, -, -, -, rfl⟩
    exact hclear x u w hmem
  · rintro _ _ t r ⟨x, u, href, hS, rfl, rfl⟩ ht - ih
    obtain ⟨hx, hu, ht⟩ := ht.of_referenceText hP hopening
    exact hnew x u _ _ r href hS hx hu (ih ht)

/-! ## The rule for images -/

/-- What is written for an image. -/
def imageHtml (x u : Text) : Text :=
  "<img src='".toList ++ Url.hide u ++ "' alt='".toList ++ x ++ "' />".toList

theorem imageHtml_eq (x u : Text) : imageHtml x u =
    "<img src='".toList ++ Url.hide u ++ "' alt='".toList ++ x ++ "' />".toList := rfl

theorem isClear_imageOpening : ∀ w ∈ confinedWords o, IsClear w.tail "<img src='".toList := by
  have hwords : addressWords.all fun w => clears "<img src='".toList w.tail := rfl
  refine isClear_confinedWords (fun w hw => isClear_of_clears ?_) fun f hf => ⟨?_, ?_⟩
  · exact List.all_eq_true.1 hwords w hw
  · exact isFree_of_notMem _ (by decide)
  · simp only [List.mem_cons, List.not_mem_nil, or_false] at hf
    rcases hf with rfl | rfl <;> exact isClear_of_clears rfl

section Image

variable {k r : Text}

/-- A quote can be written behind a text, and if it completes the beginning of a tag, that tag is found
idle. -/
theorem confined_append_quote (hz : Confined (confinedWords o) (IsImageTag o) (')' :: k) z)
    (hr : Confined (confinedWords o) (IsUncutTag o) [] r)
    (hopen : IsUncutTag o "<img src='".toList r) :
    Confined (confinedWords o) (IsUncutTag o) [] (z ++ '\'' :: r) := by
  by_cases hs : "<img src=".toList <:+ z
  · obtain ⟨y, rfl⟩ := hs
    -- no tag ends where the new one begins, since there is no quote
    obtain ⟨hy, -⟩ := hz.of_append fun v v' b _ hv _ _ ha hsplit => by
      obtain ⟨p, g, s, -, -, hnot, -, -, rfl⟩ := ha
      have hparen : ')' ∉ v' ++ g := by
        rw [List.mem_append, not_or]
        exact ⟨fun hm => absurd (hv.subset hm) (by decide),
          fun hm => hnot ')' (by simp) (List.mem_append_right p hm)⟩
      rw [← List.append_assoc] at hsplit
      rcases append_cons_cases hsplit with ⟨-, habsurd, -⟩ | ⟨x, hx, -⟩ | ⟨x, hx, -⟩
      · exact absurd habsurd (by decide)
      · exact absurd (hx ▸ List.mem_append_right (v' ++ g) List.mem_cons_self) (by decide)
      · exact hparen (by simp [hx])
    have hsplit : y ++ "<img src=".toList ++ '\'' :: r = y ++ ("<img src='".toList ++ r) := by simp
    rw [hsplit]
    refine (hy.before (fun w hw => ?_) fun a v _ ha => ?_).whole_append (.whole_part hopen hr)
    · exact apart_of_isClear (isClear_imageOpening w hw) y r
    · exact ha.isUncutTag.of_parenthesis (by decide) _
  · have hquote : Confined (confinedWords o) (IsUncutTag o) [] ('\'' :: r) :=
      hr.append_left (b := ['\'']) (isFree_confinedWords_of_all rfl)
    exact (hz.before (apart_quote hs r) fun a v _ ha => ha.isUncutTag.of_address _).whole_append hquote

/-- In front of its first quote, the address of an image has no tag. -/
theorem Confined.of_stretch (hu : Confined (confinedWords o) (IsImageTag o) (')' :: k) (p ++ g ++ z))
    (hquote : '\'' ∉ p ++ g) (hz : z = [] ∨ ['\''] <+: z ∧ ¬ "<img src=".toList <:+ p ++ g)
    (hg : ¬ "<img src=".toList <:+ g) :
    Confined (confinedWords o) (IsUncutTag o) ('\'' :: r) g ∧
      Confined (confinedWords o) (IsImageTag o) (')' :: k) z := by
  obtain ⟨hfront, hbehind⟩ := hu.of_append_quote (areQuoted_isImageTag o) hz
  have hchars : Confined (confinedWords o) (fun _ _ => False) (z ++ ')' :: k) (p ++ g) :=
    hfront.of_notMem (fun v b ha => by
      obtain ⟨u, rfl, -⟩ := areQuoted_isImageTag o v b ha
      simp) hquote
  obtain ⟨-, hstretch⟩ := hchars.of_append fun _ _ _ _ _ _ _ ha => ha.elim
  exact ⟨hstretch.before (apart_quote hg r) fun _ _ _ ha => ha.elim, hbehind⟩

theorem confined_imageHtml (href : IsReference x u) (h : IsWholeImage o x u)
    (hx : Confined (confinedWords o) (IsImageTag o) (']' :: '(' :: y) x)
    (hu : Confined (confinedWords o) (IsImageTag o) (')' :: k) u)
    (hr : Confined (confinedWords o) (IsUncutTag o) [] r) :
    Confined (confinedWords o) (IsUncutTag o) [] (imageHtml x u ++ r) := by
  obtain ⟨p, g, z, rfl, hstretch, huncut, hplain, hz⟩ := h.exists_stretch
  obtain ⟨⟨hp, hg⟩, -⟩ : (')' ∉ p ∧ ')' ∉ g) ∧ ')' ∉ z := by
    simpa only [List.mem_append, not_or] using href.parenthesis_notMem
  have hparen : ')' ∉ Url.hide p ++ g := by
    rw [List.mem_append, not_or]
    exact ⟨Url.notMem_hide hp (by decide), hg⟩
  have halt : IsForeign (confinedWords o) " alt='".toList := isForeign_confinedWords rfl
  have hclose : ∀ w ∈ confinedWords o, IsFree w "' />".toList := isFree_confinedWords_of_all rfl
  -- the description with the quotes around it
  have hrest : Confined (confinedWords o) (IsUncutTag o) [] (x ++ ("' />".toList ++ r)) := by
    refine (hx.before (apart_quote h.not_suffix _) fun a z _ ha => ?_).whole_append
      (hr.append_left hclose)
    exact ha.isUncutTag.of_description _
  obtain ⟨s, hs⟩ : ∃ s, z ++ '\'' :: (" alt='".toList ++ (x ++ ("' />".toList ++ r))) = '\'' :: s := by
    rcases hz with rfl | ⟨⟨z, rfl⟩, -⟩
    · exact ⟨_, rfl⟩
    · exact ⟨_, rfl⟩
  obtain ⟨hg, hz⟩ := hu.of_stretch (r := s) hstretch.quote_notMem hz hstretch.not_suffix
  have hbehind := confined_append_quote hz (hrest.append_left halt.isFree) (isUncutTag_alternative o _)
  have hsplit : imageHtml x (p ++ g ++ z) ++ r = ("<img src='".toList ++ Url.hide p) ++
      (g ++ (z ++ '\'' :: (" alt='".toList ++ (x ++ ("' />".toList ++ r))))) := by
    rw [imageHtml_eq, List.append_assoc p, Url.hide_append, hide_of_isPlain hplain]
    simp
  rw [hsplit, hs]
  rw [hs] at hbehind
  have hhide : IsStretch o (Url.hide p) g :=
    hstretch.hide fun c hc hm => hplain c hc (List.mem_append_left z hm)
  exact .whole_part ⟨Url.hide p, g, s, hhide, huncut.hide, hparen, rfl, rfl⟩ (hg.whole_append hbehind)

end Image

namespace Table

/-- The rule for images leaves address words confined, if markers are hidden only where they are found
again. -/
theorem confined_image
    (hmatches : ∀ m ∈ Pattern.image.matches d, IsWholeImage o (m.2.group 1) (m.2.group 2))
    (h : Confined (confinedWords o) (IsImageTag o) [] d) :
    Confined (confinedWords o) (IsUncutTag o) [] ((handling .image Handler.image).pass o d) := by
  have hclear (x u : Text) : ∀ w ∈ confinedWords o, IsClear w.tail (imageHtml x u) := by
    intro w hw
    rw [imageHtml_eq, List.append_assoc, List.append_assoc, List.append_assoc]
    exact (isClear_imageOpening w hw).append_right _
  rw [isPure_image.pass_eq]
  rw [image_eq] at hmatches
  refine confined_referring (areUncut_isImageTag o) (by decide) hclear (fun a t t' ha he => ?_)
    (fun _ _ _ _ _ href hS hx hu hr => confined_imageHtml href hS hx hu hr) hmatches h
  -- no image begins in a tag or in the rest of its address
  obtain ⟨p, g, s, hstretch, huncut, hnot, himage, rfl, rfl⟩ := ha
  have hfree : IsFree ['!', '['] ("<img src='".toList ++ (p ++ g ++ ['\''])) :=
    (isFree_of_lacks rfl).append (isFree_concat (by decide) himage)
  have hsplit : "<img src='".toList ++ p ++ (g ++ '\'' :: s) =
      "<img src='".toList ++ (p ++ g ++ ['\'']) ++ s := by simp
  rw [hsplit] at he
  obtain ⟨r, rfl, hr⟩ := he.exists_eq_append (by
    rintro _ _ ⟨x, u, -, -, rfl, -⟩
    rw [referenceText, List.append_assoc, List.append_assoc]
    exact hfree.append_word _)
  refine ⟨"<img src='".toList ++ p, g ++ '\'' :: r, by simp, ?_, (Edited.refl g).append (.keep '\'' hr)⟩
  exact IsImageTag.isUncutTag ⟨p, g, r, hstretch, huncut, hnot, himage, rfl, rfl⟩

end Table

end Markdown
