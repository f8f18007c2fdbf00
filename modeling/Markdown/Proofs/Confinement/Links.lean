import Markdown.Proofs.Confinement.References

/-!
# Links in tags that are found again

The search for the end of a link's tag ends at the first quote with an angle bracket behind it, so that
tokens are found only if they stand in front of it (`IsWholeLink`). A link that is written into the
stretch behind the beginning of an image's tag ends the stretch with the quote in front of its address
(`IsUncutTag.exists_isLoose`). Once all links are written, a search that has begun either comes to a
quote or to the tag of a link (`Confined.settle`).
-/

namespace Markdown

open Pattern Text

variable {o : Options} {W : List Text} {a b g p x y z u t d : Text}

/-- A link whose tag hides markers only where they are found again. The tag ends behind the address or
in it, in front of `z`. -/
structure IsWholeLink (o : Options) (u : Text) : Prop where
  /-- The quote behind the address does not complete the beginning of another tag. -/
  not_suffix : ¬ "<img src=".toList <:+ u
  isPlain_or : IsPlain u ∨ ∃ v z, u = v ++ z ∧ IsLinkAddress o v ∧ ¬ "<img src=".toList <:+ v ∧
    IsPlain z ∧ (z = [] ∨ ['\'', '>'] <+: z)

/-! ## Stretches -/

/-- The beginning of the tag of an image, in front of the rest of the stretch that the search for the
address goes over. -/
def IsLoose (o : Options) (a b : Text) : Prop :=
  ∃ p g s, IsStretch o p g ∧ a = "<img src='".toList ++ p ∧ b = g ++ '\'' :: s

theorem IsUncutTag.isLoose (h : IsUncutTag o a b) : IsLoose o a b := by
  obtain ⟨p, g, s, hstretch, -, -, rfl, rfl⟩ := h
  exact ⟨p, g, s, hstretch, rfl, rfl⟩

/-- An edit goes through a text, or something in it is the first that is replaced. -/
theorem Edited.append_cases {Q : Text → Text → Prop} {t' : Text} (h : Edited Q (g ++ y) t') :
    (∃ y', t' = g ++ y' ∧ Edited Q y y') ∨
      ∃ g' m m' r, g' <+: g ∧ Q m m' ∧ t' = g' ++ (m' ++ r) := by
  induction g generalizing t' with
  | nil => exact .inl ⟨t', rfl, h⟩
  | cons c g ih =>
    generalize hx : c :: (g ++ y) = x at h
    rw [List.cons_append, hx] at h
    cases h with
    | nil => exact absurd hx (List.cons_ne_nil _ _)
    | keep d h =>
      obtain ⟨rfl, rfl⟩ := List.cons.inj hx
      rcases ih h with ⟨y', rfl, hy⟩ | ⟨g', m, m', r, hg, hm, rfl⟩
      · exact .inl ⟨y', rfl, hy⟩
      · exact .inr ⟨c :: g', m, m', r, List.cons_prefix_cons.2 ⟨rfl, hg⟩, hm, rfl⟩
    | @replace m m' u u' hm _ => exact .inr ⟨[], m, m', u', List.nil_prefix, hm, rfl⟩

/-- Behind an address without a seam, the tag of a link makes none. -/
theorem IsSeamless.append_linkOpening (h : IsSeamless o u) : IsSeamless o (u ++ "<a href=".toList) := by
  intro ho s hs
  have hne : s ≠ [] := by
    obtain ⟨f, space, -, rfl⟩ := hs
    simp [seam, Family.closing]
  have hforeign : IsForeign [s] "<a href=".toList := isForeign_seam rfl hs
  have hu : Confined [s] (fun _ _ => False) [] u := .of_not_isInfix (by simpa using h ho s hs)
  have hopening : Confined [s] (fun _ _ => False) [] "<a href=".toList :=
    .of_isFree hforeign.isFree
  exact ((hu.before (hforeign.apart u []) fun _ _ _ ha => ha).append hopening).not_isInfix hne (by simp)

/-- What is written for a link. -/
def linkHtmlOf (x u : Text) : Text :=
  "<a href='".toList ++ Url.hide u ++ "'>".toList ++ x ++ "</a>".toList

theorem linkHtmlOf_eq (x u : Text) : linkHtmlOf x u =
    "<a href='".toList ++ Url.hide u ++ "'>".toList ++ x ++ "</a>".toList := rfl

/-- The quote in front of the address of a link ends a stretch. -/
theorem IsStretch.linkOpening (h : IsStretch o p g) {k : Text} (hk : k <+: g) :
    IsStretch o p (k ++ "<a href=".toList) := by
  have hquote := h.quote_notMem
  rw [List.mem_append, not_or] at hquote
  have hinfix : p ++ k <:+: p ++ g := ((List.prefix_append_right_inj p).2 hk).isInfix
  refine ⟨fun hm => ?_, fun hs => ?_, fun hp => ?_⟩
  · rw [List.mem_append, List.mem_append] at hm
    rcases hm with hm | hm | hm
    · exact hquote.1 hm
    · exact hquote.2 (hk.subset hm)
    · exact absurd hm (by decide)
  · rcases List.suffix_or_suffix_of_suffix hs (List.suffix_append k _) with hs | hs <;>
      exact absurd hs (by decide)
  · have hu := (h.isImageAddress hp).of_isInfix hinfix
    rw [← List.append_assoc]
    refine ⟨fun c hc hm => ?_, hu.isSeamless.append_linkOpening⟩
    rcases List.mem_append.1 hm with hm | hm
    · exact hu.notMem c hc hm
    · rcases List.mem_pair.1 hc with rfl | rfl <;> exact absurd hm (by decide)

/-- Links that are written into a stretch leave one. -/
theorem IsUncutTag.exists_isLoose {S : Text → Text → Prop} {t' : Text} (h : IsUncutTag o a t)
    (he : Edited (WritesReference ['['] S linkHtmlOf) (a ++ t) t') :
    ∃ r, t' = a ++ r ∧ IsLoose o a r ∧ Edited (WritesReference ['['] S linkHtmlOf) t r := by
  have hfree {c : Char} {x : Text} (hx : '[' ∉ c :: x) (m m' : Text)
      (hm : WritesReference ['['] S linkHtmlOf m m') : IsFree m (c :: x) := by
    obtain ⟨x, u, -, -, rfl, -⟩ := hm
    exact isFree_of_notMem _ hx
  have ha := (areUncut_isUncutTag o).notMem a t h '[' (by simp)
  obtain ⟨p, g, s, hstretch, huncut, hparen, rfl, rfl⟩ := h
  obtain ⟨r, rfl, hr⟩ := he.exists_eq_append (hfree ha)
  refine ⟨r, rfl, ?_, hr⟩
  rcases hr.append_cases with ⟨y, rfl, hy⟩ | ⟨k, m, m', r, hk, ⟨x, u, -, -, -, rfl⟩, rfl⟩
  · obtain ⟨s', rfl, -⟩ := (Edited.exists_eq_append (x := ['\'']) (hfree (by decide)) hy)
    exact ⟨p, g, s', hstretch, rfl, rfl⟩
  · refine ⟨p, k ++ "<a href=".toList, Url.hide u ++ "'>".toList ++ x ++ "</a>".toList ++ r,
      hstretch.linkOpening hk, rfl, ?_⟩
    rw [linkHtmlOf_eq]
    simp

/-! ## Searches that have begun -/

section Settle

variable {R : Text → Prop} (hR : ∀ a, R a → "<a href='".toList <+: a)

include hR

/-- A search goes on to the quote that ends it, or to something that begins like the tag of a link. -/
theorem Confined.exists_reach (h : Confined W (fun a b => IsLoose o a b ∨ R a) [] t) {s : Text}
    (ht : t = g ++ '\'' :: s) (hquote : '\'' ∉ g) (hnot : ¬ "<img src=".toList <:+ g) :
    ∃ k r, t = k ++ r ∧ k <+: g ∧ (['\''] <+: r ∨ "<a href='".toList <+: r) ∧
      Confined W (fun a b => IsLoose o a b ∨ R a) [] r := by
  induction h generalizing g with
  | nil => exact absurd ht (by simp)
  | @char c t hw h ih =>
    cases g with
    | nil =>
      obtain ⟨rfl, rfl⟩ := List.cons.inj ht
      exact ⟨[], '\'' :: t, rfl, List.nil_prefix, .inl ⟨t, rfl⟩, .char hw h⟩
    | cons d g =>
      obtain ⟨rfl, rfl⟩ := List.cons.inj ht
      obtain ⟨k, r, hsplit, hk, hr, hconfined⟩ := ih rfl (fun hm => hquote (List.mem_cons_of_mem c hm))
        fun hs => hnot (hs.trans (List.suffix_cons c g))
      refine ⟨c :: k, r, ?_, List.cons_prefix_cons.2 ⟨rfl, hk⟩, hr, hconfined⟩
      rw [List.cons_append, ← hsplit]
  | @part a t ha h _ =>
    rcases ha with ⟨p, g', s', -, rfl, -⟩ | ha
    · -- the beginning of an image's tag ends with the quote
      have hsplit : g ++ '\'' :: s = "<img src=".toList ++ '\'' :: (p ++ t) := by
        rw [← ht]
        simp
      obtain ⟨rfl, -⟩ := append_cons_inj hsplit hquote (by decide)
      exact absurd List.suffix_rfl hnot
    · refine ⟨[], a ++ t, rfl, List.nil_prefix, .inr ((hR a ha).trans (List.prefix_append a t)), ?_⟩
      exact .part (.inr ha) h

/-- With that, the beginnings of tags with tokens behind them are found, and the others are idle. -/
theorem Confined.settle (h : Confined W (fun a b => IsLoose o a b ∨ R a) [] t) :
    Confined W (fun a b => IsOpening o a b ∨ R a) [] t := by
  induction hn : t.length using Nat.strongRecOn generalizing t with
  | ind n ih =>
    cases h with
    | nil => exact .nil
    | @char c t hw h => exact .char hw (ih _ (by simp [← hn]) h rfl)
    | @part a t ha h =>
      rw [List.append_nil] at ha
      rcases ha with ⟨p, g, s, hstretch, rfl, rfl⟩ | ha
      · have hquote : '\'' ∉ g := fun hm => hstretch.quote_notMem (List.mem_append_right p hm)
        by_cases hp : p = []
        · subst hp
          rw [List.append_nil]
          exact .whole_part (.inl (.idle ⟨g, s, rfl, hquote, hstretch.not_suffix⟩))
            (ih _ (by simp [← hn]; omega) h rfl)
        · obtain ⟨k, r, hsplit, hk, hr, hconfined⟩ := h.exists_reach hR rfl hquote hstretch.not_suffix
          have hinfix : p ++ k <:+: p ++ g := ((List.prefix_append_right_inj p).2 hk).isInfix
          rw [hsplit, ← List.append_assoc, List.append_assoc "<img src='".toList p]
          have hlen : r.length < n := by
            have hpos : 0 < "<img src='".toList.length := by decide
            rw [hsplit] at hn
            simp only [List.length_append] at hn
            omega
          exact .whole_part (.inl (.found ((hstretch.isImageAddress hp).of_isInfix hinfix) hr))
            (ih _ hlen hconfined rfl)
      · have hpos := List.length_pos_iff.2 (List.ne_nil_of_mem ((hR a ha).subset List.mem_cons_self))
        rw [List.length_append] at hn
        exact .whole_part (.inr ha) (ih _ (by omega) h rfl)

end Settle

/-! ## The rule for links -/

/-- The beginning of a tag that a search goes on from, or the tag of a link. -/
def IsLooseTag (o : Options) (a b : Text) : Prop :=
  IsLoose o a b ∨ IsLinkTag o a

section Link

variable {k r v : Text}

/-- The images in an address are found again, with the quote behind it. -/
theorem Confined.hasOpenings (h : Confined (confinedWords o) (IsUncutTag o) y u)
    (hu : ¬ "<img src=".toList <:+ u)
    (hy : ∀ a z, IsUncutTag o a (z ++ y) → IsUncutTag o a (z ++ ['\''])) :
    HasOpenings o (u ++ ['\'']) := by
  have hsubset : ["<img src='".toList] ⊆ confinedWords o :=
    List.cons_subset.2 ⟨imageOpening_mem o, List.nil_subset _⟩
  have hquote : Confined ["<img src='".toList] (fun a b => IsLoose o a b ∨ False) [] ['\''] :=
    .of_isFree fun w hw => by
      rw [List.mem_singleton.1 hw]
      exact isFree_of_lacks rfl
  have haddress : Confined ["<img src='".toList] (fun a b => IsLoose o a b ∨ False) (['\''] ++ []) u :=
    (h.mono hsubset fun _ _ => id).before (fun w hw => apart_quote hu [] w (hsubset hw))
      fun a z _ ha => .inl (hy a z ha).isLoose
  have hsettled := (haddress.append hquote).settle (R := fun _ => False) fun _ ha => ha.elim
  exact hsettled.mono (List.Subset.refl _) fun _ _ ha => ha.resolve_right id

/-- Hiding markers in the address of a link leaves its tag one. -/
theorem isLinkTag_hide (hv : IsLinkAddress o v) (himages : HasOpenings o (v ++ ['\''])) :
    IsLinkTag o ("<a href='".toList ++ Url.hide v ++ ['\'', '>']) :=
  ⟨_, staysInside_hide.isLinkAddress (Url.edited_hide v) hv,
    staysInside_hide.hasOpenings ((Url.edited_hide v).append (.refl ['\''])) himages, rfl⟩

/-- What stands in front of the end of a tag has beginnings of tags that a search goes on from. -/
theorem confined_before_tagEnd (hz : Confined (confinedWords o) (IsUncutTag o) (')' :: k) z)
    (hnot : ¬ "<img src=".toList <:+ z) (hr : Confined (confinedWords o) (IsLooseTag o) [] r) :
    Confined (confinedWords o) (IsLooseTag o) [] (z ++ ("'>".toList ++ r)) := by
  have hclose : ∀ w ∈ confinedWords o, IsFree w "'>".toList := isFree_confinedWords_of_all rfl
  refine (hz.before (apart_quote hnot _) fun a z' _ ha => .inl ?_).whole_append (hr.append_left hclose)
  exact (IsUncutTag.of_address ha _).isLoose

theorem confined_linkHtmlOf (h : IsWholeLink o u)
    (hx : Confined (confinedWords o) (IsUncutTag o) (']' :: '(' :: y) x)
    (hu : Confined (confinedWords o) (IsUncutTag o) (')' :: k) u)
    (hr : Confined (confinedWords o) (IsLooseTag o) [] r) :
    Confined (confinedWords o) (IsLooseTag o) [] (linkHtmlOf x u ++ r) := by
  have hclose : IsForeign (confinedWords o) "</a>".toList := isForeign_confinedWords rfl
  have hopen : IsForeign (confinedWords o) "<a href='".toList := isForeign_confinedWords rfl
  -- the text of the link, and what stands behind it
  have hrest : Confined (confinedWords o) (IsLooseTag o) [] (x ++ ("</a>".toList ++ r)) := by
    refine (hx.before (hclose.apart x r) fun a z _ ha => .inl ?_).whole_append
      (hr.append_left hclose.isFree)
    exact (IsUncutTag.of_description ha _).isLoose
  have hsplit : linkHtmlOf x u ++ r = "<a href='".toList ++ (Url.hide u ++
      ("'>".toList ++ (x ++ ("</a>".toList ++ r)))) := by
    rw [linkHtmlOf_eq]
    simp
  rw [hsplit]
  rcases h.isPlain_or with hplain | ⟨v, z, rfl, hv, hnot, hplain, hz⟩
  · rw [hide_of_isPlain hplain]
    exact (confined_before_tagEnd hu h.not_suffix hrest).append_left hopen.isFree
  · rw [Url.hide_append, hide_of_isPlain hplain]
    rcases hz with rfl | ⟨z, rfl⟩
    · rw [List.append_nil] at hu
      have himages := hu.hasOpenings hnot fun a z ha => IsUncutTag.of_address ha _
      have hpart : Confined (confinedWords o) (IsLooseTag o) [] _ :=
        .whole_part (.inr (isLinkTag_hide hv himages)) hrest
      simpa using hpart
    · obtain ⟨hfront, hbehind⟩ :=
        hu.of_append_quote (areQuoted_isUncutTag o) (.inr ⟨⟨_, rfl⟩, hnot⟩)
      have himages := hfront.hasOpenings hnot fun a z ha => IsUncutTag.of_quote ha
      have hz := hbehind.of_append_of_notMem (areUncut_isUncutTag o).areAngled
        (by decide : '<' ∉ ['\'', '>'])
      have hznot : ¬ "<img src=".toList <:+ z := fun hs => h.not_suffix
        (hs.trans ((List.suffix_append _ z).trans (List.suffix_append v _)))
      have hpart : Confined (confinedWords o) (IsLooseTag o) [] _ :=
        .whole_part (.inr (isLinkTag_hide hv himages)) (confined_before_tagEnd hz hznot hrest)
      simpa using hpart

/-- The rule for links leaves address words confined to tags of links and images, if markers are hidden
only where they are found again. -/
theorem Table.confined_link
    (hmatches : ∀ m ∈ Pattern.link.matches d, IsWholeLink o (m.2.group 2))
    (h : Confined (confinedWords o) (IsUncutTag o) [] d) :
    Confined (confinedWords o) (IsAddressTag o) [] ((handling .link Handler.link).pass o d) := by
  have hopen : IsForeign (confinedWords o) "<a href='".toList := isForeign_confinedWords rfl
  have hclear (x u : Text) : ∀ w ∈ confinedWords o, IsClear w.tail (linkHtmlOf x u) := by
    intro w hw
    rw [linkHtmlOf_eq, List.append_assoc, List.append_assoc, List.append_assoc]
    exact (hopen w hw).2.append_right _
  rw [link_eq] at hmatches
  have hlinks : Confined (confinedWords o) (IsLooseTag o) [] ((referring _ ['[']).rewriteFrom
      (fun m => linkHtmlOf (m.group 1) (m.group 2)) none d) :=
    confined_referring (S := fun _ u => IsWholeLink o u) (areUncut_isUncutTag o) (by decide) hclear
      (fun a t t' ha he => by
        obtain ⟨r, rfl, hr, he⟩ := IsUncutTag.exists_isLoose ha he
        exact ⟨a, r, rfl, .inl hr, he⟩)
      (fun _ _ _ _ _ _ hS hx hu hr => confined_linkHtmlOf hS hx hu hr) hmatches h
  rw [isPure_link.pass_eq]
  refine Confined.settle (R := IsLinkTag o) (fun a ha => ?_) hlinks
  obtain ⟨u, -, -, rfl⟩ := ha
  rw [List.append_assoc]
  exact List.prefix_append _ _

end Link

end Markdown
