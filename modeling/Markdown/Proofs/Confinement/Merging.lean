import Markdown.Proofs.Confinement.Links

/-!
# Merging around confined words

Merging takes nothing out of tags with addresses. Where it takes out a seam between lists, a beginning
of a word in front of the seam meets what is behind it: the word can only begin there if its beginning
with the end of the list did (`Family.keepsWords_withCuts`). So it makes no beginning of an image's tag
in the stretch that an idle search goes over either (`Family.KeepsWords.isQuiet`).
-/

namespace Markdown

open Pattern Text

variable {o : Options} {W W' : List Text} {a b g s t t' u w : Text}

/-! ## Seams and tags -/

theorem notMem_seam {c : Char} (hs : IsSeam s) (htags : ∀ f : Family, c ∉ f.closing ∧ c ∉ f.opening)
    (hc : Unicode.isWhiteSpace c = false) : c ∉ s := by
  obtain ⟨f, space, hspace, rfl⟩ := hs
  have hblank : c ∉ space := by
    rcases hspace with rfl | ⟨d, hd, rfl⟩
    · simp
    · rintro hm
      obtain rfl := List.mem_singleton.1 hm
      exact absurd hd (by simp [hc])
  simp [seam, htags f, hblank]

theorem quote_notMem_seam (hs : IsSeam s) : '\'' ∉ s :=
  notMem_seam hs (fun f => by cases f <;> decide) rfl

/-- A seam begins with the end of a block. -/
theorem isFree_seam (hs : IsSeam s) (hb : ∀ f : Family, lacks f.closing b) : IsFree s b := by
  obtain ⟨f, space, -, rfl⟩ := hs
  rw [seam, List.append_assoc]
  exact (isFree_of_lacks (hb f)).append_word _

/-- Merging takes nothing out of an address with a quote behind it. -/
theorem IsSeamless.isFree_seam (hu : IsSeamless o u) (ho : o.mergeAdjacentBlocks) (hs : IsSeam s) :
    IsFree s (u ++ ['\'']) :=
  isFree_concat (quote_notMem_seam hs) (hu ho s hs)

/-- No tag with an address begins in a seam. -/
theorem isFree_isAddressTag (hs : IsSeam s) (ha : IsAddressTag o a b) : IsFree a s := by
  have hseam {w : Text} (hw : ∀ f : Family, lacks ('<' :: w) f.closing ∧ lacks ('<' :: w) f.opening) :
      IsFree ('<' :: w) s := by
    obtain ⟨f, space, hspace, rfl⟩ := hs
    have hblank : IsFree ('<' :: w) space := by
      rcases hspace with rfl | ⟨d, hd, rfl⟩
      · trivial
      · refine isFree_of_notMem w fun hm => ?_
        obtain rfl := List.mem_singleton.1 hm
        exact absurd hd (by decide)
    exact ((isFree_of_lacks (hw f).1).append hblank).append (isFree_of_lacks (hw f).2)
  rcases ha with ha | ⟨u, -, -, rfl⟩
  · obtain ⟨u, -, rfl⟩ := ha.exists_eq
    have h : IsFree "<img src='".toList s := hseam fun f => by cases f <;> exact ⟨rfl, rfl⟩
    exact h.append_word _
  · have h : IsFree "<a href='".toList s := hseam fun f => by cases f <;> exact ⟨rfl, rfl⟩
    rw [List.append_assoc]
    exact h.append_word _

/-- Up to a quote that ends an idle search, there are no tags, or the last one is that of a link. -/
theorem Confined.of_quiet {W : List Text} {x : Text} (h : Confined W (IsAddressTag o) [] t)
    (ht : t = g ++ '\'' :: x) (hquote : '\'' ∉ g) (hnot : ¬ "<img src=".toList <:+ g) :
    Confined W (fun _ _ => False) [] (g ++ ['\'']) ∨ "<a href=".toList <:+ g := by
  induction h generalizing g with
  | nil => exact absurd ht (by simp)
  | @char c t hw _ ih =>
    have hfront {y z : Text} (hy : t = y ++ z) : ∀ w ∈ W, ¬ w <+: c :: (y ++ []) := fun w hmem hp =>
      hw w hmem (hp.trans ⟨z, by simp [hy]⟩)
    cases g with
    | nil =>
      obtain ⟨rfl, rfl⟩ := List.cons.inj ht
      exact .inl (.char (hfront (y := []) rfl) .nil)
    | cons d g =>
      obtain ⟨rfl, rfl⟩ := List.cons.inj ht
      rcases ih rfl (fun hm => hquote (List.mem_cons_of_mem c hm))
        fun hs => hnot (hs.trans (List.suffix_cons c g)) with hg | hg
      · exact .inl (.char (hfront (y := g ++ ['\'']) (z := x) (by simp)) hg)
      · exact .inr (hg.trans (List.suffix_cons c g))
  | @part a t ha _ _ =>
    rcases ha with ha | ⟨u, -, -, rfl⟩
    · obtain ⟨u, -, rfl⟩ := ha.exists_eq
      have hsplit : g ++ '\'' :: x = "<img src=".toList ++ '\'' :: (u ++ t) := by
        rw [← ht]
        simp
      obtain ⟨rfl, -⟩ := append_cons_inj hsplit hquote (by decide)
      exact absurd List.suffix_rfl hnot
    · have hsplit : g ++ '\'' :: x = "<a href=".toList ++ '\'' :: (u ++ ['\'', '>'] ++ t) := by
        rw [← ht]
        simp
      obtain ⟨rfl, -⟩ := append_cons_inj hsplit hquote (by decide)
      exact .inr List.suffix_rfl

/-! ## Seams that are taken out -/

namespace Family

variable {f : Family}

/-- What the rule for merging a family puts in the place of a seam. -/
def Merges (f : Family) (m m' : Text) : Prop :=
  (∃ space, IsSeamSpace space ∧ m = seam f.closing f.opening space) ∧ m' = f.glue

theorem isSeam_of_merges {m m' : Text} (h : f.Merges m m') : IsSeam m := by
  obtain ⟨⟨space, hspace, rfl⟩, -⟩ := h
  exact ⟨f, space, hspace, rfl⟩

theorem ne_nil_of_merges {m m' : Text} (h : f.Merges m m') : m ≠ [] := by
  obtain ⟨⟨space, -, rfl⟩, -⟩ := h
  simp [seam, closing]

theorem edited_seamPattern (f : Family) (t : Text) :
    Edited f.Merges t (f.seamPattern.rewriteFrom (fun _ => f.glue) none t) := by
  refine .rewriteFrom (isProper_seamPattern f) fun b s r v _ h => ?_
  obtain ⟨space, hspace, rfl, -⟩ := eq_of_finder_adjacent h
  exact .single ⟨⟨space, hspace, rfl⟩, rfl⟩

/-- Merging goes through the tag of a link. -/
theorem exists_eq_append_of_isLinkTag (ho : o.mergeAdjacentBlocks) (ha : IsLinkTag o a)
    (he : Edited f.Merges (a ++ t) t') : ∃ r, t' = a ++ r ∧ Edited f.Merges t r := by
  obtain ⟨u, hu, -, rfl⟩ := ha
  have hsplit : "<a href='".toList ++ u ++ ['\'', '>'] =
      "<a href='".toList ++ ((u ++ ['\'']) ++ ['>']) := by simp
  rw [hsplit] at he ⊢
  refine he.exists_eq_append fun m m' hm => ?_
  have hs := isSeam_of_merges hm
  have hfree {b : Text} (hb : ∀ f : Family, lacks f.closing b) : IsFree m b := isFree_seam hs hb
  exact (hfree fun f => by cases f <;> rfl).append
    ((hu.isSeamless.isFree_seam ho hs).append (hfree fun f => by cases f <;> rfl))

/-- A word at the beginning of a merged text stood there before, or one part of it did, with the end of
a list behind. -/
theorem isPrefix_of_merges (h : Edited f.Merges t t') (hw : w <+: t') :
    w <+: t ∨ ∃ u v, w = u ++ v ∧ v ≠ [] ∧ u ++ f.closing <+: t := by
  induction h generalizing w with
  | nil => exact .inl hw
  | keep c _ ih =>
    cases w with
    | nil => exact .inl List.nil_prefix
    | cons d w =>
      obtain ⟨rfl, hbehind⟩ := List.cons_prefix_cons.1 hw
      rcases ih hbehind with hp | ⟨u, v, rfl, hv, hp⟩
      · exact .inl (List.cons_prefix_cons.2 ⟨rfl, hp⟩)
      · exact .inr ⟨d :: u, v, rfl, hv, List.cons_prefix_cons.2 ⟨rfl, hp⟩⟩
  | @replace m m' u u' hm _ _ =>
    by_cases hne : w = []
    · exact .inl (hne ▸ List.nil_prefix)
    · obtain ⟨⟨space, -, rfl⟩, -⟩ := hm
      exact .inr ⟨[], w, rfl, hne, space ++ f.opening ++ u, by simp [seam]⟩

/-- Merging makes none of the words `W'` where none of the words `W` began. -/
structure KeepsWords (f : Family) (W W' : List Text) : Prop where
  isFree_glue : ∀ w ∈ W', IsFree w f.glue
  not_isPrefix : ∀ c t t', Edited f.Merges t t' → (∀ w ∈ W, ¬ w <+: c :: t) →
    ∀ w ∈ W', ¬ w <+: c :: t'

/-- Merging lists makes words of those that are cut by the end of a list only. -/
theorem keepsWords_withCuts (hglue : f.glue = []) (W : List Text) :
    f.KeepsWords (withCuts f.closing W) W where
  isFree_glue _ _ := hglue ▸ trivial
  not_isPrefix c t t' he hw w hmem hp := by
    cases w with
    | nil => exact hw [] (subset_withCuts f.closing W hmem) List.nil_prefix
    | cons d w =>
      obtain ⟨rfl, hbehind⟩ := List.cons_prefix_cons.1 hp
      rcases isPrefix_of_merges he hbehind with hp | ⟨u, v, rfl, hv, hp⟩
      · exact hw _ (subset_withCuts f.closing W hmem) (List.cons_prefix_cons.2 ⟨rfl, hp⟩)
      · have hcut : d :: u ++ f.closing ∈ withCuts f.closing W :=
          mem_withCuts.2 (.inr ⟨d :: u, v, List.cons_ne_nil d u, hv, hmem, rfl⟩)
        exact hw _ hcut (List.cons_prefix_cons.2 ⟨rfl, hp⟩)

/-- Merging makes no words that the text in the place of a seam is foreign to. -/
theorem keepsWords_of_isForeign (hglue : IsForeign W f.glue) : f.KeepsWords W W where
  isFree_glue w hw := (hglue w hw).1
  not_isPrefix c t t' he hw w hmem := by
    refine he.not_isPrefix_cons (fun m m' hm => ?_) (hw w hmem)
    rw [hm.2]
    exact (hglue w hmem).2

namespace KeepsWords

variable (hf : f.KeepsWords W W')

include hf

/-- Words stay confined to parts in which no seam begins and that merging leaves such. -/
theorem confined_of_parts {P : Text → Text → Prop} (hP : ∀ a b, P a b → a ≠ [])
    (hseam : ∀ a b s, IsSeam s → P a b → IsFree a s)
    (hpart : ∀ a t t', P a t → Confined W P [] t → Edited f.Merges (a ++ t) t' →
      ∃ r, t' = a ++ r ∧ P a r ∧ Edited f.Merges t r)
    (h : Confined W P [] t) (he : Edited f.Merges t t') : Confined W' P [] t' := by
  refine h.edited hP (fun m m' => ne_nil_of_merges) hf.not_isPrefix (fun a t t' ha ht he => ?_)
    (fun m m' t r hm ht _ ih => ?_) he
  · obtain ⟨r, rfl, ha', hr⟩ := hpart a t t' ha ht he
    exact ⟨a, r, rfl, ha', hr⟩
  · have ht := ht.of_append_of_isFree fun a b ha => hseam a b m (isSeam_of_merges hm) ha
    rw [hm.2]
    exact (ih ht).append_left hf.isFree_glue

/-- Merging leaves an idle search idle. -/
theorem isQuiet (hW : "<img src='".toList ∈ W') (hquiet : IsQuiet t)
    (h : Confined W (IsAddressTag o) [] t) (he : Edited f.Merges t t') : IsQuiet t' := by
  obtain ⟨g, s, rfl, hg, hnot⟩ := hquiet
  obtain ⟨g', s', rfl, hedit, -⟩ := he.exists_eq_append_cons fun m m' hm =>
    ⟨ne_nil_of_merges hm, quote_notMem_seam (isSeam_of_merges hm)⟩
  have hglue : '\'' ∉ f.glue := by cases f <;> decide
  have hquote : '\'' ∉ g' := hedit.notMem (fun _ _ hm => by rwa [hm.2]) hg
  refine ⟨g', s', rfl, hquote, ?_⟩
  rcases h.of_quiet rfl hg hnot with hchars | ⟨y, rfl⟩
  · rw [← imageOpening_isInfix_iff hquote]
    exact (hf.confined_of_parts (fun _ _ ha => ha.elim) (fun _ _ _ _ ha => ha.elim)
      (fun _ _ _ ha => ha.elim) hchars (hedit.append (.refl ['\'']))).not_isInfix (by simp) hW
  · -- a seam has no `a`, so that the beginning of the tag of a link stays
    have hsplit : y ++ "<a href=".toList = (y ++ ['<']) ++ 'a' :: " href=".toList := by simp
    rw [hsplit] at hedit
    obtain ⟨x, z, rfl, -, hz⟩ := hedit.exists_eq_append_cons fun m m' hm =>
      ⟨ne_nil_of_merges hm, notMem_seam (isSeam_of_merges hm) (fun f => by cases f <;> decide) rfl⟩
    rw [← List.append_nil " href=".toList] at hz
    obtain ⟨z, rfl, hend⟩ := hz.exists_eq_append fun m m' hm =>
      isFree_seam (isSeam_of_merges hm) fun f => by cases f <;> rfl
    obtain rfl : z = [] := hend.eq_nil fun _ _ => ne_nil_of_merges
    rw [List.append_nil]
    intro hs
    rcases List.suffix_or_suffix_of_suffix hs (List.suffix_append x _) with hs | hs <;>
      exact absurd hs (by decide)

/-- Merging goes through an opening. -/
theorem exists_isOpening (ho : o.mergeAdjacentBlocks) (hW : "<img src='".toList ∈ W')
    (ha : IsOpening o a t) (h : Confined W (IsAddressTag o) [] t) (he : Edited f.Merges (a ++ t) t') :
    ∃ r, t' = a ++ r ∧ IsOpening o a r ∧ Edited f.Merges t r := by
  have hopening (m m' : Text) (hm : f.Merges m m') : IsFree m "<img src='".toList :=
    isFree_seam (isSeam_of_merges hm) fun f => by cases f <;> rfl
  cases ha with
  | @found u b hu hb =>
    rw [List.append_assoc] at he
    obtain ⟨y, rfl, hy⟩ := he.exists_eq_append hopening
    rcases hb with ⟨s, rfl⟩ | ⟨s, rfl⟩
    · rw [← List.append_assoc] at hy
      obtain ⟨r, rfl, hr⟩ := hy.exists_eq_append fun m m' hm =>
        hu.isSeamless.isFree_seam ho (isSeam_of_merges hm)
      exact ⟨'\'' :: r, by simp, .found hu (.inl ⟨r, rfl⟩), .keep '\'' hr⟩
    · have hsplit : u ++ ("<a href='".toList ++ s) = (u ++ "<a href=".toList) ++ ['\''] ++ s := by simp
      rw [hsplit] at hy
      obtain ⟨r, rfl, hr⟩ := hy.exists_eq_append fun m m' hm =>
        hu.isSeamless.append_linkOpening.isFree_seam ho (isSeam_of_merges hm)
      exact ⟨"<a href='".toList ++ r, by simp, .found hu (.inr ⟨r, rfl⟩), (Edited.refl _).append hr⟩
  | idle hquiet =>
    obtain ⟨r, rfl, hr⟩ := he.exists_eq_append hopening
    exact ⟨r, rfl, .idle (hf.isQuiet hW hquiet h hr), hr⟩

/-- Words stay confined to tags with addresses. -/
theorem confined (ho : o.mergeAdjacentBlocks) (hW : "<img src='".toList ∈ W')
    (h : Confined W (IsAddressTag o) [] t) :
    Confined W' (IsAddressTag o) [] (f.seamPattern.rewriteFrom (fun _ => f.glue) none t) := by
  refine hf.confined_of_parts (areAngled_isAddressTag o).ne_nil
    (fun a b s hs ha => isFree_isAddressTag hs ha) (fun a t t' ha ht he => ?_) h (f.edited_seamPattern t)
  rcases ha with ha | ha
  · obtain ⟨r, rfl, ha, hr⟩ := hf.exists_isOpening ho hW ha ht he
    exact ⟨r, rfl, .inl ha, hr⟩
  · obtain ⟨r, rfl, hr⟩ := exists_eq_append_of_isLinkTag ho ha he
    exact ⟨r, rfl, .inr ha, hr⟩

end KeepsWords

end Family

/-- Behind the rules for merging, if there are any, the address words are confined. -/
theorem Table.confined_merging {d : Text} (h : Confined (confinedWords o) (IsAddressTag o) [] d) :
    Confined addressWords (IsAddressTag o) []
      ((if o.mergeAdjacentBlocks then merging else []).pass o d) := by
  have hwords : "<img src='".toList ∈ addressWords := by simp [addressWords]
  have hcuts : "<img src='".toList ∈ withCuts Family.numbered.closing addressWords :=
    subset_withCuts _ _ hwords
  rw [confinedWords] at h
  split
  · rename_i ho
    rw [if_pos ho] at h
    have hul := (Family.keepsWords_withCuts (f := .bulleted) rfl _).confined ho hcuts h
    have hol := (Family.keepsWords_withCuts (f := .numbered) rfl _).confined ho hwords hul
    have hglue : IsForeign addressWords Family.quoted.glue := isForeign_of_foreign rfl
    rw [pass_merging]
    exact (Family.keepsWords_of_isForeign hglue).confined ho hwords hol
  · rename_i ho
    rwa [if_neg ho] at h

end Markdown
