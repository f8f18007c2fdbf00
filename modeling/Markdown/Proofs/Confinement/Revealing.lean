import Markdown.Proofs.Confinement.Merging

/-!
# Revealing addresses

The rules for revealing look for the tags of links and then for those of images. Where the address
words are confined to such tags, every tag with a token in it is found: no search for the end of a tag
that has begun somewhere else reaches into it without reaching its end (`revealsLinks_of_confined`).
Hence no token is left (`Table.not_infix_revealing`).
-/

namespace Markdown

open Pattern Text

variable {o : Options}

/-! ## Markers in the place of tokens -/

namespace Url

variable {c : Char}

/-- A marker that takes the place of a token makes no address word. -/
theorem isForeign_marker : ∀ m ∈ [['_'], ['*']], IsForeign addressWords m := by
  intro m hm
  simp only [List.mem_cons, List.not_mem_nil, or_false] at hm
  rcases hm with rfl | rfl <;> exact isForeign_of_foreign rfl

theorem not_isPrefix_of_edited {t t' w : Text} (h : Edited (OneFor addressTokens [['_'], ['*']]) t t')
    (hw : w ∈ addressWords) (hnot : ¬ w <+: c :: t) : ¬ w <+: c :: t' :=
  h.not_isPrefix_cons (fun _ m' hm => (isForeign_marker m' hm.2 w hw).2) hnot

end Url

/-! ## Revealing what a search finds -/

/-- A text in which the stretches between an opening text and the next closing one are revealed. -/
def revealIn (opening closing t : Text) : Text :=
  (enclosed [] opening closing .notLineFeed).rewriteFrom
    (fun m => opening ++ Url.reveal (m.group 1) ++ closing) none t

section RevealIn

variable {opening : Text} (hopening : opening ≠ []) (closing : Text) {c : Char} {g r t : Text}

include hopening

theorem revealIn_nil : revealIn opening closing [] = [] :=
  rewriteFrom_nil (isProper_enclosed [] _ hopening) _ none

theorem revealIn_cons_of_finder
    (h : (enclosed [] opening closing .notLineFeed).finder (.of none (c :: t)) = none) :
    revealIn opening closing (c :: t) = c :: revealIn opening closing t := by
  have hp : (enclosed [] opening closing .notLineFeed).finder.IsProper := isProper_enclosed [] _ hopening
  rw [revealIn, rewriteFrom_cons hp _ h, rewriteFrom_behind hp _ (finder_enclosed_of _ _ _ _) _ none]
  rfl

theorem revealIn_cons (h : ¬ opening <+: c :: t) :
    revealIn opening closing (c :: t) = c :: revealIn opening closing t :=
  revealIn_cons_of_finder hopening closing (finder_enclosed_eq_none _ _ _ _ h)

/-- Where nothing opens, a text stays. -/
theorem revealIn_append {x : Text} (hx : IsFree opening x) (t : Text) :
    revealIn opening closing (x ++ t) = x ++ revealIn opening closing t := by
  induction x with
  | nil => rfl
  | cons c x ih =>
    have hc : ¬ opening <+: c :: (x ++ t) := hx.1 t
    rw [List.cons_append, revealIn_cons hopening closing hc, ih hx.2]
    rfl

/-- What stands between an opening text and the next closing one is revealed. -/
theorem revealIn_enclosed
    (hcut : cut? Regex.CharSet.notLineFeed.contains closing (g ++ closing ++ r) = some (g, r)) :
    revealIn opening closing (opening ++ g ++ closing ++ r) =
      opening ++ Url.reveal g ++ closing ++ revealIn opening closing r := by
  have hp : (enclosed [] opening closing .notLineFeed).finder.IsProper := isProper_enclosed [] _ hopening
  have hf : (enclosed [] opening closing .notLineFeed).finder
      (.of none (opening ++ g ++ closing ++ r)) = some ((opening ++ g ++ closing).length, [some g]) := by
    have hsplit : opening ++ g ++ closing ++ r = opening ++ (g ++ closing ++ r) := by simp
    rw [hsplit, finder_enclosed_append, hcut]
    rfl
  rw [revealIn, rewriteFrom_append hp _ hf, rewriteFrom_behind hp _ (finder_enclosed_of _ _ _ _) _ none]
  rfl

/-- A character stays, or a stretch is found that begins with it. -/
theorem revealIn_cases (hclosing : closing ≠ []) (c : Char) (t : Text) :
    revealIn opening closing (c :: t) = c :: revealIn opening closing t ∨
      ∃ g r, c :: t = opening ++ g ++ closing ++ r ∧ ¬ closing <:+: g ∧
        revealIn opening closing (c :: t) =
          opening ++ Url.reveal g ++ closing ++ revealIn opening closing r := by
  cases hf : (enclosed [] opening closing .notLineFeed).finder (.of none (c :: t)) with
  | none => exact .inl (revealIn_cons_of_finder hopening closing hf)
  | some found =>
    obtain ⟨n, v⟩ := found
    have hp : (enclosed [] opening closing .notLineFeed).finder.IsProper :=
      isProper_enclosed [] _ hopening
    obtain ⟨g, r, hsplit, rfl, rfl, -, hnot⟩ := exists_of_finder_enclosed hclosing hf
    refine .inr ⟨g, r, hsplit, hnot, ?_⟩
    rw [hsplit] at hf ⊢
    rw [revealIn, rewriteFrom_append hp _ hf, rewriteFrom_behind hp _ (finder_enclosed_of _ _ _ _) _ none]
    rfl

theorem edited_revealIn (t : Text) :
    Edited (OneFor addressTokens [['_'], ['*']]) t (revealIn opening closing t) := by
  refine .rewriteFrom (isProper_enclosed [] _ hopening) fun b s r v _ h => ?_
  obtain ⟨g, rfl, rfl, -⟩ := eq_of_finder_enclosed h
  exact ((Edited.refl opening).append (Url.edited_reveal g)).append (.refl closing)

end RevealIn

/-- What the rule for the tags of links makes of a text. -/
def revealLinks (t : Text) : Text :=
  revealIn "<a href='".toList ['\'', '>'] t

/-- What the rule for the tags of images makes of a text. -/
def revealImages (t : Text) : Text :=
  revealIn "<img src='".toList ['\''] t

theorem Table.pass_revealing (o : Options) (d : Text) :
    revealing.pass o d = revealImages (revealLinks d) := by
  rw [revealing, pass_cons, pass_cons, pass_nil, isPure_linkTag.pass_eq, isPure_imageTag.pass_eq]
  rfl

/-! ## Images -/

theorem staysInside_reveal : StaysInside addressTokens [['_'], ['*']] :=
  ⟨by decide, by decide⟩

section

variable {a g r t u y : Text}

/-- A stretch that is revealed has no token, and makes none. -/
theorem confined_revealed_stretch (g : Text) (hr : Confined addressTokens (fun _ _ => False) [] r) :
    Confined addressTokens (fun _ _ => False) []
      ("<img src='".toList ++ Url.reveal g ++ ['\''] ++ r) := by
  have hfree {x : Text} (hx : '\x7b' ∉ x) : ∀ w ∈ addressTokens, IsFree w x :=
    fun w hw => isFree_of_mem_addressTokens hw hx
  have hquote : IsForeign addressTokens ['\''] := isForeign_of_foreign rfl
  have hstretch : Confined addressTokens (fun _ _ => False) [] (Url.reveal g) :=
    .of_not_isInfix (Url.not_infix_reveal g)
  rw [List.append_assoc, List.append_assoc]
  exact Confined.append_left (hfree (by decide)) ((hstretch.before (hquote.apart _ r)
    fun _ _ _ ha => ha).whole_append (hr.append_left (hfree (by decide))))

theorem revealImages_found {s : Text} (hg : ∀ c ∈ ['\n', '\''], c ∉ g) :
    revealImages ("<img src='".toList ++ g ++ ['\''] ++ s) =
      "<img src='".toList ++ Url.reveal g ++ ['\''] ++ revealImages s :=
  revealIn_enclosed (by simp) _
    (cut?_append (contains_notLineFeed_of_notMem (hg '\n' (by simp))) (hg '\'' (by simp)))

/-- An idle search finds nothing, or it ends at a quote that no opening reaches over. -/
theorem revealImages_of_isQuiet (hquiet : IsQuiet y) (hy : Confined addressWords (IsOpening o) [] y) :
    revealImages ("<img src='".toList ++ y) = "<img src='".toList ++ revealImages y ∨
      ∃ g s, revealImages ("<img src='".toList ++ y) =
          "<img src='".toList ++ Url.reveal g ++ ['\''] ++ revealImages s ∧
        Confined addressWords (IsOpening o) [] s ∧ s.length ≤ y.length := by
  have hP := areQuoted_isOpening o
  have hcons : "<img src='".toList ++ y = '<' :: ("img src='".toList ++ y) := rfl
  rw [hcons]
  rcases revealIn_cases (show "<img src='".toList ≠ [] by simp) ['\''] (by simp) '<'
    ("img src='".toList ++ y) with he | ⟨g, s, hsplit, hnot, he⟩
  · have hfree : IsFree "<img src='".toList "img src='".toList := isFree_of_lacks rfl
    rw [revealImages, he, revealIn_append (by simp) _ hfree]
    exact .inl rfl
  · obtain rfl : y = g ++ '\'' :: s := by
      rw [← hcons, List.append_assoc, List.append_assoc] at hsplit
      exact List.append_cancel_left hsplit
    have hquote : '\'' ∉ g := fun hm => by
      obtain ⟨l, r, rfl⟩ := List.append_of_mem hm
      exact hnot ⟨l, r, by simp⟩
    rw [isQuiet_append_quote hquote] at hquiet
    have hbehind := (hy.of_append_quote hP (.inr ⟨⟨s, rfl⟩, hquiet⟩)).2
    exact .inr ⟨g, s, he, hbehind.of_cons hP.areAngled (by decide), by simp; omega⟩

/-- So does a search that begins with an opening. -/
theorem revealImages_of_isOpening (ha : IsOpening o a y)
    (hy : Confined addressWords (IsOpening o) [] y) :
    revealImages (a ++ y) = "<img src='".toList ++ revealImages y ∨
      ∃ g s, revealImages (a ++ y) = "<img src='".toList ++ Url.reveal g ++ ['\''] ++ revealImages s ∧
        Confined addressWords (IsOpening o) [] s ∧ s.length ≤ y.length := by
  cases ha with
  | @found u b hu hb =>
    rcases hb with ⟨s, rfl⟩ | ⟨s, rfl⟩
    · have hs := hy.of_cons (areQuoted_isOpening o).areAngled (by decide)
      refine .inr ⟨u, s, ?_, hs, by simp⟩
      rw [← revealImages_found hu.notMem]
      simp
    · -- the quote is the one in front of the address of a link
      have hopening : ∀ c ∈ ['\n', '\''], c ∉ u ++ "<a href=".toList := by
        intro c hc hm
        rcases List.mem_append.1 hm with hm | hm
        · exact hu.notMem c hc hm
        · rcases List.mem_pair.1 hc with rfl | rfl <;> exact absurd hm (by decide)
      have hs := hy.of_append_of_isFree fun a b ha => by
        obtain ⟨v, -, rfl⟩ := ha.exists_eq
        have hfree : IsFree "<img src='".toList "<a href='".toList := isFree_of_lacks rfl
        exact hfree.append_word v
      refine .inr ⟨u ++ "<a href=".toList, s, ?_, hs, by simp only [List.length_append]; omega⟩
      rw [← revealImages_found hopening]
      simp
  | idle hquiet => exact revealImages_of_isQuiet hquiet hy

/-- No token is left behind the rule for images, if the address words stand in their tags only. -/
theorem not_infix_revealImages (h : Confined addressWords (IsOpening o) [] t) :
    ∀ w ∈ addressTokens, ¬ w <:+: revealImages t := by
  have hsubset : addressTokens ⊆ addressWords := List.subset_append_left ..
  have hopening : ∀ w ∈ addressTokens, IsFree w "<img src='".toList :=
    fun w hw => isFree_of_mem_addressTokens hw (by decide)
  have hconfined : Confined addressTokens (fun _ _ => False) [] (revealImages t) := by
    induction hn : t.length using Nat.strongRecOn generalizing t with
    | ind n ih =>
      cases h with
      | nil =>
        rw [revealImages, revealIn_nil (by simp)]
        exact .nil
      | @char c t hw h =>
        rw [List.append_nil] at hw
        rw [revealImages, revealIn_cons (by simp) _ (hw _ (by simp [addressWords]))]
        refine .whole_char (fun w hmem => ?_) (ih _ (by simp [← hn]) h rfl)
        exact Url.not_isPrefix_of_edited (edited_revealIn (by simp) _ t) (hsubset hmem)
          (hw w (hsubset hmem))
      | @part a y ha hy =>
        rw [List.append_nil] at ha
        have hlen : y.length < n := by
          obtain ⟨u, -, rfl⟩ := ha.exists_eq
          simp [← hn]
          omega
        rcases revealImages_of_isOpening ha hy with he | ⟨g, s, he, hs, hle⟩
        · rw [he]
          exact (ih _ hlen hy rfl).append_left hopening
        · rw [he]
          exact confined_revealed_stretch g (ih _ (hle.trans_lt hlen) hs rfl)
  have hne : ∀ w ∈ addressTokens, w ≠ [] := by decide
  exact fun w hw => hconfined.not_isInfix (hne w hw) hw

/-! ## Links -/

/-- Openings and no tokens outside of them. -/
theorem HasOpenings.confined (h : HasOpenings o t) (ht : ∀ w ∈ addressTokens, ¬ w <:+: t) :
    Confined addressWords (IsOpening o) [] t := by
  induction h with
  | nil => exact .nil
  | @char c t hw _ ih =>
    refine .char (fun w hmem => ?_) (ih fun w hmem hin =>
      ht w hmem (hin.trans (List.suffix_cons c t).isInfix))
    rcases List.mem_append.1 hmem with hmem | hmem
    · rw [List.append_nil]
      exact fun hp => ht w hmem hp.isInfix
    · exact hw w hmem
  | @part a t ha _ ih =>
    exact .part ha (ih fun w hmem hin => ht w hmem (hin.trans (List.suffix_append a t).isInfix))

theorem IsOpening.append_right {b : Text} (h : IsOpening o a b) (r : Text) : IsOpening o a (b ++ r) := by
  cases h with
  | found hu hb =>
    exact .found hu (hb.imp (·.trans (List.prefix_append b r)) (·.trans (List.prefix_append b r)))
  | idle hquiet =>
    rw [← List.append_nil b] at hquiet
    exact .idle (hquiet.of_mem (by simpa using hquiet.quote_mem) r)

/-- The tag of a link with its address revealed. -/
theorem confined_revealed_link (himages : HasOpenings o (u ++ ['\'']))
    (hr : Confined addressWords (IsOpening o) [] r) :
    Confined addressWords (IsOpening o) []
      ("<a href='".toList ++ Url.reveal u ++ ['\'', '>'] ++ r) := by
  have hsplit : "<a href='".toList ++ Url.reveal u ++ ['\'', '>'] ++ r =
      "<a href='".toList ++ ((Url.reveal u ++ ['\'']) ++ (['>'] ++ r)) := by simp
  have hreveal : Url.reveal (u ++ ['\'']) = Url.reveal u ++ ['\''] := by
    rw [Url.reveal_append_cons (by decide), Url.reveal_nil]
  have haddress : Confined addressWords (IsOpening o) [] (Url.reveal u ++ ['\'']) := by
    rw [← hreveal]
    exact (staysInside_reveal.hasOpenings (Url.edited_reveal _) himages).confined
      (Url.not_infix_reveal _)
  have hopen : IsForeign addressWords "<a href='".toList := isForeign_of_foreign rfl
  have hclose : IsForeign addressWords ['>'] := isForeign_of_foreign rfl
  rw [hsplit]
  refine Confined.append_left hopen.isFree ((haddress.before (hclose.apart _ r)
    fun a z _ ha => ?_).whole_append (hr.append_left hclose.isFree))
  rw [List.append_nil] at ha
  exact ha.append_right _

/-- The first end of a tag is determined by the text. -/
theorem tagEnd_inj {g g' r r' : Text} (h : g ++ ['\'', '>'] ++ r = g' ++ ['\'', '>'] ++ r')
    (hg : ¬ ['\'', '>'] <:+: g) (hg' : ¬ ['\'', '>'] <:+: g') : g = g' ∧ r = r' := by
  have hcut := cut?_of_not_isInfix (p := fun _ => true) (r := r) (by decide) (fun _ _ => rfl) hg
  have hcut' := cut?_of_not_isInfix (p := fun _ => true) (r := r') (by decide) (fun _ _ => rfl) hg'
  rw [h, hcut'] at hcut
  exact (Prod.mk.inj (Option.some.inj hcut)).imp Eq.symm Eq.symm

/-- In the tag of a link, the end does not stand before the end. -/
theorem IsLinkAddress.not_infix_tag (hu : IsLinkAddress o u) :
    ¬ ['\'', '>'] <:+: "<a href='".toList ++ u := by
  rintro ⟨l, r, h⟩
  have hsplit : l ++ '\'' :: ('>' :: r) = "<a href=".toList ++ '\'' :: u := by
    simpa using h
  rcases append_cons_cases hsplit with ⟨-, -, hr⟩ | ⟨z, hz, -⟩ | ⟨z, -, hz⟩
  · exact hu.not_isInfix ⟨[], r, by simp [← hr]⟩
  · exact absurd (hz ▸ List.mem_append_right l List.mem_cons_self) (by decide)
  · exact hu.not_isInfix ⟨'\'' :: z, r, by simp [hz]⟩

/-- Behind the rule for links, the address words of a text stand behind openings only, be it that the
search for the end of a tag begins in the text or in front of it. -/
structure RevealsLinks (o : Options) (t : Text) : Prop where
  outside : Confined addressWords (IsOpening o) [] (revealLinks t)
  inside : ∀ g r, t = g ++ ['\'', '>'] ++ r → ¬ ['\'', '>'] <:+: g →
    Confined addressWords (IsOpening o) [] (Url.reveal g ++ ['\'', '>'] ++ revealLinks r)

/-- What the search for the end of a tag that has begun in front of a text makes of it. -/
theorem edited_tagEnd (g r : Text) : Edited (OneFor addressTokens [['_'], ['*']])
    (g ++ ['\'', '>'] ++ r) (Url.reveal g ++ ['\'', '>'] ++ revealLinks r) :=
  ((Url.edited_reveal g).append (.refl _)).append (edited_revealIn (by simp) _ r)

/-- A quote that ends an address also ends the only text in it with which the tag of a link can
begin. -/
theorem RevealsLinks.behind_quote (h : RevealsLinks o y) (hu : '\'' ∉ u) :
    ∃ r, revealLinks (u ++ '\'' :: y) = u ++ '\'' :: r ∧
      Edited (OneFor addressTokens [['_'], ['*']]) y r ∧ Confined addressWords (IsOpening o) [] r := by
  induction u with
  | nil =>
    refine ⟨revealLinks y, ?_, edited_revealIn (by simp) _ y, h.outside⟩
    exact revealIn_cons (by simp) _ fun hp => absurd (List.cons_prefix_cons.1 hp).1 (by decide)
  | cons c u ih =>
    obtain ⟨r, hr, hedit, hconfined⟩ := ih fun hm => hu (List.mem_cons_of_mem c hm)
    rcases revealIn_cases (show "<a href='".toList ≠ [] by simp) ['\'', '>'] (by simp) c
      (u ++ '\'' :: y) with he | ⟨g, r', hsplit, hnot, he⟩
    · refine ⟨r, ?_, hedit, hconfined⟩
      rw [List.cons_append, revealLinks, he, ← revealLinks, hr]
      rfl
    · have hopening : c :: u ++ '\'' :: y = "<a href=".toList ++ '\'' :: (g ++ ['\'', '>'] ++ r') := by
        rw [List.cons_append, hsplit]
        simp
      obtain ⟨hu', rfl⟩ := append_cons_inj hopening hu (by decide)
      refine ⟨Url.reveal g ++ ['\'', '>'] ++ revealLinks r', ?_, edited_tagEnd g r',
        h.inside g r' rfl hnot⟩
      rw [List.cons_append, revealLinks, he, ← List.cons_append, hu', ← revealLinks]
      simp

/-- In front of an angle bracket, no tag of a link begins without a quote. -/
theorem revealLinks_append_bracket (hu : '\'' ∉ u) (s : Text) :
    revealLinks (u ++ '<' :: s) = u ++ revealLinks ('<' :: s) := by
  induction u with
  | nil => rfl
  | cons c u ih =>
    have hopening : ¬ "<a href='".toList <+: c :: (u ++ '<' :: s) := by
      rintro ⟨k, hk⟩
      have hsplit : "<a href=".toList ++ '\'' :: k = (c :: u) ++ '<' :: s := by
        rw [List.cons_append, ← hk]
        simp
      rcases append_cons_cases hsplit with ⟨-, habsurd, -⟩ | ⟨z, hz, -⟩ | ⟨z, hz, -⟩
      · exact absurd habsurd (by decide)
      · exact hu (by simp [hz])
      · have htail : u ++ '<' :: z = "a href=".toList := (List.cons.inj hz).2.symm
        have hmem : '<' ∈ "a href=".toList := htail ▸ List.mem_append_right u List.mem_cons_self
        exact absurd hmem (by decide)
    rw [List.cons_append, revealLinks, revealIn_cons (by simp) _ hopening, ← revealLinks,
      ih fun hm => hu (List.mem_cons_of_mem c hm)]
    rfl

/-- No token reaches from an address into what stands behind it. -/
theorem IsOpening.reveal_append {z : Text} (ha : IsOpening o ("<img src='".toList ++ u) y)
    (hy : y = z ++ ['\'', '>'] ++ r) : Url.reveal (u ++ z) = Url.reveal u ++ Url.reveal z := by
  rcases ha.eq_nil_or with rfl | ⟨c, s, rfl, hc⟩
  · simp
  cases z with
  | nil => simp
  | cons d z =>
    obtain ⟨rfl, -⟩ := List.cons.inj hy
    have hc : ∀ w ∈ addressTokens, c ∉ w := by
      rcases List.mem_pair.1 hc with rfl | rfl <;> decide
    have hz : Url.reveal (c :: z) = c :: Url.reveal z := by
      simpa using Url.reveal_append_cons hc [] z
    rw [Url.reveal_append_cons hc, hz]

section Step

/-! The rest of a text is shorter, so that what is to be shown of the text holds there. -/

variable (ih : ∀ y, y.length < t.length → Confined addressWords (IsAddressTag o) [] y →
  RevealsLinks o y)

include ih

/-- The rule for links keeps an opening. -/
theorem confined_revealLinks_opening (ha : IsOpening o a y) (ht : t = a ++ y)
    (hy : Confined addressWords (IsAddressTag o) [] y) :
    Confined addressWords (IsOpening o) [] (revealLinks t) := by
  obtain ⟨u, hnot, rfl⟩ := ha.exists_eq
  have hquote := hnot '\'' (by simp)
  have hlen : y.length < t.length := by
    simp [ht]
    omega
  have hopening {r : Text} (hr : Edited (OneFor addressTokens [['_'], ['*']]) y r) :
      IsOpening o ("<img src='".toList ++ u) r := staysInside_reveal.isOpening ha (.refl u) hr
  have hedit := hopening (edited_revealIn (show "<a href='".toList ≠ [] by simp) ['\'', '>'] y)
  have hrest := (ih y hlen hy).outside
  obtain ⟨r, hr, ha, hconfined⟩ : ∃ r, revealLinks (u ++ y) = u ++ r ∧
      IsOpening o ("<img src='".toList ++ u) r ∧ Confined addressWords (IsOpening o) [] r := by
    rcases ha.eq_nil_or with rfl | ⟨c, s, rfl, hc⟩
    · exact ⟨revealLinks y, rfl, hedit, hrest⟩
    rcases List.mem_pair.1 hc with rfl | rfl
    · have hbehind := ih s (lt_trans (by simp) hlen)
        (hy.of_cons (areAngled_isAddressTag o) (by decide))
      have hclose : addressWords.all (lacks · ['\'']) := rfl
      obtain ⟨r, hr, hs, hconfined⟩ := hbehind.behind_quote hquote
      exact ⟨'\'' :: r, hr, hopening (.keep '\'' hs),
        hconfined.append_left (b := ['\'']) fun w hw => isFree_of_lacks (List.all_eq_true.1 hclose w hw)⟩
    · exact ⟨revealLinks ('<' :: s), revealLinks_append_bracket hquote s, hedit, hrest⟩
  have hfree : IsFree "<a href='".toList "<img src='".toList := isFree_of_lacks rfl
  rw [ht, List.append_assoc, revealLinks, revealIn_append (by simp) _ hfree, ← revealLinks, hr,
    ← List.append_assoc]
  exact .whole_part ha hconfined

theorem confined_revealLinks (h : Confined addressWords (IsAddressTag o) [] t) :
    Confined addressWords (IsOpening o) [] (revealLinks t) := by
  cases h with
  | nil =>
    rw [revealLinks, revealIn_nil (by simp)]
    exact .nil
  | @char c t hw ht =>
    rw [List.append_nil] at hw
    rcases revealIn_cases (show "<a href='".toList ≠ [] by simp) ['\'', '>'] (by simp) c t with
      he | ⟨g, r, hsplit, hnot, he⟩
    · rw [revealLinks, he]
      refine .whole_char (fun w hmem => ?_) (ih t (by simp) ht).outside
      exact Url.not_isPrefix_of_edited (edited_revealIn (by simp) _ t) hmem (hw w hmem)
    · obtain ⟨rfl, rfl⟩ : c = '<' ∧ t = "a href='".toList ++ (g ++ ['\'', '>'] ++ r) := by
        simpa using hsplit
      have hbehind := ih _ (by simp only [List.length_cons, List.length_append]; omega)
        (ht.of_append_of_notMem (areAngled_isAddressTag o) (by decide))
      have hopen : IsForeign addressWords "<a href='".toList := isForeign_of_foreign rfl
      rw [revealLinks, he, List.append_assoc, List.append_assoc, ← List.append_assoc (Url.reveal g)]
      exact (hbehind.inside g r rfl hnot).append_left hopen.isFree
  | @part a y ha hy =>
    rw [List.append_nil] at ha
    rcases ha with ha | ⟨u, hu, himages, rfl⟩
    · exact confined_revealLinks_opening ih ha rfl hy
    · have hrest := ih y (by simp only [List.length_cons, List.length_append]; omega) hy
      have hcut : cut? Regex.CharSet.notLineFeed.contains ['\'', '>'] (u ++ ['\'', '>'] ++ y) =
          some (u, y) := by
        refine cut?_of_not_isInfix (by decide) (contains_notLineFeed_of_notMem hu.lineFeed_notMem) ?_
        exact fun hin => hu.not_isInfix (hin.trans (List.suffix_cons '\'' u).isInfix)
      rw [revealLinks, revealIn_enclosed (by simp) _ hcut]
      exact confined_revealed_link himages hrest.outside

/-- The search for the end of a tag has come to an opening. -/
theorem confined_tagEnd_opening {g r : Text} (ha : IsOpening o a y) (ht : t = a ++ y)
    (hy : Confined addressWords (IsAddressTag o) [] y) (hg : t = g ++ ['\'', '>'] ++ r)
    (hnot : ¬ ['\'', '>'] <:+: g) :
    Confined addressWords (IsOpening o) [] (Url.reveal g ++ ['\'', '>'] ++ revealLinks r) := by
  have houtside := confined_revealLinks_opening ih ha ht hy
  obtain ⟨u, hu, rfl⟩ := ha.exists_eq
  have hlen : y.length < t.length := by
    simp [ht]
    omega
  have hsplit : "<img src=".toList ++ '\'' :: (u ++ y) = g ++ '\'' :: ('>' :: r) := by
    have hboth : "<img src='".toList ++ u ++ y = g ++ ['\'', '>'] ++ r := ht.symm.trans hg
    simpa using hboth
  rcases append_cons_cases hsplit with ⟨rfl, -, hr⟩ | ⟨g, rfl, hr⟩ | ⟨z, hz, -⟩
  · -- the end is the quote in front of the address, and nothing in front of it is revealed
    have hfree : IsFree "<a href='".toList ("<img src=".toList ++ ['\'', '>']) := isFree_of_lacks rfl
    have hreveal := Url.reveal_append (x := "<img src=".toList) (by decide) []
    rw [Url.reveal_nil, List.append_nil] at hreveal
    rw [hreveal]
    rwa [hg, revealLinks, revealIn_append (by simp) _ hfree] at houtside
  · -- the tag is passed
    obtain ⟨z, rfl, hz⟩ := exists_eq_append_of_notMem (hu '\'' (by simp)) hr
    have hy' : y = z ++ ['\'', '>'] ++ r := by simp [hz]
    have hend : ¬ ['\'', '>'] <:+: z := fun hin => hnot (hin.trans (List.IsSuffix.isInfix
      ⟨"<img src='".toList ++ u, by simp⟩))
    have hedit := edited_tagEnd z r
    rw [← hy'] at hedit
    have hpart : Confined addressWords (IsOpening o) [] _ :=
      .whole_part (staysInside_reveal.isOpening ha (Url.edited_reveal u) hedit)
        ((ih y hlen hy).inside z r hy' hend)
    have hreveal : Url.reveal ("<img src=".toList ++ '\'' :: (u ++ z)) =
        "<img src='".toList ++ (Url.reveal u ++ Url.reveal z) := by
      rw [← ha.reveal_append hy']
      exact Url.reveal_append (x := "<img src='".toList) (by decide) (u ++ z)
    rw [hreveal]
    simpa using hpart
  · exact absurd (hz ▸ List.mem_append_right g List.mem_cons_self) (by decide)

/-- The search for the end of a tag that has begun in front of a text goes through it. -/
theorem confined_tagEnd (h : Confined addressWords (IsAddressTag o) [] t) {g r : Text}
    (hg : t = g ++ ['\'', '>'] ++ r) (hnot : ¬ ['\'', '>'] <:+: g) :
    Confined addressWords (IsOpening o) [] (Url.reveal g ++ ['\'', '>'] ++ revealLinks r) := by
  cases h with
  | nil => exact absurd hg (by simp)
  | @char c y hw hy =>
    rw [List.append_nil] at hw
    cases g with
    | nil =>
      obtain ⟨rfl, rfl⟩ : c = '\'' ∧ y = '>' :: r := by simpa using hg
      have hrest := ih r (by simp only [List.length_cons]; omega)
        (hy.of_cons (areAngled_isAddressTag o) (by decide))
      have hclose : addressWords.all (lacks · ['\'', '>']) := rfl
      rw [Url.reveal_nil, List.nil_append]
      exact hrest.outside.append_left fun w hw => isFree_of_lacks (List.all_eq_true.1 hclose w hw)
    | cons d g =>
      obtain ⟨rfl, rfl⟩ : c = d ∧ y = g ++ ['\'', '>'] ++ r := by simpa using hg
      have hend : ¬ ['\'', '>'] <:+: g := fun hin => hnot (hin.trans (List.suffix_cons c g).isInfix)
      have hcons : Url.reveal (c :: g) = c :: Url.reveal g := by
        refine Url.reveal_cons fun w hmem hp => hw w (List.mem_append_left _ hmem) (hp.trans ?_)
        exact ⟨['\'', '>'] ++ r, by simp⟩
      rw [hcons, List.cons_append, List.cons_append]
      refine .whole_char (fun w hmem => ?_) ((ih _ (by simp) hy).inside g r rfl hend)
      exact Url.not_isPrefix_of_edited (edited_tagEnd g r) hmem (hw w hmem)
  | @part a y ha hy =>
    rw [List.append_nil] at ha
    rcases ha with ha | ⟨u, hu, himages, rfl⟩
    · exact confined_tagEnd_opening ih ha rfl hy hg hnot
    · obtain ⟨rfl, rfl⟩ := tagEnd_inj (g := "<a href='".toList ++ u) (by simpa using hg)
        hu.not_infix_tag hnot
      have hrest := ih y (by simp only [List.length_cons, List.length_append]; omega) hy
      rw [Url.reveal_append (by decide)]
      exact confined_revealed_link himages hrest.outside

end Step

theorem revealsLinks_of_confined (h : Confined addressWords (IsAddressTag o) [] t) :
    RevealsLinks o t := by
  induction hn : t.length using Nat.strongRecOn generalizing t with
  | ind n ih =>
    have ih' (y : Text) (hy : y.length < t.length) (h : Confined addressWords (IsAddressTag o) [] y) :
        RevealsLinks o y := ih _ (hn ▸ hy) h rfl
    exact ⟨confined_revealLinks ih' h, fun g r hg hnot => confined_tagEnd ih' h hg hnot⟩

end

/-- If the address words are confined to tags, no token is left in the document. -/
theorem Table.not_infix_revealing {d : Text} (h : Confined addressWords (IsAddressTag o) [] d) :
    ∀ w ∈ addressTokens, ¬ w <:+: revealing.pass o d := by
  rw [pass_revealing]
  exact not_infix_revealImages (revealsLinks_of_confined h).outside

end Markdown
