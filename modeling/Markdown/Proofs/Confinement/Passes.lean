import Markdown.Proofs.Confinement.Tags

/-!
# Passes that leave address words confined

Each rule of the standard table until blocks are merged leaves the address words where they are, apart
from the rules for references. The rules for what stands inside a line put tags in the places of
markers, within addresses as well. The rules for lines take something from the ends of a line and put
tags there (`IsReset`). An idle search for the end of a tag may go on over lines, but none of them gets
a quote or loses one (`confined_ofLines`).
-/

namespace Markdown

open Pattern Text

variable {o : Options}

/-! ## Inside a line -/

/-- The markers of what is set inside a line. -/
def inlineMarkers : List Text :=
  ["**", "__", "*", "_", "~~", ":\"", "\":", "`"].map String.toList

/-- The names of the elements that it becomes. -/
def inlineNames : List Text :=
  ["strong", "em", "del", "q", "code"].map String.toList

/-- The tags of these elements. -/
def inlineTags : List Text :=
  inlineNames.flatMap fun name => ['<' :: name ++ ['>'], '<' :: '/' :: name ++ ['>']]

theorem staysInside_inline : StaysInside inlineMarkers inlineTags :=
  ⟨List.all_eq_true.1 rfl, List.all_eq_true.1 rfl⟩

theorem isForeign_inlineTags : ∀ m ∈ inlineTags, IsForeign (confinedWords o) m := by
  have hapart : inlineTags.all isApart := rfl
  exact fun m hm => isForeign_confinedWords (List.all_eq_true.1 hapart m hm)

section Inline

variable {name : Text} (hname : name ∈ inlineNames)

include hname

theorem edited_element {a b : Text} (ha : a ∈ inlineMarkers) (hb : b ∈ inlineMarkers) (g : Text) :
    Edited (OneFor inlineMarkers inlineTags) (a ++ g ++ b) (Handler.element name g) := by
  have hopen : '<' :: name ++ ['>'] ∈ inlineTags := List.mem_flatMap.2 ⟨name, hname, by simp⟩
  have hclose : '<' :: '/' :: name ++ ['>'] ∈ inlineTags := List.mem_flatMap.2 ⟨name, hname, by simp⟩
  rw [element_eq]
  exact ((Edited.single ⟨ha, hopen⟩).append (.refl g)).append (.single ⟨hb, hclose⟩)

theorem edited_delimiter {d : Delimiter} (hd : d.markers ⊆ inlineMarkers) (t : Text) :
    Edited (OneFor inlineMarkers inlineTags) t
      ((delimiter d).rewriteFrom (fun m => Handler.element name (m.group 2)) none t) := by
  refine .rewriteFrom (isProper_finder_delimiter d) fun b s r v _ h => ?_
  obtain ⟨marker, hm, g, rfl, rfl, -, -⟩ := eq_of_finder_delimiter h
  exact edited_element hname (hd hm) (hd hm) g

theorem edited_enclosed {source : Text} (opening closing : Text) {S : Regex.CharSet}
    (ho : opening ∈ inlineMarkers) (hc : closing ∈ inlineMarkers) (hne : opening ≠ []) (t : Text) :
    Edited (OneFor inlineMarkers inlineTags) t ((enclosed source opening closing S).rewriteFrom
      (fun m => Handler.element name (m.group 1)) none t) := by
  refine .rewriteFrom (isProper_enclosed source S hne) fun b s r v _ h => ?_
  obtain ⟨g, rfl, rfl, -⟩ := eq_of_finder_enclosed h
  exact edited_element hname ho hc g

end Inline

/-! ## Lines -/

/-- What may take the place of what stands behind a line: other lines, if a search for a quote that is
idle stays so there. -/
def IsRest (y y' : Text) : Prop :=
  (y = [] ∧ y' = []) ∨ ∃ t t', y = '\n' :: t ∧ y' = '\n' :: t' ∧ (IsQuiet t → IsQuiet t')

/-- A word up to a quote stands at the beginning of a line as a whole. -/
theorem isPrefix_of_line {v z e y y' : Text} (hv : '\n' ∉ v) (he : ∀ c ∈ e, isBlank c)
    (hy : IsRest y y') (h : v ++ ['\''] <+: z ++ (e ++ y)) : v ++ ['\''] <+: z := by
  rcases List.prefix_or_prefix_of_prefix h (List.prefix_append z _) with hz | ⟨k, hk⟩
  · exact hz
  rw [← hk, List.prefix_append_right_inj] at h
  rcases List.eq_nil_or_concat k with rfl | ⟨k, c, rfl⟩
  · obtain rfl : z = v ++ ['\''] := by simpa using hk
    exact List.prefix_rfl
  obtain ⟨hv', hc⟩ : z ++ k = v ∧ c = '\'' := by
    rw [List.concat_eq_append, ← List.append_assoc] at hk
    exact (List.append_inj' hk rfl).imp_right (List.cons.inj · |>.1)
  rw [List.concat_eq_append, hc] at h
  have hk : '\n' ∉ k ++ ['\''] := by
    have hnot : '\n' ∉ k := fun hm => hv (hv' ▸ List.mem_append_right z hm)
    simpa using hnot
  have hquote : '\'' ∉ e := fun hm => absurd (he _ hm) (by decide)
  rcases List.prefix_or_prefix_of_prefix h (List.prefix_append e y) with hp | ⟨k', hk'⟩
  · exact absurd (hp.subset (by simp)) hquote
  · rw [← hk', List.prefix_append_right_inj] at h
    have hmem : '\'' ∈ k' := by
      have hall : '\'' ∈ e ++ k' := by simp [hk']
      exact (List.mem_append.1 hall).resolve_left hquote
    rcases hy with ⟨rfl, -⟩ | ⟨t, -, rfl, -, -⟩
    · rw [List.prefix_nil.1 h] at hmem
      exact absurd hmem (by simp)
    · obtain ⟨d, k', rfl⟩ := List.exists_cons_of_ne_nil (List.ne_nil_of_mem hmem)
      obtain rfl := (List.cons_prefix_cons.1 h).1
      exact absurd (hk' ▸ List.mem_append_right e List.mem_cons_self) hk

/-- An idle search stays so if the end of a line and what stands behind it are exchanged. -/
theorem IsQuiet.of_line {z e b y y' : Text} (h : IsQuiet (z ++ (e ++ y))) (he : ∀ c ∈ e, isBlank c)
    (hb : '\'' ∉ b) (hy : IsRest y y') : IsQuiet (z ++ (b ++ y')) := by
  by_cases hz : '\'' ∈ z
  · exact h.of_mem hz _
  have hquote : '\'' ∉ e := fun hm => absurd (he _ hm) (by decide)
  rcases hy with ⟨rfl, -⟩ | ⟨t, t', rfl, rfl, ht⟩
  · exact absurd h.quote_mem (by simp [hz, hquote])
  · rw [← List.append_assoc, isQuiet_append_lineFeed (by simp [hz, hquote])] at h
    rw [← List.append_assoc, isQuiet_append_lineFeed (by simp [hz, hb])]
    exact ht h

/-- Parts of some kind are tags, or the beginnings of tags, in one line, and stay such when the rest of
the line and the lines behind it are set. -/
structure AreTags (P : Text → Text → Prop) : Prop where
  areAngled : AreAngled P
  lineFeed_notMem : ∀ a b, P a b → '\n' ∉ a
  isEnded : ∀ a b, P a b → (∀ c ∈ a.getLast?, c ∈ ['\'', '>']) ∨
    ∃ g c s, b = g ++ c :: s ∧ '\n' ∉ g ∧ c ∈ ['\'', '<']
  of_line : ∀ a z e b y y', (∀ c ∈ e, isBlank c) → '\'' ∉ b → IsRest y y' →
    P a (z ++ (e ++ y)) → P a (z ++ (b ++ y'))

theorem areTags_isImageTag (o : Options) : AreTags (IsImageTag o) where
  areAngled := (areQuoted_isImageTag o).areAngled
  lineFeed_notMem := by
    rintro _ _ ⟨p, g, s, -, -, hnot, -, rfl, -⟩ hm
    rcases List.mem_append.1 hm with hm | hm
    · exact absurd hm (by decide)
    · exact hnot '\n' (by simp) (List.mem_append_left g hm)
  isEnded := by
    rintro _ _ ⟨p, g, s, -, -, hnot, -, -, rfl⟩
    exact .inr ⟨g, '\'', s, rfl, fun hm => hnot '\n' (by simp) (List.mem_append_right p hm), by simp⟩
  of_line := by
    rintro a z e b y y' he - hy ⟨p, g, s, hstretch, huncut, hnot, himage, rfl, hs⟩
    have hg : '\n' ∉ g := fun hm => hnot '\n' (by simp) (List.mem_append_right p hm)
    have hprefix : g ++ ['\''] <+: z ++ (e ++ y) := ⟨s, by simp [hs]⟩
    obtain ⟨s', rfl⟩ := isPrefix_of_line hg he hy hprefix
    exact ⟨p, g, s' ++ (b ++ y'), hstretch, huncut, hnot, himage, rfl, by simp⟩

theorem areTags_isAddressTag (o : Options) : AreTags (IsAddressTag o) where
  areAngled := areAngled_isAddressTag o
  lineFeed_notMem _ _ := IsAddressTag.lineFeed_notMem
  isEnded := by
    rintro a b ((⟨-, ⟨s, rfl⟩ | ⟨s, rfl⟩⟩ | -) | ⟨u, -, -, rfl⟩)
    · exact .inr ⟨[], '\'', s, rfl, by simp, by simp⟩
    · exact .inr ⟨[], '<', "a href='".toList ++ s, rfl, by simp, by simp⟩
    · refine .inl fun c hc => ?_
      obtain rfl : '\'' = c := Option.some.inj hc
      simp
    · refine .inl fun c hc => ?_
      rw [List.getLast?_append] at hc
      obtain rfl : '>' = c := Option.some.inj hc
      simp
  of_line := by
    rintro a z e b y y' he hb hy (ha | ha)
    · cases ha with
      | found hu h =>
        refine .inl (.found hu ?_)
        rcases h with h | h
        · exact .inl ((isPrefix_of_line (v := []) (by simp) he hy h).trans (List.prefix_append z _))
        · exact .inr ((isPrefix_of_line (v := "<a href=".toList) (by decide) he hy h).trans
            (List.prefix_append z _))
      | idle h => exact .inl (.idle (h.of_line he hb hy))
    · exact .inr ha

/-- Behind a line there is nothing or a line feed, so that what stands in front of one is in the line. -/
theorem IsRest.mem_of_eq {e g s y y' : Text} {c : Char} (hy : IsRest y y') (h : e ++ y = g ++ c :: s)
    (hg : '\n' ∉ g) (hc : c ≠ '\n') : c ∈ e := by
  rcases hy with ⟨rfl, -⟩ | ⟨t, -, rfl, -, -⟩
  · rw [List.append_nil] at h
    simp [h]
  · rcases append_cons_cases h with ⟨-, rfl, -⟩ | ⟨z, rfl, -⟩ | ⟨z, rfl, -⟩
    · exact absurd rfl hc
    · exact absurd (by simp) hg
    · simp

/-- The blanks at the end of a line can be divided from it, as each part ends with a quote or a bracket,
or has one behind it. -/
theorem AreTags.of_append_blanks {W : List Text} {P : Text → Text → Prop} {x e y y' : Text}
    (hP : AreTags P) (he : ∀ c ∈ e, isBlank c) (hy : IsRest y y') (h : Confined W P y (x ++ e)) :
    Confined W P (e ++ y) x := by
  have hnot {c : Char} (hc : c ∈ ['\'', '>', '<']) : ¬ isBlank c := by
    simp only [List.mem_cons, List.not_mem_nil, or_false] at hc
    rcases hc with rfl | rfl | rfl <;> decide
  refine (h.of_append fun u v r _ hv _ hne hpart hsplit => ?_).1
  rcases hP.isEnded _ r hpart with hend | ⟨g, c, s, rfl, hg, hc⟩
  · have hlast : v.getLast hne ∈ (u ++ v).getLast? := by
      rw [List.getLast?_append, List.getLast?_eq_some_getLast hne]
      rfl
    refine hnot ?_ (he _ (hv.subset (List.getLast_mem hne)))
    exact List.mem_append_left ['<'] (hend _ hlast)
  · obtain ⟨e, rfl⟩ := hv
    rw [List.append_assoc, List.append_cancel_left_eq] at hsplit
    have hmem : c ∈ e := by
      refine hy.mem_of_eq hsplit.symm hg ?_
      rcases List.mem_pair.1 hc with rfl | rfl <;> decide
    refine hnot ?_ (he c (List.mem_append_right v hmem))
    rcases List.mem_pair.1 hc with rfl | rfl <;> simp

/-- The second line has the same content as the first one, with something else around it: in front
nothing of a tag is taken away, and behind only blanks. -/
inductive IsReset (W : List Text) : Text → Text → Prop where
  | mk {m e a b : Text} (x : Text) (hm : ∀ c ∈ ['<', '\''], c ∉ m) (he : ∀ c ∈ e, isBlank c)
      (ha : ∀ w ∈ W, IsFree w a) (hb : b = [] ∨ IsForeign W b) (hquote : '\'' ∉ a ++ b) :
      IsReset W (m ++ x ++ e) (a ++ x ++ b)

/-- Tags in front of a text do not complete the beginning of an image's tag. -/
theorem not_suffix_append {a g : Text} (ha : IsFree "<img src='".toList a)
    (hg : ¬ "<img src=".toList <:+ g) : ¬ "<img src=".toList <:+ a ++ g := by
  intro hs
  rcases List.suffix_or_suffix_of_suffix hs (List.suffix_append a g) with hs | ⟨k, hk⟩
  · exact hg hs
  · rw [← hk] at hs
    obtain ⟨v, hv⟩ := hs
    have hak : a = v ++ k := by
      rw [← List.append_assoc] at hv
      exact (List.append_cancel_right hv).symm
    cases k with
    | nil =>
      rw [List.nil_append] at hk
      exact hg (hk ▸ List.suffix_rfl)
    | cons c k =>
      refine ha.not_isPrefix hak (g ++ ['\'']) ?_
      rw [← List.append_assoc, hk]
      exact List.prefix_rfl

namespace IsReset

variable {W : List Text} {P : Text → Text → Prop} {l l' m x a b y y' : Text}

theorem refl (W : List Text) (l : Text) : IsReset W l l := by
  have h : IsReset W ([] ++ l ++ []) ([] ++ l ++ []) :=
    .mk l (by simp) (by simp) (by simp) (.inl rfl) (by simp)
  simpa using h

/-- A line is trimmed and gets tags around it, in the place of what stands in front of it. -/
theorem trim (hm : ∀ c ∈ ['<', '\''], c ∉ m) (ha : ∀ w ∈ W, IsFree w a) (hb : IsForeign W b)
    (hquote : '\'' ∉ a ++ b) : IsReset W (m ++ x) (a ++ Text.trim x ++ b) := by
  obtain ⟨l, r, hx, hl, hr⟩ := exists_trimWhere isBlank x
  have hsplit : m ++ x = (m ++ l) ++ Text.trim x ++ r := by
    rw [List.append_assoc m, List.append_assoc m]
    exact congrArg (m ++ ·) hx
  rw [hsplit]
  refine .mk _ (fun c hc hmem => ?_) hr ha (.inr hb) hquote
  rcases List.mem_append.1 hmem with hmem | hmem
  · exact hm c hc hmem
  · simp only [List.mem_cons, List.not_mem_nil, or_false] at hc
    rcases hc with rfl | rfl <;> exact absurd (hl _ hmem) (by decide)

/-- A search that goes over the line and is idle stays so. -/
theorem isQuiet (hW : "<img src='".toList ∈ W) (h : IsReset W l l') (hy : IsRest y y')
    (hquiet : IsQuiet (l ++ y)) : IsQuiet (l' ++ y') := by
  obtain ⟨x, hm, he, ha, -, hquote⟩ := h
  rename_i m e a b
  obtain ⟨ha', hb'⟩ : '\'' ∉ a ∧ '\'' ∉ b := by simpa using hquote
  have hm' := hm '\'' (by simp)
  by_cases hx : '\'' ∈ x
  · obtain ⟨g, s, rfl, hg⟩ := List.eq_append_cons_of_mem hx
    have hsplit (c d z : Text) : c ++ (g ++ '\'' :: s) ++ d ++ z = (c ++ g) ++ '\'' :: (s ++ d ++ z) := by
      simp
    rw [hsplit, isQuiet_append_quote (by simp [hm', hg])] at hquiet
    rw [hsplit, isQuiet_append_quote (by simp [ha', hg])]
    exact not_suffix_append (ha _ hW) fun hs => hquiet (hs.trans (List.suffix_append m g))
  · have he' : '\'' ∉ e := fun hmem => absurd (he _ hmem) (by decide)
    rcases hy with ⟨rfl, -⟩ | ⟨t, t', rfl, rfl, ht⟩
    · exact absurd hquiet.quote_mem (by simp [hm', hx, he'])
    · rw [isQuiet_append_lineFeed (by simp [hm', hx, he'])] at hquiet
      rw [isQuiet_append_lineFeed (by simp [ha', hx, hb'])]
      exact ht hquiet

/-- Words stay confined in the line. -/
theorem confined (hP : AreTags P) (hlf : IsForeign W ['\n']) (h : IsReset W l l') (hy : IsRest y y')
    (hl : Confined W P y l) : Confined W P y' l' := by
  obtain ⟨x, hm, he, ha, hb, hquote⟩ := h
  rename_i m e a b
  have hb' : '\'' ∉ b := fun hmem => hquote (List.mem_append_right a hmem)
  rw [List.append_assoc] at hl
  have hbehind := hl.of_append_of_notMem hP.areAngled (hm '<' (by simp))
  have hx := hP.of_append_blanks he hy hbehind
  have happart : ∀ w ∈ W, Apart w x (b ++ y') := by
    rcases hb with rfl | hb
    · rcases hy with ⟨-, rfl⟩ | ⟨-, t', -, rfl, -⟩
      · exact fun w _ u v _ _ hv _ hp => hv (List.prefix_nil.1 hp)
      · exact hlf.apart x t'
    · exact hb.apart x y'
  rw [List.append_assoc]
  refine Confined.append_left ha ((hx.before happart fun a z _ hpart => ?_).append ?_)
  · exact hP.of_line a z e b y y' he hb' hy hpart
  · rcases hb with rfl | hb
    · exact .nil
    · exact .of_isFree hb.isFree

end IsReset

/-! ### Each rule -/

theorem isForeign_lineFeed : IsForeign (confinedWords o) ['\n'] :=
  isForeign_confinedWords rfl

theorem imageOpening_mem (o : Options) : "<img src='".toList ∈ confinedWords o :=
  addressWords_subset o (by simp [addressWords])

namespace Line

variable {l : Text}

theorem isReset_header (o : Options) (l : Text) : IsReset (confinedWords o) l (header o l) := by
  rcases header_cases o l with he | ⟨a, l', n, rfl, ha, he⟩
  · rw [he]
    exact .refl _ l
  have hdigits {c : Char} (hc : ¬ c.isDigit) : c ∉ Text.ofNat n := fun hm =>
    hc (isDigit_of_mem_ofNat hm)
  have htail : ∀ w ∈ confinedWords o, IsFree w (Text.ofNat n ++ ['>']) := by
    refine isFree_confinedWords_of_notMem fun c hc => ?_
    simp only [List.mem_cons, List.not_mem_nil, or_false] at hc
    rcases hc with rfl | rfl <;> simp [hdigits]
  have hopen : IsForeign (confinedWords o) ('<' :: 'h' :: Text.ofNat n ++ ['>']) :=
    (isForeign_confinedWords (b := ['<', 'h']) rfl).append_right htail
  have hclose : IsForeign (confinedWords o) ('<' :: '/' :: 'h' :: Text.ofNat n ++ ['>']) :=
    (isForeign_confinedWords (b := ['<', '/', 'h']) rfl).append_right htail
  rw [he, element_eq]
  refine .trim (fun c hc hm => ?_) hopen.isFree hclose (by simp [hdigits])
  simp only [List.mem_cons, List.not_mem_nil, or_false] at hc
  rcases ha _ hm with hsign | hindent
  · rcases hc with rfl | rfl <;> exact absurd hsign (by decide)
  · rcases hc with rfl | rfl <;> exact absurd hindent (by decide)

/-- A line that becomes a list with one item. -/
theorem isReset_singleItem {list m : Text} (hlist : list ∈ ["ul".toList, "ol".toList])
    (hm : ∀ c ∈ ['<', '\''], c ∉ m) : IsReset (confinedWords o) (m ++ l) (singleItem list l) := by
  have hopen : isApart ('<' :: list ++ ">\n\t<li>".toList) := by
    simp only [List.mem_cons, List.not_mem_nil, or_false] at hlist
    rcases hlist with rfl | rfl <;> rfl
  have hend : addressWords.all (lacks · ("</".toList ++ list ++ ['>'])) ∧
      [Family.bulleted, Family.numbered].all
        (fun f => lacks f.closing ("</".toList ++ list ++ ['>']).tail) := by
    simp only [List.mem_cons, List.not_mem_nil, or_false] at hlist
    rcases hlist with rfl | rfl <;> exact ⟨rfl, rfl⟩
  have hfree : ∀ w ∈ confinedWords o, IsFree w ("</".toList ++ list ++ ['>']) :=
    isFree_confinedWords (fun w hw => isFree_of_lacks (List.all_eq_true.1 hend.1 w hw))
      fun f hf => isFree_of_lacks (List.all_eq_true.1 hend.2 f hf)
  have hclose : IsForeign (confinedWords o) ("</li>\n".toList ++ ("</".toList ++ list ++ ['>'])) :=
    (isForeign_confinedWords rfl).append_right hfree
  have hquote : '\'' ∉ list := by
    simp only [List.mem_cons, List.not_mem_nil, or_false] at hlist
    rcases hlist with rfl | rfl <;> decide
  have hsplit : singleItem list l = '<' :: list ++ ">\n\t<li>".toList ++ Text.trim l ++
      ("</li>\n".toList ++ ("</".toList ++ list ++ ['>'])) := by
    rw [singleItem_eq]
    simp
  rw [hsplit]
  exact .trim hm (isForeign_confinedWords hopen).isFree hclose (by simp [hquote])

theorem isReset_unorderedItem (l : Text) : IsReset (confinedWords o) l (unorderedItem l) := by
  rcases unorderedItem_cases l with he | ⟨l', rfl, he⟩
  · rw [he]
    exact .refl _ l
  · rw [he]
    refine isReset_singleItem (m := ['*']) (by simp) fun c hc => ?_
    rcases List.mem_pair.1 hc with rfl | rfl <;> decide

theorem isReset_orderedItem (l : Text) : IsReset (confinedWords o) l (orderedItem l) := by
  rcases orderedItem_cases l with he | ⟨d, l', rfl, hd, he⟩
  · rw [he]
    exact .refl _ l
  · rw [he]
    refine isReset_singleItem (by simp) fun c hc hm => ?_
    simp only [List.mem_cons, List.not_mem_nil, or_false] at hc
    rcases List.mem_append.1 hm with hm | hm
    · rcases hc with rfl | rfl <;> exact absurd (hd _ hm) (by decide)
    · rcases hc with rfl | rfl <;> exact absurd hm (by decide)

theorem isReset_blockquote (l : Text) : IsReset (confinedWords o) l (blockquote l) := by
  rcases blockquote_cases l with he | ⟨a, l', rfl, ha, he⟩
  · rw [he]
    exact .refl _ l
  have hangle : ∀ c ∈ ['<', '\''], c ∉ a := by
    intro c hc
    rcases List.mem_pair.1 hc with rfl | rfl <;> rcases ha with rfl | rfl <;> decide
  have hopen : IsForeign (confinedWords o) ('<' :: "blockquote".toList ++ ['>']) :=
    isForeign_confinedWords rfl
  rw [he, quote, element_eq]
  exact .trim hangle hopen.isFree (isForeign_confinedWords rfl) (by decide)

theorem isReset_horizontalRule (l : Text) : IsReset (confinedWords o) l (horizontalRule l) := by
  rcases horizontalRule_cases l with he | ⟨a, l', rfl, -, ha, he⟩
  · rw [he]
    exact .refl _ l
  have hrule : IsForeign (confinedWords o) "<hr />".toList := isForeign_confinedWords rfl
  have h : IsReset (confinedWords o) (a ++ l' ++ []) ("<hr />".toList ++ l' ++ []) :=
    .mk l' (fun c hc hm => by
      simp only [List.mem_cons, List.not_mem_nil, or_false] at hc
      rcases hc with rfl | rfl <;> exact absurd (ha _ hm) (by decide))
      (by simp) hrule.isFree (.inl rfl) (by decide)
  rw [he]
  simpa using h

theorem isReset_paragraph (l : Text) : IsReset (confinedWords o) l (Handler.paragraphLine l) := by
  rcases Handler.paragraphLine_cases l with he | ⟨htrim, he⟩ | he
  · rw [he]
    exact .refl _ l
  · obtain ⟨a, b, hl, ha, hb⟩ := exists_trimWhere isBlank l
    have hblank : ∀ c ∈ l, isBlank c := fun c hc => by
      rw [hl, show trimWhere isBlank l = [] from htrim, List.append_nil] at hc
      exact (List.mem_append.1 hc).elim (ha c) (hb c)
    have h : IsReset (confinedWords o) ([] ++ [] ++ l) ([] ++ [] ++ []) :=
      .mk [] (by simp) hblank (by simp) (.inl rfl) (by simp)
    rw [he]
    simpa using h
  · have hopen : IsForeign (confinedWords o) ['<', 'p', '>'] := isForeign_confinedWords rfl
    rw [he, element_eq]
    exact .trim (m := []) (by simp) hopen.isFree (isForeign_confinedWords rfl) (by decide)

end Line

/-! ### All lines -/

section Lines

variable {P : Text → Text → Prop} {l l' t : Text} {f : Text → Text}

/-- Setting each line leaves an idle search idle. -/
theorem isQuiet_ofLines (hf : ∀ l, IsReset (confinedWords o) l (f l))
    (h : IsReset (confinedWords o) l l') (ls : List Text) (hl : IsQuiet (ofLines l ls)) :
    IsQuiet (ofLines l' (ls.map f)) := by
  induction ls generalizing l l' with
  | nil =>
    have hrest : IsRest [] [] := .inl ⟨rfl, rfl⟩
    have hquiet := h.isQuiet (imageOpening_mem o) hrest (by simpa using hl)
    simpa using hquiet
  | cons m ls ih =>
    rw [List.map_cons, ofLines_cons]
    rw [ofLines_cons] at hl
    exact h.isQuiet (imageOpening_mem o) (.inr ⟨_, _, rfl, rfl, ih (hf m)⟩) hl

/-- Setting each line leaves words confined. -/
theorem confined_ofLines (hP : AreTags P) (hf : ∀ l, IsReset (confinedWords o) l (f l))
    (h : IsReset (confinedWords o) l l') (ls : List Text)
    (hl : Confined (confinedWords o) P [] (ofLines l ls)) :
    Confined (confinedWords o) P [] (ofLines l' (ls.map f)) := by
  induction ls generalizing l l' with
  | nil =>
    rw [List.map_nil, ofLines_nil]
    rw [ofLines_nil] at hl
    exact h.confined hP isForeign_lineFeed (.inl ⟨rfl, rfl⟩) hl
  | cons m ls ih =>
    rw [List.map_cons, ofLines_cons]
    rw [ofLines_cons] at hl
    obtain ⟨hline, hrest⟩ := hl.of_append_cons hP.lineFeed_notMem
    have hnew := ih (hf m) (hrest.of_cons hP.areAngled (by decide))
    rw [List.append_nil] at hline
    have hrest : IsRest ('\n' :: ofLines m ls) ('\n' :: ofLines (f m) (ls.map f)) :=
      .inr ⟨_, _, rfl, rfl, isQuiet_ofLines hf (hf m) ls⟩
    exact (h.confined hP isForeign_lineFeed hrest hline).whole_append
      (hnew.append_left (b := ['\n']) isForeign_lineFeed.isFree)

variable (hP : AreTags P)

include hP

/-- If a rule sets lines only, it leaves words confined. -/
theorem Pattern.MapsLines.confined {p : Pattern} {ρ : Match → Text} (h : p.MapsLines ρ f)
    (hf : ∀ l, IsReset (confinedWords o) l (f l)) (ht : Confined (confinedWords o) P [] t) :
    Confined (confinedWords o) P [] (p.rewriteFrom ρ none t) := by
  obtain ⟨l, ls, rfl, hl, hls⟩ := exists_ofLines t
  rw [h.rewriteFrom_ofLines none hl hls]
  exact confined_ofLines hP hf (.refl _ l) ls ht

theorem confined_rewriteFrom_paragraph (ht : Confined (confinedWords o) P [] t) :
    Confined (confinedWords o) P []
      (paragraph.rewriteFrom (fun m => Handler.paragraphLine (m.group 1)) none t) := by
  obtain ⟨l, ls, rfl, hl, hls⟩ := exists_ofLines t
  rw [rewriteFrom_paragraph Handler.paragraphLine rfl rfl hl hls]
  exact confined_ofLines hP Line.isReset_paragraph (Line.isReset_paragraph l) ls ht

end Lines

/-! ## Tables -/

namespace Table

variable {d : Text}

theorem confined_heading {P : Text → Text → Prop} (hP : AreTags P)
    (h : Confined (confinedWords o) P [] d) : Confined (confinedWords o) P [] (heading.pass o d) := by
  rw [heading, isPure_header.pass_eq]
  exact (mapsLines_header o).confined hP (Line.isReset_header o) h

/-- Behind the rules for references, the address words stay confined until blocks are merged. -/
theorem confined_behindReferences (h : Confined (confinedWords o) (IsAddressTag o) [] d) :
    Confined (confinedWords o) (IsAddressTag o) [] ((behindReferences ++ [wrapping]).pass o d) := by
  have hP := areTags_isAddressTag o
  have hinline {d d' : Text} (h : Confined (confinedWords o) (IsAddressTag o) [] d)
      (he : Edited (OneFor inlineMarkers inlineTags) d d') :
      Confined (confinedWords o) (IsAddressTag o) [] d' :=
    staysInside_inline.confined isForeign_inlineTags h he
  refine pass_induction (fun r hr d h => ?_) h
  simp only [behindReferences, setting, List.drop_succ_cons, List.drop_zero, List.cons_append,
    List.nil_append, List.mem_cons, List.not_mem_nil, or_false] at hr
  rcases hr with rfl | rfl | rfl | rfl | rfl | rfl | rfl | rfl | rfl | rfl
  · rw [isPure_strong.pass_eq]
    exact hinline h (edited_delimiter (by decide) (by decide) d)
  · rw [isPure_emphasis.pass_eq]
    exact hinline h (edited_delimiter (by decide) (by decide) d)
  · rw [isPure_deleted.pass_eq]
    exact hinline h (edited_delimiter (by decide) (by decide) d)
  · rw [isPure_quotation.pass_eq]
    exact hinline h (edited_enclosed (by decide) [':', '"'] ['"', ':'] (by decide) (by decide)
      (by simp) d)
  · rw [isPure_inlineCode.pass_eq]
    exact hinline h (edited_enclosed (by decide) ['`'] ['`'] (by decide) (by decide) (by simp) d)
  · rw [isPure_unorderedItem.pass_eq]
    exact mapsLines_unorderedItem.confined hP Line.isReset_unorderedItem h
  · rw [isPure_orderedItem.pass_eq]
    exact mapsLines_orderedItem.confined hP Line.isReset_orderedItem h
  · rw [isPure_blockquote.pass_eq]
    exact mapsLines_blockquote.confined hP Line.isReset_blockquote h
  · rw [isPure_horizontalRule.pass_eq]
    exact mapsLines_horizontalRule.confined hP Line.isReset_horizontalRule h
  · rw [isPure_wrapping.pass_eq]
    exact confined_rewriteFrom_paragraph hP h

end Table

end Markdown
