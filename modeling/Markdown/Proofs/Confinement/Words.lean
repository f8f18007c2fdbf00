import Markdown.Proofs.Blocks.Merging
import Markdown.Proofs.Hiding

/-!
# Words of addresses

The tokens of addresses stand in the tags of links and images only, where the last rules look for
them. To stay there they must not be made anew by merging, which takes the seam between two blocks
out. The beginning of an image's tag may not be made anew either, or a search that begins there would
pass the address of an image.
-/

namespace Markdown

open Pattern Text

/-! ## The words -/

/-- The tokens of addresses and the beginning of the tag of an image. -/
def addressWords : List Text :=
  addressTokens ++ ["<img src='".toList]

/-- Some words, and the beginnings of them in front of `e`. -/
def withCuts (e : Text) (W : List Text) : List Text :=
  W ++ W.flatMap fun w => (List.range (w.length - 1)).map fun n => w.take (n + 1) ++ e

/-- The words from which merging can make an address word: if it takes out what stands between the
end of a list and the beginning of the next one, a beginning of the word in front of such an end can
become the word, or the same for the other kind of list. -/
def mergingWords : List Text :=
  withCuts Family.bulleted.closing (withCuts Family.numbered.closing addressWords)

/-- The words that stand only in tags until blocks are merged. -/
def confinedWords (o : Options) : List Text :=
  if o.mergeAdjacentBlocks then mergingWords else addressWords

theorem mem_withCuts {e w : Text} {W : List Text} :
    w ∈ withCuts e W ↔ w ∈ W ∨ ∃ u v, u ≠ [] ∧ v ≠ [] ∧ u ++ v ∈ W ∧ w = u ++ e := by
  simp only [withCuts, List.mem_append, List.mem_flatMap, List.mem_map, List.mem_range]
  refine or_congr_right ⟨?_, ?_⟩
  · rintro ⟨w', hw', n, hn, rfl⟩
    refine ⟨w'.take (n + 1), w'.drop (n + 1), ?_, ?_, ?_, rfl⟩
    · exact List.ne_nil_of_length_pos (by rw [List.length_take]; omega)
    · exact List.ne_nil_of_length_pos (by rw [List.length_drop]; omega)
    · rwa [List.take_append_drop]
  · rintro ⟨u, v, hu, hv, hmem, rfl⟩
    have hulen := List.length_pos_iff.2 hu
    have hvlen := List.length_pos_iff.2 hv
    refine ⟨u ++ v, hmem, u.length - 1, by rw [List.length_append]; omega, ?_⟩
    rw [Nat.sub_add_cancel hulen, List.take_left]

theorem subset_withCuts (e : Text) (W : List Text) : W ⊆ withCuts e W :=
  List.subset_append_left ..

/-- A beginning of a word in front of `e` does not begin in a text in which neither the word begins
nor `e` behind the first character. -/
theorem isFree_cut {u v e b : Text} (hu : u ≠ []) (hw : IsFree (u ++ v) b) (he : IsFree e b.tail) :
    IsFree (u ++ e) b := by
  induction b with
  | nil => trivial
  | cons c b ih =>
    refine ⟨fun r hp => ?_, ih hw.2 ?_⟩
    · have hpre : u <+: c :: b ++ r := (List.prefix_append u e).trans hp
      rcases List.prefix_or_prefix_of_prefix hpre (List.prefix_append (c :: b) r) with hpre | hpre
      · obtain ⟨y, hy⟩ := hpre
        cases y with
        | nil =>
          rw [List.append_nil] at hy
          exact hw.1 v (hy ▸ List.prefix_rfl)
        | cons d y =>
          obtain ⟨c', u, rfl⟩ := List.exists_cons_of_ne_nil hu
          obtain ⟨rfl, rfl⟩ := List.cons.inj hy
          have hbehind : u ++ e <+: u ++ (d :: y ++ r) := by
            have htail : u ++ e <+: u ++ (d :: y) ++ r := (List.cons_prefix_cons.1 hp).2
            rwa [List.append_assoc] at htail
          exact he.not_isPrefix rfl r ((List.prefix_append_right_inj u).1 hbehind)
      · obtain ⟨y, rfl⟩ := hpre
        exact hw.1 (y ++ v) (by simp)
    · cases b with
      | nil => trivial
      | cons d b => exact he.2

/-- Such a beginning does not reach into the text either. -/
theorem isClear_cut {u v e b : Text} (hw : IsClear (u ++ v).tail b)
    (he : IsFree e b.tail) (hclear : IsClear e b) : IsClear (u ++ e).tail b := by
  cases u with
  | nil => exact hclear.of_suffix (List.tail_suffix e)
  | cons a u =>
    intro x hx hxne
    obtain ⟨z, hz⟩ := hx
    rcases List.append_eq_append_iff.1 hz with ⟨y, rfl, rfl⟩ | ⟨y, -, rfl⟩
    · by_cases hy : y = []
      · subst hy
        exact hclear _ List.suffix_rfl hxne
      -- the part `y` of the word begins like `b`, so that `e` would have to begin in `b`
      have hnot : ¬ b <+: y := fun hp => by
        refine (hw (y ++ v) ⟨z, by simp⟩ (by simp [hy])).2 (hp.trans (List.prefix_append y v))
      have hrest {b' : Text} (hb : b = y ++ b') (hcomp : e <+: b' ∨ b' <+: e) : False := by
        obtain ⟨d, y, rfl⟩ := List.exists_cons_of_ne_nil hy
        cases b' with
        | nil => exact hnot (by simp [hb])
        | cons d' b' =>
          rw [hb, List.cons_append, List.tail_cons] at he
          rcases hcomp with hp | ⟨r, hr⟩
          · exact he.not_isPrefix rfl [] (by rwa [List.append_nil])
          · exact he.not_isPrefix rfl r (hr ▸ List.prefix_rfl)
      constructor
      · rintro ⟨r, hr⟩
        exact hrest (by rw [← hr, List.append_assoc]) (.inl (List.prefix_append e r))
      · intro hp
        rcases List.prefix_or_prefix_of_prefix hp (List.prefix_append y e) with hp' | ⟨b', hb'⟩
        · exact hnot hp'
        · rw [← hb', List.prefix_append_right_inj] at hp
          exact hrest hb'.symm (.inr hp)
    · exact hclear x (List.suffix_append y x) hxne

theorem isFree_withCuts {e b : Text} {W : List Text} (h : ∀ w ∈ W, IsFree w b)
    (he : IsFree e b.tail) : ∀ w ∈ withCuts e W, IsFree w b := by
  intro w hw
  rcases mem_withCuts.1 hw with hw | ⟨u, v, hu, -, hmem, rfl⟩
  · exact h w hw
  · exact isFree_cut hu (h _ hmem) he

theorem isClear_withCuts {e b : Text} {W : List Text} (h : ∀ w ∈ W, IsClear w.tail b)
    (he : IsFree e b.tail) (hclear : IsClear e b) : ∀ w ∈ withCuts e W, IsClear w.tail b := by
  intro w hw
  rcases mem_withCuts.1 hw with hw | ⟨u, v, -, -, hmem, rfl⟩
  · exact h w hw
  · exact isClear_cut (h _ hmem) he hclear

variable {b : Text} {o : Options}

theorem isFree_confinedWords (h : ∀ w ∈ addressWords, IsFree w b)
    (hends : ∀ f ∈ [Family.bulleted, Family.numbered], IsFree f.closing b.tail) :
    ∀ w ∈ confinedWords o, IsFree w b := by
  rw [confinedWords]
  split
  · exact isFree_withCuts (isFree_withCuts h (hends .numbered (by simp))) (hends .bulleted (by simp))
  · exact h

/-- The words begin with an opening brace or an angle bracket. -/
theorem isFree_confinedWords_of_notMem (h : ∀ c ∈ ['\x7b', '<'], c ∉ b) :
    ∀ w ∈ confinedWords o, IsFree w b := by
  refine isFree_confinedWords (fun w hw => ?_) fun f hf => ?_
  · have hbrace := h '\x7b' (by simp)
    have hangle := h '<' (by simp)
    simp only [addressWords, addressTokens, List.cons_append, List.nil_append, List.mem_cons,
      List.not_mem_nil, or_false] at hw
    rcases hw with rfl | rfl | rfl
    · exact isFree_of_notMem _ hbrace
    · exact isFree_of_notMem _ hbrace
    · exact isFree_of_notMem _ hangle
  · exact isFree_of_notMem _ fun hc => h '<' (by simp) (List.mem_of_mem_tail hc)

theorem isFree_confinedWords_of_all (h : b.all fun c => !(['\x7b', '<'].elem c)) :
    ∀ w ∈ confinedWords o, IsFree w b := by
  refine isFree_confinedWords_of_notMem fun c hc hm => ?_
  have hnot := List.all_eq_true.1 h c hm
  rw [List.elem_eq_true_of_mem hc] at hnot
  exact absurd hnot (by decide)

theorem isClear_confinedWords (h : ∀ w ∈ addressWords, IsClear w.tail b)
    (hends : ∀ f ∈ [Family.bulleted, Family.numbered], IsFree f.closing b.tail ∧ IsClear f.closing b) :
    ∀ w ∈ confinedWords o, IsClear w.tail b := by
  obtain ⟨hul, hul'⟩ := hends .bulleted (by simp)
  obtain ⟨hol, hol'⟩ := hends .numbered (by simp)
  rw [confinedWords]
  split
  · exact isClear_withCuts (isClear_withCuts h hol hol') hul hul'
  · exact h

/-- Whether a text is neither part of an address word nor, behind its first character, of the end of
a list. -/
def isApart (b : Text) : Bool :=
  foreign addressWords b &&
    [Family.bulleted, Family.numbered].all fun f => lacks f.closing b.tail && clears b f.closing

theorem isForeign_confinedWords (h : isApart b) : IsForeign (confinedWords o) b := by
  simp only [isApart, Bool.and_eq_true, List.all_eq_true] at h
  have hwords := isForeign_of_foreign h.1
  intro w hw
  refine ⟨isFree_confinedWords hwords.isFree (fun f hf => ?_) w hw,
    isClear_confinedWords (fun w hw => (hwords w hw).2) (fun f hf => ?_) w hw⟩
  · exact isFree_of_lacks (h.2 f hf).1
  · exact ⟨isFree_of_lacks (h.2 f hf).1, isClear_of_clears (h.2 f hf).2⟩

theorem addressWords_subset (o : Options) :
    addressWords ⊆ confinedWords o := by
  rw [confinedWords]
  split
  · exact fun w hw => subset_withCuts _ _ (subset_withCuts _ _ hw)
  · exact List.Subset.refl _

/-! ## Quotes -/

theorem eq_of_quote_mem_addressWords {w u v : Text} (hw : w ∈ addressWords) (h : w = u ++ '\'' :: v) :
    u = "<img src=".toList ∧ v = [] := by
  subst h
  have hcount : ∀ w ∈ addressWords, w.count '\'' ≤ 1 := by decide
  have himage : ∀ w ∈ addressWords, '\'' ∈ w → w = "<img src=".toList ++ ['\''] := by decide
  have hu : '\'' ∉ u := fun hm => by
    have hle := hcount _ hw
    have hpos := List.count_pos_iff.2 hm
    rw [List.count_append, List.count_cons_self] at hle
    omega
  exact append_cons_inj (himage _ hw (by simp)) hu (by decide)

/-- If a character only stands at the end of words, it does not stand in words that are cut. -/
theorem eq_of_mem_withCuts {c : Char} {e x : Text} (he : c ∉ e)
    (hW : ∀ w ∈ W, ∀ u v, w = u ++ c :: v → u = x ∧ v = []) :
    ∀ w ∈ withCuts e W, ∀ u v, w = u ++ c :: v → u = x ∧ v = [] := by
  intro w hw u v h
  rcases mem_withCuts.1 hw with hw | ⟨a, b, -, hb, hmem, rfl⟩
  · exact hW w hw u v h
  · rcases List.append_eq_append_iff.1 h with ⟨z, rfl, rfl⟩ | ⟨z, rfl, hz⟩
    · exact absurd (by simp) he
    · cases z with
      | nil =>
        rw [List.nil_append] at hz
        exact absurd (hz ▸ List.mem_cons_self) he
      | cons d z =>
        obtain ⟨rfl, rfl⟩ := List.cons.inj hz
        have hnil := (hW _ hmem u (z ++ b) (by simp)).2
        exact absurd (List.append_eq_nil_iff.1 hnil).2 hb

/-- A quote ends the beginning of an image's tag, and stands in no other word. -/
theorem eq_of_quote_mem {w u v : Text} (hw : w ∈ confinedWords o) (h : w = u ++ '\'' :: v) :
    u = "<img src=".toList ∧ v = [] := by
  have hclosing (f : Family) : '\'' ∉ f.closing := by cases f <;> decide
  have hwords : ∀ w ∈ addressWords, ∀ u v, w = u ++ '\'' :: v → u = "<img src=".toList ∧ v = [] :=
    fun w hw u v => eq_of_quote_mem_addressWords hw
  rw [confinedWords] at hw
  split at hw
  · exact eq_of_mem_withCuts (hclosing .bulleted)
      (eq_of_mem_withCuts (hclosing .numbered) hwords) w hw u v h
  · exact hwords w hw u v h

/-- No word reaches over a quote from what does not end like the beginning of an image's tag. -/
theorem apart_quote {x : Text} (hx : ¬ "<img src=".toList <:+ x) (y : Text) :
    ∀ w ∈ confinedWords o, Apart w x ('\'' :: y) := by
  rintro w hw u v rfl - hv hsuffix hp
  obtain ⟨c, v, rfl⟩ := List.exists_cons_of_ne_nil hv
  obtain ⟨rfl, -⟩ := List.cons_prefix_cons.1 hp
  obtain ⟨rfl, -⟩ := eq_of_quote_mem hw rfl
  exact hx hsuffix

end Markdown
