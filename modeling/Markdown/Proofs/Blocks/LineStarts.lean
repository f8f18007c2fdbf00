import Markdown.Proofs.Confinement.Rendering

/-!
# How the lines of the HTML begin

Without merging, every line of the HTML is empty or begins with the tag of a block element, behind
blanks at most (`Renderer.every_line_begins_block`).

1. The rule for paragraphs makes every line such a line (`Table.areBlockLines_wrapping`).
2. What is replaced later stands within a line and begins at a character that no such beginning has
   behind its angle bracket. So a line begins as before, or with the beginning of what takes the
   place (`IsBlockLine.edited`). This holds for addresses, placeholders and hidden braces.
3. Trimming the document takes blanks from its first and its last line only
   (`AreBlockLines.trim`).
-/

namespace Markdown

open Text

variable {l l' t t' u x y : Text} {o : Options}

/-! ## Lines -/

namespace Text

/-- A line stands between two line feeds or ends of the text. -/
theorem mem_lines_iff : l ∈ lines t ↔ '\n' ∉ l ∧
    ∃ u v, t = u ++ l ++ v ∧ (u = [] ∨ u.getLast? = some '\n') ∧ EndsLine v := by
  constructor
  · intro h
    refine ⟨lineFeed_notMem_of_mem_lines h, ?_⟩
    obtain ⟨l₀, ls, rfl, hl, hls⟩ := exists_ofLines t
    rw [lines_ofLines (List.forall_mem_cons.2 ⟨hl, hls⟩)] at h
    rcases List.mem_cons.1 h with rfl | h
    · exact ⟨[], _, rfl, .inl rfl, endsLine_flatMap ls⟩
    · obtain ⟨xs, ys, rfl⟩ := List.append_of_mem h
      refine ⟨l₀ ++ xs.flatMap ('\n' :: ·) ++ ['\n'], ys.flatMap ('\n' :: ·), ?_, ?_,
        endsLine_flatMap ys⟩
      · simp [ofLines]
      · rw [List.getLast?_concat]
        exact .inr rfl
  · rintro ⟨hl, u, v, rfl, hu, hv⟩
    have hbehind : l ∈ lines (l ++ v) := by
      rcases hv with rfl | ⟨v, rfl⟩
      · rw [List.append_nil, lines_of_notMem hl]
        exact List.mem_singleton_self l
      · rw [lines_append_lineFeed, lines_of_notMem hl]
        exact List.mem_cons_self
    rcases hu with rfl | hu
    · exact hbehind
    · obtain ⟨w, rfl⟩ := List.getLast?_eq_some_iff.1 hu
      rw [List.append_assoc, List.append_assoc, List.singleton_append, lines_append_lineFeed]
      exact List.mem_append_right _ hbehind

/-- A line of a part of a text is part of a line of the text. -/
theorem exists_mem_lines_of_mem_lines (h : l ∈ lines t) (x y : Text) :
    ∃ x' y', x' ⊆ x ∧ y' ⊆ y ∧ x' ++ l ++ y' ∈ lines (x ++ t ++ y) := by
  obtain ⟨hl, u, v, rfl, hu, hv⟩ := mem_lines_iff.1 h
  -- what belongs to the line in front of the part, and what stands before it
  obtain ⟨x₀, x', hx, hx₀, hx'⟩ : ∃ x₀ x', x ++ u = x₀ ++ x' ∧
      (x₀ = [] ∨ x₀.getLast? = some '\n') ∧ x' ⊆ x ∧ '\n' ∉ x' := by
    rcases hu with rfl | hu
    · obtain ⟨hd, tl, rfl, hhd, htl⟩ := exists_ofLines x
      rw [List.append_nil]
      rcases List.eq_nil_or_concat tl with rfl | ⟨tl, last, rfl⟩
      · exact ⟨[], hd, by simp, .inl rfl, by simp, hhd⟩
      · refine ⟨ofLines hd tl ++ ['\n'], last, ?_, .inr (List.getLast?_concat ..), ?_,
          htl last (by simp)⟩
        · simp [ofLines]
        · intro c hc
          simp [ofLines, hc]
    · exact ⟨x ++ u, [], by simp, .inr (by simp [List.getLast?_append, hu]), by simp, by simp⟩
  obtain ⟨y', y₀, hy, hy₀, hy'⟩ : ∃ y' y₀, v ++ y = y' ++ y₀ ∧ EndsLine y₀ ∧
      y' ⊆ y ∧ '\n' ∉ y' := by
    rcases hv with rfl | ⟨v, rfl⟩
    · obtain ⟨hd, tl, rfl, hhd, -⟩ := exists_ofLines y
      exact ⟨hd, _, rfl, endsLine_flatMap tl, List.subset_append_left .., hhd⟩
    · exact ⟨[], '\n' :: v ++ y, rfl, .inr ⟨v ++ y, rfl⟩, by simp, by simp⟩
  refine ⟨x', y', hx'.1, hy'.1, mem_lines_iff.2 ⟨by simp [hx'.2, hl, hy'.2], x₀, y₀, ?_, hx₀, hy₀⟩⟩
  calc x ++ (u ++ l ++ v) ++ y = (x ++ u) ++ l ++ (v ++ y) := by simp
    _ = x₀ ++ (x' ++ l ++ y') ++ y₀ := by
      rw [hx, hy]
      simp

/-- A beginning without blanks is not trimmed. -/
theorem prefix_trim_append (hne : u ≠ []) (hu : ∀ c ∈ u, isBlank c = false) (t : Text) :
    u <+: trim (u ++ t) := by
  obtain ⟨a, b, rfl, hb, ha⟩ := exists_append_blank t
  have hhead : ∀ c ∈ (u ++ a).head?, isBlank c = false := by
    obtain ⟨c, u, rfl⟩ := List.exists_cons_of_ne_nil hne
    intro d hd
    obtain rfl : c = d := Option.some.inj hd
    exact hu c List.mem_cons_self
  have hlast := isBlank_of_mem_getLast?_append (fun c hc => hu c (List.mem_of_mem_getLast? hc)) ha
  rw [← List.append_assoc, trim_append_right _ hb, trim_eq_self hhead hlast]
  exact List.prefix_append u a

end Text

/-- An edit within lines edits each line. -/
theorem Edited.lines {Q : Text → Text → Prop} (hQ : ∀ m m', Q m m' → '\n' ∉ m ∧ '\n' ∉ m')
    (h : Edited Q t t') : List.Forall₂ (Edited Q) (lines t) (lines t') := by
  -- the first lines go on with what is kept or replaced in front of them
  have hfront {u v t t' : Text} (hu : '\n' ∉ u ∧ '\n' ∉ v) (he : Edited Q u v)
      (ih : List.Forall₂ (Edited Q) (Text.lines t) (Text.lines t')) :
      List.Forall₂ (Edited Q) (Text.lines (u ++ t)) (Text.lines (v ++ t')) := by
    obtain ⟨l, ls, hl, hul⟩ := exists_lines_append hu.1 t
    obtain ⟨l', ls', hl', hul'⟩ := exists_lines_append hu.2 t'
    rw [hl, hl', List.forall₂_cons] at ih
    rw [hul, hul', List.forall₂_cons]
    exact ⟨he.append ih.1, ih.2⟩
  induction h with
  | nil => exact .cons .nil .nil
  | @keep c t t' _ ih =>
    by_cases hc : c = '\n'
    · subst hc
      have hlines (t : Text) : Text.lines ('\n' :: t) = [] :: Text.lines t :=
        lines_append_lineFeed [] t
      rw [hlines, hlines]
      exact .cons .nil ih
    · have hc' : '\n' ∉ [c] := by simpa using Ne.symm hc
      exact hfront (u := [c]) (v := [c]) ⟨hc', hc'⟩ (.refl [c]) ih
  | replace hm _ ih => exact hfront (hQ _ _ hm) (.single hm) ih

/-! ## Lines that begin with the tag of a block element -/

/-- What the tags of block elements begin with. -/
def blockTags : List Text :=
  Handler.blockNames.flatMap fun name => ['<' :: name, '<' :: '/' :: name]

theorem ne_nil_of_mem_blockTags : ∀ k ∈ blockTags, k ≠ [] := by
  decide

theorem of_mem_blockTags {k : Text} (hk : k ∈ blockTags) :
    ∀ c ∈ k, isBlank c = false ∧ c.toNat < 128 := by
  have hall : blockTags.all fun k => k.all fun c => !isBlank c && c.toNat < 128 := by
    decide
  simpa using List.all_eq_true.1 hall k hk

/-- A line that is empty or begins with the tag of a block element, behind blanks at most. -/
def IsBlockLine (l : Text) : Prop :=
  l = [] ∨ ∃ k ∈ blockTags, k <+: Text.trim l

/-- All lines of a text are such lines. -/
def AreBlockLines (t : Text) : Prop :=
  ∀ l ∈ lines t, IsBlockLine l

theorem isBlockLine_of_isPrefix (hx : ∀ c ∈ x, isBlank c) {k : Text} (hk : k ∈ blockTags)
    (h : k <+: y) : IsBlockLine (x ++ y) := by
  obtain ⟨z, rfl⟩ := h
  refine .inr ⟨k, hk, ?_⟩
  rw [trim_append_left hx]
  exact prefix_trim_append (ne_nil_of_mem_blockTags k hk)
    (fun c hc => (of_mem_blockTags hk c hc).1) z

/-- Behind the angle bracket, and behind the slash of a closing tag, the tag has its name. -/
theorem exists_mem_blockTags_iff : (∃ k ∈ blockTags, k <+: x) ↔
    ∃ u, x = '<' :: u ∧ ((∃ v, u = '/' :: v ∧ ∃ name ∈ Handler.blockNames, name <+: v) ∨
      ∃ name ∈ Handler.blockNames, name <+: u) := by
  constructor
  · rintro ⟨k, hk, r, rfl⟩
    obtain ⟨name, hname, hk⟩ := List.mem_flatMap.1 hk
    have hp := List.prefix_append name r
    rcases List.mem_pair.1 hk with rfl | rfl
    · exact ⟨name ++ r, rfl, .inr ⟨name, hname, hp⟩⟩
    · exact ⟨'/' :: (name ++ r), rfl, .inl ⟨name ++ r, rfl, name, hname, hp⟩⟩
  · rintro ⟨u, rfl, ⟨v, rfl, name, hname, hp⟩ | ⟨name, hname, hp⟩⟩
    · exact ⟨'<' :: '/' :: name, List.mem_flatMap.2 ⟨name, hname, by simp⟩, by simpa using hp⟩
    · exact ⟨'<' :: name, List.mem_flatMap.2 ⟨name, hname, by simp⟩, by simpa using hp⟩

/-- A text begins with the tag of a block element if it begins with one of these. -/
theorem beginsBlock_iff : Handler.beginsBlock x ↔ ∃ k ∈ blockTags, k <+: x := by
  have hany (t : Text) : Handler.blockNames.any (·.isPrefixOf t) ↔
      ∃ name ∈ Handler.blockNames, name <+: t := by
    simp only [List.any_eq_true, List.isPrefixOf_iff_prefix]
  -- no name begins with the slash of a closing tag
  have hslash (v : Text) : ¬ ∃ name ∈ Handler.blockNames, name <+: '/' :: v := by
    rintro ⟨name, hname, hp⟩
    have hall : ∀ name ∈ Handler.blockNames, name ≠ [] ∧ name.head? ≠ some '/' := by decide
    obtain ⟨c, name, rfl⟩ := List.exists_cons_of_ne_nil (hall name hname).1
    exact (hall _ hname).2 (congrArg some (List.cons_prefix_cons.1 hp).1)
  rw [exists_mem_blockTags_iff]
  unfold Handler.beginsBlock
  split
  · rename_i t
    rw [hany]
    refine ⟨fun h => ⟨'/' :: t, rfl, .inl ⟨t, rfl, h⟩⟩, ?_⟩
    rintro ⟨u, hu, h⟩
    obtain rfl := (List.cons.inj hu).2
    rcases h with ⟨v, hv, h⟩ | h
    · exact (List.cons.inj hv).2 ▸ h
    · exact absurd h (hslash t)
  · rename_i t hnot
    rw [hany]
    refine ⟨fun h => ⟨t, rfl, .inr h⟩, ?_⟩
    rintro ⟨u, hu, h⟩
    obtain rfl := (List.cons.inj hu).2
    rcases h with ⟨v, rfl, -⟩ | h
    · exact absurd rfl (hnot v)
    · exact h
  · rename_i hnot
    refine ⟨fun h => absurd h (by simp), ?_⟩
    rintro ⟨u, rfl, -⟩
    exact absurd rfl (hnot u)

/-- A line with the tag of a block element in front, as the rule for paragraphs sees it. -/
theorem isBlockLine_of_beginsBlock (h : Handler.beginsBlock (Text.trim l)) : IsBlockLine l :=
  .inr (beginsBlock_iff.1 h)

theorem isBlockLine_paragraphLine (l : Text) : IsBlockLine (Handler.paragraphLine l) := by
  by_cases hblock : Handler.beginsBlock (Text.trim l)
  · rw [Handler.paragraphLine_of_beginsBlock hblock]
    exact isBlockLine_of_beginsBlock hblock
  · by_cases hempty : Text.trim l = []
    · exact .inl (by simp [Handler.paragraphLine, hempty, Handler.beginsBlock])
    · rw [Handler.paragraphLine_of_not_beginsBlock (by simpa using hblock) hempty]
      exact isBlockLine_of_isPrefix (x := []) (by simp) (k := ['<', 'p']) (by decide)
        (List.prefix_append ['<', 'p'] _)

theorem lineFeed_notMem_paragraphLine (hl : '\n' ∉ l) : '\n' ∉ Handler.paragraphLine l := by
  have htrim : '\n' ∉ Text.trim l := fun h => hl (mem_of_mem_trim h)
  rcases Handler.paragraphLine_cases l with h | ⟨-, h⟩ | h
  · rwa [h]
  · simp [h]
  · simp [h, Handler.element, htrim]

/-- The rule for paragraphs goes through a document line by line. -/
theorem Table.lines_wrapping (o : Options) (d : Text) :
    lines (wrapping.pass o d) = (lines d).map Handler.paragraphLine := by
  obtain ⟨l, ls, rfl, hl, hls⟩ := exists_ofLines d
  have hpass : wrapping.pass o (ofLines l ls) =
      ofLines (Handler.paragraphLine l) (ls.map Handler.paragraphLine) := by
    rw [isPure_wrapping.pass_eq]
    exact Pattern.rewriteFrom_paragraph Handler.paragraphLine rfl rfl hl hls
  have hlines : ∀ x ∈ l :: ls, '\n' ∉ x := List.forall_mem_cons.2 ⟨hl, hls⟩
  have hwrapped : ∀ x ∈ (l :: ls).map Handler.paragraphLine, '\n' ∉ x :=
    List.forall_mem_map.2 fun x hx => lineFeed_notMem_paragraphLine (hlines x hx)
  rw [hpass, lines_ofLines hlines]
  exact lines_ofLines hwrapped

/-- The rule for paragraphs makes every line begin with the tag of a block element. -/
theorem Table.areBlockLines_wrapping (o : Options) (d : Text) :
    AreBlockLines (wrapping.pass o d) := by
  intro l hl
  rw [lines_wrapping] at hl
  obtain ⟨l, -, rfl⟩ := List.mem_map.1 hl
  exact isBlockLine_paragraphLine l

/-- Blanks around a line do not matter. -/
theorem IsBlockLine.of_append (h : IsBlockLine (x ++ l ++ y)) (hx : ∀ c ∈ x, isBlank c)
    (hy : ∀ c ∈ y, isBlank c) : IsBlockLine l := by
  rcases h with h | ⟨k, hk, hp⟩
  · exact .inl (List.append_eq_nil_iff.1 (List.append_eq_nil_iff.1 h).1).2
  · rw [trim_append_right _ hy, trim_append_left hx] at hp
    exact .inr ⟨k, hk, hp⟩

theorem AreBlockLines.trim (h : AreBlockLines t) : AreBlockLines (Text.trim t) := by
  obtain ⟨x, y, ht, hx, hy⟩ := exists_trimWhere isBlank t
  intro l hl
  obtain ⟨x', y', hx', hy', hmem⟩ := exists_mem_lines_of_mem_lines hl x y
  have ht' : x ++ Text.trim t ++ y = t := ht.symm
  rw [ht'] at hmem
  exact (h _ hmem).of_append (fun c hc => hx c (hx' hc)) fun c hc => hy c (hy' hc)

/-! ## Replacing within the lines -/

/-- What may take the place of a stretch of a line without changing how the line begins. -/
structure KeepsStart (m m' : Text) : Prop where
  lineFeed_notMem : '\n' ∉ m ∧ '\n' ∉ m'
  head : ∃ c ∈ m.head?, isBlank c = false ∧ ∀ k ∈ blockTags, c ∉ k.tail
  /-- If the line begins with the stretch, it still begins with a tag. -/
  tag : (∃ k ∈ blockTags, ∃ r, k <+: m ++ r) → ∃ k ∈ blockTags, k <+: m'

namespace KeepsStart

variable {m m' : Text}

theorem ne_nil (h : KeepsStart m m') : m ≠ [] := by
  obtain ⟨c, hc, -⟩ := h.head
  exact List.ne_nil_of_mem (List.mem_of_mem_head? hc)

theorem isFree (h : KeepsStart m m') (hx : ∀ c ∈ m.head?, c ∉ x) : IsFree m x :=
  isFree_of_forall (fun d hd hhead => hx d hhead hd) h.ne_nil

/-- A stretch that does not begin like the tag of a block element. -/
theorem of_not_tag (hlf : '\n' ∉ m ∧ '\n' ∉ m') {c : Char} (hc : m.head? = some c)
    (hblank : isBlank c = false) (htail : ∀ k ∈ blockTags, c ∉ k.tail)
    (hnot : ∀ k ∈ blockTags, ∀ r, ¬ k <+: m ++ r) : KeepsStart m m' :=
  ⟨hlf, ⟨c, hc, hblank, htail⟩, fun ⟨k, hk, r, hp⟩ => absurd hp (hnot k hk r)⟩

/-- A stretch that does not even begin with an angle bracket. -/
theorem of_head_ne (hlf : '\n' ∉ m ∧ '\n' ∉ m') {c : Char} (hc : m.head? = some c)
    (hblank : isBlank c = false) (hnot : ∀ k ∈ blockTags, c ∉ k) : KeepsStart m m' := by
  refine of_not_tag hlf hc hblank (fun k hk hm => hnot k hk (List.mem_of_mem_tail hm)) ?_
  intro k hk r hp
  have hne := ne_nil_of_mem_blockTags k hk
  have hhead : k.head? = some c := by
    obtain ⟨m, rfl⟩ := List.head?_eq_some_iff.1 hc
    obtain ⟨d, k, rfl⟩ := List.exists_cons_of_ne_nil hne
    exact congrArg some (List.cons_prefix_cons.1 hp).1
  exact hnot k hk (List.mem_of_mem_head? hhead)

/-- A tag of its own kind that stands for itself with another address. -/
theorem of_address {opening : Text} (hm : '\n' ∉ opening ++ m) (hm' : '\n' ∉ opening ++ m')
    (hhead : opening.head? = some '<')
    (hnot : ∀ k ∈ blockTags, ¬ k <+: opening ∧ ¬ opening <+: k) :
    KeepsStart (opening ++ m) (opening ++ m') := by
  refine of_not_tag ⟨hm, hm'⟩ (c := '<') (by simp [hhead]) rfl (by decide) fun k hk r hp => ?_
  rw [List.append_assoc] at hp
  rcases List.prefix_or_prefix_of_prefix hp (List.prefix_append opening (m ++ r)) with h | h
  · exact (hnot k hk).1 h
  · exact (hnot k hk).2 h

end KeepsStart

/-- A line in which such stretches are replaced begins with the tag of a block element as before. -/
theorem IsBlockLine.edited (h : IsBlockLine l) (he : Edited KeepsStart l l') : IsBlockLine l' := by
  rcases h with rfl | ⟨k, hk, hp⟩
  · exact .inl (he.eq_nil fun m m' hm => hm.ne_nil)
  obtain ⟨a, b, hl, ha, -⟩ := exists_trimWhere isBlank l
  obtain ⟨r, hr⟩ := hp
  have hl' : l = a ++ (k ++ (r ++ b)) := by
    rw [hl, show trimWhere isBlank l = k ++ r from hr.symm]
    simp
  rw [hl'] at he
  -- nothing begins among the blanks
  have hfree : ∀ m m', KeepsStart m m' → IsFree m a := by
    intro m m' hm
    obtain ⟨c, hc, hblank, -⟩ := hm.head
    refine hm.isFree fun d hd hmem => ?_
    obtain rfl : c = d := Option.some.inj (hc.symm.trans hd)
    rw [ha c hmem] at hblank
    exact absurd hblank (by simp)
  obtain ⟨y, rfl, hy⟩ := he.exists_eq_append hfree
  obtain ⟨d, k', rfl⟩ := List.exists_cons_of_ne_nil (ne_nil_of_mem_blockTags k hk)
  generalize hz : d :: k' ++ (r ++ b) = z at hy
  cases hy with
  | nil => exact absurd hz (by simp)
  | @keep e z z' hz' =>
    -- the tag is kept from its second character on as well
    obtain ⟨rfl, rfl⟩ := List.cons.inj hz
    have hfree' : ∀ m m', KeepsStart m m' → IsFree m k' := by
      intro m m' hm
      obtain ⟨c, hc, -, htail⟩ := hm.head
      refine hm.isFree fun e he hmem => ?_
      obtain rfl : c = e := Option.some.inj (hc.symm.trans he)
      exact htail _ hk hmem
    obtain ⟨z'', rfl, -⟩ := hz'.exists_eq_append hfree'
    exact isBlockLine_of_isPrefix ha hk (List.prefix_append (d :: k') z'')
  | @replace m m' z z' hm _ =>
    obtain ⟨k'', hk'', hp''⟩ := hm.tag ⟨d :: k', hk, z, ⟨r ++ b, hz⟩⟩
    exact isBlockLine_of_isPrefix ha hk'' (hp''.trans (List.prefix_append m' z'))

theorem AreBlockLines.edited (h : AreBlockLines t) (he : Edited KeepsStart t t') :
    AreBlockLines t' := by
  have hlines := he.lines fun m m' hm => hm.lineFeed_notMem
  intro l' hl'
  obtain ⟨i, hi, rfl⟩ := List.getElem_of_mem hl'
  obtain ⟨hlen, hget⟩ := List.forall₂_iff_get.1 hlines
  have hi' : i < (lines t).length := hlen ▸ hi
  exact (h _ (List.getElem_mem hi')).edited (hget i hi' hi)

/-! ## What is replaced behind the rule for paragraphs -/

theorem lineFeed_notMem_reveal (h : '\n' ∉ u) : '\n' ∉ Url.reveal u := by
  refine (Url.edited_reveal u).notMem (fun m m' hm => ?_) h
  rcases List.mem_pair.1 hm.2 with rfl | rfl <;> decide

/-- An address is revealed within its tag, which is none of a block element. -/
theorem AreBlockLines.revealIn {opening closing : Text} (h : AreBlockLines t)
    (hlf : '\n' ∉ opening ∧ '\n' ∉ closing) (hhead : opening.head? = some '<')
    (hnot : ∀ k ∈ blockTags, ¬ k <+: opening ∧ ¬ opening <+: k) :
    AreBlockLines (revealIn opening closing t) := by
  have hne : opening ≠ [] := by
    rintro rfl
    simp at hhead
  refine h.edited (.rewriteFrom (Pattern.isProper_enclosed [] _ hne) fun b s r v _ hf => .single ?_)
  obtain ⟨g, rfl, rfl, hg⟩ := Pattern.eq_of_finder_enclosed hf
  have hg' : '\n' ∉ g := fun hm => absurd (hg _ hm) (by simp)
  change KeepsStart (opening ++ g ++ closing) (opening ++ Url.reveal g ++ closing)
  rw [List.append_assoc, List.append_assoc]
  refine .of_address ?_ ?_ hhead hnot
  · simp [hlf, hg']
  · simp [hlf, lineFeed_notMem_reveal hg']

theorem Table.areBlockLines_revealing (h : AreBlockLines t) :
    AreBlockLines (revealing.pass o t) := by
  rw [pass_revealing]
  exact (h.revealIn ⟨by decide, by decide⟩ rfl (by decide)).revealIn ⟨by decide, by decide⟩ rfl
    (by decide)

/-- A code block is one line. -/
theorem CodeBlock.lineFeed_notMem_render (raw : Text) : '\n' ∉ render raw := by
  rw [render_eq]
  simp [lineFeed_notMem_body raw]

/-- Code blocks take the places of placeholders, and a code block begins like the paragraph around
its placeholder. -/
theorem Table.areBlockLines_reinsertion {cx : Context} (h : AreBlockLines t)
    (hblocks : ∀ block ∈ cx.vault.blocks, ∃ raw, block = CodeBlock.render raw) :
    AreBlockLines (reinsertion.apply t cx).1 := by
  rw [text_apply_reinsertion]
  refine h.edited (.rewriteFrom Pattern.isProper_placeholder fun b s r v _ hf => ?_)
  rcases Handler.reinsertCodeBlock_cases ⟨s, v⟩ cx with he | hm
  · rw [he]
    exact .refl s
  obtain ⟨raw, hraw⟩ := hblocks _ hm
  rw [hraw]
  have hlf := CodeBlock.lineFeed_notMem_render raw
  obtain ⟨ds, hds, hs⟩ := Pattern.eq_of_finder_placeholder hf
  have hdigits : '\n' ∉ ds := fun hm => absurd (hds.2 _ hm) (by decide)
  rcases hs with ⟨rfl, -⟩ | ⟨rfl, -⟩
  · have hlf' : '\n' ∉ Pattern.wrappedToken ds := by simp [Pattern.wrappedToken, token, hdigits]
    refine .single ⟨⟨hlf', hlf⟩, ⟨'<', rfl, rfl, by decide⟩, fun _ => ⟨['<', 'p'], by decide, ?_⟩⟩
    exact List.prefix_append ['<', 'p'] _
  · have hlf' : '\n' ∉ token ds := by simp [token, hdigits]
    exact .single (.of_head_ne ⟨hlf', hlf⟩ (c := '\x7b') rfl rfl (by decide))

theorem Protected.areBlockLines_release (s t : Text) (h : AreBlockLines t) :
    AreBlockLines ((ofText s).release t) := by
  unfold release
  split
  · rename_i c hc
    have hprivate := le_toNat_of_mem_privateUse (of_standIn?_eq_some (of_standIn_ofText hc).2).2
    have hne {d : Char} (hd : d.toNat < 0xE000) : c ≠ d := by
      rintro rfl
      omega
    have hblank : isBlank c = false := by
      simp [isBlank, hne (d := ' ') (by decide), hne (d := '\t') (by decide),
        hne (d := '\n') (by decide), hne (d := '\x0c') (by decide), hne (d := '\r') (by decide)]
    refine h.edited (.flatMap (fun d => ?_) t)
    split
    · rename_i hd
      subst hd
      refine .inr (.of_head_ne ⟨?_, by decide⟩ rfl hblank fun k hk hm => ?_)
      · simpa using (hne (d := '\n') (by decide)).symm
      · exact hne (Nat.lt_trans (of_mem_blockTags hk _ hm).2 (by decide)) rfl
    · exact .inl rfl
  · exact h

namespace Renderer

/-- If adjacent blocks are not merged, every line of the HTML is empty or begins with the opening or
the closing tag of a block element, behind blanks at most. -/
theorem every_line_begins_block (o : Options) (ho : o.mergeAdjacentBlocks = false) (t : Text) :
    ∀ l ∈ lines ((ofOptions o).render t), l = [] ∨
      ∃ name ∈ ["ul", "ol", "li", "h", "p", "bl", "table", "tr", "th", "td", "code"].map
        String.toList, '<' :: name <+: trim l ∨ '<' :: '/' :: name <+: trim l := by
  have hsettled : AreBlockLines (settled o t).1 := by
    rw [(settled_eq o t).1, Table.pass_between, ho, if_neg (by simp), Table.pass_nil]
    exact Table.areBlockLines_revealing (Table.areBlockLines_wrapping o _)
  have hblocks : ∀ block ∈ (settled o t).2.vault.blocks, ∃ raw, block = CodeBlock.render raw := by
    intro block hm
    rw [vault_settled, vault_extracted] at hm
    obtain ⟨raw, hraw, -⟩ := exists_of_mem_codeBlocks (List.mem_toArray.1 hm)
    exact ⟨raw, hraw⟩
  have hrender : AreBlockLines ((ofOptions o).render t) := by
    rw [render_eq, rewritten_eq]
    exact Protected.areBlockLines_release t _ (Table.areBlockLines_reinsertion hsettled hblocks).trim
  intro l hl
  refine (hrender l hl).imp_right fun ⟨k, hk, hp⟩ => ?_
  obtain ⟨name, hname, hk⟩ := List.mem_flatMap.1 hk
  refine ⟨name, hname, ?_⟩
  rcases List.mem_pair.1 hk with rfl | rfl
  · exact .inl hp
  · exact .inr hp

/-- Code in a paragraph, a list and a quote; the list has five lines. -/
theorem every_line_begins_block_list :
    ({ mergeAdjacentBlocks := false } : Options).mergeAdjacentBlocks = false ∧
      "\t<li>b</li>".toList ∈ lines ((ofOptions { mergeAdjacentBlocks := false }).render
        "a ```1\n2```\n* b\n> c".toList) ∧
      ("\t<li>b</li>".toList = [] ∨
        ∃ name ∈ ["ul", "ol", "li", "h", "p", "bl", "table", "tr", "th", "td", "code"].map
          String.toList, '<' :: name <+: trim "\t<li>b</li>".toList ∨
            '<' :: '/' :: name <+: trim "\t<li>b</li>".toList) := by
  have hmem : "\t<li>b</li>".toList ∈ lines ((ofOptions { mergeAdjacentBlocks := false }).render
      "a ```1\n2```\n* b\n> c".toList) := by decide +kernel
  exact ⟨rfl, hmem, every_line_begins_block { mergeAdjacentBlocks := false } rfl _ _ hmem⟩

end Renderer

end Markdown
