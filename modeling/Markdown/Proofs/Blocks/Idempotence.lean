import Markdown.Proofs.Blocks.RunLines

/-!
# Rendering what is rendered

The HTML of a document of lines, taken as a document, has the lines of its blocks, and nothing in it is
left to merge. Hence it is rendered as it is if, and only if, no quote that is merged with the line
in front of it says something (`Renderer.render_render_iff`).
-/

namespace Markdown

open Pattern

namespace SourceLine

variable {o : Options} {g : List SourceLine} {l : SourceLine} {x : Text}

/-! ## The HTML of a document -/

/-- The lines of a document, in the groups that make its blocks. -/
def groups (o : Options) (ls : List SourceLine) : List (List SourceLine) :=
  if o.mergeAdjacentBlocks then ls.splitBy joins else ls.map ([·])

theorem isRun_singleton (l : SourceLine) : IsRun (runFamily? [l]) [l] :=
  ⟨by simp [runFamily?], by simp, fun _ => ⟨l, rfl⟩⟩

theorem isRun_of_mem_groups {ls : List SourceLine} (h : g ∈ groups o ls) :
    IsRun (runFamily? g) g := by
  unfold groups at h
  split at h
  · exact isRun_of_mem_splitBy h
  · obtain ⟨l, -, rfl⟩ := List.mem_map.1 h
    exact isRun_singleton l

theorem flatten_groups (o : Options) (ls : List SourceLine) : (groups o ls).flatten = ls := by
  unfold groups
  split
  · exact List.flatten_splitBy joins ls
  · rw [← List.flatMap_def, List.flatMap_singleton']

theorem runHtml_singleton (o : Options) (l : SourceLine) : runHtml o [l] = l.html o := by
  cases h : l.family? with
  | none => simp [runHtml, h]
  | some f => simp [runHtml, h, html_of_family? h, Family.block_singleton]

theorem reference_eq (o : Options) (ls : List SourceLine) :
    reference o ls = List.intercalate ['\n'] ((groups o ls).map (runHtml o)) := by
  unfold reference groups
  split
  · rfl
  · simp [Function.comp_def, runHtml_singleton]

/-- A line of no family is a group of its own. -/
theorem groups_cons (o : Options) (h : l.family? = none) (ls : List SourceLine) :
    groups o (l :: ls) = [l] :: groups o ls := by
  unfold groups
  split
  · have hsplit := List.splitBy_append (r := joins) (l := [l]) (m := ls)
      (fun x hx y _ => by
        obtain rfl : l = x := Option.some.inj hx
        simp [joins, h])
    rwa [List.splitBy_of_isChain (l := [l]) (by simp) (by simp)] at hsplit
  · rfl

theorem groups_concat (o : Options) (h : l.family? = none) (ls : List SourceLine) :
    groups o (ls ++ [l]) = groups o ls ++ [[l]] := by
  unfold groups
  split
  · have hsplit := List.splitBy_append (r := joins) (l := ls) (m := [l])
      (fun x _ y hy => by
        obtain rfl : l = y := Option.some.inj hy
        simp only [joins, h, Bool.and_eq_false_iff]
        cases x.family? <;> simp)
    rwa [List.splitBy_of_isChain (l := [l]) (by simp) (by simp)] at hsplit
  · simp

/-- A block with something in it is an element. -/
theorem exists_tag_runHtml (o : Options) (hg : IsRun (runFamily? g) g) (hl : l ∈ g)
    (hne : l.html o ≠ []) : ∃ t, runHtml o g = '<' :: t ++ ['>'] := by
  cases hfamily : runFamily? g with
  | some f =>
    rw [runHtml, ← runFamily?, hfamily]
    cases f <;> exact Handler.exists_tag_element _ _
  | none =>
    obtain ⟨l', rfl⟩ := hg.alone hfamily
    obtain rfl := List.mem_singleton.1 hl
    rw [runHtml_singleton]
    cases l with
    | rule more => exact ⟨"hr /".toList, rfl⟩
    | block line carriageReturn =>
      cases line with
      | blank indent _ => exact absurd rfl hne
      | plain words _ => exact Handler.exists_tag_element _ _
      | heading signs _ gap _ _ words => exact Handler.exists_tag_element _ _
      | _ => exact absurd hfamily (by simp [runFamily?, family?, BlockLine.family?])

/-! ### Blank lines at the ends -/

theorem family?_of_html_eq_nil (h : l.html o = []) : l.family? = none := by
  cases hfamily : l.family? with
  | none => rfl
  | some f =>
    rw [html_of_family? hfamily, Family.single, Family.opening] at h
    simp at h

theorem trim_intercalate_nil_cons (xs : List Text) :
    Text.trim (List.intercalate ['\n'] ([] :: xs)) = Text.trim (List.intercalate ['\n'] xs) := by
  cases xs with
  | nil => simp
  | cons x xs =>
    have hblank : ∀ c ∈ ['\n'], Text.isBlank c := List.all_eq_true.1 rfl
    rw [List.intercalate_cons_cons, List.nil_append, Text.trim_append_left hblank]

theorem trim_intercalate_concat_nil (xs : List Text) :
    Text.trim (List.intercalate ['\n'] (xs ++ [[]])) = Text.trim (List.intercalate ['\n'] xs) := by
  rcases List.eq_nil_or_concat xs with rfl | ⟨ys, y, rfl⟩
  · simp
  · have hblank : ∀ c ∈ ['\n'], Text.isBlank c := List.all_eq_true.1 rfl
    rw [List.concat_eq_append, Text.intercalate_concat, Text.intercalate_concat, List.append_nil,
      List.flatMap_append, List.flatMap_singleton, ← List.append_assoc,
      Text.trim_append_right _ hblank]

/-- A document that neither begins nor ends with a blank line is not trimmed. -/
theorem trim_reference_of_ends {ls : List SourceLine} (hhead : ∀ l ∈ ls.head?, l.html o ≠ [])
    (hlast : ∀ l ∈ ls.getLast?, l.html o ≠ []) :
    Text.trim (reference o ls) = reference o ls := by
  have hflatten := flatten_groups o ls
  rw [reference_eq]
  refine Text.trim_eq_self (fun c hc => ?_) fun c hc => ?_
  · cases hgroups : groups o ls with
    | nil => simp [hgroups] at hc
    | cons g gs =>
      have hmem : g ∈ groups o ls := by simp [hgroups]
      have hg := isRun_of_mem_groups hmem
      obtain ⟨l, g, rfl⟩ := List.exists_cons_of_ne_nil hg.ne_nil
      have hl : ls.head? = some l := by
        rw [← hflatten, hgroups]
        rfl
      obtain ⟨t, ht⟩ := exists_tag_runHtml o hg List.mem_cons_self (hhead l hl)
      rw [hgroups, List.map_cons, Text.intercalate_cons, ht] at hc
      obtain rfl : '<' = c := Option.some.inj hc
      rfl
  · rcases List.eq_nil_or_concat (groups o ls) with hgroups | ⟨gs, g, hgroups⟩
    · simp [hgroups] at hc
    · rw [List.concat_eq_append] at hgroups
      have hmem : g ∈ groups o ls := by simp [hgroups]
      have hg := isRun_of_mem_groups hmem
      obtain ⟨g', l, hgl⟩ := (List.eq_nil_or_concat g).resolve_left hg.ne_nil
      have hl : ls.getLast? = some l := by
        rw [← hflatten, hgroups, hgl]
        simp
      obtain ⟨t, ht⟩ := exists_tag_runHtml o hg (by simp [hgl]) (hlast l hl)
      rw [hgroups, List.map_append, List.map_singleton, Text.intercalate_concat, ht,
        ← List.append_assoc, List.getLast?_concat] at hc
      obtain rfl : '>' = c := Option.some.inj hc
      rfl

theorem isChain_cons_iff_of_family? (h : l.family? = none) (ls : List SourceLine) :
    (l :: ls).IsChain StaysMerged ↔ ls.IsChain StaysMerged := by
  simp [List.isChain_cons, StaysMerged, h]

theorem isChain_concat_iff_of_family? (h : l.family? = none) (ls : List SourceLine) :
    (ls ++ [l]).IsChain StaysMerged ↔ ls.IsChain StaysMerged := by
  simp [List.isChain_append, StaysMerged, h]

/-- Trimming the HTML of a document leaves out the blank lines at its beginning and its end. -/
theorem exists_trim_reference (o : Options) (ls : List SourceLine) :
    ∃ ls', Text.trim (reference o ls) = reference o ls' ∧
      Text.trim (reference o ls') = reference o ls' ∧
      (ls'.IsChain StaysMerged ↔ ls.IsChain StaysMerged) := by
  -- the blank lines at the beginning come first
  have hfront : ∃ ls', Text.trim (reference o ls) = Text.trim (reference o ls') ∧
      (ls'.IsChain StaysMerged ↔ ls.IsChain StaysMerged) ∧ ∀ l ∈ ls'.head?, l.html o ≠ [] := by
    induction ls with
    | nil => exact ⟨[], rfl, Iff.rfl, by simp⟩
    | cons l ls ih =>
      by_cases hl : l.html o = []
      · have hfamily := family?_of_html_eq_nil hl
        obtain ⟨ls', htrim, hchain, hhead⟩ := ih
        refine ⟨ls', ?_, hchain.trans (isChain_cons_iff_of_family? hfamily ls).symm, hhead⟩
        rw [← htrim, reference_eq, groups_cons o hfamily, List.map_cons, runHtml_singleton, hl,
          trim_intercalate_nil_cons, reference_eq]
      · exact ⟨l :: ls, rfl, Iff.rfl, fun x hx => by rwa [← Option.some.inj hx]⟩
  obtain ⟨ls₁, htrim, hchain, hhead⟩ := hfront
  rw [htrim, ← hchain]
  clear htrim hchain
  induction ls₁ using List.reverseRecOn with
  | nil =>
    have hnil : reference o [] = [] := by simp [reference_eq, groups]
    exact ⟨[], by rw [hnil]; rfl, by rw [hnil]; rfl, Iff.rfl⟩
  | append_singleton ls₁ l ih =>
    by_cases hl : l.html o = []
    · have hfamily := family?_of_html_eq_nil hl
      have hhead' : ∀ x ∈ ls₁.head?, x.html o ≠ [] := fun x hx =>
        hhead x (by rw [Option.mem_def] at hx ⊢; simp [List.head?_append, hx])
      obtain ⟨ls', htrim, htrimmed, hchain⟩ := ih hhead'
      refine ⟨ls', ?_, htrimmed, hchain.trans (isChain_concat_iff_of_family? hfamily ls₁).symm⟩
      rw [← htrim, reference_eq, groups_concat o hfamily, List.map_append, List.map_singleton,
        runHtml_singleton, hl, trim_intercalate_concat_nil, reference_eq]
    · have htrimmed := trim_reference_of_ends hhead fun x hx => by
        rw [List.getLast?_concat] at hx
        rwa [← Option.some.inj hx]
      exact ⟨ls₁ ++ [l], htrimmed, htrimmed, Iff.rfl⟩

/-! ### The lines of the HTML -/

theorem reference_nil (o : Options) : reference o [] = [] := by
  simp [reference_eq, groups]

theorem lines_reference {ls : List SourceLine} (hne : ls ≠ []) :
    Text.lines (reference o ls) = (groups o ls).flatMap fun g => Text.lines (runHtml o g) := by
  cases hgroups : groups o ls with
  | nil =>
    have hflatten := flatten_groups o ls
    rw [hgroups] at hflatten
    exact absurd hflatten.symm hne
  | cons g gs =>
    rw [reference_eq, hgroups, List.map_cons, Text.lines_intercalate, ← List.map_cons,
      List.flatMap_map]

theorem isSet_reference (o : Options) (ls : List SourceLine) : IsSet (reference o ls) := by
  intro x hx
  by_cases hne : ls = []
  · subst hne
    rw [reference_nil] at hx
    obtain rfl : x = [] := by simpa [Text.lines] using hx
    exact isSetLine_nil
  · rw [lines_reference hne] at hx
    obtain ⟨g, hg, hx⟩ := List.mem_flatMap.1 hx
    exact isSet_runHtml o (isRun_of_mem_groups hg) x hx

/-- Lines stay merged if those of every run do. -/
theorem isChain_iff_splitBy (ls : List SourceLine) :
    ls.IsChain StaysMerged ↔ ∀ g ∈ ls.splitBy joins, g.IsChain StaysMerged := by
  have hflatten := List.isChain_flatten (R := StaysMerged) (List.nil_notMem_splitBy joins ls)
  have hbetween : (ls.splitBy joins).IsChain
      fun g g' => ∀ x ∈ g.getLast?, ∀ y ∈ g'.head?, StaysMerged x y := by
    refine (List.isChain_getLast_head_splitBy joins ls).imp fun g g' h x hx y hy hl hl' => ?_
    obtain ⟨hg, hg', hjoins⟩ := h
    rw [List.getLast_of_mem_getLast? hx, List.head_of_mem_head? hy, joins, hl, hl'] at hjoins
    simp at hjoins
  rw [List.flatten_splitBy] at hflatten
  exact hflatten.trans (and_iff_left hbetween)

/-- The HTML of a document has nothing left to merge. -/
theorem pass_merging_reference (ls : List SourceLine) (h : o.mergeAdjacentBlocks) :
    Table.merging.pass o ('\n' :: reference o ls ++ ['\n']) =
      '\n' :: reference o ls ++ ['\n'] := by
  by_cases hne : ls = []
  · subst hne
    rw [reference_nil]
    exact Family.pass_merging_eq_self o fun f =>
      (Family.turns_of_isFree f [] (Text.isFree_of_notMem _ (by decide))).rewriteFrom_eq
        (Family.isProper_seamPattern f) none
  · have hall (f : Family) : f ∈ [.bulleted, .numbered, .quoted] := by cases f <;> decide
    have hmerged : (ls.splitBy joins).map (runHtml o) =
        (ls.splitBy joins).map (mergedHtml o [.bulleted, .numbered, .quoted]) :=
      List.map_congr_left fun g hg => (mergedHtml_of_forall hall (isRun_of_mem_splitBy hg)).symm
    have hruns : '\n' :: reference o ls ++ ['\n'] =
        runs o [.bulleted, .numbered, .quoted] (ls.splitBy joins) := by
      obtain ⟨g, gs, hgroups⟩ :=
        List.exists_cons_of_ne_nil (List.splitBy_ne_nil (r := joins).2 hne)
      rw [reference, if_pos h, hmerged, runs, hgroups, List.map_cons, Text.intercalate_lineFeed,
        Text.ofLines, List.flatMap_map]
      rfl
    rw [hruns]
    exact Family.pass_merging_eq_self o fun f => rewriteFrom_seamPattern_of_mem o ls (hall f)

end SourceLine

namespace Renderer

open SourceLine

/-- The trimmed HTML of a document is rendered as it is if its lines stay merged, and only then. -/
theorem render_reference_iff (o : Options) {ls : List SourceLine}
    (htrim : Text.trim (reference o ls) = reference o ls) :
    (ofOptions o).render (reference o ls) = reference o ls ↔
      (o.mergeAdjacentBlocks → ls.IsChain StaysMerged) := by
  have hset := isSet_reference o ls
  constructor
  · intro heq hmerge
    rw [isChain_iff_splitBy]
    by_contra hnot
    obtain ⟨g, hg, hchain⟩ : ∃ g ∈ ls.splitBy joins, ¬ g.IsChain StaysMerged := by simpa using hnot
    obtain ⟨x, hx, hlt⟩ := exists_wrapped_of_not_isChain o (isRun_of_mem_splitBy hg) hchain
    have hne : ls ≠ [] := List.splitBy_ne_nil.1 (List.ne_nil_of_mem hg)
    refine render_ne_self o hset ?_ hlt heq
    rw [lines_reference hne, groups, if_pos hmerge]
    exact List.mem_flatMap.2 ⟨g, hg, hx⟩
  · intro hchain
    refine render_eq_self o hset htrim (pass_merging_reference ls) fun x hx => ?_
    by_cases hne : ls = []
    · subst hne
      rw [reference_nil] at hx
      obtain rfl : x = [] := by simpa [Text.lines] using hx
      rfl
    · rw [lines_reference hne] at hx
      obtain ⟨g, hg, hx⟩ := List.mem_flatMap.1 hx
      refine paragraphLine_of_isChain o (isRun_of_mem_groups hg) ?_ x hx
      by_cases hmerge : o.mergeAdjacentBlocks
      · rw [groups, if_pos hmerge] at hg
        exact (isChain_iff_splitBy ls).1 (hchain hmerge) g hg
      · rw [groups, if_neg hmerge] at hg
        obtain ⟨l, -, rfl⟩ := List.mem_map.1 hg
        simp

/-- The HTML of a document of lines is rendered as it is if, and only if, no two quotes are merged of
which the second one says something: that one stands at the beginning of a line of the HTML, without
a tag, and becomes a paragraph. -/
theorem render_render_iff (o : Options) (ls : List SourceLine) :
    (ofOptions o).render ((ofOptions o).render (List.intercalate ['\n'] (ls.map text))) =
        (ofOptions o).render (List.intercalate ['\n'] (ls.map text)) ↔
      (o.mergeAdjacentBlocks → ls.IsChain StaysMerged) := by
  have hrender : (ofOptions o).render (List.intercalate ['\n'] (ls.map text)) =
      Text.trim (reference o ls) := by
    cases ls with
    | nil =>
      have htrim : Text.trim (reference o []) = reference o [] := by
        rw [reference_nil]
        rfl
      have hnil := (render_reference_iff o htrim).2 fun _ => .nil
      rw [reference_nil] at hnil ⊢
      exact hnil
    | cons l ls => exact render_lines_cons o l ls
  obtain ⟨ls', htrim, htrimmed, hchain⟩ := exists_trim_reference o ls
  rw [hrender, htrim, render_reference_iff o htrimmed, hchain]

/-- Two quotes are rendered as one quote of two lines, and that with a paragraph in the second. -/
theorem render_render_quotes_ne :
    (ofOptions {}).render ((ofOptions {}).render "> a\n> b".toList) ≠
      (ofOptions {}).render "> a\n> b".toList := by
  let a : SourceLine := .block (.quote false ⟨[' ', 'a'], List.all_eq_true.1 rfl⟩) false
  let b : SourceLine := .block (.quote false ⟨[' ', 'b'], List.all_eq_true.1 rfl⟩) false
  have htrim : Text.trim (reference {} [a, b]) = reference {} [a, b] :=
    trim_reference_of_ends (by simp [a, BlockLine.html, Family.block, Handler.element])
      (by simp [b, BlockLine.html, Family.block, Handler.element])
  have hrender : (ofOptions {}).render "> a\n> b".toList = reference {} [a, b] :=
    (render_lines_cons {} a [b]).trans htrim
  rw [hrender, Ne, render_reference_iff {} htrim]
  exact fun h => absurd (h rfl) (by decide)

end Renderer

end Markdown
