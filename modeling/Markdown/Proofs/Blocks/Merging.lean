import Markdown.Proofs.Blocks.Passes
import Mathlib.Data.List.SplitBy

/-!
# Merging the runs of a document

Each of the rules for merging finds the seams within the runs of one kind of block and nothing else.
-/

namespace Markdown

open Pattern

/-! ## The parts of a block -/

namespace Family

/-- The element of a block. -/
def tag : Family → String
  | bulleted => "ul"
  | numbered => "ol"
  | quoted => "blockquote"

/-- The name of the element. -/
def name (f : Family) : Text :=
  f.tag.toList

/-- The opening tag of a block. -/
def opening (f : Family) : Text :=
  '<' :: f.name ++ ['>']

/-- The closing tag of a block. -/
def closing (f : Family) : Text :=
  '<' :: '/' :: f.name ++ ['>']

/-- What a text makes of the content of a block. -/
def inner : Family → Text → Text
  | quoted, t => t
  | _, t => '\n' :: itemLine t

/-- What takes the place of a seam. -/
def glue : Family → Text
  | quoted => ['\n']
  | _ => []

/-- A block that has one text in it. -/
def single (f : Family) (t : Text) : Text :=
  f.opening ++ f.inner t ++ f.closing

theorem block_cons (f : Family) (t : Text) (ts : List Text) :
    f.block (t :: ts) =
      f.opening ++ f.inner t ++ ts.flatMap (fun t => f.glue ++ f.inner t) ++ f.closing := by
  have hitems (name : Text) : Handler.element name
      ('\n' :: List.intercalate ['\n'] ((t :: ts).map itemLine)) =
      '<' :: name ++ ['>'] ++ ('\n' :: itemLine t) ++ ts.flatMap (fun t => '\n' :: itemLine t) ++
        ('<' :: '/' :: name ++ ['>']) := by
    rw [List.map_cons, Text.intercalate_lineFeed, Text.ofLines, List.flatMap_map, element_eq]
    simp
  cases f with
  | bulleted =>
    simp only [block, opening, closing, name, tag, inner, glue, List.nil_append]
    exact hitems "ul".toList
  | numbered =>
    simp only [block, opening, closing, name, tag, inner, glue, List.nil_append]
    exact hitems "ol".toList
  | quoted =>
    show Handler.element "blockquote".toList (List.intercalate ['\n'] (t :: ts)) = _
    rw [Text.intercalate_lineFeed, Text.ofLines, element_eq]
    simp [opening, closing, name, tag, inner, glue]

theorem block_singleton (f : Family) (t : Text) : f.block [t] = f.single t := by
  rw [block_cons, List.flatMap_nil, List.append_nil]
  rfl

/-- The seam between two blocks of a family. -/
def seamPattern (f : Family) : Pattern :=
  adjacent f.closing f.opening

theorem isProper_seamPattern (f : Family) : f.seamPattern.finder.IsProper :=
  isProper_adjacent f.opening (List.cons_ne_nil _ _)

/-! ## Tags that do not stand in a block -/

theorem isFree_closing_inner (f f' : Family) {t : Text} (ht : '<' ∉ t) :
    Text.IsFree f.closing (f'.inner t) := by
  have hopen : Text.IsFree f.closing "<li>".toList := by
    cases f <;> exact Text.isFree_of_lacks rfl
  have hclose : Text.IsFree f.closing "</li>".toList := by
    cases f <;> exact Text.isFree_of_lacks rfl
  have hitem : Text.IsFree f.closing ('\n' :: itemLine t) := by
    have hsplit : '\n' :: itemLine t = ['\n', '\t'] ++ ("<li>".toList ++ t ++ "</li>".toList) ++
        ['\n'] := by
      simp [itemLine, Handler.element]
    rw [hsplit]
    exact ((Text.isFree_of_notMem _ (by decide)).append
      ((hopen.append (Text.isFree_of_notMem _ ht)).append hclose)).append
      (Text.isFree_of_notMem _ (by decide))
  cases f' with
  | bulleted => exact hitem
  | numbered => exact hitem
  | quoted => exact Text.isFree_of_notMem _ ht

theorem isFree_glue (f : Family) (w : Text) : Text.IsFree ('<' :: w) f.glue := by
  cases f <;> exact Text.isFree_of_notMem w (by decide)

/-- The tags of a family do not stand in those of another one. -/
theorem lacks_tag {f f' : Family} (hf : f' ≠ f) : Text.lacks f.closing f'.opening ∧
    Text.lacks f.closing f'.closing ∧ Text.lacks f.opening f'.opening := by
  revert hf
  cases f <;> cases f' <;> decide

/-- The tags of a family do not stand in the blocks of another one. -/
theorem isFree_closing_block {f f' : Family} (hf : f' ≠ f) {t : Text} {ts : List Text}
    (ht : ∀ t' ∈ t :: ts, '<' ∉ t') : Text.IsFree f.closing (f'.block (t :: ts)) := by
  obtain ⟨hopening, hclosing, -⟩ := lacks_tag hf
  rw [block_cons]
  refine (((Text.isFree_of_lacks hopening).append (isFree_closing_inner f f' (ht t (by simp)))).append
    (Text.isFree_flatMap fun t' ht' => ?_)).append (Text.isFree_of_lacks hclosing)
  exact (isFree_glue f' _).append (isFree_closing_inner f f' (ht t' (by simp [ht'])))

/-! ## Runs -/

/-- What is free of the closing tag stays. -/
theorem turns_of_isFree (f : Family) {u : Text} (r : Text) (hu : Text.IsFree f.closing u) :
    f.seamPattern.Turns (fun _ => f.glue) r u u :=
  .of_isFree_word (isProper_seamPattern f) (opensWith_adjacent f.closing f.opening) _ r hu

/-- Merging leaves a document in which no family has a seam. -/
theorem pass_merging_eq_self (o : Options) {d : Text}
    (h : ∀ f : Family, f.seamPattern.rewriteFrom (fun _ => f.glue) none d = d) :
    Table.merging.pass o d = d := by
  rw [Table.pass_merging]
  exact (congrArg _ ((congrArg _ (h .bulleted)).trans (h .numbered))).trans (h .quoted)

/-- Merging, if the options ask for it, leaves a document in which no block ends. -/
theorem pass_merging_of_isFree (o : Options) {d : Text} (h : ∀ f : Family, Text.IsFree f.closing d) :
    (if o.mergeAdjacentBlocks then Table.merging else []).pass o d = d := by
  split
  · exact pass_merging_eq_self o fun f =>
      (turns_of_isFree f [] (h f)).rewriteFrom_eq (isProper_seamPattern f) none
  · exact Table.pass_nil o d

theorem isFree_closing_opening (f : Family) : Text.IsFree f.closing f.opening := by
  cases f <;> exact Text.isFree_of_lacks rfl

/-- A closing tag stays if no seam begins with it. -/
theorem turns_closing (f : Family) {r : Text}
    (hr : ∀ b, f.seamPattern.finder (.of b (f.closing ++ r)) = none) :
    f.seamPattern.Turns (fun _ => f.glue) r f.closing f.closing := by
  have htail : Text.IsFree f.closing ('/' :: f.name ++ ['>']) := by
    cases f <;> exact Text.isFree_of_notMem _ (by decide)
  have hhead : f.seamPattern.Turns (fun _ => f.glue) ('/' :: f.name ++ ['>'] ++ r) ['<'] ['<'] := by
    refine .of_none (isProper_seamPattern f) _ fun b x c y hxy => ?_
    cases x with
    | nil =>
      obtain ⟨rfl, rfl⟩ := List.cons.inj hxy
      exact hr b
    | cons d x => exact absurd (List.cons.inj hxy).2 (by simp)
  exact hhead.append (turns_of_isFree f r htail)

/-- A merged block stays, if no seam follows. -/
theorem turns_block (f : Family) {r : Text}
    (hr : ∀ b, f.seamPattern.finder (.of b (f.closing ++ r)) = none) {t : Text} {ts : List Text}
    (ht : ∀ t' ∈ t :: ts, '<' ∉ t') :
    f.seamPattern.Turns (fun _ => f.glue) r (f.block (t :: ts)) (f.block (t :: ts)) := by
  have hinside : Text.IsFree f.closing
      (f.opening ++ f.inner t ++ ts.flatMap fun t => f.glue ++ f.inner t) := by
    refine ((isFree_closing_opening f).append (isFree_closing_inner f f (ht t (by simp)))).append
      (Text.isFree_flatMap fun t' ht' => ?_)
    exact (isFree_glue f _).append (isFree_closing_inner f f (ht t' (by simp [ht'])))
  rw [block_cons]
  exact (turns_of_isFree f _ hinside).append (turns_closing f hr)

/-- A run of single blocks turns into one block, if no seam follows. -/
theorem turns_run (f : Family) {r : Text}
    (hr : ∀ b, f.seamPattern.finder (.of b (f.closing ++ r)) = none) {t : Text} {ts : List Text}
    (ht : ∀ t' ∈ t :: ts, '<' ∉ t') :
    f.seamPattern.Turns (fun _ => f.glue) r
      (f.single t ++ ts.flatMap fun t => '\n' :: f.single t) (f.block (t :: ts)) := by
  have hp := isProper_seamPattern f
  have hrun : f.seamPattern.Turns (fun _ => f.glue) r
      (f.inner t ++ (f.closing ++ ts.flatMap fun t => '\n' :: f.single t))
      (f.inner t ++ (ts.flatMap (fun t => f.glue ++ f.inner t) ++ f.closing)) := by
    induction ts generalizing t with
    | nil =>
      refine (turns_of_isFree f _ (isFree_closing_inner f f (ht t (by simp)))).append ?_
      simpa using turns_closing f hr
    | cons t' ts ih =>
      have hseam (r : Text) : f.seamPattern.Turns (fun _ => f.glue) r
          (seam f.closing f.opening ['\n']) f.glue :=
        .of_found hp (fun _ => f.glue) fun b => finder_adjacent_lineFeed f.closing f.opening b r
      have hsplit : f.closing ++ (t' :: ts).flatMap (fun t => '\n' :: f.single t) =
          seam f.closing f.opening ['\n'] ++
            (f.inner t' ++ (f.closing ++ ts.flatMap fun t => '\n' :: f.single t)) := by
        simp [seam, single]
      rw [hsplit, List.flatMap_cons, List.append_assoc, List.append_assoc f.glue]
      exact (turns_of_isFree f _ (isFree_closing_inner f f (ht t (by simp)))).append
        ((hseam _).append (ih fun u hu => ht u (List.mem_cons_of_mem t hu)))
  rw [block_cons, single, List.append_assoc, List.append_assoc, List.append_assoc,
    List.append_assoc]
  exact (turns_of_isFree f _ (isFree_closing_opening f)).append hrun

end Family

namespace SourceLine

variable {o : Options} {f : Family} {g : List SourceLine} {l : SourceLine}

theorem html_of_family? (h : l.family? = some f) : l.html o = f.single l.content := by
  cases l with
  | rule more => exact absurd h (by simp [family?])
  | block line carriageReturn =>
    cases line with
    | bullet words =>
      obtain rfl : Family.bulleted = f := by simpa [family?, BlockLine.family?] using h
      exact Family.block_singleton .bulleted (Text.trim words.text)
    | numbered digits _ words =>
      obtain rfl : Family.numbered = f := by simpa [family?, BlockLine.family?] using h
      exact Family.block_singleton .numbered (Text.trim words.text)
    | quote entity words =>
      obtain rfl : Family.quoted = f := by simpa [family?, BlockLine.family?] using h
      exact Family.block_singleton .quoted (Text.trim words.text)
    | _ => exact absurd h (by simp [family?, BlockLine.family?])

theorem angle_notMem_content (l : SourceLine) : '<' ∉ l.content := by
  have hwords (w : Words) : '<' ∉ Text.trim w.text := fun h =>
    absurd (w.isWordChar_of_mem_trim h) (by decide)
  cases l with
  | rule more => simp [content]
  | block line carriageReturn =>
    cases line with
    | blank indent _ => simp [content, BlockLine.content]
    | plain words _ => exact hwords words
    | heading _ _ _ _ _ words => exact hwords words
    | bullet words => exact hwords words
    | numbered _ _ words => exact hwords words
    | quote _ words => exact hwords words

theorem angle_notMem_of_mem_contents (g : List SourceLine) : ∀ t ∈ g.map content, '<' ∉ t := by
  intro t ht
  obtain ⟨l, -, rfl⟩ := List.mem_map.1 ht
  exact angle_notMem_content l

/-- The HTML of a line that cannot be merged holds no tags of the blocks that can. -/
theorem isFree_closing_html (f : Family) (h : l.family? = none) :
    Text.IsFree f.closing (l.html o) := by
  have hwords (w : Words) : Text.IsFree f.closing (Text.trim w.text) :=
    Text.isFree_of_notMem _ fun h => absurd (w.isWordChar_of_mem_trim h) (by decide)
  cases l with
  | rule more => cases f <;> exact Text.isFree_of_lacks rfl
  | block line carriageReturn =>
    cases line with
    | blank indent _ => exact Text.isFree_nil _
    | plain words _ =>
      have htags : Text.IsFree f.closing "<p>".toList ∧ Text.IsFree f.closing "</p>".toList := by
        cases f <;> exact ⟨Text.isFree_of_lacks rfl, Text.isFree_of_lacks rfl⟩
      rw [html_block, BlockLine.html, element_eq]
      exact (htags.1.append (hwords words)).append htags.2
    | heading signs _ _ _ _ words =>
      have htags : Text.IsFree f.closing "<h".toList ∧ Text.IsFree f.closing "</h".toList := by
        cases f <;> exact ⟨Text.isFree_of_lacks rfl, Text.isFree_of_lacks rfl⟩
      have hlevel : Text.IsFree f.closing (Text.ofNat (o.headingLevel signs) ++ ['>']) := by
        refine Text.isFree_of_notMem _ fun hm => ?_
        rcases List.mem_append.1 hm with hm | hm
        · exact absurd (isDigit_of_mem_ofNat hm) (by decide)
        · exact absurd hm (by decide)
      rw [html_block, BlockLine.html, element_eq]
      exact ((htags.1.append hlevel).append (hwords words)).append (htags.2.append hlevel)
    | _ => exact absurd h (by simp [family?, BlockLine.family?])

/-- The HTML of a line that cannot be merged begins with no tag of the blocks that can. -/
theorem not_opening_isPrefix_html (f : Family) (h : l.family? = none) :
    ¬ f.opening <+: l.html o := by
  have hname : ∃ c name, f.opening = '<' :: c :: name ∧ c ≠ 'p' ∧ c ≠ 'h' := by
    cases f <;> exact ⟨_, _, rfl, by decide, by decide⟩
  obtain ⟨c, name, hopening, hp, hh⟩ := hname
  cases l with
  | rule more => simp [hopening, hh]
  | block line carriageReturn =>
    cases line with
    | blank indent _ => simp [hopening, BlockLine.html]
    | plain words _ => simp [hopening, BlockLine.html, Handler.element, hp]
    | heading signs _ _ _ _ words => simp [hopening, BlockLine.html, Handler.element, hh]
    | _ => exact absurd h (by simp [family?, BlockLine.family?])

/-! ## The runs of a document -/

/-- Lines of one family, or one line that belongs to none. -/
structure IsRun (f? : Option Family) (g : List SourceLine) : Prop where
  family?_eq : ∀ l ∈ g, l.family? = f?
  ne_nil : g ≠ []
  alone : f? = none → ∃ l, g = [l]

theorem isRun_of_isChain (h : (l :: g).IsChain fun x y => joins x y) :
    IsRun l.family? (l :: g) := by
  induction g generalizing l with
  | nil => exact ⟨by simp, by simp, fun _ => ⟨l, rfl⟩⟩
  | cons l' g ih =>
    obtain ⟨hjoins, hchain⟩ := List.isChain_cons_cons.1 h
    simp only [joins, Bool.and_eq_true, beq_iff_eq] at hjoins
    obtain ⟨hsome, heq⟩ := hjoins
    have hrun := ih hchain
    refine ⟨fun x hx => ?_, by simp, fun hnone => ?_⟩
    · rcases List.mem_cons.1 hx with rfl | hx
      · rfl
      · rw [heq, hrun.family?_eq x hx]
    · rw [hnone] at hsome
      simp at hsome

/-- The family of a run. -/
def runFamily? (g : List SourceLine) : Option Family :=
  g.head?.bind family?

theorem isRun_of_mem_splitBy {ls : List SourceLine} (h : g ∈ ls.splitBy joins) :
    IsRun (runFamily? g) g := by
  have hne := List.ne_nil_of_mem_splitBy h
  have hchain := List.isChain_of_mem_splitBy h
  obtain ⟨l, g, rfl⟩ := List.exists_cons_of_ne_nil hne
  exact isRun_of_isChain hchain

/-- Neighbouring runs are of different families. -/
theorem runFamily?_ne_of_splitBy {ls : List SourceLine} {x y : List (List SourceLine)}
    {g' : List SourceLine} (h : ls.splitBy joins = x ++ g :: g' :: y)
    (hf : runFamily? g = some f) : runFamily? g' ≠ some f := by
  have hchain := List.isChain_iff_forall_rel_of_append_cons_cons.1
    (List.isChain_getLast_head_splitBy joins ls) h
  obtain ⟨hg, hg', hjoins⟩ := hchain
  have hmem : g ∈ ls.splitBy joins := by
    rw [h]
    simp
  have hrun := isRun_of_mem_splitBy hmem
  have hlast := hrun.family?_eq _ (List.getLast_mem hg)
  intro hf'
  have hhead : (g'.head hg').family? = some f := by
    rwa [runFamily?, List.head?_eq_some_head hg', Option.bind_some] at hf'
  rw [joins, hlast, hf, hhead] at hjoins
  simp at hjoins

/-- The HTML of a run when the families in a list have been merged. -/
def mergedHtml (o : Options) (done : List Family) (g : List SourceLine) : Text :=
  match runFamily? g with
  | some f =>
    if f ∈ done then f.block (g.map content) else List.intercalate ['\n'] (g.map (html o))
  | none => List.intercalate ['\n'] (g.map (html o))

theorem mergedHtml_of_some (done : List Family) (h : runFamily? g = some f) :
    mergedHtml o done g = if f ∈ done then f.block (g.map content)
      else List.intercalate ['\n'] (g.map (html o)) := by
  rw [mergedHtml, h]

theorem mergedHtml_of_none (done : List Family) (h : runFamily? g = none) :
    mergedHtml o done g = List.intercalate ['\n'] (g.map (html o)) := by
  rw [mergedHtml, h]

theorem mergedHtml_nil (o : Options) (g : List SourceLine) :
    mergedHtml o [] g = List.intercalate ['\n'] (g.map (html o)) := by
  cases h : runFamily? g with
  | none => exact mergedHtml_of_none [] h
  | some f => rw [mergedHtml_of_some [] h, if_neg (by simp)]

theorem mergedHtml_of_forall {done : List Family} (hdone : ∀ f, f ∈ done)
    (hg : IsRun (runFamily? g) g) : mergedHtml o done g = runHtml o g := by
  rw [runHtml, ← runFamily?]
  cases h : runFamily? g with
  | none =>
    obtain ⟨l, rfl⟩ := hg.alone h
    rw [mergedHtml_of_none done h]
    simp
  | some f => rw [mergedHtml_of_some done h, if_pos (hdone f)]

/-- The single blocks of a run. -/
theorem intercalate_html (hg : IsRun (some f) (l :: g)) :
    List.intercalate ['\n'] ((l :: g).map (html o)) =
      f.single l.content ++ (g.map content).flatMap fun t => '\n' :: f.single t := by
  have hsingle : ∀ x ∈ l :: g, html o x = f.single x.content := fun x hx =>
    html_of_family? (hg.family?_eq x hx)
  rw [List.map_cons, Text.intercalate_lineFeed, Text.ofLines, hsingle l (by simp), List.flatMap_map,
    List.flatMap_map]
  congr 1
  refine List.flatMap_congr fun x hx => ?_
  rw [hsingle x (by simp [hx])]

/-- The tags of a family do not stand in the runs of another one. -/
theorem isFree_closing_mergedHtml (done : List Family) (hg : IsRun (runFamily? g) g)
    (hf : runFamily? g ≠ some f) : Text.IsFree f.closing (mergedHtml o done g) := by
  have hcontent := angle_notMem_of_mem_contents g
  cases hfamily : runFamily? g with
  | none =>
    obtain ⟨l, rfl⟩ := hg.alone hfamily
    rw [mergedHtml_of_none done hfamily, List.map_singleton, List.intercalate_singleton]
    exact isFree_closing_html f hfamily
  | some f' =>
    have hne : f' ≠ f := fun h => hf (by rw [hfamily, h])
    have hrun := hg
    rw [hfamily] at hrun
    obtain ⟨l, g, rfl⟩ := List.exists_cons_of_ne_nil hg.ne_nil
    rw [mergedHtml_of_some done hfamily]
    split
    · exact Family.isFree_closing_block hne hcontent
    · have hsingle (t : Text) (ht : '<' ∉ t) : Text.IsFree f.closing (f'.single t) := by
        rw [← Family.block_singleton]
        exact Family.isFree_closing_block hne (by simpa using ht)
      rw [intercalate_html hrun]
      refine (hsingle _ (angle_notMem_content l)).append (Text.isFree_flatMap fun t ht => ?_)
      have hlf : Text.IsFree f.closing ['\n'] := Text.isFree_of_notMem _ (by decide)
      exact hlf.append (hsingle t (hcontent t (by simp [ht])))

/-- A run of another family does not begin with the tag of a family. -/
theorem not_opening_isPrefix_mergedHtml (done : List Family) (hg : IsRun (runFamily? g) g)
    (hf : runFamily? g ≠ some f) : ¬ f.opening <+: mergedHtml o done g := by
  cases hfamily : runFamily? g with
  | none =>
    obtain ⟨l, rfl⟩ := hg.alone hfamily
    rw [mergedHtml_of_none done hfamily, List.map_singleton, List.intercalate_singleton]
    exact not_opening_isPrefix_html f hfamily
  | some f' =>
    have hne : f' ≠ f := fun h => hf (by rw [hfamily, h])
    have hopening : ∀ r, ¬ f.opening <+: f'.opening ++ r :=
      (Text.isFree_of_lacks (Family.lacks_tag hne).2.2).not_isPrefix (x := []) rfl
    have hrun := hg
    rw [hfamily] at hrun
    obtain ⟨l, g, rfl⟩ := List.exists_cons_of_ne_nil hg.ne_nil
    rw [mergedHtml_of_some done hfamily]
    split
    · rw [List.map_cons, Family.block_cons, List.append_assoc, List.append_assoc]
      exact hopening _
    · rw [intercalate_html hrun, Family.single, List.append_assoc, List.append_assoc]
      exact hopening _

/-! ## The passes -/

/-- A document of runs, a line feed on either side. -/
def runs (o : Options) (done : List Family) (gs : List (List SourceLine)) : Text :=
  gs.flatMap ('\n' :: mergedHtml o done ·) ++ ['\n']

/-- No seam of a family is behind its last block. -/
theorem finder_seamPattern_closing {r : Text} (hr : ¬ f.opening <+: r) (b : Option Char) :
    f.seamPattern.finder (.of b (f.closing ++ '\n' :: r)) = none := by
  refine finder_eq_none (Family.isProper_seamPattern f) fun s l v hsl hfound => ?_
  obtain ⟨space, hspace, rfl, -⟩ := eq_of_finder_adjacent hfound
  rw [seam, List.append_assoc, List.append_assoc] at hsl
  have htail := List.append_cancel_left hsl
  rcases hspace with rfl | ⟨c, -, rfl⟩
  · have hhead := congrArg List.head? htail
    simp [Family.opening] at hhead
  · obtain ⟨-, htail⟩ := List.cons.inj htail
    exact hr ⟨l, htail.symm⟩

/-- Behind a run of a family no seam of the family follows. -/
theorem finder_seamPattern_behind_run (o : Options) (done : List Family) {ls : List SourceLine}
    {x y : List (List SourceLine)} (hxy : ls.splitBy joins = x ++ g :: y)
    (hf : runFamily? g = some f) (b : Option Char) :
    f.seamPattern.finder (.of b (f.closing ++
      (y.flatMap ('\n' :: mergedHtml o done ·) ++ ['\n']))) = none := by
  cases y with
  | nil => exact finder_seamPattern_closing (r := []) (by simp [Family.opening]) b
  | cons g' y =>
    have hmem : g' ∈ ls.splitBy joins := by
      rw [hxy]
      simp
    have hnot := not_opening_isPrefix_mergedHtml (o := o) done (isRun_of_mem_splitBy hmem)
      (runFamily?_ne_of_splitBy hxy hf)
    have hends : Text.EndsLine (y.flatMap ('\n' :: mergedHtml o done ·) ++ ['\n']) := by
      cases y <;> exact .inr ⟨_, rfl⟩
    rw [List.flatMap_cons, List.append_assoc]
    refine finder_seamPattern_closing (fun hpre => hnot ?_) b
    exact (Text.prefix_append_of_endsLine (by cases f <;> decide) hends).1 hpre

/-- The rule for a family does to a document what it does to the runs of the family. -/
theorem rewriteFrom_runs (o : Options) (ls : List SourceLine) {done done' : List Family}
    (hdone : ∀ f', f' ≠ f → (f' ∈ done' ↔ f' ∈ done))
    (hrun : ∀ g r, IsRun (some f) g → (∀ b, f.seamPattern.finder (.of b (f.closing ++ r)) = none) →
      f.seamPattern.Turns (fun _ => f.glue) r (mergedHtml o done g) (mergedHtml o done' g)) :
    f.seamPattern.rewriteFrom (fun _ => f.glue) none (runs o done (ls.splitBy joins)) =
      runs o done' (ls.splitBy joins) := by
  have hlf (r : Text) : f.seamPattern.Turns (fun _ => f.glue) r ['\n'] ['\n'] :=
    Family.turns_of_isFree f r (Text.isFree_of_notMem _ (by decide))
  refine Turns.rewriteFrom_eq (Family.isProper_seamPattern f) (.append ?_ (hlf [])) none
  rw [List.append_nil]
  refine .flatMap fun x g y hxy => ?_
  have hmem : g ∈ ls.splitBy joins := by
    rw [hxy]
    simp
  have hg := isRun_of_mem_splitBy hmem
  suffices hturns : f.seamPattern.Turns (fun _ => f.glue)
      (y.flatMap ('\n' :: mergedHtml o done ·) ++ ['\n']) (mergedHtml o done g)
      (mergedHtml o done' g) from .append (hlf _) hturns
  by_cases hfamily : runFamily? g = some f
  · rw [hfamily] at hg
    exact hrun g _ hg (finder_seamPattern_behind_run o done hxy hfamily)
  · have hsame : mergedHtml o done' g = mergedHtml o done g := by
      cases h : runFamily? g with
      | none => rw [mergedHtml_of_none _ h, mergedHtml_of_none _ h]
      | some f' =>
        have hne : f' ≠ f := fun he => hfamily (by rw [h, he])
        rw [mergedHtml_of_some _ h, mergedHtml_of_some _ h]
        simp [hdone f' hne]
    rw [hsame]
    exact Family.turns_of_isFree f _ (isFree_closing_mergedHtml done hg hfamily)

theorem IsRun.runFamily?_eq {f? : Option Family} (h : IsRun f? g) : runFamily? g = f? := by
  obtain ⟨l, g, rfl⟩ := List.exists_cons_of_ne_nil h.ne_nil
  exact h.family?_eq l (by simp)

/-- The rule for a family merges its runs and leaves the others. -/
theorem rewriteFrom_seamPattern (o : Options) (ls : List SourceLine) {done : List Family}
    (hf : f ∉ done) :
    f.seamPattern.rewriteFrom (fun _ => f.glue) none (runs o done (ls.splitBy joins)) =
      runs o (f :: done) (ls.splitBy joins) := by
  refine rewriteFrom_runs o ls (fun f' hne => by simp [hne]) fun g r hg hr => ?_
  rw [mergedHtml_of_some done hg.runFamily?_eq, if_neg hf, mergedHtml_of_some _ hg.runFamily?_eq,
    if_pos (by simp)]
  obtain ⟨l, g, rfl⟩ := List.exists_cons_of_ne_nil hg.ne_nil
  rw [intercalate_html hg]
  exact Family.turns_run f hr (angle_notMem_of_mem_contents (l :: g))

/-- The rule for a family leaves a document in which its runs are merged. -/
theorem rewriteFrom_seamPattern_of_mem (o : Options) (ls : List SourceLine) {done : List Family}
    (hf : f ∈ done) :
    f.seamPattern.rewriteFrom (fun _ => f.glue) none (runs o done (ls.splitBy joins)) =
      runs o done (ls.splitBy joins) := by
  refine rewriteFrom_runs o ls (fun _ _ => Iff.rfl) fun g r hg hr => ?_
  rw [mergedHtml_of_some done hg.runFamily?_eq, if_pos hf]
  obtain ⟨l, g, rfl⟩ := List.exists_cons_of_ne_nil hg.ne_nil
  exact Family.turns_block f hr (angle_notMem_of_mem_contents (l :: g))

/-- The rules for merging take a document of runs to one of merged blocks. -/
theorem pass_merging (o : Options) (ls : List SourceLine) :
    Table.merging.pass o (runs o [] (ls.splitBy joins)) =
      (ls.splitBy joins).flatMap ('\n' :: runHtml o ·) ++ ['\n'] := by
  have hunordered := rewriteFrom_seamPattern o ls (show .bulleted ∉ [] by decide)
  have hordered := rewriteFrom_seamPattern o ls (show .numbered ∉ [.bulleted] by decide)
  have hquotes := rewriteFrom_seamPattern o ls (show .quoted ∉ [.numbered, .bulleted] by decide)
  have hall (f : Family) : f ∈ [.quoted, .numbered, .bulleted] := by cases f <;> decide
  rw [Table.pass_merging]
  refine (congrArg (fun d => adjacentBlockquotes.rewriteFrom (fun _ => ['\n']) none
    (adjacentOrdered.rewriteFrom (fun _ => []) none d)) hunordered).trans ?_
  refine (congrArg (adjacentBlockquotes.rewriteFrom (fun _ => ['\n']) none) hordered).trans ?_
  refine hquotes.trans ?_
  rw [runs]
  congr 1
  refine List.flatMap_congr fun g hg => ?_
  rw [mergedHtml_of_forall hall (isRun_of_mem_splitBy hg)]

end SourceLine

end Markdown
