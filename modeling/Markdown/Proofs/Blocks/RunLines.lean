import Markdown.Proofs.Blocks.SetText

/-!
# The lines of a block

The HTML of a run of lines is a text that is set. Its lines begin with a tag of a block, and are not
wrapped, but those of a merged quote behind the first: what such a line says stands at its beginning.
-/

namespace Markdown

open Pattern

/-! ## The lines of a block -/

namespace Family

theorem block_of_ne_quoted {f : Family} (hf : f ≠ .quoted) {t : Text} {ts : List Text} :
    f.block (t :: ts) = f.opening ++ (t :: ts).flatMap ('\n' :: itemLine ·) ++ f.closing := by
  rw [block_cons]
  cases f with
  | quoted => exact absurd rfl hf
  | bulleted => simp [inner, glue]
  | numbered => simp [inner, glue]

/-- The lines of items are tags and blanks. -/
theorem mem_lines_items {ts : List Text} (hts : ∀ t ∈ ts, '\n' ∉ t) {v : Text} (hv : '\n' ∉ v)
    {x : Text} (hx : x ∈ Text.lines (ts.flatMap ('\n' :: itemLine ·) ++ v)) :
    x = [] ∨ x = v ∨ ∃ t ∈ ts, x = '\t' :: Handler.element "li".toList t := by
  induction ts with
  | nil => exact .inr (.inl (by simpa [Text.lines_of_notMem hv] using hx))
  | cons t ts ih =>
    have hitem : '\n' ∉ '\t' :: Handler.element "li".toList t := by
      simp [Handler.element, hts t (by simp)]
    have hsplit : (t :: ts).flatMap ('\n' :: itemLine ·) ++ v =
        [] ++ '\n' :: (('\t' :: Handler.element "li".toList t) ++
          '\n' :: (ts.flatMap ('\n' :: itemLine ·) ++ v)) := by
      simp [itemLine]
    rw [hsplit, Text.lines_append_lineFeed, Text.lines_append_lineFeed,
      Text.lines_of_notMem hitem] at hx
    simp only [List.mem_append, List.mem_singleton] at hx
    rcases hx with hx | rfl | hx
    · exact .inl (by simpa [Text.lines] using hx)
    · exact .inr (.inr ⟨t, by simp, rfl⟩)
    · rcases ih (fun t' ht' => hts t' (by simp [ht'])) hx with h | h | ⟨t', ht', h⟩
      · exact .inl h
      · exact .inr (.inl h)
      · exact .inr (.inr ⟨t', by simp [ht'], h⟩)

theorem lineFeed_notMem_tags (f : Family) : '\n' ∉ f.opening ∧ '\n' ∉ f.closing := by
  cases f <;> decide

/-- The lines of a list are those of its items and blanks. -/
theorem mem_lines_list {f : Family} (hf : f ≠ .quoted) {ts : List Text} (hne : ts ≠ [])
    (hts : ∀ t ∈ ts, '\n' ∉ t) {x : Text} (hx : x ∈ Text.lines (f.block ts)) :
    x = [] ∨ ∃ t ∈ ts, x ∈ itemLines f.name t := by
  obtain ⟨t, ts, rfl⟩ := List.exists_cons_of_ne_nil hne
  obtain ⟨hopening, hclosing⟩ := lineFeed_notMem_tags f
  have hsplit : f.block (t :: ts) = f.opening ++
      '\n' :: (itemLine t ++ ts.flatMap ('\n' :: itemLine ·) ++ f.closing) := by
    simp [block_of_ne_quoted hf]
  rw [hsplit, Text.lines_append_lineFeed, Text.lines_of_notMem hopening] at hx
  rcases List.mem_append.1 hx with hx | hx
  · exact .inr ⟨t, by simp, by simp [List.mem_singleton.1 hx, itemLines, opening]⟩
  · have hitems : x ∈ Text.lines ((t :: ts).flatMap ('\n' :: itemLine ·) ++ f.closing) := by
      have hsplit' : (t :: ts).flatMap ('\n' :: itemLine ·) ++ f.closing =
          [] ++ '\n' :: (itemLine t ++ ts.flatMap ('\n' :: itemLine ·) ++ f.closing) := by simp
      rw [hsplit', Text.lines_append_lineFeed]
      exact List.mem_append_right _ hx
    rcases mem_lines_items hts hclosing hitems with h | rfl | ⟨t', ht', rfl⟩
    · exact .inl h
    · exact .inr ⟨t, by simp, by simp [itemLines, closing]⟩
    · exact .inr ⟨t', ht', by simp [itemLines]⟩

/-- The lines of some texts, each on its own line, with a text in front of the first and one behind
the last. -/
theorem mem_lines_between {u v t : Text} {ts : List Text} (hu : '\n' ∉ u) (hv : '\n' ∉ v)
    (hts : ∀ t' ∈ t :: ts, '\n' ∉ t') {x : Text} (hx : x ∈ Text.lines (u ++ Text.ofLines t ts ++ v)) :
    x = u ++ t ∨ x = u ++ t ++ v ∨ ∃ t' ∈ ts, x = t' ∨ x = t' ++ v := by
  induction ts generalizing u t with
  | nil =>
    have ht := hts t (by simp)
    rw [Text.ofLines_nil, Text.lines_of_notMem (by simp [hu, hv, ht]), List.mem_singleton] at hx
    exact .inr (.inl hx)
  | cons t' ts ih =>
    have ht := hts t (by simp)
    have hsplit : u ++ Text.ofLines t (t' :: ts) ++ v =
        (u ++ t) ++ '\n' :: ([] ++ Text.ofLines t' ts ++ v) := by
      simp [Text.ofLines_cons]
    rw [hsplit, Text.lines_append_lineFeed, Text.lines_of_notMem (by simp [hu, ht])] at hx
    rcases List.mem_append.1 hx with hx | hx
    · exact .inl (List.mem_singleton.1 hx)
    · refine .inr (.inr ?_)
      rcases ih (by simp) (fun y hy => hts y (List.mem_cons_of_mem t hy)) hx with
        h | h | ⟨y, hy, h⟩
      · exact ⟨t', by simp, .inl h⟩
      · exact ⟨t', by simp, .inr h⟩
      · exact ⟨y, by simp [hy], h⟩

/-- Each of the texts but the first begins a line. -/
theorem exists_mem_lines_between {u v t : Text} {ts : List Text} (hu : '\n' ∉ u) (hv : '\n' ∉ v)
    (hts : ∀ t' ∈ t :: ts, '\n' ∉ t') {t' : Text} (ht' : t' ∈ ts) :
    ∃ y, (y = [] ∨ y = v) ∧ t' ++ y ∈ Text.lines (u ++ Text.ofLines t ts ++ v) := by
  induction ts generalizing u t with
  | nil => simp at ht'
  | cons t'' ts ih =>
    have hts' : ∀ y ∈ t'' :: ts, '\n' ∉ y := fun y hy => hts y (List.mem_cons_of_mem t hy)
    have hsplit : u ++ Text.ofLines t (t'' :: ts) ++ v =
        (u ++ t) ++ '\n' :: ([] ++ Text.ofLines t'' ts ++ v) := by
      simp [Text.ofLines_cons]
    rw [hsplit, Text.lines_append_lineFeed]
    rcases List.mem_cons.1 ht' with rfl | ht'
    · -- the text is the first one of the rest
      cases ts with
      | nil =>
        have hlast : '\n' ∉ t' ++ v := by simp [hv, hts' t' (by simp)]
        refine ⟨v, .inr rfl, List.mem_append_right _ ?_⟩
        rw [Text.ofLines_nil, List.nil_append, Text.lines_of_notMem hlast]
        exact List.mem_singleton.2 rfl
      | cons y ts =>
        refine ⟨[], .inl rfl, List.mem_append_right _ ?_⟩
        rw [Text.ofLines_cons, List.nil_append, List.append_assoc, List.cons_append,
          Text.lines_append_lineFeed, List.append_nil, Text.lines_of_notMem (hts' t' (by simp))]
        exact List.mem_append_left _ (List.mem_singleton.2 rfl)
    · obtain ⟨y, hy, hmem⟩ := ih (u := []) List.not_mem_nil hts' ht'
      exact ⟨y, hy, List.mem_append_right _ hmem⟩

theorem block_quoted (t : Text) (ts : List Text) : block .quoted (t :: ts) =
    opening .quoted ++ Text.ofLines t ts ++ closing .quoted := by
  rw [block, Text.intercalate_lineFeed, element_eq]
  simp [opening, closing, name, tag]

end Family

/-! ## Lines that are set -/

theorem isSetLine_append {t v : Text} (ht : ∀ c ∈ t, isWordChar c) (hv : IsSetLine v) :
    IsSetLine (t ++ v) := by
  refine ⟨fun c hc => ?_, ?_⟩
  · rcases List.mem_append.1 hc with hc | hc
    · exact isBaseChar_of_isWordChar (ht c hc)
    · exact hv.isBaseChar_of_mem c hc
  · cases t with
    | nil => exact hv.head?_ne
    | cons d t =>
      have hd := ht d (by simp)
      constructor <;>
      · intro he
        rw [Option.some.inj he] at hd
        exact absurd hd (by decide)

theorem isSetLine_angle {x : Text} (hx : ∀ c ∈ x, isBaseChar c) : IsSetLine ('<' :: x) :=
  ⟨List.forall_mem_cons.2 ⟨by decide, hx⟩, by simp⟩

namespace Handler

/-- What can stand behind a text of a merged quote on its line. -/
def quoteEnds : List Text :=
  [[], Family.closing .quoted]

theorem isBlank_of_mem_getLast?_quoteEnds {v : Text} (hv : v ∈ quoteEnds) :
    ∀ c ∈ v.getLast?, Text.isBlank c = false := by
  simp only [quoteEnds, List.mem_cons, List.not_mem_nil, or_false] at hv
  rcases hv with rfl | rfl
  · simp
  · intro c hc
    obtain rfl : '>' = c := Option.some.inj hc
    rfl

/-- The first line of a merged quote begins with its tag. -/
theorem paragraphLine_opening (t : Text) {v : Text} (hv : v ∈ quoteEnds) :
    paragraphLine (Family.opening .quoted ++ Text.trim t ++ v) =
      Family.opening .quoted ++ Text.trim t ++ v := by
  have hlast : ∀ c ∈ (Family.opening .quoted).getLast?, Text.isBlank c = false := by
    intro c hc
    obtain rfl : '>' = c := Option.some.inj hc
    rfl
  refine paragraphLine_of_beginsBlock ?_
  rw [Text.trim_eq_self]
  · rfl
  · intro c hc
    obtain rfl : '<' = c := Option.some.inj hc
    rfl
  · exact Text.isBlank_of_mem_getLast?_append (Text.isBlank_of_mem_getLast?_append hlast
      fun _ => Text.isBlank_of_mem_getLast?_trim) (isBlank_of_mem_getLast?_quoteEnds hv)

/-- A later line that says something begins with it, and becomes a paragraph. -/
theorem paragraphLine_later {t v : Text} (hne : Text.trim t ≠ [])
    (hhead : (Text.trim t).head? ≠ some '<') (hv : v ∈ quoteEnds) :
    paragraphLine (Text.trim t ++ v) = element ['p'] (Text.trim t ++ v) := by
  have happend : (Text.trim t ++ v).head? = (Text.trim t).head? := by
    rw [List.head?_append_of_ne_nil _ hne]
  have htrim : Text.trim (Text.trim t ++ v) = Text.trim t ++ v := by
    refine Text.trim_eq_self (fun c hc => ?_) (Text.isBlank_of_mem_getLast?_append
      (fun _ => Text.isBlank_of_mem_getLast?_trim) (isBlank_of_mem_getLast?_quoteEnds hv))
    rw [happend] at hc
    exact Text.isBlank_of_mem_head?_trim hc
  rw [paragraphLine_of_head?, htrim]
  · rw [htrim, happend]
    exact hhead
  · rw [htrim]
    simp [hne]

theorem paragraphLine_quoteEnds {v : Text} (hv : v ∈ quoteEnds) : paragraphLine v = v := by
  simp only [quoteEnds, List.mem_cons, List.not_mem_nil, or_false] at hv
  rcases hv with rfl | rfl
  · rfl
  · refine paragraphLine_of_beginsBlock ?_
    show beginsBlock (Text.trim ('<' :: "/blockquote".toList ++ ['>'])) = true
    rw [Text.trim_tag]
    rfl

end Handler

/-! ## The HTML of a run -/

namespace SourceLine

variable {o : Options} {g : List SourceLine} {l : SourceLine} {x : Text}

theorem exists_words (l : SourceLine) : ∃ w : Words, l.content = Text.trim w.text := by
  cases l with
  | rule more => exact ⟨⟨[], by simp⟩, rfl⟩
  | block line carriageReturn =>
    cases line with
    | blank indent _ => exact ⟨⟨[], by simp⟩, rfl⟩
    | plain words _ => exact ⟨words, rfl⟩
    | heading _ _ _ _ _ words => exact ⟨words, rfl⟩
    | bullet words => exact ⟨words, rfl⟩
    | numbered _ _ words => exact ⟨words, rfl⟩
    | quote _ words => exact ⟨words, rfl⟩

theorem exists_words_of_mem {t : Text} (h : t ∈ g.map content) :
    ∃ w : Words, t = Text.trim w.text := by
  obtain ⟨l, -, rfl⟩ := List.mem_map.1 h
  exact exists_words l

theorem lineFeed_notMem_of_mem_contents : ∀ t ∈ g.map content, '\n' ∉ t := by
  intro t ht hm
  obtain ⟨w, rfl⟩ := exists_words_of_mem ht
  exact absurd (w.isWordChar_of_mem_trim hm) (by decide)

theorem isSetLine_of_mem_itemLines {list : Text} (hlist : ∀ c ∈ list, isBaseChar c) {w : Words}
    (hx : x ∈ itemLines list (Text.trim w.text)) : IsSetLine x := by
  refine ⟨fun c => isBaseChar_of_mem_itemLines hlist hx, ?_⟩
  simp only [itemLines, List.mem_cons, List.not_mem_nil, or_false] at hx
  rcases hx with rfl | rfl | rfl <;> simp

/-- Two lines that stay as they are when they are merged: if both are quotes, the second one says
nothing. -/
def StaysMerged (l l' : SourceLine) : Prop :=
  l.family? = some .quoted → l'.family? = some .quoted → l'.content = []

instance : DecidableRel StaysMerged := fun l l' =>
  inferInstanceAs (Decidable (l.family? = some .quoted → l'.family? = some .quoted →
    l'.content = []))

/-- A line that cannot be merged is one line of HTML, which is not wrapped again. -/
theorem forall_lines_html (o : Options) (h : l.family? = none) :
    ∀ x ∈ Text.lines (l.html o), IsSetLine x ∧ Handler.paragraphLine x = x := by
  have hlines : l.htmlLines o = [l.html o] := by
    cases l with
    | rule more => rfl
    | block line carriageReturn =>
      cases line with
      | bullet words => exact absurd h (by simp [family?, BlockLine.family?])
      | numbered _ _ words => exact absurd h (by simp [family?, BlockLine.family?])
      | _ => rfl
  have hmem : l.html o ∈ l.htmlLines o := by simp [hlines]
  have hlf : '\n' ∉ l.html o := fun hm =>
    absurd (isBaseChar_of_mem_htmlLines hmem hm) (by decide)
  intro x hx
  rw [Text.lines_of_notMem hlf, List.mem_singleton] at hx
  subst hx
  refine ⟨⟨fun c => isBaseChar_of_mem_htmlLines hmem, head?_of_mem_htmlLines hmem⟩, ?_⟩
  by_cases hrank : l.rank < 5
  · exact paragraphLine_of_mem_htmlLines hrank hmem
  · cases l with
    | rule more => exact absurd (by simp [rank]) hrank
    | block line carriageReturn =>
      cases line with
      | blank indent _ => rfl
      | plain words _ =>
        refine Handler.paragraphLine_of_beginsBlock ?_
        rw [html_block, BlockLine.html, Handler.trim_element]
        rfl
      | _ => exact absurd (by simp [rank]) hrank

/-- Nor are the lines of a list. -/
theorem forall_lines_list {f : Family} (hf : f ≠ .quoted) (hg : g ≠ []) :
    ∀ x ∈ Text.lines (f.block (g.map content)), IsSetLine x ∧ Handler.paragraphLine x = x := by
  have hname : (∀ c ∈ f.name, isBaseChar c) ∧ f.name ∈ Handler.blockNames := by
    cases f with
    | quoted => exact absurd rfl hf
    | bulleted => exact ⟨List.all_eq_true.1 rfl, by decide⟩
    | numbered => exact ⟨List.all_eq_true.1 rfl, by decide⟩
  intro x hx
  rcases Family.mem_lines_list hf (by simpa using hg) lineFeed_notMem_of_mem_contents hx with
    rfl | ⟨t, ht, hx⟩
  · exact ⟨isSetLine_nil, rfl⟩
  · obtain ⟨w, rfl⟩ := exists_words_of_mem ht
    exact ⟨isSetLine_of_mem_itemLines hname.1 hx, paragraphLine_of_mem_itemLines hname.2 hx⟩

theorem isSetLine_quoteEnds {v : Text} (hv : v ∈ Handler.quoteEnds) : IsSetLine v := by
  simp only [Handler.quoteEnds, List.mem_cons, List.not_mem_nil, or_false] at hv
  rcases hv with rfl | rfl
  · exact isSetLine_nil
  · exact isSetLine_angle (List.all_eq_true.1 rfl)

/-- The first line of a quote begins with its tag, and the others with what they say. -/
theorem mem_lines_quoted (hx : x ∈ Text.lines (Family.block .quoted ((l :: g).map content))) :
    ∃ v ∈ Handler.quoteEnds, x = Family.opening .quoted ++ l.content ++ v ∨
      ∃ l' ∈ g, x = l'.content ++ v := by
  obtain ⟨hopening, hclosing⟩ := Family.lineFeed_notMem_tags .quoted
  rw [List.map_cons, Family.block_quoted] at hx
  rcases Family.mem_lines_between hopening hclosing
    (lineFeed_notMem_of_mem_contents (g := l :: g)) hx with rfl | rfl | ⟨t, ht, h⟩
  · exact ⟨[], by simp [Handler.quoteEnds], .inl (by simp)⟩
  · exact ⟨_, by simp [Handler.quoteEnds], .inl rfl⟩
  · obtain ⟨l', hl', rfl⟩ := List.mem_map.1 ht
    rcases h with rfl | rfl
    · exact ⟨[], by simp [Handler.quoteEnds], .inr ⟨l', hl', by simp⟩⟩
    · exact ⟨_, by simp [Handler.quoteEnds], .inr ⟨l', hl', rfl⟩⟩

theorem isSetLine_of_mem_lines_quoted
    (hx : x ∈ Text.lines (Family.block .quoted ((l :: g).map content))) : IsSetLine x := by
  obtain ⟨v, hv, rfl | ⟨l', -, rfl⟩⟩ := mem_lines_quoted hx
  · obtain ⟨w, hw⟩ := exists_words l
    have hline : IsSetLine (l.content ++ v) :=
      isSetLine_append (fun c hc => w.isWordChar_of_mem_trim (hw ▸ hc)) (isSetLine_quoteEnds hv)
    have htag : ∀ c ∈ "blockquote>".toList, isBaseChar c := List.all_eq_true.1 rfl
    have hchars : ∀ c ∈ "blockquote>".toList ++ (l.content ++ v), isBaseChar c := by
      intro c hc
      exact (List.mem_append.1 hc).elim (htag c) (hline.isBaseChar_of_mem c)
    rw [List.append_assoc]
    exact isSetLine_angle hchars
  · obtain ⟨w, hw⟩ := exists_words l'
    exact isSetLine_append (fun c hc => w.isWordChar_of_mem_trim (hw ▸ hc)) (isSetLine_quoteEnds hv)

/-- Quotes stay merged if none but the first says something. -/
theorem isChain_quoted_iff (hg : IsRun (some .quoted) (l :: g)) :
    (l :: g).IsChain StaysMerged ↔ ∀ l' ∈ g, l'.content = [] := by
  induction g generalizing l with
  | nil => simp
  | cons l' g ih =>
    have hl := hg.family?_eq l (by simp)
    have hl' := hg.family?_eq l' (by simp)
    have hrun : IsRun (some .quoted) (l' :: g) :=
      ⟨fun x hx => hg.family?_eq x (List.mem_cons_of_mem l hx), by simp, by simp⟩
    rw [List.isChain_cons_cons, ih hrun, List.forall_mem_cons]
    simp [StaysMerged, hl, hl']

/-- Lines of another family stay as they are. -/
theorem isChain_of_ne {f? : Option Family} (hg : IsRun f? g) (hf : f? ≠ some .quoted) :
    g.IsChain StaysMerged := by
  have hall : ∀ l ∈ g, l.family? ≠ some .quoted := fun l hl => hg.family?_eq l hl ▸ hf
  clear hg
  induction g with
  | nil => exact .nil
  | cons l g ih =>
    refine List.isChain_cons.2 ⟨fun l' _ h => absurd h (hall l (by simp)), ih fun x hx => ?_⟩
    exact hall x (List.mem_cons_of_mem l hx)

theorem runHtml_of_some {f : Family} (hg : IsRun (some f) g) :
    runHtml o g = f.block (g.map content) := by
  rw [runHtml, ← runFamily?, hg.runFamily?_eq]

theorem runHtml_of_none (hg : IsRun none g) :
    ∃ l : SourceLine, l.family? = none ∧ runHtml o g = l.html o := by
  obtain ⟨l, rfl⟩ := hg.alone rfl
  refine ⟨l, hg.family?_eq l (by simp), ?_⟩
  rw [runHtml, ← runFamily?, hg.runFamily?_eq]
  simp

theorem isSet_runHtml (o : Options) {f? : Option Family} (hg : IsRun f? g) :
    IsSet (runHtml o g) := by
  intro x hx
  cases f? with
  | none =>
    obtain ⟨l, hl, hhtml⟩ := runHtml_of_none (o := o) hg
    rw [hhtml] at hx
    exact (forall_lines_html o hl x hx).1
  | some f =>
    rw [runHtml_of_some hg] at hx
    by_cases hf : f = .quoted
    · subst hf
      obtain ⟨l, g, rfl⟩ := List.exists_cons_of_ne_nil hg.ne_nil
      exact isSetLine_of_mem_lines_quoted hx
    · exact (forall_lines_list hf hg.ne_nil x hx).1

/-- No line of a run that stays merged is wrapped. -/
theorem paragraphLine_of_isChain (o : Options) {f? : Option Family} (hg : IsRun f? g)
    (h : g.IsChain StaysMerged) :
    ∀ x ∈ Text.lines (runHtml o g), Handler.paragraphLine x = x := by
  intro x hx
  cases f? with
  | none =>
    obtain ⟨l, hl, hhtml⟩ := runHtml_of_none (o := o) hg
    rw [hhtml] at hx
    exact (forall_lines_html o hl x hx).2
  | some f =>
    rw [runHtml_of_some hg] at hx
    by_cases hf : f = .quoted
    · subst hf
      obtain ⟨l, g, rfl⟩ := List.exists_cons_of_ne_nil hg.ne_nil
      obtain ⟨v, hv, rfl | ⟨l', hl', rfl⟩⟩ := mem_lines_quoted hx
      · obtain ⟨w, hw⟩ := exists_words l
        rw [hw]
        exact Handler.paragraphLine_opening w.text hv
      · rw [(isChain_quoted_iff hg).1 h l' hl', List.nil_append]
        exact Handler.paragraphLine_quoteEnds hv
    · exact (forall_lines_list hf hg.ne_nil x hx).2

/-- A line of a run that does not stay merged is wrapped. -/
theorem exists_wrapped_of_not_isChain (o : Options) {f? : Option Family} (hg : IsRun f? g)
    (h : ¬ g.IsChain StaysMerged) :
    ∃ x ∈ Text.lines (runHtml o g), x.count 'p' < (Handler.paragraphLine x).count 'p' := by
  have hf : f? = some .quoted := not_not.1 fun hf => h (isChain_of_ne hg hf)
  subst hf
  obtain ⟨l, g, rfl⟩ := List.exists_cons_of_ne_nil hg.ne_nil
  rw [isChain_quoted_iff hg] at h
  obtain ⟨l', hl', hne⟩ : ∃ l' ∈ g, l'.content ≠ [] := by simpa using h
  obtain ⟨w, hw⟩ := exists_words l'
  obtain ⟨hopening, hclosing⟩ := Family.lineFeed_notMem_tags .quoted
  obtain ⟨v, hv, hmem⟩ := Family.exists_mem_lines_between hopening hclosing
    (lineFeed_notMem_of_mem_contents (g := l :: g)) (List.mem_map_of_mem (f := content) hl')
  have hhead : (Text.trim w.text).head? ≠ some '<' := fun he =>
    absurd (w.isWordChar_of_mem_trim (List.mem_of_mem_head? he)) (by decide)
  refine ⟨l'.content ++ v, ?_, ?_⟩
  · rw [runHtml_of_some hg, List.map_cons, Family.block_quoted]
    exact hmem
  · rw [hw] at hne ⊢
    rw [Handler.paragraphLine_later hne hhead (by simpa [Handler.quoteEnds] using hv),
      Handler.count_element_paragraph]
    omega

end SourceLine

end Markdown
