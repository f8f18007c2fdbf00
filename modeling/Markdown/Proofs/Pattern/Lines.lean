import Markdown.Handler
import Markdown.Proofs.Pattern.Enclosed
import Markdown.Proofs.Text.Lines
import Markdown.Proofs.Text.Trimming

/-!
# Patterns of a line

Headings, items, quoted lines and horizontal rules are found at a line feed and take nothing beyond
the line behind it. What a rule makes of a text by such a pattern it makes of each line but the
first (`MapsLines.rewriteFrom_ofLines`); paragraphs are made of the first line as well.
-/

namespace Markdown

open Regex

namespace Handler

/-- An element begins and ends with angle brackets. -/
theorem exists_tag_element (name x : Text) : ∃ t, element name x = '<' :: t ++ ['>'] :=
  ⟨name ++ '>' :: x ++ '<' :: '/' :: name, by simp [element]⟩

theorem trim_element (name x : Text) : Text.trim (element name x) = element name x := by
  obtain ⟨t, ht⟩ := exists_tag_element name x
  rw [ht, Text.trim_tag]

theorem subset_element (name x : Text) : x ⊆ element name x := fun c hc => by
  simp [element, hc]

theorem mem_element {name x : Text} {c : Char} (h : c ∈ element name x) :
    c ∈ ['<', '>', '/'] ∨ c ∈ name ∨ c ∈ x := by
  simp only [element, List.cons_append, List.append_assoc, List.mem_cons, List.mem_append,
    List.not_mem_nil, or_false] at h
  rcases h with rfl | h | rfl | h | rfl | rfl | h | rfl
  · exact .inl (by simp)
  · exact .inr (.inl h)
  · exact .inl (by simp)
  · exact .inr (.inr h)
  · exact .inl (by simp)
  · exact .inl (by simp)
  · exact .inr (.inl h)
  · exact .inl (by simp)

variable {t : Text}

theorem paragraphLine_of_beginsBlock (h : beginsBlock (Text.trim t)) : paragraphLine t = t :=
  if_pos h

theorem beginsBlock_of_head? (h : t.head? ≠ some '<') : beginsBlock t = false := by
  unfold beginsBlock
  split
  · simp at h
  · simp at h
  · rfl

theorem paragraphLine_of_not_beginsBlock (h : beginsBlock (Text.trim t) = false)
    (hne : Text.trim t ≠ []) : paragraphLine t = element ['p'] (Text.trim t) := by
  have hempty : ¬ (Text.trim t).isEmpty := by simpa using hne
  unfold paragraphLine
  simp only [h, if_neg hempty]
  exact if_neg (by simp)

theorem paragraphLine_of_head? (h : (Text.trim t).head? ≠ some '<') (hne : Text.trim t ≠ []) :
    paragraphLine t = element ['p'] (Text.trim t) :=
  paragraphLine_of_not_beginsBlock (beginsBlock_of_head? h) hne

/-- A line stays, is left out as a blank, or becomes a paragraph. -/
theorem paragraphLine_cases (x : Text) : paragraphLine x = x ∨
    (Text.trim x = [] ∧ paragraphLine x = []) ∨
      paragraphLine x = element ['p'] (Text.trim x) := by
  by_cases hblock : beginsBlock (Text.trim x)
  · exact .inl (paragraphLine_of_beginsBlock hblock)
  · unfold paragraphLine
    simp only [hblock]
    by_cases hempty : Text.trim x = []
    · exact .inr (.inl ⟨hempty, by simp [hempty]⟩)
    · exact .inr (.inr (by simp [hempty]))

end Handler

/-! ## What becomes of a line -/

namespace Line

/-- The blanks that may stand behind the signs of a heading. -/
def isIndent (c : Char) : Bool :=
  c == ' ' || c == '\t'

/-- The number signs that a line begins with. -/
def headerSigns (l : Text) : Text :=
  l.takeWhile (· == '#')

/-- What stands behind the number signs. -/
def behindSigns (l : Text) : Text :=
  l.dropWhile (· == '#')

/-- A line, set as a heading if it is one. -/
def header (o : Options) (l : Text) : Text :=
  if headerSigns l = [] ∨ (behindSigns l).takeWhile isIndent = [] then l
  else Handler.element ('h' :: Text.ofNat (o.headingLevel (Text.byteSize (headerSigns l))))
    (Text.trim ((behindSigns l).dropWhile isIndent))

/-- A list with one item, without the line feed in front of it. -/
def singleItem (list item : Text) : Text :=
  Handler.element list ("\n\t".toList ++ Handler.element "li".toList (Text.trim item) ++ ['\n'])

/-- A line, set as a bulleted list if it begins with an asterisk. -/
def unorderedItem : Text → Text
  | '*' :: l => singleItem "ul".toList l
  | l => l

/-- The digits that a line begins with. -/
def itemDigits (l : Text) : Text :=
  l.takeWhile Char.isDigit

/-- A line, set as a numbered list if it begins with a number and a full stop. -/
def orderedItem (l : Text) : Text :=
  if itemDigits l = [] then l
  else match l.dropWhile Char.isDigit with
    | '.' :: l' => singleItem "ol".toList l'
    | _ => l

/-- A line as a block quote. -/
def quote (l : Text) : Text :=
  Handler.element "blockquote".toList (Text.trim l)

/-- A line, set as a block quote if it begins with a closing angle bracket or its entity. -/
def blockquote : Text → Text
  | '&' :: 'g' :: 't' :: ';' :: l => quote l
  | '>' :: l => quote l
  | l => l

/-- A line, with a horizontal rule in the place of five hyphens or more that it begins with. -/
def horizontalRule : Text → Text
  | '-' :: '-' :: '-' :: '-' :: '-' :: l => "<hr />".toList ++ l.dropWhile (· == '-')
  | l => l

/-! ### Lines that stay, and those that do not -/

theorem header_cases (o : Options) (l : Text) : header o l = l ∨ ∃ a l' n, l = a ++ l' ∧
    (∀ c ∈ a, c = '#' ∨ isIndent c) ∧
      header o l = Handler.element ('h' :: Text.ofNat n) (Text.trim l') := by
  unfold header
  split
  · exact .inl rfl
  · refine .inr ⟨headerSigns l ++ (behindSigns l).takeWhile isIndent, _, _, ?_, ?_, rfl⟩
    · rw [List.append_assoc, List.takeWhile_append_dropWhile]
      exact List.takeWhile_append_dropWhile.symm
    · intro c hc
      rcases List.mem_append.1 hc with hc | hc
      · exact .inl (by simpa using List.all_eq_true.1 (List.all_takeWhile (p := (· == '#'))) c hc)
      · exact .inr (List.all_eq_true.1 (List.all_takeWhile (p := isIndent)) c hc)

theorem unorderedItem_cases (l : Text) : unorderedItem l = l ∨ ∃ l', l = '*' :: l' ∧
    unorderedItem l = singleItem "ul".toList l' := by
  unfold unorderedItem
  split
  · exact .inr ⟨_, rfl, rfl⟩
  · exact .inl rfl

theorem orderedItem_cases (l : Text) : orderedItem l = l ∨ ∃ d l', l = d ++ ['.'] ++ l' ∧
    (∀ c ∈ d, c.isDigit) ∧ orderedItem l = singleItem "ol".toList l' := by
  unfold orderedItem
  split
  · exact .inl rfl
  split
  · rename_i l' hl'
    refine .inr ⟨itemDigits l, l', ?_, fun c hc => List.all_eq_true.1 List.all_takeWhile c hc, rfl⟩
    rw [List.append_assoc, List.singleton_append, ← hl']
    exact List.takeWhile_append_dropWhile.symm
  · exact .inl rfl

theorem blockquote_cases (l : Text) : blockquote l = l ∨ ∃ a l', l = a ++ l' ∧
    (a = "&gt;".toList ∨ a = ['>']) ∧ blockquote l = quote l' := by
  unfold blockquote
  split
  · exact .inr ⟨"&gt;".toList, _, rfl, .inl rfl, rfl⟩
  · exact .inr ⟨['>'], _, rfl, .inr rfl, rfl⟩
  · exact .inl rfl

theorem horizontalRule_cases (l : Text) : horizontalRule l = l ∨ ∃ a l', l = a ++ l' ∧ a ≠ [] ∧
    (∀ c ∈ a, c = '-') ∧ horizontalRule l = "<hr />".toList ++ l' := by
  unfold horizontalRule
  split
  · rename_i l
    refine .inr ⟨"-----".toList ++ l.takeWhile (· == '-'), _, ?_, by simp, fun c hc => ?_, rfl⟩
    · rw [List.append_assoc, List.takeWhile_append_dropWhile]
      rfl
    · rcases List.mem_append.1 hc with hc | hc
      · simpa using hc
      · simpa using List.all_eq_true.1 (List.all_takeWhile (p := (· == '-'))) c hc
  · exact .inl rfl

variable {l : Text}

theorem header_of_head? (o : Options) (h : l.head? ≠ some '#') : header o l = l := by
  refine if_pos (.inl ?_)
  cases l with
  | nil => rfl
  | cons c l =>
    have hc : c ≠ '#' := fun hc => h (by rw [hc]; rfl)
    exact List.takeWhile_cons_of_neg (by simpa using hc)

theorem unorderedItem_of_head? (h : l.head? ≠ some '*') : unorderedItem l = l := by
  unfold unorderedItem
  split
  · simp at h
  · rfl

theorem orderedItem_of_head? (h : ∀ c ∈ l.head?, c.isDigit = false) : orderedItem l = l := by
  refine if_pos ?_
  cases l with
  | nil => rfl
  | cons c l => exact List.takeWhile_cons_of_neg (by simp [h c rfl])

theorem orderedItem_of_notMem (h : '.' ∉ l) : orderedItem l = l := by
  rw [orderedItem]
  split
  · rfl
  · split
    · rename_i l' hl'
      exact absurd ((List.dropWhile_suffix _).subset (hl' ▸ List.mem_cons_self)) h
    · rfl

theorem blockquote_of_head? (h : l.head? ≠ some '>') (h' : l.head? ≠ some '&') :
    blockquote l = l := by
  unfold blockquote
  split
  · simp at h'
  · simp at h
  · rfl

theorem horizontalRule_of_head? (h : l.head? ≠ some '-') : horizontalRule l = l := by
  unfold horizontalRule
  split
  · simp at h
  · rfl

end Line

/-! ## Mapping lines -/

namespace Pattern

/-- A pattern that matches at line feeds and within the line behind one only, where `f` says what
becomes of the line if `ρ` gives the replacements. -/
structure MapsLines (p : Pattern) (ρ : Match → Text) (f : Text → Text) : Prop where
  isProper : p.finder.IsProper
  finder_of_ne : ∀ b c t, c ≠ '\n' → p.finder (.of b (c :: t)) = none
  finder_line : ∀ b l t, '\n' ∉ l → Text.EndsLine t →
    (p.finder (.of b ('\n' :: (l ++ t))) = none ∧ f l = l) ∨
      ∃ s s' v, l = s ++ s' ∧ '\n' :: f l = ρ ⟨'\n' :: s, v⟩ ++ s' ∧
        p.finder (.of b ('\n' :: (l ++ t))) = some (s.length + 1, v)

variable {p : Pattern} {ρ : Match → Text} {f : Text → Text}

namespace MapsLines

theorem rewriteFrom_stretch (h : p.MapsLines ρ f) (b : Option Char) {l : Text} (hl : '\n' ∉ l)
    (t : Text) : p.rewriteFrom ρ b (l ++ t) = l ++ p.rewriteFrom ρ (lastOr b l) t := by
  refine Pattern.rewriteFrom_stretch h.isProper ρ l fun v c w hu => ?_
  refine h.finder_of_ne _ c _ fun hc => hl ?_
  simp [hu, hc]

/-- The first line stays, and the others are mapped. -/
theorem rewriteFrom_ofLines (h : p.MapsLines ρ f) (b : Option Char) {l : Text} {ls : List Text}
    (hl : '\n' ∉ l) (hls : ∀ l' ∈ ls, '\n' ∉ l') :
    p.rewriteFrom ρ b (Text.ofLines l ls) = Text.ofLines l (ls.map f) := by
  rw [Text.ofLines, h.rewriteFrom_stretch b hl, Text.ofLines]
  congr 1
  clear hl
  induction ls generalizing b l with
  | nil => exact Pattern.rewriteFrom_nil h.isProper ρ _
  | cons l' ls ih =>
    have hl' : '\n' ∉ l' := hls l' (by simp)
    have ih' (b : Option Char) := ih b (l := []) fun x hx => hls x (by simp [hx])
    simp only [lastOr_nil] at ih'
    simp only [List.flatMap_cons, List.map_cons, List.cons_append]
    rcases h.finder_line (lastOr b l) l' _ hl' (Text.endsLine_flatMap ls) with
      ⟨hf, hfl⟩ | ⟨s, s', v, rfl, hfl, hf⟩
    · rw [Pattern.rewriteFrom_cons h.isProper ρ hf, h.rewriteFrom_stretch _ hl', ih', hfl]
    · have hs' : '\n' ∉ s' := fun hm => hl' (by simp [hm])
      have hsplit : '\n' :: (s ++ s' ++ ls.flatMap ('\n' :: ·)) =
          ('\n' :: s) ++ (s' ++ ls.flatMap ('\n' :: ·)) := by simp
      rw [hsplit] at hf ⊢
      rw [Pattern.rewriteFrom_append h.isProper ρ hf, h.rewriteFrom_stretch _ hs', ih',
        ← List.append_assoc, ← hfl]
      rfl

/-- A document of one line stays, if the line does. -/
theorem rewriteFrom_document (h : p.MapsLines ρ f) {l : Text} (hl : '\n' ∉ l) (hf : f l = l)
    (hnil : f [] = []) : p.rewriteFrom ρ none ('\n' :: l ++ ['\n']) = '\n' :: l ++ ['\n'] := by
  have hsplit : '\n' :: l ++ ['\n'] = Text.ofLines [] [l, []] := by simp [Text.ofLines]
  rw [hsplit, h.rewriteFrom_ofLines none (by simp) (by simpa using hl), List.map_cons,
    List.map_singleton, hf, hnil]

end MapsLines

/-! ## The line patterns -/

/-- A pattern that begins with a line feed. -/
def behindLineFeed (source : Text) (rs : List Regex) (groups : Nat) : Pattern :=
  regex source (seqs (['\n'].map char ++ rs)) groups

section BehindLineFeed

variable (source : Text) {rs : List Regex} (hrs : (seqs (['\n'].map char ++ rs)).isPlain)
  (groups : Nat)

include hrs

theorem isProper_behindLineFeed : (behindLineFeed source rs groups).finder.IsProper :=
  isProper_finder_regex hrs (isSolid_seqs ⟨char '\n', by simp, rfl⟩)

theorem finder_behindLineFeed_of_ne (b : Option Char) (c : Char) (t : Text) (hc : c ≠ '\n') :
    (behindLineFeed source rs groups).finder (.of b (c :: t)) = none := by
  rw [behindLineFeed, finder, find_eq_head?_ways hrs, ways_literal_eq_nil]
  · rfl
  · simpa using hc.symm

theorem finder_behindLineFeed (b : Option Char) (t : Text) :
    (behindLineFeed source rs groups).finder (.of b ('\n' :: t)) =
      ((seqs rs).ways (some '\n') t).head?.map fun w =>
        (w.taken.length + 1, w.groupTexts groups) := by
  have h := ways_literal ['\n'] rs b t
  rw [List.singleton_append] at h
  rw [behindLineFeed, finder, find_eq_head?_ways hrs, h, List.head?_map, Option.map_map]
  congr 1
  funext w
  simp [Way.andThen, Way.groupTexts]

end BehindLineFeed

theorem unorderedItem_eq :
    unorderedItem = behindLineFeed "\\n\\*(.*)".toList
      (['*'].map char ++ [group 1 (run true .notLineFeed)]) 1 := rfl

theorem contains_indent :
    (CharSet.union (.single ' ') (.single '\t')).contains = Line.isIndent := by
  funext d
  simp [CharSet.contains, contains_single_eq, Line.isIndent]

theorem contains_notLineFeed_of_notMem {l : Text} (hl : '\n' ∉ l) :
    ∀ c ∈ l, CharSet.notLineFeed.contains c := by
  intro c hc
  have hne : c ≠ '\n' := fun h => hl (h ▸ hc)
  simpa using hne

/-- The rest of a line takes all of it. -/
theorem takeWhile_ne_lineFeed {l t : Text} (hl : '\n' ∉ l) (ht : Text.EndsLine t) :
    (l ++ t).takeWhile CharSet.notLineFeed.contains = l := by
  have hall := contains_notLineFeed_of_notMem hl
  have h : (l ++ []).takeWhile CharSet.notLineFeed.contains = l ++ [] :=
    List.takeWhile_append_of_pos hall
  rw [Text.takeWhile_append_of_endsLine (by simp) l ht]
  rwa [List.append_nil] at h

theorem head?_ways_restOfLine (index : Nat) (b : Option Char) {l t : Text} (hl : '\n' ∉ l)
    (ht : Text.EndsLine t) :
    ((seqs [group index (run true .notLineFeed)]).ways b (l ++ t)).head? =
      some ⟨l, (l ++ t).dropWhile CharSet.notLineFeed.contains, [(index, l)]⟩ := by
  rw [seqs, ways, List.head?_map, head?_run, takeWhile_ne_lineFeed hl ht]
  rfl

theorem mapsLines_unorderedItem :
    unorderedItem.MapsLines (fun m => Handler.singleItem "ul".toList (m.group 1))
      Line.unorderedItem := by
  rw [unorderedItem_eq]
  refine ⟨isProper_behindLineFeed _ rfl 1, finder_behindLineFeed_of_ne _ rfl 1, ?_⟩
  intro b l t hl ht
  rw [finder_behindLineFeed _ rfl]
  by_cases h : ['*'] <+: l
  · right
    obtain ⟨l', rfl⟩ := h
    have hl' : '\n' ∉ l' := fun hm => hl (by simp [hm])
    refine ⟨_, [], [some l'], (List.append_nil _).symm, ?_, ?_⟩
    · rw [List.append_nil]
      rfl
    · rw [List.append_assoc, ways_literal, List.head?_map, head?_ways_restOfLine _ _ hl' ht]
      simp [Way.andThen, Way.groupTexts]
  · left
    rw [ways_literal_eq_nil _ fun hp => h ((Text.prefix_append_of_endsLine (by simp) ht).1 hp)]
    refine ⟨rfl, ?_⟩
    unfold Line.unorderedItem
    split
    · exact absurd (List.prefix_append ['*'] _) h
    · rfl

theorem orderedItem_eq :
    orderedItem = behindLineFeed "\\n[0-9]+\\.(.*)".toList
      (run1 true (.range '0' '9') :: (['.'].map char ++ [group 1 (run true .notLineFeed)])) 1 := rfl

theorem mapsLines_orderedItem :
    orderedItem.MapsLines (fun m => Handler.singleItem "ol".toList (m.group 1))
      Line.orderedItem := by
  rw [orderedItem_eq]
  refine ⟨isProper_behindLineFeed _ rfl 1, finder_behindLineFeed_of_ne _ rfl 1, ?_⟩
  intro b l t hl ht
  -- a digit is no full stop, so the run of digits cannot be left early
  have hstop (b : Option Char) (a : Char) (l : Text) (ha : (CharSet.range '0' '9').contains a) :
      (seqs (['.'].map char ++ [group 1 (run true .notLineFeed)])).ways b (a :: l) = [] := by
    refine ways_literal_eq_nil _ fun hp => ?_
    obtain rfl : '.' = a := by simpa using hp
    exact absurd ha (by decide)
  rw [finder_behindLineFeed _ rfl, ways_seqs_cons, head?_flatMap_run1 _ _ _ _ (.inr fun u a l ha => by
    rw [hstop _ _ _ ha, List.map_nil])]
  rw [contains_digit, Text.takeWhile_append_of_endsLine rfl l ht,
    Text.dropWhile_append_of_endsLine rfl l ht, ← Line.itemDigits, Line.orderedItem]
  by_cases hdigits : Line.itemDigits l = []
  · exact .inl ⟨by rw [if_pos hdigits]; rfl, by rw [if_pos hdigits]⟩
  rw [if_neg hdigits, if_neg hdigits]
  have hsplit : Line.itemDigits l ++ l.dropWhile Char.isDigit = l := List.takeWhile_append_dropWhile
  by_cases h : ['.'] <+: l.dropWhile Char.isDigit
  · right
    obtain ⟨l', hl'⟩ := h
    have hmem : '\n' ∉ l' := fun hm => hl (by rw [← hsplit, ← hl']; simp [hm])
    rw [← hl']
    refine ⟨_, [], [some l'], (List.append_nil _).symm, ?_, ?_⟩
    · rw [List.append_nil]
      rfl
    · have hlen : l.length = (Line.itemDigits l).length + (['.'] ++ l').length := by
        rw [hl', ← List.length_append, hsplit]
      rw [List.append_assoc, ways_literal, List.head?_map, List.head?_map,
        head?_ways_restOfLine _ _ hmem ht, hlen]
      simp [Way.andThen, Way.groupTexts]
  · left
    rw [ways_literal_eq_nil _ fun hp => h ((Text.prefix_append_of_endsLine (by simp) ht).1 hp)]
    refine ⟨rfl, ?_⟩
    split
    · rename_i l' heq
      exact absurd ⟨l', heq.symm⟩ h
    · rfl

theorem blockquote_eq :
    blockquote = behindLineFeed "\\n(&gt;|>)(.*)".toList
      [group 1 (alt (text "&gt;".toList) (char '>')), group 2 (run true .notLineFeed)] 2 := rfl

theorem mapsLines_blockquote :
    blockquote.MapsLines
      (fun m => '\n' :: Handler.element "blockquote".toList (Text.trim (m.group 2)))
      Line.blockquote := by
  rw [blockquote_eq]
  refine ⟨isProper_behindLineFeed _ rfl 2, finder_behindLineFeed_of_ne _ rfl 2, ?_⟩
  intro b l t hl ht
  rw [finder_behindLineFeed _ rfl, ways_seqs_cons, ways]
  have hchar (b : Option Char) (t : Text) : (char '>').ways b t = (text ['>']).ways b t := rfl
  have hnot (lit : Text) (hlit : '\n' ∉ lit) (h : ¬ lit <+: l) (b : Option Char) :
      (text lit).ways b (l ++ t) = [] :=
    ways_text_eq_nil fun hp => h ((Text.prefix_append_of_endsLine hlit ht).1 hp)
  -- once the mark `lit` of the quote is the only one to take, the rest of the line is the quote
  have hquoted (lit l' : Text) (hl' : '\n' ∉ l') (hset : Line.blockquote (lit ++ l') = Line.quote l')
      {marks : List Way} (hmarks : marks = [⟨lit, l' ++ t, [(1, lit)]⟩]) :
      ∃ s s' v, lit ++ l' = s ++ s' ∧ '\n' :: Line.blockquote (lit ++ l') =
        '\n' :: Handler.element "blockquote".toList (Text.trim (Match.group ⟨'\n' :: s, v⟩ 2)) ++ s' ∧
        (marks.flatMap fun v => ((seqs [group 2 (run true .notLineFeed)]).ways
          (lastOr (some '\n') v.taken) v.left).map v.andThen).head?.map
            (fun w => (w.taken.length + 1, w.groupTexts 2)) = some (s.length + 1, v) := by
    refine ⟨lit ++ l', [], [some lit, some l'], (List.append_nil _).symm, ?_, ?_⟩
    · rw [hset, List.append_nil]
      rfl
    · rw [hmarks, List.flatMap_singleton, List.head?_map, head?_ways_restOfLine _ _ hl' ht]
      simp [Way.andThen, Way.groupTexts, List.range_succ, List.lookup_cons]
  rw [ways, hchar]
  by_cases h : "&gt;".toList <+: l
  · obtain ⟨l', rfl⟩ := h
    refine .inr (hquoted _ l' (fun hm => hl (by simp [hm])) rfl ?_)
    rw [hnot ['>'] (by simp) (by simp), List.append_nil, List.append_assoc, ways_text]
    rfl
  by_cases h' : ['>'] <+: l
  · obtain ⟨l', rfl⟩ := h'
    refine .inr (hquoted _ l' (fun hm => hl (by simp [hm])) rfl ?_)
    rw [hnot _ (by simp) h, List.nil_append, List.append_assoc, ways_text]
    rfl
  · left
    rw [hnot _ (by simp) h, hnot _ (by simp) h']
    refine ⟨rfl, ?_⟩
    unfold Line.blockquote
    split
    · exact absurd (List.prefix_append "&gt;".toList _) h
    · exact absurd (List.prefix_append ['>'] _) h'
    · rfl

theorem horizontalRule_eq :
    horizontalRule = behindLineFeed "\\n-\x7b5,\x7d".toList
      [seqs ("-----".toList.map char ++ [run true (.single '-')])] 0 := rfl

theorem mapsLines_horizontalRule :
    horizontalRule.MapsLines (fun _ => "\n<hr />".toList) Line.horizontalRule := by
  rw [horizontalRule_eq]
  refine ⟨isProper_behindLineFeed _ rfl 0, finder_behindLineFeed_of_ne _ rfl 0, ?_⟩
  intro b l t hl ht
  rw [finder_behindLineFeed _ rfl, seqs]
  by_cases h : "-----".toList <+: l
  · right
    obtain ⟨l', rfl⟩ := h
    refine ⟨"-----".toList ++ l'.takeWhile (· == '-'), l'.dropWhile (· == '-'), [], ?_, rfl, ?_⟩
    · rw [List.append_assoc, List.takeWhile_append_dropWhile]
    · rw [List.append_assoc, ways_literal, List.head?_map, seqs, head?_run, contains_single_eq,
        Text.takeWhile_append_of_endsLine (by decide) l' ht]
      simp [Way.andThen, Way.groupTexts]
  · left
    rw [ways_literal_eq_nil _ fun hp => h ((Text.prefix_append_of_endsLine (by simp) ht).1 hp)]
    refine ⟨rfl, ?_⟩
    unfold Line.horizontalRule
    split
    · exact absurd (List.prefix_append "-----".toList _) h
    · rfl

theorem header_eq :
    header = behindLineFeed "\\n(#+)[ \\t]+(.*)".toList
      [group 1 (run1 true (.single '#')), run1 true (.union (.single ' ') (.single '\t')),
        group 2 (run true .notLineFeed)] 2 := rfl

theorem mapsLines_header (o : Options) :
    header.MapsLines
      (fun m => '\n' :: Handler.element
        ('h' :: Text.ofNat (o.headingLevel (Text.byteSize (m.group 1)))) (Text.trim (m.group 2)))
      (Line.header o) := by
  rw [header_eq]
  refine ⟨isProper_behindLineFeed _ rfl 2, finder_behindLineFeed_of_ne _ rfl 2, ?_⟩
  intro b l t hl ht
  -- a number sign is no blank, so the run of signs cannot be left early
  have hsigns (b : Option Char) (a : Char) (l : Text) (ha : (CharSet.single '#').contains a) :
      (seqs [run1 true (.union (.single ' ') (.single '\t')),
        group 2 (run true .notLineFeed)]).ways b (a :: l) = [] := by
    obtain rfl : a = '#' := by simpa [CharSet.contains_single] using ha
    rfl
  -- the rest of a line can always be taken, so the run of blanks is as long as it can be
  have hblanks (b : Option Char) (l : Text) :
      (seqs [group 2 (run true .notLineFeed)]).ways b l ≠ [] := by
    intro hnil
    have h := congrArg List.head? hnil
    rw [seqs, ways, List.head?_map, head?_run] at h
    simp at h
  rw [finder_behindLineFeed _ rfl, ways_seqs_cons, ways, List.flatMap_map,
    head?_flatMap_run1 _ _ _ _ (.inr fun u a l ha => by rw [Way.record, hsigns _ _ _ ha, List.map_nil]),
    contains_single_eq, Text.takeWhile_append_of_endsLine rfl l ht,
    Text.dropWhile_append_of_endsLine rfl l ht, ← Line.headerSigns, ← Line.behindSigns, Line.header]
  by_cases h : Line.headerSigns l = []
  · exact .inl ⟨by rw [if_pos h]; rfl, by rw [if_pos (.inl h)]⟩
  have hsplit : Line.headerSigns l ++ Line.behindSigns l = l := List.takeWhile_append_dropWhile
  rw [if_neg h, List.head?_map, Way.record, ways_seqs_cons,
    head?_flatMap_run1 _ _ _ _ (.inl fun hnil => hblanks _ _ (List.map_eq_nil_iff.1 hnil)),
    contains_indent, Text.takeWhile_append_of_endsLine rfl _ ht,
    Text.dropWhile_append_of_endsLine rfl _ ht]
  by_cases h' : (Line.behindSigns l).takeWhile Line.isIndent = []
  · exact .inl ⟨by rw [if_pos h']; rfl, by rw [if_pos (.inr h')]⟩
  right
  have hsplit' : (Line.behindSigns l).takeWhile Line.isIndent ++
      (Line.behindSigns l).dropWhile Line.isIndent = Line.behindSigns l :=
    List.takeWhile_append_dropWhile
  have hmem : '\n' ∉ (Line.behindSigns l).dropWhile Line.isIndent :=
    fun hm => hl (hsplit ▸ List.mem_append_right _ (hsplit' ▸ List.mem_append_right _ hm))
  have hlen : l.length = (Line.headerSigns l).length + (Line.behindSigns l).length := by
    rw [← List.length_append, hsplit]
  rw [if_neg h', if_neg (by simp [h, h']), List.head?_map, head?_ways_restOfLine _ _ hmem ht]
  refine ⟨l, [], [some (Line.headerSigns l), some ((Line.behindSigns l).dropWhile Line.isIndent)],
    (List.append_nil _).symm, ?_, ?_⟩
  · rw [List.append_nil]
    rfl
  · simp [Way.andThen, Way.groupTexts, List.range_succ, List.lookup_cons, hlen, Nat.add_assoc]

/-! ## Paragraphs -/

theorem paragraph_eq :
    paragraph = regex "(?m)^([^\\n]+)$".toList
      (seqs [assert .lineStart, group 1 (run1 true .notLineFeed), assert .lineEnd]) 1 := rfl

theorem isProper_paragraph : paragraph.finder.IsProper :=
  isProper_finder_regex rfl rfl

/-- No line is made of a line feed. -/
theorem finder_paragraph_lineFeed (b : Option Char) (t : Text) :
    paragraph.finder (.of b ('\n' :: t)) = none := by
  rw [paragraph_eq, finder, find_eq_head?_ways rfl, ways_seqs_cons, ways]
  split
  · simp only [List.flatMap_singleton, ways_seqs_cons, ways, run1]
    rfl
  · rfl

/-- At the start of a line that is not empty, all of it is found. -/
theorem finder_paragraph {b : Option Char} (hb : Assertion.holds b none .lineStart) {l t : Text}
    (hne : l ≠ []) (hl : '\n' ∉ l) (ht : Text.EndsLine t) :
    paragraph.finder (.of b (l ++ t)) = some (l.length, [some l]) := by
  have hstart : Assertion.holds b (l ++ t).head? .lineStart := hb
  have hdrop : (l ++ t).dropWhile CharSet.notLineFeed.contains = t := by
    have h := List.takeWhile_append_dropWhile (p := CharSet.notLineFeed.contains) (l := l ++ t)
    rw [takeWhile_ne_lineFeed hl ht] at h
    exact List.append_cancel_left h
  have hend (b : Option Char) : (seqs [assert .lineEnd]).ways b t = [⟨[], t, []⟩] := by
    have h : Assertion.holds b t.head? .lineEnd := by
      rcases ht with rfl | ⟨t', rfl⟩ <;> rfl
    rw [seqs, ways, if_pos h]
  rw [paragraph_eq, finder, find_eq_head?_ways rfl, ways_seqs_cons, ways, if_pos hstart,
    List.flatMap_singleton, List.head?_map, ways_seqs_cons, ways, List.flatMap_map,
    head?_flatMap_run1 _ _ _ _ (.inl ?_), takeWhile_ne_lineFeed hl ht, hdrop, if_neg hne,
    Way.record, hend]
  · simp [Way.andThen, Way.groupTexts]
  · rw [takeWhile_ne_lineFeed hl ht, hdrop, Way.record, hend]
    simp

/-- Every line becomes what `f` makes of it. -/
theorem rewriteFrom_paragraph (f : Text → Text) (hf : f [] = []) {b : Option Char}
    (hb : Assertion.holds b none .lineStart) {l : Text} {ls : List Text} (hl : '\n' ∉ l)
    (hls : ∀ l' ∈ ls, '\n' ∉ l') :
    paragraph.rewriteFrom (fun m => f (m.group 1)) b (Text.ofLines l ls) =
      Text.ofLines (f l) (ls.map f) := by
  -- the lines behind the first one, wherever it has ended
  have hlater (b : Option Char) : paragraph.rewriteFrom (fun m => f (m.group 1)) b
      (ls.flatMap ('\n' :: ·)) = (ls.map f).flatMap ('\n' :: ·) := by
    clear hb hl
    induction ls generalizing b with
    | nil => exact rewriteFrom_nil isProper_paragraph _ _
    | cons l' ls ih =>
      have hl' : '\n' ∉ l' := hls l' (by simp)
      have ih' (b : Option Char) := ih (fun x hx => hls x (by simp [hx])) b
      simp only [List.flatMap_cons, List.map_cons, List.cons_append]
      rw [rewriteFrom_cons isProper_paragraph _ (finder_paragraph_lineFeed b _)]
      by_cases hne : l' = []
      · rw [hne, hf, List.nil_append, List.nil_append, ih']
      · rw [rewriteFrom_append isProper_paragraph _
          (finder_paragraph rfl hne hl' (Text.endsLine_flatMap ls)), ih']
        rfl
  by_cases hne : l = []
  · rw [hne, hf, Text.ofLines, Text.ofLines, List.nil_append, List.nil_append, hlater]
  · rw [Text.ofLines, Text.ofLines, rewriteFrom_append isProper_paragraph _
      (finder_paragraph hb hne hl (Text.endsLine_flatMap ls)), hlater]
    rfl

end Pattern

end Markdown
