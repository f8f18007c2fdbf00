import Markdown.Proofs.Blocks.Setting

/-!
# The passes over the lines

Every rule for blocks takes a document from one stage to the next, and the others leave it as it is.
Behind the rule for paragraphs all lines are set.
-/

namespace Markdown

open Pattern

/-! ## What becomes of the lines -/

namespace Line

theorem header_heading (o : Options) (n : Nat) (hn : 0 < n) {gap t : Text} (hne : gap ≠ [])
    (hgap : ∀ c ∈ gap, isIndent c) :
    header o (List.replicate n '#' ++ gap ++ t) =
      Handler.element ('h' :: Text.ofNat (o.headingLevel n)) (Text.trim t) := by
  obtain ⟨d, gap, rfl⟩ := List.exists_cons_of_ne_nil hne
  have hd : isIndent d := hgap d (by simp)
  have hsign : (d == '#') = false := by
    simp only [isIndent, Bool.or_eq_true, beq_iff_eq] at hd
    rcases hd with rfl | rfl <;> rfl
  have hall : ∀ c ∈ List.replicate n '#', c == '#' := fun c hc => by
    simpa using (List.mem_replicate.1 hc).2
  have hsigns : headerSigns (List.replicate n '#' ++ (d :: gap ++ t)) = List.replicate n '#' := by
    rw [headerSigns, List.takeWhile_append_of_pos hall, List.cons_append,
      List.takeWhile_cons_of_neg (by simp [hsign]), List.append_nil]
  have hbehind : behindSigns (List.replicate n '#' ++ (d :: gap ++ t)) = d :: gap ++ t := by
    rw [behindSigns, List.dropWhile_append_of_pos hall, List.cons_append,
      List.dropWhile_cons_of_neg (by simp [hsign])]
  have hsize : Text.byteSize (List.replicate n '#') = n := by
    clear hn hall hsigns hbehind
    induction n with
    | zero => rfl
    | succ n ih =>
      rw [List.replicate_succ, Text.byteSize_cons, ih]
      exact Nat.add_comm 1 n
  have hblank : ∀ c, isIndent c → Text.isBlank c := by
    intro c hc
    simp only [isIndent, Bool.or_eq_true, beq_iff_eq] at hc
    rcases hc with rfl | rfl <;> rfl
  rw [List.append_assoc, header, hsigns, hbehind, hsize, if_neg, Text.trim_dropWhile hblank,
    Text.trim_append_left fun c hc => hblank c (hgap c hc)]
  rw [not_or]
  constructor
  · simpa using Nat.ne_of_gt hn
  · rw [List.cons_append, List.takeWhile_cons_of_pos hd]
    exact List.cons_ne_nil d _

theorem orderedItem_numbered {digits : Text} (h : IsDigits digits) (t : Text) :
    orderedItem (digits ++ '.' :: t) = singleItem "ol".toList t := by
  have htake : itemDigits (digits ++ '.' :: t) = digits := by
    rw [itemDigits, List.takeWhile_append_of_pos h.2]
    simp
  have hdrop : (digits ++ '.' :: t).dropWhile Char.isDigit = '.' :: t := by
    rw [List.dropWhile_append_of_pos h.2]
    simp
  rw [orderedItem, htake, if_neg h.1, hdrop]
  rfl

theorem horizontalRule_replicate (n : Nat) :
    horizontalRule (List.replicate (n + 5) '-') = "<hr />".toList := by
  have hdrop : (List.replicate n '-').dropWhile (· == '-') = [] :=
    List.dropWhile_eq_nil_iff.2 fun c hc => by simpa using (List.mem_replicate.1 hc).2
  have hsplit : List.replicate (n + 5) '-' = "-----".toList ++ List.replicate n '-' := by
    simp [List.replicate_succ]
  rw [hsplit]
  show "<hr />".toList ++ (List.replicate n '-').dropWhile (· == '-') = _
  rw [hdrop, List.append_nil]

end Line

namespace SourceLine

variable {o : Options} {l : SourceLine} {ls : List SourceLine} {c : Char}

theorem trim_append_carriageReturn (t : Text) (carriageReturn : Bool) :
    Text.trim (t ++ if carriageReturn then ['\r'] else []) = Text.trim t := by
  refine Text.trim_append_right t fun c hc => ?_
  cases carriageReturn with
  | false => simp at hc
  | true =>
    obtain rfl : c = '\r' := by simpa using hc
    rfl

theorem singleItem_eq_block (list t : Text) (f : Family)
    (hf : ∀ ts, f.block ts = Handler.element list ('\n' :: List.intercalate ['\n'] (ts.map itemLine))) :
    Line.singleItem list t = f.block [Text.trim t] := by
  rw [hf]
  simp [Line.singleItem, itemLine]

/-! ## Headings, items, quotes and horizontal rules -/

theorem notMem_text (h : l.sign? ≠ some c) (hc : isBaseChar c = false) : c ∉ l.text := by
  intro hm
  rcases isBaseChar_of_mem_text hm with hb | hs
  · rw [hc] at hb
    exact absurd hb (by simp)
  · exact h hs

theorem notMem_of_mem_htmlLines {x : Text} (hx : x ∈ l.htmlLines o) (hc : isBaseChar c = false) :
    c ∉ x := by
  intro hm
  rw [isBaseChar_of_mem_htmlLines hx hm] at hc
  exact absurd hc (by simp)

/-- The sign of a rank stands in the lines of that rank only. -/
theorem notMem_text_of_lt {n : Nat} (hc : (n, c) ∈ [(0, '#'), (1, '*'), (2, '.'), (4, '-')])
    (h : n < l.rank) : c ∉ l.text := by
  refine notMem_text (fun hs => ?_) ?_
  · rcases eq_of_sign?_eq_some hs with ⟨hr, rfl⟩ | ⟨hr, rfl⟩ | ⟨hr, rfl⟩ | ⟨hr, rfl⟩ <;>
      simp at hc <;> omega
  · simp only [List.mem_cons, List.not_mem_nil, or_false, Prod.mk.injEq] at hc
    rcases hc with ⟨-, rfl⟩ | ⟨-, rfl⟩ | ⟨-, rfl⟩ | ⟨-, rfl⟩ <;> rfl

theorem head?_ne {t : Text} (h : c ∉ t) : t.head? ≠ some c :=
  fun he => h (List.mem_of_mem_head? he)

theorem pass_header (o : Options) (ls : List SourceLine) :
    (Table.handling .header Handler.header).pass o (stage o 0 ls) = stage o 1 ls := by
  rw [Table.isPure_header.pass_eq]
  refine stage_succ (fun xs hxs => (mapsLines_header o).rewriteFrom_ofLines none (by simp) hxs)
    (Line.header_of_head? o (by simp)) (fun l h => absurd h (by omega)) (fun l h => ?_)
    (fun l h => Line.header_of_head? o (head?_ne (notMem_text_of_lt (by simp) h))) ls
  cases l with
  | rule more => exact absurd h (by simp [rank])
  | block line carriageReturn =>
    cases line with
    | heading signs hpos gap hne hgap words =>
      show Line.header o (List.replicate signs '#' ++ gap ++ words.text ++ _) = _
      rw [List.append_assoc _ words.text, Line.header_heading o signs hpos hne hgap,
        trim_append_carriageReturn]
      rfl
    | _ => exact absurd h (by simp [rank])

theorem pass_unorderedItem (o : Options) (ls : List SourceLine) :
    (Table.handling .unorderedItem Handler.unorderedItem).pass o (stage o 1 ls) =
      stage o 2 ls := by
  rw [Table.isPure_unorderedItem.pass_eq]
  refine stage_succ (fun xs hxs => mapsLines_unorderedItem.rewriteFrom_ofLines none (by simp) hxs)
    rfl (fun l _ x hx => Line.unorderedItem_of_head? (head?_ne (notMem_of_mem_htmlLines hx rfl)))
    (fun l h => ?_)
    (fun l h => Line.unorderedItem_of_head? (head?_ne (notMem_text_of_lt (by simp) h))) ls
  cases l with
  | rule more => exact absurd h (by simp [rank])
  | block line carriageReturn =>
    cases line with
    | bullet words =>
      show Line.singleItem "ul".toList (words.text ++ _) = _
      rw [singleItem_eq_block _ _ .bulleted fun _ => rfl, trim_append_carriageReturn]
      rfl
    | _ => exact absurd h (by simp [rank])

theorem pass_orderedItem (o : Options) (ls : List SourceLine) :
    (Table.handling .orderedItem Handler.orderedItem).pass o (stage o 2 ls) = stage o 3 ls := by
  rw [Table.isPure_orderedItem.pass_eq]
  refine stage_succ (fun xs hxs => mapsLines_orderedItem.rewriteFrom_ofLines none (by simp) hxs)
    rfl (fun l _ x hx => Line.orderedItem_of_notMem (notMem_of_mem_htmlLines hx rfl))
    (fun l h => ?_) (fun l h => Line.orderedItem_of_notMem (notMem_text_of_lt (by simp) h)) ls
  cases l with
  | rule more => exact absurd h (by simp [rank])
  | block line carriageReturn =>
    cases line with
    | numbered digits hdigits words =>
      show Line.orderedItem (digits ++ '.' :: words.text ++ _) = _
      rw [List.append_assoc, List.cons_append, Line.orderedItem_numbered hdigits,
        singleItem_eq_block _ _ .numbered fun _ => rfl, trim_append_carriageReturn]
      rfl
    | _ => exact absurd h (by simp [rank])

/-- What is set does not begin with a sign of a quote. -/
theorem head?_of_mem_htmlLines {x : Text} (hx : x ∈ l.htmlLines o) :
    x.head? ≠ some '>' ∧ x.head? ≠ some '&' := by
  unfold htmlLines at hx
  split at hx
  · simp only [itemLines, List.mem_cons, List.not_mem_nil, or_false] at hx
    rcases hx with rfl | rfl | rfl <;> simp
  · simp only [itemLines, List.mem_cons, List.not_mem_nil, or_false] at hx
    rcases hx with rfl | rfl | rfl <;> simp
  · rw [List.mem_singleton.1 hx]
    cases l with
    | rule more => simp
    | block line carriageReturn =>
      cases line <;> simp [BlockLine.html, Handler.element, Family.block]

/-- Only quotes begin with a sign of a quote. -/
theorem head?_text_of_lt (h : 3 < l.rank) : l.text.head? ≠ some '>' ∧ l.text.head? ≠ some '&' := by
  cases l with
  | rule more => simp [text, List.replicate_succ]
  | block line carriageReturn =>
    have hchars (t : Text) (ht : ∀ c ∈ t, isWordChar c ∨ Line.isIndent c) (d : Char)
        (hd : (t ++ if carriageReturn then ['\r'] else []).head? = some d) :
        d ≠ '>' ∧ d ≠ '&' := by
      have hmem := List.mem_of_mem_head? hd
      rcases List.mem_append.1 hmem with hm | hm
      · constructor <;> rintro rfl <;> exact absurd (ht _ hm) (by decide)
      · cases carriageReturn with
        | false => simp at hm
        | true =>
          obtain rfl : d = '\r' := by simpa using hm
          exact ⟨by decide, by decide⟩
    cases line with
    | blank indent hindent =>
      have hhead := hchars indent fun c hc => .inr (hindent c hc)
      exact ⟨fun he => (hhead _ he).1 rfl, fun he => (hhead _ he).2 rfl⟩
    | plain words _ =>
      have hhead := hchars words.text fun c hc => .inl (words.isWordChar_of_mem c hc)
      exact ⟨fun he => (hhead _ he).1 rfl, fun he => (hhead _ he).2 rfl⟩
    | _ => exact absurd h (by simp [rank])

theorem pass_blockquote (o : Options) (ls : List SourceLine) :
    (Table.handling .blockquote Handler.blockquote).pass o (stage o 3 ls) = stage o 4 ls := by
  rw [Table.isPure_blockquote.pass_eq]
  refine stage_succ (fun xs hxs => mapsLines_blockquote.rewriteFrom_ofLines none (by simp) hxs)
    rfl (fun l _ x hx => ?_) (fun l h => ?_) (fun l h => ?_) ls
  · obtain ⟨hangle, hentity⟩ := head?_of_mem_htmlLines hx
    exact Line.blockquote_of_head? hangle hentity
  · cases l with
    | rule more => exact absurd h (by simp [rank])
    | block line carriageReturn =>
      cases line with
      | quote entity words =>
        have hquote : Line.blockquote ((if entity then "&gt;".toList else ['>']) ++ words.text ++
            if carriageReturn then ['\r'] else []) =
            Line.quote (words.text ++ if carriageReturn then ['\r'] else []) := by
          rw [List.append_assoc]
          cases entity <;> rfl
        refine hquote.trans ?_
        rw [Line.quote, trim_append_carriageReturn]
        simp [BlockLine.html, Family.block]
      | _ => exact absurd h (by simp [rank])
  · obtain ⟨hangle, hentity⟩ := head?_text_of_lt h
    exact Line.blockquote_of_head? hangle hentity

theorem pass_horizontalRule (o : Options) (ls : List SourceLine) :
    (Table.rewriting .horizontalRule "\n<hr />").pass o (stage o 4 ls) = stage o 5 ls := by
  rw [Table.isPure_horizontalRule.pass_eq]
  refine stage_succ (fun xs hxs => mapsLines_horizontalRule.rewriteFrom_ofLines none (by simp) hxs)
    rfl (fun l _ x hx => Line.horizontalRule_of_head? (head?_ne (notMem_of_mem_htmlLines hx rfl)))
    (fun l h => ?_)
    (fun l h => Line.horizontalRule_of_head? (head?_ne (notMem_text_of_lt (by simp) h))) ls
  cases l with
  | rule more => exact Line.horizontalRule_replicate more
  | block line carriageReturn => cases line <;> exact absurd h (by simp [rank])

/-! ## What stands inside a line -/

/-- At most one asterisk stands in a line. -/
theorem count_asterisk_le {x : Text} {n : Nat} (hx : x ∈ l.atRank o n) : x.count '*' ≤ 1 := by
  unfold atRank at hx
  split at hx
  · rw [List.count_eq_zero.2 (notMem_of_mem_htmlLines hx rfl)]
    exact Nat.zero_le 1
  · rw [List.mem_singleton.1 hx]
    by_cases hsign : l.sign? = some '*'
    · cases l with
      | rule more => exact absurd hsign (by simp [sign?])
      | block line carriageReturn =>
        cases line with
        | bullet words =>
          have hwords : words.text.count '*' = 0 := List.count_eq_zero.2 (words.notMem (by decide))
          show List.count '*' ('*' :: words.text ++ _) ≤ 1
          rw [List.cons_append, List.count_cons_self, List.count_append, hwords]
          cases carriageReturn <;> decide
        | _ => exact absurd hsign (by simp [sign?])
    · rw [List.count_eq_zero.2 (notMem_text hsign rfl)]
      exact Nat.zero_le 1

/-- No span is found between markers that are made of asterisks or have a character that no line
has. -/
theorem rewriteFrom_delimiter_stage {d : Delimiter} {n : Nat}
    (h : d.markers.all (·.any ['*', '_', '~'].contains)) (ρ : Match → Text) :
    (delimiter d).rewriteFrom ρ none (stage o n ls) = stage o n ls := by
  refine rewriteFrom_delimiter_ofLines ρ none fun m hm x hx => ?_
  obtain ⟨c, hc, hsigns⟩ := List.any_eq_true.1 (List.all_eq_true.1 h m hm)
  have hchar : c = '*' ∨ isBaseChar c = false ∧ c ∉ ['#', '*', '.', '-'] := by
    simp only [List.contains_iff_mem, List.mem_cons, List.not_mem_nil, or_false] at hsigns
    rcases hsigns with rfl | rfl | rfl
    · exact .inl rfl
    · exact .inr (by decide)
    · exact .inr (by decide)
  refine ⟨c, hc, ?_⟩
  simp only [List.mem_cons, List.mem_append, List.mem_flatMap, List.not_mem_nil, or_false] at hx
  rcases hx with rfl | ⟨l, -, hx⟩ | rfl
  · exact Nat.zero_le 1
  · rcases hchar with rfl | ⟨hbase, hsign⟩
    · exact count_asterisk_le hx
    · rw [List.count_eq_zero.2 (notMem_of_mem_atRank hx hbase hsign)]
      exact Nat.zero_le 1
  · exact Nat.zero_le 1

/-- A rule whose words all begin with a character that no line has leaves a document as it is. -/
theorem pass_stage_of_head {r : Rule} {ρ : Options → Match → Text} (h : r.IsPure ρ)
    (hp : r.pattern.finder.IsProper) {c : Char} {m : Text} (hms : r.pattern.OpensWith [c :: m])
    (hc : isBaseChar c = false ∧ c ≠ '\n' ∧ c ∉ ['#', '*', '.', '-']) (n : Nat) :
    r.pass o (stage o n ls) = stage o n ls := by
  refine h.pass_of_notMem hp hms o fun w hw => ⟨c, ?_, notMem_stage hc.1 hc.2.1 hc.2.2⟩
  rw [List.mem_singleton.1 hw]
  exact List.mem_cons_self

/-- The rules before the one for paragraphs take a document to the last but one stage. -/
theorem pass_setting (o : Options) (ls : List SourceLine) :
    Table.setting.pass o (stage o 0 ls) = stage o 5 ls := by
  have himage : (Table.handling .image Handler.image).pass o (stage o 1 ls) = stage o 1 ls :=
    pass_stage_of_head Table.isPure_image isProper_image opensWith_image (by decide) 1
  have hlink : (Table.handling .link Handler.link).pass o (stage o 1 ls) = stage o 1 ls :=
    pass_stage_of_head Table.isPure_link isProper_link opensWith_link (by decide) 1
  have hstrong : (Table.rewriting .strong "<strong>\\2</strong>").pass o (stage o 1 ls) =
      stage o 1 ls := by
    rw [Table.isPure_strong.pass_eq]
    exact rewriteFrom_delimiter_stage rfl _
  have hemphasis : (Table.rewriting .emphasis "<em>\\2</em>").pass o (stage o 1 ls) =
      stage o 1 ls := by
    rw [Table.isPure_emphasis.pass_eq]
    exact rewriteFrom_delimiter_stage rfl _
  have hdeleted : (Table.rewriting .deleted "<del>\\2</del>").pass o (stage o 1 ls) =
      stage o 1 ls := by
    rw [Table.isPure_deleted.pass_eq]
    exact rewriteFrom_delimiter_stage rfl _
  have hquotation : (Table.rewriting .quotation "<q>\\1</q>").pass o (stage o 1 ls) =
      stage o 1 ls :=
    pass_stage_of_head Table.isPure_quotation isProper_quotation opensWith_quotation (by decide) 1
  have hcode : (Table.rewriting .inlineCode "<code>\\1</code>").pass o (stage o 1 ls) =
      stage o 1 ls :=
    pass_stage_of_head Table.isPure_inlineCode isProper_inlineCode opensWith_inlineCode (by decide) 1
  rw [Table.setting]
  simp only [Table.pass_cons, Table.pass_nil, pass_header, himage, hlink, hstrong, hemphasis,
    hdeleted, hquotation, hcode, pass_unorderedItem, pass_orderedItem, pass_blockquote,
    pass_horizontalRule]

/-! ## Paragraphs -/

theorem paragraphLine_of_mem_itemLines {list t x : Text} (hlist : list ∈ Handler.blockNames)
    (hx : x ∈ itemLines list t) : Handler.paragraphLine x = x := by
  have hopening (u : Text) : Handler.beginsBlock ('<' :: (list ++ u)) := by
    simp only [Handler.blockNames, List.mem_map, List.mem_cons, List.not_mem_nil, or_false] at hlist
    obtain ⟨s, hs, rfl⟩ := hlist
    rcases hs with rfl | rfl | rfl | rfl | rfl | rfl | rfl | rfl | rfl | rfl | rfl <;> rfl
  have hclosing (u : Text) : Handler.beginsBlock ('<' :: '/' :: (list ++ u)) := by
    simp only [Handler.blockNames, List.mem_map, List.mem_cons, List.not_mem_nil, or_false] at hlist
    obtain ⟨s, hs, rfl⟩ := hlist
    rcases hs with rfl | rfl | rfl | rfl | rfl | rfl | rfl | rfl | rfl | rfl | rfl <;> rfl
  refine Handler.paragraphLine_of_beginsBlock ?_
  simp only [itemLines, List.mem_cons, List.not_mem_nil, or_false] at hx
  rcases hx with rfl | rfl | rfl
  · rw [Text.trim_tag]
    exact hopening ['>']
  · have hblank : ∀ c ∈ ['\t'], Text.isBlank c := List.all_eq_true.1 rfl
    have htab : Text.trim (['\t'] ++ Handler.element "li".toList t) =
        Handler.element "li".toList t := by
      rw [Text.trim_append_left hblank, Handler.trim_element]
    show Handler.beginsBlock (Text.trim (['\t'] ++ Handler.element "li".toList t)) = true
    rw [htab]
    rfl
  · have htag := Text.trim_tag ('/' :: list)
    rw [List.cons_append, List.cons_append] at htag ⊢
    rw [htag]
    exact hclosing ['>']

/-- What is set is no paragraph. -/
theorem paragraphLine_of_mem_htmlLines {x : Text} (h : l.rank < 5) (hx : x ∈ l.htmlLines o) :
    Handler.paragraphLine x = x := by
  unfold htmlLines at hx
  split at hx
  · exact paragraphLine_of_mem_itemLines (by decide) hx
  · exact paragraphLine_of_mem_itemLines (by decide) hx
  · rename_i hbullet hnumbered
    rw [List.mem_singleton.1 hx]
    refine Handler.paragraphLine_of_beginsBlock ?_
    cases l with
    | rule more =>
      show Handler.beginsBlock (Text.trim ('<' :: "hr /".toList ++ ['>'])) = true
      rw [Text.trim_tag]
      rfl
    | block line carriageReturn =>
      cases line with
      | blank indent _ => exact absurd h (by simp [rank])
      | plain words _ => exact absurd h (by simp [rank])
      | heading signs _ _ _ _ words =>
        rw [html_block, BlockLine.html, Handler.trim_element]
        rfl
      | bullet words => exact absurd rfl (hbullet words carriageReturn)
      | numbered digits _ words => exact absurd rfl (hnumbered digits _ words carriageReturn)
      | quote entity words =>
        rw [html_block, BlockLine.html, Family.block, Handler.trim_element]
        rfl

theorem pass_wrapping (o : Options) (ls : List SourceLine) :
    Table.wrapping.pass o (stage o 5 ls) = stage o 6 ls := by
  rw [Table.isPure_wrapping.pass_eq]
  refine stage_succ (fun xs hxs => rewriteFrom_paragraph _ rfl rfl (by simp) hxs) rfl
    (fun l h x hx => paragraphLine_of_mem_htmlLines h hx) (fun l h => ?_) (fun l h => ?_) ls
  · cases l with
    | rule more => exact absurd h (by simp [rank])
    | block line carriageReturn =>
      cases line with
      | blank indent hindent =>
        have hblank : ∀ c ∈ indent, Text.isBlank c := by
          intro c hc
          have hc' := hindent c hc
          simp only [Line.isIndent, Bool.or_eq_true, beq_iff_eq] at hc'
          rcases hc' with rfl | rfl <;> rfl
        have htrim : Text.trim (text (block (.blank indent hindent) carriageReturn)) = [] :=
          (trim_append_carriageReturn indent carriageReturn).trans (Text.trim_eq_nil_iff.2 hblank)
        unfold Handler.paragraphLine
        rw [htrim]
        rfl
      | plain words hne =>
        have htrim : Text.trim (text (block (.plain words hne) carriageReturn)) =
            Text.trim words.text := trim_append_carriageReturn words.text carriageReturn
        have hhead : (Text.trim words.text).head? ≠ some '<' := fun hhead =>
          absurd (words.isWordChar_of_mem_trim (List.mem_of_mem_head? hhead)) (by decide)
        rw [← htrim] at hhead hne
        rw [Handler.paragraphLine_of_head? hhead hne, htrim]
        rfl
      | _ => exact absurd h (by simp [rank])
  · refine absurd h (Nat.not_lt.2 ?_)
    unfold rank
    split <;> decide

end SourceLine

end Markdown
