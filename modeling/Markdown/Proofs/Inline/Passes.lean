import Markdown.Proofs.Inline.Setting
import Markdown.Proofs.Passes

/-!
# The passes over a line with spans

Every rule for spans takes a line from one stage to the next. References end at the first bracket
that can end them, since brackets come in order; the markers that stand in code open nothing, since a
single backtick is ahead on their own span.
-/

namespace Markdown

open Pattern

namespace Span

variable {s : Span} {n : Nat} {c : Char}

/-! ## Signs of other kinds -/

theorem notMem_text_of_two_le (hs : 2 ≤ s.rank) (hcode : s.rank ≠ 6) (hc : isWordChar c = false)
    (hsign : c ∉ s.signs) : c ∉ s.text := by
  intro h
  rcases mem_text_of_two_le hs hcode h with h | h
  · rw [hc] at h
    exact absurd h (by simp)
  · exact hsign h

/-- Code and the other spans behind references have no opening bracket. -/
theorem bracket_notMem_text (hs : 2 ≤ s.rank) : '[' ∉ s.text := by
  by_cases hcode : s.rank = 6
  · obtain ⟨x, rfl⟩ := exists_code hcode
    simp [x.notMem '[' (by decide)]
  · refine notMem_text_of_two_le hs hcode (by decide) ?_
    cases s <;> simp [signs, markerChar] <;> split <;> decide

/-- Emphasis is the only kind that asterisks and underscores are left of behind strong emphasis. -/
theorem marker_notMem_text (hs : 4 ≤ s.rank) (hcode : s.rank ≠ 6) : '*' ∉ s.text ∧ '_' ∉ s.text := by
  have hsigns : '*' ∉ s.signs ∧ '_' ∉ s.signs := by
    cases s with
    | strong _ _ => exact absurd hs (by simp [rank])
    | emphasis _ _ => exact absurd hs (by simp [rank])
    | _ => simp [signs]
  exact ⟨notMem_text_of_two_le (by omega) hcode (by decide) hsigns.1,
    notMem_text_of_two_le (by omega) hcode (by decide) hsigns.2⟩

theorem getLast?_htmlWith (f g : Text → Text) (s : Span) :
    (s.htmlWith f g).getLast? = some '>' := by
  have helement (name x : Text) : (Handler.element name x).getLast? = some '>' := by
    rw [Handler.element, List.getLast?_concat]
  cases s with
  | strong _ x => exact helement _ x.text
  | emphasis _ x => exact helement _ x.text
  | deleted x => exact helement _ x.text
  | quotation x => exact helement _ x.text
  | code c => exact helement _ c.text
  | link x u =>
    rw [htmlWith_link, List.getLast?_append]
    rfl
  | image x u =>
    rw [htmlWith_image, List.getLast?_append]
    rfl

end Span

/-! ## References -/

section References

variable {n : Nat} {w : Words} {ss : List (Span × Words)}

/-- A reference is found in front of words and spans. -/
theorem turns_reference (source opening : Text) (hn : n ≤ 1) (ρ : Match → Text) (x : Phrase)
    (u : Address) :
    (referring source opening).Turns ρ (behind n w ss)
      (opening ++ x.text ++ [']', '('] ++ u.text ++ [')'])
      (ρ ⟨opening ++ x.text ++ [']', '('] ++ u.text ++ [')'], [some x.text, some u.text]⟩) := by
  have href : IsReference x.text u.text :=
    ⟨x.ne_nil, u.ne_nil, x.notMem (by decide), u.notMem (by decide)⟩
  have hend : IsOpenEnded (u.text ++ ')' :: behind n w ss) := by
    rw [List.append_cons]
    refine (isOpenEnded_behind hn w ss).append fun c hc => ?_
    simp only [List.mem_cons, List.not_mem_nil, or_false] at hc
    rcases hc with rfl | rfl
    · simp [u.notMem (c := '[') rfl]
    · simp [u.notMem (c := ']') rfl]
  have hsplit : opening ++ x.text ++ [']', '('] ++ u.text ++ [')'] =
      referenceText opening x.text u.text := by
    simp [referenceText]
  rw [hsplit]
  exact .of_found (isProper_referring source opening) ρ fun b =>
    finder_referring source opening b (behind n w ss) href (x.notMem (by decide)) hend

theorem pass_image (o : Options) (w : Words) (hss : ∀ s ∈ ss, s.2.text ≠ []) :
    (Table.handling .image Handler.image).pass o (stage 0 w ss) = stage 1 w ss := by
  rw [Table.isPure_image.pass_eq]
  refine stage_succ isProper_image opensWith_image (fun m hm => ?_) (fun s w ss hs => ?_)
    (fun s r hs => absurd hs (Nat.not_lt_zero _)) (fun s w ss hs _ => ?_) w hss
  · exact ⟨'!', ['['], List.mem_singleton.1 hm, by decide, by decide⟩
  · cases s with
    | image x u => exact turns_reference _ ['!', '['] (Nat.zero_le 1) _ x u
    | _ => exact absurd hs (by simp [Span.rank])
  · refine .of_isFree_word isProper_image opensWith_image _ _ ?_
    by_cases hrank : 2 ≤ s.rank
    · refine Text.isFree_pair (Span.bracket_notMem_text hrank) fun hlast => ?_
      by_cases hcode : s.rank = 6
      · obtain ⟨x, rfl⟩ := Span.exists_code hcode
        rw [Span.text_code, List.getLast?_concat] at hlast
        exact absurd hlast (by decide)
      · refine Span.notMem_text_of_two_le hrank hcode (by decide) ?_ (List.mem_of_getLast? hlast)
        cases s <;> simp [Span.signs, Span.markerChar] <;> split <;> decide
    · cases s with
      | link x u =>
        exact Text.isFree_of_notMem _
          (by simp [x.notMem (c := '!') rfl, u.notMem (c := '!') rfl])
      | image x u => exact absurd hs (by simp [Span.rank])
      | _ => exact absurd hrank (by simp [Span.rank])

theorem pass_link (o : Options) (w : Words) (hss : ∀ s ∈ ss, s.2.text ≠ []) :
    (Table.handling .link Handler.link).pass o (stage 1 w ss) = stage 2 w ss := by
  have hfree {t : Text} (ht : '[' ∉ t) (ρ : Match → Text) (r : Text) : link.Turns ρ r t t :=
    .of_notMem_word isProper_link opensWith_link ρ r ht
  rw [Table.isPure_link.pass_eq]
  refine stage_succ isProper_link opensWith_link (fun m hm => ?_) (fun s w ss hs => ?_)
    (fun s r hs => hfree (Span.notMem_hidden (by omega) (by decide)) _ r)
    (fun s w ss hs _ => hfree (Span.bracket_notMem_text hs) _ _) w hss
  · exact ⟨'[', [], List.mem_singleton.1 hm, by decide, by decide⟩
  · cases s with
    | link x u => exact turns_reference _ ['['] (Nat.le_refl 1) _ x u
    | _ => exact absurd hs (by simp [Span.rank])

end References

/-! ## Markers -/

section Markers

variable {n : Nat} {w : Words} {ss : List (Span × Words)}

/-- A phrase between two markers is found, if what is behind it is outside of code and tags. -/
theorem turns_marked {ms : List Text} (hms : [] ∉ ms) (ρ : Match → Text) (x : Phrase) (c : Char)
    (marker : Text) {r : Text} (hr : Outlook.IsOutside (.ofText r)) (hc : isWordChar c = false)
    (hmarker : ∀ d ∈ ['`', '>', '\n'], d ∉ c :: marker)
    (hfirst : ∀ r, ms.find? (·.isPrefixOf (c :: marker ++ x.text ++ r)) = some (c :: marker)) :
    (delimiter (.ofMarkers ms)).Turns ρ r (c :: marker ++ x.text ++ c :: marker)
      (ρ ⟨c :: marker ++ x.text ++ c :: marker, [some (c :: marker), some x.text]⟩) := by
  have hopen : (Outlook.ofText (x.text ++ c :: marker ++ r)).mayOpen := by
    refine (hr.append fun d hd => ?_).mayOpen
    have hd' : isWordChar d = false ∧ d ∈ ['`', '>', '\n'] := by
      simp only [List.mem_cons, List.not_mem_nil, or_false] at hd
      rcases hd with rfl | rfl <;> decide
    simp [x.notMem hd'.1, hmarker d hd'.2]
  refine .of_found (isProper_finder_delimiter _) ρ fun b => ?_
  refine finder_delimiter _ ?_ hopen (Text.isFree_of_notMem marker (x.notMem hc))
    (x.notMem (by decide)) (hmarker '\n' (by simp))
  rw [Delimiter.markers_ofMarkers hms, List.append_assoc]
  exact hfirst _

theorem opensWith_strong : strong.OpensWith [['*', '*'], ['_', '_']] := by
  have h := opensWith_delimiter (.ofMarkers [['*', '*'], ['_', '_']])
  rwa [Delimiter.markers_ofMarkers (by simp)] at h

theorem opensWith_emphasis : emphasis.OpensWith [['*'], ['_']] := by
  have h := opensWith_delimiter (.ofMarkers [['*'], ['_']])
  rwa [Delimiter.markers_ofMarkers (by simp)] at h

theorem opensWith_deleted : deleted.OpensWith [['~', '~']] := by
  have h := opensWith_delimiter (.ofMarkers [['~', '~']])
  rwa [Delimiter.markers_ofMarkers (by simp)] at h

/-! ### The three rules -/

section Rules

variable {r t : Text} (ρ : Match → Text)

theorem turns_strong_of_notMem (ht : '*' ∉ t ∧ '_' ∉ t) : strong.Turns ρ r t t := by
  refine .of_notMem (isProper_finder_delimiter _) opensWith_strong ρ r fun m hm => ?_
  simp only [List.mem_cons, List.not_mem_nil, or_false] at hm
  rcases hm with rfl | rfl
  · exact ⟨'*', ['*'], rfl, ht.1⟩
  · exact ⟨'_', ['_'], rfl, ht.2⟩

theorem turns_emphasis_of_notMem (ht : '*' ∉ t ∧ '_' ∉ t) : emphasis.Turns ρ r t t := by
  refine .of_notMem (isProper_finder_delimiter _) opensWith_emphasis ρ r fun m hm => ?_
  simp only [List.mem_cons, List.not_mem_nil, or_false] at hm
  rcases hm with rfl | rfl
  · exact ⟨'*', [], rfl, ht.1⟩
  · exact ⟨'_', [], rfl, ht.2⟩

theorem turns_deleted_of_notMem (ht : '~' ∉ t) : deleted.Turns ρ r t t :=
  .of_notMem_word (isProper_finder_delimiter _) opensWith_deleted ρ r ht

variable (underscores : Bool) (x : Phrase) (hr : Outlook.IsOutside (.ofText r))

include hr

theorem turns_strong : strong.Turns (fun m => Handler.element "strong".toList (m.group 2)) r
    (Span.strong underscores x).text (Span.strong underscores x).hidden := by
  cases underscores with
  | true =>
    exact turns_marked (by simp) (fun m => Handler.element "strong".toList (m.group 2)) x '_' ['_'] hr
      (by decide) (by simp) fun r => rfl
  | false =>
    exact turns_marked (by simp) (fun m => Handler.element "strong".toList (m.group 2)) x '*' ['*'] hr
      (by decide) (by simp) fun r => rfl

theorem turns_emphasis : emphasis.Turns (fun m => Handler.element "em".toList (m.group 2)) r
    (Span.emphasis underscores x).text (Span.emphasis underscores x).hidden := by
  cases underscores with
  | true =>
    exact turns_marked (by simp) (fun m => Handler.element "em".toList (m.group 2)) x '_' [] hr
      (by decide) (by simp) fun r => rfl
  | false =>
    exact turns_marked (by simp) (fun m => Handler.element "em".toList (m.group 2)) x '*' [] hr
      (by decide) (by simp) fun r => rfl

theorem turns_deleted : deleted.Turns (fun m => Handler.element "del".toList (m.group 2)) r
    (Span.deleted x).text (Span.deleted x).hidden :=
  turns_marked (by simp) (fun m => Handler.element "del".toList (m.group 2)) x '~' ['~'] hr
    (by decide) (by simp) fun r => rfl

end Rules

/-- The markers in code open nothing. -/
theorem turns_codeSpan {ms : List Text} (hms : ∀ m ∈ ms, m ≠ [] ∧ '`' ∉ m) (hn : n ≤ 6)
    (ρ : Match → Text) (x : Code) :
    (delimiter (.ofMarkers ms)).Turns ρ (behind n w ss) (Span.code x).text (Span.code x).text := by
  refine turns_code (fun m hm => ?_) ρ (x.notMem '`' (by decide))
    (isOutside_behind hn w ss).toIsPaired
  rw [Delimiter.markers_ofMarkers fun h => (hms _ h).1 rfl] at hm
  exact (hms m hm).2

/-- A marker of emphasis is none of strong emphasis, since a phrase or words stand behind it. -/
theorem turns_strong_emphasis (ρ : Match → Text) (underscores : Bool) (x : Phrase) {r : Text}
    (hr : ∃ a r', r = a :: r' ∧ isWordChar a) :
    strong.Turns ρ r (Span.emphasis underscores x).text (Span.emphasis underscores x).text := by
  have hp : strong.finder.IsProper := isProper_finder_delimiter _
  have hword {a : Char} (ha : isWordChar a) (c : Char) (t : Text) :
      ∀ m ∈ [['*', '*'], ['_', '_']], ¬ m <+: c :: a :: t := by
    intro m hm hpre
    simp only [List.mem_cons, List.not_mem_nil, or_false] at hm
    rcases hm with rfl | rfl
    · exact absurd ((List.cons_prefix_cons.1 (List.cons_prefix_cons.1 hpre).2).1 ▸ ha) (by decide)
    · exact absurd ((List.cons_prefix_cons.1 (List.cons_prefix_cons.1 hpre).2).1 ▸ ha) (by decide)
  have hopening (r : Text) : strong.Turns ρ r ([Span.markerChar underscores] ++ x.text)
      ([Span.markerChar underscores] ++ x.text) := by
    obtain ⟨a, t, hx⟩ := List.exists_cons_of_ne_nil x.ne_nil
    have ha : isWordChar a := x.isWordChar_of_mem a (by simp [hx])
    refine .of_isFree hp opensWith_strong ρ r fun m hm => ?_
    have hphrase : Text.IsFree m x.text := by
      simp only [List.mem_cons, List.not_mem_nil, or_false] at hm
      rcases hm with rfl | rfl
      · exact Text.isFree_of_notMem _ (x.notMem (by decide))
      · exact Text.isFree_of_notMem _ (x.notMem (by decide))
    refine ⟨fun r => ?_, hphrase⟩
    show ¬ m <+: Span.markerChar underscores :: (x.text ++ r)
    rw [hx]
    exact hword ha _ _ m hm
  have hclosing : strong.Turns ρ r [Span.markerChar underscores] [Span.markerChar underscores] := by
    obtain ⟨a, r', rfl, ha⟩ := hr
    refine .of_none hp ρ fun b y c z hyz => opensWith_strong b _ ?_
    cases y with
    | nil =>
      obtain ⟨rfl, rfl⟩ := List.cons.inj hyz
      exact hword ha _ _
    | cons d y => exact absurd (List.cons.inj hyz).2 (by simp)
  rw [Span.text_emphasis]
  exact (hopening _).append hclosing

theorem exists_behind_eq (n : Nat) (hw : w.text ≠ []) (ss : List (Span × Words)) :
    ∃ a r, behind n w ss = a :: r ∧ isWordChar a := by
  obtain ⟨a, t, hw⟩ := List.exists_cons_of_ne_nil hw
  have ha : isWordChar a := w.isWordChar_of_mem a (by simp [hw])
  exact ⟨a, _, by rw [behind, spanned, hw, List.cons_append, List.cons_append], ha⟩

theorem pass_strong (o : Options) (w : Words) (hss : ∀ s ∈ ss, s.2.text ≠ []) :
    (Table.rewriting .strong "<strong>\\2</strong>").pass o (stage 2 w ss) = stage 3 w ss := by
  rw [Table.isPure_strong.pass_eq]
  refine stage_succ (isProper_finder_delimiter _) opensWith_strong (fun m hm => ?_)
    (fun s w ss hs => ?_)
    (fun s r hs => turns_strong_of_notMem _ ⟨Span.notMem_hidden (by omega) (by decide),
      Span.notMem_hidden (by omega) (by decide)⟩)
    (fun s w ss hs hw => ?_) w hss
  · simp only [List.mem_cons, List.not_mem_nil, or_false] at hm
    rcases hm with rfl | rfl
    · exact ⟨'*', ['*'], rfl, by decide, by decide⟩
    · exact ⟨'_', ['_'], rfl, by decide, by decide⟩
  · cases s with
    | strong underscores x => exact turns_strong underscores x (isOutside_behind (by decide) w ss)
    | _ => exact absurd hs (by simp [Span.rank])
  · by_cases hcode : s.rank = 6
    · obtain ⟨x, rfl⟩ := Span.exists_code hcode
      exact turns_codeSpan (by decide) (by decide) _ x
    by_cases hrank : 4 ≤ s.rank
    · exact turns_strong_of_notMem _ (Span.marker_notMem_text hrank hcode)
    · cases s with
      | emphasis underscores x =>
        exact turns_strong_emphasis _ underscores x (exists_behind_eq 2 hw ss)
      | _ => simp [Span.rank] at hs hrank

theorem pass_emphasis (o : Options) (w : Words) (hss : ∀ s ∈ ss, s.2.text ≠ []) :
    (Table.rewriting .emphasis "<em>\\2</em>").pass o (stage 3 w ss) = stage 4 w ss := by
  rw [Table.isPure_emphasis.pass_eq]
  refine stage_succ (isProper_finder_delimiter _) opensWith_emphasis (fun m hm => ?_)
    (fun s w ss hs => ?_)
    (fun s r hs => turns_emphasis_of_notMem _ ⟨Span.notMem_hidden (by omega) (by decide),
      Span.notMem_hidden (by omega) (by decide)⟩)
    (fun s w ss hs hw => ?_) w hss
  · simp only [List.mem_cons, List.not_mem_nil, or_false] at hm
    rcases hm with rfl | rfl
    · exact ⟨'*', [], rfl, by decide, by decide⟩
    · exact ⟨'_', [], rfl, by decide, by decide⟩
  · cases s with
    | emphasis underscores x => exact turns_emphasis underscores x (isOutside_behind (by decide) w ss)
    | _ => exact absurd hs (by simp [Span.rank])
  · by_cases hcode : s.rank = 6
    · obtain ⟨x, rfl⟩ := Span.exists_code hcode
      exact turns_codeSpan (by decide) (by decide) _ x
    · exact turns_emphasis_of_notMem _ (Span.marker_notMem_text hs hcode)

theorem pass_deleted (o : Options) (w : Words) (hss : ∀ s ∈ ss, s.2.text ≠ []) :
    (Table.rewriting .deleted "<del>\\2</del>").pass o (stage 4 w ss) = stage 5 w ss := by
  rw [Table.isPure_deleted.pass_eq]
  refine stage_succ (isProper_finder_delimiter _) opensWith_deleted (fun m hm => ?_)
    (fun s w ss hs => ?_)
    (fun s r hs => turns_deleted_of_notMem _ (Span.notMem_hidden (by omega) (by decide)))
    (fun s w ss hs hw => ?_) w hss
  · exact ⟨'~', ['~'], List.mem_singleton.1 hm, by decide, by decide⟩
  · cases s with
    | deleted x => exact turns_deleted x (isOutside_behind (by decide) w ss)
    | _ => exact absurd hs (by simp [Span.rank])
  · cases s with
    | code x => exact turns_codeSpan (by decide) (by decide) _ x
    | quotation x => exact turns_deleted_of_notMem _ (by simp [x.notMem (c := '~') rfl])
    | _ => exact absurd hs (by simp [Span.rank])

end Markers

/-! ## Quotations and code -/

section Enclosed

variable {ss : List (Span × Words)}

theorem pass_quotation (o : Options) (w : Words) (hss : ∀ s ∈ ss, s.2.text ≠ []) :
    (Table.rewriting .quotation "<q>\\1</q>").pass o (stage 5 w ss) = stage 6 w ss := by
  have hfree {t : Text} (ht : '"' ∉ t) (hlast : t.getLast? ≠ some ':') (ρ : Match → Text)
      (r : Text) : quotation.Turns ρ r t t :=
    .of_isFree_word isProper_quotation opensWith_quotation ρ r (Text.isFree_pair ht hlast)
  rw [Table.isPure_quotation.pass_eq]
  refine stage_succ isProper_quotation opensWith_quotation (fun m hm => ?_) (fun s w ss hs => ?_)
    (fun s r hs => hfree (Span.notMem_hidden (by omega) (by decide))
      (by simp [Span.hidden, Span.getLast?_htmlWith]) _ r)
    (fun s w ss hs hw => ?_) w hss
  · exact ⟨':', ['"'], List.mem_singleton.1 hm, by decide, by decide⟩
  · cases s with
    | quotation x =>
      have hline : ∀ d ∈ x.text, Regex.CharSet.notLineFeed.contains d :=
        contains_notLineFeed_of_notMem (x.notMem (by decide))
      exact turns_enclosed ":\"(.*?)\":".toList [':', '"'] [':'] (by simp)
        (fun m => Handler.element ['q'] (m.group 1)) _ hline (x.notMem (by decide))
    | _ => exact absurd hs (by simp [Span.rank])
  · cases s with
    | code x =>
      refine hfree (by simp [x.notMem '"' (by decide)]) ?_ _ _
      rw [Span.text_code, List.getLast?_concat]
      decide
    | _ => exact absurd hs (by simp [Span.rank])

theorem pass_inlineCode (o : Options) (w : Words) (hss : ∀ s ∈ ss, s.2.text ≠ []) :
    (Table.rewriting .inlineCode "<code>\\1</code>").pass o (stage 6 w ss) = stage 7 w ss := by
  rw [Table.isPure_inlineCode.pass_eq]
  refine stage_succ isProper_inlineCode opensWith_inlineCode (fun m hm => ?_)
    (fun s w ss hs => ?_) (fun s r hs => ?_) (fun s w ss hs hw => ?_) w hss
  · exact ⟨'`', [], List.mem_singleton.1 hm, by decide, by decide⟩
  · obtain ⟨x, rfl⟩ := Span.exists_code hs
    have hline : ∀ d ∈ x.text, Regex.CharSet.notLineFeed.contains d :=
      contains_notLineFeed_of_notMem (x.notMem '\n' (by decide))
    exact turns_enclosed "`(.*?)`".toList ['`'] [] (by simp)
      (fun m => Handler.element "code".toList (m.group 1)) _ hline (x.notMem '`' (by decide))
  · exact .of_notMem_word isProper_inlineCode opensWith_inlineCode _ r
      (Span.notMem_hidden (by omega) (by decide))
  · cases s <;> exact absurd hs (by simp [Span.rank])

end Enclosed

end Markdown
