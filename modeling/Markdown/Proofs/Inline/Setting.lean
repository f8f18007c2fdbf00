import Markdown.Proofs.Inline.Source
import Markdown.Proofs.Pattern.Enclosed
import Markdown.Proofs.Pattern.Lines
import Markdown.Proofs.Pattern.Outlook

/-!
# Setting the spans

The rules for spans set one kind of them after another. A line stands between two of them as
`stage n` says: the spans of a rank below `n` are set, with the markers of addresses hidden, and the
others are as they are written.
-/

namespace Markdown

open Pattern

/-! ## Characters -/

/-- The characters of the HTML of a span, code excepted. -/
def isTagChar (c : Char) : Bool :=
  isWordChar c || isAddressChar c && c != '_' ||
    ['<', '>', '/', '\'', '=', '\x7b', '^', '\x7d'].contains c

/-- The characters of a span, code excepted. -/
def isSpanChar (c : Char) : Bool :=
  isWordChar c || isAddressChar c ||
    ['*', '_', '~', ':', '"', '[', ']', '(', ')', '!'].contains c

theorem isTagChar_of_isWordChar {c : Char} (h : isWordChar c) : isTagChar c := by
  rw [isTagChar, h, Bool.true_or, Bool.true_or]

theorem isSpanChar_of_isWordChar {c : Char} (h : isWordChar c) : isSpanChar c := by
  rw [isSpanChar, h, Bool.true_or, Bool.true_or]

theorem isSpanChar_of_isAddressChar {c : Char} (h : isAddressChar c) : isSpanChar c := by
  rw [isSpanChar, h, Bool.or_true, Bool.true_or]

theorem isTagChar_of_mem_hide {u : Address} {c : Char} (h : c ∈ Url.hide u.text) :
    isTagChar c := by
  have htoken : ∀ d ∈ Url.underscoreToken, isTagChar d := List.all_eq_true.1 rfl
  obtain ⟨d, hd, hc⟩ := List.mem_flatMap.1 h
  have haddress := u.isAddressChar_of_mem d hd
  unfold Url.hideChar at hc
  split at hc
  · exact htoken c hc
  · rename_i hunderscore
    split at hc
    · rename_i hasterisk
      rw [hasterisk] at haddress
      exact absurd haddress (by decide)
    · obtain rfl : c = d := by simpa using hc
      simp [isTagChar, haddress, hunderscore]

namespace Span

/-- The HTML of a span with the markers of addresses hidden. -/
def hidden : Span → Text :=
  htmlWith Url.hide Url.hide

/-- Which of the rules for spans sets a span. -/
def rank : Span → Nat
  | image _ _ => 0
  | link _ _ => 1
  | strong _ _ => 2
  | emphasis _ _ => 3
  | deleted _ => 4
  | quotation _ => 5
  | code _ => 6

/-- A span before the rule of rank `n`. -/
def atRank (n : Nat) (s : Span) : Text :=
  if s.rank < n then s.hidden else s.text

variable {s : Span} {n : Nat} {c : Char}

theorem isTagChar_of_mem_hidden (hs : s.rank ≠ 6) (h : c ∈ s.hidden) : isTagChar c := by
  have hwords (x : Phrase) (h : c ∈ x.text) : isTagChar c :=
    isTagChar_of_isWordChar (x.isWordChar_of_mem c h)
  have helement (name : Text) (hname : name.all isTagChar) (x : Phrase)
      (h : c ∈ Handler.element name x.text) : isTagChar c := by
    have hsigns : ∀ d ∈ ['<', '>', '/'], isTagChar d := List.all_eq_true.1 rfl
    rcases Handler.mem_element h with h | h | h
    · exact hsigns c h
    · exact List.all_eq_true.1 hname c h
    · exact hwords x h
  have haddress (a b d : Text) (hall : [a, b, d].all (·.all isTagChar)) (u : Address) (x : Phrase)
      (h : c ∈ a ++ Url.hide u.text ++ b ++ x.text ++ d) : isTagChar c := by
    have hliteral {t : Text} (ht : t ∈ [a, b, d]) (h : c ∈ t) : isTagChar c :=
      List.all_eq_true.1 (List.all_eq_true.1 hall t ht) c h
    simp only [List.mem_append] at h
    rcases h with (((h | h) | h) | h) | h
    · exact hliteral (by simp) h
    · exact isTagChar_of_mem_hide h
    · exact hliteral (by simp) h
    · exact hwords x h
    · exact hliteral (by simp) h
  cases s with
  | strong _ x => exact helement "strong".toList (by decide) x h
  | emphasis _ x => exact helement "em".toList (by decide) x h
  | deleted x => exact helement "del".toList (by decide) x h
  | quotation x => exact helement ['q'] (by decide) x h
  | code _ => exact absurd rfl hs
  | link x u => exact haddress _ _ _ (by decide) u x h
  | image x u => exact haddress _ _ _ (by decide) u x h

/-- The characters that emphasis, deletion or quotation puts around its words. -/
def signs : Span → Text
  | strong underscores _ | emphasis underscores _ => [markerChar underscores]
  | deleted _ => ['~']
  | quotation _ => [':', '"']
  | _ => []

theorem mem_text_of_two_le (hs : 2 ≤ s.rank) (hs' : s.rank ≠ 6) (h : c ∈ s.text) :
    isWordChar c ∨ c ∈ s.signs := by
  have henclosed (opening closing : Text) (x : Phrase) (hopen : ∀ d ∈ opening, d ∈ s.signs)
      (hclose : ∀ d ∈ closing, d ∈ s.signs) (h : c ∈ opening ++ x.text ++ closing) :
      isWordChar c ∨ c ∈ s.signs := by
    rcases List.mem_append.1 h with h | h
    · rcases List.mem_append.1 h with h | h
      · exact .inr (hopen c h)
      · exact .inl (x.isWordChar_of_mem c h)
    · exact .inr (hclose c h)
  cases s with
  | strong underscores x =>
    let marker := [markerChar underscores, markerChar underscores]
    exact henclosed marker marker x (by simp [marker, signs]) (by simp [marker, signs]) h
  | emphasis underscores x =>
    let marker := [markerChar underscores]
    exact henclosed marker marker x (by simp [marker, signs]) (by simp [marker, signs]) h
  | deleted x => exact henclosed ['~', '~'] ['~', '~'] x (by simp [signs]) (by simp [signs]) h
  | quotation x => exact henclosed [':', '"'] ['"', ':'] x (by simp [signs]) (by simp [signs]) h
  | code _ => exact absurd rfl hs'
  | link _ _ => exact absurd hs (by simp [rank])
  | image _ _ => exact absurd hs (by simp [rank])

theorem isSpanChar_of_mem_signs (h : c ∈ s.signs) : isSpanChar c := by
  have hmarker (underscores : Bool) : isSpanChar (markerChar underscores) := by
    cases underscores <;> decide
  cases s with
  | strong underscores x => exact List.mem_singleton.1 h ▸ hmarker underscores
  | emphasis underscores x => exact List.mem_singleton.1 h ▸ hmarker underscores
  | deleted x => exact List.all_eq_true.1 (show ['~'].all isSpanChar by decide) c h
  | quotation x => exact List.all_eq_true.1 (show [':', '"'].all isSpanChar by decide) c h
  | _ => exact absurd h List.not_mem_nil

theorem isSpanChar_of_mem_text (hs : s.rank ≠ 6) (h : c ∈ s.text) : isSpanChar c := by
  have hliteral (t : Text) (ht : t.all isSpanChar) (h : c ∈ t) : isSpanChar c :=
    List.all_eq_true.1 ht c h
  have hreference (opening : Text) (hopen : opening.all isSpanChar) (x : Phrase) (u : Address)
      (h : c ∈ opening ++ x.text ++ [']', '('] ++ u.text ++ [')']) : isSpanChar c := by
    simp only [List.mem_append] at h
    rcases h with (((h | h) | h) | h) | h
    · exact hliteral opening hopen h
    · exact isSpanChar_of_isWordChar (x.isWordChar_of_mem c h)
    · exact hliteral [']', '('] (by decide) h
    · exact isSpanChar_of_isAddressChar (u.isAddressChar_of_mem c h)
    · exact hliteral [')'] (by decide) h
  by_cases hrank : 2 ≤ s.rank
  · exact (mem_text_of_two_le hrank hs h).elim isSpanChar_of_isWordChar isSpanChar_of_mem_signs
  · cases s with
    | link x u => exact hreference ['['] (by decide) x u h
    | image x u => exact hreference ['!', '['] (by decide) x u h
    | _ => exact absurd hrank (by simp [rank])

theorem exists_code (hs : s.rank = 6) : ∃ c, s = code c := by
  cases s with
  | code c => exact ⟨c, rfl⟩
  | _ => exact absurd hs (by simp [rank])

theorem notMem_hidden (hs : s.rank ≠ 6) (hc : isTagChar c = false) : c ∉ s.hidden := by
  intro h
  rw [isTagChar_of_mem_hidden hs h] at hc
  exact absurd hc (by simp)

theorem notMem_text (hs : s.rank ≠ 6) (hc : isSpanChar c = false) : c ∉ s.text := by
  intro h
  rw [isSpanChar_of_mem_text hs h] at hc
  exact absurd hc (by simp)

/-- What is set begins with a tag. -/
theorem exists_hidden_eq (s : Span) : ∃ t, s.hidden = '<' :: t := by
  cases s <;> exact ⟨_, rfl⟩

end Span

/-! ## Stages -/

/-- What stands behind a span before the rule of rank `n`, up to the end of the document. -/
def behind (n : Nat) (w : Words) (ss : List (Span × Words)) : Text :=
  spanned (Span.atRank n) w ss ++ ['\n']

/-- A line before the rule of rank `n`, a line feed on either side. -/
def stage (n : Nat) (w : Words) (ss : List (Span × Words)) : Text :=
  '\n' :: behind n w ss

theorem spanned_cons (f : Span → Text) (w : Words) (s : Span × Words) (ss : List (Span × Words)) :
    spanned f w (s :: ss) = w.text ++ (f s.1 ++ spanned f s.2 ss) := by
  simp [spanned]

theorem behind_cons (n : Nat) (w : Words) (s : Span × Words) (ss : List (Span × Words)) :
    behind n w (s :: ss) = w.text ++ (s.1.atRank n ++ behind n s.2 ss) := by
  simp [behind, spanned_cons]

namespace Span

variable {n : Nat} {s : Span} {r : Text}

theorem hidden_of_lt (h : s.rank < n) : s.atRank n = s.hidden :=
  if_pos h

theorem text_of_le (h : n ≤ s.rank) : s.atRank n = s.text :=
  if_neg (Nat.not_lt.2 h)

/-! ### Outside of code and tags -/

theorem isOutside_hidden (hs : s.rank ≠ 6) (hr : Outlook.IsOutside (.ofText r)) :
    Outlook.IsOutside (.ofText (s.hidden ++ r)) := by
  obtain ⟨t, ht⟩ := exists_hidden_eq s
  have hbacktick : '`' ∉ s.hidden := notMem_hidden hs (by decide)
  rw [ht] at hbacktick ⊢
  exact hr.tag hbacktick

theorem isOutside_text (s : Span) (hr : Outlook.IsOutside (.ofText r)) :
    Outlook.IsOutside (.ofText (s.text ++ r)) := by
  by_cases hs : s.rank = 6
  · obtain ⟨c, rfl⟩ := exists_code hs
    rw [text_code, List.append_assoc, List.append_assoc]
    refine Outlook.IsOutside.code (fun d hd => c.notMem d ?_) hr
    simp only [List.mem_cons, List.not_mem_nil, or_false] at hd
    rcases hd with rfl | rfl | rfl | rfl <;> decide
  · refine hr.append fun d hd => notMem_text hs ?_
    simp only [List.mem_cons, List.not_mem_nil, or_false] at hd
    rcases hd with rfl | rfl <;> decide

end Span

/-- A delimiter may open behind every span, as long as code is not set. -/
theorem isOutside_behind {n : Nat} (hn : n ≤ 6) (w : Words) (ss : List (Span × Words)) :
    Outlook.IsOutside (.ofText (behind n w ss)) := by
  have hwords (w : Words) : ∀ c ∈ ['`', '>'], c ∉ w.text := by
    intro c hc
    simp only [List.mem_cons, List.not_mem_nil, or_false] at hc
    rcases hc with rfl | rfl
    · exact w.notMem (by decide)
    · exact w.notMem (by decide)
  induction ss generalizing w with
  | nil =>
    have hlf : Outlook.IsOutside (.ofText (['\n'] ++ [])) :=
      .append (by simp) ⟨Outlook.isPaired_atEnd, rfl⟩
    rw [behind, spanned, List.flatMap_nil, List.append_nil]
    exact hlf.append (hwords w)
  | cons s ss ih =>
    rw [behind_cons]
    refine .append (hwords w) ?_
    by_cases hs : s.1.rank < n
    · rw [Span.hidden_of_lt hs]
      exact Span.isOutside_hidden (by omega) (ih s.2)
    · rw [Span.text_of_le (Nat.not_lt.1 hs)]
      exact Span.isOutside_text s.1 (ih s.2)

/-! ### Brackets -/

/-- No closing bracket stands before the next opening one. -/
def IsOpenEnded (t : Text) : Prop :=
  ']' ∉ t.takeWhile (· != '[')

theorem IsOpenEnded.append {t u : Text} (hu : ∀ c ∈ ['[', ']'], c ∉ u) (h : IsOpenEnded t) :
    IsOpenEnded (u ++ t) := by
  have hopening : ∀ c ∈ u, c != '[' := fun c hc => by
    have hne : c ≠ '[' := fun he => hu '[' (by simp) (he ▸ hc)
    simpa using hne
  rw [IsOpenEnded, List.takeWhile_append_of_pos hopening, List.mem_append, not_or]
  exact ⟨hu ']' (by simp), h⟩

theorem isOpenEnded_behind {n : Nat} (hn : n ≤ 1) (w : Words) (ss : List (Span × Words)) :
    IsOpenEnded (behind n w ss) := by
  have hbrackets {t : Text} (hopening : '[' ∉ t) (hclosing : ']' ∉ t) : ∀ c ∈ ['[', ']'], c ∉ t := by
    intro c hc
    simp only [List.mem_cons, List.not_mem_nil, or_false] at hc
    rcases hc with rfl | rfl
    · exact hopening
    · exact hclosing
  have hwords (w : Words) : ∀ c ∈ ['[', ']'], c ∉ w.text :=
    hbrackets (w.notMem (by decide)) (w.notMem (by decide))
  induction ss generalizing w with
  | nil =>
    rw [behind, spanned, List.flatMap_nil, List.append_nil]
    exact IsOpenEnded.append (hwords w) (show IsOpenEnded ['\n'] by unfold IsOpenEnded; decide)
  | cons s ss ih =>
    rw [behind_cons]
    refine .append (hwords w) ?_
    by_cases hs : s.1.rank < n
    · rw [Span.hidden_of_lt hs]
      have hcode : s.1.rank ≠ 6 := by omega
      exact (ih s.2).append
        (hbrackets (Span.notMem_hidden hcode (by decide)) (Span.notMem_hidden hcode (by decide)))
    rw [Span.text_of_le (Nat.not_lt.1 hs)]
    obtain ⟨s, w'⟩ := s
    by_cases hcode : s.rank = 6
    · obtain ⟨c, rfl⟩ := Span.exists_code hcode
      exact (ih w').append (hbrackets (by simp [c.notMem '[' (by decide)])
        (by simp [c.notMem ']' (by decide)]))
    by_cases hmarked : 2 ≤ s.rank
    · have hsigns : '[' ∉ s.signs ∧ ']' ∉ s.signs := by
        cases s <;> simp [Span.signs, Span.markerChar] <;> split <;> decide
      refine (ih w').append (hbrackets (fun h => ?_) fun h => ?_)
      · exact (Span.mem_text_of_two_le hmarked hcode h).elim (by decide) hsigns.1
      · exact (Span.mem_text_of_two_le hmarked hcode h).elim (by decide) hsigns.2
    · cases s with
      | link x u => simp [IsOpenEnded]
      | image x u => simp [IsOpenEnded]
      | _ => exact absurd hmarked (by simp [Span.rank])

/-! ### From one stage to the next -/

/-- What the rule of rank `n` makes of a line, if it sets the spans of that rank and leaves the
others. -/
theorem stage_succ {p : Pattern} {ρ : Match → Text} {n : Nat} (hp : p.finder.IsProper)
    {ms : List Text} (hms : p.OpensWith ms)
    (hwords : ∀ m ∈ ms, ∃ c m', m = c :: m' ∧ isWordChar c = false ∧ c ≠ '\n')
    (hset : ∀ s w ss, Span.rank s = n → p.Turns ρ (behind n w ss) s.text s.hidden)
    (hdone : ∀ s r, Span.rank s < n → p.Turns ρ r s.hidden s.hidden)
    (hlater : ∀ s w ss, n < Span.rank s → w.text ≠ [] → p.Turns ρ (behind n w ss) s.text s.text)
    (w : Words) {ss : List (Span × Words)} (hss : ∀ s ∈ ss, s.2.text ≠ []) :
    p.rewriteFrom ρ none (stage n w ss) = stage (n + 1) w ss := by
  have hstay {t : Text} (ht : ∀ c, isWordChar c = false → c ≠ '\n' → c ∉ t) (r : Text) :
      p.Turns ρ r t t :=
    .of_notMem hp hms ρ r fun m hm => by
      obtain ⟨c, m', rfl, hc, hlf⟩ := hwords m hm
      exact ⟨c, m', rfl, ht c hc hlf⟩
  have hlf (r : Text) : p.Turns ρ r ['\n'] ['\n'] := hstay (fun c _ hc => by simpa using hc) r
  have hbehind : p.Turns ρ [] (behind n w ss) (behind (n + 1) w ss) := by
    induction ss generalizing w with
    | nil => exact .append (hstay (fun c hc _ => by simpa [spanned] using w.notMem hc) _) (hlf [])
    | cons s ss ih =>
      have hspan : p.Turns ρ (behind n s.2 ss) (s.1.atRank n) (s.1.atRank (n + 1)) := by
        rcases Nat.lt_trichotomy s.1.rank n with h | h | h
        · rw [Span.hidden_of_lt h, Span.hidden_of_lt (Nat.lt_succ_of_lt h)]
          exact hdone s.1 _ h
        · rw [Span.text_of_le (Nat.le_of_eq h.symm), Span.hidden_of_lt (by omega)]
          exact hset s.1 s.2 ss h
        · rw [Span.text_of_le (Nat.le_of_lt h), Span.text_of_le h]
          exact hlater s.1 s.2 ss h (hss s (by simp))
      rw [behind_cons, behind_cons]
      refine .append (hstay (fun c hc _ => w.notMem hc) _) (.append ?_ ?_)
      · rw [List.append_nil]
        exact hspan
      · exact ih s.2 fun s' hs' => hss s' (by simp [hs'])
  exact Turns.rewriteFrom_eq hp (.append (hlf _) hbehind) none

end Markdown
