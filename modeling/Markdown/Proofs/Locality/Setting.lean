import Markdown.Proofs.Inline.Wrapping
import Markdown.Proofs.Locality.Source

/-!
# Setting the spans of blocks

In front of the blocks of a document, the guard of a rule believes to be inside of a tag exactly if
`insideTag` says so, and each of the three rules with delimiters takes a document of blocks from one
stage to the next.
-/

namespace Markdown

open Pattern

/-! ## Characters -/

/-- The characters of markers stand neither in words nor in tags. -/
theorem isOther_of_marker {c : Char} (hc : c ∈ ['*', '_', '~']) :
    isWordChar c = false ∧ c ∉ ['<', '>', '/'] := by
  simp only [List.mem_cons, List.not_mem_nil, or_false] at hc
  rcases hc with rfl | rfl | rfl <;> decide

namespace Span

variable {s : Span} {c : Char}

/-- Spans with delimiters are written with words and the characters of markers. -/
theorem notMem_text_of_isDelimited (hs : s.isDelimited) (hc : isWordChar c = false)
    (hmarker : c ∉ ['*', '_', '~']) : c ∉ s.text := by
  obtain ⟨htwo, hfour⟩ := rank_of_isDelimited hs
  refine notMem_text_of_two_le htwo (by omega) hc fun hsign => hmarker ?_
  cases s with
  | strong underscores x => cases underscores <;> simp_all [signs, markerChar]
  | emphasis underscores x => cases underscores <;> simp_all [signs, markerChar]
  | deleted x => simp_all [signs]
  | _ => simp [isDelimited] at hs

/-- Their HTML has words and the signs of tags. -/
theorem notMem_hidden_of_isDelimited (hs : s.isDelimited) (hc : isWordChar c = false)
    (hsign : c ∉ ['<', '>', '/']) : c ∉ s.hidden := by
  have helement (name : Text) (hname : name.all isWordChar) (x : Phrase) :
      c ∉ Handler.element name x.text := by
    intro h
    rcases Handler.mem_element h with h | h | h
    · exact hsign h
    · rw [List.all_eq_true.1 hname c h] at hc
      exact absurd hc (by simp)
    · exact x.notMem hc h
  cases s with
  | strong _ x => exact helement "strong".toList rfl x
  | emphasis _ x => exact helement "em".toList rfl x
  | deleted x => exact helement "del".toList rfl x
  | _ => simp [isDelimited] at hs

/-- A tag is closed on the line. -/
theorem closingTagAhead_hidden (hs : s.isDelimited) (r : Text) :
    (Outlook.ofText (s.hidden ++ r)).closingTagAhead := by
  have helement (name : Text) (hname : '\n' ∉ name) (x : Phrase)
      (hclosing : (Outlook.ofText ("</".toList ++ name ++ ['>'] ++ r)).closingTagAhead) :
      (Outlook.ofText (Handler.element name x.text ++ r)).closingTagAhead := by
    have hsplit : Handler.element name x.text ++ r =
        ('<' :: name ++ ['>'] ++ x.text) ++ ("</".toList ++ name ++ ['>'] ++ r) := by
      simp [Handler.element]
    rw [hsplit]
    exact Outlook.closingTagAhead_append (by simp [hname, x.notMem (c := '\n') (by decide)]) hclosing
  cases s with
  | strong _ x => exact helement "strong".toList (by decide) x rfl
  | emphasis _ x => exact helement "em".toList (by decide) x rfl
  | deleted x => exact helement "del".toList (by decide) x rfl
  | _ => simp [isDelimited] at hs

end Span

/-! ## What the guards see -/

theorem isDelimited_of_mem_flagSpans {inside : Nat → Bool} {ss : List (Span × Words)}
    (h : ∀ s ∈ ss, s.1.isDelimited) : ∀ s ∈ flagSpans inside ss, s.span.isDelimited := by
  induction ss with
  | nil => exact fun s hs => absurd hs List.not_mem_nil
  | cons s ss ih =>
    intro t ht
    rcases List.mem_cons.1 ht with rfl | ht
    · exact h s (by simp)
    · exact ih (fun s hs => h s (List.mem_cons_of_mem _ hs)) t ht

theorem spannedAt_cons (n : Nat) (w : Words) (s : FlaggedSpan) (ss : List FlaggedSpan) :
    spannedAt n w (s :: ss) = w.text ++ (s.atRank n ++ spannedAt n s.words ss) := by
  simp [spannedAt]

section Guards

variable {n : Nat} {w : Words} {c : Char} {r : Text} {s : FlaggedSpan} {ss : List FlaggedSpan}

theorem FlaggedSpan.notMem_atRank (hs : s.span.isDelimited) (hc : isWordChar c = false)
    (hsign : c ∉ ['<', '>', '/']) (hmarker : c ∉ ['*', '_', '~']) : c ∉ s.atRank n := by
  unfold atRank
  split
  · exact Span.notMem_hidden_of_isDelimited hs hc hsign
  · exact Span.notMem_text_of_isDelimited hs hc hmarker

theorem notMem_spannedAt (hss : ∀ s ∈ ss, s.span.isDelimited) (hc : isWordChar c = false)
    (hsign : c ∉ ['<', '>', '/']) (hmarker : c ∉ ['*', '_', '~']) : c ∉ spannedAt n w ss := by
  intro h
  rcases List.mem_append.1 h with h | h
  · exact w.notMem hc h
  · obtain ⟨s, hs, h⟩ := List.mem_flatMap.1 h
    rcases List.mem_append.1 h with h | h
    · exact s.notMem_atRank (hss s hs) hc hsign hmarker h
    · exact s.words.notMem hc h

/-- What looks past words and markers sees the first span of a line that is set, or what stands
behind the line. -/
theorem look_spannedAt (look : Text → Bool) {v : Bool}
    (hpast : ∀ u t : Text, (∀ c ∈ ['\n', '/', '<', '>'], c ∉ u) → look (u ++ t) = look t)
    (hhidden : ∀ (s : Span) (t : Text), s.isDelimited → look (s.hidden ++ t) = v)
    (hss : ∀ s ∈ ss, s.span.isDelimited) (r : Text) :
    look (spannedAt n w ss ++ r) = if ss.any (·.isSetBefore n) then v else look r := by
  have hsign {c : Char} (hc : c ∈ ['\n', '/', '<', '>']) :
      isWordChar c = false ∧ c ∉ ['*', '_', '~'] := by
    simp only [List.mem_cons, List.not_mem_nil, or_false] at hc
    rcases hc with rfl | rfl | rfl | rfl <;> decide
  have hwords (w : Words) (t : Text) : look (w.text ++ t) = look t :=
    hpast w.text t fun _ hc => w.notMem (hsign hc).1
  induction ss generalizing w with
  | nil =>
    rw [spannedAt, List.flatMap_nil, List.append_nil, hwords]
    rfl
  | cons s ss ih =>
    have ih' := ih (w := s.words) fun t ht => hss t (List.mem_cons_of_mem s ht)
    have hs := hss s (by simp)
    rw [spannedAt_cons, List.append_assoc, hwords, List.append_assoc, List.any_cons,
      FlaggedSpan.atRank]
    cases hset : s.isSetBefore n with
    | true =>
      rw [if_pos rfl, hhidden s.span _ hs]
      rfl
    | false =>
      rw [if_neg (by simp), hpast, ih']
      · rfl
      · exact fun _ hc => Span.notMem_text_of_isDelimited hs (hsign hc).1 (hsign hc).2

/-- In front of a line, the guard looks past the line if it has no tag. -/
theorem insideTag_spannedAt (hss : ∀ s ∈ ss, s.span.isDelimited) (r : Text) :
    (Outlook.ofText (spannedAt n w ss ++ r)).insideTag =
      if ss.any (·.isSetBefore n) then false else (Outlook.ofText r).insideTag := by
  refine look_spannedAt (fun t => (Outlook.ofText t).insideTag) (fun u t hu => ?_) (fun s t _ => ?_)
    hss r
  · exact Outlook.insideTag_append_of_notMem (fun c hc => hu c (List.mem_cons_of_mem _ hc)) t
  · obtain ⟨u, hu⟩ := Span.exists_hidden_eq s
    rw [hu]
    rfl

/-- A line has a closing tag if a span of it is set. -/
theorem closingTagAhead_spannedAt (hss : ∀ s ∈ ss, s.span.isDelimited) (r : Text) :
    (Outlook.ofText (spannedAt n w ss ++ r)).closingTagAhead =
      if ss.any (·.isSetBefore n) then true else (Outlook.ofText r).closingTagAhead := by
  have hsubset : ['\n', '<'] ⊆ ['\n', '/', '<', '>'] := by decide
  exact look_spannedAt (fun t => (Outlook.ofText t).closingTagAhead)
    (fun u t hu => Outlook.closingTagAhead_append_of_notMem (fun c hc => hu c (hsubset hc)) t)
    (fun s t hs => Span.closingTagAhead_hidden hs t) hss r

/-- In front of the blocks of a document, the guard believes to be inside of a tag as `insideTag`
says. -/
theorem insideTag_blocksBehind {bs : List FlaggedBlock}
    (hbs : ∀ b ∈ bs, ∀ s ∈ b.spans, s.span.isDelimited) :
    (Outlook.ofText (blocksBehind n bs)).insideTag = insideTag n bs := by
  induction bs with
  | nil => rfl
  | cons b bs ih =>
    have hspans := hbs b (by simp)
    have ih' := ih fun b hb => hbs b (List.mem_cons_of_mem _ hb)
    have hlf : (Outlook.ofText (blocksBehind n bs)).closingTagAhead = false := by
      cases bs <;> rfl
    have hsplit : blocksBehind n (b :: bs) =
        ['\n', '\n'] ++ ((if b.quoted then ['>', ' '] else []) ++
          (b.content n ++ blocksBehind n bs)) := by
      simp [blocksBehind, FlaggedBlock.lineAt]
    rw [hsplit, Outlook.insideTag_append_of_notMem (by simp), insideTag]
    cases hquoted : b.quoted with
    | false =>
      rw [if_neg (by simp), List.nil_append, FlaggedBlock.content, insideTag_spannedAt hspans, ih']
    | true =>
      have hblank (t : Text) : (Outlook.ofText (' ' :: t)).insideTag = (Outlook.ofText t).insideTag :=
        Outlook.insideTag_append_of_notMem (u := [' ']) (by simp) t
      have hblank' (t : Text) : (Outlook.ofText (' ' :: t)).closingTagAhead =
          (Outlook.ofText t).closingTagAhead :=
        Outlook.closingTagAhead_append_of_notMem (u := [' ']) (by simp) t
      rw [if_pos rfl, List.cons_append, List.singleton_append, Outlook.insideTag_angle_eq, hblank,
        hblank', FlaggedBlock.content, closingTagAhead_spannedAt hspans,
        insideTag_spannedAt hspans, hlf, ih']
      split <;> simp

end Guards

/-! ## Rules with delimiters -/

/-- In front of a place inside of a tag, no delimiter of a text is found. -/
theorem turns_of_insideTag {ms : List Text} (hms : ∀ m ∈ ms, m ≠ [] ∧ ∀ c ∈ m, isWordChar c = false)
    (ρ : Match → Text) {t r : Text} (hslash : '/' ∉ t) (hangle : '<' ∉ t)
    (hr : ∃ a r', r = a :: r' ∧ isWordChar a) (hinside : (Outlook.ofText r).insideTag) :
    (delimiter (.ofMarkers ms)).Turns ρ r t t := by
  refine .of_none (isProper_finder_delimiter _) ρ fun b x c y hxy => ?_
  refine finder_delimiter_of_not_mayOpen fun m hm hpre => ?_
  rw [Delimiter.markers_ofMarkers fun h => (hms _ h).1 rfl] at hm
  have hy : c :: y <:+ t := ⟨x, hxy.symm⟩
  rcases List.prefix_or_prefix_of_prefix hpre (List.prefix_append (c :: y) r) with ⟨z, hz⟩ | ⟨z, hz⟩
  · have hsuffix : z <:+ t := (List.suffix_append m z).trans (hz ▸ hy)
    rw [← hz, List.append_assoc, List.drop_left]
    exact Outlook.mayOpen_of_insideTag (Outlook.insideTag_append_of_insideTag
      (fun h => hslash (hsuffix.subset h)) (fun h => hangle (hsuffix.subset h)) hinside)
  · cases z with
    | nil =>
      rw [← hz, List.append_nil, List.drop_left]
      exact Outlook.mayOpen_of_insideTag hinside
    | cons d z =>
      -- a marker does not run into the words behind the text
      obtain ⟨a, r', rfl, ha⟩ := hr
      rw [← hz, List.prefix_append_right_inj, List.cons_prefix_cons] at hpre
      rw [← hpre.1, (hms m hm).2 d (by simp [← hz])] at ha
      exact absurd ha (by simp)

/-- A rule that sets the spans of rank `n` between some markers. -/
structure IsRuleOfRank (n : Nat) (ms : List Text) (ρ : Match → Text) : Prop where
  ne_nil : ∀ m ∈ ms, m ≠ []
  mem_marker : ∀ m ∈ ms, ∀ c ∈ m, c ∈ ['*', '_', '~']
  turns : ∀ (s : Span) (r : Text), s.rank = n → Outlook.IsOutside (.ofText r) →
    (delimiter (.ofMarkers ms)).Turns ρ r s.text s.hidden
  earlier : ∀ (s : Span) (r : Text), 2 < s.rank → s.rank < n →
    (delimiter (.ofMarkers ms)).Turns ρ r s.text s.text
  later : ∀ (s : Span) (r : Text), s.isDelimited → n < s.rank →
    (∃ a r', r = a :: r' ∧ isWordChar a) → (delimiter (.ofMarkers ms)).Turns ρ r s.text s.text

namespace IsRuleOfRank

variable {n : Nat} {ms : List Text} {ρ : Match → Text} {inside : Nat → Bool} {r t : Text}
  {ss : List (Span × Words)}

theorem isWordChar_eq_false (h : IsRuleOfRank n ms ρ) :
    ∀ m ∈ ms, m ≠ [] ∧ ∀ c ∈ m, isWordChar c = false :=
  fun m hm => ⟨h.ne_nil m hm, fun c hc => (isOther_of_marker (h.mem_marker m hm c hc)).1⟩

/-- What has no marker stays. -/
theorem turns_of_notMem (h : IsRuleOfRank n ms ρ) (ht : ∀ c ∈ ['*', '_', '~'], c ∉ t) (r : Text) :
    (delimiter (.ofMarkers ms)).Turns ρ r t t := by
  have hopens := opensWith_delimiter (.ofMarkers ms)
  rw [Delimiter.markers_ofMarkers fun hm => h.ne_nil _ hm rfl] at hopens
  refine .of_notMem (isProper_finder_delimiter _) hopens ρ r fun m hm => ?_
  obtain ⟨c, m', rfl⟩ := List.exists_cons_of_ne_nil (h.ne_nil m hm)
  exact ⟨c, m', rfl, ht c (h.mem_marker _ hm c (by simp))⟩

theorem turns_words (h : IsRuleOfRank n ms ρ) (w : Words) (r : Text) :
    (delimiter (.ofMarkers ms)).Turns ρ r w.text w.text :=
  h.turns_of_notMem (fun _ hc => w.notMem (isOther_of_marker hc).1) r

theorem turns_hidden (h : IsRuleOfRank n ms ρ) {s : Span} (hs : s.isDelimited) (r : Text) :
    (delimiter (.ofMarkers ms)).Turns ρ r s.hidden s.hidden :=
  h.turns_of_notMem (fun _ hc => Span.notMem_hidden_of_isDelimited hs (isOther_of_marker hc).1
    (isOther_of_marker hc).2) r

/-- The rule takes a span in front of words to the next stage, if the guard lets it find the span
exactly if the span is set, and strong emphasis is set. -/
theorem turns_atRank (h : IsRuleOfRank n ms ρ) {s : FlaggedSpan} (hs : s.span.isDelimited)
    (hr : ∃ a r', r = a :: r' ∧ isWordChar a) (hpaired : Outlook.IsPaired (.ofText r))
    (hguard : s.span.rank = n → (Outlook.ofText r).insideTag = !s.isSet)
    (hstrong : s.span.rank = 2 → s.isSet) :
    (delimiter (.ofMarkers ms)).Turns ρ r (s.atRank n) (s.atRank (n + 1)) := by
  cases hset : s.isSet with
  | true =>
    have hat (m : Nat) : s.atRank m = if s.span.rank < m then s.span.hidden else s.span.text := by
      simp [FlaggedSpan.atRank, FlaggedSpan.isSetBefore, hset]
    rw [hat, hat]
    rcases Nat.lt_trichotomy s.span.rank n with hlt | heq | hgt
    · rw [if_pos hlt, if_pos (Nat.lt_succ_of_lt hlt)]
      exact h.turns_hidden hs r
    · rw [if_neg (by omega), if_pos (by omega)]
      exact h.turns s.span r heq ⟨hpaired, by rw [hguard heq, hset]; rfl⟩
    · rw [if_neg (by omega), if_neg (by omega)]
      exact h.later s.span r hs hgt hr
  | false =>
    have hat (m : Nat) : s.atRank m = s.span.text := by
      simp [FlaggedSpan.atRank, FlaggedSpan.isSetBefore, hset]
    rw [hat, hat]
    rcases Nat.lt_trichotomy s.span.rank n with hlt | heq | hgt
    · have htwo := (Span.rank_of_isDelimited hs).1
      have hne : s.span.rank ≠ 2 := fun hrank => by simp [hstrong hrank] at hset
      exact h.earlier s.span r (by omega) hlt
    · exact turns_of_insideTag h.isWordChar_eq_false ρ
        (Span.notMem_text_of_isDelimited hs (by decide) (by decide))
        (Span.notMem_text_of_isDelimited hs (by decide) (by decide)) hr
        (by rw [hguard heq, hset]; rfl)
    · exact h.later s.span r hs hgt hr

/-- The rule takes a line to the next stage, if the guard is deceived as `inside` says and not by
strong emphasis. -/
theorem turns_spannedAt (h : IsRuleOfRank n ms ρ) (hinside : inside 2 = false)
    (hss : ∀ s ∈ ss, s.1.isDelimited ∧ s.2.text ≠ []) (w : Words)
    (hpaired : Outlook.IsPaired (.ofText r)) (hr : (Outlook.ofText r).insideTag = inside n) :
    (delimiter (.ofMarkers ms)).Turns ρ r (spannedAt n w (flagSpans inside ss))
      (spannedAt (n + 1) w (flagSpans inside ss)) := by
  induction ss generalizing w with
  | nil =>
    simp only [flagSpans, spannedAt, List.flatMap_nil, List.append_nil]
    exact h.turns_words w r
  | cons s ss ih =>
    obtain ⟨hs, hwords⟩ := hss s (by simp)
    have hss' : ∀ t ∈ ss, t.1.isDelimited ∧ t.2.text ≠ [] := fun t ht =>
      hss t (List.mem_cons_of_mem s ht)
    have hspans : ∀ t ∈ flagSpans inside ss, t.span.isDelimited :=
      isDelimited_of_mem_flagSpans fun t ht => (hss' t ht).1
    have hlater : ∃ a r', spannedAt n s.2 (flagSpans inside ss) ++ r = a :: r' ∧ isWordChar a := by
      obtain ⟨a, t, ht⟩ := List.exists_cons_of_ne_nil hwords
      exact ⟨a, _, by rw [spannedAt, ht]; rfl, s.2.isWordChar_of_mem a (by simp [ht])⟩
    have hpaired' : Outlook.IsPaired (.ofText (spannedAt n s.2 (flagSpans inside ss) ++ r)) :=
      Outlook.isPaired_append (notMem_spannedAt hspans (by decide) (by decide) (by decide)) hpaired
    rw [flagSpans, spannedAt_cons, spannedAt_cons]
    refine .append (h.turns_words w _) (.append ?_ (ih hss' s.2))
    refine h.turns_atRank hs hlater hpaired' (fun hrank => ?_) fun hrank => ?_
    · rw [insideTag_spannedAt hspans, hr, ← hrank]
      cases (flagSpans inside ss).any (·.isSetBefore s.1.rank) <;> simp
    · have hnot : inside s.1.rank = false := by rw [← hinside, ← hrank]
      simp [hnot]

end IsRuleOfRank

theorem isRuleOfRank_strong : IsRuleOfRank 2 [['*', '*'], ['_', '_']]
    fun m => Handler.element "strong".toList (m.group 2) where
  ne_nil := by simp
  mem_marker := by simp
  turns s r hs hr := by
    cases s with
    | strong underscores x => exact turns_strong underscores x hr
    | _ => exact absurd hs (by simp [Span.rank])
  earlier s r hlt hlt' := by omega
  later s r hs hlt hr := by
    cases s with
    | emphasis underscores x => exact turns_strong_emphasis _ underscores x hr
    | deleted x =>
      exact turns_strong_of_notMem _ (Span.marker_notMem_text (by simp [Span.rank]) (by simp [Span.rank]))
    | strong _ _ => exact absurd hlt (by simp [Span.rank])
    | _ => exact absurd hs (by simp [Span.isDelimited])

theorem isRuleOfRank_emphasis : IsRuleOfRank 3 [['*'], ['_']]
    fun m => Handler.element "em".toList (m.group 2) where
  ne_nil := by simp
  mem_marker := by simp
  turns s r hs hr := by
    cases s with
    | emphasis underscores x => exact turns_emphasis underscores x hr
    | _ => exact absurd hs (by simp [Span.rank])
  earlier s r hlt hlt' := by omega
  later s r hs hlt hr := by
    have hfour := (Span.rank_of_isDelimited hs).2
    exact turns_emphasis_of_notMem _ (Span.marker_notMem_text (by omega) (by omega))

theorem isRuleOfRank_deleted : IsRuleOfRank 4 [['~', '~']]
    fun m => Handler.element "del".toList (m.group 2) where
  ne_nil := by simp
  mem_marker := by simp
  turns s r hs hr := by
    cases s with
    | deleted x => exact turns_deleted x hr
    | _ => exact absurd hs (by simp [Span.rank])
  earlier s r hlt hlt' := by
    cases s with
    | emphasis underscores x =>
      refine turns_deleted_of_notMem _ (Span.notMem_text_of_two_le (by simp [Span.rank])
        (by simp [Span.rank]) (by decide) ?_)
      cases underscores <;> simp [Span.signs, Span.markerChar]
    | _ => simp [Span.rank] at hlt hlt'
  later s r hs hlt hr := by
    have hfour := (Span.rank_of_isDelimited hs).2
    omega

/-! ## Documents of blocks -/

section Documents

variable {n : Nat} {ms : List Text} {ρ : Match → Text} {c : Char} {bs : List FlaggedBlock}

/-- All spans of some blocks have delimiters. -/
def AreDelimited (bs : List FlaggedBlock) : Prop :=
  ∀ b ∈ bs, ∀ s ∈ b.spans, s.span.isDelimited

theorem areDelimited_flagBlocks (bs : List Block) : AreDelimited (flagBlocks bs) := by
  induction bs with
  | nil => exact fun b hb => absurd hb List.not_mem_nil
  | cons b bs ih =>
    exact List.forall_mem_cons.2 ⟨isDelimited_of_mem_flagSpans b.line.isDelimited_of_mem, ih⟩

/-- In front of strong emphasis, no tag has been set. -/
theorem insideTag_two (hbs : AreDelimited bs) : insideTag 2 bs = false := by
  induction bs with
  | nil => rfl
  | cons b bs ih =>
    have hnone : ¬ b.spans.any (·.isSetBefore 2) := by
      intro h
      obtain ⟨s, hs, hset⟩ := List.any_eq_true.1 h
      have htwo := (Span.rank_of_isDelimited (hbs b (by simp) s hs)).1
      simp only [FlaggedSpan.isSetBefore, Bool.and_eq_true, decide_eq_true_eq] at hset
      omega
    rw [insideTag, if_neg hnone, ih fun b hb => hbs b (List.mem_cons_of_mem _ hb)]

theorem FlaggedBlock.notMem_lineAt {b : FlaggedBlock} (hb : ∀ s ∈ b.spans, s.span.isDelimited)
    (hc : isWordChar c = false) (hsign : c ∉ ['<', '>', '/']) (hmarker : c ∉ ['*', '_', '~']) :
    c ∉ b.lineAt n := by
  intro h
  rcases List.mem_append.1 h with h | h
  · split at h
    · simp only [List.mem_cons, List.not_mem_nil, or_false] at h
      rcases h with rfl | rfl
      · exact hsign (by simp)
      · exact absurd hc (by decide)
    · exact absurd h List.not_mem_nil
  · exact notMem_spannedAt hb hc hsign hmarker h

theorem notMem_blocksBehind (hbs : AreDelimited bs) (hc : isWordChar c = false)
    (hsign : c ∉ ['<', '>', '/']) (hmarker : c ∉ ['*', '_', '~']) (hlf : c ≠ '\n') :
    c ∉ blocksBehind n bs := by
  intro h
  rcases List.mem_append.1 h with h | h
  · obtain ⟨b, hb, h⟩ := List.mem_flatMap.1 h
    simp only [List.mem_cons, hlf, false_or] at h
    exact FlaggedBlock.notMem_lineAt (hbs b hb) hc hsign hmarker h
  · exact hlf (List.mem_singleton.1 h)

theorem isPaired_blocksBehind (hbs : AreDelimited bs) :
    Outlook.IsPaired (.ofText (blocksBehind n bs)) := by
  have h := Outlook.isPaired_append (t := []) (notMem_blocksBehind (n := n) hbs (c := '`') (by decide)
    (by decide) (by decide) (by decide)) Outlook.isPaired_atEnd
  rwa [List.append_nil] at h

/-- The rule takes a block in front of others to the next stage. -/
theorem IsRuleOfRank.turns_lineAt (h : IsRuleOfRank n ms ρ) (b : Block) (hbs : AreDelimited bs) :
    (delimiter (.ofMarkers ms)).Turns ρ (blocksBehind n bs) ((flagBlock b bs).lineAt n)
      ((flagBlock b bs).lineAt (n + 1)) := by
  refine .append (h.turns_of_notMem ?_ _) ?_
  · intro c hc
    simp only [List.mem_cons, List.not_mem_nil, or_false] at hc
    split <;> rcases hc with rfl | rfl | rfl <;> decide
  · exact h.turns_spannedAt (insideTag_two hbs)
      (fun s hs => ⟨b.line.isDelimited_of_mem s hs, b.line.ne_nil s hs⟩) b.line.first
      (isPaired_blocksBehind hbs) (insideTag_blocksBehind hbs)

theorem IsRuleOfRank.turns_blocksBehind (h : IsRuleOfRank n ms ρ) (bs : List Block) :
    (delimiter (.ofMarkers ms)).Turns ρ [] (blocksBehind n (flagBlocks bs))
      (blocksBehind (n + 1) (flagBlocks bs)) := by
  induction bs with
  | nil =>
    have hlf (n : Nat) : blocksBehind n (flagBlocks []) = ['\n'] := rfl
    rw [hlf, hlf]
    exact h.turns_of_notMem (by simp) []
  | cons b bs ih =>
    have hsplit (n : Nat) : blocksBehind n (flagBlocks (b :: bs)) =
        ['\n', '\n'] ++ ((flagBlock b (flagBlocks bs)).lineAt n ++ blocksBehind n (flagBlocks bs)) := by
      simp [blocksBehind, flagBlocks]
    rw [hsplit, hsplit]
    refine .append (h.turns_of_notMem (by simp) _) (.append ?_ ih)
    rw [List.append_nil]
    exact h.turns_lineAt b (areDelimited_flagBlocks bs)

/-- The rule takes a document of blocks to the next stage. -/
theorem IsRuleOfRank.rewriteFrom_blocksAt (h : IsRuleOfRank n ms ρ) (b : Block) (bs : List Block) :
    (delimiter (.ofMarkers ms)).rewriteFrom ρ none
        (blocksAt n (flagBlock b (flagBlocks bs)) (flagBlocks bs)) =
      blocksAt (n + 1) (flagBlock b (flagBlocks bs)) (flagBlocks bs) := by
  have hline := h.turns_lineAt b (areDelimited_flagBlocks bs)
  refine Turns.rewriteFrom_eq (isProper_finder_delimiter _)
    (.append (.append (h.turns_of_notMem (t := ['\n']) (by simp) _) ?_) (h.turns_blocksBehind bs)) none
  rw [List.append_nil]
  exact hline

theorem pass_strong_blocksAt (o : Options) (b : Block) (bs : List Block) :
    (Table.rewriting .strong "<strong>\\2</strong>").pass o
        (blocksAt 2 (flagBlock b (flagBlocks bs)) (flagBlocks bs)) =
      blocksAt 3 (flagBlock b (flagBlocks bs)) (flagBlocks bs) := by
  rw [Table.isPure_strong.pass_eq]
  exact isRuleOfRank_strong.rewriteFrom_blocksAt b bs

theorem pass_emphasis_blocksAt (o : Options) (b : Block) (bs : List Block) :
    (Table.rewriting .emphasis "<em>\\2</em>").pass o
        (blocksAt 3 (flagBlock b (flagBlocks bs)) (flagBlocks bs)) =
      blocksAt 4 (flagBlock b (flagBlocks bs)) (flagBlocks bs) := by
  rw [Table.isPure_emphasis.pass_eq]
  exact isRuleOfRank_emphasis.rewriteFrom_blocksAt b bs

theorem pass_deleted_blocksAt (o : Options) (b : Block) (bs : List Block) :
    (Table.rewriting .deleted "<del>\\2</del>").pass o
        (blocksAt 4 (flagBlock b (flagBlocks bs)) (flagBlocks bs)) =
      blocksAt 5 (flagBlock b (flagBlocks bs)) (flagBlocks bs) := by
  rw [Table.isPure_deleted.pass_eq]
  exact isRuleOfRank_deleted.rewriteFrom_blocksAt b bs

end Documents

end Markdown
