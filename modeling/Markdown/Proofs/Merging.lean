import Markdown.Proofs.Conservation

/-!
# Merging and tokens

Merging takes out what stands between two lists, so that a token can come about from the beginning
of one in front of the end of a list (a stump). If the braces of the text are hidden, all braces are
those of tokens, and no rule makes a stump; then merging makes no token either
(`Renderer.not_mergingForges`).
-/

namespace Markdown

open Text

/-! ## Stumps -/

/-- The beginning of a token in front of the end of a list. -/
def IsStump (z : Text) : Prop :=
  ∃ ds u, IsDigits ds ∧ u ≠ [] ∧ u <+: token ds ∧ u ≠ token ds ∧ ∃ e ∈ listEnds, z = u ++ e

variable {z : Text}

/-- A stump has an opening brace in front, and at most two closing ones. -/
theorem IsStump.shape (hz : IsStump z) :
    ∃ u, ∃ e ∈ listEnds, z = '\x7b' :: u ++ e ∧
      (∀ c ∈ u, c = '\x7b' ∨ c = '\x7d' ∨ c.isDigit) ∧ z.count '\x7d' < 3 := by
  obtain ⟨ds, u, hds, hne, ⟨v, hv⟩, htoken, e, he, rfl⟩ := hz
  have hchars : ∀ c ∈ u, c = '\x7b' ∨ c = '\x7d' ∨ c.isDigit := by
    intro c hc
    have hm : c ∈ token ds := hv ▸ List.mem_append_left v hc
    simp only [token, List.mem_append] at hm
    rcases hm with (hm | hm) | hm
    · exact .inl (by simpa using hm)
    · exact .inr (.inr (hds.2 c hm))
    · exact .inr (.inl (by simpa using hm))
  have hcount : (u ++ e).count '\x7d' < 3 := by
    have h3 := (count_token hds).2
    have hv' : v ≠ [] := fun h => htoken (by rw [← hv, h, List.append_nil])
    have hlast : '\x7d' ∈ v := by
      have hget := congrArg List.getLast? hv
      rw [List.getLast?_append, List.getLast?_eq_some_getLast hv'] at hget
      have heq : v.getLast hv' = '\x7d' := by
        simpa [token, List.getLast?_cons, eq_comm] using hget
      exact heq ▸ List.getLast_mem hv'
    have hpos := List.count_pos_iff.2 hlast
    have hend : ∀ e ∈ listEnds, e.count '\x7d' = 0 := by decide
    have he' := hend e he
    rw [← hv, List.count_append] at h3
    rw [List.count_append]
    omega
  obtain ⟨c, u, rfl⟩ := List.exists_cons_of_ne_nil hne
  obtain rfl : c = '\x7b' := by
    have hget := congrArg List.head? hv
    simpa [token] using hget
  exact ⟨u, e, he, rfl, fun c hc => hchars c (by simp [hc]), hcount⟩

namespace IsStump

theorem brace_mem (hz : IsStump z) : '\x7b' ∈ z := by
  obtain ⟨u, e, -, rfl, -⟩ := hz.shape
  simp

theorem angle_mem (hz : IsStump z) : '<' ∈ z := by
  obtain ⟨u, e, he, rfl, -⟩ := hz.shape
  have hend : ∀ e ∈ listEnds, '<' ∈ e := by decide
  exact List.mem_append_right _ (hend e he)

/-- A beginning of a stump has the brace, and an end the angle bracket. -/
theorem mem_of_eq_append (hz : IsStump z) {x v : Text} (h : z = x ++ v) (hx : x ≠ [])
    (hv : v ≠ []) : '\x7b' ∈ x ∧ v.getLast? = some '>' := by
  obtain ⟨u, e, he, rfl, -⟩ := hz.shape
  have hend : ∀ e ∈ listEnds, e.getLast? = some '>' := by decide
  constructor
  · obtain ⟨c, x, rfl⟩ := List.exists_cons_of_ne_nil hx
    obtain rfl : '\x7b' = c := by simpa using congrArg List.head? h
    simp
  · have hget := congrArg List.getLast? h
    rw [List.getLast?_append, List.getLast?_append, hend e he,
      List.getLast?_eq_some_getLast hv] at hget
    rw [List.getLast?_eq_some_getLast hv]
    simpa using hget.symm

theorem notMem (hz : IsStump z) {c : Char} (hc : c = '^' ∨ c = '~') : c ∉ z := by
  obtain ⟨u, e, he, rfl, hu, -⟩ := hz.shape
  have hend : ∀ e ∈ listEnds, '^' ∉ e ∧ '~' ∉ e := by decide
  intro hm
  simp only [List.mem_append, List.mem_cons] at hm
  rcases hm with (rfl | hm) | hm
  · exact absurd hc (by decide)
  · rcases hu c hm with rfl | rfl | hdigit
    · exact absurd hc (by decide)
    · exact absurd hc (by decide)
    · rcases hc with rfl | rfl <;> exact absurd hdigit (by decide)
  · rcases hc with rfl | rfl
    · exact (hend e he).1 hm
    · exact (hend e he).2 hm

/-- The ends of a stump that begin like a tag are ends of lists. -/
theorem mem_listEnds (hz : IsStump z) {x v : Text} (h : z = x ++ v) (hx : x ≠ [])
    {c : Char} (hc : c ∈ ['<', '\'', '\n']) (hv : v.head? = some c) : v ∈ listEnds := by
  obtain ⟨u, e, he, rfl, hu, -⟩ := hz.shape
  have htails : ∀ e ∈ listEnds, ∀ n < e.length + 1,
      (e.drop n).head?.any ['<', '\'', '\n'].contains → e.drop n ∈ listEnds := by decide
  have hchar : ∀ d ∈ u, d ∉ ['<', '\'', '\n'] := by
    intro d hd
    rcases hu d hd with rfl | rfl | hdigit
    · decide
    · decide
    · intro hm
      simp only [List.mem_cons, List.not_mem_nil, or_false] at hm
      rcases hm with rfl | rfl | rfl <;> exact absurd hdigit (by decide)
  obtain ⟨d, x, rfl⟩ := List.exists_cons_of_ne_nil hx
  rw [List.cons_append, List.cons_append, List.cons.injEq] at h
  rcases List.append_eq_append_iff.1 h.2 with ⟨y, -, rfl⟩ | ⟨y, rfl, rfl⟩
  · have htail := htails _ he y.length (by rw [List.length_append]; omega)
    rw [List.drop_left, hv] at htail
    exact htail (by simpa using hc)
  · cases y with
    | nil => exact he
    | cons d' y =>
      obtain rfl : d' = c := by simpa using hv
      exact absurd hc (hchar d' (by simp))

/-- No stump reaches into a tag. -/
theorem of_isTag (hz : IsStump z) {a : Text} (ha : isTag a) :
    IsClosed z a ∧ occurrences z a = 0 := by
  simp only [isTag, Bool.and_eq_true, List.all_eq_true] at ha
  obtain ⟨⟨hmark, hhead⟩, hends⟩ := ha
  have hbrace : '\x7b' ∉ a := by
    intro hm
    simp only [isMark, Bool.and_eq_true, List.all_eq_true] at hmark
    exact absurd (hmark.2 _ hm) (by decide)
  refine ⟨isClosed_of_apart (fun l r => ?_) fun r => ?_,
    occurrences_eq_zero_of_notMem hz.brace_mem hbrace⟩
  · intro x v h hx hv _ hp
    cases a with
    | nil => simp at hhead
    | cons c a =>
      have hc : c ∈ ['<', '\'', '\n'] := by simpa using hhead
      have hvhead : v.head? = some c := by
        obtain ⟨d, v, rfl⟩ := List.exists_cons_of_ne_nil hv
        rw [List.cons_append, List.cons_prefix_cons] at hp
        simp [hp.1]
      have hnot := hends v (hz.mem_listEnds h hx hc hvhead)
      rcases List.prefix_or_prefix_of_prefix hp (List.prefix_append (c :: a) r) with hp | hp
      · simp [List.isPrefixOf_iff_prefix.2 hp] at hnot
      · simp [List.isPrefixOf_iff_prefix.2 hp] at hnot
  · intro x v h hx hv hs _
    exact hbrace (hs.subset (hz.mem_of_eq_append h hx hv).1)

/-- No stump reaches into braces around a mark with one of the characters of the tokens of
addresses. -/
theorem of_braced (hz : IsStump z) {c : Char} (hc : c = '^' ∨ c = '~') {a : Text}
    (ha : '\x7b' ∉ a) (hangle : '<' ∉ c :: a) :
    IsClosed z ('\x7b' :: c :: a ++ ['\x7d']) ∧
      occurrences z ('\x7b' :: c :: a ++ ['\x7d']) = 0 := by
  refine ⟨isClosed_of_apart (fun l r => ?_) fun r => ?_, ?_⟩
  · intro x v h hx hv _ hp
    have hlast := (hz.mem_of_eq_append h hx hv).2
    obtain ⟨d, v, rfl⟩ := List.exists_cons_of_ne_nil hv
    obtain ⟨hd, hp⟩ := List.cons_prefix_cons.1 hp
    cases v with
    | nil => simp [hd] at hlast
    | cons d' v =>
      obtain ⟨rfl, -⟩ := List.cons_prefix_cons.1 hp
      exact hz.notMem hc (by simp [h])
  · intro x v h hx hv hs _
    have hbrace := (hz.mem_of_eq_append h hx hv).1
    rcases List.suffix_cons_iff.1 hs with rfl | hs
    · exact hz.notMem hc (by simp [h])
    · have hm := hs.subset hbrace
      rcases hc with rfl | rfl <;> simp [ha] at hm
  · refine occurrences_eq_zero_of_notMem hz.angle_mem ?_
    simpa using hangle

theorem of_isTagOrToken (hz : IsStump z) {a : Text} (ha : isTagOrToken a) :
    IsClosed z a ∧ occurrences z a = 0 := by
  simp only [isTagOrToken, Bool.or_eq_true, beq_iff_eq] at ha
  obtain (ha | rfl) | rfl := ha
  · exact hz.of_isTag ha
  · exact hz.of_braced (.inl rfl) (a := ['^', '^']) (by decide) (by decide)
  · exact hz.of_braced (.inr rfl) (a := ['~', '~']) (by decide) (by decide)

/-- No stump reaches into a placeholder. -/
theorem of_placeholder (hz : IsStump z) (n : Nat) :
    IsClosed z (placeholder n) ∧ occurrences z (placeholder n) = 0 := by
  have hdigits := isDigits_ofNat n
  obtain ⟨-, -, -, -, -, hcount⟩ := hz.shape
  have hchars : '>' ∉ placeholder n ∧ '<' ∉ placeholder n := by
    have hangle : '>' ∉ Text.ofNat n ∧ '<' ∉ Text.ofNat n :=
      ⟨hdigits.notMem rfl, hdigits.notMem rfl⟩
    simp [placeholder_eq_token, token, hangle]
  refine ⟨isClosed_of_apart (fun l r => ?_) fun r => ?_,
    occurrences_eq_zero_of_notMem hz.angle_mem hchars.2⟩
  · intro x v h hx hv _ hp
    obtain ⟨y, hy⟩ := hp
    have hlast := List.mem_of_getLast? (hz.mem_of_eq_append h hx hv).2
    rcases List.append_eq_append_iff.1 hy with ⟨y', hy', -⟩ | ⟨y', rfl, -⟩
    · exact hchars.1 (hy' ▸ List.mem_append_left _ hlast)
    · have h3 := (count_token hdigits).2
      rw [h, List.count_append, List.count_append, placeholder_eq_token] at hcount
      omega
  · intro x v h hx hv hs _
    have h3 := count_of_suffix_token hdigits hs (hz.mem_of_eq_append h hx hv).1
    rw [h, List.count_append] at hcount
    omega

end IsStump

/-- Extraction from a text without opening braces writes no stump. -/
theorem occurrences_stump_withPlaceholders (hz : IsStump z) (n : Nat)
    {ps : List (Piece Char (List (Option Text)))} (h : '\x7b' ∉ ps.flatMap Piece.source) :
    occurrences z (withPlaceholders n ps) = 0 := by
  -- `l` is what has been passed since the last match
  have hbehind (l : Text) (hl : '\x7b' ∉ l) : occurrences z (l ++ withPlaceholders n ps) = 0 := by
    induction ps generalizing n l with
    | nil =>
      rw [withPlaceholders, List.append_nil]
      exact occurrences_eq_zero_of_notMem hz.brace_mem hl
    | cons p ps ih =>
      have hps : '\x7b' ∉ ps.flatMap Piece.source := fun hm => h (by simp_all)
      cases p with
      | kept c =>
        have hc : '\x7b' ≠ c := by
          rintro rfl
          exact h (by simp [Piece.source])
        rw [withPlaceholders, List.append_cons]
        exact ih n hps _ (by simp [hl, hc])
      | found taken groups =>
        have htail := ih (n + 1) hps [] (by simp)
        rw [List.nil_append] at htail
        obtain ⟨hclosed, hzero⟩ := hz.of_placeholder n
        rw [withPlaceholders, ← List.append_assoc, hclosed, hzero, htail,
          occurrences_eq_zero_of_notMem hz.brace_mem hl]
  exact hbehind [] (by simp)

/-! ## What merging joins -/

/-- A word behind merging stood there before, or one part of it did, with the end of a list behind. -/
theorem Pattern.infix_of_infix_merged {closing opening w t : Text} (hne : closing ≠ [])
    (h : w <:+: (adjacent closing opening).rewriteFrom (fun _ => []) none t) :
    w <:+: t ∨ ∃ u v, w = u ++ v ∧ u ≠ [] ∧ v ≠ [] ∧ u ++ closing <:+: t := by
  revert h
  refine rewriteFrom_induction (isProper_adjacent opening hne) (fun _ => [])
    (P := fun t t' => w <:+: t' →
      w <:+: t ∨ ∃ u v, w = u ++ v ∧ u ≠ [] ∧ v ≠ [] ∧ u ++ closing <:+: t)
    (fun _ => .inl) (fun b l s r r' v hf ih h => ?_) t
  obtain ⟨space, -, rfl, -⟩ := eq_of_finder_adjacent hf
  rw [List.append_nil] at h
  rw [List.append_assoc]
  have htail : r <:+: l ++ (seam closing opening space ++ r) :=
    (List.suffix_append _ r).isInfix.trans (List.suffix_append l _).isInfix
  rcases List.infix_append_iff_ne_nil.1 h with h | h | ⟨u, v, hu, hv, rfl, hul, -⟩
  · exact .inl (h.trans (List.prefix_append l _).isInfix)
  · rcases ih h with h | ⟨u, v, hw, hu, hv, h⟩
    · exact .inl (h.trans htail)
    · exact .inr ⟨u, v, hw, hu, hv, h.trans htail⟩
  · obtain ⟨x, rfl⟩ := hul
    refine .inr ⟨u, v, rfl, hu, hv, x, space ++ opening ++ r, ?_⟩
    simp [seam]

theorem remarked_adjacentBlockquotes (t : Text) : Remarked isMark isMark t
    (Pattern.adjacentBlockquotes.rewriteFrom (fun _ => ['\n']) none t) := by
  refine Pattern.remarked_rewriteFrom (Pattern.isProper_adjacent _ (by simp)) (fun b s r v h => ?_) t
  obtain ⟨space, hspace, rfl, -⟩ := Pattern.eq_of_finder_adjacent h
  have hseam : isMark (Pattern.seam "</blockquote>".toList "<blockquote>".toList space) :=
    isMark_seam (List.all_eq_true.1 rfl) (List.all_eq_true.1 rfl) (by simp) hspace
  exact fun l r r' hr => .mark hseam (by decide) (.refl l) hr

/-- Merging makes no word if none of its beginnings stands in front of the end of an element. -/
theorem Pattern.occurrences_merged (closing opening : Text) {w t : Text} (hne : closing ≠ [])
    (hseam : ∀ space, IsSeamSpace space → IsClosed w (seam closing opening space) ∧
      occurrences w (seam closing opening space) = 0)
    (hno : ∀ u v, w = u ++ v → u ≠ [] → v ≠ [] → ¬ u ++ closing <:+: t) :
    occurrences w ((adjacent closing opening).rewriteFrom (fun _ => []) none t) =
      occurrences w t := by
  revert hno
  refine rewriteFrom_induction (isProper_adjacent opening hne) (fun _ => [])
    (P := fun t t' => (∀ u v, w = u ++ v → u ≠ [] → v ≠ [] → ¬ u ++ closing <:+: t) →
      occurrences w t' = occurrences w t)
    (fun _ _ => rfl) (fun b l s r r' v hf ih hno => ?_) t
  obtain ⟨space, hspace, rfl, -⟩ := eq_of_finder_adjacent hf
  obtain ⟨hclosed, hzero⟩ := hseam space hspace
  have hapart : Apart w l r' := by
    rintro u v hw hu hv ⟨x, rfl⟩ -
    exact hno u v hw hu hv ⟨x, space ++ opening ++ r, by simp [seam]⟩
  have htail := ih fun u v hw hu hv hin =>
    hno u v hw hu hv (hin.trans ⟨l ++ seam closing opening space, [], by simp⟩)
  rw [List.append_nil, occurrences_append_of_apart hapart, htail, hclosed, hzero, Nat.add_zero]

/-- Without stumps in a document, merging bulleted lists brings no beginning of a token in front of the
end of a list. -/
theorem Table.not_stump_merged {d : Text} (hd : ∀ z, IsStump z → ¬ z <:+: d) {ds u : Text}
    (hds : IsDigits ds) (hu : u ≠ []) (hpart : u <+: token ds) (hne : u ≠ token ds) :
    ¬ u ++ "</ul>".toList <:+: d ∧ ¬ u ++ "</ol>".toList <:+:
      Pattern.adjacentUnordered.rewriteFrom (fun _ => []) none d := by
  have hstump {x e : Text} (hx : x ≠ []) (hxu : x <+: u) (he : e ∈ listEnds) : IsStump (x ++ e) :=
    ⟨ds, x, hds, hx, hxu.trans hpart, fun h => hne (hpart.eq_of_length_le (h ▸ hxu.length_le)), e, he, rfl⟩
  refine ⟨hd _ (hstump hu List.prefix_rfl (by decide)), fun h => ?_⟩
  -- the stump in front of `</ol>` may itself be due to the merging of bulleted lists
  rcases Pattern.infix_of_infix_merged (by simp) h with h | ⟨x, y, hxy, hx, hy, hjoined⟩
  · exact hd _ (hstump hu List.prefix_rfl (by decide)) h
  · rcases List.append_eq_append_iff.1 hxy with ⟨y', rfl, hy'⟩ | ⟨y', rfl, rfl⟩
    · have hends : ∀ n < "</ol>".toList.length, "</ol>".toList.take n ++ "</ul>".toList ∈
          listEnds := by decide
      have hlen : y'.length < "</ol>".toList.length := by
        have := List.length_pos_iff.2 hy
        rw [hy', List.length_append]
        omega
      have hmem := hends _ hlen
      rw [hy', List.take_left] at hmem
      rw [List.append_assoc] at hjoined
      exact hd _ (hstump hu List.prefix_rfl hmem) hjoined
    · exact hd _ (hstump hx (List.prefix_append x y') (by decide)) hjoined

/-- Without stumps, merging makes no word that begins as tokens do. -/
theorem Table.occurrences_merging_le {o : Options} {d w : Text}
    (hd : ∀ z, IsStump z → ¬ z <:+: d)
    (hmark : ∀ a, isMark a → IsClosed w a ∧ occurrences w a = 0)
    (hw : ∀ u v, w = u ++ v → u ≠ [] → v ≠ [] → ∃ ds, IsDigits ds ∧ u <+: token ds ∧ u ≠ token ds) :
    occurrences w (merging.pass o d) ≤ occurrences w d := by
  have hseam (closing opening space : Text) (hc : ∀ c ∈ closing, isMarkChar c)
      (ho : ∀ c ∈ opening, isMarkChar c) (hne : closing ≠ []) (hs : Pattern.IsSeamSpace space) :=
    hmark _ (isMark_seam hc ho hne hs)
  have hbulleted := Pattern.occurrences_merged "</ul>".toList "<ul>".toList (t := d) (by simp)
    (fun space => hseam "</ul>".toList "<ul>".toList space (List.all_eq_true.1 rfl)
      (List.all_eq_true.1 rfl) (by simp)) fun u v hwv hu hv => by
        obtain ⟨ds, hds, hpart, hne⟩ := hw u v hwv hu hv
        exact (not_stump_merged hd hds hu hpart hne).1
  have hnumbered := Pattern.occurrences_merged "</ol>".toList "<ol>".toList
    (t := Pattern.adjacentUnordered.rewriteFrom (fun _ => []) none d) (by simp)
    (fun space => hseam "</ol>".toList "<ol>".toList space (List.all_eq_true.1 rfl)
      (List.all_eq_true.1 rfl) (by simp)) fun u v hwv hu hv => by
        obtain ⟨ds, hds, hpart, hne⟩ := hw u v hwv hu hv
        exact (not_stump_merged hd hds hu hpart hne).2
  rw [pass_merging]
  exact Nat.le_trans ((remarked_adjacentBlockquotes _).occurrences_le fun a ha => hmark a ha)
    (Nat.le_of_eq (hnumbered.trans hbulleted))

/-- What stands in front of a part of a token that is not empty is a part of one. -/
theorem token_beginning {ds : Text} (hds : IsDigits ds) (u v : Text) (h : token ds = u ++ v)
    (hv : v ≠ []) : ∃ ds, IsDigits ds ∧ u <+: token ds ∧ u ≠ token ds := by
  refine ⟨ds, hds, ⟨v, h.symm⟩, fun heq => hv ?_⟩
  rw [heq] at h
  exact List.append_cancel_left (h.symm.trans (List.append_nil _).symm)

/-- Without stumps, merging makes no tokens. -/
theorem Table.token_infix_of_merging {o : Options} {d : Text}
    (hd : ∀ z, IsStump z → ¬ z <:+: d) {ds : Text} (hds : IsDigits ds)
    (h : token ds <:+: merging.pass o d) : token ds <:+: d := by
  have hdurable := isDurable_token hds
  have hle := occurrences_merging_le (o := o) hd (fun _ => hdurable.of_isMark)
    fun u v h _ hv => token_beginning hds u v h hv
  rw [← occurrences_pos_iff hdurable.ne_nil] at h ⊢
  omega

namespace Renderer

variable (o : Options) (t : Text)

/-- The document before blocks are merged. -/
def beforeMerging : Text :=
  (Table.setting ++ [Table.wrapping]).pass o (extracted o t).1

/-- Merging joins two parts of the document to a token that did not stand there before. -/
def MergingForges : Prop :=
  ∃ ds, IsDigits ds ∧ token ds <:+: Table.merging.pass o (beforeMerging o t) ∧
    ¬ token ds <:+: beforeMerging o t

variable {o t}

/-- If the braces of the text are hidden, no stump stands in the document before blocks are merged. -/
theorem not_stump_beforeMerging (h : (Protected.ofText t).standIn.isSome) {z : Text}
    (hz : IsStump z) : ¬ z <:+: beforeMerging o t := by
  obtain ⟨c, hc⟩ := Option.isSome_iff_exists.1 h
  have hbrace : '\x7b' ∉ (fencedPieces t).flatMap Piece.source := by
    rw [show (fencedPieces t).flatMap Piece.source = (Protected.ofText t).document from
      Pattern.flatMap_source_pieces ..]
    simpa [Protected.document] using Protected.brace_notMem_text hc
  have hzero := occurrences_stump_withPlaceholders hz 0 hbrace
  have hle : occurrences z (beforeMerging o t) ≤ occurrences z (extracted o t).1 := by
    exact (Table.remarked_setting_wrapping o _).occurrences_le fun _ => hz.of_isTagOrToken
  rw [text_extracted] at hle
  rw [← occurrences_eq_zero_iff (List.ne_nil_of_mem hz.brace_mem)]
  omega

variable (o t)

/-- If the braces of the text are hidden, merging makes no token. -/
theorem not_mergingForges (h : (Protected.ofText t).standIn.isSome) : ¬ MergingForges o t := by
  rintro ⟨ds, hds, hin, hnot⟩
  exact hnot (Table.token_infix_of_merging (fun _ => not_stump_beforeMerging h) hds hin)

/-- Unless merging makes one, the tokens that the last rule gets are placeholders of stored
blocks. -/
theorem onlyPlaceholders_settled
    (hreserved : Reserved.occursIn t = false ∨ (Protected.ofText t).standIn.isSome)
    (hmerging : o.mergeAdjacentBlocks = true → ¬ MergingForges o t) :
    OnlyPlaceholders (extracted o t).2.vault.size (settled o t).1 := by
  intro ds hds hin
  have hdurable := isDurable_token hds
  have hbefore : token ds <:+: beforeMerging o t := by
    rw [(settled_eq o t).1, Table.between, Table.pass_append, Table.pass_append, ← beforeMerging,
      ← occurrences_pos_iff hdurable.ne_nil, Table.occurrences_revealing hdurable,
      occurrences_pos_iff hdurable.ne_nil] at hin
    by_cases hmerge : o.mergeAdjacentBlocks = true
    · rw [if_pos hmerge] at hin
      exact Classical.byContradiction fun hnot =>
        hmerging hmerge ⟨ds, hds, hin, hnot⟩
    · rw [if_neg hmerge, Table.pass_nil] at hin
      exact hin
  have hpos := (occurrences_pos_iff hdurable.ne_nil).2 hbefore
  rw [beforeMerging, Table.occurrences_setting_wrapping hdurable,
    occurrences_extracted o t hds hreserved, List.countP_pos_iff] at hpos
  obtain ⟨i, hi, heq⟩ := hpos
  exact ⟨i, List.mem_range.1 hi, of_decide_eq_true heq⟩

end Renderer

end Markdown
