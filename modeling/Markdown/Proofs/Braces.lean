import Markdown.Proofs.Contents
import Markdown.Proofs.Hiding
import Markdown.Proofs.Leakage

/-!
# Hidden braces

If a reserved token stands in a text, a private-use character stands for each of its opening braces
while the rules run. It is part of no mark, so that every brace comes back as a reference. The braces
in the document are then those of placeholders and of the tokens in addresses; no rule puts three of
them next to each other (`Table.occurrences_braces_between_le`), and the last rule takes all that there
are (`Renderer.braces_neutralised`).
-/

namespace Markdown

open Pattern (fence)
open Text

/-! ## Runs of braces -/

/-- What a placeholder begins with. -/
def braces : Text := "\x7b\x7b\x7b".toList

theorem eq_of_mem_braces {c : Char} (h : c ∈ braces) : c = '\x7b' :=
  List.eq_of_mem_replicate (n := 3) h

theorem occurrences_braces_of_notMem {t : Text} (h : '\x7b' ∉ t) : occurrences braces t = 0 :=
  occurrences_eq_zero_of_notMem (c := '\x7b') (by decide) h

/-- No run of braces reaches into a text without braces. -/
theorem apart_braces_of_notMem {t : Text} (h : '\x7b' ∉ t) (y : Text) :
    Apart braces t y ∧ Apart braces y t :=
  ⟨apart_of_last fun _ hd hm => h (eq_of_mem_braces hm ▸ List.mem_of_getLast? hd),
    apart_of_head fun _ hd hm => h (eq_of_mem_braces hm ▸ List.mem_of_head? hd)⟩

/-- A brace in front of a marker that addresses hide. -/
def markedBraces : List Text := [['\x7b', '_'], ['\x7b', '*']]

theorem brace_notMem_of_isMark {a : Text} (ha : isMark a) : '\x7b' ∉ a := by
  intro hm
  simp only [isMark, Bool.and_eq_true, List.all_eq_true] at ha
  exact absurd (ha.2 _ hm) (by decide)

/-- No run of braces reaches into a mark. -/
theorem braces_of_isMark {a : Text} (ha : isMark a) : IsClosed braces a ∧ occurrences braces a = 0 := by
  have hbrace := brace_notMem_of_isMark ha
  have hmem {c : Char} (hc : c ∈ a) : c ∉ braces := fun hm => hbrace (eq_of_mem_braces hm ▸ hc)
  have hne : a ≠ [] := by
    rintro rfl
    exact absurd ha (by decide)
  exact ⟨isClosed_of_ends hne (fun c hc => hmem (List.mem_of_head? hc)) fun c hc =>
    hmem (List.mem_of_getLast? hc), occurrences_braces_of_notMem hbrace⟩

/-- The two characters of a word with two of them. -/
theorem eq_of_pair_eq_append {a b : Char} {u v : Text} (h : [a, b] = u ++ v) (hu : u ≠ [])
    (hv : v ≠ []) : u = [a] ∧ v = [b] := by
  obtain ⟨c, u, rfl⟩ := List.exists_cons_of_ne_nil hu
  obtain ⟨d, v, rfl⟩ := List.exists_cons_of_ne_nil hv
  cases u with
  | nil =>
    obtain ⟨rfl, rfl, rfl⟩ : a = c ∧ b = d ∧ [] = v := by simpa using h
    exact ⟨rfl, rfl⟩
  | cons e u =>
    have hlen := congrArg List.length h
    simp at hlen

/-- A text that neither begins with a marker nor ends with a brace is closed for a brace in front of a
marker. -/
theorem isClosed_markedBrace {w a : Text} (hw : w ∈ markedBraces) (hne : a ≠ [])
    (hhead : ∀ c ∈ a.head?, c ≠ '_' ∧ c ≠ '*') (hlast : a.getLast? ≠ some '\x7b') : IsClosed w a := by
  have hparts : ∀ u v, w = u ++ v → u ≠ [] → v ≠ [] → u = ['\x7b'] ∧ (v = ['_'] ∨ v = ['*']) := by
    intro u v h hu hv
    simp only [markedBraces, List.mem_cons, List.not_mem_nil, or_false] at hw
    rcases hw with rfl | rfl
    · exact (eq_of_pair_eq_append h hu hv).imp_right .inl
    · exact (eq_of_pair_eq_append h hu hv).imp_right .inr
  refine isClosed_of_apart (fun l r => ?_) fun r => ?_
  · intro u v h hu hv _ hp
    obtain ⟨c, a, rfl⟩ := List.exists_cons_of_ne_nil hne
    obtain ⟨hunderscore, hasterisk⟩ := hhead c rfl
    rcases (hparts u v h hu hv).2 with rfl | rfl
    · exact hunderscore (List.cons_prefix_cons.1 hp).1.symm
    · exact hasterisk (List.cons_prefix_cons.1 hp).1.symm
  · intro u v h hu hv hs _
    obtain ⟨rfl, -⟩ := hparts u v h hu hv
    obtain ⟨x, rfl⟩ := hs
    exact hlast (by simp)

theorem brace_mem_of_markedBrace {w : Text} (hw : w ∈ markedBraces) : '\x7b' ∈ w := by
  simp only [markedBraces, List.mem_cons, List.not_mem_nil, or_false] at hw
  rcases hw with rfl | rfl <;> simp

/-- No brace in front of a marker reaches into a token of an address. -/
theorem markedBrace_of_mem_addressTokens {w a : Text} (hw : w ∈ markedBraces)
    (ha : a ∈ addressTokens) : IsClosed w a ∧ occurrences w a = 0 := by
  have hhead : ∀ c ∈ a.head?, c ≠ '_' ∧ c ≠ '*' := fun c hc => by
    obtain rfl := Option.mem_unique hc (head?_of_mem_addressTokens a ha)
    decide
  simp only [addressTokens, List.mem_cons, List.not_mem_nil, or_false] at ha
  rcases ha with rfl | rfl
  · exact ⟨isClosed_markedBrace hw (by decide) hhead (by decide), by revert w; decide⟩
  · exact ⟨isClosed_markedBrace hw (by decide) hhead (by decide), by revert w; decide⟩

/-- Nor does it reach into a tag. -/
theorem markedBrace_of_isTagOrToken {w a : Text} (hw : w ∈ markedBraces) (ha : isTagOrToken a) :
    IsClosed w a ∧ occurrences w a = 0 := by
  simp only [isTagOrToken, Bool.or_eq_true, beq_iff_eq] at ha
  obtain (ha | rfl) | rfl := ha
  · simp only [isTag, Bool.and_eq_true] at ha
    have hbrace := brace_notMem_of_isMark ha.1.1
    refine ⟨isClosed_markedBrace hw ?_ (fun c hc => ?_) fun h => hbrace (List.mem_of_getLast? h),
      occurrences_eq_zero_of_notMem (brace_mem_of_markedBrace hw) hbrace⟩
    · rintro rfl
      exact absurd ha.1.2 (by decide)
    · have hhead := ha.1.2
      rw [Option.mem_def.1 hc] at hhead
      simp only [Option.any_some, List.contains_eq_mem, decide_eq_true_eq, List.mem_cons,
        List.not_mem_nil, or_false] at hhead
      rcases hhead with rfl | rfl | rfl <;> decide
  · exact markedBrace_of_mem_addressTokens hw (by decide)
  · exact markedBrace_of_mem_addressTokens hw (by decide)

/-! ## Addresses -/

/-- No run of braces reaches up to a marker, if no brace stands in front of it. -/
theorem apart_braces_of_not_infix {l r : Text} {c : Char} (h : ¬ ['\x7b', c] <:+: l ++ c :: r)
    (y : Text) : Apart braces l y := by
  refine apart_of_last fun d hd hm => h ?_
  obtain rfl := eq_of_mem_braces hm
  obtain ⟨l, rfl⟩ := List.getLast?_eq_some_iff.1 hd
  exact ⟨l, r, by simp⟩

/-- Hiding the markers of an address makes no run of braces, if no brace stands in front of one. -/
theorem occurrences_braces_hide {u : Text} (h : ∀ w ∈ markedBraces, ¬ w <:+: u) :
    occurrences braces (Url.hide u) = occurrences braces u := by
  -- `l` is what has been passed since the last marker
  have hbehind (l : Text) (hl : ∀ w ∈ markedBraces, ¬ w <:+: l ++ u) :
      occurrences braces (l ++ Url.hide u) = occurrences braces (l ++ u) := by
    clear h
    induction u generalizing l with
    | nil => rfl
    | cons c u ih =>
      rw [Url.hide_cons]
      by_cases hmarker : c = '_' ∨ c = '*'
      · have hword : ['\x7b', c] ∈ markedBraces := by rcases hmarker with rfl | rfl <;> decide
        have hbrace : '\x7b' ∉ [c] := by rcases hmarker with rfl | rfl <;> decide
        have htoken : '\x7d' ∈ (Url.hideChar c).getLast? ∧ occurrences braces (Url.hideChar c) = 0 := by
          rcases hmarker with rfl | rfl <;> decide
        have hleft := apart_braces_of_not_infix (hl _ hword)
        have hright : Apart braces (Url.hideChar c) (Url.hide u) := apart_of_last fun d hd => by
          obtain rfl := Option.mem_unique hd htoken.1
          decide
        have hrest : occurrences braces (Url.hide u) = occurrences braces u :=
          ih [] fun w hw hin => hl w hw (hin.trans ⟨l ++ [c], [], by simp⟩)
        calc occurrences braces (l ++ (Url.hideChar c ++ Url.hide u))
            = occurrences braces l + occurrences braces u := by
              rw [occurrences_append_of_apart (hleft _), occurrences_append_of_apart hright, htoken.2,
                hrest, Nat.zero_add]
          _ = occurrences braces (l ++ ([c] ++ u)) := by
              rw [occurrences_append_of_apart (hleft _),
                occurrences_append_of_apart (apart_braces_of_notMem hbrace u).1,
                occurrences_braces_of_notMem hbrace, Nat.zero_add]
      · obtain ⟨hunderscore, hasterisk⟩ := not_or.1 hmarker
        have hsame : Url.hideChar c = [c] := by
          rw [Url.hideChar, if_neg hunderscore, if_neg hasterisk]
        rw [hsame, ← List.append_assoc, ih (l ++ [c]) (by simpa using hl)]
        simp
  exact hbehind [] h

/-- If every replacement is closed for a word and has it less often than the match, by `k` at least,
so has the text, by `k` for every match. -/
theorem occurrences_flatMap_image_le {w : Text} (ρ : Match → Text) (k : Nat)
    {ps : List (Piece Char (List (Option Text)))}
    (h : ∀ s v, .found s v ∈ ps →
      IsClosed w (ρ ⟨s, v⟩) ∧ occurrences w (ρ ⟨s, v⟩) + k ≤ occurrences w s) :
    occurrences w (ps.flatMap (Piece.image ρ)) + k * ps.countP Piece.isFound ≤
      occurrences w (ps.flatMap Piece.source) := by
  -- `l` is what has been passed since the last match
  have hbehind (l : Text) : occurrences w (l ++ ps.flatMap (Piece.image ρ)) +
      k * ps.countP Piece.isFound ≤ occurrences w (l ++ ps.flatMap Piece.source) := by
    induction ps generalizing l with
    | nil => simp
    | cons p ps ih =>
      have ih := fun l => ih (fun s v hm => h s v (by simp [hm])) l
      cases p with
      | kept c =>
        have htail := ih (l ++ [c])
        rw [List.countP_cons_of_neg (by simp [Piece.isFound])]
        simpa [Piece.image, Piece.source] using htail
      | found s v =>
        obtain ⟨hclosed, hle⟩ := h s v (by simp)
        have htail := ih []
        rw [List.nil_append, List.nil_append] at htail
        have hfront := add_occurrences_le w (l ++ s) (ps.flatMap Piece.source)
        have hmatch := add_occurrences_le w l s
        have himage : (Piece.found s v).image ρ = ρ ⟨s, v⟩ := rfl
        rw [List.flatMap_cons, List.flatMap_cons, himage, Piece.source, ← List.append_assoc,
          ← List.append_assoc, hclosed, List.countP_cons_of_pos rfl, Nat.mul_succ]
        omega
  exact hbehind []

/-- The rules for images and links make no run of braces, if no brace stands in front of a marker. -/
theorem occurrences_braces_referring_le {source : Text} (opening : Text) {a c b : Text}
    (ha : isTag a) (hc : isTag c) (hb : isTag b) {t : Text} (ht : ∀ w ∈ markedBraces, ¬ w <:+: t) :
    occurrences braces ((Pattern.referring source opening).rewriteFrom
      (fun m => a ++ Url.hide (m.group 2) ++ c ++ m.group 1 ++ b) none t) ≤
        occurrences braces t := by
  have htag {a : Text} (ha : isTag a) : IsClosed braces a ∧ occurrences braces a = 0 := by
    simp only [isTag, Bool.and_eq_true] at ha
    exact braces_of_isMark ha.1.1
  obtain ⟨⟨hca, hza⟩, ⟨hcc, hzc⟩, ⟨hcb, hzb⟩⟩ := htag ha, htag hc, htag hb
  rw [Pattern.rewriteFrom]
  conv_rhs => rw [← Pattern.flatMap_source_pieces (Pattern.referring source opening) t,
    Pattern.pieces_eq_piecesFrom]
  refine Nat.le_trans (Nat.le_add_right _ (0 * _)) (occurrences_flatMap_image_le _ 0 fun s v hm => ?_)
  obtain ⟨b', r, hr, hf⟩ := (Pattern.isProper_referring source opening).of_found_mem_piecesFrom hm
  obtain ⟨x, u, -, rfl, rfl⟩ := Pattern.eq_of_finder_referring hf
  have hin : u <:+: t := by
    refine List.IsInfix.trans ⟨opening ++ x ++ [']', '('], [')'] ++ r, ?_⟩ hr.isInfix
    simp [Pattern.referenceText]
  have hhide := occurrences_braces_hide fun w hw h => ht w hw (h.trans hin)
  have hsplit : a ++ Url.hide u ++ c ++ x ++ b = a ++ (Url.hide u ++ c ++ x) ++ b := by simp
  have hx := add_occurrences_le braces (opening ++ x ++ [']', '(']) u
  have hx' := add_occurrences_le braces (opening ++ x) [']', '(']
  have hx'' := add_occurrences_le braces opening x
  have hend := add_occurrences_le braces (opening ++ x ++ [']', '('] ++ u) [')']
  have hreference : Pattern.referenceText opening x u = opening ++ x ++ [']', '('] ++ u ++ [')'] := by
    simp [Pattern.referenceText]
  simp only [Match.group, Match.group?, List.getElem?_cons_succ, List.getElem?_cons_zero,
    Option.join_some, Option.getD_some]
  rw [hsplit]
  refine ⟨hca.enclose hcb _, ?_⟩
  rw [hcb.append_right, hca.append_left, hcc, hhide, hza, hzc, hzb, hreference]
  omega

/-! ## The passes -/

theorem not_markedBrace_of_remarked {M : Text → Bool} {t t' : Text} (h : Remarked M isTagOrToken t t')
    (ht : ∀ w ∈ markedBraces, ¬ w <:+: t) : ∀ w ∈ markedBraces, ¬ w <:+: t' := by
  intro w hw
  have hne : w ≠ [] := List.ne_nil_of_mem (brace_mem_of_markedBrace hw)
  have hle := h.occurrences_le fun _ => markedBrace_of_isTagOrToken hw
  have hzero := (occurrences_eq_zero_iff hne).2 (ht w hw)
  rw [← occurrences_eq_zero_iff hne]
  omega

namespace Table

variable (o : Options) {d : Text}

/-- Until blocks are merged, no rule makes a run of braces, if no brace stands in front of a marker. -/
theorem occurrences_braces_setting_wrapping_le (hd : ∀ w ∈ markedBraces, ¬ w <:+: d) :
    occurrences braces ((setting ++ [wrapping]).pass o d) ≤ occurrences braces d := by
  have hremarked {t t' : Text} (h : Remarked isMark isTag t t') :
      occurrences braces t' ≤ occurrences braces t := by
    refine h.occurrences_le fun a ha => ?_
    simp only [isTag, Bool.and_eq_true] at ha
    exact braces_of_isMark ha.1.1
  have hheading : ∀ w ∈ markedBraces, ¬ w <:+: heading.pass o d :=
    not_markedBrace_of_remarked
      ((remarked_heading o d).mono (fun _ => id) fun _ => isTagOrToken_of_isTag) hd
  have himage {d : Text} (hd : ∀ w ∈ markedBraces, ¬ w <:+: d) :
      occurrences braces ((handling .image Handler.image).pass o d) ≤ occurrences braces d ∧
        ∀ w ∈ markedBraces, ¬ w <:+: (handling .image Handler.image).pass o d := by
    rw [isPure_image.pass_eq]
    exact ⟨occurrences_braces_referring_le ['!', '['] (by decide) (by decide) (by decide) hd,
      not_markedBrace_of_remarked
        (remarked_referring ['!', '['] (by decide) (by decide) (by decide) (by decide) d) hd⟩
  have hlink {d : Text} (hd : ∀ w ∈ markedBraces, ¬ w <:+: d) :
      occurrences braces ((handling .link Handler.link).pass o d) ≤ occurrences braces d := by
    rw [isPure_link.pass_eq]
    exact occurrences_braces_referring_le ['['] (by decide) (by decide) (by decide) hd
  rw [setting_eq, List.cons_append, List.cons_append, pass_cons, pass_append, pass_append, pass_cons,
    pass_nil, references, pass_cons, pass_cons, pass_nil]
  obtain ⟨hle, hbehind⟩ := himage hheading
  calc occurrences braces (wrapping.pass o (behindReferences.pass o _))
      ≤ occurrences braces (behindReferences.pass o _) := hremarked (remarked_wrapping o _)
    _ ≤ occurrences braces ((handling .link Handler.link).pass o _) :=
        hremarked (remarked_behindReferences o _)
    _ ≤ occurrences braces ((handling .image Handler.image).pass o (heading.pass o d)) := hlink hbehind
    _ ≤ occurrences braces (heading.pass o d) := hle
    _ ≤ occurrences braces d := hremarked (remarked_heading o d)

/-- The beginnings of the run are beginnings of tokens. -/
theorem braces_beginning (u v : Text) (h : braces = u ++ v) :
    ∃ ds, IsDigits ds ∧ u <+: token ds ∧ u ≠ token ds := by
  have hlen := congrArg List.length h
  refine ⟨['0'], ⟨by simp, List.all_eq_true.1 rfl⟩, ⟨v ++ "0\x7d\x7d\x7d".toList, ?_⟩, ?_⟩
  · rw [← List.append_assoc, ← h]
    rfl
  · rintro rfl
    simp [braces, token] at hlen

theorem occurrences_braces_between_le (hd : ∀ w ∈ markedBraces, ¬ w <:+: d)
    (hstump : ∀ z, IsStump z → ¬ z <:+: (setting ++ [wrapping]).pass o d) :
    occurrences braces ((between o).pass o d) ≤ occurrences braces d := by
  have hsetting := occurrences_braces_setting_wrapping_le o hd
  have hrevealing (d : Text) : occurrences braces (revealing.pass o d) ≤ occurrences braces d :=
    (remarked_revealing o d).occurrences_le fun _ => braces_of_isMark
  rw [between, pass_append, pass_append]
  refine Nat.le_trans (hrevealing _) (Nat.le_trans ?_ hsetting)
  split
  · exact occurrences_merging_le hstump (fun _ => braces_of_isMark)
      fun u v h _ _ => braces_beginning u v h
  · rw [pass_nil]

end Table

/-! ## Extraction -/

theorem occurrences_braces_placeholder (n : Nat) : occurrences braces (placeholder n) = 1 := by
  have hdigits := isDigits_ofNat n
  have hrest : '\x7b' ∉ Text.ofNat n ++ "\x7d\x7d\x7d".toList := by
    simp [hdigits.notMem (c := '\x7b') rfl]
  have hsplit : placeholder n = braces ++ (Text.ofNat n ++ "\x7d\x7d\x7d".toList) := by
    simp [placeholder, braces]
  rw [hsplit, occurrences_append_of_apart (apart_braces_of_notMem hrest braces).2,
    occurrences_braces_of_notMem hrest]
  decide

theorem getLast?_placeholder (n : Nat) : (placeholder n).getLast? = some '\x7d' := by
  have hsplit : placeholder n =
      ("\x7b\x7b\x7b".toList ++ Text.ofNat n ++ "\x7d\x7d".toList) ++ ['\x7d'] := by
    simp [placeholder]
  rw [hsplit, List.getLast?_concat]

/-- No brace in front of a marker reaches into a placeholder. -/
theorem markedBrace_placeholder {w : Text} (hw : w ∈ markedBraces) (n : Nat) :
    IsClosed w (placeholder n) ∧ occurrences w (placeholder n) = 0 := by
  have hhead : ∀ c ∈ (placeholder n).head?, c ≠ '_' ∧ c ≠ '*' := fun c hc => by
    obtain rfl : '\x7b' = c := by simpa [placeholder] using hc
    decide
  refine ⟨isClosed_markedBrace hw (by simp [placeholder]) hhead
    (by rw [getLast?_placeholder]; decide), ?_⟩
  have hdigits := isDigits_ofNat n
  simp only [markedBraces, List.mem_cons, List.not_mem_nil, or_false] at hw
  rcases hw with rfl | rfl
  · refine occurrences_eq_zero_of_notMem (c := '_') (by simp) ?_
    simp [placeholder, hdigits.notMem (c := '_') rfl]
  · refine occurrences_eq_zero_of_notMem (c := '*') (by simp) ?_
    simp [placeholder, hdigits.notMem (c := '*') rfl]

theorem not_markedBrace_of_notMem {t : Text} (h : '\x7b' ∉ t) : ∀ w ∈ markedBraces, ¬ w <:+: t :=
  fun _ hw hin => h (hin.subset (brace_mem_of_markedBrace hw))

/-- The first rule writes one run of braces for every block. -/
theorem occurrences_braces_weave {t : Text} (ht : '\x7b' ∉ t) (n : Nat) :
    occurrences braces (weave n (gaps t)) = (codes (gaps t)).length := by
  induction t using fences_induction generalizing n with
  | none t h =>
    rw [gaps_eq_singleton h]
    exact occurrences_braces_of_notMem ht
  | single g r hg hr =>
    rw [gaps_append hg, gaps_eq_singleton hr]
    exact occurrences_braces_of_notMem ht
  | pair g c r hg hc ih =>
    have hgbrace : '\x7b' ∉ g := fun hm => ht (by simp [hm])
    have hcount := ih (fun hm => ht (by simp [hm])) (n + 1)
    have hright : Apart braces (placeholder n) (weave (n + 1) (gaps r)) :=
      apart_of_last fun d hd => by
        obtain rfl := Option.mem_unique hd (getLast?_placeholder n)
        decide
    rw [gaps_append hg, gaps_append hc, weave_pair, codes_pair, List.append_assoc,
      occurrences_append_of_apart (apart_braces_of_notMem hgbrace _).1,
      occurrences_append_of_apart hright, occurrences_braces_of_notMem hgbrace,
      occurrences_braces_placeholder, hcount, List.length_cons]
    omega

/-- It writes no brace in front of a marker. -/
theorem not_markedBrace_weave {t : Text} (ht : '\x7b' ∉ t) (n : Nat) :
    ∀ w ∈ markedBraces, ¬ w <:+: weave n (gaps t) := by
  intro w hw
  have hne : w ≠ [] := List.ne_nil_of_mem (brace_mem_of_markedBrace hw)
  induction t using fences_induction generalizing n with
  | none t h =>
    rw [gaps_eq_singleton h]
    exact not_markedBrace_of_notMem ht w hw
  | single g r hg hr =>
    rw [gaps_append hg, gaps_eq_singleton hr]
    exact not_markedBrace_of_notMem ht w hw
  | pair g c r hg hc ih =>
    have hgbrace : '\x7b' ∉ g := fun hm => ht (by simp [hm])
    obtain ⟨hclosed, hplaceholder⟩ := markedBrace_placeholder hw n
    rw [gaps_append hg, gaps_append hc, weave_pair, ← occurrences_eq_zero_iff hne, hclosed,
      hplaceholder, (occurrences_eq_zero_iff hne).2 (not_markedBrace_of_notMem hgbrace w hw),
      (occurrences_eq_zero_iff hne).2 (ih (fun hm => ht (by simp [hm])) (n + 1))]

/-! ## Blocks -/

/-- A block of code without braces has none. -/
theorem braces_render {raw : Text} (h : '\x7b' ∉ raw) :
    IsClosed braces (CodeBlock.render raw) ∧ occurrences braces (CodeBlock.render raw) = 0 := by
  have hbody := (CodeBlock.remarked_body raw).occurrences_le fun _ => braces_of_isMark
  rw [occurrences_braces_of_notMem h] at hbody
  have hmarks : isMark "<pre><code>".toList ∧ isMark "</code></pre>".toList := by decide
  obtain ⟨hopen, hopen'⟩ := braces_of_isMark hmarks.1
  obtain ⟨hclose, hclose'⟩ := braces_of_isMark hmarks.2
  unfold CodeBlock.render
  refine ⟨hopen.enclose hclose _, ?_⟩
  rw [hclose.append_right, hopen.append_left, hopen', hclose']
  omega

/-- A match of the last rule has a run of braces in it. -/
theorem braces_infix_of_found {d s : Text} {v : List (Option Text)}
    (h : .found s v ∈ Pattern.placeholder.pieces d) : braces <:+: s := by
  rw [Pattern.pieces_eq_piecesFrom] at h
  obtain ⟨b, r, -, hf⟩ := Pattern.isProper_placeholder.of_found_mem_piecesFrom h
  obtain ⟨ds, -, ⟨rfl, -⟩ | ⟨rfl, -⟩⟩ := Pattern.eq_of_finder_placeholder hf
  · exact ⟨"<p>".toList, ds ++ "\x7d\x7d\x7d</p>".toList, by simp [Pattern.wrappedToken, token, braces]⟩
  · exact ⟨[], ds ++ "\x7d\x7d\x7d".toList, by simp [token, braces]⟩

/-- Code is a part of the text. -/
theorem infix_of_mem_codes {c t : Text} (h : c ∈ codes (gaps t)) : c <:+: t := by
  induction t using fences_induction with
  | none t ht => simp [gaps_eq_singleton ht, codes] at h
  | single g r hg hr =>
    rw [gaps_append hg, gaps_eq_singleton hr] at h
    exact absurd h (by simp [codes])
  | pair g c' r hg hc' ih =>
    rw [gaps_append hg, gaps_append hc', codes_pair, List.mem_cons] at h
    rcases h with rfl | h
    · exact ⟨g ++ fence, fence ++ r, by simp⟩
    · exact (ih h).trans ⟨g ++ fence ++ c' ++ fence, [], by simp⟩

/-! ## The stand-in -/

/-- A stand-in is chosen if there is a character left. -/
theorem Reserved.isSome_standIn? {t : Text} (h : ∃ c ∈ Reserved.privateUse, c ∉ t) :
    (Reserved.standIn? t).isSome := by
  obtain ⟨c, hc, hnot⟩ := h
  simp only [Reserved.standIn?, List.find?_isSome]
  exact ⟨c, hc, by simp [hnot]⟩

theorem isLasting_of_mem_privateUse {c : Char} (h : c ∈ Reserved.privateUse) : IsLasting c := by
  have hle := Protected.le_toNat_of_mem_privateUse h
  refine ⟨by omega, ?_⟩
  have hlow : ∀ n, n ≤ 0x3000 → ¬ c.toNat < n ∧ ¬ c.toNat ≤ n := fun n hn => by omega
  simp only [Unicode.isWhiteSpace, Unicode.whiteSpace, Unicode.Ranges.mem]
  simp [hlow]

namespace Renderer

variable (o : Options) {t : Text}

theorem brace_notMem_map_hide (h : (Protected.ofText t).standIn.isSome) :
    '\x7b' ∉ t.map (Protected.ofText t).hide := by
  obtain ⟨s, hs⟩ := Option.isSome_iff_exists.1 h
  rw [← Protected.text_ofText]
  exact Protected.brace_notMem_text hs

/-- The stand-in takes the places of the braces. -/
theorem count_standIn {s : Char} (hs : (Protected.ofText t).standIn = some s) :
    (t.map (Protected.ofText t).hide).count s = t.count '\x7b' := by
  have hnot := (Protected.of_standIn?_eq_some (Protected.of_standIn_ofText hs).2).1
  have hhide (d : Char) : (Protected.ofText t).hide d = if d = '\x7b' then s else d := by
    simp only [Protected.hide, hs]
  generalize (Protected.ofText t).hide = f at hhide
  clear hs
  induction t with
  | nil => rfl
  | cons d t ih =>
    have hd : d ≠ s := fun h => hnot (by simp [h])
    rw [List.map_cons, List.count_cons, List.count_cons, ih fun hm => hnot (by simp [hm]), hhide]
    by_cases hbrace : d = '\x7b'
    · simp [hbrace]
    · simp [hbrace, hd]

/-- If braces are hidden, merging leaves the placeholders as they are. -/
theorem isIntact_of_standIn (h : (Protected.ofText t).standIn.isSome) : IsIntact o t := by
  intro ds hds
  have hdurable := isDurable_token hds
  have hmerging : occurrences (token ds) (Table.merging.pass o (beforeMerging o t)) =
      occurrences (token ds) (beforeMerging o t) :=
    Nat.le_antisymm
      (Table.occurrences_merging_le (fun _ => not_stump_beforeMerging h) (fun _ => hdurable.of_isMark)
        fun u v h _ hv => token_beginning hds u v h hv)
      (Table.occurrences_le_merging hdurable o _)
  have hbefore : occurrences (token ds) (beforeMerging o t) =
      occurrences (token ds) (extracted o t).1 :=
    Table.occurrences_setting_wrapping hdurable o _
  rw [← size_vault_settled o, vault_settled, ← occurrences_extracted o t hds (.inr h), ← hbefore,
    (settled_eq o t).1, Table.between, Table.pass_append, Table.pass_append,
    Table.occurrences_revealing hdurable, ← beforeMerging]
  split
  · exact hmerging
  · rw [Table.pass_nil]

/-- If braces are hidden, the last rule gets no more runs of braces than there are blocks. -/
theorem occurrences_braces_settled_le (h : (Protected.ofText t).standIn.isSome) :
    occurrences braces (settled o t).1 ≤ (storedCode t).length := by
  have hbrace : '\x7b' ∉ t.map (Protected.ofText t).hide ++ ['\n'] := by
    simp [brace_notMem_map_hide h]
  have hcount := occurrences_braces_weave hbrace 0
  have hmarked := not_markedBrace_weave hbrace 0
  have hlf : braces.head? ≠ some '\n' := by decide
  have hextracted : occurrences braces (extracted o t).1 = (storedCode t).length := by
    rw [text_extracted_eq_weave, occurrences_cons_of_head hlf (by decide), hcount,
      codes_gaps_map (hide_eq_backtick_iff t)]
    rfl
  have hmarked' : ∀ w ∈ markedBraces, ¬ w <:+: (extracted o t).1 := by
    intro w hw hin
    rw [text_extracted_eq_weave] at hin
    rcases List.infix_cons_iff.1 hin with hp | hin
    · simp only [markedBraces, List.mem_cons, List.not_mem_nil, or_false] at hw
      rcases hw with rfl | rfl <;> exact absurd (List.cons_prefix_cons.1 hp).1 (by decide)
    · exact hmarked w hw hin
  rw [← hextracted, (settled_eq o t).1]
  exact Table.occurrences_braces_between_le o hmarked' fun _ => not_stump_beforeMerging h

theorem brace_notMem_storedCode (h : (Protected.ofText t).standIn.isSome) {raw : Text}
    (hraw : raw ∈ storedCode t) : '\x7b' ∉ raw := by
  obtain ⟨c, hc, rfl⟩ := List.mem_map.1 hraw
  intro hm
  refine brace_notMem_map_hide h ?_
  obtain ⟨d, hd, heq⟩ := List.mem_map.1 hm
  exact List.mem_map.2 ⟨d, (infix_of_mem_codes hc).subset hd, heq⟩

/-- If braces are hidden, the last rule takes all runs of braces. -/
theorem not_braces_rewritten (hsize : byteSize t < indexBound)
    (h : (Protected.ofText t).standIn.isSome) :
    occurrences braces ((ofOptions o).rewritten t).1 = 0 := by
  have hintact := isIntact_of_standIn o h
  have hblocks : ∀ block ∈ (settled o t).2.vault.blocks, IsClosed braces block ∧
      occurrences braces block = 0 := by
    intro block hmem
    rw [← Array.mem_toList_iff, blocks_settled, List.mem_map] at hmem
    obtain ⟨raw, hraw, rfl⟩ := hmem
    exact braces_render (brace_notMem_storedCode h hraw)
  have hpieces : ∀ s v, .found s v ∈ Pattern.placeholder.pieces (settled o t).1 →
      IsClosed braces (Handler.reinsertCodeBlock ⟨s, v⟩ (settled o t).2).1 ∧
        occurrences braces (Handler.reinsertCodeBlock ⟨s, v⟩ (settled o t).2).1 + 1 ≤
          occurrences braces s := by
    intro s v hm
    obtain ⟨j, hj, -, hnamed⟩ := Table.named?_of_onlyPlaceholders (size_storedCode_le t hsize)
      hintact.onlyPlaceholders hm
    rw [← size_vault_settled o] at hj
    rw [Handler.reinsertCodeBlock_of_named?_lt hnamed hj]
    obtain ⟨hclosed, hzero⟩ := hblocks _ (Array.getElem_mem hj)
    have hpos := (occurrences_pos_iff (by decide)).2 (braces_infix_of_found hm)
    exact ⟨hclosed, by rw [hzero]; omega⟩
  have hmatches : (storedCode t).length ≤
      (Pattern.placeholder.pieces (settled o t).1).countP Piece.isFound := by
    have hperm := (hintact.indices_perm hsize).length_eq
    rw [List.length_range] at hperm
    rw [← hperm]
    exact Table.length_indices_le _ _
  have hle := occurrences_flatMap_image_le
    (fun m => (Handler.reinsertCodeBlock m (settled o t).2).1) 1 hpieces
  rw [Pattern.flatMap_source_pieces, Pattern.pieces_eq_piecesFrom, ← Pattern.rewriteFrom,
    ← Table.text_apply_reinsertion, ← rewritten_eq, ← Pattern.pieces_eq_piecesFrom, Nat.one_mul] at hle
  have hsettled := occurrences_braces_settled_le o h
  omega

/-! ## The result -/

/-- If a reserved token stands in a text and a private-use character does not, a stand-in is chosen. It
stands in the page as often as the brace does in the text, and neither it nor a run of braces is in the
HTML; each block is put in once, and no placeholder is reported. -/
theorem braces_neutralised (hsize : byteSize t < indexBound) (hoccurs : Reserved.occursIn t = true)
    (hfree : ∃ c ∈ Reserved.privateUse, c ∉ t) :
    ∃ s, (Protected.ofText t).standIn = some s ∧
      (trim ((ofOptions o).rewritten t).1).count s = t.count '\x7b' ∧
      s ∉ (ofOptions o).render t ∧ ¬ "\x7b\x7b\x7b".toList <:+: (ofOptions o).render t ∧
      ((ofOptions o).rewritten t).1 =
        (Table.frame (settled o t).2.vault.size (settled o t).1).fill
          (settled o t).2.vault.blocks.toList ∧
      (∀ i < (settled o t).2.vault.size,
        (Table.frame (settled o t).2.vault.size (settled o t).1).indices.count i = 1) ∧
      ∀ i, Warning.danglingPlaceholder i ∉ (ofOptions o).warnings t := by
  obtain ⟨s, hs⟩ := Option.isSome_iff_exists.1 (Reserved.isSome_standIn? hfree)
  have hstand : (Protected.ofText t).standIn = some s := by
    rw [Protected.ofText_of_standIn hoccurs hs]
  have hsome : (Protected.ofText t).standIn.isSome := by rw [hstand]; rfl
  have hlasting := isLasting_of_mem_privateUse (Protected.of_standIn?_eq_some hs).2
  have hintact := isIntact_of_standIn o hsome
  refine ⟨s, hstand, ?_, ?_, ?_, ?_, ?_, ?_⟩
  · rw [hlasting.count_trim, count_rewritten_of_isIntact o t hlasting hintact hsize, count_standIn hstand]
  · rw [render_eq, Protected.release, hstand]
    intro hm
    obtain ⟨d, -, hd⟩ := List.mem_flatMap.1 hm
    split at hd
    · exact hlasting.notMem_of_isAscii (s := Reserved.braceReference) rfl hd
    · rename_i hne
      exact hne (List.mem_singleton.1 hd).symm
  · have hle := (remarked_release (Protected.ofText t) ((ofOptions o).rewritten t).1).occurrences_le
      fun _ => braces_of_isMark
    rw [not_braces_rewritten o hsize hsome, ← render_eq] at hle
    exact (occurrences_eq_zero_iff (w := braces) (by decide)).1 (Nat.le_zero.1 hle)
  · rw [rewritten_eq, Table.text_apply_reinsertion_eq_fill]
  · intro i hi
    rw [size_vault_settled] at hi ⊢
    rw [hintact.count_indices hsize, if_pos hi]
  · intro i hi
    have hdangling := (Table.of_onlyPlaceholders (size_storedCode_le t hsize) hintact.onlyPlaceholders).2
    rw [warnings_ofOptions, size_vault_settled, hdangling, List.map_nil, List.append_nil,
      Option.mem_toList] at hi
    obtain ⟨location, -, heq⟩ := Option.map_eq_some_iff.1 hi
    exact absurd heq (by simp)

/-- A forged placeholder next to code. -/
theorem braces_neutralised_of_forged :
    ¬ "\x7b\x7b\x7b".toList <:+: (ofOptions {}).render "\x7b\x7b\x7b0\x7d\x7d\x7d ```x```".toList := by
  obtain ⟨s, -, -, -, h, -⟩ := braces_neutralised {} (t := "\x7b\x7b\x7b0\x7d\x7d\x7d ```x```".toList)
    (by decide) (by decide +kernel) ⟨'\uE000', by decide +kernel, by decide⟩
  exact h

end Renderer

end Markdown
