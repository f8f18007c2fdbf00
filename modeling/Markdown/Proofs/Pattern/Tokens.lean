import Markdown.Proofs.Pattern.Enclosed

/-!
# Seams and placeholders

A seam between two blocks is the end of one element and the beginning of the next, with at most one
white space between. A placeholder is a row of digits in triple braces; the pattern takes the tags
of a paragraph with it if they are directly around it.
-/

namespace Markdown

/-- Digits in triple braces, as the rules look for them. -/
def token (digits : Text) : Text :=
  "\x7b\x7b\x7b".toList ++ digits ++ "\x7d\x7d\x7d".toList

/-- A row of digits that is not empty. -/
def IsDigits (t : Text) : Prop :=
  t ≠ [] ∧ ∀ c ∈ t, c.isDigit

theorem placeholder_eq_token (n : Nat) : placeholder n = token (Text.ofNat n) := rfl

theorem IsDigits.notMem {t : Text} (h : IsDigits t) {c : Char} (hc : c.isDigit = false) :
    c ∉ t := by
  intro hm
  rw [h.2 c hm] at hc
  exact absurd hc (by simp)

/-- Where a token stands no other one stands. -/
theorem of_token_append_isPrefix {ds ds' t r : Text} (h : IsDigits ds) (h' : IsDigits ds')
    (hp : token ds ++ t <+: token ds' ++ r) : ds = ds' ∧ t <+: r := by
  obtain ⟨l, hl⟩ := hp
  have hl' : "\x7b\x7b\x7b".toList ++ (ds ++ '\x7d' :: ("\x7d\x7d".toList ++ (t ++ l))) =
      "\x7b\x7b\x7b".toList ++ (ds' ++ '\x7d' :: ("\x7d\x7d".toList ++ r)) := by
    simpa [token] using hl
  obtain ⟨hds, hrest⟩ :=
    Pattern.append_cons_inj (List.append_cancel_left hl') (h.notMem rfl) (h'.notMem rfl)
  exact ⟨hds, l, List.append_cancel_left hrest⟩

namespace Pattern

open Regex

variable {b : Option Char} {s l t : Text} {v : List (Option Text)}

/-! ## Seams -/

/-- What a seam takes of a text. -/
def seam (closing opening space : Text) : Text :=
  closing ++ space ++ opening

/-- What can stand between the two elements of a seam. -/
def IsSeamSpace (space : Text) : Prop :=
  space = [] ∨ ∃ c, Unicode.isWhiteSpace c ∧ space = [c]

theorem isPlain_adjacent (closing opening : Text) :
    (seqs (closing.map char ++ optional true (one .whiteSpace) :: opening.map char)).isPlain := by
  refine isPlain_seqs fun r hr => ?_
  simp only [List.mem_append, List.mem_map, List.mem_cons] at hr
  rcases hr with ⟨c, -, rfl⟩ | rfl | ⟨c, -, rfl⟩ <;> rfl

theorem isProper_adjacent {closing : Text} (opening : Text) (h : closing ≠ []) :
    (adjacent closing opening).finder.IsProper := by
  refine isProper_finder_regex (isPlain_adjacent closing opening) (isSolid_seqs ?_)
  obtain ⟨c, closing, rfl⟩ := List.exists_cons_of_ne_nil h
  exact ⟨char c, by simp, rfl⟩

theorem finder_adjacent_eq_none {closing : Text} (opening : Text) (b : Option Char)
    (h : ¬ closing <+: t) : (adjacent closing opening).finder (.of b t) = none := by
  rw [adjacent, finder, find_eq_head?_ways (isPlain_adjacent ..), ways_literal_eq_nil _ h]
  rfl

theorem opensWith_adjacent (closing opening : Text) :
    (adjacent closing opening).OpensWith [closing] :=
  fun b _ h => finder_adjacent_eq_none opening b (h closing (by simp))

/-- A match is a seam with at most one white space in it. -/
theorem eq_of_finder_adjacent {closing opening : Text}
    (h : (adjacent closing opening).finder (.of b (s ++ l)) = some (s.length, v)) :
    ∃ space, IsSeamSpace space ∧ s = seam closing opening space ∧ v = [] := by
  obtain ⟨w, hw, hlen, rfl⟩ := exists_way_of_find (isPlain_adjacent closing opening) h
  have ht := taken_append_left_of_mem_ways hw
  have hs : w.taken = s := (List.append_inj ht hlen).1
  obtain ⟨t', w', -, hw', rfl⟩ := exists_of_mem_ways_literal hw
  rw [ways_seqs_cons, List.mem_flatMap] at hw'
  obtain ⟨u, hu, hw'⟩ := hw'
  obtain ⟨x, hx, rfl⟩ := List.mem_map.1 hw'
  have hspace : IsSeamSpace u.taken := by
    rcases List.mem_append.1 hu with hu | hu
    · cases t' with
      | nil => simp [ways] at hu
      | cons c t' =>
        simp only [ways] at hu
        split at hu
        · rename_i hc
          obtain rfl : u = _ := by simpa using hu
          exact .inr ⟨c, hc, rfl⟩
        · simp at hu
    · obtain rfl : u = _ := by simpa [ways] using hu
      exact .inl rfl
  have hx' : x.taken = opening := by
    rw [← List.append_nil (opening.map char)] at hx
    obtain ⟨t'', y, -, hy, rfl⟩ := exists_of_mem_ways_literal hx
    obtain rfl : y = _ := by simpa [seqs, ways] using hy
    simp [Way.andThen]
  exact ⟨u.taken, hspace, by simp [← hs, Way.andThen, seam, hx'], rfl⟩

/-- A seam with a line feed in it is found. -/
theorem finder_adjacent_lineFeed (closing opening : Text) (b : Option Char) (r : Text) :
    (adjacent closing opening).finder (.of b (seam closing opening ['\n'] ++ r)) =
      some ((seam closing opening ['\n']).length, []) := by
  have hsplit : seam closing opening ['\n'] ++ r = closing ++ ('\n' :: (opening ++ r)) := by
    simp [seam]
  have hspace : CharSet.whiteSpace.contains '\n' := by decide
  have hopening (b : Option Char) := ways_text opening b r
  rw [text] at hopening
  rw [adjacent, finder, find_eq_head?_ways (isPlain_adjacent ..), hsplit, ways_literal,
    ways_seqs_cons, Regex.optional, if_pos rfl, ways, ways.eq_3, if_pos hspace]
  simp [hopening, Way.andThen, Way.groupTexts, seam]

/-! ## Placeholders -/

/-- The text of a placeholder in a paragraph of its own. -/
def wrappedToken (digits : Text) : Text :=
  "<p>".toList ++ token digits ++ "</p>".toList

theorem isProper_placeholder : placeholder.finder.IsProper :=
  isProper_finder_regex rfl rfl

/-- The parts of a placeholder, with a literal text in front and one behind. -/
def tokenProgram (before behind : Text) (index : Nat) : Regex :=
  seqs ((before ++ "\x7b\x7b\x7b".toList).map char ++
    group index (run1 true (.range '0' '9')) :: (("\x7d\x7d\x7d".toList ++ behind).map char ++ []))

theorem placeholder_eq :
    placeholder = regex placeholder.key
      (alt (tokenProgram "<p>".toList "</p>".toList 1) (tokenProgram [] [] 2)) 2 := rfl

theorem head?_ways_tokenProgram (before behind : Text) (index : Nat) (b : Option Char)
    {digits : Text} (h : IsDigits digits) (r : Text) :
    ((tokenProgram before behind index).ways b (before ++ token digits ++ behind ++ r)).head? =
      some ⟨before ++ token digits ++ behind, r, [(index, digits)]⟩ := by
  -- a digit is no brace, so the run of digits cannot be left early
  have hstop (b : Option Char) (a : Char) (l : Text) (ha : (CharSet.range '0' '9').contains a) :
      (seqs (("\x7d\x7d\x7d".toList ++ behind).map char ++ [])).ways b (a :: l) = [] := by
    refine ways_literal_eq_nil _ fun hp => ?_
    have hp' : '\x7d' :: ("\x7d\x7d".toList ++ behind) <+: a :: l := hp
    obtain rfl := (List.cons_prefix_cons.1 hp').1
    exact absurd ha (by decide)
  have hsplit : before ++ token digits ++ behind ++ r =
      (before ++ "\x7b\x7b\x7b".toList) ++ (digits ++ ("\x7d\x7d\x7d".toList ++ behind ++ r)) := by
    simp [token]
  have htake : (digits ++ ("\x7d\x7d\x7d".toList ++ behind ++ r)).takeWhile Char.isDigit = digits := by
    rw [List.takeWhile_append_of_pos h.2]
    simp
  have hdrop : (digits ++ ("\x7d\x7d\x7d".toList ++ behind ++ r)).dropWhile Char.isDigit =
      "\x7d\x7d\x7d".toList ++ behind ++ r := by
    rw [List.dropWhile_append_of_pos h.2]
    simp
  rw [hsplit, tokenProgram, ways_literal, List.head?_map, ways_seqs_cons, ways, List.flatMap_map,
    head?_flatMap_run1 _ _ _ _ (.inr fun u a l ha => by rw [Way.record, hstop _ _ _ ha, List.map_nil]),
    contains_digit, htake, hdrop, if_neg h.1, Way.record, ways_literal]
  simp [seqs, ways, Way.andThen, token]

theorem exists_of_mem_ways_tokenProgram {before behind : Text} {index : Nat} {w : Way}
    (h : w ∈ (tokenProgram before behind index).ways b t) :
    ∃ digits, IsDigits digits ∧ w.taken = before ++ token digits ++ behind ∧
      w.groups = [(index, digits)] := by
  obtain ⟨t₁, w₁, -, h₁, rfl⟩ := exists_of_mem_ways_literal h
  obtain ⟨digits, t₂, w₂, -, hne, hall, h₂, rfl⟩ := exists_of_mem_ways_group_run1 _ _ h₁
  obtain rfl : w₂ = ⟨[], t₂, []⟩ := by simpa [seqs, ways] using h₂
  exact ⟨digits, ⟨hne, fun c hc => contains_digit ▸ hall c hc⟩, by simp [Way.andThen, token],
    by simp [Way.andThen]⟩

/-- A match is a placeholder or one in a paragraph of its own. -/
theorem eq_of_finder_placeholder
    (h : placeholder.finder (.of b (s ++ l)) = some (s.length, v)) :
    ∃ digits, IsDigits digits ∧ (s = wrappedToken digits ∧ v = [some digits, none] ∨
      s = token digits ∧ v = [none, some digits]) := by
  rw [placeholder_eq] at h
  obtain ⟨w, hw, hlen, rfl⟩ := exists_way_of_find rfl h
  have hs : w.taken = s := (List.append_inj (taken_append_left_of_mem_ways hw) hlen).1
  rcases List.mem_append.1 hw with hw | hw
  · obtain ⟨digits, hdigits, htaken, hgs⟩ := exists_of_mem_ways_tokenProgram hw
    refine ⟨digits, hdigits, .inl ⟨by rw [← hs, htaken]; rfl, ?_⟩⟩
    simp [Way.groupTexts, hgs, List.range_succ, List.lookup_cons]
  · obtain ⟨digits, hdigits, htaken, hgs⟩ := exists_of_mem_ways_tokenProgram hw
    refine ⟨digits, hdigits, .inr ⟨by rw [← hs, htaken]; simp, ?_⟩⟩
    simp [Way.groupTexts, hgs, List.range_succ, List.lookup_cons]

/-- A placeholder in a paragraph of its own is found with the tags. -/
theorem finder_placeholder_wrappedToken {digits : Text} (h : IsDigits digits) (b : Option Char)
    (r : Text) : placeholder.finder (.of b (wrappedToken digits ++ r)) =
      some ((wrappedToken digits).length, [some digits, none]) := by
  have hhead : ((tokenProgram "<p>".toList "</p>".toList 1).ways b (wrappedToken digits ++ r)).head? =
      some ⟨wrappedToken digits, r, [(1, digits)]⟩ := head?_ways_tokenProgram _ _ 1 b h r
  rw [placeholder_eq, finder, find_eq_head?_ways rfl, ways, List.head?_append, hhead]
  rfl

/-- A placeholder is found without tags if it stands at the place itself. -/
theorem finder_placeholder_token {digits : Text} (h : IsDigits digits) (b : Option Char)
    (r : Text) : placeholder.finder (.of b (token digits ++ r)) =
      some ((token digits).length, [none, some digits]) := by
  have htag : ¬ "<p>".toList ++ "\x7b\x7b\x7b".toList <+: token digits ++ r := by
    intro hp
    have hp' : '<' :: "p>\x7b\x7b\x7b".toList <+: '\x7b' :: ("\x7b\x7b".toList ++ digits ++
      "\x7d\x7d\x7d".toList ++ r) := hp
    exact absurd (List.cons_prefix_cons.1 hp').1 (by decide)
  have hhead := head?_ways_tokenProgram [] [] 2 b h r
  rw [List.nil_append, List.append_nil] at hhead
  rw [placeholder_eq, finder, find_eq_head?_ways rfl, ways, tokenProgram,
    ways_literal_eq_nil _ htag, List.nil_append, hhead]
  rfl

theorem finder_placeholder_ne_none {digits : Text} (h : IsDigits digits) (b : Option Char)
    (r : Text) : placeholder.finder (.of b (token digits ++ r)) ≠ none := by
  rw [finder_placeholder_token h b r]
  exact Option.some_ne_none _

/-- Nothing is found in a text without an opening brace. -/
theorem finder_placeholder_eq_none_of_notMem (b : Option Char) {t : Text} (h : '\x7b' ∉ t) :
    placeholder.finder (.of b t) = none := by
  refine finder_eq_none isProper_placeholder ?_
  rintro s l v rfl hf
  obtain ⟨digits, -, ⟨rfl, -⟩ | ⟨rfl, -⟩⟩ := eq_of_finder_placeholder hf
  · simp [wrappedToken, token] at h
  · simp [token] at h

/-- In front of a token nothing is found, unless it is the only one in a paragraph and the tag stands
there. -/
theorem finder_placeholder_eq_none (b : Option Char) {u digits r : Text} (hu : '\x7b' ∉ u)
    (hne : u ≠ []) (h : IsDigits digits) (hparagraph : u = "<p>".toList → ¬ "</p>".toList <+: r) :
    placeholder.finder (.of b (u ++ (token digits ++ r))) = none := by
  refine finder_eq_none isProper_placeholder fun s l v hs hf => ?_
  have htoken (ds y : Text) : token ds ++ y =
      '\x7b' :: ("\x7b\x7b".toList ++ ds ++ "\x7d\x7d\x7d".toList ++ y) := rfl
  -- what stands in front of the first brace is the same on both sides
  obtain ⟨digits', h', ⟨rfl, -⟩ | ⟨rfl, -⟩⟩ := eq_of_finder_placeholder hf
  · have hs' : u ++ (token digits ++ r) = "<p>".toList ++ (token digits' ++ ("</p>".toList ++ l)) := by
      rw [hs, wrappedToken]
      simp only [List.append_assoc]
    rw [htoken, htoken] at hs'
    obtain ⟨hup, hrest⟩ := append_cons_inj hs' hu (by decide)
    have hpre : token digits' ++ "</p>".toList <+: token digits ++ r :=
      ⟨l, by rw [htoken digits, hrest, ← htoken, List.append_assoc]⟩
    exact hparagraph hup (of_token_append_isPrefix h' h hpre).2
  · have hs' : u ++ (token digits ++ r) = [] ++ (token digits' ++ l) := hs
    rw [htoken, htoken] at hs'
    exact hne (append_cons_inj hs' hu (by simp)).1

end Pattern

end Markdown
