import Markdown.Pattern.Standard
import Markdown.Proofs.Rewriting

/-!
# Patterns between two texts

Five of the standard patterns take the shortest stretch from an opening text to the next place where
a closing text stands, and two take a reference: a text in brackets and an address in parentheses
behind an opening text.
-/

namespace Markdown.Pattern

open Regex

variable {b : Option Char} {s t l : Text} {v : List (Option Text)}

/-! ## Shortest stretches -/

/-- What stands between an opening and a closing text, as short as it can be, with characters of a
set only. -/
def enclosed (source opening closing : Text) (S : CharSet) : Pattern :=
  regex source (seqs (opening.map char ++ group 1 (run false S) :: closing.map char)) 1

theorem fencedCode_eq : fencedCode = enclosed "(?s)```(.*?)```".toList fence fence .any := rfl

theorem quotation_eq :
    quotation = enclosed ":\"(.*?)\":".toList [':', '"'] ['"', ':'] .notLineFeed := rfl

theorem inlineCode_eq :
    inlineCode = enclosed "`(.*?)`".toList ['`'] ['`'] .notLineFeed := rfl

theorem linkTag_eq :
    linkTag = enclosed "<a href='(.*?)'>".toList "<a href='".toList ['\'', '>'] .notLineFeed := rfl

theorem imageTag_eq :
    imageTag = enclosed "<img src='(.*?)'".toList "<img src='".toList ['\''] .notLineFeed := rfl

/-- A sequence of parts is plain if all of them are. -/
theorem isPlain_seqs {rs : List Regex} (h : ∀ r ∈ rs, r.isPlain) : (seqs rs).isPlain := by
  induction rs with
  | nil => rfl
  | cons r rs ih =>
    cases rs with
    | nil => exact h r (by simp)
    | cons r' rs =>
      simp only [seqs, isPlain, Bool.and_eq_true]
      exact ⟨h r (by simp), ih fun q hq => h q (by simp [hq])⟩

/-- A sequence of parts takes something if one of them does. -/
theorem isSolid_seqs {rs : List Regex} (h : ∃ r ∈ rs, r.isSolid) : (seqs rs).isSolid := by
  induction rs with
  | nil => simp at h
  | cons r rs ih =>
    cases rs with
    | nil => simpa [seqs] using h
    | cons r' rs =>
      simp only [seqs, isSolid, Bool.or_eq_true]
      obtain ⟨q, hq, hsolid⟩ := h
      rcases List.mem_cons.1 hq with rfl | hq
      · exact .inl hsolid
      · exact .inr (ih ⟨q, hq, hsolid⟩)

theorem isPlain_enclosed (opening closing : Text) (S : CharSet) :
    (seqs (opening.map char ++ group 1 (run false S) :: closing.map char)).isPlain := by
  refine isPlain_seqs fun r hr => ?_
  simp only [List.mem_append, List.mem_map, List.mem_cons] at hr
  rcases hr with ⟨c, -, rfl⟩ | rfl | ⟨c, -, rfl⟩ <;> rfl

theorem isProper_enclosed (source : Text) {opening closing : Text} (S : CharSet)
    (h : opening ≠ []) : (enclosed source opening closing S).finder.IsProper := by
  refine isProper_finder_regex (isPlain_enclosed ..) (isSolid_seqs ?_)
  obtain ⟨c, opening, rfl⟩ := List.exists_cons_of_ne_nil h
  exact ⟨char c, by simp, rfl⟩

theorem isProper_fencedCode : fencedCode.finder.IsProper := by
  rw [fencedCode_eq]
  exact isProper_enclosed _ .any (by simp [fence])

theorem finder_enclosed_append (source opening closing : Text) (S : CharSet) (b : Option Char)
    (t : Text) :
    (enclosed source opening closing S).finder (.of b (opening ++ t)) =
      (Text.cut? S.contains closing t).map fun r =>
        ((opening ++ r.1 ++ closing).length, [some r.1]) := by
  rw [enclosed, finder, find_eq_head?_ways (isPlain_enclosed ..), ways_literal, List.head?_map,
    head?_shortest, Option.map_map, Option.map_map]
  congr 1
  funext cut
  obtain ⟨g, r⟩ := cut
  simp [Way.andThen, Way.groupTexts]

theorem finder_enclosed_eq_none (source : Text) {opening : Text} (closing : Text)
    (S : CharSet) (b : Option Char) (h : ¬ opening <+: t) :
    (enclosed source opening closing S).finder (.of b t) = none := by
  rw [enclosed, finder, find_eq_head?_ways (isPlain_enclosed ..), ways_literal_eq_nil _ h]
  rfl

theorem opensWith_enclosed (source opening closing : Text) (S : CharSet) :
    (enclosed source opening closing S).OpensWith [opening] :=
  fun b _ h => finder_enclosed_eq_none source closing S b (h opening (by simp))

/-- A match is what stands between the opening text and a closing one, with both. -/
theorem eq_of_finder_enclosed {source opening closing : Text} {S : CharSet}
    (h : (enclosed source opening closing S).finder (.of b (s ++ l)) = some (s.length, v)) :
    ∃ g, s = opening ++ g ++ closing ∧ v = [some g] ∧ ∀ c ∈ g, S.contains c := by
  by_cases hp : opening <+: s ++ l
  · obtain ⟨t, ht⟩ := hp
    rw [← ht, finder_enclosed_append, Option.map_eq_some_iff] at h
    obtain ⟨⟨g, r⟩, hcut, heq⟩ := h
    obtain ⟨hlen, rfl⟩ := Prod.mk.inj heq
    obtain ⟨rfl, hall⟩ := Text.eq_append_of_cut? hcut
    refine ⟨g, ?_, rfl, hall⟩
    have hs : s ++ l = (opening ++ g ++ closing) ++ r := by simp [← ht]
    exact (List.append_inj hs hlen.symm).1
  · rw [finder_enclosed_eq_none _ _ _ _ hp] at h
    simp at h

/-- What is found ends at the first place where the closing text stands. -/
theorem exists_of_finder_enclosed {source opening closing : Text} {S : CharSet} {n : Nat}
    (hne : closing ≠ []) (h : (enclosed source opening closing S).finder (.of b t) = some (n, v)) :
    ∃ g r, t = opening ++ g ++ closing ++ r ∧ n = (opening ++ g ++ closing).length ∧ v = [some g] ∧
      (∀ c ∈ g, S.contains c) ∧ ¬ closing <:+: g := by
  by_cases hp : opening <+: t
  · obtain ⟨t, rfl⟩ := hp
    rw [finder_enclosed_append, Option.map_eq_some_iff] at h
    obtain ⟨⟨g, r⟩, hcut, heq⟩ := h
    obtain ⟨hlen, rfl⟩ := Prod.mk.inj heq
    obtain ⟨rfl, hall⟩ := Text.eq_append_of_cut? hcut
    exact ⟨g, r, by simp, hlen.symm, rfl, hall, Text.not_infix_of_cut? hne hcut⟩
  · rw [finder_enclosed_eq_none _ _ _ _ hp] at h
    exact absurd h (by simp)

theorem finder_enclosed_of (source opening closing : Text) (S : CharSet) (b : Option Char)
    (t : Text) : (enclosed source opening closing S).finder (.of b t) =
      (enclosed source opening closing S).finder (.of none t) := by
  by_cases hp : opening <+: t
  · obtain ⟨t, rfl⟩ := hp
    rw [finder_enclosed_append, finder_enclosed_append]
  · rw [finder_enclosed_eq_none _ _ _ _ hp, finder_enclosed_eq_none _ _ _ _ hp]

theorem isProper_quotation : quotation.finder.IsProper := by
  rw [quotation_eq]
  exact isProper_enclosed _ .notLineFeed (by simp)

theorem isProper_inlineCode : inlineCode.finder.IsProper := by
  rw [inlineCode_eq]
  exact isProper_enclosed _ .notLineFeed (by simp)

theorem isProper_linkTag : linkTag.finder.IsProper := by
  rw [linkTag_eq]
  exact isProper_enclosed _ .notLineFeed (by simp)

theorem isProper_imageTag : imageTag.finder.IsProper := by
  rw [imageTag_eq]
  exact isProper_enclosed _ .notLineFeed (by simp)

theorem opensWith_quotation : quotation.OpensWith [[':', '"']] :=
  quotation_eq ▸ opensWith_enclosed _ _ _ .notLineFeed

theorem opensWith_inlineCode : inlineCode.OpensWith [['`']] :=
  inlineCode_eq ▸ opensWith_enclosed _ _ _ .notLineFeed

theorem opensWith_linkTag : linkTag.OpensWith ["<a href='".toList] :=
  linkTag_eq ▸ opensWith_enclosed _ _ _ .notLineFeed

theorem opensWith_imageTag : imageTag.OpensWith ["<img src='".toList] :=
  imageTag_eq ▸ opensWith_enclosed _ _ _ .notLineFeed

/-- A match among the pieces of fenced code is code between two fences. -/
theorem of_found_mem_pieces_fencedCode {d taken : Text} {groups : List (Option Text)}
    (h : Piece.found taken groups ∈ fencedCode.pieces d) :
    ∃ g, taken = fence ++ g ++ fence ∧ groups = [some g] ∧ taken <:+: d := by
  rw [pieces_eq_piecesFrom] at h
  obtain ⟨b, r, hr, hf⟩ := isProper_fencedCode.of_found_mem_piecesFrom h
  rw [fencedCode_eq] at hf
  obtain ⟨g, hs, hv, -⟩ := eq_of_finder_enclosed hf
  exact ⟨g, hs, hv, (List.prefix_append taken r).isInfix.trans hr.isInfix⟩

/-- A stretch whose text does not have the first character of the closing one is found. -/
theorem finder_enclosed (source opening : Text) {closing : Text} {c : Char} {S : CharSet}
    (b : Option Char) {g : Text} (r : Text) (hg : ∀ d ∈ g, S.contains d) (hc : c ∉ g) :
    (enclosed source opening (c :: closing) S).finder
        (.of b (opening ++ g ++ c :: closing ++ r)) =
      some ((opening ++ g ++ c :: closing).length, [some g]) := by
  have ht : opening ++ g ++ c :: closing ++ r = opening ++ (g ++ c :: closing ++ r) := by simp
  rw [ht, finder_enclosed_append, Text.cut?_append hg hc]
  rfl

theorem turns_enclosed (source opening closing : Text) (hne : opening ≠ []) {c : Char}
    {S : CharSet} (ρ : Match → Text) {g : Text} (r : Text)
    (hg : ∀ d ∈ g, S.contains d) (hc : c ∉ g) :
    (enclosed source opening (c :: closing) S).Turns ρ r (opening ++ g ++ c :: closing)
      (ρ ⟨opening ++ g ++ c :: closing, [some g]⟩) :=
  .of_found (isProper_enclosed source S hne) ρ fun b => finder_enclosed source opening b r hg hc

/-! ## References -/

/-- A reference behind an opening text, the bracket included. -/
def referring (source opening : Text) : Pattern :=
  regex source (seqs (opening.map char ++ reference.tail)) 2

theorem image_eq : image = referring "!\\[([^\\[]+)\\]\\(([^\\)]+)\\)".toList ['!', '['] := rfl

theorem link_eq : link = referring "\\[([^\\[]+)\\]\\(([^\\)]+)\\)".toList ['['] := rfl

theorem isPlain_referring (opening : Text) : (seqs (opening.map char ++ reference.tail)).isPlain := by
  refine isPlain_seqs fun r hr => ?_
  simp only [List.mem_append, List.mem_map] at hr
  rcases hr with ⟨c, -, rfl⟩ | hr
  · rfl
  · revert r
    decide

theorem isProper_referring (source opening : Text) :
    (referring source opening).finder.IsProper :=
  isProper_finder_regex (isPlain_referring opening) (isSolid_seqs ⟨char ')', by simp [reference], rfl⟩)

theorem finder_referring_eq_none (source : Text) {opening : Text} (b : Option Char)
    (h : ¬ opening <+: t) : (referring source opening).finder (.of b t) = none := by
  rw [referring, finder, find_eq_head?_ways (isPlain_referring _), ways_literal_eq_nil _ h]
  rfl

theorem opensWith_referring (source opening : Text) :
    (referring source opening).OpensWith [opening] :=
  fun b _ h => finder_referring_eq_none source b (h opening (by simp))

theorem isProper_image : image.finder.IsProper := by
  rw [image_eq]
  exact isProper_referring _ _

theorem isProper_link : link.finder.IsProper := by
  rw [link_eq]
  exact isProper_referring _ _

theorem opensWith_image : image.OpensWith [['!', '[']] :=
  image_eq ▸ opensWith_referring _ _

theorem opensWith_link : link.OpensWith [['[']] :=
  link_eq ▸ opensWith_referring _ _

/-- The text of a reference behind an opening text. -/
def referenceText (opening description address : Text) : Text :=
  opening ++ description ++ ']' :: '(' :: address ++ [')']

/-- A description and an address that a reference can have. -/
structure IsReference (description address : Text) : Prop where
  description_ne : description ≠ []
  address_ne : address ≠ []
  bracket_notMem : '[' ∉ description
  parenthesis_notMem : ')' ∉ address

theorem exists_of_mem_ways_literal {lit : Text} {rs : List Regex} {w : Way}
    (h : w ∈ (seqs (lit.map char ++ rs)).ways b t) :
    ∃ t' v, t = lit ++ t' ∧ v ∈ (seqs rs).ways (lastOr b lit) t' ∧
      w = Way.andThen ⟨lit, t', []⟩ v := by
  by_cases hp : lit <+: t
  · obtain ⟨t', rfl⟩ := hp
    rw [ways_literal] at h
    obtain ⟨v, hv, rfl⟩ := List.mem_map.1 h
    exact ⟨t', v, rfl, hv, rfl⟩
  · rw [ways_literal_eq_nil _ hp] at h
    simp at h

theorem of_mem_ways_run1 {greedy : Bool} {S : CharSet} {w : Way}
    (h : w ∈ (run1 greedy S).ways b t) :
    w.taken ≠ [] ∧ w.taken ++ w.left = t ∧ (∀ c ∈ w.taken, S.contains c) ∧ w.groups = [] := by
  refine ⟨taken_ne_nil_of_mem_ways rfl h, taken_append_left_of_mem_ways h, ?_⟩
  cases t with
  | nil => simp [run1, ways] at h
  | cons a t =>
    simp only [run1, ways] at h
    by_cases ha : S.contains a
    · have hrun : ∃ v ∈ runs S t, w = Way.andThen ⟨[a], t, []⟩ v := by
        rw [if_pos ha] at h
        cases greedy <;> simpa [eq_comm] using h
      obtain ⟨v, hv, rfl⟩ := hrun
      obtain ⟨-, hall, hgs⟩ := mem_runs.1 hv
      simpa [Way.andThen, ha, hgs] using hall
    · simp [if_neg ha] at h

/-- A run of at least one character that is recorded, and then a literal and other parts. -/
theorem exists_of_mem_ways_group_run1 {index : Nat} {S : CharSet} (lit : Text) (rs : List Regex)
    {w : Way} (h : w ∈ (seqs (group index (run1 true S) :: (lit.map char ++ rs))).ways b t) :
    ∃ g t' v, t = g ++ lit ++ t' ∧ g ≠ [] ∧ (∀ c ∈ g, S.contains c) ∧
      v ∈ (seqs rs).ways (lastOr b (g ++ lit)) t' ∧
      w = ⟨g ++ lit ++ v.taken, v.left, v.groups ++ [(index, g)]⟩ := by
  rw [ways_seqs_cons] at h
  simp only [List.mem_flatMap, List.mem_map, ways] at h
  obtain ⟨u, ⟨u', hu', rfl⟩, x, hx, rfl⟩ := h
  obtain ⟨hne, ht, hall, hgs⟩ := of_mem_ways_run1 hu'
  obtain ⟨t', v, hleft, hv, rfl⟩ := exists_of_mem_ways_literal hx
  refine ⟨u'.taken, t', v, ?_, hne, hall, by rwa [lastOr_append], ?_⟩
  · rw [← ht, show u'.left = lit ++ t' from hleft, List.append_assoc]
  · simp [Way.andThen, Way.record, hgs]

theorem mem_ways_run1 {greedy : Bool} {S : CharSet} {g : Text} (hg : g ≠ [])
    (hall : ∀ c ∈ g, S.contains c) : ⟨g, t, []⟩ ∈ (run1 greedy S).ways b (g ++ t) := by
  obtain ⟨a, g, rfl⟩ := List.exists_cons_of_ne_nil hg
  have ha : S.contains a := hall a (by simp)
  have hrun : (⟨g, t, []⟩ : Way) ∈ runs S (g ++ t) :=
    mem_runs.2 ⟨rfl, fun c hc => hall c (by simp [hc]), rfl⟩
  simp only [run1, ways, List.cons_append, if_pos ha, List.flatMap_cons, List.flatMap_nil,
    List.append_nil, List.mem_map]
  refine ⟨⟨g, t, []⟩, ?_, by simp [Way.andThen]⟩
  cases greedy <;> simpa using hrun

theorem mem_ways_group_run1 (index : Nat) {S : CharSet} (lit : Text) {g : Text} (rs : List Regex)
    {w : Way}
    (hg : g ≠ []) (hall : ∀ c ∈ g, S.contains c)
    (hw : w ∈ (seqs rs).ways (lastOr b (g ++ lit)) t) :
    ⟨g ++ lit ++ w.taken, w.left, w.groups ++ [(index, g)]⟩ ∈
      (seqs (group index (run1 true S) :: (lit.map char ++ rs))).ways b (g ++ lit ++ t) := by
  rw [ways_seqs_cons, List.append_assoc g]
  simp only [List.mem_flatMap, List.mem_map, ways]
  refine ⟨_, ⟨_, mem_ways_run1 hg hall, rfl⟩, Way.andThen ⟨lit, t, []⟩ w, ?_, ?_⟩
  · simp only [Way.record, ways_literal]
    rw [lastOr_append] at hw
    exact List.mem_map_of_mem hw
  · simp [Way.andThen, Way.record]

/-- Every way to match a reference takes the text of one. -/
theorem exists_of_mem_ways_referring {opening : Text} {w : Way}
    (h : w ∈ (seqs (opening.map char ++ reference.tail)).ways b t) :
    ∃ x u, IsReference x u ∧ t = referenceText opening x u ++ w.left ∧
      w.taken = referenceText opening x u ∧ w.groups = [(2, u), (1, x)] := by
  obtain ⟨t₁, w₁, rfl, h₁, rfl⟩ := exists_of_mem_ways_literal h
  obtain ⟨x, t₂, w₂, rfl, hx, hxall, h₂, rfl⟩ :=
    exists_of_mem_ways_group_run1 [']', '('] _ h₁
  obtain ⟨u, t₃, w₃, rfl, hu, huall, h₃, rfl⟩ :=
    exists_of_mem_ways_group_run1 [')'] [] h₂
  obtain rfl : w₃ = ⟨[], t₃, []⟩ := by simpa [seqs, ways] using h₃
  have hx' : '[' ∉ x := fun hc => by simpa [CharSet.contains, CharSet.contains_single] using hxall _ hc
  have hu' : ')' ∉ u := fun hc => by simpa [CharSet.contains, CharSet.contains_single] using huall _ hc
  exact ⟨x, u, ⟨hx, hu, hx', hu'⟩, by simp [referenceText, Way.andThen], by simp [referenceText, Way.andThen],
    by simp [Way.andThen]⟩

/-- A match is the text of a reference, and its groups are the description and the address. -/
theorem eq_of_finder_referring {source opening : Text}
    (h : (referring source opening).finder (.of b (s ++ l)) = some (s.length, v)) :
    ∃ x u, IsReference x u ∧ s = referenceText opening x u ∧ v = [some x, some u] := by
  obtain ⟨w, hw, hlen, hv⟩ := exists_way_of_find (isPlain_referring opening) h
  obtain ⟨x, u, href, ht, htaken, hgs⟩ := exists_of_mem_ways_referring hw
  refine ⟨x, u, href, ?_, ?_⟩
  · rw [htaken] at hlen
    exact (List.append_inj ht hlen.symm).1
  · rw [← hv]
    simp [Way.groupTexts, hgs, List.range_succ, List.lookup_cons]

/-- What stands before the first occurrence of a character or a byte is determined by the whole. -/
theorem append_cons_inj {α : Type} {c : α} {g g' r r' : List α}
    (h : g ++ c :: r = g' ++ c :: r') (hg : c ∉ g) (hg' : c ∉ g') : g = g' ∧ r = r' := by
  induction g generalizing g' with
  | nil =>
    cases g' with
    | nil => simpa using h
    | cons d g' =>
      obtain ⟨rfl, -⟩ := List.cons.inj h
      simp at hg'
  | cons d g ih =>
    cases g' with
    | nil =>
      obtain ⟨rfl, -⟩ := List.cons.inj h
      simp at hg
    | cons d' g' =>
      obtain ⟨rfl, htail⟩ := List.cons.inj h
      obtain ⟨rfl, rfl⟩ := ih htail (fun hm => hg (by simp [hm])) fun hm => hg' (by simp [hm])
      exact ⟨rfl, rfl⟩

/-- A description that ends later has a closing bracket behind the first end. -/
theorem description_eq {x x' t t' : Text} (h : x' ++ ']' :: '(' :: t' = x ++ ']' :: '(' :: t)
    (hx : ']' ∉ x) (hx' : '[' ∉ x') (ht : ']' ∉ t.takeWhile (· != '[')) : x' = x := by
  rcases List.append_eq_append_iff.1 h with ⟨y, rfl, hy⟩ | ⟨y, rfl, hy⟩
  · cases y with
    | nil => simp
    | cons c y =>
      obtain ⟨rfl, -⟩ := List.cons.inj hy
      simp at hx
  · cases y with
    | nil => simp
    | cons c y =>
      obtain ⟨rfl, hy⟩ := List.cons.inj hy
      cases y with
      | nil => simp at hy
      | cons c y =>
        simp only [List.cons_append, List.cons.injEq, true_and] at hy
        obtain ⟨rfl, rfl⟩ := hy
        refine absurd ?_ ht
        have hy' : ∀ d ∈ y, d != '[' := fun d hd => by
          have : d ≠ '[' := fun he => hx' (by subst he; simp [hd])
          simpa using this
        rw [List.takeWhile_append_of_pos hy']
        simp

/-- The text of a reference is found where no other end of the description is in sight: no closing
bracket stands in the description, nor behind it before the next opening bracket. -/
theorem finder_referring (source opening : Text) (b : Option Char) {x u : Text} (r : Text)
    (h : IsReference x u) (hx : ']' ∉ x) (hr : ']' ∉ (u ++ ')' :: r).takeWhile (· != '[')) :
    (referring source opening).finder (.of b (referenceText opening x u ++ r)) =
      some ((referenceText opening x u).length, [some x, some u]) := by
  have hmem : (⟨referenceText opening x u, r, [(2, u), (1, x)]⟩ : Way) ∈
      (seqs (opening.map char ++ reference.tail)).ways b (referenceText opening x u ++ r) := by
    have hx' : ∀ c ∈ x, (CharSet.compl (.single '[')).contains c := fun c hc => by
      have : c ≠ '[' := fun he => h.bracket_notMem (he ▸ hc)
      simpa [CharSet.contains, CharSet.contains_single]
    have hu' : ∀ c ∈ u, (CharSet.compl (.single ')')).contains c := fun c hc => by
      have : c ≠ ')' := fun he => h.parenthesis_notMem (he ▸ hc)
      simpa [CharSet.contains, CharSet.contains_single]
    have h₂ := mem_ways_group_run1 2 [')'] [] (b := lastOr (lastOr b opening) (x ++ [']', '(']))
      (t := r) (w := ⟨[], r, []⟩) h.address_ne hu' (by simp [seqs, ways])
    have h₁ := mem_ways_group_run1 1 [']', '('] _ h.description_ne hx' h₂
    have ht : referenceText opening x u ++ r = opening ++ (x ++ [']', '('] ++ (u ++ [')'] ++ r)) := by
      simp [referenceText]
    rw [ht, ways_literal]
    exact List.mem_map.2 ⟨_, h₁, by simp [Way.andThen, referenceText]⟩
  -- the description ends at the first closing bracket, and the address at the first parenthesis
  have huniq : ∀ w ∈ (seqs (opening.map char ++ reference.tail)).ways b
      (referenceText opening x u ++ r), w = ⟨referenceText opening x u, r, [(2, u), (1, x)]⟩ := by
    intro w hw
    obtain ⟨x', u', href, ht, htaken, hgs⟩ := exists_of_mem_ways_referring hw
    simp only [referenceText, List.append_assoc, List.cons_append, List.append_cancel_left_eq] at ht
    obtain rfl : x' = x := description_eq ht.symm hx href.bracket_notMem (by simpa using hr)
    simp only [List.append_cancel_left_eq, List.cons.injEq, true_and, List.nil_append] at ht
    obtain ⟨rfl, hleft⟩ := append_cons_inj ht h.parenthesis_notMem href.parenthesis_notMem
    obtain ⟨taken, left, groups⟩ := w
    simp only at htaken hgs hleft
    rw [htaken, hgs, hleft]
  rw [referring, finder, find_eq_head?_ways (isPlain_referring opening)]
  cases hws : (seqs (opening.map char ++ reference.tail)).ways b (referenceText opening x u ++ r) with
  | nil => simp [hws] at hmem
  | cons w ws =>
    rw [huniq w (by simp [hws])]
    simp [Way.groupTexts, List.range_succ, List.lookup_cons]

end Markdown.Pattern
