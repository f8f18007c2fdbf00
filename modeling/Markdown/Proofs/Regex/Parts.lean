import Markdown.Proofs.Regex.Ways

/-!
# The ways to match the parts of a pattern

How the standard patterns are built: literal texts, runs of characters of a set, and groups around
runs, one after another.

* A literal text is taken if the text begins with it (`ways_literal`).
* A shortest run before a literal text ends at the first place where the literal stands
  (`head?_shortest`).
* A longest run that nothing but its end can be followed by takes all it can (`head?_longest`).
-/

namespace Markdown

namespace Text

/-- The parts of a text before and behind the first place where `close` stands, if all characters
before it satisfy `p`. -/
def cut? (p : Char → Bool) (close : Text) : Text → Option (Text × Text)
  | [] => if close.isEmpty then some ([], []) else none
  | c :: t =>
    if close.isPrefixOf (c :: t) then some ([], (c :: t).drop close.length)
    else if p c then (cut? p close t).map fun (g, r) => (c :: g, r)
    else none

variable {p : Char → Bool} {close g r t : Text}

theorem cut?_of_prefix (h : close <+: t) : cut? p close t = some ([], t.drop close.length) := by
  cases t with
  | nil => simp [cut?, List.prefix_nil.1 h]
  | cons c t => simp [cut?, List.isPrefixOf_iff_prefix.2 h]

theorem eq_append_of_cut? (h : cut? p close t = some (g, r)) :
    t = g ++ close ++ r ∧ ∀ c ∈ g, p c := by
  induction t generalizing g with
  | nil =>
    simp only [cut?] at h
    split at h
    · rename_i hc
      obtain ⟨rfl, rfl⟩ : [] = g ∧ [] = r := by simpa using h
      simp [List.isEmpty_iff.1 hc]
    · simp at h
  | cons c t ih =>
    simp only [cut?] at h
    split at h
    · rename_i hp
      obtain ⟨rfl, rfl⟩ : [] = g ∧ List.drop close.length (c :: t) = r := by simpa using h
      obtain ⟨u, hu⟩ := List.isPrefixOf_iff_prefix.1 hp
      simp [← hu]
    · split at h
      · rename_i hpc
        obtain ⟨⟨g', r'⟩, hg, heq⟩ := Option.map_eq_some_iff.1 h
        obtain ⟨rfl, rfl⟩ := Prod.mk.inj heq
        obtain ⟨rfl, hall⟩ := ih hg
        exact ⟨by simp, by simpa [hpc] using hall⟩
      · simp at h

/-- The first place where `close` stands is behind a text that does not have its first character. -/
theorem cut?_append {c : Char} (hg : ∀ d ∈ g, p d) (hc : c ∉ g) :
    cut? p (c :: close) (g ++ c :: close ++ r) = some (g, r) := by
  induction g with
  | nil =>
    rw [List.nil_append, cut?_of_prefix (List.prefix_append ..)]
    simp
  | cons d g ih =>
    have hd : c ≠ d := fun h => hc (by simp [h])
    rw [List.cons_append, List.cons_append, cut?,
      if_neg (by simp [hd]), if_pos (hg d (by simp)),
      ih (fun e he => hg e (by simp [he])) fun h => hc (by simp [h])]
    rfl

/-- What is cut off ends at the first place where `close` stands. -/
theorem not_infix_of_cut? (hne : close ≠ []) (h : cut? p close t = some (g, r)) :
    ¬ close <:+: g := by
  induction t generalizing g with
  | nil =>
    have heq := (eq_append_of_cut? h).1
    rw [eq_comm, List.append_assoc, List.append_eq_nil_iff] at heq
    rw [heq.1]
    exact fun hin => hne (List.infix_nil.1 hin)
  | cons c t ih =>
    simp only [cut?] at h
    split at h
    · obtain ⟨rfl, -⟩ := Prod.mk.inj (Option.some.inj h)
      exact fun hin => hne (List.infix_nil.1 hin)
    · rename_i hp
      split at h
      · obtain ⟨⟨g', r'⟩, hg, heq⟩ := Option.map_eq_some_iff.1 h
        obtain ⟨rfl, rfl⟩ := Prod.mk.inj heq
        intro hin
        rcases List.infix_cons_iff.1 hin with hpre | hin
        · refine hp (List.isPrefixOf_iff_prefix.2 (hpre.trans ⟨close ++ r', ?_⟩))
          rw [(eq_append_of_cut? hg).1]
          simp
        · exact ih hg hin
      · simp at h

/-- Two different characters stand first behind a text in which they do not stand. -/
theorem cut?_of_not_isInfix {a b : Char} (hab : a ≠ b) (hg : ∀ d ∈ g, p d) (h : ¬ [a, b] <:+: g) :
    cut? p [a, b] (g ++ [a, b] ++ r) = some (g, r) := by
  induction g with
  | nil =>
    rw [List.nil_append, cut?_of_prefix (List.prefix_append ..)]
    simp
  | cons d g ih =>
    have hd : ¬ [a, b] <+: d :: (g ++ [a, b] ++ r) := by
      intro hp
      obtain ⟨rfl, hbehind⟩ := List.cons_prefix_cons.1 hp
      cases g with
      | nil => exact hab (List.cons_prefix_cons.1 hbehind).1.symm
      | cons e g =>
        obtain ⟨rfl, -⟩ := List.cons_prefix_cons.1 hbehind
        exact h ⟨[], g, by simp⟩
    rw [List.cons_append, List.cons_append, cut?, if_neg fun hp => hd (List.isPrefixOf_iff_prefix.1 hp),
      if_pos (hg d (by simp)), ih (fun e he => hg e (by simp [he])) fun hin =>
        h (hin.trans (List.suffix_cons d g).isInfix)]
    rfl

end Text

namespace Regex

variable {b : Option Char} {s t : Text}

/-! ## Sets as tests -/

theorem contains_single_eq (c : Char) : (CharSet.single c).contains = (· == c) := by
  funext d
  rw [CharSet.contains_single]
  rfl

theorem contains_digit : (CharSet.range '0' '9').contains = Char.isDigit := by
  funext c
  simp only [CharSet.contains, Char.isDigit]
  rfl

/-! ## One after another -/

@[simp] theorem Way.andThen_empty (v : Way) : v.andThen ⟨[], v.left, []⟩ = v := by
  simp [andThen]

theorem ways_seqs_cons (r : Regex) (rs : List Regex) (b : Option Char) (t : Text) :
    (seqs (r :: rs)).ways b t =
      (r.ways b t).flatMap fun v => ((seqs rs).ways (lastOr b v.taken) v.left).map v.andThen := by
  cases rs with
  | nil => simp [seqs, ways]
  | cons r' rs => rfl

/-- A literal text, and then the other parts. -/
theorem ways_literal (lit : Text) (rs : List Regex) (b : Option Char) (t : Text) :
    (seqs (lit.map char ++ rs)).ways b (lit ++ t) =
      ((seqs rs).ways (lastOr b lit) t).map (Way.andThen ⟨lit, t, []⟩) := by
  induction lit generalizing b with
  | nil =>
    have hid : Way.andThen ⟨[], t, []⟩ = id := by
      funext w
      simp [Way.andThen]
    simp [hid]
  | cons c lit ih =>
    rw [List.map_cons, List.cons_append, List.cons_append, ways_seqs_cons, char, ways,
      if_pos (by simp [CharSet.contains_single])]
    simp only [List.flatMap_cons, List.flatMap_nil, List.append_nil, lastOr_cons, lastOr_nil]
    rw [ih]
    simp [Way.andThen, Function.comp_def]

theorem ways_literal_eq_nil {lit : Text} (rs : List Regex) (h : ¬ lit <+: t) :
    (seqs (lit.map char ++ rs)).ways b t = [] := by
  induction lit generalizing b t with
  | nil => exact absurd List.nil_prefix h
  | cons c lit ih =>
    rw [List.map_cons, List.cons_append, ways_seqs_cons, char]
    cases t with
    | nil => rfl
    | cons d t =>
      rw [ways]
      by_cases hd : d = c
      · subst hd
        have ht : ¬ lit <+: t := fun hp => h (by simpa using hp)
        simp [CharSet.contains_single, ih ht]
      · simp [CharSet.contains_single, hd]

theorem ways_text (lit : Text) (b : Option Char) (t : Text) :
    (text lit).ways b (lit ++ t) = [⟨lit, t, []⟩] := by
  have h := ways_literal lit [] b t
  rw [List.append_nil] at h
  rw [text, h]
  simp [seqs, ways, Way.andThen]

theorem ways_text_eq_nil {lit : Text} (h : ¬ lit <+: t) : (text lit).ways b t = [] := by
  have h := ways_literal_eq_nil (b := b) [] h
  rwa [List.append_nil] at h

/-! ## Runs -/

theorem mem_runs {S : CharSet} {w : Way} :
    w ∈ runs S t ↔ w.taken ++ w.left = t ∧ (∀ c ∈ w.taken, S.contains c) ∧ w.groups = [] := by
  constructor
  · intro h
    refine ⟨taken_append_left_of_mem_runs h, ?_, groups_of_mem_runs h⟩
    induction t generalizing w with
    | nil =>
      obtain rfl : w = _ := by simpa [runs] using h
      simp
    | cons a t ih =>
      rcases List.mem_cons.1 h with rfl | h
      · simp
      · split at h
        · rename_i ha
          obtain ⟨v, hv, rfl⟩ := List.mem_map.1 h
          simpa [Way.andThen, ha] using ih hv
        · simp at h
  · rintro ⟨rfl, hall, hgs⟩
    obtain ⟨taken, left, groups⟩ := w
    obtain rfl : groups = [] := hgs
    induction taken with
    | nil => cases left <;> simp [runs]
    | cons a taken ih =>
      have ha : S.contains a := hall a (by simp)
      have := ih fun c hc => hall c (by simp [hc])
      simp only [List.cons_append, runs, if_pos ha, List.mem_cons, List.mem_map]
      exact .inr ⟨_, this, by simp [Way.andThen]⟩

/-- If `next` goes on exactly where a literal stands, the first way behind a shortest run is the one
at the first place where it stands. -/
theorem head?_flatMap_runs (S : CharSet) (close t : Text) (next : Way → List Way)
    (result : Text → Text → Way)
    (hyes : ∀ g r, (next ⟨g, close ++ r, []⟩).head? = some (result g r))
    (hno : ∀ g l, ¬ close <+: l → next ⟨g, l, []⟩ = []) :
    ((runs S t).flatMap next).head? =
      (Text.cut? S.contains close t).map fun (g, r) => result g r := by
  induction t generalizing next result with
  | nil =>
    simp only [runs, List.flatMap_cons, List.flatMap_nil, List.append_nil, Text.cut?]
    cases close with
    | nil => simpa using hyes [] []
    | cons c close => simp [hno [] []]
  | cons a t ih =>
    simp only [runs, List.flatMap_cons, Text.cut?]
    by_cases hp : close <+: a :: t
    · obtain ⟨r, hr⟩ := hp
      rw [if_pos (List.isPrefixOf_iff_prefix.2 ⟨r, hr⟩), ← hr, List.head?_append, hyes]
      simp
    · have hp' : ¬ close.isPrefixOf (a :: t) = true := by simpa using hp
      rw [hno _ _ hp, List.nil_append, if_neg hp']
      by_cases ha : S.contains a
      · have h := ih (fun w => next (Way.andThen ⟨[a], t, []⟩ w)) (fun g r => result (a :: g) r)
          (fun g r => hyes (a :: g) r) (fun g l hl => hno (a :: g) l hl)
        rw [if_pos ha, if_pos ha, List.flatMap_map, h, Option.map_map]
        rfl
      · simp [if_neg ha]

/-- A shortest run that is recorded ends at the first place where the literal behind it stands. -/
theorem head?_shortest (S : CharSet) (index : Nat) (close : Text) (b : Option Char) (t : Text) :
    ((seqs (group index (run false S) :: close.map char)).ways b t).head? =
      (Text.cut? S.contains close t).map fun (g, r) => ⟨g ++ close, r, [(index, g)]⟩ := by
  rw [ways_seqs_cons, ways, ways, List.flatMap_map, if_neg Bool.false_ne_true]
  rw [← text]
  refine head?_flatMap_runs S close t _ (fun g r => ⟨g ++ close, r, [(index, g)]⟩)
    (fun g r => ?_) fun g l hl => ?_
  · simp [Way.record, ways_text, Way.andThen]
  · simp [Way.record, ways_text_eq_nil hl]

/-- The ways to take a run are the one that takes all it can, and shorter ones, which stop before a
character of the set. -/
theorem exists_runs_eq (S : CharSet) (t : Text) :
    ∃ shorter, runs S t = shorter ++ [⟨t.takeWhile S.contains, t.dropWhile S.contains, []⟩] ∧
      ∀ w ∈ shorter, ∃ u a l, w = ⟨u, a :: l, []⟩ ∧ S.contains a := by
  induction t with
  | nil => exact ⟨[], rfl, by simp⟩
  | cons a t ih =>
    by_cases ha : S.contains a
    · obtain ⟨shorter, heq, hshort⟩ := ih
      refine ⟨⟨[], a :: t, []⟩ :: shorter.map (Way.andThen ⟨[a], t, []⟩), ?_, ?_⟩
      · simp [runs, ha, heq, Way.andThen]
      · intro w hw
        rcases List.mem_cons.1 hw with rfl | hw
        · exact ⟨[], a, t, rfl, ha⟩
        · obtain ⟨v, hv, rfl⟩ := List.mem_map.1 hw
          obtain ⟨u, a', l, rfl, ha'⟩ := hshort v hv
          exact ⟨a :: u, a', l, rfl, ha'⟩
    · exact ⟨[], by simp [runs, ha], by simp⟩

/-- A longest run takes all it can, if the part behind it goes on from there, or goes on nowhere
before a character of the set. -/
theorem head?_longest (S : CharSet) (t : Text) (next : Way → List Way)
    (h : next ⟨t.takeWhile S.contains, t.dropWhile S.contains, []⟩ ≠ [] ∨
      ∀ u a l, S.contains a → next ⟨u, a :: l, []⟩ = []) :
    ((runs S t).reverse.flatMap next).head? =
      (next ⟨t.takeWhile S.contains, t.dropWhile S.contains, []⟩).head? := by
  obtain ⟨shorter, heq, hshort⟩ := exists_runs_eq S t
  rw [heq, List.reverse_append, List.reverse_singleton, List.singleton_append, List.flatMap_cons,
    List.head?_append]
  rcases h with h | h
  · cases hn : next ⟨t.takeWhile S.contains, t.dropWhile S.contains, []⟩ with
    | nil => exact absurd hn h
    | cons w ws => rfl
  · have hnil : shorter.reverse.flatMap next = [] := by
      rw [List.flatMap_eq_nil_iff]
      intro w hw
      obtain ⟨u, a, l, rfl, ha⟩ := hshort w (List.mem_reverse.1 hw)
      exact h u a l ha
    rw [hnil]
    simp

theorem head?_run (S : CharSet) (b : Option Char) (t : Text) :
    ((run true S).ways b t).head? =
      some ⟨t.takeWhile S.contains, t.dropWhile S.contains, []⟩ := by
  have h := head?_longest S t (fun w => [w]) (.inl (by simp))
  rw [ways, if_pos rfl]
  simpa using h

/-- A longest run of at least one character takes all it can, if the part behind it goes on from
there, or goes on nowhere before a character of the set. -/
theorem head?_flatMap_run1 (S : CharSet) (b : Option Char) (t : Text) (next : Way → List Way)
    (h : next ⟨t.takeWhile S.contains, t.dropWhile S.contains, []⟩ ≠ [] ∨
      ∀ u a l, S.contains a → next ⟨u, a :: l, []⟩ = []) :
    (((run1 true S).ways b t).flatMap next).head? =
      if t.takeWhile S.contains = [] then none
      else (next ⟨t.takeWhile S.contains, t.dropWhile S.contains, []⟩).head? := by
  cases t with
  | nil => simp [run1, ways]
  | cons a t =>
    by_cases ha : S.contains a
    · have hnext := head?_longest S t (fun w => next (Way.andThen ⟨[a], t, []⟩ w))
        (h.imp (fun h => by simpa [ha, Way.andThen] using h) fun h u c l hc => h _ c l hc)
      simp only [run1, ways, if_pos ha, List.flatMap_cons, List.flatMap_nil, List.append_nil, if_true,
        List.flatMap_map, hnext]
      simp [ha, Way.andThen]
    · simp [run1, ways, ha]

end Regex

end Markdown
