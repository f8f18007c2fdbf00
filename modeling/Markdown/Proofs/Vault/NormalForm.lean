import Markdown.Proofs.Text.Replacing
import Markdown.Vault
import Mathlib.Data.List.Basic

/-!
# The normal form of code

The text of a code block is made in passes, each of them over the whole HTML so far. Since a `<br>` in
that HTML comes from line feeds only, the passes can be carried out on the code instead, and its
characters set as HTML at the end: a code block is the normal form of its code, set character by
character (`CodeBlock.body_eq`).
-/

namespace Markdown

/-! ## The ends of a text that is set character by character -/

namespace Text

variable {w : Text} {p q : Char → Bool} {f : Char → Text}

theorem dropLeading_append (hw : w ≠ []) (t : Text) : dropLeading w (w ++ t) = dropLeading w t := by
  have hpos := List.length_pos_iff.2 hw
  rw [dropLeading, List.isPrefixOf?_eq_some_iff_append_eq.2 rfl]
  simp [hpos]

theorem dropLeading_eq_self {t : Text} (h : ¬ w <+: t) : dropLeading w t = t := by
  rw [dropLeading]
  split
  · rename_i rest hrest
    exact absurd ⟨rest, List.isPrefixOf?_eq_some_iff_append_eq.1 hrest⟩ h
  · rfl

/-- Removing a word from the end is removing its reverse from the beginning. -/
theorem dropTrailing_eq (w t : Text) :
    dropTrailing w t = (dropLeading w.reverse t.reverse).reverse := by
  induction hn : t.length using Nat.strongRecOn generalizing t with
  | ind n ih =>
    rw [dropTrailing, dropLeading, List.isSuffixOf?]
    cases hrest : w.reverse.isPrefixOf? t.reverse with
    | none => simp
    | some rest =>
      simp only [Option.map_some, List.length_reverse]
      split
      · rename_i hlt
        rw [ih rest.reverse.length (by simpa [hn] using hlt) rest.reverse rfl, List.reverse_reverse]
      · rw [List.reverse_reverse]

/-- If the parts of a text are a word or do not begin like it, removing the word removes parts. -/
theorem dropLeading_flatMap (hw : w ≠ []) (hp : ∀ c, p c → f c = w)
    (hnot : ∀ c, ¬ p c → ∀ r, ¬ w <+: f c ++ r) (t : Text) :
    dropLeading w (t.flatMap f) = (t.dropWhile p).flatMap f := by
  induction t with
  | nil => exact dropLeading_eq_self fun h => hw (List.prefix_nil.1 h)
  | cons c t ih =>
    rw [List.flatMap_cons]
    by_cases hc : p c
    · rw [hp c hc, dropLeading_append hw, ih, List.dropWhile_cons_of_pos hc]
    · rw [dropLeading_eq_self (hnot c hc _), List.dropWhile_cons_of_neg hc, List.flatMap_cons]

theorem dropTrailing_flatMap (hw : w ≠ []) (hp : ∀ c, p c → f c = w)
    (hnot : ∀ c, ¬ p c → ∀ r, ¬ w <:+ r ++ f c) (t : Text) :
    dropTrailing w (t.flatMap f) = ((t.reverse.dropWhile p).reverse).flatMap f := by
  rw [dropTrailing_eq, List.reverse_flatMap, dropLeading_flatMap (p := p), List.flatMap_reverse]
  · simpa using hw
  · intro c hc
    rw [Function.comp_apply, hp c hc]
  · intro c hc r h
    refine hnot c hc r.reverse ?_
    rw [← List.reverse_prefix]
    simpa using h

/-- If the parts of a text are dropped as a whole or have a first character that is not dropped,
dropping characters drops parts. -/
theorem dropWhile_flatMap (hpos : ∀ c, q c → ∀ a ∈ f c, p a)
    (hneg : ∀ c, ¬ q c → ∃ a ∈ (f c).head?, ¬ p a) (t : Text) :
    (t.flatMap f).dropWhile p = (t.dropWhile q).flatMap f := by
  induction t with
  | nil => rfl
  | cons c t ih =>
    by_cases hc : q c
    · rw [List.flatMap_cons, List.dropWhile_append_of_pos (hpos c hc), ih,
        List.dropWhile_cons_of_pos hc]
    · obtain ⟨a, hhead, ha⟩ := hneg c hc
      obtain ⟨u, hu⟩ := List.head?_eq_some_iff.1 hhead
      rw [List.dropWhile_cons_of_neg hc, List.flatMap_cons, hu, List.cons_append,
        List.dropWhile_cons_of_neg ha]

theorem trimWhere_flatMap (hpos : ∀ c, q c → ∀ a ∈ f c, p a)
    (hneg : ∀ c, ¬ q c → (∃ a ∈ (f c).head?, ¬ p a) ∧ ∃ a ∈ (f c).getLast?, ¬ p a) (t : Text) :
    trimWhere p (t.flatMap f) = (trimWhere q t).flatMap f := by
  have hback := dropWhile_flatMap (f := List.reverse ∘ f) (p := p) (q := q)
    (fun c hc a ha => hpos c hc a (List.mem_reverse.1 ha))
    fun c hc => by simpa using (hneg c hc).2
  rw [trimWhere, dropWhile_flatMap hpos fun c hc => (hneg c hc).1, List.reverse_flatMap, hback,
    ← List.flatMap_reverse]
  rfl

end Text

namespace CodeBlock

open Text

/-! ## Characters as HTML -/

/-- What characters of code in its normal form are set as. -/
def marks : List (Char × Text) :=
  ('\n', lineBreak) :: entities

/-- A character of code in its normal form as HTML. -/
def escape (c : Char) : Text :=
  (marks.lookup c).getD [c]

/-- The form of code from which its HTML can be made in one go: pairs of line feeds are single, and
the ends are trimmed, first of line feeds and then of the other blanks. -/
def normalize (raw : Text) : Text :=
  ((raw.replace ['\n', '\n'] ['\n']).trimWhere (· == '\n')).trimWhere
    (· ∈ [' ', '\t', '\r', '\x0c'])

/-- A character has an entry in a table, or it stands for itself. -/
theorem lookup_cases (es : List (Char × Text)) (c : Char) :
    (c, (es.lookup c).getD [c]) ∈ es ∨ ((es.lookup c).getD [c] = [c] ∧ ∀ e ∈ es, c ≠ e.1) := by
  cases h : es.lookup c with
  | none => exact .inr ⟨rfl, fun e he => by simpa using List.lookup_eq_none_iff.1 h e he⟩
  | some w =>
    obtain ⟨l, l', rfl, -⟩ := List.lookup_eq_some_iff.1 h
    exact .inl (by simp)

theorem encode_cases (c : Char) :
    (c, encode c) ∈ entities ∨ (encode c = [c] ∧ ∀ e ∈ entities, c ≠ e.1) :=
  lookup_cases entities c

theorem escape_cases (c : Char) :
    (c, escape c) ∈ marks ∨ (escape c = [c] ∧ ∀ e ∈ marks, c ≠ e.1) :=
  lookup_cases marks c

theorem escape_of_ne {c : Char} (h : c ≠ '\n') : escape c = encode c := by
  have hbeq : (c == '\n') = false := beq_eq_false_iff_ne.2 h
  rw [escape, marks, List.lookup_cons, hbeq, encode]

theorem encode_ne_nil (c : Char) : encode c ≠ [] := by
  rcases encode_cases c with h | ⟨h, -⟩
  · exact (by decide : ∀ e ∈ entities, e.2 ≠ []) _ h
  · simp [h]

/-- Angle brackets do not occur in entities and have entities themselves. -/
theorem angle_notMem_encode (c : Char) : '<' ∉ encode c ∧ '>' ∉ encode c := by
  rcases encode_cases c with h | ⟨h, hne⟩
  · exact (by decide : ∀ e ∈ entities, '<' ∉ e.2 ∧ '>' ∉ e.2) _ h
  · rw [h, List.mem_singleton, List.mem_singleton]
    exact ⟨(hne ('<', "&lt;".toList) (by decide)).symm,
      (hne ('>', "&gt;".toList) (by decide)).symm⟩

theorem lineFeed_notMem_encode {c : Char} (hc : c ≠ '\n') : '\n' ∉ encode c := by
  rcases encode_cases c with h | ⟨h, -⟩
  · exact (by decide : ∀ e ∈ entities, '\n' ∉ e.2) _ h
  · simpa [h] using hc.symm

theorem not_lineBreak_prefix {c : Char} (hc : ¬ (c == '\n')) (r : Text) :
    ¬ lineBreak <+: escape c ++ r := by
  rw [escape_of_ne (by simpa using hc)]
  obtain ⟨d, u, hd⟩ := List.exists_cons_of_ne_nil (encode_ne_nil c)
  have hangle := (angle_notMem_encode c).1
  rw [hd, List.mem_cons, not_or] at hangle
  rw [hd]
  exact fun h => hangle.1 (List.cons_prefix_cons.1 h).1

theorem not_lineBreak_suffix {c : Char} (hc : ¬ (c == '\n')) (r : Text) :
    ¬ lineBreak <:+ r ++ escape c := by
  rw [escape_of_ne (by simpa using hc)]
  obtain ⟨u, d, hd⟩ := (List.eq_nil_or_concat' (encode c)).resolve_left (encode_ne_nil c)
  have hangle := (angle_notMem_encode c).2
  rw [hd, List.mem_append, List.mem_singleton, not_or] at hangle
  rintro ⟨x, hx⟩
  have hlast := congrArg List.getLast? hx
  rw [hd, ← List.append_assoc, List.getLast?_concat] at hlast
  exact hangle.2 (by simpa [lineBreak, List.getLast?_append] using hlast)

/-- Trimming finds the same blanks in code and in its HTML; in the HTML there are no line feeds. -/
theorem trim_flatMap_escape (t : Text) :
    trim (t.flatMap escape) = (t.trimWhere (· ∈ [' ', '\t', '\r', '\x0c'])).flatMap escape := by
  refine trimWhere_flatMap (fun c hc => ?_) (fun c hc => ?_) t
  · have hall : [' ', '\t', '\r', '\x0c'].all fun c => (escape c).all isBlank := by decide
    exact List.all_eq_true.1 (List.all_eq_true.1 hall c (of_decide_eq_true hc))
  · rcases escape_cases c with h | ⟨h, hne⟩
    · have hends : ∀ e ∈ marks, e.2.head?.any (!isBlank ·) ∧ e.2.getLast?.any (!isBlank ·) := by
        decide
      simpa [Option.any_eq_true] using hends _ h
    · have hlf : c ≠ '\n' := hne _ List.mem_cons_self
      have hblank : isBlank c = false := by
        simp only [decide_eq_true_eq, List.mem_cons, List.not_mem_nil, or_false, not_or] at hc
        simp [isBlank, hlf, hc]
      simp [h, hblank]

/-! ## The passes -/

theorem lineFeed_prefix_of_flatMap {t : Text} (h : ['\n'] <+: t.flatMap encode) : ['\n'] <+: t := by
  cases t with
  | nil => exact h
  | cons c t =>
    by_cases hc : c = '\n'
    · exact hc ▸ List.prefix_append ['\n'] t
    · obtain ⟨d, u, hd⟩ := List.exists_cons_of_ne_nil (encode_ne_nil c)
      rw [List.flatMap_cons, hd] at h
      obtain rfl := (List.cons_prefix_cons.1 h).1
      exact absurd (hd ▸ List.mem_cons_self) (lineFeed_notMem_encode hc)

/-- Writing pairs of line feeds and then single ones as `<br>` is making the pairs single and then
setting each character. -/
theorem replace_lineFeeds (raw : Text) :
    Text.replace (Text.replace (raw.flatMap encode) ['\n', '\n'] lineBreak) ['\n'] lineBreak =
      (Text.replace raw ['\n', '\n'] ['\n']).flatMap escape := by
  have hpair : ['\n', '\n'] ≠ [] := by simp
  have hone : ['\n'] ≠ [] := by simp
  -- where no line feed stands, neither one nor two of them begin
  have hstretch {u : Text} (hu : '\n' ∉ u) (w r : Text) (x : Text) (c : Char) (y : Text)
      (hxy : u = x ++ c :: y) : ¬ '\n' :: w <+: c :: y ++ r := by
    intro h
    obtain rfl := (List.cons_prefix_cons.1 h).1
    exact hu (by simp [hxy])
  refine (isProper_literal hpair).induction (motive := fun _ raw =>
    Text.replace (Text.replace (raw.flatMap encode) ['\n', '\n'] lineBreak) ['\n'] lineBreak =
      (Text.replace raw ['\n', '\n'] ['\n']).flatMap escape) ?_ ?_ ?_ none raw
  · intro _
    rw [List.flatMap_nil, replace_nil hpair, replace_nil hone, replace_nil hpair, List.flatMap_nil]
  · intro b c raw hf ih
    have hnot : ¬ ['\n', '\n'] <+: c :: raw := by
      rintro ⟨r, hr⟩
      rw [← hr, literal_append] at hf
      exact absurd hf (by simp)
    rw [replace_cons hpair _ hnot, List.flatMap_cons, List.flatMap_cons, ← ih]
    by_cases hc : c = '\n'
    · subst hc
      have hnot' : ¬ ['\n', '\n'] <+: '\n' :: raw.flatMap encode := fun h =>
        hnot (List.cons_prefix_cons.2 ⟨rfl,
          lineFeed_prefix_of_flatMap (List.cons_prefix_cons.1 h).2⟩)
      have hencode : encode '\n' ++ raw.flatMap encode = '\n' :: raw.flatMap encode := rfl
      rw [hencode, replace_cons hpair _ hnot']
      exact replace_append hone lineBreak _
    · have hfree := lineFeed_notMem_encode hc
      rw [replace_stretch hpair _ _ (hstretch hfree _ _), replace_stretch hone _ _ (hstretch hfree _ _),
        escape_of_ne hc]
  · intro b s raw v _ hf ih
    obtain ⟨⟨r, hr⟩, hlen⟩ := of_literal_eq_some hf
    obtain rfl : ['\n', '\n'] = s := (List.append_inj hr hlen.symm).1
    have hencode : (['\n', '\n'] ++ raw).flatMap encode = ['\n', '\n'] ++ raw.flatMap encode := rfl
    rw [hencode, replace_append hpair, replace_append hpair,
      replace_stretch hone _ _ (hstretch (by decide) _ _), ih]
    rfl

/-- The text of a code block is the normal form of its code, set character by character. -/
theorem body_eq (raw : Text) : body raw = (normalize raw).flatMap escape := by
  have hne : lineBreak ≠ [] := by decide
  have hlf (c : Char) (hc : c == '\n') : escape c = lineBreak := by
    rw [beq_iff_eq.1 hc]
    rfl
  rw [body, replace_lineFeeds, dropLeading_flatMap hne hlf fun c hc => not_lineBreak_prefix hc,
    dropTrailing_flatMap hne hlf fun c hc => not_lineBreak_suffix hc, trim_flatMap_escape]
  rfl

-- the line feed in front of the last blank is no longer at an end when line feeds are trimmed
example : body "\n<br>\n\na\n\n\nb\n \n".toList =
    "&lt;br&gt;<br>a<br><br>b<br>".toList := by decide +kernel

/-- A line feed is a character with a mark of its own. -/
theorem lineFeed_notMem_escape (c : Char) : '\n' ∉ escape c := by
  rcases escape_cases c with h | ⟨h, hne⟩
  · exact (by decide : ∀ e ∈ marks, '\n' ∉ e.2) _ h
  · rw [h, List.mem_singleton]
    exact (hne _ List.mem_cons_self).symm

theorem lineFeed_notMem_body (raw : Text) : '\n' ∉ body raw := by
  rw [body_eq, List.mem_flatMap]
  rintro ⟨c, -, hc⟩
  exact lineFeed_notMem_escape c hc

end CodeBlock

end Markdown
