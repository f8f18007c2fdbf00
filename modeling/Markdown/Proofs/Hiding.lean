import Markdown.Url
import Markdown.Proofs.Confinement.Basic

/-!
# Hidden addresses

To reveal a text is to go through it: a token becomes its marker, and a character with which no token
begins stays (`Url.reveal_induction`).

Revealing takes back what hiding has done, since a token that is put in makes no other one with what
stands around it: revealed, a hidden address is what it would be without having been hidden
(`Url.reveal_hide_eq`). So the address comes back if, and only if, no token stands in it
(`Url.hiding_reversible`).
-/

namespace Markdown

open Text

/-- The tokens of addresses. -/
def addressTokens : List Text :=
  [Url.underscoreToken, Url.asteriskToken]

theorem head?_of_mem_addressTokens : ∀ w ∈ addressTokens, w.head? = some '\x7b' := by
  decide

/-- No token begins in a text without an opening brace. -/
theorem isFree_of_mem_addressTokens {w x : Text} (hw : w ∈ addressTokens) (hx : '\x7b' ∉ x) :
    IsFree w x := by
  obtain ⟨w, rfl⟩ := List.head?_eq_some_iff.1 (head?_of_mem_addressTokens w hw)
  exact isFree_of_notMem w hx

namespace Url

variable {c : Char} {g u w x y : Text}

/-! ## Hiding -/

theorem hide_append (u w : Text) : hide (u ++ w) = hide u ++ hide w :=
  List.flatMap_append

theorem hide_cons (c : Char) (u : Text) : hide (c :: u) = hideChar c ++ hide u :=
  List.flatMap_cons

/-- To hide an address is to replace its underscores and then its asterisks. -/
theorem hide_eq_replace (u : Text) :
    hide u = (u.replace ['_'] underscoreToken).replace ['*'] asteriskToken := by
  rw [replace_singleton, replace_singleton, List.flatMap_assoc, hide]
  refine congrArg (u.flatMap ·) (funext fun c => ?_)
  unfold hideChar
  split
  · rfl
  · rw [List.flatMap_singleton]

theorem mem_of_mem_hide (h : c ∈ hide u) : c ∈ u ∨ c ∈ underscoreToken ∨ c ∈ asteriskToken := by
  obtain ⟨d, hd, hc⟩ := List.mem_flatMap.1 h
  unfold hideChar at hc
  split at hc
  · exact .inr (.inl hc)
  · split at hc
    · exact .inr (.inr hc)
    · exact .inl (List.mem_singleton.1 hc ▸ hd)

theorem mem_hide_of_mem (h : c ∈ u) (hunderscore : c ≠ '_') (hasterisk : c ≠ '*') : c ∈ hide u :=
  List.mem_flatMap_of_mem h (by simp [hideChar, hunderscore, hasterisk])

theorem notMem_hide (h : c ∉ u) (htokens : c ∉ underscoreToken ∧ c ∉ asteriskToken) :
    c ∉ hide u := fun hc =>
  (mem_of_mem_hide hc).elim h fun hc => hc.elim htokens.1 htokens.2

/-- No marker of emphasis stands in a hidden address. -/
theorem marker_notMem_hide (u : Text) (hc : c = '*' ∨ c = '_') : c ∉ hide u := by
  intro h
  obtain ⟨d, -, hd⟩ := List.mem_flatMap.1 h
  unfold hideChar at hd
  split at hd
  · rcases hc with rfl | rfl <;> exact absurd hd (by decide)
  rename_i hunderscore
  split at hd
  · rcases hc with rfl | rfl <;> exact absurd hd (by decide)
  rename_i hasterisk
  obtain rfl := List.mem_singleton.1 hd
  exact hc.elim hasterisk hunderscore

/-- Tildes stand in the tokens of asterisks only. -/
theorem tilde_notMem_hide (h : ∀ c ∈ ['*', '~'], c ∉ u) : '~' ∉ hide u := by
  intro hc
  obtain ⟨d, hd, hc⟩ := List.mem_flatMap.1 hc
  have hne : d ≠ '*' := fun he => h '*' (by simp) (he ▸ hd)
  unfold hideChar at hc
  rw [if_neg hne] at hc
  split at hc
  · exact absurd hc (by decide)
  · exact h '~' (by simp) (List.mem_singleton.1 hc ▸ hd)

/-- Hiding puts tokens in the places of markers. -/
theorem edited_hide (u : Text) : Edited (OneFor [['_'], ['*']] addressTokens) u (hide u) := by
  refine .flatMap (fun c => ?_) u
  unfold hideChar
  split
  · rename_i hc
    exact .inr ⟨by simp [hc], by simp [addressTokens]⟩
  split
  · rename_i hc
    exact .inr ⟨by simp [hc], by simp [addressTokens]⟩
  · exact .inl rfl

/-! ## Revealing -/

@[simp] theorem reveal_nil : reveal [] = [] := by
  rw [reveal, replace_nil (by decide), replace_nil (by decide)]

theorem reveal_underscoreToken (g : Text) : reveal (underscoreToken ++ g) = '_' :: reveal g := by
  have hnot (t : Text) : ¬ asteriskToken <+: '_' :: t := fun hp =>
    absurd (List.cons_prefix_cons.1 hp).1 (by decide)
  rw [reveal, replace_append (by decide), List.singleton_append, replace_cons (by decide) _ (hnot _)]
  rfl

theorem reveal_asteriskToken (g : Text) : reveal (asteriskToken ++ g) = '*' :: reveal g := by
  have hfree : IsFree underscoreToken asteriskToken := isFree_of_lacks rfl
  rw [reveal, replace_stretch (by decide) _ _ fun x c y hxy => hfree.not_isPrefix hxy g,
    replace_append (by decide)]
  rfl

/-- A character with which no token begins stays. -/
theorem reveal_cons (h : ∀ w ∈ addressTokens, ¬ w <+: c :: g) : reveal (c :: g) = c :: reveal g := by
  have hasterisk : ¬ asteriskToken <+: c :: replace g underscoreToken ['_'] := by
    refine (Edited.of_replace (by decide) g).not_isPrefix_cons ?_ (h _ (by simp [addressTokens]))
    rintro _ _ ⟨-, rfl⟩
    exact isClear_of_clears rfl
  rw [reveal, replace_cons (by decide) _ (h _ (by simp [addressTokens])),
    replace_cons (by decide) _ hasterisk]
  rfl

/-- A text ends, begins with a token, or begins with a character with which no token begins. -/
theorem reveal_induction {motive : Text → Prop} (nil : motive [])
    (underscore : ∀ g, motive g → motive (underscoreToken ++ g))
    (asterisk : ∀ g, motive g → motive (asteriskToken ++ g))
    (char : ∀ c g, (∀ w ∈ addressTokens, ¬ w <+: c :: g) → motive g → motive (c :: g)) (g : Text) :
    motive g := by
  induction hn : g.length using Nat.strongRecOn generalizing g with
  | ind n ih =>
    by_cases hu : underscoreToken <+: g
    · obtain ⟨g, rfl⟩ := hu
      exact underscore g (ih _ (by simp [← hn, underscoreToken]; omega) g rfl)
    by_cases ha : asteriskToken <+: g
    · obtain ⟨g, rfl⟩ := ha
      exact asterisk g (ih _ (by simp [← hn, asteriskToken]; omega) g rfl)
    cases g with
    | nil => exact nil
    | cons c g => exact char c g (by simp [addressTokens, hu, ha]) (ih _ (by simp [← hn]) g rfl)

/-- Revealing puts characters in the places of tokens. -/
theorem edited_reveal (g : Text) : Edited (OneFor addressTokens [['_'], ['*']]) g (reveal g) := by
  induction g using reveal_induction with
  | nil =>
    rw [reveal_nil]
    exact .nil
  | underscore g ih =>
    rw [reveal_underscoreToken]
    have hm : OneFor addressTokens [['_'], ['*']] underscoreToken ['_'] :=
      ⟨by simp [addressTokens], by simp⟩
    exact .replace hm ih
  | asterisk g ih =>
    rw [reveal_asteriskToken]
    have hm : OneFor addressTokens [['_'], ['*']] asteriskToken ['*'] :=
      ⟨by simp [addressTokens], by simp⟩
    exact .replace hm ih
  | char c g h ih =>
    rw [reveal_cons h]
    exact .keep c ih

/-- No token is left in a revealed text. -/
theorem not_infix_reveal (g : Text) : ∀ w ∈ addressTokens, ¬ w <:+: reveal g := by
  intro w hw
  have hclears : ∀ w ∈ addressTokens, ∀ m ∈ [['_'], ['*']], clears m w.tail := by decide
  obtain ⟨w, rfl⟩ := List.head?_eq_some_iff.1 (head?_of_mem_addressTokens w hw)
  induction g using reveal_induction with
  | nil =>
    rw [reveal_nil]
    exact fun hin => List.cons_ne_nil _ _ (List.infix_nil.1 hin)
  | underscore g ih =>
    rw [reveal_underscoreToken, List.infix_cons_iff, not_or]
    exact ⟨fun hp => absurd (List.cons_prefix_cons.1 hp).1 (by decide), ih⟩
  | asterisk g ih =>
    rw [reveal_asteriskToken, List.infix_cons_iff, not_or]
    exact ⟨fun hp => absurd (List.cons_prefix_cons.1 hp).1 (by decide), ih⟩
  | char c g h ih =>
    rw [reveal_cons h, List.infix_cons_iff, not_or]
    refine ⟨(edited_reveal g).not_isPrefix_cons (fun _ m hm => ?_) (h _ hw), ih⟩
    exact isClear_of_clears (hclears _ hw m hm.2)

/-- What no token begins in stays in front of the rest. -/
theorem reveal_append_of_isFree (hx : ∀ w ∈ addressTokens, IsFree w x) (g : Text) :
    reveal (x ++ g) = x ++ reveal g := by
  induction x with
  | nil => rfl
  | cons c x ih =>
    have hc : ∀ w ∈ addressTokens, ¬ w <+: c :: (x ++ g) := fun w hw => (hx w hw).1 g
    rw [List.cons_append, reveal_cons hc, ih fun w hw => (hx w hw).2]
    rfl

/-- What has no opening brace stays in front of the rest. -/
theorem reveal_append (hx : '\x7b' ∉ x) (g : Text) : reveal (x ++ g) = x ++ reveal g :=
  reveal_append_of_isFree (fun _ hw => isFree_of_mem_addressTokens hw hx) g

/-- A character that stands in no token divides a text. -/
theorem reveal_append_cons (hc : ∀ w ∈ addressTokens, c ∉ w) (x y : Text) :
    reveal (x ++ c :: y) = reveal x ++ c :: reveal y := by
  induction x using reveal_induction with
  | nil =>
    rw [List.nil_append, reveal_cons, reveal_nil, List.nil_append]
    rintro w hw hp
    have hall : ∀ w ∈ addressTokens, w ≠ [] := by decide
    obtain ⟨d, w, rfl⟩ := List.exists_cons_of_ne_nil (hall w hw)
    exact hc _ hw (by simp [(List.cons_prefix_cons.1 hp).1])
  | underscore x ih =>
    rw [List.append_assoc, reveal_underscoreToken, reveal_underscoreToken, ih]
    rfl
  | asterisk x ih =>
    rw [List.append_assoc, reveal_asteriskToken, reveal_asteriskToken, ih]
    rfl
  | char d x h ih =>
    rw [List.cons_append, reveal_cons h, reveal_cons, ih]
    · rfl
    intro w hw hp
    rcases List.prefix_or_prefix_of_prefix hp (List.prefix_append (d :: x) (c :: y)) with hpre | hpre
    · exact h w hw hpre
    · obtain ⟨z, rfl⟩ := hpre
      cases z with
      | nil => exact h _ hw (by simp)
      | cons e z =>
        have hp' : e :: z <+: c :: y := (List.prefix_append_right_inj (d :: x)).1 hp
        exact hc _ hw (by simp [(List.cons_prefix_cons.1 hp').1])

/-- A text is shown as it is if, and only if, there is no token to reveal. -/
theorem reveal_eq_self_iff (u : Text) : reveal u = u ↔ ∀ w ∈ addressTokens, ¬ w <:+: u := by
  constructor
  · intro h
    rw [← h]
    exact not_infix_reveal u
  · intro h
    induction u with
    | nil => exact reveal_nil
    | cons c u ih =>
      rw [reveal_cons fun w hw hp => h w hw hp.isInfix,
        ih fun w hw hin => h w hw (List.infix_cons hin)]

/-! ## Parts of a text -/

/-- How a part of a text is revealed: it is a token, or it has none. -/
def Reveals (t t' : Text) : Prop :=
  (t = underscoreToken ∧ t' = ['_']) ∨ (t = asteriskToken ∧ t' = ['*']) ∨
    (t' = t ∧ Text.IsFree underscoreToken t ∧ Text.IsFree asteriskToken t)

/-- The parts of a text are revealed one by one. -/
theorem reveal_flatMap {α : Type} {f g : α → Text} {l : List α} (h : ∀ a ∈ l, Reveals (f a) (g a)) :
    reveal (l.flatMap f) = l.flatMap g := by
  induction l with
  | nil => exact reveal_nil
  | cons a l ih =>
    have ih' := ih fun a ha => h a (List.mem_cons_of_mem _ ha)
    rw [List.flatMap_cons, List.flatMap_cons, ← ih']
    rcases h a List.mem_cons_self with ⟨hf, hg⟩ | ⟨hf, hg⟩ | ⟨hg, hunderscore, hasterisk⟩
    · rw [hf, hg, reveal_underscoreToken]
      rfl
    · rw [hf, hg, reveal_asteriskToken]
      rfl
    · rw [hg, reveal_append_of_isFree]
      exact List.forall_mem_cons.2 ⟨hunderscore, List.forall_mem_singleton.2 hasterisk⟩

/-- A hidden character is revealed, if it is not what tokens begin with. -/
theorem reveals_hideChar (hc : c ≠ '\x7b') : Reveals (hideChar c) [c] := by
  have hfree (w : Text) : Text.IsFree ('\x7b' :: w) [c] :=
    Text.isFree_of_notMem w fun hm => hc (List.mem_singleton.1 hm).symm
  unfold hideChar
  split
  · rename_i hunderscore
    exact .inl ⟨rfl, by rw [hunderscore]⟩
  split
  · rename_i hasterisk
    exact .inr (.inl ⟨rfl, by rw [hasterisk]⟩)
  · exact .inr (.inr ⟨rfl, hfree _, hfree _⟩)

/-! ## Hidden and revealed -/

/-- No token is completed by one that is put in behind a character. -/
theorem not_isPrefix_cons_hide (hw : w ∈ addressTokens) (h : ¬ w <+: c :: g) : ¬ w <+: c :: hide g := by
  have hclears : ∀ w ∈ addressTokens, ∀ m ∈ addressTokens, clears m w.tail := by decide
  exact (edited_hide g).not_isPrefix_cons (fun _ m hm => isClear_of_clears (hclears w hw m hm.2)) h

/-- Revealing makes the same of an address, be it hidden or not. -/
theorem reveal_hide_eq (u : Text) : reveal (hide u) = reveal u := by
  induction u using reveal_induction with
  | nil => rfl
  | underscore g ih =>
    have hself : hide underscoreToken = underscoreToken := rfl
    rw [hide_append, hself, reveal_underscoreToken, reveal_underscoreToken, ih]
  | asterisk g ih =>
    have hself : hide asteriskToken = asteriskToken := rfl
    rw [hide_append, hself, reveal_asteriskToken, reveal_asteriskToken, ih]
  | char c g h ih =>
    rw [hide_cons, reveal_cons h, ← ih, hideChar]
    split
    · rename_i hc
      rw [hc, reveal_underscoreToken]
    split
    · rename_i hc
      rw [hc, reveal_asteriskToken]
    · exact reveal_cons fun w hw => not_isPrefix_cons_hide hw (h w hw)

/-- What is hidden in an address without braces can be revealed. -/
theorem reveal_hide (h : '\x7b' ∉ u) : reveal (hide u) = u := by
  have hreveal := reveal_append h []
  rw [List.append_nil, reveal_nil, List.append_nil] at hreveal
  rw [reveal_hide_eq, hreveal]

/-- An address is hidden by two replacements. No marker is left in it, and revealing gives it back if,
and only if, it has no token of its own. Parts of a token, next to a marker or not, do no harm. -/
theorem hiding_reversible (u : Text) :
    hide u = (u.replace ['_'] underscoreToken).replace ['*'] asteriskToken ∧
      '_' ∉ hide u ∧ '*' ∉ hide u ∧
      (reveal (hide u) = u ↔ ¬ underscoreToken <:+: u ∧ ¬ asteriskToken <:+: u) := by
  refine ⟨hide_eq_replace u, marker_notMem_hide u (.inr rfl), marker_notMem_hide u (.inl rfl), ?_⟩
  rw [reveal_hide_eq, reveal_eq_self_iff, addressTokens]
  simp only [List.forall_mem_cons, List.not_mem_nil, false_implies, implies_true, and_true]

/-- Parts of both tokens around markers. -/
example : reveal (hide "\x7b^^_^\x7d~*~\x7d\x7b*".toList) = "\x7b^^_^\x7d~*~\x7d\x7b*".toList := by
  decide +kernel

end Url

end Markdown
