import Markdown.Proofs.Text.Pieces

/-!
# Replacing a literal text

`Text.replaceFrom` is `Text.replace` in the form to reason about, and `Text.replace_flatMap` the case
in which the text is made of parts, each of them all that is replaced or free of it.
-/

namespace Markdown

universe v

/-! ## Literal matches -/

theorem of_literal_eq_some {needle l : Text} {b : Option Char} {n : Nat} {v : Unit}
    (h : literal needle (.of b l) = some (n, v)) : needle <+: l ∧ n = needle.length := by
  by_cases hp : needle.isPrefixOf l
  · have hsome : literal needle (.of b l) = some (needle.length, ()) := if_pos hp
    rw [hsome] at h
    exact ⟨List.isPrefixOf_iff_prefix.1 hp, (Prod.mk.inj (Option.some.inj h)).1.symm⟩
  · have hnone : literal needle (.of b l) = none := if_neg hp
    rw [hnone] at h
    exact absurd h (by simp)

theorem literal_append (needle : Text) (b : Option Char) (l : Text) :
    literal needle (.of b (needle ++ l)) = some (needle.length, ()) :=
  if_pos (List.isPrefixOf_iff_prefix.2 (List.prefix_append needle l))

theorem literal_eq_none {needle l : Text} (b : Option Char) (h : ¬ needle <+: l) :
    literal needle (.of b l) = none :=
  if_neg fun hp => h (List.isPrefixOf_iff_prefix.1 hp)

theorem isProper_literal {needle : Text} (h : needle ≠ []) :
    (literal needle : Finder Char Unit).IsProper := by
  intro b l n v hf
  obtain ⟨hp, rfl⟩ := of_literal_eq_some hf
  exact ⟨List.length_pos_iff.2 h, hp.length_le⟩

/-- A piece, with `new` in the place of a match. -/
def Piece.substitute {β : Type v} (new : Text) : Piece Char β → Text
  | .kept c => [c]
  | .found _ _ => new

namespace Text

/-! ## Replacement from a position on -/

/-- Replace the matches of `old` in a text that stands behind the character `b`. -/
def replaceFrom (old new : Text) (b : Option Char) (t : Text) : Text :=
  (piecesFrom (literal old) b t).flatMap (Piece.substitute new)

theorem replace_eq_replaceFrom (t old new : Text) :
    t.replace old new = replaceFrom old new none t := by
  unfold replace replaceFrom
  rw [scan_eq_piecesFrom]
  congr 1
  funext p
  cases p <;> rfl

variable {old : Text} (h : old ≠ []) (new : Text) (b : Option Char)

include h

theorem replaceFrom_nil : replaceFrom old new b [] = [] := by
  rw [replaceFrom, (isProper_literal h).piecesFrom_nil]
  rfl

theorem replaceFrom_cons {c : Char} {t : Text} (hp : ¬ old <+: c :: t) :
    replaceFrom old new b (c :: t) = c :: replaceFrom old new (some c) t := by
  rw [replaceFrom, (isProper_literal h).piecesFrom_cons (literal_eq_none b hp)]
  rfl

theorem replaceFrom_append (t : Text) :
    replaceFrom old new b (old ++ t) = new ++ replaceFrom old new (lastOr b old) t := by
  rw [replaceFrom, (isProper_literal h).piecesFrom_append (literal_append old b t)]
  rfl

/-- What stands in front of a text makes no difference. -/
theorem replaceFrom_eq_replace (t : Text) : replaceFrom old new b t = t.replace old new := by
  rw [replace_eq_replaceFrom]
  generalize none = b'
  revert b'
  refine (isProper_literal h).induction
    (motive := fun b t => ∀ b', replaceFrom old new b t = replaceFrom old new b' t) ?_ ?_ ?_ b t
  · intro b b'
    rw [replaceFrom_nil h, replaceFrom_nil h]
  · intro b c t hf ih b'
    have hp : ¬ old <+: c :: t := by
      rintro ⟨r, hr⟩
      rw [← hr, literal_append] at hf
      exact absurd hf (by simp)
    rw [replaceFrom_cons h new b hp, replaceFrom_cons h new b' hp]
  · intro b s t v _ hf ih b'
    obtain ⟨hp, hlen⟩ := of_literal_eq_some hf
    obtain rfl : old = s := by
      obtain ⟨r, hr⟩ := hp
      exact (List.append_inj hr hlen.symm).1
    rw [replaceFrom_append h, replaceFrom_append h, ih (lastOr b' old)]

theorem replace_nil : replace [] old new = [] := by
  rw [← replaceFrom_eq_replace h new none, replaceFrom_nil h]

theorem replace_cons {c : Char} {t : Text} (hp : ¬ old <+: c :: t) :
    replace (c :: t) old new = c :: t.replace old new := by
  rw [← replaceFrom_eq_replace h new none, replaceFrom_cons h new none hp,
    replaceFrom_eq_replace h]

theorem replace_append (t : Text) : replace (old ++ t) old new = new ++ t.replace old new := by
  rw [← replaceFrom_eq_replace h new none, replaceFrom_append h, replaceFrom_eq_replace h]

/-- A part in which nothing begins that is replaced stays. -/
theorem replaceFrom_stretch (u : Text) {t : Text}
    (hu : ∀ x c y, u = x ++ c :: y → ¬ old <+: c :: y ++ t) :
    replaceFrom old new b (u ++ t) = u ++ replaceFrom old new (lastOr b u) t := by
  induction u generalizing b with
  | nil => rfl
  | cons a u ih =>
    have ha : ¬ old <+: a :: (u ++ t) := hu [] a u rfl
    rw [List.cons_append, replaceFrom_cons h new b ha, ih, lastOr_cons]
    · rfl
    · intro x c y hxy
      exact hu (a :: x) c y (by rw [hxy]; rfl)

theorem replace_stretch (u : Text) {t : Text}
    (hu : ∀ x c y, u = x ++ c :: y → ¬ old <+: c :: y ++ t) :
    replace (u ++ t) old new = u ++ t.replace old new := by
  rw [← replaceFrom_eq_replace h new none, replaceFrom_stretch h new none u hu,
    replaceFrom_eq_replace h]

/-- The parts that are all that is replaced are replaced, and the others stay. -/
theorem replace_flatMap {α : Type} {f g : α → Text} {t : List α}
    (hfg : ∀ a ∈ t, (f a = old ∧ g a = new) ∨
      (g a = f a ∧ ∀ x c y r, f a = x ++ c :: y → ¬ old <+: c :: y ++ r)) :
    replace (t.flatMap f) old new = t.flatMap g := by
  rw [replace_eq_replaceFrom]
  generalize none = b
  induction t generalizing b with
  | nil => exact replaceFrom_nil h new b
  | cons a t ih =>
    have ih' := ih (fun a ha => hfg a (by simp [ha]))
    rw [List.flatMap_cons, List.flatMap_cons]
    rcases hfg a (by simp) with ⟨hf, hg⟩ | ⟨hg, hnot⟩
    · rw [hf, hg, replaceFrom_append h, ih']
    · rw [hg, replaceFrom_stretch h new b (f a) fun x c y hxy => hnot x c y _ hxy, ih']

omit h new in
/-- To replace a character is to go through the text character by character. -/
theorem replace_singleton (c : Char) (new t : Text) :
    t.replace [c] new = t.flatMap fun d => if d = c then new else [d] := by
  have hparts := replace_flatMap (List.cons_ne_nil c []) new (f := fun d => [d])
    (g := fun d => if d = c then new else [d]) (t := t) fun d _ => by
      by_cases hd : d = c
      · exact .inl ⟨by rw [hd], if_pos hd⟩
      · refine .inr ⟨if_neg hd, fun x e y r hxy hp => ?_⟩
        obtain rfl : d = e := by
          cases x with
          | nil => exact (List.cons.inj hxy).1
          | cons a x => simp at hxy
        exact hd (List.cons_prefix_cons.1 hp).1.symm
  rwa [List.flatMap_singleton'] at hparts

end Text

end Markdown
