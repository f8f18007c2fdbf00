import Markdown.Proofs.Rewriting
import Markdown.Proofs.Text.Lines
import Markdown.Proofs.Text.Occurrences
import Markdown.Proofs.Text.Replacing

/-!
# Words that are confined to parts

`Confined W P r t` says that the words of `W` begin nowhere in the text `t` but in its parts of the
kind `P`. What stands behind a part, up to the text `r` behind all of `t`, may matter for what kind it
is, and it is there as it is: no word that reaches over the end of a text is lost when the text is put
together with another one (`Confined.append`).

`Edited Q t t'` says that `t'` is `t` with some stretches replaced as `Q` allows it. If the new
stretches are foreign to the words, and a part stays one, the words are still confined behind the edit
(`Confined.edited`).
-/

namespace Markdown

open Text

namespace Text

/-! ## Foreign texts -/

/-- No end of the word `w` begins like the text `b`: the word does not reach from in front of `b`
into it. -/
def IsClear (w b : Text) : Prop :=
  ∀ v, v <:+ w → v ≠ [] → ¬ v <+: b ∧ ¬ b <+: v

/-- Whether no end of a word begins like a text. -/
def clears (b : Text) : Text → Bool
  | [] => true
  | c :: w => !(c :: w).isPrefixOf b && !b.isPrefixOf (c :: w) && clears b w

/-- None of the words begins in a text or reaches into it, whatever stands around it. -/
def IsForeign (W : List Text) (b : Text) : Prop :=
  ∀ w ∈ W, IsFree w b ∧ IsClear w.tail b

/-- Whether no word begins in a text or reaches into it. -/
def foreign (W : List Text) (b : Text) : Bool :=
  W.all fun w => lacks w b && clears b w.tail

variable {w w' b b' t u : Text} {W W' : List Text} {c : Char}

/-- A word that does not stand in a text does not begin there in front of a character that it does not
have either. -/
theorem isFree_concat (hc : c ∉ w) (h : ¬ w <:+: t) :
    IsFree w (t ++ [c]) := by
  have hbegin {x r : Text} (hx : ¬ w <:+: x) : ¬ w <+: x ++ [c] ++ r := by
    rintro ⟨z, hz⟩
    rw [List.append_assoc] at hz
    rcases List.append_eq_append_iff.1 hz with ⟨y, rfl, -⟩ | ⟨y, rfl, hy⟩
    · exact hx (List.prefix_append w y).isInfix
    · cases y with
      | nil => exact hx (by simp)
      | cons d y =>
        obtain ⟨rfl, -⟩ := List.cons.inj hy
        exact hc (by simp)
  induction t with
  | nil => exact ⟨fun r => hbegin h, trivial⟩
  | cons e t ih => exact ⟨fun r => hbegin h, ih fun hin => h (hin.trans (List.suffix_cons e t).isInfix)⟩

theorem isClear_of_clears (h : clears b w) : IsClear w b := by
  induction w with
  | nil => exact fun v hv hne => absurd (List.suffix_nil.1 hv) hne
  | cons c w ih =>
    simp only [clears, Bool.and_eq_true, Bool.not_eq_true', ← Bool.not_eq_true,
      List.isPrefixOf_iff_prefix] at h
    intro v hv hne
    rcases List.suffix_cons_iff.1 hv with rfl | hv
    · exact h.1
    · exact ih h.2 v hv hne

theorem isForeign_of_foreign (h : foreign W b) : IsForeign W b := by
  intro w hw
  have hw' := List.all_eq_true.1 h w hw
  rw [Bool.and_eq_true] at hw'
  exact ⟨isFree_of_lacks hw'.1, isClear_of_clears hw'.2⟩

/-- A text clears the words that do not have its first character. -/
theorem isClear_of_notMem (b : Text) (h : c ∉ w) : IsClear w (c :: b) := by
  intro v hv hne
  obtain ⟨d, v, rfl⟩ := List.exists_cons_of_ne_nil hne
  have hd : d ≠ c := by
    rintro rfl
    exact h (hv.subset (by simp))
  exact ⟨fun hp => hd (List.cons_prefix_cons.1 hp).1,
    fun hp => hd (List.cons_prefix_cons.1 hp).1.symm⟩

/-- A text that has none of the characters of a word is foreign to it. -/
theorem isForeign_of_forall_notMem (hw : w ≠ []) (hb : b ≠ []) (h : ∀ c ∈ b, c ∉ w) :
    IsForeign [w] b := by
  refine List.forall_mem_singleton.2 ⟨isFree_of_forall (fun c hc hhead => ?_) hw, ?_⟩
  · exact h c hc (List.mem_of_mem_head? hhead)
  · obtain ⟨c, b, rfl⟩ := List.exists_cons_of_ne_nil hb
    exact isClear_of_notMem b fun hc => h c (by simp) (List.mem_of_mem_tail hc)

theorem IsClear.of_suffix (h : IsClear w b) (hs : w' <:+ w) : IsClear w' b :=
  fun v hv => h v (hv.trans hs)

/-- A word stands at the end of a text only if it does so behind each character that it does not
have. -/
theorem suffix_of_notMem {x : Text} (hc : c ∉ w) (h : w <:+ x ++ c :: t) : w <:+ t := by
  rcases List.suffix_or_suffix_of_suffix h (List.suffix_append x (c :: t)) with hs | hs
  · rcases List.suffix_cons_iff.1 hs with rfl | hs
    · exact absurd List.mem_cons_self hc
    · exact hs
  · exact absurd (hs.subset List.mem_cons_self) hc

/-- A place in a text stands where another one does, in front of it or behind it. -/
theorem append_cons_cases {x x' y y' : Text} {c c' : Char} (h : x ++ c :: y = x' ++ c' :: y') :
    (x = x' ∧ c = c' ∧ y = y') ∨ (∃ z, x' = x ++ c :: z ∧ y = z ++ c' :: y') ∨
      ∃ z, x = x' ++ c' :: z ∧ y' = z ++ c :: y := by
  rcases List.append_eq_append_iff.1 h with ⟨z, rfl, hz⟩ | ⟨z, rfl, hz⟩
  · cases z with
    | nil =>
      obtain ⟨rfl, rfl⟩ := List.cons.inj hz
      exact .inl ⟨by simp, rfl, rfl⟩
    | cons d z =>
      obtain ⟨rfl, rfl⟩ := List.cons.inj hz
      exact .inr (.inl ⟨z, rfl, rfl⟩)
  · cases z with
    | nil =>
      obtain ⟨rfl, rfl⟩ := List.cons.inj hz
      exact .inl ⟨by simp, rfl, rfl⟩
    | cons d z =>
      obtain ⟨rfl, rfl⟩ := List.cons.inj hz
      exact .inr (.inr ⟨z, rfl, rfl⟩)

/-- A character stands behind a text that does not have it. -/
theorem exists_eq_append_of_notMem {x x' y y' : Text} (hc : c ∉ x) (h : x ++ y = x' ++ c :: y') :
    ∃ z, x' = x ++ z ∧ y = z ++ c :: y' := by
  rcases List.append_eq_append_iff.1 h with ⟨z, rfl, rfl⟩ | ⟨z, rfl, hz⟩
  · exact ⟨z, rfl, rfl⟩
  · cases z with
    | nil => exact ⟨[], by simp, by simpa using hz.symm⟩
    | cons d z =>
      obtain ⟨rfl, -⟩ := List.cons.inj hz
      exact absurd (by simp) hc

/-- What clears a word with its beginning does so as a whole. -/
theorem IsClear.append_right (h : IsClear w b) (u : Text) : IsClear w (b ++ u) := by
  intro v hv hne
  obtain ⟨hpre, hpre'⟩ := h v hv hne
  refine ⟨fun hp => ?_, fun hp => hpre' ((List.prefix_append b u).trans hp)⟩
  rcases List.prefix_or_prefix_of_prefix hp (List.prefix_append b u) with hp | hp
  · exact hpre hp
  · exact hpre' hp

theorem IsClear.append (h : IsClear w b) (h' : IsClear w' b) : IsClear (w ++ w') b := by
  intro v hv hne
  obtain ⟨z, hz⟩ := hv
  rcases List.append_eq_append_iff.1 hz with ⟨v', rfl, rfl⟩ | ⟨v', -, rfl⟩
  · by_cases hnil : v' = []
    · subst hnil
      exact h' _ List.suffix_rfl hne
    obtain ⟨hpre, hpre'⟩ := h v' (List.suffix_append z v') hnil
    refine ⟨fun hp => hpre ((List.prefix_append v' w').trans hp), fun hp => ?_⟩
    rcases List.prefix_or_prefix_of_prefix hp (List.prefix_append v' w') with hp | hp
    · exact hpre' hp
    · exact hpre hp
  · exact h' v (List.suffix_append v' v) hne

/-- No word of which no end begins like a text reaches into it. -/
theorem apart_of_isClear (h : IsClear w.tail b) (x y : Text) : Apart w x (b ++ y) := by
  rintro u v rfl hu hv - hp
  obtain ⟨c, u, rfl⟩ := List.exists_cons_of_ne_nil hu
  obtain ⟨hpre, hpre'⟩ := h v (List.suffix_append u v) hv
  rcases List.prefix_or_prefix_of_prefix hp (List.prefix_append b y) with hp | hp
  · exact hpre hp
  · exact hpre' hp

theorem IsForeign.isFree (h : IsForeign W b) : ∀ w ∈ W, IsFree w b :=
  fun w hw => (h w hw).1

theorem IsForeign.apart (h : IsForeign W b) (x y : Text) : ∀ w ∈ W, Apart w x (b ++ y) :=
  fun w hw => apart_of_isClear (h w hw).2 x y

/-- A foreign text with something behind it in which no word begins. -/
theorem IsForeign.append_right (h : IsForeign W b) (hu : ∀ w ∈ W, IsFree w u) :
    IsForeign W (b ++ u) :=
  fun w hw => ⟨(h w hw).1.append (hu w hw), (h w hw).2.append_right u⟩

end Text

/-! ## Edits -/

/-- The second text is the first one with some stretches replaced; `Q m m'` says that `m'` may take
the place of `m`. -/
inductive Edited (Q : Text → Text → Prop) : Text → Text → Prop where
  | nil : Edited Q [] []
  | keep (c : Char) {t t' : Text} : Edited Q t t' → Edited Q (c :: t) (c :: t')
  | replace {m m' t t' : Text} : Q m m' → Edited Q t t' → Edited Q (m ++ t) (m' ++ t')

/-- One of the texts `ms'` for one of the texts `ms`. -/
def OneFor (ms ms' : List Text) (m m' : Text) : Prop :=
  m ∈ ms ∧ m' ∈ ms'

namespace Edited

variable {Q : Text → Text → Prop} {t t' u u' x y w : Text} {c : Char}

theorem refl (t : Text) : Edited Q t t := by
  induction t with
  | nil => exact .nil
  | cons c t ih => exact .keep c ih

theorem append (ht : Edited Q t t') (hu : Edited Q u u') : Edited Q (t ++ u) (t' ++ u') := by
  induction ht with
  | nil => exact hu
  | keep c _ ih => exact .keep c ih
  | replace hQ _ ih =>
    rw [List.append_assoc, List.append_assoc]
    exact .replace hQ ih

theorem single {m m' : Text} (h : Q m m') : Edited Q m m' := by
  have hreplace := replace h .nil
  rwa [List.append_nil, List.append_nil] at hreplace

/-- If each match may be replaced, rewriting is an edit. -/
theorem rewriteFrom {p : Pattern} (hp : p.finder.IsProper) {ρ : Match → Text} {b : Option Char}
    {t : Text} (h : ∀ b' s r v, Piece.found s v ∈ piecesFrom p.finder b t →
      p.finder (.of b' (s ++ r)) = some (s.length, v) → Edited Q s (ρ ⟨s, v⟩)) :
    Edited Q t (p.rewriteFrom ρ b t) := by
  have hpieces {ps : List (Piece Char (List (Option Text)))} (hps : ps ⊆ piecesFrom p.finder b t) :
      Edited Q (ps.flatMap Piece.source) (ps.flatMap (Piece.image ρ)) := by
    induction ps with
    | nil => exact .nil
    | cons piece ps ih =>
      obtain ⟨hpiece, hbehind⟩ := List.cons_subset.1 hps
      cases piece with
      | kept c => exact .keep c (ih hbehind)
      | found s v =>
        obtain ⟨b', r, -, hf⟩ := hp.of_found_mem_piecesFrom hpiece
        exact (h b' s r v hpiece hf).append (ih hbehind)
  have hsource : (piecesFrom p.finder b t).flatMap Piece.source = t :=
    flatMap_source_scanFrom p.finder 0 false (.of b t)
  have hall := hpieces (List.Subset.refl _)
  rwa [hsource] at hall

/-- Replacing a text wherever it stands is an edit. -/
theorem of_replace {old new : Text} (hne : old ≠ []) (t : Text) :
    Edited (fun m m' => m = old ∧ m' = new) t (Text.replace t old new) := by
  refine (isProper_literal hne).induction
    (motive := fun _ t => Edited (fun m m' => m = old ∧ m' = new) t (Text.replace t old new))
    ?_ ?_ ?_ none t
  · intro _
    rw [replace_nil hne]
    exact .nil
  · intro b c t hf ih
    have hp : ¬ old <+: c :: t := by
      rintro ⟨r, hr⟩
      rw [← hr, literal_append] at hf
      exact absurd hf (by simp)
    rw [replace_cons hne new hp]
    exact .keep c ih
  · intro b s t v _ hf ih
    obtain ⟨⟨r, hr⟩, hlen⟩ := of_literal_eq_some hf
    obtain rfl : old = s := (List.append_inj hr hlen.symm).1
    rw [replace_append hne]
    exact .replace ⟨rfl, rfl⟩ ih

/-- So is it to write something else for some characters. -/
theorem flatMap {f : Char → Text} (h : ∀ c, f c = [c] ∨ Q [c] (f c)) (t : Text) :
    Edited Q t (t.flatMap f) := by
  induction t with
  | nil => exact .nil
  | cons c t ih =>
    rw [List.flatMap_cons]
    rcases h c with hc | hc
    · rw [hc]
      exact .keep c ih
    · exact (single hc).append ih

theorem eq_nil (hQ : ∀ m m', Q m m' → m ≠ []) (h : Edited Q [] t') : t' = [] := by
  generalize ht : ([] : Text) = t at h
  cases h with
  | nil => rfl
  | keep => exact absurd ht (List.cons_ne_nil _ _).symm
  | replace hm _ => exact absurd (List.append_eq_nil_iff.1 ht.symm).1 (hQ _ _ hm)

/-- A text in which nothing begins that may be replaced is kept. -/
theorem exists_eq_append (hx : ∀ m m', Q m m' → IsFree m x) (h : Edited Q (x ++ y) t') :
    ∃ y', t' = x ++ y' ∧ Edited Q y y' := by
  induction x generalizing t' with
  | nil => exact ⟨t', rfl, h⟩
  | cons c x ih =>
    generalize ht : c :: (x ++ y) = t at h
    rw [List.cons_append, ht] at h
    cases h with
    | nil => exact absurd ht (List.cons_ne_nil _ _)
    | keep d h =>
      obtain ⟨rfl, rfl⟩ := List.cons.inj ht
      obtain ⟨y', rfl, hy'⟩ := ih (fun m m' hm => (hx m m' hm).2) h
      exact ⟨y', rfl, hy'⟩
    | @replace m m' u u' hm _ => exact absurd ⟨u, ht.symm⟩ ((hx m m' hm).1 y)

/-- A character that is part of nothing that may be replaced divides an edit. -/
theorem exists_eq_append_cons (hc : ∀ m m', Q m m' → m ≠ [] ∧ c ∉ m)
    (h : Edited Q (x ++ c :: y) t') :
    ∃ x' y', t' = x' ++ c :: y' ∧ Edited Q x x' ∧ Edited Q y y' := by
  generalize ht : x ++ c :: y = t at h
  induction h generalizing x with
  | nil => exact absurd ht (by simp)
  | @keep d u u' h ih =>
    cases x with
    | nil =>
      obtain ⟨rfl, rfl⟩ := List.cons.inj ht
      exact ⟨[], u', rfl, .nil, h⟩
    | cons e x =>
      obtain ⟨rfl, htail⟩ := List.cons.inj ht
      obtain ⟨x', y', rfl, hx, hy⟩ := ih htail
      exact ⟨e :: x', y', rfl, .keep e hx, hy⟩
  | @replace m m' u u' hm h ih =>
    rcases List.append_eq_append_iff.1 ht with ⟨z, rfl, hz⟩ | ⟨z, rfl, hz⟩
    · cases z with
      | nil =>
        obtain ⟨x', y', rfl, hx, hy⟩ := ih (x := []) hz
        refine ⟨m' ++ x', y', by simp, ?_, hy⟩
        have hreplace := replace hm hx
        simpa using hreplace
      | cons d z =>
        obtain ⟨rfl, -⟩ := List.cons.inj hz
        exact absurd (by simp) (hc _ m' hm).2
    · obtain ⟨x', y', rfl, hx, hy⟩ := ih hz.symm
      exact ⟨m' ++ x', y', by simp, .replace hm hx, hy⟩

theorem notMem (hQ : ∀ m m', Q m m' → c ∉ m') (h : Edited Q t t') (ht : c ∉ t) : c ∉ t' := by
  induction h with
  | nil => exact ht
  | keep d _ ih =>
    rw [List.mem_cons, not_or] at ht ⊢
    exact ⟨ht.1, ih ht.2⟩
  | replace hm _ ih =>
    rw [List.mem_append, not_or] at ht ⊢
    exact ⟨hQ _ _ hm, ih ht.2⟩

/-- A word at the beginning of an edited text stood there before. -/
theorem isPrefix_of_isPrefix (hQ : ∀ m m', Q m m' → IsClear w m') (h : Edited Q t t')
    (hw : w <+: t') : w <+: t := by
  induction h generalizing w with
  | nil => exact hw
  | keep c _ ih =>
    cases w with
    | nil => exact List.nil_prefix
    | cons d w =>
      obtain ⟨rfl, hbehind⟩ := List.cons_prefix_cons.1 hw
      have htail := ih (fun m m' hm => (hQ m m' hm).of_suffix (List.suffix_cons d w)) hbehind
      exact List.cons_prefix_cons.2 ⟨rfl, htail⟩
  | @replace m m' u u' hm _ _ =>
    by_cases hne : w = []
    · rw [hne]
      exact List.nil_prefix
    obtain ⟨hpre, hpre'⟩ := hQ m m' hm w List.suffix_rfl hne
    rcases List.prefix_or_prefix_of_prefix hw (List.prefix_append m' u') with hp | hp
    · exact absurd hp hpre
    · exact absurd hp hpre'

theorem not_isPrefix_cons (hQ : ∀ m m', Q m m' → IsClear w.tail m') (h : Edited Q t t')
    (hw : ¬ w <+: c :: t) : ¬ w <+: c :: t' := by
  intro hp
  cases w with
  | nil => exact hw List.nil_prefix
  | cons d w =>
    obtain ⟨rfl, hbehind⟩ := List.cons_prefix_cons.1 hp
    exact hw (List.cons_prefix_cons.2 ⟨rfl, h.isPrefix_of_isPrefix hQ hbehind⟩)

end Edited

/-! ## Confined words -/

/-- In front of `r`, the words of `W` begin in a text only in its parts of the kind `P`: `P a b` says
that `a` is such a part in front of `b`. -/
inductive Confined (W : List Text) (P : Text → Text → Prop) (r : Text) : Text → Prop where
  | nil : Confined W P r []
  | char {c : Char} {t : Text} :
      (∀ w ∈ W, ¬ w <+: c :: (t ++ r)) → Confined W P r t → Confined W P r (c :: t)
  | part {a t : Text} : P a (t ++ r) → Confined W P r t → Confined W P r (a ++ t)

namespace Confined

variable {W W' : List Text} {P P' : Text → Text → Prop} {r r' t x y b w : Text} {c : Char}

theorem mono (hW : W' ⊆ W) (hP : ∀ a b, P a b → P' a b) (h : Confined W P r t) :
    Confined W' P' r t := by
  induction h with
  | nil => exact .nil
  | char hw _ ih => exact .char (fun w hw' => hw w (hW hw')) ih
  | part ha _ ih => exact .part (hP _ _ ha) ih

/-- Words that do not stand in a text are confined, whatever the parts are. -/
theorem of_not_isInfix (h : ∀ w ∈ W, ¬ w <:+: t) : Confined W P [] t := by
  induction t with
  | nil => exact .nil
  | cons c t ih =>
    refine .char (fun w hw hp => h w hw ?_) (ih fun w hw hin => h w hw ?_)
    · rw [List.append_nil] at hp
      exact hp.isInfix
    · exact hin.trans (List.suffix_cons c t).isInfix

theorem of_isFree (h : ∀ w ∈ W, IsFree w t) : Confined W P r t := by
  induction t with
  | nil => exact .nil
  | cons c t ih => exact .char (fun w hw => (h w hw).1 r) (ih fun w hw => (h w hw).2)

/-- Without parts, the words do not stand in the text. -/
theorem not_isInfix (h : Confined W (fun _ _ => False) [] t) (hne : w ≠ []) (hw : w ∈ W) :
    ¬ w <:+: t := by
  induction h with
  | nil => exact fun hin => hne (List.infix_nil.1 hin)
  | @char c t hc _ ih =>
    intro hin
    rcases List.infix_cons_iff.1 hin with hp | hin
    · exact hc w hw (by rwa [List.append_nil])
    · exact ih hin
  | part ha _ _ => exact ha.elim

/-- A text without a character has no parts that have it. -/
theorem of_notMem (h : Confined W P r t) (hP : ∀ a b, P a b → c ∈ a) (hc : c ∉ t) :
    Confined W P' r t := by
  induction h with
  | nil => exact .nil
  | char hw _ ih => exact .char hw (ih fun hm => hc (List.mem_cons_of_mem _ hm))
  | part ha _ _ => exact absurd (List.mem_append_left _ (hP _ _ ha)) hc

/-! ## Two texts -/

theorem append (hx : Confined W P (y ++ r) x) (hy : Confined W P r y) : Confined W P r (x ++ y) := by
  induction hx with
  | nil => exact hy
  | @char c x hw _ ih =>
    rw [← List.append_assoc] at hw
    exact .char hw ih
  | @part a x ha _ ih =>
    rw [← List.append_assoc] at ha
    rw [List.append_assoc]
    exact .part ha ih

/-- A text in which no word begins can stand in front. -/
theorem append_left (hb : ∀ w ∈ W, IsFree w b) (ht : Confined W P r t) : Confined W P r (b ++ t) :=
  (of_isFree hb).append ht

/-- A text can be divided where no part reaches over the seam. -/
theorem of_append (h : Confined W P r (x ++ y))
    (hP : ∀ u v b, u <:+ x → v <+: y → u ≠ [] → v ≠ [] → P (u ++ v) b → v ++ b ≠ y ++ r) :
    Confined W P (y ++ r) x ∧ Confined W P r y := by
  generalize ht : x ++ y = t at h
  induction h generalizing x with
  | nil =>
    obtain ⟨rfl, rfl⟩ := List.append_eq_nil_iff.1 ht
    exact ⟨.nil, .nil⟩
  | @char c t hw h ih =>
    cases x with
    | nil =>
      rw [List.nil_append] at ht
      rw [ht]
      exact ⟨.nil, .char hw h⟩
    | cons d x =>
      rw [List.cons_append, List.cons.injEq] at ht
      obtain ⟨rfl, rfl⟩ := ht
      obtain ⟨hx, hy⟩ := ih (fun u v b hu => hP u v b (hu.trans (List.suffix_cons d x))) rfl
      rw [List.append_assoc] at hw
      exact ⟨.char hw hx, hy⟩
  | @part a t ha h ih =>
    rcases List.append_eq_append_iff.1 ht with ⟨z, rfl, rfl⟩ | ⟨z, rfl, rfl⟩
    · by_cases hz : z = []
      · subst hz
        rw [List.append_nil] at ha
        have hx : Confined W P (t ++ r) (x ++ []) := .part (by rwa [List.nil_append]) .nil
        exact ⟨by simpa using hx, h⟩
      · by_cases hx : x = []
        · subst hx
          exact ⟨.nil, .part ha h⟩
        · refine absurd ?_ (hP x z (t ++ r) List.suffix_rfl (List.prefix_append z t) hx hz ha)
          rw [List.append_assoc]
    · obtain ⟨hz, hy⟩ := ih (fun u v b hu => hP u v b (hu.trans (List.suffix_append a z))) rfl
      rw [List.append_assoc] at ha
      exact ⟨.part ha hz, hy⟩

/-- What no part begins in can be left out. -/
theorem of_append_of_isFree (h : Confined W P r (b ++ t)) (hP : ∀ a y, P a y → IsFree a b) :
    Confined W P r t := by
  refine (h.of_append fun u v y hu _ hne _ ha _ => ?_).2
  obtain ⟨x, hx⟩ := hu
  obtain ⟨c, u, rfl⟩ := List.exists_cons_of_ne_nil hne
  exact (hP _ y ha).not_isPrefix hx.symm v List.prefix_rfl

/-- A character that stands in no part divides a text. -/
theorem of_append_cons (h : Confined W P r (x ++ c :: y)) (hc : ∀ a b, P a b → c ∉ a) :
    Confined W P (c :: y ++ r) x ∧ Confined W P r (c :: y) := by
  refine h.of_append fun u v b _ hv _ hne ha => ?_
  obtain ⟨d, v, rfl⟩ := List.exists_cons_of_ne_nil hne
  obtain ⟨rfl, -⟩ := List.cons_prefix_cons.1 hv
  exact absurd (by simp) (hc _ b ha)

/-- What stands behind a text can be exchanged, if no word reaches into it and the parts stay such. -/
theorem before (h : Confined W P r x) (hW : ∀ w ∈ W, Apart w x r')
    (hP : ∀ a z, z <:+ x → P a (z ++ r) → P' a (z ++ r')) : Confined W P' r' x := by
  induction h with
  | nil => exact .nil
  | @char c x hw _ ih =>
    refine .char (fun w hmem hp => ?_) (ih (fun w hmem u v hwuv hu hv hsuffix =>
      hW w hmem u v hwuv hu hv (hsuffix.trans (List.suffix_cons c x))) fun a z hz =>
        hP a z (hz.trans (List.suffix_cons c x)))
    obtain ⟨z, hz⟩ : w <+: (c :: x) ++ r' := hp
    rcases List.append_eq_append_iff.1 hz with ⟨v, hv, -⟩ | ⟨v, rfl, hv⟩
    · refine hw w hmem ?_
      rw [← List.cons_append, hv, List.append_assoc]
      exact List.prefix_append w _
    · by_cases hne : v = []
      · subst hne
        refine hw _ hmem ?_
        rw [List.append_nil, ← List.cons_append]
        exact List.prefix_append (c :: x) r
      · exact hW _ hmem (c :: x) v rfl (List.cons_ne_nil c x) hne List.suffix_rfl ⟨z, hv.symm⟩
  | @part a x ha _ ih =>
    refine .part (hP a x (List.suffix_append a x) ha) (ih (fun w hmem u v hwuv hu hv hsuffix =>
      hW w hmem u v hwuv hu hv (hsuffix.trans (List.suffix_append a x))) fun a' z hz =>
        hP a' z (hz.trans (List.suffix_append a x)))

/-! ## Whole texts -/

theorem whole_char (hw : ∀ w ∈ W, ¬ w <+: c :: t) (h : Confined W P [] t) :
    Confined W P [] (c :: t) :=
  .char (by rwa [List.append_nil]) h

theorem whole_part (ha : P x t) (h : Confined W P [] t) : Confined W P [] (x ++ t) :=
  .part (by rwa [List.append_nil]) h

theorem whole_append (hx : Confined W P y x) (hy : Confined W P [] y) : Confined W P [] (x ++ y) :=
  append (by rwa [List.append_nil]) hy

/-! ## Behind an edit -/

/-- An edit leaves words confined if it puts none of them behind a character, goes through the parts,
and what it puts in does not disturb what is behind. -/
theorem edited {Q : Text → Text → Prop} {t' : Text} (hP : ∀ a b, P a b → a ≠ [])
    (hQ : ∀ m m', Q m m' → m ≠ [])
    (hchar : ∀ c t t', Edited Q t t' → (∀ w ∈ W, ¬ w <+: c :: t) → ∀ w ∈ W', ¬ w <+: c :: t')
    (hpart : ∀ a t t', P a t → Confined W P [] t → Edited Q (a ++ t) t' →
      ∃ a' r, t' = a' ++ r ∧ P' a' r ∧ Edited Q t r)
    (hreplace : ∀ m m' t r, Q m m' → Confined W P [] (m ++ t) → Edited Q t r →
      (Confined W P [] t → Confined W' P' [] r) → Confined W' P' [] (m' ++ r))
    (h : Confined W P [] t) (he : Edited Q t t') : Confined W' P' [] t' := by
  induction hn : t.length using Nat.strongRecOn generalizing t t' with
  | ind n ih =>
    cases h with
    | nil =>
      rw [he.eq_nil hQ]
      exact .nil
    | @char c t hw h =>
      rw [List.append_nil] at hw
      generalize hx : c :: t = x at he
      cases he with
      | nil => exact absurd hx (List.cons_ne_nil c t)
      | @keep d u u' he =>
        obtain ⟨rfl, rfl⟩ := List.cons.inj hx
        exact whole_char (hchar _ _ _ he hw) (ih _ (by simp [← hn]) h he rfl)
      | @replace m m' u u' hm he =>
        have hlen := congrArg List.length hx
        have hpos := List.length_pos_iff.2 (hQ m m' hm)
        rw [List.length_append] at hlen
        exact hreplace m m' u u' hm (hx ▸ whole_char hw h) he fun hu => ih _ (by omega) hu he rfl
    | @part a t ha h =>
      rw [List.append_nil] at ha
      have hpos := List.length_pos_iff.2 (hP a t ha)
      rw [List.length_append] at hn
      obtain ⟨a', r, rfl, ha', hr⟩ := hpart a t _ ha h he
      exact whole_part ha' (ih _ (by omega) h hr rfl)

/-- An edit does so if what it puts in is foreign to the words. -/
theorem edited_of_isForeign {Q : Text → Text → Prop} {t' : Text} (hP : ∀ a b, P a b → a ≠ [])
    (hQ : ∀ m m', Q m m' → m ≠ []) (hnew : ∀ m m', Q m m' → IsForeign W m')
    (hold : ∀ m m' u v b, Q m m' → u <:+ m → u ≠ [] → ¬ P (u ++ v) b)
    (hpart : ∀ a t t', P a t → Confined W P [] t → Edited Q (a ++ t) t' →
      ∃ a' r, t' = a' ++ r ∧ P' a' r ∧ Edited Q t r)
    (h : Confined W P [] t) (he : Edited Q t t') : Confined W P' [] t' := by
  refine edited hP hQ (fun c t t' he hw w hmem => ?_) hpart (fun m m' t r hm ht _ ih => ?_) h he
  · exact he.not_isPrefix_cons (fun m m' hm => (hnew m m' hm w hmem).2) (hw w hmem)
  · obtain ⟨-, ht⟩ := ht.of_append fun u v b hu _ hune _ ha =>
      absurd ha (hold m m' u v b hm hu hune)
    exact (ih ht).append_left (hnew m m' hm).isFree

end Confined

/-- An edit makes no word that its new stretches are foreign to. -/
theorem Edited.not_isInfix {Q : Text → Text → Prop} {t t' w : Text} (hne : w ≠ [])
    (hQ : ∀ m m', Q m m' → m ≠ []) (hnew : ∀ m m', Q m m' → IsForeign [w] m')
    (he : Edited Q t t') (h : ¬ w <:+: t) : ¬ w <:+: t' := by
  have hconfined : Confined [w] (fun _ _ => False) [] t := .of_not_isInfix (by simpa using h)
  exact (hconfined.edited_of_isForeign (fun _ _ ha => ha.elim) hQ hnew
    (fun _ _ _ _ _ _ _ _ ha => ha.elim) (fun _ _ _ ha => ha.elim) he).not_isInfix hne (by simp)

end Markdown
