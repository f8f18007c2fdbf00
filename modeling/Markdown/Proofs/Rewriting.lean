import Markdown.Proofs.Regex.Parts
import Markdown.Proofs.Text.Free
import Markdown.Rule

/-!
# Rewriting a document

A pattern of either kind finds its matches at positions of the text itself (`Pattern.finder`), and
a rule whose replacements depend on the match and the options alone makes a function of the text
(`Rule.rewrite_of_isPure`), of which `Pattern.rewriteFrom` is the form to reason about: it goes
through the text from left to right and keeps a character or replaces a match.
-/

namespace Markdown

/-! ## Finding at positions of the text -/

namespace Pattern

/-- Where a pattern matches in a text. -/
def finder : Pattern → Finder Char (List (Option Text))
  | regex _ program groups => program.find groups
  | delimiter d => fun c => d.find (.of none (Spot.ofText c.rest))

/-- A piece of spots as a piece of a text. -/
def pieceOfSpots : Piece Spot (List (Option Text)) → Piece Char (List (Option Text))
  | .kept s => .kept s.char
  | .found spots groups => .found (spots.map Spot.char) groups

/-- Scanning the spots of a text is scanning the text. -/
theorem map_pieceOfSpots_scanFrom (d : Delimiter) (skip : Nat) (touching : Bool)
    (b : Option Spot) (b' : Option Char) (t : Text) :
    (scanFrom d.find skip touching [] (.of b (Spot.ofText t))).map pieceOfSpots =
      scanFrom (delimiter d).finder skip touching [] (.of b' t) := by
  have haccept (touching : Bool) (b : Option Spot) (b' : Option Char) (t : Text) :
      d.find.accept? touching (.of b (Spot.ofText t)) =
        (delimiter d).finder.accept? touching (.of b' t) := rfl
  induction t generalizing skip touching b b' with
  | nil =>
    have h := haccept touching b b' []
    rw [Spot.ofText_nil, Cursor.of, Cursor.of] at *
    rw [scanFrom, scanFrom, h]
    split <;> rfl
  | cons c t ih =>
    have h := haccept touching b b' (c :: t)
    rw [Spot.ofText_cons, Cursor.of, Cursor.of] at *
    cases skip with
    | succ skip =>
      rw [scanFrom, scanFrom, Cursor.behind_length, Cursor.behind_length]
      exact ih skip touching _ _
    | zero =>
      rw [scanFrom, scanFrom, h]
      split
      · rw [Cursor.behind_length, Cursor.behind_length, scanFrom_eq_append,
          scanFrom_eq_append _ _ _ [_], List.map_append, ih]
        rfl
      · rw [Cursor.behind_length, Cursor.behind_length, scanFrom_eq_append,
          scanFrom_eq_append _ _ _ [_, _], List.map_append, ih]
        rfl
      · rw [Cursor.behind_length, Cursor.behind_length, scanFrom_eq_append,
          scanFrom_eq_append _ _ _ [_], List.map_append, ih _ _ _ (some c)]
        simp [pieceOfSpots]

/-- The pieces of a text are those that its scan finds. -/
theorem pieces_eq_piecesFrom (p : Pattern) (t : Text) :
    p.pieces t = piecesFrom p.finder none t := by
  cases p with
  | regex => rfl
  | delimiter d => exact map_pieceOfSpots_scanFrom d 0 false none none t

end Pattern

/-! ## Matches are not empty -/

namespace Regex

/-- Whether a pattern takes at least one character, whichever way it goes. -/
def isSolid : Regex → Bool
  | one _ => true
  | seq r s => r.isSolid || s.isSolid
  | alt r s => r.isSolid && s.isSolid
  | group _ r => r.isSolid
  | _ => false

theorem taken_ne_nil_of_mem_ways {r : Regex} (hr : r.isSolid) {b : Option Char} {t : Text}
    {w : Way} (h : w ∈ r.ways b t) : w.taken ≠ [] := by
  induction r generalizing b t w with
  | one s =>
    cases t with
    | nil => simp [ways] at h
    | cons a t =>
      simp only [ways] at h
      split at h
      · obtain rfl : w = _ := by simpa using h
        simp
      · simp at h
  | seq r s ihr ihs =>
    simp only [ways, List.mem_flatMap, List.mem_map] at h
    obtain ⟨v, hv, v', hv', rfl⟩ := h
    simp only [isSolid, Bool.or_eq_true] at hr
    rcases hr with hr | hr
    · simp [Way.andThen, ihr hr hv]
    · simp [Way.andThen, ihs hr hv']
  | alt r s ihr ihs =>
    simp only [isSolid, Bool.and_eq_true] at hr
    rcases List.mem_append.1 h with h | h
    · exact ihr hr.1 h
    · exact ihs hr.2 h
  | group index r ih =>
    simp only [ways, List.mem_map] at h
    obtain ⟨v, hv, rfl⟩ := h
    exact ih (w := v) hr hv
  | _ => simp [isSolid] at hr

/-- What is found is one of the ways through the pattern. -/
theorem exists_way_of_find {r : Regex} (hr : r.isPlain) {groups n : Nat} {b : Option Char}
    {t : Text} {v : List (Option Text)} (h : r.find groups (.of b t) = some (n, v)) :
    ∃ w ∈ r.ways b t, w.taken.length = n ∧ w.groupTexts groups = v := by
  rw [find_eq_head?_ways hr, Option.map_eq_some_iff] at h
  obtain ⟨w, hw, heq⟩ := h
  obtain ⟨hn, hv⟩ := Prod.mk.inj heq
  exact ⟨w, List.mem_of_head? hw, hn, hv⟩

end Regex

namespace Delimiter

theorem standsAt_length {marker : Text} {spots : List Spot} (h : standsAt marker spots) :
    marker.length ≤ spots.length := by
  induction marker generalizing spots with
  | nil => simp
  | cons c marker ih =>
    cases spots with
    | nil => simp [standsAt] at h
    | cons s spots =>
      simp only [standsAt, Bool.and_eq_true] at h
      simpa using ih h.2

theorem closing?_length {marker : Text} {n m : Nat} {spots : List Spot}
    (h : closing? marker n spots = some m) : m + marker.length ≤ n + spots.length := by
  induction spots generalizing n with
  | nil => simp [closing?] at h
  | cons s spots ih =>
    simp only [closing?] at h
    split at h
    · rename_i hs
      split at h
      · simp at h
      · obtain rfl : n = m := by simpa using h
        have := standsAt_length hs
        omega
    · split at h
      · simp at h
      · have := ih h
        simp only [List.length_cons]
        omega

end Delimiter

namespace Pattern

theorem isProper_finder_regex {source : Text} {program : Regex} {groups : Nat}
    (hp : program.isPlain) (hs : program.isSolid) : (regex source program groups).finder.IsProper := by
  intro b t n v h
  obtain ⟨w, hw, rfl, -⟩ := Regex.exists_way_of_find hp h
  have ht := Regex.taken_append_left_of_mem_ways hw
  refine ⟨List.length_pos_iff.2 (Regex.taken_ne_nil_of_mem_ways hs hw), ?_⟩
  rw [← ht, List.length_append]
  omega

theorem isProper_finder_delimiter (d : Delimiter) : (delimiter d).finder.IsProper := by
  intro b t n v h
  simp only [finder, Delimiter.find, Option.bind_eq_bind, Option.bind_eq_some_iff] at h
  obtain ⟨marker, hmarker, h⟩ := h
  have hmem : marker ∈ d.markers := List.mem_of_find?_eq_some hmarker
  have hstands := Delimiter.standsAt_length (List.find?_some (p := fun m => Delimiter.standsAt m _) hmarker)
  split at h
  · simp at h
  · rw [Option.bind_eq_some_iff] at h
    obtain ⟨m, hm, h⟩ := h
    obtain ⟨rfl, -⟩ := Prod.mk.inj (Option.some.inj h)
    have hclose := Delimiter.closing?_length hm
    have hpos := List.length_pos_iff.2 (d.ne_nil_of_mem marker hmem)
    have hlen : (Spot.ofText t).length = t.length := by
      rw [← List.length_map (f := Spot.char), Spot.map_char_ofText]
    simp only [Cursor.rest_of, List.length_drop] at hclose hstands
    omega

end Pattern

/-! ## Replacing the matches -/

/-- What a piece becomes if `ρ` gives the replacements. -/
def Piece.image (ρ : Match → Text) : Piece Char (List (Option Text)) → Text
  | .kept c => [c]
  | .found taken groups => ρ ⟨taken, groups⟩

namespace Pattern

/-- Replace the matches in a text that stands behind the character `b`. -/
def rewriteFrom (p : Pattern) (ρ : Match → Text) (b : Option Char) (t : Text) : Text :=
  (piecesFrom p.finder b t).flatMap (Piece.image ρ)

variable {p : Pattern} (hp : p.finder.IsProper) (ρ : Match → Text)

include hp

@[simp] theorem rewriteFrom_nil (b : Option Char) : p.rewriteFrom ρ b [] = [] := by
  rw [rewriteFrom, hp.piecesFrom_nil]
  rfl

/-- A character that begins no match stays. -/
theorem rewriteFrom_cons {b : Option Char} {c : Char} {t : Text}
    (h : p.finder (.of b (c :: t)) = none) :
    p.rewriteFrom ρ b (c :: t) = c :: p.rewriteFrom ρ (some c) t := by
  rw [rewriteFrom, hp.piecesFrom_cons h]
  rfl

/-- A match is replaced. -/
theorem rewriteFrom_append {b : Option Char} {s t : Text} {v : List (Option Text)}
    (h : p.finder (.of b (s ++ t)) = some (s.length, v)) :
    p.rewriteFrom ρ b (s ++ t) = ρ ⟨s, v⟩ ++ p.rewriteFrom ρ (lastOr b s) t := by
  rw [rewriteFrom, hp.piecesFrom_append h]
  rfl

omit ρ in
/-- Nothing is found if it cannot be what the text begins with. -/
theorem finder_eq_none {b : Option Char} {t : Text}
    (h : ∀ s l v, t = s ++ l → p.finder (.of b (s ++ l)) ≠ some (s.length, v)) :
    p.finder (.of b t) = none := by
  cases hf : p.finder (.of b t) with
  | none => rfl
  | some r =>
    obtain ⟨n, v⟩ := r
    have hle : n ≤ t.length := (hp b t n v hf).2
    have hsplit : t.take n ++ t.drop n = t := List.take_append_drop n t
    refine absurd ?_ (h (t.take n) (t.drop n) v hsplit.symm)
    rw [hsplit, List.length_take_of_le hle, hf]

/-- What holds of equal texts, and goes on holding when a match with its replacement is put in front of
the rest, holds of a text and what becomes of it. In front of the match stands what has been passed. -/
theorem rewriteFrom_induction {P : Text → Text → Prop} (same : ∀ t, P t t)
    (found : ∀ b l s r r' v, p.finder (.of b (s ++ r)) = some (s.length, v) → P r r' →
      P (l ++ s ++ r) (l ++ ρ ⟨s, v⟩ ++ r'))
    (t : Text) : P t (p.rewriteFrom ρ none t) := by
  have hbehind (b : Option Char) (t : Text) : ∀ l, P (l ++ t) (l ++ p.rewriteFrom ρ b t) := by
    refine hp.induction (motive := fun b t => ∀ l, P (l ++ t) (l ++ p.rewriteFrom ρ b t))
      ?_ ?_ ?_ b t
    · intro b l
      rw [rewriteFrom_nil hp]
      exact same _
    · intro b c t hf ih l
      rw [rewriteFrom_cons hp ρ hf, List.append_cons l, List.append_cons l c (rewriteFrom ..)]
      exact ih (l ++ [c])
    · intro b s t v _ hf ih l
      rw [rewriteFrom_append hp ρ hf, ← List.append_assoc, ← List.append_assoc]
      exact found b l s t _ v hf (ih [])
  exact hbehind none t []

/-- The characters of a rewritten text are its own and those of the replacements. -/
theorem mem_rewriteFrom {b : Option Char} {t : Text} {c : Char} (h : c ∈ p.rewriteFrom ρ b t) :
    c ∈ t ∨ ∃ m, c ∈ ρ m := by
  revert h
  refine hp.induction (motive := fun b t => c ∈ p.rewriteFrom ρ b t → c ∈ t ∨ ∃ m, c ∈ ρ m)
    ?_ ?_ ?_ b t
  · intro b h
    rw [rewriteFrom_nil hp] at h
    exact .inl h
  · intro b d t hf ih h
    rw [rewriteFrom_cons hp ρ hf] at h
    rcases List.mem_cons.1 h with rfl | h
    · exact .inl (by simp)
    · exact (ih h).imp_left (List.mem_cons_of_mem d)
  · intro b s t v _ hf ih h
    rw [rewriteFrom_append hp ρ hf] at h
    rcases List.mem_append.1 h with h | h
    · exact .inr ⟨_, h⟩
    · exact (ih h).imp_left (List.mem_append_right s)

/-- If a pattern does not look back, what stands in front of a text makes no difference. -/
theorem rewriteFrom_behind (h : ∀ b t, p.finder (.of b t) = p.finder (.of none t))
    (b b' : Option Char) (t : Text) : p.rewriteFrom ρ b t = p.rewriteFrom ρ b' t := by
  revert b'
  refine hp.induction (motive := fun b t => ∀ b', p.rewriteFrom ρ b t = p.rewriteFrom ρ b' t)
    ?_ ?_ ?_ b t
  · intro b b'
    rw [rewriteFrom_nil hp, rewriteFrom_nil hp]
  · intro b c t hf _ b'
    rw [rewriteFrom_cons hp ρ hf, rewriteFrom_cons hp ρ (by rwa [h, ← h b])]
  · intro b s t v _ hf ih b'
    rw [rewriteFrom_append hp ρ hf, rewriteFrom_append hp ρ (by rwa [h, ← h b]), ih]

/-- A stretch in which no match begins stays. -/
theorem rewriteFrom_stretch {b : Option Char} (u : Text) {t : Text}
    (h : ∀ v c w, u = v ++ c :: w → p.finder (.of (lastOr b v) (c :: w ++ t)) = none) :
    p.rewriteFrom ρ b (u ++ t) = u ++ p.rewriteFrom ρ (lastOr b u) t := by
  induction u generalizing b with
  | nil => rfl
  | cons a u ih =>
    have ha : p.finder (.of b (a :: (u ++ t))) = none := h [] a u rfl
    rw [List.cons_append, rewriteFrom_cons hp ρ ha, ih, lastOr_cons]
    · rfl
    · intro v c w hu
      have := h (a :: v) c w (by rw [hu]; rfl)
      rwa [lastOr_cons] at this

/-- A text without matches stays. -/
theorem rewriteFrom_eq_self {b : Option Char} {t : Text}
    (h : ∀ v c w, t = v ++ c :: w → p.finder (.of (lastOr b v) (c :: w)) = none) :
    p.rewriteFrom ρ b t = t := by
  have := rewriteFrom_stretch hp ρ (b := b) (t := []) t (by simpa using h)
  rw [List.append_nil, rewriteFrom_nil hp, List.append_nil] at this
  exact this

end Pattern

/-! ## Rewriting part by part -/

namespace Pattern

/-- In front of `r`, the part `t` of a text turns into `t'`. -/
def Turns (p : Pattern) (ρ : Match → Text) (r t t' : Text) : Prop :=
  ∀ b, p.rewriteFrom ρ b (t ++ r) = t' ++ p.rewriteFrom ρ (lastOr b t) r

/-- A pattern matches only where one of some words stands. -/
def OpensWith (p : Pattern) (ms : List Text) : Prop :=
  ∀ b t, (∀ m ∈ ms, ¬ m <+: t) → p.finder (.of b t) = none

namespace Turns

variable {p : Pattern} {ρ : Match → Text} {r t t' u u' : Text}

theorem nil (p : Pattern) (ρ : Match → Text) (r : Text) : p.Turns ρ r [] [] :=
  fun _ => rfl

theorem append (ht : p.Turns ρ (u ++ r) t t') (hu : p.Turns ρ r u u') :
    p.Turns ρ r (t ++ u) (t' ++ u') := by
  intro b
  rw [List.append_assoc, ht, hu, lastOr_append, List.append_assoc]

/-- The parts of a text turn into others one by one. -/
theorem flatMap {α : Type} {f g : α → Text} {l : List α}
    (h : ∀ x a y, l = x ++ a :: y → p.Turns ρ (y.flatMap f ++ r) (f a) (g a)) :
    p.Turns ρ r (l.flatMap f) (l.flatMap g) := by
  induction l with
  | nil => exact nil p ρ r
  | cons a l ih =>
    rw [List.flatMap_cons, List.flatMap_cons]
    refine (h [] a l rfl).append (ih fun x a' y hxy => h (a :: x) a' y ?_)
    rw [hxy, List.cons_append]

variable (hp : p.finder.IsProper)

include hp

theorem of_found {v : List (Option Text)} (ρ : Match → Text)
    (h : ∀ b, p.finder (.of b (t ++ r)) = some (t.length, v)) : p.Turns ρ r t (ρ ⟨t, v⟩) :=
  fun b => rewriteFrom_append hp ρ (h b)

theorem of_none (ρ : Match → Text)
    (h : ∀ b x c y, t = x ++ c :: y → p.finder (.of b (c :: y ++ r)) = none) : p.Turns ρ r t t :=
  fun _ => rewriteFrom_stretch hp ρ t fun x c y hxy => h _ x c y hxy

/-- A part that is free of the words a pattern needs stays. -/
theorem of_isFree {ms : List Text} (hms : p.OpensWith ms) (ρ : Match → Text) (r : Text)
    (h : ∀ m ∈ ms, Text.IsFree m t) : p.Turns ρ r t t :=
  of_none hp ρ fun b _ _ _ hxy => hms b _ fun m hm => (h m hm).not_isPrefix hxy r

/-- The same for a pattern that needs one word. -/
theorem of_isFree_word {w : Text} (hw : p.OpensWith [w]) (ρ : Match → Text) (r : Text)
    (h : Text.IsFree w t) : p.Turns ρ r t t :=
  of_isFree hp hw ρ r (List.forall_mem_singleton.2 h)

theorem of_notMem_word {c : Char} {w : Text} (hw : p.OpensWith [c :: w]) (ρ : Match → Text)
    (r : Text) (h : c ∉ t) : p.Turns ρ r t t :=
  of_isFree_word hp hw ρ r (Text.isFree_of_notMem w h)

/-- A part stays if it does not have the first characters of the words. -/
theorem of_notMem {ms : List Text} (hms : p.OpensWith ms) (ρ : Match → Text) (r : Text)
    (h : ∀ m ∈ ms, ∃ c w, m = c :: w ∧ c ∉ t) : p.Turns ρ r t t :=
  of_isFree hp hms ρ r fun m hm => by
    obtain ⟨c, w, rfl, hc⟩ := h m hm
    exact Text.isFree_of_notMem w hc

theorem rewriteFrom_eq (h : p.Turns ρ [] t t') (b : Option Char) : p.rewriteFrom ρ b t = t' := by
  have hb := h b
  rwa [List.append_nil, rewriteFrom_nil hp, List.append_nil] at hb

end Turns

/-- A text stays if each of the words that a pattern needs has a character that it does not have. -/
theorem rewriteFrom_of_notMem {p : Pattern} (hp : p.finder.IsProper) {ms : List Text}
    (hms : p.OpensWith ms) (ρ : Match → Text) (b : Option Char) {t : Text}
    (h : ∀ m ∈ ms, ∃ c ∈ m, c ∉ t) : p.rewriteFrom ρ b t = t := by
  refine rewriteFrom_eq_self hp ρ fun x c y hxy => hms _ _ fun m hm hpre => ?_
  obtain ⟨d, hd, hnot⟩ := h m hm
  exact hnot (hxy ▸ List.mem_append_right x (hpre.subset hd))

end Pattern

/-! ## Rules -/

namespace Context

/-- A context without its log, of which no rule takes notice. -/
def quiet (cx : Context) : Context :=
  { cx with log := #[] }

@[simp] theorem quiet_note (cx : Context) (e : Event) : (cx.note e).quiet = cx.quiet := rfl

@[simp] theorem options_quiet (cx : Context) : cx.quiet.options = cx.options := rfl

@[simp] theorem vault_quiet (cx : Context) : cx.quiet.vault = cx.vault := rfl

@[simp] theorem warnings_quiet (cx : Context) : cx.quiet.warnings = cx.warnings := rfl

end Context

namespace Rule

/-- A rule whose replacements are given by the match and the options, and which leaves the context
as it is. -/
def IsPure (r : Rule) (ρ : Options → Match → Text) : Prop :=
  ∀ m cx, r.action.replacement m cx = (ρ cx.options m, cx)

variable {r : Rule} {ρ : Options → Match → Text}

/-- The replacements of an action that leaves a context as it is stand in the places of the
matches. -/
theorem rewriteFrom_of_forall {a : Action} {ρ : Match → Text} {cx : Context}
    {ps : List (Piece Char (List (Option Text)))}
    (h : ∀ taken groups, Piece.found taken groups ∈ ps →
      a.replacement ⟨taken, groups⟩ cx = (ρ ⟨taken, groups⟩, cx)) :
    rewriteFrom a [] ps cx = (ps.flatMap (Piece.image ρ), cx) := by
  induction ps with
  | nil => rfl
  | cons p ps ih =>
    have ih' := ih fun taken groups hm => h taken groups (by simp [hm])
    cases p with
    | kept c =>
      rw [rewriteFrom, Rule.rewriteFrom_eq, ih']
      rfl
    | found taken groups =>
      simp only [rewriteFrom, h taken groups (by simp)]
      rw [Rule.rewriteFrom_eq, ih']
      simp [Piece.image]

/-- Pieces without a match are the text. -/
theorem flatMap_image_of_countP_eq_zero {ps : List (Piece Char (List (Option Text)))}
    (h : ps.countP Piece.isFound = 0) (ρ : Match → Text) :
    ps.flatMap (Piece.image ρ) = ps.flatMap Piece.source := by
  induction ps with
  | nil => rfl
  | cons p ps ih =>
    cases p with
    | kept c =>
      simp only [List.flatMap_cons, ih (by simpa [Piece.isFound] using h)]
      rfl
    | found taken groups => simp [Piece.isFound] at h

/-- A rule whose actions on the matches of a text leave the context as it is rewrites the text and
changes nothing but the log. -/
theorem apply_eq_of_forall {t : Text} {cx : Context} {ρ : Match → Text}
    (h : ∀ taken groups, Piece.found taken groups ∈ r.pattern.pieces t →
      ∀ cx' : Context, cx'.quiet = cx.quiet →
        r.action.replacement ⟨taken, groups⟩ cx' = (ρ ⟨taken, groups⟩, cx')) :
    (r.apply t cx).1 = r.pattern.rewriteFrom ρ none t ∧ (r.apply t cx).2.quiet = cx.quiet := by
  rw [Pattern.rewriteFrom, ← Pattern.pieces_eq_piecesFrom, apply, rewrite?]
  split
  · rename_i hcount
    rw [flatMap_image_of_countP_eq_zero hcount, Pattern.flatMap_source_pieces]
    exact ⟨rfl, rfl⟩
  · rw [rewriteFrom_of_forall fun taken groups hm => h taken groups hm _ (Context.quiet_note cx _)]
    exact ⟨rfl, rfl⟩

/-- A rule with pure replacements rewrites the text and leaves all but the log as it is. -/
theorem IsPure.apply_eq (h : r.IsPure ρ) (t : Text) (cx : Context) :
    (r.apply t cx).1 = r.pattern.rewriteFrom (ρ cx.options) none t ∧
      (r.apply t cx).2.quiet = cx.quiet := by
  refine apply_eq_of_forall fun taken groups _ cx' hcx => ?_
  have hoptions : cx'.options = cx.options := by
    rw [← Context.options_quiet, hcx, Context.options_quiet]
  rw [h, hoptions]

end Rule

end Markdown
