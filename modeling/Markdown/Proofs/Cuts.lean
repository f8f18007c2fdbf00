import Markdown.Proofs.Rewriting
import Markdown.Proofs.Text.Pieces
import Markdown.Rule.Bytes

/-!
# A text cut at its matches

Matches that follow each other in a text leave gaps around them (`IsCut`). A rule gives the text with
the same gaps and with other texts in the place of the matches (`Rule.apply_eq_interleave`); what
these texts are is settled by the matches alone, from left to right (`Replacer.replacements`).
-/

namespace Markdown

open Text

/-! ## Gaps -/

/-- Texts with other texts in the spaces between them. -/
def interleave : (gaps ws : List Text) → Text
  | [], _ => []
  | gap :: gaps, [] => gap ++ interleave gaps []
  | gap :: gaps, w :: ws => gap ++ w ++ interleave gaps ws

/-- A text that begins at the offset `n` is cut at some matches, given with their offsets, which
follow each other in it and leave some gaps. -/
inductive IsCut : (n : Nat) → (t : Text) → (gaps : List Text) → List (Nat × Match) → Prop where
  | uncut (n : Nat) (t : Text) : IsCut n t [t] []
  | found {n : Nat} (gap : Text) (m : Match) {t : Text} {gaps : List Text} {ms : List (Nat × Match)} :
      IsCut (n + byteSize gap + byteSize m.text) t gaps ms →
      IsCut n (gap ++ m.text ++ t) (gap :: gaps) ((n + byteSize gap, m) :: ms)

namespace IsCut

variable {n : Nat} {t : Text} {gaps : List Text} {ms : List (Nat × Match)}

/-- With the matches in their places, the gaps make up the text. -/
theorem interleave_eq (h : IsCut n t gaps ms) : interleave gaps (ms.map (·.2.text)) = t := by
  induction h with
  | uncut n t => simp [interleave]
  | found gap m _ ih => rw [List.map_cons, interleave, ih]

theorem length_gaps (h : IsCut n t gaps ms) : gaps.length = ms.length + 1 := by
  induction h with
  | uncut n t => rfl
  | found gap m _ ih => rw [List.length_cons, ih, List.length_cons]

/-- A character in front of the text belongs to the first gap. -/
theorem cons (c : Char) (h : IsCut (n + c.utf8Size) t gaps ms) :
    IsCut n (c :: t) (gaps.modifyHead (c :: ·)) ms := by
  cases h with
  | uncut _ t => exact .uncut n (c :: t)
  | found gap m h =>
    have hoffset : n + c.utf8Size + byteSize gap = n + byteSize (c :: gap) := by
      rw [byteSize_cons, Nat.add_assoc]
    rw [hoffset] at h ⊢
    exact .found (c :: gap) m h

end IsCut

/-- The gaps between the matches of some pieces, the ones at both ends included. -/
def gapsOf : List (Piece Char (List (Option Text))) → List Text
  | [] => [[]]
  | .kept c :: ps => (gapsOf ps).modifyHead (c :: ·)
  | .found .. :: ps => [] :: gapsOf ps

/-- The matches of some pieces, the first of which begins at the offset `n`. -/
def matchesFrom (n : Nat) (ps : List (Piece Char (List (Option Text)))) : List (Nat × Match) :=
  (offsetsFrom n [] ps).filterMap fun (offset, piece) => piece.match?.map (offset, ·)

section Pieces

variable (n : Nat) (c : Char) (taken : Text) (groups : List (Option Text))
  (ps : List (Piece Char (List (Option Text))))

theorem matchesFrom_kept : matchesFrom n (.kept c :: ps) = matchesFrom (n + c.utf8Size) ps := by
  have hsize : byteSize (Piece.kept c : Piece Char (List (Option Text))).source = c.utf8Size := by
    simp [Piece.source]
  rw [matchesFrom, offsetsFrom_cons, List.filterMap_cons_none rfl, hsize, matchesFrom]

theorem matchesFrom_found : matchesFrom n (.found taken groups :: ps) =
    (n, ⟨taken, groups⟩) :: matchesFrom (n + byteSize taken) ps := by
  rw [matchesFrom, offsetsFrom_cons, List.filterMap_cons]
  rfl

theorem length_matchesFrom : (matchesFrom n ps).length = ps.countP Piece.isFound := by
  induction ps generalizing n with
  | nil => rfl
  | cons p ps ih =>
    cases p with
    | kept c => rw [matchesFrom_kept, ih, List.countP_cons_of_neg (by simp [Piece.isFound])]
    | found taken groups =>
      rw [matchesFrom_found, List.length_cons, ih, List.countP_cons_of_pos rfl]

theorem found_mem_of_mem_matchesFrom {m : Nat × Match} (h : m ∈ matchesFrom n ps) :
    Piece.found m.2.text m.2.groups ∈ ps := by
  induction ps generalizing n with
  | nil => simp [matchesFrom, offsetsFrom] at h
  | cons p ps ih =>
    cases p with
    | kept c =>
      rw [matchesFrom_kept] at h
      exact List.mem_cons_of_mem _ (ih _ h)
    | found taken groups =>
      rw [matchesFrom_found, List.mem_cons] at h
      rcases h with rfl | h
      · exact List.mem_cons_self
      · exact List.mem_cons_of_mem _ (ih _ h)

theorem exists_gapsOf_eq_cons : ∃ gap gaps, gapsOf ps = gap :: gaps := by
  induction ps with
  | nil => exact ⟨[], [], rfl⟩
  | cons p ps ih =>
    cases p with
    | kept c =>
      obtain ⟨gap, gaps, h⟩ := ih
      exact ⟨c :: gap, gaps, by rw [gapsOf, h]; rfl⟩
    | found taken groups => exact ⟨[], gapsOf ps, rfl⟩

/-- A character in front of the first gap stands in front of the whole. -/
theorem interleave_gapsOf_kept (ws : List Text) :
    interleave (gapsOf (.kept c :: ps)) ws = c :: interleave (gapsOf ps) ws := by
  obtain ⟨gap, gaps, h⟩ := exists_gapsOf_eq_cons ps
  rw [gapsOf, h, List.modifyHead_cons]
  cases ws with
  | nil => rfl
  | cons w ws => simp [interleave]

/-- Pieces are a text that is cut at their matches. -/
theorem isCut_gapsOf : IsCut n (ps.flatMap Piece.source) (gapsOf ps) (matchesFrom n ps) := by
  induction ps generalizing n with
  | nil => exact .uncut n []
  | cons p ps ih =>
    cases p with
    | kept c =>
      rw [matchesFrom_kept]
      exact (ih _).cons c
    | found taken groups =>
      rw [matchesFrom_found]
      exact .found [] ⟨taken, groups⟩ (ih _)

/-- Pieces with other texts in the place of their matches. -/
theorem flatMap_image_eq_interleave (ρ : Match → Text) :
    ps.flatMap (Piece.image ρ) =
      interleave (gapsOf ps) ((matchesFrom n ps).map fun m => ρ m.2) := by
  induction ps generalizing n with
  | nil => rfl
  | cons p ps ih =>
    cases p with
    | kept c =>
      rw [List.flatMap_cons, ih (n + c.utf8Size), interleave_gapsOf_kept, matchesFrom_kept]
      rfl
    | found taken groups =>
      rw [List.flatMap_cons, ih (n + byteSize taken), matchesFrom_found]
      rfl

/-- What is said about some of the matches of some pieces. -/
theorem filterMap_eq_filterMap_matchesFrom {α : Type} (f : Match → Option α) :
    (ps.filterMap fun
      | .kept _ => none
      | .found taken groups => f ⟨taken, groups⟩) = (matchesFrom n ps).filterMap fun m => f m.2 := by
  induction ps generalizing n with
  | nil => rfl
  | cons p ps ih =>
    cases p with
    | kept c => rw [List.filterMap_cons_none rfl, ih (n + c.utf8Size), matchesFrom_kept]
    | found taken groups =>
      rw [matchesFrom_found, List.filterMap_cons, List.filterMap_cons, ih (n + byteSize taken)]

end Pieces

/-- A text is cut at the matches of a pattern. -/
theorem Pattern.isCut (p : Pattern) (t : Text) : IsCut 0 t (gapsOf (p.pieces t)) (p.matches t) := by
  have h := isCut_gapsOf 0 (p.pieces t)
  rwa [flatMap_source_pieces] at h

/-! ## Replacements -/

/-- What takes the place of some matches, from the first to the last, each in the context that the one
before has left, and the context at the end. -/
def Replacer.replacements (f : Replacer) : List (Nat × Match) → Context → List Text × Context
  | [], cx => ([], cx)
  | m :: ms, cx =>
    let (new, cx) := f m cx
    let (news, cx) := replacements f ms cx
    (new :: news, cx)

/-- The context in which the matches of a pattern are replaced: the log tells of them, if there are
any. -/
def Pattern.announce (p : Pattern) (ms : List (Nat × Match)) (cx : Context) : Context :=
  if ms.isEmpty then cx else cx.note (.rewrote p.key ms.length)

theorem Context.vault_announce (p : Pattern) (ms : List (Nat × Match)) (cx : Context) :
    (p.announce ms cx).vault = cx.vault := by
  rw [Pattern.announce]
  split <;> rfl

theorem Context.warnings_announce (p : Pattern) (ms : List (Nat × Match)) (cx : Context) :
    (p.announce ms cx).warnings = cx.warnings := by
  rw [Pattern.announce]
  split <;> rfl

namespace Rule

theorem rewriteFrom_eq_interleave (a : Action) (n : Nat)
    (ps : List (Piece Char (List (Option Text)))) (cx : Context) :
    rewriteFrom a [] ps cx =
      (interleave (gapsOf ps) (a.replacer.replacements (matchesFrom n ps) cx).1,
        (a.replacer.replacements (matchesFrom n ps) cx).2) := by
  induction ps generalizing n cx with
  | nil => rfl
  | cons p ps ih =>
    cases p with
    | kept c =>
      rw [rewriteFrom, rewriteFrom_eq, ih (n + c.utf8Size), interleave_gapsOf_kept,
        matchesFrom_kept]
      rfl
    | found taken groups =>
      rw [rewriteFrom, matchesFrom_found]
      simp only
      rw [rewriteFrom_eq, ih (n + byteSize taken)]
      simp [Replacer.replacements, Action.replacer, gapsOf, interleave]

/-- A rule keeps the gaps between its matches and replaces each match in its turn. -/
theorem apply_eq_interleave (r : Rule) (t : Text) (cx : Context) :
    r.apply t cx =
      (interleave (gapsOf (r.pattern.pieces t)) (r.action.replacer.replacements (r.pattern.matches t)
          (r.pattern.announce (r.pattern.matches t) cx)).1,
        (r.action.replacer.replacements (r.pattern.matches t)
          (r.pattern.announce (r.pattern.matches t) cx)).2) := by
  have hcount : (r.pattern.pieces t).countP Piece.isFound = (r.pattern.matches t).length :=
    (length_matchesFrom 0 _).symm
  rw [apply, rewrite?, hcount]
  cases hms : r.pattern.matches t with
  | nil =>
    have hcut := (r.pattern.isCut t).interleave_eq
    rw [hms] at hcut
    simpa [Replacer.replacements, Pattern.announce] using hcut.symm
  | cons m ms =>
    have hrewrite := rewriteFrom_eq_interleave r.action 0 (r.pattern.pieces t)
      (cx.note (.rewrote r.key (m :: ms).length))
    rw [show matchesFrom 0 (r.pattern.pieces t) = m :: ms from hms] at hrewrite
    rw [List.length_cons, if_neg (Nat.succ_ne_zero _), Option.getD_some, ← List.length_cons, hrewrite]
    rfl

end Rule

end Markdown
