import Markdown.Text.Scan

/-!
# The pieces of a scanned list

A finder whose matches are not empty and lie within the list cuts it step by step: an element that
begins no match is kept (`piecesFrom_cons`), and the scan goes on behind a match
(`piecesFrom_append`). `Finder.IsProper.induction` is the induction along these steps.
-/

namespace Markdown

universe u v

variable {α : Type u} {β : Type v}

/-- The element before the position behind a list, if `b` is the one before the list. -/
def lastOr (b : Option α) (l : List α) : Option α :=
  l.getLast?.or b

@[simp] theorem lastOr_nil (b : Option α) : lastOr b [] = b := rfl

@[simp] theorem lastOr_cons (b : Option α) (a : α) (l : List α) :
    lastOr b (a :: l) = lastOr (some a) l := by
  cases l with
  | nil => rfl
  | cons c l => simp [lastOr, List.getLast?_cons]

@[simp] theorem lastOr_append (b : Option α) (l m : List α) :
    lastOr b (l ++ m) = lastOr (lastOr b l) m := by
  simp [lastOr, List.getLast?_append, Option.or_assoc]

/-- The matches of a finder are not empty and lie within the list. -/
def Finder.IsProper (find : Finder α β) : Prop :=
  ∀ b l n value, find (.of b l) = some (n, value) → 0 < n ∧ n ≤ l.length

/-- The pieces of a list that stands behind the element `b`. -/
def piecesFrom (find : Finder α β) (b : Option α) (l : List α) : List (Piece α β) :=
  scanFrom find 0 false [] (.of b l)

theorem scan_eq_piecesFrom (find : Finder α β) (l : List α) :
    scan find l = piecesFrom find none l := rfl

variable {find : Finder α β}

theorem Finder.IsProper.accept?_eq (h : find.IsProper) (touching : Bool) (b : Option α)
    (l : List α) : find.accept? touching (.of b l) = find (.of b l) := by
  simp only [Finder.accept?]
  split
  · rename_i value hf
    exact absurd (h b l 0 value hf).1 (by omega)
  · rfl

/-- The elements that belong to the match found last are passed over. -/
theorem scanFrom_skip (find : Finder α β) (touching : Bool) (b : Option α) (s l : List α) :
    scanFrom find s.length touching [] (.of b (s ++ l)) =
      scanFrom find 0 touching [] (.of (lastOr b s) l) := by
  induction s generalizing b with
  | nil => rfl
  | cons a s ih =>
    rw [List.length_cons, List.cons_append, Cursor.of, scanFrom, Cursor.behind_length, ih,
      lastOr_cons]

/-- Whether the match before was empty makes no difference to a proper finder. -/
theorem Finder.IsProper.scanFrom_touching (h : find.IsProper) (b : Option α) (l : List α) :
    scanFrom find 0 true [] (.of b l) = piecesFrom find b l := by
  cases l with
  | nil =>
    rw [piecesFrom, Cursor.of, scanFrom, scanFrom, ← Cursor.of, h.accept?_eq, h.accept?_eq]
  | cons a l =>
    rw [piecesFrom, Cursor.of, scanFrom, scanFrom, ← Cursor.of, h.accept?_eq, h.accept?_eq]

theorem Finder.IsProper.piecesFrom_nil (h : find.IsProper) (b : Option α) :
    piecesFrom find b [] = [] := by
  rw [piecesFrom, Cursor.of, scanFrom, ← Cursor.of, h.accept?_eq]
  split
  · rename_i value hf
    exact absurd (h b [] 0 value hf).1 (by omega)
  · rfl

/-- An element that begins no match is kept. -/
theorem Finder.IsProper.piecesFrom_cons (h : find.IsProper) {b : Option α} {a : α} {l : List α}
    (hf : find (.of b (a :: l)) = none) :
    piecesFrom find b (a :: l) = .kept a :: piecesFrom find (some a) l := by
  rw [piecesFrom, Cursor.of, scanFrom, ← Cursor.of, h.accept?_eq, hf]
  simp only
  rw [Cursor.behind_length, scanFrom_eq_append]
  rfl

/-- A match is a piece, and the scan goes on behind it. -/
theorem Finder.IsProper.piecesFrom_append (h : find.IsProper) {b : Option α} {s l : List α}
    {value : β} (hf : find (.of b (s ++ l)) = some (s.length, value)) :
    piecesFrom find b (s ++ l) = .found s value :: piecesFrom find (lastOr b s) l := by
  cases s with
  | nil => exact absurd (h b l 0 value hf).1 (by omega)
  | cons a s =>
    rw [List.cons_append, List.length_cons] at hf
    rw [piecesFrom, List.cons_append, Cursor.of, scanFrom, ← Cursor.of, h.accept?_eq, hf]
    simp only [Cursor.behind_length]
    rw [scanFrom_eq_append, scanFrom_skip, h.scanFrom_touching]
    simp

/-- Along a scan, a list ends, begins with an element that begins no match, or begins with a
match. -/
theorem Finder.IsProper.induction (h : find.IsProper) {motive : Option α → List α → Prop}
    (nil : ∀ b, motive b [])
    (kept : ∀ b a l, find (.of b (a :: l)) = none → motive (some a) l → motive b (a :: l))
    (found : ∀ b s l value, s ≠ [] → find (.of b (s ++ l)) = some (s.length, value) →
      motive (lastOr b s) l → motive b (s ++ l))
    (b : Option α) (l : List α) : motive b l := by
  induction hn : l.length using Nat.strongRecOn generalizing b l with
  | ind n ih =>
    cases l with
    | nil => exact nil b
    | cons a l =>
      cases hf : find (.of b (a :: l)) with
      | none =>
        refine kept b a l hf (ih l.length ?_ _ l rfl)
        simp only [List.length_cons] at hn
        omega
      | some r =>
        obtain ⟨m, value⟩ := r
        obtain ⟨hpos, hle⟩ := h b _ m value hf
        have hsplit : (a :: l).take m ++ (a :: l).drop m = a :: l := List.take_append_drop m _
        have hlen : ((a :: l).take m).length = m := List.length_take_of_le hle
        rw [← hsplit]
        refine found b _ _ value ?_ (by rw [hsplit, hlen, hf]) (ih _ ?_ _ _ rfl)
        · intro hnil
          rw [hnil, List.length_nil] at hlen
          omega
        · rw [List.length_drop]
          omega

/-- A match among the pieces has been found at a position of the list. -/
theorem Finder.IsProper.of_found_mem_piecesFrom (h : find.IsProper) {b : Option α} {l s : List α}
    {value : β} (hm : Piece.found s value ∈ piecesFrom find b l) :
    ∃ b' r, s ++ r <:+ l ∧ find (.of b' (s ++ r)) = some (s.length, value) := by
  revert hm
  refine h.induction (motive := fun b l => Piece.found s value ∈ piecesFrom find b l →
    ∃ b' r, s ++ r <:+ l ∧ find (.of b' (s ++ r)) = some (s.length, value)) ?_ ?_ ?_ b l
  · intro b hm
    rw [h.piecesFrom_nil] at hm
    simp at hm
  · intro b a l hf ih hm
    rw [h.piecesFrom_cons hf] at hm
    obtain ⟨b', r, hr, hfind⟩ := ih (by simpa using hm)
    exact ⟨b', r, hr.trans (List.suffix_cons a l), hfind⟩
  · intro b s' l value' _ hf ih hm
    rw [h.piecesFrom_append hf, List.mem_cons] at hm
    rcases hm with heq | hm
    · obtain ⟨rfl, rfl⟩ := Piece.found.inj heq
      exact ⟨b, l, List.suffix_rfl, hf⟩
    · obtain ⟨b', r, hr, hfind⟩ := ih hm
      exact ⟨b', r, hr.trans (List.suffix_append s' l), hfind⟩

theorem offsetsFrom_eq_append (offset : Nat) (acc : List (Nat × Piece Char β))
    (ps : List (Piece Char β)) :
    offsetsFrom offset acc ps = acc.reverse ++ offsetsFrom offset [] ps := by
  induction ps generalizing offset acc with
  | nil => simp [offsetsFrom]
  | cons p ps ih =>
    rw [offsetsFrom, offsetsFrom, ih _ (_ :: acc), ih _ [_]]
    simp

/-- The next piece begins behind a piece. -/
theorem offsetsFrom_cons (offset : Nat) (p : Piece Char β) (ps : List (Piece Char β)) :
    offsetsFrom offset [] (p :: ps) =
      (offset, p) :: offsetsFrom (offset + Text.byteSize p.source) [] ps := by
  rw [offsetsFrom, offsetsFrom_eq_append]
  rfl

end Markdown
