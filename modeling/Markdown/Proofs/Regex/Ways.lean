import Markdown.Proofs.Text.Pieces
import Markdown.Regex.Search

/-!
# The ways to match a regular expression

`Regex.ways` lists, in order of preference, what a pattern without loops and marks can take of a
text. The search finds the first of them (`find_eq_head?_ways`), so that a property of a match is a
property of a list.

1. A continuation that looks at the position and at the texts of the groups only, and leaves the
   marks alone, is tried on the ways one after another (`view_attempt`).
2. The continuation of the search itself accepts every way, so it takes the first.
-/

namespace Markdown.Regex

universe u v

/-- What a pattern can take of a text. -/
structure Way where
  taken : Text
  /-- The text behind what is taken. -/
  left : Text
  /-- The texts of the groups, the latest first. -/
  groups : List (Nat × Text)
deriving DecidableEq

namespace Way

/-- Take what `w` takes behind what `v` takes. -/
def andThen (v w : Way) : Way :=
  ⟨v.taken ++ w.taken, w.left, w.groups ++ v.groups⟩

/-- Record what is taken under a group number. -/
def record (index : Nat) (w : Way) : Way :=
  { w with groups := (index, w.taken) :: w.groups }

/-- The texts of the groups from one to `n`. -/
def groupTexts (w : Way) (n : Nat) : List (Option Text) :=
  (List.range n).map fun i => w.groups.lookup (i + 1)

end Way

/-- The ways to take characters of a set, the shortest first. -/
def runs (s : CharSet) : Text → List Way
  | [] => [⟨[], [], []⟩]
  | a :: t =>
    ⟨[], a :: t, []⟩ :: if s.contains a then (runs s t).map (Way.andThen ⟨[a], t, []⟩) else []

/-- The ways to match a pattern without loops and marks in a text that stands behind the character
`b`, in order of preference. -/
def ways : Regex → (b : Option Char) → Text → List Way
  | empty, _, t => [⟨[], t, []⟩]
  | one _, _, [] => []
  | one s, _, a :: t => if s.contains a then [⟨[a], t, []⟩] else []
  | assert a, b, t => if a.holds b t.head? then [⟨[], t, []⟩] else []
  | seq r s, b, t =>
    (ways r b t).flatMap fun v => (ways s (lastOr b v.taken) v.left).map v.andThen
  | alt r s, b, t => ways r b t ++ ways s b t
  | run greedy s, _, t => if greedy then (runs s t).reverse else runs s t
  | group index r, b, t => (ways r b t).map (Way.record index)
  | loop .., _, _ => []
  | mark _, _, _ => []

/-- Whether a pattern has neither loops nor marks. -/
def isPlain : Regex → Bool
  | seq r s => r.isPlain && s.isPlain
  | alt r s => r.isPlain && s.isPlain
  | group _ r => r.isPlain
  | loop .. => false
  | mark _ => false
  | _ => true

/-! ## A way takes the beginning of the text -/

theorem taken_append_left_of_mem_runs {s : CharSet} {t : Text} {w : Way} (h : w ∈ runs s t) :
    w.taken ++ w.left = t := by
  induction t generalizing w with
  | nil =>
    obtain rfl : w = _ := by simpa [runs] using h
    rfl
  | cons a t ih =>
    rcases List.mem_cons.1 h with rfl | h
    · rfl
    · by_cases hs : s.contains a
      · rw [if_pos hs] at h
        obtain ⟨v, hv, rfl⟩ := List.mem_map.1 h
        simp [Way.andThen, ih hv]
      · rw [if_neg hs] at h
        simp at h

theorem taken_append_left_of_mem_ways {r : Regex} {b : Option Char} {t : Text} {w : Way}
    (h : w ∈ r.ways b t) : w.taken ++ w.left = t := by
  induction r generalizing b t w with
  | empty =>
    obtain rfl : w = _ := by simpa [ways] using h
    rfl
  | one s =>
    cases t with
    | nil => simp [ways] at h
    | cons a t =>
      simp only [ways] at h
      split at h
      · obtain rfl : w = _ := by simpa using h
        rfl
      · simp at h
  | assert a =>
    simp only [ways] at h
    split at h
    · obtain rfl : w = _ := by simpa using h
      rfl
    · simp at h
  | seq r s ihr ihs =>
    simp only [ways, List.mem_flatMap, List.mem_map] at h
    obtain ⟨v, hv, v', hv', rfl⟩ := h
    rw [← ihr hv, ← ihs hv']
    simp [Way.andThen]
  | alt r s ihr ihs =>
    rcases List.mem_append.1 h with h | h
    · exact ihr h
    · exact ihs h
  | run greedy s =>
    simp only [ways] at h
    split at h
    · exact taken_append_left_of_mem_runs (List.mem_reverse.1 h)
    · exact taken_append_left_of_mem_runs h
  | group index r ih =>
    simp only [ways, List.mem_map] at h
    obtain ⟨v, hv, rfl⟩ := h
    exact ih (w := v) hv
  | loop => simp [ways] at h
  | mark => simp [ways] at h

/-! ## The search tries the ways in order -/

variable {β : Type u} {γ : Type v}

/-- The texts of captured parts, by group number. -/
def Captures.texts (caps : Captures) : List (Nat × Text) :=
  caps.map fun (i, c) => (i, c.text)

theorem Captures.lookup_texts (caps : Captures) (i : Nat) :
    caps.texts.lookup i = (caps.lookup i).map Capture.text := by
  induction caps with
  | nil => rfl
  | cons c caps ih =>
    obtain ⟨j, c⟩ := c
    simp only [texts, List.map_cons, List.lookup_cons] at ih ⊢
    cases i == j
    · exact ih
    · rfl

/-- An outcome whose result is seen through `g`. -/
def Outcome.view (g : β → γ) (o : Outcome β) : Outcome γ :=
  (o.1.map g, o.2)

/-- An outcome that is seen to fail has failed, and one that is seen to succeed has succeeded. -/
theorem Outcome.of_view_eq {g : β → γ} {o : Outcome β} {x : Option γ} {passed : Passed}
    (h : o.view g = (x, passed)) :
    (o = (none, passed) ∧ x = none) ∨ ∃ y, o = (some y, passed) ∧ x = some (g y) := by
  obtain ⟨y, passed'⟩ := o
  obtain ⟨rfl, rfl⟩ := Prod.mk.inj h
  cases y with
  | none => exact .inl ⟨rfl, rfl⟩
  | some y => exact .inr ⟨y, rfl, rfl⟩

/-- What an answer says of a position, by the character before it, the text behind it and the texts
of the groups. -/
abbrev Answer (γ : Type v) := Option Char → Text → List (Nat × Text) → Option γ

/-- A continuation that, seen through `g`, gives an answer, and that leaves the marks as they
are. -/
def Answers (g : β → γ) (k : Continuation β) (f : Answer γ) : Prop :=
  ∀ b t caps passed, (k (.of b t) caps passed).view g = (f b t caps.texts, passed)

/-- The first answer on the ways of a list, if they begin behind `b` with the groups `gs`. -/
def firstAnswer (f : Answer γ) (b : Option Char) (gs : List (Nat × Text)) (ws : List Way) :
    Option γ :=
  ws.findSome? fun w => f (lastOr b w.taken) w.left (w.groups ++ gs)

variable {g : β → γ} {k : Continuation β} {f : Answer γ}

/-- Equal answers on the ways of a list make equal first answers. -/
theorem findSome?_congr {l : List Way} {f f' : Way → Option γ} (h : ∀ w ∈ l, f w = f' w) :
    l.findSome? f = l.findSome? f' := by
  induction l with
  | nil => rfl
  | cons w l ih =>
    simp only [List.findSome?_cons, h w (by simp)]
    rw [ih fun v hv => h v (by simp [hv])]

theorem firstAnswer_flatMap (b : Option Char) (gs : List (Nat × Text)) (ws : List Way)
    (next : Way → List Way) :
    firstAnswer f b gs (ws.flatMap next) = ws.findSome? fun w => firstAnswer f b gs (next w) := by
  induction ws with
  | nil => rfl
  | cons w ws ih =>
    simp only [firstAnswer, List.flatMap_cons, List.findSome?_append, List.findSome?_cons] at ih ⊢
    rw [ih]
    cases List.findSome? _ (next w) <;> rfl

theorem firstAnswer_andThen (b : Option Char) (gs : List (Nat × Text)) (v : Way)
    (ws : List Way) :
    firstAnswer f b gs (ws.map v.andThen) =
      firstAnswer f (lastOr b v.taken) (v.groups ++ gs) ws := by
  simp [firstAnswer, List.findSome?_map, Function.comp_def, Way.andThen]

theorem view_nearest (h : Answers g k f) (s : CharSet) (b : Option Char) (t : Text)
    (caps : Captures) (passed : Passed) :
    (nearest s caps k (.of b t) passed).view g = (firstAnswer f b caps.texts (runs s t), passed) := by
  induction t generalizing b with
  | nil =>
    rw [Cursor.of, nearest, ← Cursor.of, h]
    simp [firstAnswer, runs]
  | cons a t ih =>
    rw [Cursor.of, nearest, ← Cursor.of]
    simp only [firstAnswer, runs, List.findSome?_cons, lastOr_nil, List.nil_append]
    rcases Outcome.of_view_eq (h b (a :: t) caps passed) with ⟨ho, hf⟩ | ⟨x, ho, hf⟩
    · rw [ho, hf]
      by_cases hs : s.contains a
      · simp only [if_pos hs, Cursor.behind_length]
        rw [ih, ← firstAnswer, firstAnswer_andThen]
        rfl
      · simp [if_neg hs, Outcome.view]
    · rw [ho, hf]
      rfl

/-- The positions that a run can reach, the farthest first. -/
theorem reach_eq (s : CharSet) (nearer : List (Cursor Char)) (b : Option Char) (t : Text) :
    reach s nearer (.of b t) =
      ((runs s t).map fun w => Cursor.of (lastOr b w.taken) w.left).reverse ++ nearer := by
  induction t generalizing nearer b with
  | nil =>
    rw [Cursor.of, reach]
    rfl
  | cons a t ih =>
    rw [Cursor.of, reach]
    by_cases hs : s.contains a
    · rw [if_pos hs, Cursor.behind_length, ih]
      simp [runs, if_pos hs, Way.andThen, Function.comp_def, Cursor.of]
    · simp [runs, if_neg hs, Cursor.of]

theorem view_firstOf (h : Answers g k f) (b : Option Char) (caps : Captures) (ws : List Way)
    (hws : ∀ w ∈ ws, w.groups = []) (passed : Passed) :
    (firstOf k caps (ws.map fun w => Cursor.of (lastOr b w.taken) w.left) passed).view g =
      (firstAnswer f b caps.texts ws, passed) := by
  induction ws with
  | nil => rfl
  | cons w ws ih =>
    have hw : w.groups = [] := hws w (by simp)
    simp only [List.map_cons, firstOf, firstAnswer, List.findSome?_cons, hw, List.nil_append]
    rcases Outcome.of_view_eq (h (lastOr b w.taken) w.left caps passed) with
      ⟨ho, hf⟩ | ⟨x, ho, hf⟩
    · rw [ho, hf]
      exact ih fun w hw => hws w (by simp [hw])
    · rw [ho, hf]
      rfl

theorem groups_of_mem_runs {s : CharSet} {t : Text} {w : Way} (h : w ∈ runs s t) :
    w.groups = [] := by
  induction t generalizing w with
  | nil =>
    obtain rfl : w = _ := by simpa [runs] using h
    rfl
  | cons a t ih =>
    rcases List.mem_cons.1 h with rfl | h
    · rfl
    · split at h
      · obtain ⟨v, hv, rfl⟩ := List.mem_map.1 h
        simp [Way.andThen, ih hv]
      · simp at h

theorem view_attempt {r : Regex} (hr : r.isPlain) (h : Answers g k f) (b : Option Char)
    (t : Text) (caps : Captures) (passed : Passed) :
    (attempt r (.of b t) caps k passed).view g =
      (firstAnswer f b caps.texts (ways r b t), passed) := by
  induction r generalizing k f b t caps passed with
  | empty => simp [attempt, ways, firstAnswer, h b t caps passed]
  | one s =>
    cases t with
    | nil => simp [attempt, ways, firstAnswer, Outcome.view]
    | cons a t =>
      simp only [attempt, ways, Cursor.next?_of_cons]
      by_cases hs : s.contains a
      · simp [if_pos hs, firstAnswer, h (some a) t caps passed]
      · simp [if_neg hs, firstAnswer, Outcome.view]
  | assert a =>
    simp only [attempt, ways]
    rw [show (Cursor.of b t).before = b from rfl, Cursor.rest_of]
    by_cases ha : a.holds b t.head?
    · simp [if_pos ha, firstAnswer, h b t caps passed]
    · simp [if_neg ha, firstAnswer, Outcome.view]
  | seq r s ihr ihs =>
    simp only [isPlain, Bool.and_eq_true] at hr
    have hk : Answers g (fun d caps passed => attempt s d caps k passed)
        fun b t gs => firstAnswer f b gs (ways s b t) :=
      fun b t caps passed => ihs hr.2 h b t caps passed
    rw [attempt, ihr hr.1 hk, ways, firstAnswer_flatMap]
    simp only [firstAnswer_andThen]
    rfl
  | alt r s ihr ihs =>
    simp only [isPlain, Bool.and_eq_true] at hr
    rw [attempt, ways, firstAnswer, List.findSome?_append, ← firstAnswer, ← firstAnswer]
    rcases Outcome.of_view_eq (ihr hr.1 h b t caps passed) with ⟨ho, hf⟩ | ⟨x, ho, hf⟩
    · rw [ho, hf]
      exact ihs hr.2 h b t caps passed
    · rw [ho, hf]
      rfl
  | run greedy s =>
    rw [attempt, ways]
    cases greedy with
    | false => simp [view_nearest h]
    | true =>
      simp only [if_true]
      rw [reach_eq, List.append_nil, ← List.map_reverse]
      exact view_firstOf h b caps _ (fun w hw => groups_of_mem_runs (List.mem_reverse.1 hw)) passed
  | group index r ih =>
    have hk : Answers g (fun d caps passed => k d ((index, ⟨.of b t, d⟩) :: caps) passed)
        fun d t' gs => f d t' ((index, t.take (t.length - t'.length)) :: gs) := by
      intro d t' caps passed
      exact h d t' _ passed
    rw [attempt, ih hr hk]
    simp only [firstAnswer, ways, List.findSome?_map]
    congr 1
    refine findSome?_congr fun w hw => ?_
    -- the way takes the beginning of `t`, so the captured part is what it takes
    have ht : w.taken ++ w.left = t := taken_append_left_of_mem_ways hw
    simp [Way.record, ← ht]
  | loop => simp [isPlain] at hr
  | mark => simp [isPlain] at hr

/-- The search takes the first way. -/
theorem find_eq_head?_ways {r : Regex} (hr : r.isPlain) (groups : Nat) (b : Option Char)
    (t : Text) :
    r.find groups (.of b t) =
      (r.ways b t).head?.map fun w => (w.taken.length, w.groupTexts groups) := by
  have hk : Answers (fun x : Cursor Char × Captures => (x.1.rest, x.2.texts))
      (fun d caps passed => (some (d, caps), passed)) fun _ left gs => some (left, gs) :=
    fun _ _ _ _ => rfl
  have h := view_attempt hr hk b t [] ∅
  rw [find]
  cases ho : attempt r (.of b t) [] (fun d caps passed => (some (d, caps), passed)) ∅ with
  | mk x passed =>
    rw [ho] at h
    have hx := congrArg Prod.fst h
    cases hw : ways r b t with
    | nil =>
      obtain rfl : x = none := by simpa [Outcome.view, hw, firstAnswer] using hx
      rfl
    | cons w ws =>
      have ht : w.taken ++ w.left = t := taken_append_left_of_mem_ways (hw ▸ List.mem_cons_self)
      simp only [Outcome.view, hw, firstAnswer, List.findSome?_cons, Option.map_eq_some_iff] at hx
      obtain ⟨⟨d, caps⟩, rfl, hd⟩ := hx
      simp only [Captures.texts, List.map_nil, List.append_nil, Prod.mk.injEq] at hd
      have hleft : d.left = w.left.length := d.left_eq.trans (congrArg List.length hd.1)
      have hcaps : caps.texts = w.groups := hd.2
      simp [Way.groupTexts, ← hcaps, Captures.lookup_texts, hleft, ← ht]

end Markdown.Regex
