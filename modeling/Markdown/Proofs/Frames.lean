import Mathlib.Algebra.Order.BigOperators.Group.List
import Mathlib.Algebra.Order.Ring.Nat
import Markdown.Proofs.Reinsertion

/-!
# The frame of a page

What the last rule makes of a document depends on the blocks only where it puts them in: it is a frame
with the numbers of blocks in it, filled with the blocks (`Table.text_apply_reinsertion_eq_fill`).
Trimming stays within the frame, since blocks begin and end with a tag (`Frame.fill_trim`).
-/

namespace Markdown

open Text

/-- The characters of a page and the numbers of the blocks that are to be put in. -/
abbrev Frame := List (Char ⊕ Nat)

namespace Frame

/-- Put the blocks in. -/
def fill (blocks : List Text) (f : Frame) : Text :=
  f.flatMap (Sum.elim (fun c => [c]) fun i => blocks.getD i [])

@[simp] theorem fill_nil (blocks : List Text) : fill blocks [] = [] := rfl

@[simp] theorem fill_inl_cons (blocks : List Text) (c : Char) (f : Frame) :
    fill blocks (.inl c :: f) = c :: fill blocks f := rfl

@[simp] theorem fill_inr_cons (blocks : List Text) (i : Nat) (f : Frame) :
    fill blocks (.inr i :: f) = blocks.getD i [] ++ fill blocks f := rfl

@[simp] theorem fill_append (blocks : List Text) (f g : Frame) :
    fill blocks (f ++ g) = fill blocks f ++ fill blocks g :=
  List.flatMap_append

@[simp] theorem fill_map_inl (blocks : List Text) (t : Text) : fill blocks (t.map .inl) = t := by
  induction t with
  | nil => rfl
  | cons c t ih => rw [List.map_cons, fill_inl_cons, ih]

/-- Remove the blanks from both ends. -/
def trim (f : Frame) : Frame :=
  let blank : Char ⊕ Nat → Bool := Sum.elim isBlank fun _ => false
  ((f.dropWhile blank).reverse.dropWhile blank).reverse

/-- The numbers in a frame are those of blocks that have something else than a blank in front. -/
def StartsSolid (blocks : List Text) (f : Frame) : Prop :=
  ∀ i, .inr i ∈ f → ∃ c b, blocks.getD i [] = c :: b ∧ isBlank c = false

/-- The numbers of the blocks that are put in, in order. -/
def indices (f : Frame) : List Nat :=
  f.filterMap Sum.getRight?

@[simp] theorem indices_map_inl (t : Text) : indices (t.map .inl) = [] := by
  rw [indices, List.filterMap_map, List.filterMap_eq_nil_iff]
  exact fun _ _ => rfl

/-- The characters of a frame itself. -/
def chars (f : Frame) : Text :=
  f.filterMap Sum.getLeft?

theorem chars_append (f g : Frame) : chars (f ++ g) = chars f ++ chars g :=
  List.filterMap_append

@[simp] theorem chars_map_inl (t : Text) : chars (t.map .inl) = t := by
  rw [chars, List.filterMap_map]
  exact List.filterMap_some

/-- A character of the page is one of the frame or stands in a block. -/
theorem count_fill (blocks : List Text) (f : Frame) (c : Char) :
    (fill blocks f).count c =
      (chars f).count c + ((indices f).map fun i => (blocks.getD i []).count c).sum := by
  induction f with
  | nil => rfl
  | cons a f ih =>
    cases a with
    | inl d =>
      have hchars : chars (.inl d :: f) = d :: chars f := rfl
      have hindices : indices (.inl d :: f) = indices f := rfl
      rw [fill_inl_cons, hchars, hindices, List.count_cons, List.count_cons, ih]
      omega
    | inr i =>
      have hchars : chars (.inr i :: f) = chars f := rfl
      have hindices : indices (.inr i :: f) = i :: indices f := rfl
      rw [fill_inr_cons, hchars, hindices, List.count_append, List.map_cons, List.sum_cons, ih]
      omega

variable {blocks : List Text} {f : Frame}

theorem fill_dropWhile (h : f.StartsSolid blocks) :
    fill blocks (f.dropWhile (Sum.elim isBlank fun _ => false)) =
      (fill blocks f).dropWhile isBlank := by
  induction f with
  | nil => rfl
  | cons a f ih =>
    have ih := ih fun i hi => h i (by simp [hi])
    cases a with
    | inl c =>
      by_cases hc : isBlank c <;> simp [hc, ih]
    | inr i =>
      obtain ⟨c, b, hb, hc⟩ := h i (by simp)
      rw [List.dropWhile_cons_of_neg (by simp), fill_inr_cons, hb, List.cons_append,
        List.dropWhile_cons_of_neg (by simp [hc])]

theorem reverse_fill (blocks : List Text) (f : Frame) :
    (fill blocks f).reverse = fill (blocks.map List.reverse) f.reverse := by
  induction f with
  | nil => rfl
  | cons a f ih =>
    rw [List.reverse_cons, fill_append, ← ih]
    cases a with
    | inl c => simp
    | inr i =>
      have hblock : (blocks.map List.reverse).getD i [] = (blocks.getD i []).reverse := by
        rw [List.getD_eq_getElem?_getD, List.getD_eq_getElem?_getD, List.getElem?_map]
        cases blocks[i]? <;> rfl
      rw [fill_inr_cons, fill_inr_cons, List.reverse_append, hblock, fill_nil, List.append_nil]

/-- Trimming a page trims its frame. -/
theorem fill_trim (h : f.StartsSolid blocks) (h' : f.StartsSolid (blocks.map List.reverse)) :
    fill blocks f.trim = Text.trim (fill blocks f) := by
  have hlast : StartsSolid (blocks.map List.reverse)
      (f.dropWhile (Sum.elim isBlank fun _ => false)).reverse := fun i hi =>
    h' i ((List.dropWhile_suffix _).subset (List.mem_reverse.1 hi))
  rw [trim, ← List.reverse_reverse (fill _ _), reverse_fill, List.reverse_reverse, fill_dropWhile hlast,
    ← reverse_fill, fill_dropWhile h]
  rfl

end Frame

/-- What the last rule makes of a match, if there are `size` blocks. -/
def Handler.framed (size : Nat) (m : Match) : Frame :=
  match (named? m).filter fun i => decide (i < size) with
  | some i => [.inr i]
  | none => m.text.map .inl

/-- The frame that the last rule makes of a document, if there are `size` blocks. -/
def Table.frame (size : Nat) (d : Text) : Frame :=
  (Pattern.placeholder.pieces d).flatMap fun
    | .kept c => [.inl c]
    | .found taken groups => Handler.framed size ⟨taken, groups⟩

namespace Handler

variable {size i : Nat} {m : Match}

theorem framed_of_named?_lt (h : named? m = some i) (hi : i < size) : framed size m = [.inr i] := by
  rw [framed, h, Option.filter_some, if_pos (decide_eq_true hi)]

theorem framed_cases (size : Nat) (m : Match) :
    framed size m = m.text.map .inl ∨ ∃ i < size, named? m = some i ∧ framed size m = [.inr i] := by
  cases h : named? m with
  | none => exact .inl (by rw [framed, h]; rfl)
  | some i =>
    by_cases hi : i < size
    · exact .inr ⟨i, hi, rfl, framed_of_named?_lt h hi⟩
    · exact .inl (by rw [framed, h, Option.filter_some, if_neg (by simpa using hi)])

theorem reinsertCodeBlock_eq_fill (m : Match) (cx : Context) :
    (reinsertCodeBlock m cx).1 = (framed cx.vault.size m).fill cx.vault.blocks.toList := by
  cases h : named? m with
  | none => simp [reinsertCodeBlock_of_named?_eq_none h, framed, h]
  | some i =>
    by_cases hi : i < cx.vault.size
    · have hi' : i < cx.vault.blocks.size := hi
      rw [reinsertCodeBlock_of_named?_lt h hi, framed_of_named?_lt h hi]
      simp [hi']
      rfl
    · simp [reinsertCodeBlock_of_named?_le h (Nat.le_of_not_lt hi), framed, h, Option.filter_some, hi]

end Handler

/-- The last rule fills the frame of a document with the blocks. -/
theorem Table.text_apply_reinsertion_eq_fill (d : Text) (cx : Context) :
    (reinsertion.apply d cx).1 = (frame cx.vault.size d).fill cx.vault.blocks.toList := by
  rw [text_apply_reinsertion, Pattern.rewriteFrom, ← Pattern.pieces_eq_piecesFrom, frame]
  induction Pattern.placeholder.pieces d with
  | nil => rfl
  | cons p ps ih =>
    rw [List.flatMap_cons, List.flatMap_cons, Frame.fill_append, ih]
    cases p with
    | kept c => rfl
    | found taken groups => rw [← Handler.reinsertCodeBlock_eq_fill]; rfl

/-- Only numbers of blocks are in a frame. -/
theorem Table.lt_of_inr_mem_frame {size i : Nat} {d : Text} (h : .inr i ∈ frame size d) : i < size := by
  obtain ⟨p, -, hi⟩ := List.mem_flatMap.1 h
  cases p with
  | kept c => simp at hi
  | found taken groups =>
    rcases Handler.framed_cases size ⟨taken, groups⟩ with hframed | ⟨j, hj, -, hframed⟩
    · simp [hframed] at hi
    · obtain rfl : i = j := by simpa [hframed] using hi
      exact hj

/-- A block begins and ends with a tag. -/
theorem CodeBlock.exists_render_eq (raw : Text) :
    ∃ b, CodeBlock.render raw = '<' :: b ++ ['>'] := by
  have hopen : "<pre><code>".toList = '<' :: "pre><code>".toList := rfl
  have hclose : "</code></pre>".toList = "</code></pre".toList ++ ['>'] := rfl
  have hrender := congrArg₂ (fun a b => a ++ body raw ++ b) hopen hclose
  generalize "pre><code>".toList = a at hrender
  generalize "</code></pre".toList = b at hrender
  exact ⟨a ++ body raw ++ b, hrender.trans (by simp)⟩

theorem Table.startsSolid_frame (raws : List Text) (d : Text) :
    (frame raws.length d).StartsSolid (raws.map CodeBlock.render) ∧
      (frame raws.length d).StartsSolid ((raws.map CodeBlock.render).map List.reverse) := by
  have hblock {i : Nat} (h : .inr i ∈ frame raws.length d) :
      ∃ raw, ∀ f : Text → Text, (raws.map f).getD i [] = f raw := by
    have hlt : i < raws.length := lt_of_inr_mem_frame h
    refine ⟨raws.get ⟨i, hlt⟩, fun f => ?_⟩
    rw [List.getD_eq_getElem?_getD, List.getElem?_map, List.getElem?_eq_getElem hlt]
    rfl
  refine ⟨fun i hi => ?_, fun i hi => ?_⟩
  · obtain ⟨raw, hraw⟩ := hblock hi
    obtain ⟨b, hb⟩ := CodeBlock.exists_render_eq raw
    rw [hraw, hb]
    exact ⟨'<', _, rfl, rfl⟩
  · obtain ⟨raw, hraw⟩ := hblock hi
    obtain ⟨b, hb⟩ := CodeBlock.exists_render_eq raw
    rw [List.map_map, hraw, Function.comp_apply, hb, List.reverse_append]
    exact ⟨'>', _, rfl, rfl⟩

/-! ## The numbers in a frame -/

namespace Handler

variable {m : Match} {ds : Text}

theorem digits_of_groups (hm : m.groups = [some ds, none] ∨ m.groups = [none, some ds]) :
    digits m = ds := by
  rcases hm with hm | hm <;> simp [digits, Match.group?, hm]

theorem named?_of_digits {i : Nat} (h : digits m = Text.ofNat i) (hi : i < indexBound) :
    named? m = some i := by
  rw [named?, h, placeholderIndex?_ofNat hi]

end Handler

/-- Whether a piece is a match of the last rule with some digits. -/
def Piece.hasDigits (ds : Text) : Piece Char (List (Option Text)) → Bool
  | .kept _ => false
  | .found taken groups => Handler.digits ⟨taken, groups⟩ == ds

/-- The last rule finds every token. -/
theorem Pattern.countP_hasDigits {ds : Text} (hds : IsDigits ds) (d : Text) :
    (placeholder.pieces d).countP (Piece.hasDigits ds) = occurrences (token ds) d := by
  rw [pieces_eq_piecesFrom]
  refine isProper_placeholder.induction (motive := fun b d =>
    (piecesFrom placeholder.finder b d).countP (Piece.hasDigits ds) = occurrences (token ds) d)
    ?_ ?_ ?_ none d
  · intro b
    rw [isProper_placeholder.piecesFrom_nil]
    rfl
  · intro b c d hf ih
    have hc : ¬ token ds <+: c :: d := by
      rintro ⟨r, hr⟩
      rw [← hr] at hf
      exact finder_placeholder_ne_none hds b r hf
    rw [isProper_placeholder.piecesFrom_cons hf, List.countP_cons_of_neg (by simp [Piece.hasDigits]),
      ih, occurrences_cons_of_not hc]
  · intro b s d v _ hf ih
    obtain ⟨ds', hds', hcases⟩ := eq_of_finder_placeholder hf
    have hdigits : Handler.digits ⟨s, v⟩ = ds' :=
      Handler.digits_of_groups (hcases.imp (fun h => h.2) fun h => h.2)
    have htoken := isClosed_token hds hds'
    have hdurable := isDurable_token hds
    have hmarks : isMark "<p>".toList ∧ isMark "</p>".toList := by decide
    obtain ⟨hopen, hopen'⟩ := hdurable.of_isMark hmarks.1
    obtain ⟨hclose, hclose'⟩ := hdurable.of_isMark hmarks.2
    have hs : occurrences (token ds) (s ++ d) =
        (if ds = ds' then 1 else 0) + occurrences (token ds) d := by
      rcases hcases with ⟨rfl, -⟩ | ⟨rfl, -⟩
      · have hwrapped : wrappedToken ds' = "<p>".toList ++ token ds' ++ "</p>".toList := rfl
        rw [hwrapped, (hopen.enclose hclose _).append_left, hclose.append_right, hopen.append_left,
          hopen', hclose', occurrences_token hds hds']
        omega
      · rw [htoken.append_left, occurrences_token hds hds']
    rw [isProper_placeholder.piecesFrom_append hf, List.countP_cons, ih, hs, Nat.add_comm]
    by_cases hsame : ds = ds'
    · simp [Piece.hasDigits, hdigits, hsame]
    · have hsame' : ds' ≠ ds := fun h => hsame h.symm
      simp [Piece.hasDigits, hdigits, hsame, hsame']

namespace Table

variable {size : Nat} {d : Text}

theorem indices_frame (size : Nat) (d : Text) :
    (frame size d).indices = (Pattern.placeholder.pieces d).flatMap fun
      | .kept _ => []
      | .found taken groups => (Handler.framed size ⟨taken, groups⟩).indices := by
  rw [frame, Frame.indices, List.filterMap_flatMap]
  congr 1
  funext p
  cases p <;> rfl

/-- A block is put in wherever its placeholder stands. -/
theorem mem_indices_frame {i : Nat} (hi : i < size) (hbound : i < indexBound)
    (h : placeholder i <:+: d) : i ∈ (frame size d).indices := by
  have hdigits := isDigits_ofNat i
  rw [placeholder_eq_token, ← occurrences_pos_iff (isDurable_token hdigits).ne_nil,
    ← Pattern.countP_hasDigits hdigits, List.countP_pos_iff] at h
  obtain ⟨p, hp, hhas⟩ := h
  rw [indices_frame]
  refine List.mem_flatMap.2 ⟨p, hp, ?_⟩
  cases p with
  | kept c => simp [Piece.hasDigits] at hhas
  | found taken groups =>
    have hnamed := Handler.named?_of_digits (eq_of_beq hhas) hbound
    simp only [Handler.framed_of_named?_lt hnamed hi]
    exact List.mem_singleton.2 rfl

/-- No more blocks are put in than matches are found. -/
theorem length_indices_le (size : Nat) (d : Text) :
    (frame size d).indices.length ≤ (Pattern.placeholder.pieces d).countP Piece.isFound := by
  rw [indices_frame]
  induction Pattern.placeholder.pieces d with
  | nil => exact Nat.le_refl _
  | cons p ps ih =>
    rw [List.flatMap_cons, List.length_append, List.countP_cons]
    cases p with
    | kept c => simpa [Piece.isFound] using ih
    | found taken groups =>
      have hone : (Handler.framed size ⟨taken, groups⟩).indices.length ≤ 1 := by
        rcases Handler.framed_cases size ⟨taken, groups⟩ with hframed | ⟨i, -, -, hframed⟩
        · simp [hframed]
        · rw [hframed]
          exact Nat.le_refl _
      simp only [Piece.isFound, if_true]
      omega

/-- If all tokens are placeholders of blocks, each match names one. -/
theorem named?_of_onlyPlaceholders (hsize : size ≤ indexBound) (h : OnlyPlaceholders size d) {taken : Text}
    {groups : List (Option Text)} (hm : .found taken groups ∈ Pattern.placeholder.pieces d) :
    ∃ j < size, Handler.digits ⟨taken, groups⟩ = Text.ofNat j ∧
      Handler.named? ⟨taken, groups⟩ = some j := by
  obtain ⟨ds, hds, hin, hgroups⟩ := of_found_mem_pieces_placeholder hm
  obtain ⟨j, hj, heq⟩ := h ds hds hin
  have hdigits := (Handler.digits_of_groups (m := ⟨taken, groups⟩) hgroups).trans (token_inj heq)
  exact ⟨j, hj, hdigits, Handler.named?_of_digits hdigits (Nat.lt_of_lt_of_le hj hsize)⟩

/-- Then blocks are put in exactly where their placeholders stand, and nothing is reported. -/
theorem of_onlyPlaceholders (hsize : size ≤ indexBound) (h : OnlyPlaceholders size d) :
    (∀ i, (frame size d).indices.count i = if i < size then occurrences (placeholder i) d else 0) ∧
      danglingIndices size d = [] := by
  have hpieces (taken : Text) (groups : List (Option Text))
      (hm : .found taken groups ∈ Pattern.placeholder.pieces d) :=
    named?_of_onlyPlaceholders hsize h hm
  constructor
  · intro i
    rw [placeholder_eq_token, ← Pattern.countP_hasDigits (isDigits_ofNat i), indices_frame]
    generalize Pattern.placeholder.pieces d = ps at hpieces
    induction ps with
    | nil => simp
    | cons p ps ih =>
      have ih := ih fun taken groups hm => hpieces taken groups (by simp [hm])
      rw [List.flatMap_cons, List.count_append, ih, List.countP_cons]
      cases p with
      | kept c => simp [Piece.hasDigits]
      | found taken groups =>
        obtain ⟨j, hj, hdigits, hnamed⟩ := hpieces taken groups (by simp)
        have hiff : (Handler.digits ⟨taken, groups⟩ == Text.ofNat i) = true ↔ j = i := by
          rw [beq_iff_eq, hdigits]
          exact ⟨fun heq => by rw [← decimal_ofNat j, heq, decimal_ofNat], fun heq => by rw [heq]⟩
        have hsingle : Frame.indices [.inr j] = [j] := rfl
        simp only [Handler.framed_of_named?_lt hnamed hj, hsingle, Piece.hasDigits, hiff,
          List.count_singleton, beq_iff_eq]
        by_cases hji : j = i
        · subst hji
          simp only [if_true, hj]
          omega
        · simp [hji]
  · rw [danglingIndices, List.filterMap_eq_nil_iff]
    rintro (c | ⟨taken, groups⟩) hm
    · rfl
    · obtain ⟨j, hj, -, hnamed⟩ := hpieces taken groups hm
      simp only [Handler.dangling?, hnamed, Option.filter_some]
      rw [if_neg (by simpa using hj)]

end Table

namespace Renderer

variable (o : Options) (t : Text)

/-- The HTML of a text in which no brace is hidden is the frame of its document, trimmed and filled
with its blocks. -/
theorem render_eq_fill {raws : List Text} (hstand : (Protected.ofText t).standIn = none)
    (hblocks : (settled o t).2.vault.blocks.toList = raws.map CodeBlock.render) :
    (ofOptions o).render t =
      (Table.frame raws.length (settled o t).1).trim.fill (raws.map CodeBlock.render) := by
  have hsize : (settled o t).2.vault.size = raws.length := by
    rw [Vault.size, ← Array.length_toList, hblocks, List.length_map]
  obtain ⟨hfirst, hlast⟩ := Table.startsSolid_frame raws (settled o t).1
  rw [render_eq, rewritten_eq, Table.text_apply_reinsertion_eq_fill, hsize, hblocks,
    Frame.fill_trim hfirst hlast, Protected.release, hstand]

end Renderer

end Markdown
