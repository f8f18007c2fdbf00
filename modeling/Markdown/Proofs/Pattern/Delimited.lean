import Markdown.Proofs.Rewriting
import Markdown.Proofs.Text.Lines

/-!
# Delimited spans

The search of a delimiter in terms of the text: a span is a marker, what it encloses and the marker
again (`eq_of_finder_delimiter`). It is found where the marker is the first of the list to stand
there, the guards let it open, and it stands again on the line (`finder_delimiter`).
-/

namespace Markdown

/-- What can be said about a text from its beginning on. -/
def Outlook.ofText (t : Text) : Outlook :=
  Spot.ahead (Spot.ofText t)

namespace Spot

theorem drop_ofText (n : Nat) (t : Text) : (ofText t).drop n = ofText (t.drop n) := by
  induction t generalizing n with
  | nil => simp
  | cons c t ih =>
    cases n with
    | zero => rfl
    | succ n => simpa [ofText_cons] using ih n

end Spot

namespace Delimiter

theorem markers_ofMarkers {ms : List Text} (h : [] ∉ ms) : (ofMarkers ms).markers = ms := by
  refine List.filter_eq_self.2 fun m hm => ?_
  cases m with
  | nil => exact absurd hm h
  | cons c m => rfl

theorem standsAt_ofText (marker t : Text) :
    standsAt marker (Spot.ofText t) = marker.isPrefixOf t := by
  induction marker generalizing t with
  | nil => rfl
  | cons c marker ih =>
    cases t with
    | nil => rfl
    | cons d t =>
      rw [Spot.ofText_cons, standsAt, ih]
      rfl

/-- The closing marker stands behind a part of the line. -/
theorem eq_of_closing? {marker t : Text} {n m : Nat}
    (h : closing? marker n (Spot.ofText t) = some m) :
    ∃ g r, t = g ++ marker ++ r ∧ m = n + g.length ∧ '\n' ∉ g ∧ '\n' ∉ marker := by
  induction t generalizing n with
  | nil => simp [closing?] at h
  | cons c t ih =>
    rw [Spot.ofText_cons, closing?, ← Spot.ofText_cons, standsAt_ofText] at h
    split at h
    · rename_i hp
      split at h
      · simp at h
      · rename_i hlf
        obtain rfl : n = m := by simpa using h
        obtain ⟨r, hr⟩ := List.isPrefixOf_iff_prefix.1 hp
        exact ⟨[], r, by simp [← hr], by simp, by simp, by simpa using hlf⟩
    · split at h
      · simp at h
      · rename_i hc
        obtain ⟨g, r, rfl, rfl, hg, hm⟩ := ih h
        have hc' : '\n' ≠ c := fun he => hc he.symm
        exact ⟨c :: g, r, rfl, by simp [Nat.add_assoc, Nat.add_comm 1], by simp [hg, hc'], hm⟩

/-- The first closing marker is behind a text in which no marker begins. -/
theorem closing?_append {marker g : Text} (r : Text) (n : Nat) (hne : marker ≠ [])
    (hfree : Text.IsFree marker g) (hg : '\n' ∉ g) (hm : '\n' ∉ marker) :
    closing? marker n (Spot.ofText (g ++ marker ++ r)) = some (n + g.length) := by
  induction g generalizing n with
  | nil =>
    obtain ⟨c, marker, rfl⟩ := List.exists_cons_of_ne_nil hne
    rw [List.nil_append, List.cons_append, Spot.ofText_cons, closing?, ← Spot.ofText_cons,
      standsAt_ofText, if_pos (by simp), if_neg (by simpa using hm)]
    rfl
  | cons d g ih =>
    have hd : ¬ marker.isPrefixOf (d :: (g ++ marker ++ r)) := fun hp =>
      hfree.1 (marker ++ r) (by simpa using hp)
    have hd' : d ≠ '\n' := fun h => hg (by simp [h])
    rw [List.cons_append, List.cons_append, Spot.ofText_cons, closing?, ← Spot.ofText_cons,
      standsAt_ofText, if_neg hd, if_neg hd', ih _ hfree.2 fun h => hg (by simp [h])]
    simp [Nat.add_assoc, Nat.add_comm 1]

end Delimiter

namespace Pattern

variable {d : Delimiter} {b : Option Char} {s l : Text} {v : List (Option Text)}

theorem finder_delimiter_eq (d : Delimiter) (b : Option Char) (t : Text) :
    (delimiter d).finder (.of b t) =
      (d.markers.find? (·.isPrefixOf t)).bind fun marker =>
        if (Outlook.ofText (t.drop marker.length)).mayOpen then
          (Delimiter.closing? marker 0 (Spot.ofText (t.drop marker.length))).map fun n =>
            (marker.length + n + marker.length,
              [some marker, some ((t.drop marker.length).take n)])
        else none := by
  have hstands : (fun m => Delimiter.standsAt m (Spot.ofText t)) = (·.isPrefixOf t) := by
    funext m
    exact Delimiter.standsAt_ofText m t
  simp only [finder, Delimiter.find, Cursor.rest_of, hstands, Option.bind_eq_bind,
    Spot.drop_ofText]
  congr 1
  funext marker
  change (if (!(Outlook.ofText (t.drop marker.length)).mayOpen) = true then none else _) = _
  cases (Outlook.ofText (t.drop marker.length)).mayOpen with
  | false => rfl
  | true =>
    rw [if_neg (by simp), if_pos rfl, Option.map_eq_bind]
    congr 1
    funext n
    rw [List.map_take, Spot.map_char_ofText]
    rfl

/-- A span is a marker, a part of a line, and the marker again. -/
theorem eq_of_finder_delimiter
    (h : (delimiter d).finder (.of b (s ++ l)) = some (s.length, v)) :
    ∃ marker ∈ d.markers, ∃ g, s = marker ++ g ++ marker ∧ v = [some marker, some g] ∧
      '\n' ∉ g ∧ '\n' ∉ marker := by
  rw [finder_delimiter_eq, Option.bind_eq_some_iff] at h
  obtain ⟨marker, hmarker, h⟩ := h
  have hmem : marker ∈ d.markers := List.mem_of_find?_eq_some hmarker
  have hpre : marker.isPrefixOf (s ++ l) := List.find?_some (p := fun m : Text => m.isPrefixOf (s ++ l)) hmarker
  obtain ⟨t, ht⟩ := List.isPrefixOf_iff_prefix.1 hpre
  split at h
  · rw [← ht, List.drop_left, Option.map_eq_some_iff] at h
    obtain ⟨n, hn, heq⟩ := h
    obtain ⟨hlen, rfl⟩ := Prod.mk.inj heq
    obtain ⟨g, r, rfl, rfl, hg, hm⟩ := Delimiter.eq_of_closing? hn
    refine ⟨marker, hmem, g, ?_, by simp, hg, hm⟩
    have hs : s ++ l = (marker ++ g ++ marker) ++ r := by simp [← ht]
    exact (List.append_inj hs (by simp [← hlen, Nat.add_assoc])).1
  · simp at h

/-- No span opens where no marker stands. -/
theorem finder_delimiter_eq_none {t : Text} (h : ∀ m ∈ d.markers, ¬ m <+: t) :
    (delimiter d).finder (.of b t) = none := by
  have hnone : d.markers.find? (·.isPrefixOf t) = none := by
    rw [List.find?_eq_none]
    intro m hm
    simpa using h m hm
  rw [finder_delimiter_eq, hnone]
  rfl

theorem opensWith_delimiter (d : Delimiter) : (delimiter d).OpensWith d.markers :=
  fun _ _ h => finder_delimiter_eq_none h

/-- A span in whose text no marker begins is found, if the guards let it open. -/
theorem finder_delimiter {marker g : Text} (r : Text)
    (hfirst : d.markers.find? (·.isPrefixOf (marker ++ g ++ marker ++ r)) = some marker)
    (hopen : (Outlook.ofText (g ++ marker ++ r)).mayOpen) (hfree : Text.IsFree marker g)
    (hg : '\n' ∉ g) (hm : '\n' ∉ marker) :
    (delimiter d).finder (.of b (marker ++ g ++ marker ++ r)) =
      some ((marker ++ g ++ marker).length, [some marker, some g]) := by
  have hne : marker ≠ [] := d.ne_nil_of_mem marker (List.mem_of_find?_eq_some hfirst)
  have hdrop : (marker ++ g ++ marker ++ r).drop marker.length = g ++ marker ++ r := by
    rw [List.append_assoc, List.append_assoc, List.drop_left, List.append_assoc]
  rw [finder_delimiter_eq, hfirst, Option.bind_some, hdrop, if_pos hopen,
    Delimiter.closing?_append r 0 hne hfree hg hm]
  simp only [Option.map_some, Nat.zero_add, List.append_assoc, List.take_left, List.length_append,
    Nat.add_assoc]

/-- Nothing is found where every marker has a character that no line has twice. -/
theorem rewriteFrom_delimiter_ofLines (ρ : Match → Text) (b : Option Char) {l : Text}
    {ls : List Text} (h : ∀ m ∈ d.markers, ∀ x ∈ l :: ls, ∃ c ∈ m, x.count c ≤ 1) :
    (delimiter d).rewriteFrom ρ b (Text.ofLines l ls) = Text.ofLines l ls := by
  have hp := isProper_finder_delimiter d
  refine rewriteFrom_eq_self hp ρ fun x c y hxy => finder_eq_none hp ?_
  intro s r v hsr hfound
  obtain ⟨m, hm, g, rfl, -, hg, hlf⟩ := eq_of_finder_delimiter hfound
  have hin : m ++ g ++ m <:+: Text.ofLines l ls :=
    ⟨x, r, by rw [hxy, hsr, List.append_assoc]⟩
  obtain ⟨z, hz, hinz⟩ := Text.exists_infix_of_infix_ofLines (by simp [hg, hlf]) hin
  obtain ⟨e, he, hle⟩ := h m hm z hz
  have hcount := hinz.sublist.count_le e
  have hpos := List.count_pos_iff.2 he
  rw [List.count_append, List.count_append] at hcount
  omega

/-- No span opens where the guards do not let it. -/
theorem finder_delimiter_of_not_mayOpen {t : Text}
    (h : ∀ m ∈ d.markers, m <+: t → (Outlook.ofText (t.drop m.length)).mayOpen = false) :
    (delimiter d).finder (.of b t) = none := by
  rw [finder_delimiter_eq, Option.bind_eq_none_iff]
  intro m hm
  have hpre : m.isPrefixOf t := List.find?_some (p := fun m : Text => m.isPrefixOf t) hm
  rw [if_neg]
  simp [h m (List.mem_of_find?_eq_some hm) (List.isPrefixOf_iff_prefix.1 hpre)]

end Pattern

end Markdown
