import Mathlib.Algebra.Ring.Nat
import Markdown.Proofs.Bytes.Scan

/-!
# The spans that the scan of the bytes finds

The scan never fails: no read or write is outside of a table, no cut inside of a character. What it
finds are the matches of the delimiter in the text (`Delimiter.IsScan.matches_eq`), and these are the
spans of a leftmost scan without overlaps (`Delimiter.spans_leftmost`).
-/

namespace Markdown

open Text

variable {d : Delimiter} {t u v m g r : Text} {c : Char} {b : Option Char}
  {spans : List ByteSpan}

/-! ## The matches of the text -/

/-- Cutting a text at a span gives its parts. -/
theorem ByteSpan.match?_behind (u m g r : Text) :
    (ByteSpan.behind u m g).match? (u ++ m ++ g ++ m ++ r) =
      some ⟨m ++ g ++ m, [some m, some g]⟩ := by
  have hwhole : between? (u ++ m ++ g ++ m ++ r) (byteSize u) (byteSize (u ++ m ++ g ++ m)) =
      some (m ++ g ++ m) := by
    simpa using between?_append u (m ++ g ++ m) r
  have hmarker : between? (u ++ m ++ g ++ m ++ r) (byteSize u) (byteSize (u ++ m)) = some m := by
    simpa using between?_append u m (g ++ m ++ r)
  have hcontent : between? (u ++ m ++ g ++ m ++ r) (byteSize (u ++ m)) (byteSize (u ++ m ++ g)) =
      some g := by
    simpa using between?_append (u ++ m) g (m ++ r)
  simp only [match?, behind, hwhole, hmarker, hcontent]
  rfl

namespace Delimiter

theorem Opens.finder_eq (h : d.Opens m g r) (b : Option Char) :
    (Pattern.delimiter d).finder (.of b (m ++ g ++ m ++ r)) =
      some ((m ++ g ++ m).length, [some m, some g]) := by
  have hdrop : (m ++ g ++ m ++ r).drop m.length = g ++ m ++ r := by
    rw [List.append_assoc, List.append_assoc, List.drop_left, List.append_assoc]
  have hclose := (closing?_eq_some_iff h.ne_nil (n := 0)).2 ⟨g, h.nearest, h.line, rfl⟩
  rw [Pattern.finder_delimiter_eq, h.first, Option.bind_some, hdrop, if_pos h.mayOpen, hclose]
  simp [Nat.add_assoc]

theorem finder_eq_none (hnot : ∀ m g r, v = m ++ g ++ m ++ r → ¬ d.Opens m g r) (b : Option Char) :
    (Pattern.delimiter d).finder (.of b v) = none := by
  rw [Pattern.finder_delimiter_eq, Option.bind_eq_none_iff]
  intro m hfirst
  have hpre : m.isPrefixOf v := List.find?_some (p := fun m : Text => m.isPrefixOf v) hfirst
  obtain ⟨w, rfl⟩ := List.isPrefixOf_iff_prefix.1 hpre
  have hne : m ≠ [] := d.ne_nil_of_mem m (List.mem_of_find?_eq_some hfirst)
  rw [List.drop_left]
  split_ifs with hmay
  · rw [Option.map_eq_none_iff, Option.eq_none_iff_forall_ne_some]
    intro n hn
    obtain ⟨g, hnearest, hline, -⟩ := (closing?_eq_some_iff hne).1 hn
    obtain ⟨r, rfl⟩ := hnearest.exists_eq
    exact hnot m g r (by simp) ⟨by simpa using hfirst, hmay, hnearest, hline⟩
  · rfl

/-- What the scan of the bytes finds are the matches of the delimiter, each with its offset. -/
theorem IsScan.matches_eq (h : d.IsScan u v spans) (b : Option Char) :
    spans.map (fun s => (s.match? (u ++ v)).map (s.start, ·)) =
      ((offsetsFrom (byteSize u) [] (piecesFrom (Pattern.delimiter d).finder b v)).filterMap
        fun (offset, piece) => piece.match?.map (offset, ·)).map some := by
  have hproper := Pattern.isProper_finder_delimiter d
  induction h generalizing b with
  | nil u =>
    rw [hproper.piecesFrom_nil]
    rfl
  | @kept u c v spans hnot _ ih =>
    have hsize : byteSize (u ++ [c]) = byteSize u + byteSize [c] := byteSize_append u [c]
    rw [hproper.piecesFrom_cons (finder_eq_none hnot b), offsetsFrom_cons,
      List.filterMap_cons_none rfl, List.append_cons, ih (some c), hsize]
    rfl
  | @found u m g r spans hopens _ ih =>
    have hsize : byteSize (u ++ m ++ g ++ m) = byteSize u + byteSize (m ++ g ++ m) := by
      rw [← byteSize_append]
      simp
    have hsplit : u ++ (m ++ g ++ m ++ r) = u ++ m ++ g ++ m ++ r := by simp
    rw [hproper.piecesFrom_append (hopens.finder_eq b), offsetsFrom_cons, List.filterMap_cons,
      List.map_cons, hsplit, ih (lastOr b (m ++ g ++ m)), ByteSpan.match?_behind, hsize]
    rfl

/-! ## Order and completeness -/

theorem IsScan.le_start (h : d.IsScan u v spans) : ∀ s ∈ spans, byteSize u ≤ s.start := by
  induction h with
  | nil u => simp
  | kept _ _ ih =>
    intro s hs
    have := ih s hs
    rw [byteSize_append] at this
    omega
  | found _ _ ih =>
    refine List.forall_mem_cons.2 ⟨Nat.le_refl _, fun s hs => ?_⟩
    have := ih s hs
    simp only [byteSize_append] at this
    omega

theorem IsScan.pairwise (h : d.IsScan u v spans) :
    spans.Pairwise fun s s' => s.stop ≤ s'.start := by
  induction h with
  | nil u => exact .nil
  | kept _ _ ih => exact ih
  | found _ hscan ih => exact List.pairwise_cons.2 ⟨hscan.le_start, ih⟩

theorem IsScan.start_lt_stop (h : d.IsScan u v spans) : ∀ s ∈ spans, s.start < s.stop := by
  induction h with
  | nil u => simp
  | kept _ _ ih => exact ih
  | found hopens _ ih => exact List.forall_mem_cons.2 ⟨hopens.start_lt_stop _, ih⟩

/-- Each span opens where it begins. -/
theorem IsScan.exists_opens (h : d.IsScan u v spans) :
    ∀ s ∈ spans, ∃ u' m g r, u ++ v = u' ++ m ++ g ++ m ++ r ∧ d.Opens m g r ∧
      s = .behind u' m g := by
  induction h with
  | nil u => simp
  | @kept u c v spans _ _ ih => simpa using ih
  | @found u m g r spans hopens _ ih =>
    refine List.forall_mem_cons.2 ⟨⟨u, m, g, r, by simp, hopens, rfl⟩, fun s hs => ?_⟩
    simpa using ih s hs

/-- At a place that is in no span, none opens. -/
theorem IsScan.not_opens (h : d.IsScan u v spans) {x y : Text} (hxy : v = x ++ y)
    (hout : ∀ s ∈ spans, byteSize (u ++ x) < s.start ∨ s.stop ≤ byteSize (u ++ x)) (m g r : Text)
    (hy : y = m ++ g ++ m ++ r) : ¬ d.Opens m g r := by
  induction h generalizing x with
  | nil u =>
    obtain ⟨-, rfl⟩ := List.append_eq_nil_iff.1 hxy.symm
    intro hopens
    simp [hopens.ne_nil] at hy
  | @kept u c v spans hnot _ ih =>
    cases x with
    | nil => exact hnot m g r (by simpa using hxy.trans hy)
    | cons c' x =>
      obtain ⟨rfl, hv⟩ := List.cons.inj hxy
      exact ih hv fun s hs => by simpa using hout s hs
  | @found u m' g' r' spans hopens _ ih =>
    rw [List.forall_mem_cons] at hout
    obtain ⟨hfirst, hrest⟩ := hout
    -- the place is not in front of the first span, so it is behind it
    have hstop : byteSize (u ++ m' ++ g' ++ m') ≤ byteSize (u ++ x) := by
      refine hfirst.resolve_left (Nat.not_lt.2 ?_)
      change byteSize u ≤ byteSize (u ++ x)
      rw [byteSize_append]
      exact Nat.le_add_right ..
    obtain ⟨z, rfl, hz⟩ := exists_of_append_eq_append hxy (by
      simp only [byteSize_append] at hstop ⊢
      omega)
    exact ih hz fun s hs => by simpa using hrest s hs

/-! ## The leftmost scan -/

/-- In a text, behind `u`, there is a span that may be found: the first of the markers to stand there,
what it encloses up to the nearest place of the marker, and the marker again, all on one line and with
the guards fulfilled behind the opening marker. The guards are read from their tables. -/
structure IsSpan (markers : List Text) (outside inside : Array Bool) (t u m g r : Text) :
    Prop where
  text_eq : t = u ++ m ++ g ++ m ++ r
  first : (markers.filter (!·.isEmpty)).find? (·.isPrefixOf (m ++ g ++ m ++ r)) = some m
  nearest : ∀ i, byteSize (u ++ m) ≤ i → i < byteSize (u ++ m ++ g) →
    ¬ utf8 m <+: (utf8 t).drop i
  line : '\n' ∉ g ∧ '\n' ∉ m
  outside_code : outside[byteSize (u ++ m)]? = some true
  not_inside_tag : inside[byteSize (u ++ m)]? = some false

/-- The nearest place of a marker is the first offset at which its bytes stand. -/
theorem isNearest_iff (hm : m ≠ []) (u : Text) :
    IsNearest m (g ++ m ++ r) g ↔ ∀ i, byteSize u ≤ i → i < byteSize (u ++ g) →
      ¬ utf8 m <+: (utf8 (u ++ g ++ m ++ r)).drop i := by
  constructor
  · intro h i hle hlt hp
    obtain ⟨x, y, hxy, rfl⟩ := exists_of_utf8_isPrefix_drop hm hp
    have hsplit : u ++ (g ++ m ++ r) = x ++ (m ++ y) := by simpa using hxy
    obtain ⟨x, rfl, hx⟩ := exists_of_append_eq_append hsplit hle
    rw [← List.append_assoc] at hx
    -- the marker stands behind the part `x` of `g`, but is not nearer than behind `g`
    have hlen := h.le_length x y hx
    rw [byteSize_append, byteSize_append] at hlt
    have hpre : g <+: x :=
      List.prefix_of_prefix_length_le ⟨m ++ r, by simpa using hx⟩ ⟨m ++ y, by simp⟩ hlen
    obtain ⟨z, rfl⟩ := hpre
    rw [byteSize_append] at hlt
    omega
  · refine fun h => ⟨⟨r, rfl⟩, fun x y hx => ?_⟩
    refine Nat.not_lt.1 fun hlen => ?_
    have hpre : x <+: g :=
      List.prefix_of_prefix_length_le ⟨m ++ y, by simpa using hx.symm⟩ ⟨m ++ r, by simp⟩ (by omega)
    obtain ⟨z, rfl⟩ := hpre
    have hz : z ≠ [] := by
      rintro rfl
      simp at hlen
    have hpos := byteSize_pos hz
    refine h (byteSize (u ++ x)) (by simp) (by simpa using hpos) ?_
    have hsplit : u ++ (x ++ z) ++ m ++ r = (u ++ x) ++ (m ++ y) := by
      simpa using hx
    rw [hsplit, drop_utf8, utf8_append]
    exact List.prefix_append ..

theorem isSpan_iff {markers : List Text} {outside inside : Array Bool}
    (hout : Filled (fun i => (ByteTable.outlookAt t i).outsideCode) (byteSize t) 0 outside)
    (hin : Filled (fun i => (ByteTable.outlookAt t i).insideTag) (byteSize t) 0 inside)
    (ht : t = u ++ m ++ g ++ m ++ r) :
    IsSpan markers outside inside t u m g r ↔ (ofMarkers markers).Opens m g r := by
  subst ht
  have hle : byteSize (u ++ m) ≤ byteSize (u ++ m ++ g ++ m ++ r) := by
    simp only [byteSize_append]
    omega
  have hsplit : u ++ m ++ g ++ m ++ r = (u ++ m) ++ (g ++ m ++ r) := by simp
  have hout := hout.get _ (Nat.zero_le _) hle
  have hin := hin.get _ (Nat.zero_le _) hle
  rw [hsplit, ByteTable.outlookAt_append] at hout hin
  have hmay : (Outlook.ofText (g ++ m ++ r)).mayOpen ↔
      outside[byteSize (u ++ m)]? = some true ∧ inside[byteSize (u ++ m)]? = some false := by
    rw [hout, hin]
    simp [Outlook.mayOpen]
  have hne (hfirst : (markers.filter (!·.isEmpty)).find? (·.isPrefixOf (m ++ g ++ m ++ r)) = some m) :
      m ≠ [] :=
    (ofMarkers markers).ne_nil_of_mem m (List.mem_of_find?_eq_some hfirst)
  constructor
  · rintro ⟨-, hfirst, hnearest, hline, hcode, htag⟩
    exact ⟨hfirst, hmay.2 ⟨hcode, htag⟩, (isNearest_iff (hne hfirst) (u ++ m)).2 hnearest,
      by simpa using hline⟩
  · rintro ⟨hfirst, hopen, hnearest, hline⟩
    exact ⟨rfl, hfirst, (isNearest_iff (hne hfirst) (u ++ m)).1 hnearest, by simpa using hline,
      (hmay.1 hopen).1, (hmay.1 hopen).2⟩

/-- Whatever the markers are, the scan of the bytes of a text does not fail, if the machine has a
number that is larger than every offset. What it finds

* are spans that are not empty and follow each other without overlaps;
* each of them is a marker, what it encloses and the marker again, as `IsSpan` says, and can be cut
  from the text;
* at a place of the text that is in none of them there is no such span;
* they are the matches that the delimiter has in the text. -/
theorem spans_leftmost (markers : List Text) (t : Text) (largest : Nat)
    (hlargest : byteSize t < largest) :
    ∃ outside inside spans, ByteTable.outsideCode (utf8 t) = some outside ∧
      ByteTable.insideTag t = some inside ∧
      (ofMarkers markers).spans largest t = some spans ∧
      (∀ s ∈ spans, s.start < s.stop) ∧
      spans.toList.Pairwise (fun s s' => s.stop ≤ s'.start) ∧
      (∀ s ∈ spans, ∃ u m g r, IsSpan markers outside inside t u m g r ∧ s = .behind u m g ∧
        s.match? t = some ⟨m ++ g ++ m, [some m, some g]⟩) ∧
      (∀ u v, t = u ++ v → (∀ s ∈ spans, byteSize u < s.start ∨ s.stop ≤ byteSize u) →
        ∀ m g r, v = m ++ g ++ m ++ r → ¬ IsSpan markers outside inside t u m g r) ∧
      spans.toList.map (fun s => (s.match? t).map (s.start, ·)) =
        ((Pattern.delimiter (.ofMarkers markers)).matches t).map some := by
  obtain ⟨outside, houtside, hout⟩ := ByteTable.exists_outsideCode t
  obtain ⟨inside, hinside, hin⟩ := ByteTable.exists_insideTag t
  obtain ⟨spans, hspans, hscan⟩ := exists_spans (ofMarkers markers) hlargest
  refine ⟨outside, inside, spans, houtside, hinside, hspans,
    fun s hs => hscan.start_lt_stop s (Array.mem_toList_iff.2 hs), hscan.pairwise,
    fun s hs => ?_, fun u v ht hnot m g r hv hspan => ?_, ?_⟩
  · obtain ⟨u, m, g, r, ht, hopens, rfl⟩ := hscan.exists_opens s (Array.mem_toList_iff.2 hs)
    rw [List.nil_append] at ht
    exact ⟨u, m, g, r, (isSpan_iff hout hin ht).2 hopens, rfl, ht ▸ ByteSpan.match?_behind u m g r⟩
  · refine hscan.not_opens (x := u) (y := v) ht (fun s hs => ?_) m g r hv
      ((isSpan_iff hout hin hspan.text_eq).1 hspan)
    exact hnot s (Array.mem_toList_iff.1 hs)
  · have hmatches := hscan.matches_eq none
    rw [List.nil_append] at hmatches
    rw [hmatches, Pattern.matches, withOffsets, Pattern.pieces_eq_piecesFrom]
    rfl

/-- Markers that begin each other, behind a character of two bytes. -/
theorem spans_leftmost_overlapping :
    byteSize "é **a*** *b*".toList < 2 ^ 64 - 1 ∧
      ∃ spans, (ofMarkers ["**".toList, [], "*".toList]).spans (2 ^ 64 - 1)
          "é **a*** *b*".toList = some spans ∧
        spans.toList.map (fun s => (s.match? "é **a*** *b*".toList).map (s.start, ·)) =
          [some (3, ⟨"**a**".toList, [some "**".toList, some "a".toList]⟩),
            some (8, ⟨"* *".toList, [some "*".toList, some " ".toList]⟩)] := by
  have hlargest : byteSize "é **a*** *b*".toList < 2 ^ 64 - 1 := by decide
  obtain ⟨-, -, spans, -, -, hspans, -, -, -, -, hmatches⟩ :=
    spans_leftmost ["**".toList, [], "*".toList] "é **a*** *b*".toList _ hlargest
  refine ⟨hlargest, spans, hspans, ?_⟩
  rw [hmatches]
  decide +kernel

end Delimiter

end Markdown
