import Markdown.Proofs.Bytes.Markers

/-!
# The scan of a delimiter

The scan of the bytes takes each place of the text in turn and reads from the tables whether a span
opens there. All that it reads is there, and the answer is the one that the text gives
(`Delimiter.exists_spanAt`): the first marker that stands at the place decides, the guards are asked
behind it, and the span reaches to the nearest place of the marker on the line. So the scan succeeds,
and it goes on behind each span that it finds and behind each character at which none opens
(`Delimiter.exists_spans`).
-/

namespace Markdown

open Text

variable {d : Delimiter} {t u v m g r : Text} {c : Char} {i largest : Nat} {tables : ByteTables}

/-! ## What is known of a text -/

namespace ByteTables

/-- The tables are those of a text and a delimiter. -/
structure IsFor (largest : Nat) (d : Delimiter) (t : Text) (tables : ByteTables) : Prop where
  outsideCode : Filled (fun i => (ByteTable.outlookAt t i).outsideCode) (byteSize t) 0
    tables.outsideCode
  insideTag : Filled (fun i => (ByteTable.outlookAt t i).insideTag) (byteSize t) 0 tables.insideTag
  lineEnds : Filled (fun i => ByteTable.lineEnd i ((utf8 t).drop i)) (byteSize t) 0 tables.lineEnds
  markers : tables.markers.map Prod.fst = d.markers
  nextStarts : ∀ p ∈ tables.markers, Filled
    (fun i => ByteTable.nextStart largest (utf8 p.1) i ((utf8 t).drop i)) (byteSize t) 0 p.2

end ByteTables

namespace Delimiter

theorem exists_tables (largest : Nat) (d : Delimiter) (t : Text) :
    ∃ tables, d.tables largest t = some tables ∧ tables.IsFor largest d t := by
  obtain ⟨outside, hout, houtside⟩ := ByteTable.exists_outsideCode t
  obtain ⟨inside, hin, hinside⟩ := ByteTable.exists_insideTag t
  obtain ⟨ends, hends, hlines⟩ := ByteTable.exists_lineEnds (utf8 t)
  have hmarkers : ∀ ms : List Text, ∃ ps : List (Text × Array Nat),
      (ms.mapM fun m => do return (m, ← ByteTable.nextStarts largest t.utf8 m.utf8)) = some ps ∧
      ps.map Prod.fst = ms ∧ ∀ p ∈ ps, Filled
        (fun i => ByteTable.nextStart largest (utf8 p.1) i ((utf8 t).drop i)) (byteSize t) 0 p.2 := by
    intro ms
    induction ms with
    | nil => exact ⟨[], rfl, rfl, by simp⟩
    | cons m ms ih =>
      obtain ⟨ps, hps, hfst, hfilled⟩ := ih
      obtain ⟨next, hnext, hm⟩ := ByteTable.exists_nextStarts largest (utf8 t) (utf8 m)
      rw [length_utf8] at hm
      refine ⟨(m, next) :: ps, ?_, by rw [List.map_cons, hfst], List.forall_mem_cons.2 ⟨hm, hfilled⟩⟩
      rw [List.mapM_cons, hps, hnext]
      rfl
  obtain ⟨ps, hps, hfst, hfilled⟩ := hmarkers d.markers
  rw [length_utf8] at hlines
  refine ⟨⟨outside, inside, ends, ps⟩, ?_, houtside, hinside, hlines, hfst, hfilled⟩
  rw [tables, hout, hin, hends, hps]
  rfl

/-- The marker that decides at a place of the text. -/
theorem markerAt_eq {ps : List (Text × Array Nat)} (hps : ∀ p ∈ ps, p.1 ≠ [] ∧ Filled
      (fun i => ByteTable.nextStart largest (utf8 p.1) i ((utf8 (u ++ v)).drop i))
      (byteSize (u ++ v)) 0 p.2) (hlargest : byteSize (u ++ v) < largest) :
    markerAt (byteSize u) ps = some (ps.find? fun p => p.1.isPrefixOf v) := by
  induction ps with
  | nil => rfl
  | cons p ps ih =>
    obtain ⟨m, next⟩ := p
    obtain ⟨⟨hm, hnext⟩, hps⟩ := List.forall_mem_cons.1 hps
    have hread := hnext.get (byteSize u) (Nat.zero_le _) (by rw [byteSize_append]; omega)
    rw [drop_utf8] at hread
    have hstands : ByteTable.nextStart largest (utf8 m) (byteSize u) (utf8 v) = byteSize u ↔
        m.isPrefixOf v := by
      rw [List.isPrefixOf_iff_prefix]
      exact ByteTable.nextStart_eq_iff hm (by rwa [← byteSize_append])
    rw [markerAt, hread, List.find?_cons]
    by_cases hpre : m.isPrefixOf v
    · simp [hstands.2 hpre, hpre]
    · simp only [Option.bind_eq_bind, Option.bind_some, if_neg fun h => hpre (hstands.1 h), hpre]
      exact ih hps

/-- What is read from the tables behind the marker of a place. -/
theorem spanAt_of_markerAt {next : Array Nat}
    (h : tables.IsFor largest d (u ++ m ++ v)) (hm : (m, next) ∈ tables.markers)
    (hmarker : markerAt (byteSize u) tables.markers = some (some (m, next))) :
    spanAt largest tables (byteSize u) = some (if (Outlook.ofText v).mayOpen then
      (ByteTable.closeAt? largest m v (byteSize (u ++ m))).map fun close =>
        ⟨byteSize u, byteSize (u ++ m), close, close + byteSize m⟩
      else none) := by
  have hle : byteSize (u ++ m) ≤ byteSize (u ++ m ++ v) := by
    rw [byteSize_append (u ++ m)]
    exact Nat.le_add_right ..
  have hopened : byteSize u + byteSize m = byteSize (u ++ m) := (byteSize_append u m).symm
  have hout := h.outsideCode.get _ (Nat.zero_le _) hle
  have hin := h.insideTag.get _ (Nat.zero_le _) hle
  have hline := h.lineEnds.get _ (Nat.zero_le _) hle
  have hnext := (h.nextStarts _ hm).get _ (Nat.zero_le _) hle
  rw [ByteTable.outlookAt_append] at hout hin
  rw [drop_utf8] at hline hnext
  rw [spanAt, hmarker]
  simp only [Option.bind_eq_bind, Option.bind_some, length_utf8, hopened, hout, hin, hline, hnext,
    ByteTable.closeAt?, Outlook.mayOpen]
  by_cases houtside : (Outlook.ofText v).outsideCode
  · by_cases hinside : (Outlook.ofText v).insideTag
    · simp [houtside, hinside]
    · generalize ByteTable.nextStart largest (utf8 m) (byteSize (u ++ m)) (utf8 v) = close
      generalize ByteTable.lineEnd (byteSize (u ++ m)) (utf8 v) = lineEnd
      generalize byteSize (u ++ m) = opened
      by_cases hsum : close + byteSize m ≤ largest
      · by_cases hstop : lineEnd < close + byteSize m
        · simp [houtside, hinside, checkedAdd, hsum, hstop]
        · simp [houtside, hinside, checkedAdd, hsum, hstop]
      · simp [houtside, hinside, checkedAdd, hsum]
  · simp [houtside]

/-- A span opens in front of a marker, what it encloses, the marker again, and the rest of the
text. -/
structure Opens (d : Delimiter) (m g r : Text) : Prop where
  first : d.markers.find? (·.isPrefixOf (m ++ g ++ m ++ r)) = some m
  mayOpen : (Outlook.ofText (g ++ m ++ r)).mayOpen
  nearest : IsNearest m (g ++ m ++ r) g
  line : '\n' ∉ g ++ m

end Delimiter

/-- The span behind a text that is a marker, what it encloses, and the marker again. -/
def ByteSpan.behind (u m g : Text) : ByteSpan :=
  ⟨byteSize u, byteSize (u ++ m), byteSize (u ++ m ++ g), byteSize (u ++ m ++ g ++ m)⟩

namespace Delimiter

/-- Where a marker stands and is the first one of those that do, its guards and its closing marker
tell whether a span opens, and which. -/
theorem span_eq_some_iff (hfirst : d.markers.find? (·.isPrefixOf (m ++ v)) = some m)
    (hbelow : byteSize (u ++ m) + byteSize v < largest) {s : ByteSpan} :
    (if (Outlook.ofText v).mayOpen then
      (ByteTable.closeAt? largest m v (byteSize (u ++ m))).map fun close =>
        ⟨byteSize u, byteSize (u ++ m), close, close + byteSize m⟩
      else none) = some s ↔
    ∃ m' g r, m ++ v = m' ++ g ++ m' ++ r ∧ d.Opens m' g r ∧ s = .behind u m' g := by
  have hne : m ≠ [] := d.ne_nil_of_mem m (List.mem_of_find?_eq_some hfirst)
  have hbehind (g : Text) : ByteSpan.behind u m g = ⟨byteSize u, byteSize (u ++ m),
      byteSize (u ++ m) + byteSize g, byteSize (u ++ m) + byteSize g + byteSize m⟩ := by
    rw [ByteSpan.behind, byteSize_append (u ++ m ++ g), byteSize_append (u ++ m)]
  constructor
  · intro hs
    split_ifs at hs with hmay
    obtain ⟨close, hclose, rfl⟩ := Option.map_eq_some_iff.1 hs
    obtain ⟨g, hnearest, hlf, rfl⟩ := (ByteTable.closeAt?_eq_some_iff hne hbelow).1 hclose
    obtain ⟨r, rfl⟩ := hnearest.exists_eq
    refine ⟨m, g, r, by simp, ⟨?_, hmay, hnearest, hlf⟩, (hbehind g).symm⟩
    rwa [List.append_assoc, List.append_assoc, ← List.append_assoc g]
  · rintro ⟨m', g, r, heq, hopens, rfl⟩
    have hsame : d.markers.find? (·.isPrefixOf (m ++ v)) = some m' := heq ▸ hopens.first
    obtain rfl : m = m' := Option.some.inj (hfirst.symm.trans hsame)
    obtain rfl : v = g ++ m ++ r := by
      rw [List.append_assoc, List.append_assoc] at heq
      rw [List.append_assoc]
      exact List.append_cancel_left heq
    have hclose := (ByteTable.closeAt?_eq_some_iff hne hbelow).2
      ⟨g, hopens.nearest, hopens.line, rfl⟩
    rw [if_pos hopens.mayOpen, hclose, hbehind]
    rfl

/-- At a place of the text, the tables tell whether a span opens there, and which. -/
theorem exists_spanAt (h : tables.IsFor largest d (u ++ v)) (hlargest : byteSize (u ++ v) < largest) :
    ∃ found, spanAt largest tables (byteSize u) = some found ∧
      ∀ s, found = some s ↔ ∃ m g r, v = m ++ g ++ m ++ r ∧ d.Opens m g r ∧ s = .behind u m g := by
  have hmarkers : ∀ p ∈ tables.markers, p.1 ≠ [] ∧ Filled
      (fun i => ByteTable.nextStart largest (utf8 p.1) i ((utf8 (u ++ v)).drop i))
      (byteSize (u ++ v)) 0 p.2 := by
    intro p hp
    refine ⟨d.ne_nil_of_mem p.1 ?_, h.nextStarts p hp⟩
    rw [← h.markers]
    exact List.mem_map_of_mem hp
  have hmarker := markerAt_eq hmarkers hlargest
  have hfirst : d.markers.find? (·.isPrefixOf v) =
      (tables.markers.find? (·.1.isPrefixOf v)).map Prod.fst := by
    rw [← h.markers, List.find?_map]
    rfl
  cases hfind : tables.markers.find? (·.1.isPrefixOf v) with
  | none =>
    rw [hfind] at hmarker hfirst
    refine ⟨none, by rw [spanAt, hmarker]; rfl, fun s => iff_of_false (by simp) ?_⟩
    rintro ⟨m, g, r, rfl, hopens, -⟩
    exact absurd (hfirst.symm.trans hopens.first) (by simp)
  | some p =>
    obtain ⟨m, next⟩ := p
    rw [hfind] at hmarker hfirst
    have hpre : m.isPrefixOf v :=
      List.find?_some (p := fun p : Text × Array Nat => p.1.isPrefixOf v) hfind
    obtain ⟨w, rfl⟩ := List.isPrefixOf_iff_prefix.1 hpre
    rw [← List.append_assoc] at h hlargest
    rw [byteSize_append] at hlargest
    exact ⟨_, spanAt_of_markerAt h (List.mem_of_find?_eq_some hfind) hmarker, fun _ =>
      span_eq_some_iff hfirst hlargest⟩

/-! ## The scan -/

/-- The spans of what stands behind a text are those of a scan from left to right that takes each
place in turn and goes on behind a span. -/
inductive IsScan (d : Delimiter) : (u v : Text) → List ByteSpan → Prop
  | nil (u : Text) : IsScan d u [] []
  | kept {u : Text} {c : Char} {v : Text} {spans : List ByteSpan}
      (hnot : ∀ m g r, c :: v = m ++ g ++ m ++ r → ¬ d.Opens m g r)
      (hscan : IsScan d (u ++ [c]) v spans) : IsScan d u (c :: v) spans
  | found {u m g r : Text} {spans : List ByteSpan} (hopens : d.Opens m g r)
      (hscan : IsScan d (u ++ m ++ g ++ m) r spans) :
      IsScan d u (m ++ g ++ m ++ r) (.behind u m g :: spans)

theorem Opens.ne_nil (h : d.Opens m g r) : m ≠ [] :=
  d.ne_nil_of_mem m (List.mem_of_find?_eq_some h.first)

theorem Opens.start_lt_stop (h : d.Opens m g r) (u : Text) :
    (ByteSpan.behind u m g).start < (ByteSpan.behind u m g).stop := by
  have hpos := byteSize_pos h.ne_nil
  simp only [ByteSpan.behind, byteSize_append]
  omega

/-- Offsets inside of a character are passed over. -/
theorem spansFrom_inside (largest : Nat) (tables : ByteTables) (v : Text) (hi : byteSize u < i)
    (hle : i ≤ byteSize u + c.utf8Size) (found : Array ByteSpan) :
    spansFrom largest (u ++ c :: v) tables i found =
      spansFrom largest (u ++ c :: v) tables (byteSize u + c.utf8Size) found := by
  induction hn : byteSize u + c.utf8Size - i generalizing i with
  | zero =>
    obtain rfl : i = byteSize u + c.utf8Size := by omega
    rfl
  | succ n ih =>
    have hlt : i < byteSize (u ++ c :: v) := by
      rw [byteSize_append, byteSize_cons]
      omega
    rw [spansFrom, if_pos hlt, from?_eq_none hi (by omega), if_pos Option.isNone_none]
    exact ih (by omega) (by omega) (by omega)

/-- The scan of the bytes from a place of the text on. -/
theorem exists_spansFrom (h : tables.IsFor largest d t) (hlargest : byteSize t < largest)
    (ht : t = u ++ v) (found : Array ByteSpan) :
    ∃ spans, spansFrom largest t tables (byteSize u) found = some (found ++ spans.toArray) ∧
      d.IsScan u v spans := by
  induction hn : v.length using Nat.strongRecOn generalizing u v found with
  | ind n ih =>
    subst ht
    cases v with
    | nil =>
      refine ⟨[], ?_, .nil u⟩
      rw [spansFrom, if_neg (by simp)]
      simp
    | cons c v =>
      have hlt : byteSize u < byteSize (u ++ c :: v) := by
        have := c.utf8Size_pos
        rw [byteSize_append, byteSize_cons]
        omega
      obtain ⟨at?, hspan, hiff⟩ := exists_spanAt h hlargest
      rw [spansFrom, if_pos hlt, from?_append, if_neg (by simp), hspan]
      cases at? with
      | none =>
        have hnot : ∀ m g r, c :: v = m ++ g ++ m ++ r → ¬ d.Opens m g r := fun m g r hv hopens =>
          absurd ((hiff (.behind u m g)).2 ⟨m, g, r, hv, hopens, rfl⟩) (by simp)
        obtain ⟨spans, hspans, hscan⟩ := ih v.length (by simp [← hn]) (u := u ++ [c]) (v := v)
          (by simp) found rfl
        refine ⟨spans, ?_, .kept hnot hscan⟩
        have hnext := spansFrom_inside largest tables v (Nat.lt_succ_self (byteSize u))
          (Nat.add_le_add_left c.utf8Size_pos _) found
        have hsize : byteSize (u ++ [c]) = byteSize u + c.utf8Size := by simp
        rw [← hspans, hsize]
        exact hnext
      | some s =>
        obtain ⟨m, g, r, hv, hopens, rfl⟩ := (hiff s).1 rfl
        have hlen : r.length < n := by
          have hm := List.length_pos_iff.2 hopens.ne_nil
          rw [← hn, hv]
          simp only [List.length_append]
          omega
        obtain ⟨spans, hspans, hscan⟩ := ih r.length hlen (u := u ++ m ++ g ++ m) (v := r)
          (by rw [hv]; simp) (found.push (.behind u m g)) rfl
        refine ⟨.behind u m g :: spans, ?_, hv ▸ .found hopens hscan⟩
        have hpos : byteSize u < (ByteSpan.behind u m g).stop := hopens.start_lt_stop u
        simp only [if_pos hpos]
        change spansFrom largest _ tables (byteSize (u ++ m ++ g ++ m)) _ = _
        rw [hspans]
        simp

/-- The scan succeeds, whatever the text and the markers are. -/
theorem exists_spans (d : Delimiter) (hlargest : byteSize t < largest) :
    ∃ spans, d.spans largest t = some spans ∧ d.IsScan [] t spans.toList := by
  unfold spans
  split_ifs with hempty
  · -- without markers there is no scan, and nothing that it would find
    refine ⟨#[], rfl, ?_⟩
    have hnone : d.markers = [] := List.isEmpty_iff.1 hempty
    have hscan : ∀ u v : Text, d.IsScan u v [] := by
      intro u v
      induction v generalizing u with
      | nil => exact .nil u
      | cons c v ih =>
        refine .kept (fun m g r _ hopens => ?_) (ih (u ++ [c]))
        have hfirst := hopens.first
        rw [hnone] at hfirst
        simp at hfirst
    exact hscan [] t
  · obtain ⟨tables, htables, hfor⟩ := exists_tables largest d t
    obtain ⟨spans, hspans, hscan⟩ := exists_spansFrom hfor hlargest (u := []) (v := t) rfl #[]
    refine ⟨spans.toArray, ?_, by simpa using hscan⟩
    rw [htables]
    simpa using hspans

end Delimiter

end Markdown
