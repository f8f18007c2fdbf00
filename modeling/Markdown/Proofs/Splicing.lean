import Markdown.Proofs.Bytes.Spans
import Markdown.Proofs.Cuts
import Markdown.Proofs.Rewriting
import Markdown.Renderer
import Markdown.Rule.Bytes

/-!
# Rules touch nothing but their matches

Cutting a text at the byte offsets of its matches never fails, and what comes out is the text of the
rule: the gaps of the text with the replacements in between (`Rule.splice_eq`). So a rule that puts
each match in its own place leaves every text as it is, and a renderer does not change when such a
rule is appended to its table (`Rule.touches_only_matches`).
-/

namespace Markdown

open Text

/-! ## Cutting in bytes -/

/-- Behind `u`, the cuts of a text are places of the whole. -/
theorem Replacer.spliceFrom_eq (f : Replacer) {n : Nat} {v : Text} {gaps : List Text}
    {ms : List (Nat × Match)} (h : IsCut n v gaps ms) {u : Text} (hu : byteSize u = n) (out : Text)
    (cx : Context) :
    f.spliceFrom (u ++ v) n out ms cx =
      some (out ++ interleave gaps (f.replacements ms cx).1, (f.replacements ms cx).2) := by
  induction h generalizing u out cx with
  | uncut n t =>
    rw [spliceFrom, ← hu, from?_append]
    simp [replacements, interleave]
  | @found n gap m t gaps ms hcut ih =>
    have hgap : between? (u ++ (gap ++ m.text ++ t)) n (n + byteSize gap) = some gap := by
      have hbetween := between?_append u gap (m.text ++ t)
      rw [byteSize_append, hu] at hbetween
      simpa only [List.append_assoc] using hbetween
    have hsplit : u ++ (gap ++ m.text ++ t) = (u ++ gap ++ m.text) ++ t := by
      simp only [List.append_assoc]
    have hoffset : byteSize (u ++ gap ++ m.text) = n + byteSize gap + byteSize m.text := by
      rw [byteSize_append, byteSize_append, hu]
    rw [spliceFrom, hgap, hsplit]
    simp only [Option.bind_eq_bind, Option.bind_some]
    rw [ih hoffset]
    simp [replacements, interleave]

theorem mapM_eq_some_of_map_eq {α β : Type} {f : α → Option β} {l : List α} {m : List β}
    (h : l.map f = m.map some) : l.mapM f = some m := by
  induction l generalizing m with
  | nil =>
    obtain rfl : m = [] := by simpa using h.symm
    rfl
  | cons a l ih =>
    cases m with
    | nil => simp at h
    | cons b m =>
      obtain ⟨ha, hl⟩ := List.cons.inj h
      rw [List.mapM_cons, ha, ih hl]
      rfl

/-- The spans that are found in the bytes are the matches, on a machine with a number for each
offset. -/
theorem Pattern.locate_eq {largest : Nat} {t : Text} (h : byteSize t < largest) (p : Pattern) :
    p.locate largest t = some (p.matches t) := by
  cases p with
  | regex source program groups => rfl
  | delimiter d =>
    obtain ⟨spans, hspans, hscan⟩ := Delimiter.exists_spans d h
    have hmatches : spans.toList.map (fun s => (s.match? t).map (s.start, ·)) =
        ((Pattern.delimiter d).matches t).map some := by
      have hscanned := hscan.matches_eq none
      rw [List.nil_append] at hscanned
      rw [hscanned, Pattern.matches, withOffsets, Pattern.pieces_eq_piecesFrom]
      rfl
    rw [locate, hspans]
    exact mapM_eq_some_of_map_eq hmatches

/-- A text that is cut at the byte offsets of its matches keeps its gaps. -/
theorem Pattern.splice_eq {largest : Nat} {t : Text} (h : byteSize t < largest) (p : Pattern)
    (f : Replacer) (cx : Context) :
    p.splice largest f t cx = some (interleave (gapsOf (p.pieces t))
        (f.replacements (p.matches t) (p.announce (p.matches t) cx)).1,
      (f.replacements (p.matches t) (p.announce (p.matches t) cx)).2) := by
  have hspliced (cx : Context) := f.spliceFrom_eq (p.isCut t) (u := []) rfl [] cx
  rw [splice, locate_eq h]
  simp only [Option.bind_eq_bind, Option.bind_some]
  cases hms : p.matches t with
  | nil =>
    have hcut := (p.isCut t).interleave_eq
    rw [hms] at hcut
    simpa [Replacer.replacements, announce] using hcut.symm
  | cons m ms =>
    have hannounce : p.announce (m :: ms) cx = cx.note (.rewrote p.key (m :: ms).length) := rfl
    rw [List.isEmpty_cons, if_neg Bool.false_ne_true, hannounce, ← hms]
    exact hspliced _

/-! ## Matches that stay -/

namespace Rule

/-- The rule that puts each match of a pattern in its own place. -/
def keeping (p : Pattern) : Rule :=
  ⟨p, .ofTemplate "$0".toList⟩

theorem replacements_keeping (p : Pattern) (ms : List (Nat × Match)) (cx : Context) :
    (keeping p).action.replacer.replacements ms cx = (ms.map (·.2.text), cx) := by
  have hsegments : (Template.mk "$0".toList).segments = [.group 0] := by decide +kernel
  have hmatch (m : Nat × Match) (cx : Context) :
      (keeping p).action.replacer m cx = (m.2.text, cx) := by
    have hexpand : (Template.mk "$0".toList).expand m.2 = m.2.text := by
      rw [Template.expand, hsegments]
      exact List.append_nil m.2.text
    exact congrArg (·, cx) hexpand
  induction ms generalizing cx with
  | nil => rfl
  | cons m ms ih =>
    rw [Replacer.replacements, hmatch]
    simp only
    rw [ih]
    rfl

/-- If the matches stay, so does the text, and only the log tells of them. -/
theorem apply_keeping (p : Pattern) (t : Text) (cx : Context) :
    (keeping p).apply t cx = (t, p.announce (p.matches t) cx) := by
  rw [apply_eq_interleave, replacements_keeping]
  exact Prod.ext (p.isCut t).interleave_eq rfl

end Rule

theorem Context.quiet_announce (p : Pattern) (ms : List (Nat × Match)) (cx : Context) :
    (p.announce ms cx).quiet = cx.quiet := by
  rw [Pattern.announce]
  split <;> rfl

/-- A rule with a new key goes to the end of a table. -/
theorem Table.push_of_notMem {t : Table} {r : Rule} (h : r.key ∉ keys t) :
    t.push r = (t ++ [r], false) := by
  have hnone : t.findIdx? (·.key == r.key) = none := by
    simpa [keys, List.findIdx?_eq_none_iff] using h
  rw [push, hnone]

namespace Renderer

variable {r : Renderer} {p : Pattern}

/-- Behind all other rules, a rule that keeps its matches changes nothing but the log. -/
theorem run_push_keeping (h : p.key ∉ r.table.keys) (t : Text) :
    ((r.push (.keeping p)).1.run t).1 = (r.run t).1 ∧
      ((r.push (.keeping p)).1.run t).2.quiet = (r.run t).2.quiet := by
  have hpush : (r.push (.keeping p)).1 = { r with table := r.table ++ [.keeping p] } := by
    rw [push, Table.push_of_notMem h]
  have hrewritten : (r.push (.keeping p)).1.rewritten t =
      ((r.rewritten t).1, p.announce (p.matches (r.rewritten t).1) (r.rewritten t).2) := by
    rw [hpush, rewritten, Table.apply, List.foldl_append]
    exact Rule.apply_keeping p _ _
  constructor
  · rw [run, run, hrewritten]
  · rw [run, run, hrewritten, Context.quiet_note, Context.quiet_note]
    exact Context.quiet_announce ..

/-- So HTML and warnings stay, and the answer of a rendering with errors. -/
theorem render_push_keeping (h : p.key ∉ r.table.keys) (t : Text) :
    (r.push (.keeping p)).1.render t = r.render t ∧
      (r.push (.keeping p)).1.warnings t = r.warnings t ∧
      (r.push (.keeping p)).1.tryRender t = r.tryRender t := by
  obtain ⟨hhtml, hquiet⟩ := run_push_keeping h t
  have hwarnings := congrArg Context.warnings hquiet
  have hvault := congrArg Context.vault hquiet
  simp only [Context.warnings_quiet, Context.vault_quiet] at hwarnings hvault
  refine ⟨hhtml, ?_, ?_⟩
  · rw [warnings, warnings, hwarnings]
  · rw [tryRender, tryRender]
    simp only [hhtml, hwarnings, hvault]

end Renderer

/-- The matches of a pattern, of either kind, cut a text: they follow each other and leave gaps before,
between and behind them.

* A rule with that pattern gives the same gaps and, in the place of each match, what its action makes
  of it. The action is carried out once for each match, from left to right, in the context that the
  time before has left.
* So does the loop that cuts the text at byte offsets, whatever it puts in. It does not fail, on a
  machine with a number for each offset.
* With each match in its own place, the text stays, and nothing but the log tells of the rule.
* So no document is rendered differently if such a rule is appended to a table, under a new key. -/
theorem Rule.touches_only_matches (p : Pattern) :
    (∀ t, ∃ gaps, IsCut 0 t gaps (p.matches t) ∧
      interleave gaps ((p.matches t).map (·.2.text)) = t ∧
      gaps.length = (p.matches t).length + 1 ∧
      (∀ (a : Action) (cx : Context), (Rule.mk p a).apply t cx =
        (interleave gaps
            (a.replacer.replacements (p.matches t) (p.announce (p.matches t) cx)).1,
          (a.replacer.replacements (p.matches t) (p.announce (p.matches t) cx)).2)) ∧
      ∀ (largest : Nat) (f : Replacer) (cx : Context), byteSize t < largest →
        p.splice largest f t cx =
          some (interleave gaps (f.replacements (p.matches t) (p.announce (p.matches t) cx)).1,
            (f.replacements (p.matches t) (p.announce (p.matches t) cx)).2)) ∧
    (∀ t cx, ((Rule.mk p (.ofTemplate "$0".toList)).apply t cx).1 = t ∧
      ((Rule.mk p (.ofTemplate "$0".toList)).apply t cx).2.quiet = cx.quiet) ∧
    ∀ (r : Renderer), p.key ∉ r.table.keys → ∀ t,
      (r.push ⟨p, .ofTemplate "$0".toList⟩).1.render t = r.render t ∧
      (r.push ⟨p, .ofTemplate "$0".toList⟩).1.warnings t = r.warnings t ∧
      (r.push ⟨p, .ofTemplate "$0".toList⟩).1.tryRender t = r.tryRender t := by
  refine ⟨fun t => ⟨gapsOf (p.pieces t), p.isCut t, (p.isCut t).interleave_eq,
    (p.isCut t).length_gaps, fun a cx => (Rule.mk p a).apply_eq_interleave t cx,
    fun largest f cx h => p.splice_eq h f cx⟩, fun t cx => ?_,
    fun r h t => Renderer.render_push_keeping h t⟩
  have hkept := apply_keeping p t cx
  exact ⟨congrArg Prod.fst hkept,
    (congrArg (Context.quiet ·.2) hkept).trans (Context.quiet_announce p _ cx)⟩

/-- Rows of one character, some of them empty, in a text with a character of two bytes. -/
theorem Rule.touches_only_matches_of_rows :
    let p := Pattern.regex "a*".toList (.run true (.single 'a')) 0
    byteSize "éaab".toList < 2 ^ 64 - 1 ∧
      (∃ gaps, interleave gaps [[], "aa".toList, []] = "éaab".toList ∧
        (p.splice (2 ^ 64 - 1) (fun (n, _) cx => (Text.ofNat n, cx)) "éaab".toList {}).map (·.1) =
          some (interleave gaps ["0".toList, "2".toList, "5".toList])) ∧
      p.key ∉ (Renderer.ofOptions {}).table.keys ∧
      ((Renderer.ofOptions {}).push ⟨p, .ofTemplate "$0".toList⟩).1.render "éaab".toList =
        (Renderer.ofOptions {}).render "éaab".toList := by
  intro p
  have hsize : byteSize "éaab".toList < 2 ^ 64 - 1 := by decide
  have hkey : p.key ∉ (Renderer.ofOptions {}).table.keys := by decide +kernel
  have hmatches : p.matches "éaab".toList = [(0, ⟨[], []⟩), (2, ⟨"aa".toList, []⟩), (5, ⟨[], []⟩)] := by
    decide +kernel
  obtain ⟨hcut, -, hrender⟩ := touches_only_matches p
  obtain ⟨gaps, -, htext, -, -, hsplice⟩ := hcut "éaab".toList
  rw [hmatches] at htext hsplice
  exact ⟨hsize, ⟨gaps, htext, congrArg (Option.map (·.1)) (hsplice _ _ _ hsize)⟩, hkey,
    (hrender _ hkey _).1⟩

end Markdown
