import Markdown.Proofs.Text.Pieces
import Markdown.Proofs.Vault.NormalForm

/-!
# Reading stored code back

The HTML of a code block can be decoded: every `<br>` is a line feed, and every entity is the character
that it stands for. What comes out is the normal form of the code (`CodeBlock.decode_body`). There is no
doubt about what to decode, since angle brackets and ampersands occur as parts of the marks only
(`CodeBlock.isCodeHtml_body`).
-/

namespace Markdown

open Text

/-- The character in a text that is set part by part is in one of the parts. -/
theorem Text.exists_of_flatMap_eq_append {f : Char → Text} {t u v : Text} {d : Char}
    (h : t.flatMap f = u ++ d :: v) :
    ∃ c p s, f c = p ++ d :: s ∧ p <:+ u ∧ s <+: v := by
  induction t generalizing u with
  | nil => simp at h
  | cons c t ih =>
    rw [List.flatMap_cons] at h
    rcases List.append_eq_append_iff.1 h with ⟨z, rfl, hz⟩ | ⟨z, hz, hv⟩
    · obtain ⟨c', p, s, hc', hp, hs⟩ := ih hz
      exact ⟨c', p, s, hc', hp.trans (List.suffix_append _ z), hs⟩
    · cases z with
      | nil =>
        obtain ⟨c', p, s, hc', hp, hs⟩ := ih (u := []) hv.symm
        exact ⟨c', p, s, hc', List.suffix_nil.1 hp ▸ List.nil_suffix, hs⟩
      | cons a z =>
        obtain ⟨rfl, rfl⟩ := List.cons.inj hv
        exact ⟨c, u, z, hz, List.suffix_rfl, List.prefix_append z _⟩

namespace CodeBlock

/-! ## The marks in stored code -/

/-- HTML of one line in which angle brackets stand in `<br>` only and each ampersand begins one of the
entities. -/
structure IsCodeHtml (t : Text) : Prop where
  lineFeed_notMem : '\n' ∉ t
  quote_notMem : '"' ∉ t
  opening : ∀ u v, t = u ++ '<' :: v → "br>".toList <+: v
  closing : ∀ u v, t = u ++ '>' :: v → "<br".toList <:+ u
  ampersand : ∀ u v, t = u ++ '&' :: v → ∃ e ∈ entities, e.2 <+: '&' :: v

/-- Where a text is cut at a character is one of its places. -/
theorem forall_cut {P : Text → Char → Text → Prop} {t p s : Text} {d : Char}
    (h : ∀ k (hk : k < t.length), P (t.take k) t[k] (t.drop (k + 1))) (ht : t = p ++ d :: s) :
    P p d s := by
  subst ht
  have hdrop : (p ++ d :: s).drop (p.length + 1) = s := by
    rw [List.append_cons, List.drop_left' (by simp)]
  have hcut := h p.length (by simp)
  rw [List.take_left, hdrop, List.getElem_append_right (Nat.le_refl _)] at hcut
  simpa using hcut

/-- How a mark is cut at an angle bracket or an ampersand. -/
theorem escape_eq_append {c d : Char} {p s : Text} (h : escape c = p ++ d :: s) :
    (d = '<' → s = "br>".toList) ∧ (d = '>' → p = "<br".toList) ∧
      (d = '&' → ∃ e ∈ entities, e.2 = d :: s) := by
  rcases escape_cases c with hmem | ⟨hself, hne⟩
  · exact forall_cut (P := fun p d s => (d = '<' → s = "br>".toList) ∧ (d = '>' → p = "<br".toList) ∧
      (d = '&' → ∃ e ∈ entities, e.2 = d :: s)) ((by decide : ∀ e ∈ marks, ∀ k (hk : k < e.2.length),
        (e.2[k] = '<' → e.2.drop (k + 1) = "br>".toList) ∧
          (e.2[k] = '>' → e.2.take k = "<br".toList) ∧
          (e.2[k] = '&' → ∃ e' ∈ entities, e'.2 = e.2[k] :: e.2.drop (k + 1))) _ hmem) h
  · rw [hself] at h
    obtain ⟨-, rfl, -⟩ : p = [] ∧ c = d ∧ s = [] := by
      cases p with
      | nil => simpa [eq_comm] using h
      | cons a p => simp at h
    have hmarkup (d : Char) (w : Text) (hd : (d, w) ∈ marks) : c ≠ d := hne _ hd
    exact ⟨fun hd => absurd hd (hmarkup '<' "&lt;".toList (by decide)),
      fun hd => absurd hd (hmarkup '>' "&gt;".toList (by decide)),
      fun hd => absurd hd (hmarkup '&' "&amp;".toList (by decide))⟩

theorem isCodeHtml_body (raw : Text) : IsCodeHtml (body raw) where
  lineFeed_notMem := lineFeed_notMem_body raw
  quote_notMem := by
    rw [body_eq, List.mem_flatMap]
    rintro ⟨c, -, hc⟩
    rcases escape_cases c with hmem | ⟨hself, hne⟩
    · exact (by decide : ∀ e ∈ marks, '"' ∉ e.2) _ hmem hc
    · rw [hself, List.mem_singleton] at hc
      exact hne ('"', "&quot;".toList) (by decide) hc.symm
  opening u v h := by
    rw [body_eq] at h
    obtain ⟨c, p, s, hc, -, hs⟩ := exists_of_flatMap_eq_append h
    exact (escape_eq_append hc).1 rfl ▸ hs
  closing u v h := by
    rw [body_eq] at h
    obtain ⟨c, p, s, hc, hp, -⟩ := exists_of_flatMap_eq_append h
    exact (escape_eq_append hc).2.1 rfl ▸ hp
  ampersand u v h := by
    rw [body_eq] at h
    obtain ⟨c, p, s, hc, -, hs⟩ := exists_of_flatMap_eq_append h
    obtain ⟨e, he, heq⟩ := (escape_eq_append hc).2.2 rfl
    exact ⟨e, he, heq ▸ List.cons_prefix_cons.2 ⟨rfl, hs⟩⟩

/-! ## Decoding -/

/-- Finds the entities of a text. -/
def entityAt : Finder Char Char := fun c =>
  (entities.find? (·.2.isPrefixOf c.rest)).map fun e => (e.2.length, e.1)

/-- The text with the characters for which its entities stand, in one pass from left to right. -/
def decodeEntities (t : Text) : Text :=
  (scan entityAt t).map fun
    | .kept c => c
    | .found _ c => c

/-- The text for which stored HTML stands: each `<br>` is a line feed, and the entities are
characters. -/
def decode (html : Text) : Text :=
  decodeEntities (html.replace lineBreak ['\n'])

theorem isProper_entityAt : (entityAt : Finder Char Char).IsProper := by
  intro b l n v h
  simp only [entityAt, Cursor.rest_of, Option.map_eq_some_iff] at h
  obtain ⟨e, he, heq⟩ := h
  obtain ⟨rfl, rfl⟩ := Prod.mk.inj heq
  have hmem := List.mem_of_find?_eq_some he
  have hprefix : e.2.isPrefixOf l := List.find?_some (p := fun e : Char × Text => e.2.isPrefixOf l) he
  have hprefix := List.isPrefixOf_iff_prefix.1 hprefix
  exact ⟨(by decide : ∀ e ∈ entities, 0 < e.2.length) e hmem, hprefix.length_le⟩

theorem entityAt_append {c : Char} {w : Text} (h : (c, w) ∈ entities) (b : Option Char) (r : Text) :
    entityAt (.of b (w ++ r)) = some (w.length, c) := by
  simp only [entities, List.mem_cons, List.not_mem_nil, or_false, Prod.mk.injEq] at h
  rcases h with ⟨rfl, rfl⟩ | ⟨rfl, rfl⟩ | ⟨rfl, rfl⟩ | ⟨rfl, rfl⟩ <;>
    simp [entityAt, entities, List.isPrefixOf]

theorem entityAt_eq_none {c : Char} (h : c ≠ '&') (b : Option Char) (r : Text) :
    entityAt (.of b (c :: r)) = none := by
  simp [entityAt, entities, List.isPrefixOf, h.symm]

theorem decodeEntities_flatMap (t : Text) : decodeEntities (t.flatMap encode) = t := by
  have hp := isProper_entityAt
  have hpieces (b : Option Char) : (piecesFrom entityAt b (t.flatMap encode)).map
      (fun | .kept c => c | .found _ c => c) = t := by
    induction t generalizing b with
    | nil => rw [List.flatMap_nil, hp.piecesFrom_nil, List.map_nil]
    | cons c t ih =>
      rw [List.flatMap_cons]
      rcases encode_cases c with h | ⟨h, hne⟩
      · rw [hp.piecesFrom_append (entityAt_append h b _), List.map_cons, ih]
      · have hamp : c ≠ '&' := hne _ List.mem_cons_self
        rw [h, List.singleton_append, hp.piecesFrom_cons (entityAt_eq_none hamp b _), List.map_cons, ih]
  exact hpieces none

/-- Decoding the HTML of code gives its normal form. -/
theorem decode_body (raw : Text) : decode (body raw) = normalize raw := by
  have hbreaks : Text.replace ((normalize raw).flatMap escape) lineBreak ['\n'] =
      (normalize raw).flatMap encode := by
    refine replace_flatMap (by decide) ['\n'] fun c _ => ?_
    by_cases hc : c = '\n'
    · subst hc
      exact .inl ⟨rfl, rfl⟩
    · refine .inr ⟨(escape_of_ne hc).symm, fun x d y r hxy hprefix => ?_⟩
      have hangle : '<' = d := (List.cons_prefix_cons.1 hprefix).1
      rw [escape_of_ne hc, ← hangle] at hxy
      exact (angle_notMem_encode c).1 (by simp [hxy])
  rw [decode, body_eq, hbreaks, decodeEntities_flatMap]

end CodeBlock

namespace Vault

/-- The vault stores code between the tags of a code block, as HTML of one line whose marks are `<br>`
and the entities. Decoding gives the code back, with pairs of line feeds made single and the ends
trimmed, first of line feeds and then of the other blanks. -/
theorem stored_code_decodes (v : Vault) (raw : Text) :
    ∃ html, (v.extract raw).2.blocks =
        v.blocks.push ("<pre><code>".toList ++ html ++ "</code></pre>".toList) ∧
      CodeBlock.IsCodeHtml html ∧
      CodeBlock.decode html =
        ((raw.replace ['\n', '\n'] ['\n']).trimWhere (· == '\n')).trimWhere
          (· ∈ [' ', '\t', '\r', '\x0c']) := by
  refine ⟨CodeBlock.body raw, rfl, CodeBlock.isCodeHtml_body raw, ?_⟩
  rw [CodeBlock.decode_body, CodeBlock.normalize]

end Vault

end Markdown
