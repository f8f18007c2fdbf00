import Mathlib.Data.Set.List
import Markdown.Proofs.Reinsertion

/-!
# Tokens without a block

The last rule puts the block of each token in its place or leaves the token as it is
(`FoundToken.reinsertCodeBlock_toMatch`). A token that is left is reported if its number is below the
bound of indices; a larger number is not read, and nothing is said about its token
(`Table.leftovers_reported_iff`).
-/

namespace Markdown

open Text

/-! ## Between the matches -/

/-- A word at which a scan always finds something does not stand in a gap. -/
theorem not_infix_of_mem_gapsOf {find : Finder Char (List (Option Text))} (hfind : find.IsProper)
    {w : Text} (hne : w ≠ []) (hw : ∀ b r, find (.of b (w ++ r)) ≠ none) (b : Option Char) (t : Text)
    {gap : Text} (hgap : gap ∈ gapsOf (piecesFrom find b t)) : ¬ w <:+: gap := by
  have hnil : ¬ w <:+: [] := fun h => hne (List.infix_nil.1 h)
  -- the first gap is what the text begins with, so that no word begins there that is kept
  have hall : (∃ g gs, gapsOf (piecesFrom find b t) = g :: gs ∧ g <+: t) ∧
      ∀ g ∈ gapsOf (piecesFrom find b t), ¬ w <:+: g := by
    refine hfind.induction (motive := fun b t =>
      (∃ g gs, gapsOf (piecesFrom find b t) = g :: gs ∧ g <+: t) ∧
        ∀ g ∈ gapsOf (piecesFrom find b t), ¬ w <:+: g) ?_ ?_ ?_ b t
    · intro b
      rw [hfind.piecesFrom_nil, gapsOf]
      exact ⟨⟨[], [], rfl, List.prefix_rfl⟩, by simpa using hnil⟩
    · rintro b c t hf ⟨⟨g, gs, hgs, hg⟩, ih⟩
      rw [hfind.piecesFrom_cons hf, gapsOf, hgs, List.modifyHead_cons]
      rw [hgs, List.forall_mem_cons] at ih
      refine ⟨⟨c :: g, gs, rfl, (List.prefix_cons_inj c).2 hg⟩,
        List.forall_mem_cons.2 ⟨fun hin => ?_, ih.2⟩⟩
      rcases List.infix_cons_iff.1 hin with hp | hin
      · obtain ⟨r, hr⟩ := hp.trans ((List.prefix_cons_inj c).2 hg)
        exact hw b r (hr ▸ hf)
      · exact ih.1 hin
    · rintro b s t v - hf ⟨-, ih⟩
      rw [hfind.piecesFrom_append hf, gapsOf]
      exact ⟨⟨[], _, rfl, List.nil_prefix⟩, List.forall_mem_cons.2 ⟨hnil, ih⟩⟩
  exact hall.2 gap hgap

/-! ## Tokens -/

/-- A token as the last rule finds it: its digits, and whether the tags of a paragraph go with it. -/
structure FoundToken where
  digits : Text
  isDigits : IsDigits digits
  inParagraph : Bool

namespace FoundToken

/-- What stands in the document. -/
def text (k : FoundToken) : Text :=
  if k.inParagraph then Pattern.wrappedToken k.digits else token k.digits

/-- The number of the token; leading zeros are allowed. -/
def number (k : FoundToken) : Nat :=
  decimal k.digits

/-- The block of that number, if there is one. Numbers above the bound of indices have none. -/
def block? (v : Vault) (k : FoundToken) : Option Text :=
  if k.number < indexBound then v.blocks[k.number]? else none

/-- The match of the last rule. -/
def toMatch (k : FoundToken) : Match :=
  ⟨k.text, if k.inParagraph then [some k.digits, none] else [none, some k.digits]⟩

theorem named?_toMatch (k : FoundToken) : Handler.named? k.toMatch =
    if k.number < indexBound then some k.number else none := by
  have hdigits : Handler.digits k.toMatch = k.digits := by
    cases h : k.inParagraph <;> simp [Handler.digits, toMatch, Match.group?, h]
  rw [Handler.named?, hdigits, Handler.placeholderIndex?_of_isDigits k.isDigits, number]

/-- The block of a token takes its place; without one it stays. -/
theorem reinsertCodeBlock_toMatch (k : FoundToken) (cx : Context) :
    (Handler.reinsertCodeBlock k.toMatch cx).1 = (k.block? cx.vault).getD k.text := by
  have hnamed := k.named?_toMatch
  by_cases hbound : k.number < indexBound
  · rw [if_pos hbound] at hnamed
    rw [block?, if_pos hbound]
    by_cases hsize : k.number < cx.vault.size
    · rw [Handler.reinsertCodeBlock_of_named?_lt hnamed hsize, Array.getElem?_eq_getElem hsize]
      rfl
    · have hle := Nat.le_of_not_lt hsize
      rw [Handler.reinsertCodeBlock_of_named?_le hnamed hle, Array.getElem?_eq_none hle]
      rfl
  · rw [if_neg hbound] at hnamed
    rw [Handler.reinsertCodeBlock_of_named?_eq_none hnamed, block?, if_neg hbound]
    rfl

/-- A token that is left is reported if its number can be read. -/
theorem dangling?_toMatch (v : Vault) (k : FoundToken) : Handler.dangling? v.size k.toMatch =
    if (k.block? v).isNone ∧ k.number < indexBound then some k.number else none := by
  rw [Handler.dangling?, named?_toMatch, block?]
  by_cases hbound : k.number < indexBound
  · rw [if_pos hbound, if_pos hbound, Option.filter_some, Vault.size]
    by_cases hsize : v.blocks.size ≤ k.number
    · simp [hbound, hsize]
    · simp [hsize]
  · simp [hbound]

end FoundToken

/-- The matches of the last rule are tokens. -/
theorem exists_foundTokens (d : Text) :
    ∃ tokens : List FoundToken, tokens.map FoundToken.toMatch =
      (Pattern.placeholder.matches d).map (·.2) := by
  refine (Set.range_list_map FoundToken.toMatch).ge fun m hm => ?_
  obtain ⟨⟨n, m⟩, hmem, rfl⟩ := List.mem_map.1 hm
  have hpiece := found_mem_of_mem_matchesFrom 0 _ hmem
  rw [Pattern.pieces_eq_piecesFrom] at hpiece
  obtain ⟨b, r, -, hf⟩ := Pattern.isProper_placeholder.of_found_mem_piecesFrom hpiece
  obtain ⟨ds, hds, ⟨htext, hgroups⟩ | ⟨htext, hgroups⟩⟩ := Pattern.eq_of_finder_placeholder hf
  · refine ⟨⟨ds, hds, true⟩, ?_⟩
    simp [FoundToken.toMatch, FoundToken.text, ← htext, ← hgroups]
  · refine ⟨⟨ds, hds, false⟩, ?_⟩
    simp [FoundToken.toMatch, FoundToken.text, ← htext, ← hgroups]

/-! ## What is reported -/

namespace FoundToken

variable (v : Vault) (tokens : List FoundToken)

theorem filterMap_dangling? : tokens.filterMap (fun k => Handler.dangling? v.size k.toMatch) =
    ((tokens.filter fun k => (k.block? v).isNone).filter fun k => k.number < indexBound).map
      number := by
  rw [List.filter_filter]
  induction tokens with
  | nil => rfl
  | cons k tokens ih =>
    rw [List.filterMap_cons, ih, dangling?_toMatch, List.filter_cons]
    by_cases hbound : k.number < indexBound
    · by_cases hleft : (k.block? v).isNone
      · simp [hbound, hleft]
      · simp [hleft]
    · simp [hbound]

/-- Each token that is left is reported if and only if all numbers can be read. -/
theorem filter_map_number_eq_iff {α : Type} (f : FoundToken → α) :
    ((tokens.filter fun k => (k.block? v).isNone).filter fun k => k.number < indexBound).map f =
      (tokens.filter fun k => (k.block? v).isNone).map f ↔ ∀ k ∈ tokens, k.number < indexBound := by
  constructor
  · intro h k hk
    have hlength := congrArg List.length h
    rw [List.length_map, List.length_map, List.length_filter_eq_length_iff] at hlength
    -- a number that cannot be read has no block
    by_contra hbound
    have hleft : (k.block? v).isNone := by rw [block?, if_neg hbound, Option.isNone_none]
    exact hbound (of_decide_eq_true (hlength k (List.mem_filter.2 ⟨hk, hleft⟩)))
  · intro h
    rw [List.filter_eq_self.2 fun k hk => decide_eq_true (h k (List.mem_filter.1 hk).1)]

end FoundToken

/-! ## The last rule -/

theorem Table.text_apply_reinsertion_eq_interleave (d : Text) (cx : Context) :
    (reinsertion.apply d cx).1 = interleave (gapsOf (Pattern.placeholder.pieces d))
      (((Pattern.placeholder.matches d).map (·.2)).map
        fun m => (Handler.reinsertCodeBlock m cx).1) := by
  rw [Rule.apply_eq_interleave, (replacements_reinsertion (Context.vault_announce ..) _).1,
    List.map_map]
  rfl

/-- The last standard rule finds the tokens of a document, one after another, with the tags of a
paragraph if these are directly around a token; no other token stands in the document. The block of a
token takes its place, and a token without a block stays as it is, with the tags. The vault stays.

The tokens that are left are reported in their order, each with its number, except those whose number
does not fit into 64 bits. So all tokens that are left are reported if and only if no number is too
large. -/
theorem Table.leftovers_reported_iff (o : Options) (d : Text) (cx : Context) :
    ∃ rule, (standard o).getLast? = some rule ∧
      ∃ (gaps : List Text) (tokens : List FoundToken),
        IsCut 0 d gaps (rule.pattern.matches d) ∧
        (rule.pattern.matches d).map (·.2) = tokens.map FoundToken.toMatch ∧
        interleave gaps (tokens.map FoundToken.text) = d ∧
        (∀ gap ∈ gaps, ∀ ds, IsDigits ds → ¬ token ds <:+: gap) ∧
        (rule.apply d cx).1 =
          interleave gaps (tokens.map fun k => (k.block? cx.vault).getD k.text) ∧
        (rule.apply d cx).2.vault = cx.vault ∧
        (rule.apply d cx).2.warnings.toList =
          cx.warnings.toList ++ ((tokens.filter fun k => (k.block? cx.vault).isNone).filter
            fun k => k.number < indexBound).map (fun k => .danglingPlaceholder k.number) ∧
        ((rule.apply d cx).2.warnings.toList =
            cx.warnings.toList ++ (tokens.filter fun k => (k.block? cx.vault).isNone).map
              (fun k => .danglingPlaceholder k.number) ↔
          ∀ k ∈ tokens, k.number < indexBound) := by
  obtain ⟨tokens, htokens⟩ := exists_foundTokens d
  have hcut := Pattern.placeholder.isCut d
  obtain ⟨hvault, hwarnings⟩ := warnings_apply_reinsertion d cx
  have hreported : (reinsertion.apply d cx).2.warnings.toList = cx.warnings.toList ++
      ((tokens.filter fun k => (k.block? cx.vault).isNone).filter fun k => k.number < indexBound).map
        fun k => .danglingPlaceholder k.number := by
    have hindices : danglingIndices cx.vault.size d =
        tokens.filterMap fun k => Handler.dangling? cx.vault.size k.toMatch := by
      have h := congrArg (List.filterMap (Handler.dangling? cx.vault.size)) htokens
      rw [List.filterMap_map, List.filterMap_map] at h
      exact (danglingIndices_eq_filterMap ..).trans h.symm
    rw [hwarnings, hindices, FoundToken.filterMap_dangling?, List.map_map]
    rfl
  refine ⟨reinsertion, List.getLast?_concat, gapsOf (Pattern.placeholder.pieces d), tokens, hcut,
    htokens.symm, ?_, ?_, ?_, hvault, hreported, ?_⟩
  · have hsources : tokens.map FoundToken.text =
        (Pattern.placeholder.matches d).map (·.2.text) := by
      have h := congrArg (List.map Match.text) htokens
      rwa [List.map_map, List.map_map] at h
    rw [hsources]
    exact hcut.interleave_eq
  · intro gap hgap ds hds
    rw [Pattern.pieces_eq_piecesFrom] at hgap
    exact not_infix_of_mem_gapsOf Pattern.isProper_placeholder (isDurable_token hds).ne_nil
      (Pattern.finder_placeholder_ne_none hds) none d hgap
  · simp only [text_apply_reinsertion_eq_interleave, ← htokens, List.map_map,
      ← FoundToken.reinsertCodeBlock_toMatch]
    rfl
  · rw [hreported, List.append_cancel_left_eq]
    exact FoundToken.filter_map_number_eq_iff cx.vault tokens _

/-- The token of the first number that does not fit into 64 bits stays in its text without a warning.
Such a token can also come out of a rendering, and then a rendering with errors gives no error. -/
theorem Table.leftover_silent :
    (∃ rule, (standard {}).getLast? = some rule ∧
      (rule.apply "\x7b\x7b\x7b18446744073709551616\x7d\x7d\x7d".toList {}).1 =
        "\x7b\x7b\x7b18446744073709551616\x7d\x7d\x7d".toList ∧
      (rule.apply "\x7b\x7b\x7b18446744073709551616\x7d\x7d\x7d".toList {}).2.warnings = #[]) ∧
    (Renderer.ofOptions {}).tryRender
        "\x7b\x7b</ul><ul>\x7b18446744073709551616\x7d\x7d\x7d".toList =
      .ok "<p>\x7b\x7b\x7b18446744073709551616\x7d\x7d\x7d</p>".toList := by
  refine ⟨⟨reinsertion, List.getLast?_concat, ?_, ?_⟩, ?_⟩
  · decide +kernel
  · decide +kernel
  · decide +kernel

end Markdown
