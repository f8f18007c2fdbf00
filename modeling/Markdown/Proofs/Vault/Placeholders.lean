import Mathlib.Data.List.Basic
import Markdown.Proofs.Reinsertion

/-!
# What placeholders stand for

The blocks of a vault have the numbers in which their code came, and none of them changes when more
code comes (`Vault.reinsert_extractAll_of_lt`). In a document that is put together of placeholders and
of texts without opening braces, the last rule finds exactly those placeholders:

1. a token of the document is one of them (`exists_of_token_infix_parked`), so that all tokens have
   blocks and nothing is reported;
2. in the texts nothing is found, but the tag of a paragraph goes with a placeholder if both tags are
   directly around it (`Pattern.rewriteFrom_parked`).
-/

namespace Markdown

open Text

namespace Vault

/-! ## Filling a vault -/

/-- Keep the blocks of some codes, one after the other; the answers are their placeholders. -/
def extractAll (v : Vault) : List Text → List Text × Vault
  | [] => ([], v)
  | raw :: raws =>
    let (answer, v') := v.extract raw
    let (answers, v'') := extractAll v' raws
    (answer :: answers, v'')

variable (v : Vault) (raws : List Text)

theorem extractAll_cons (raw : Text) : v.extractAll (raw :: raws) =
    (placeholder v.size :: ((v.extract raw).2.extractAll raws).1,
      ((v.extract raw).2.extractAll raws).2) := rfl

theorem answers_extractAll :
    (v.extractAll raws).1 = (List.range' v.size raws.length).map placeholder := by
  induction raws generalizing v with
  | nil => rfl
  | cons raw raws ih =>
    rw [extractAll_cons, ih, size_extract, List.length_cons, List.range'_succ, List.map_cons]

theorem extractAll_eq_append :
    (v.extractAll raws).2 = v.append (raws.map CodeBlock.render) := by
  induction raws generalizing v with
  | nil => simp [extractAll, append]
  | cons raw raws ih =>
    rw [extractAll_cons, ih]
    simp [extract, append]

variable {v} in
/-- More code changes no block. -/
theorem reinsert_extractAll_of_lt {i : Nat} (h : i < v.size) :
    (v.extractAll raws).2.reinsert i = v.reinsert i := by
  induction raws generalizing v with
  | nil => rfl
  | cons raw raws ih =>
    have hlt : i < (v.extract raw).2.size := by
      rw [size_extract]
      exact Nat.lt_succ_of_lt h
    rw [extractAll_cons, ih hlt, reinsert_extract_of_lt h]

variable {raws} in
theorem reinsert_extractAll {i : Nat} (h : i < raws.length) :
    (v.extractAll raws).2.reinsert (v.size + i) = .ok (CodeBlock.render raws[i]) := by
  induction raws generalizing v i with
  | nil => exact absurd h (Nat.not_lt_zero i)
  | cons raw raws ih =>
    rw [extractAll_cons]
    cases i with
    | zero =>
      rw [Nat.add_zero, reinsert_extractAll_of_lt _ (by simp), reinsert_extract]
      rfl
    | succ i =>
      have hnumber : v.size + (i + 1) = (v.extract raw).2.size + i := by
        rw [size_extract]
        omega
      rw [hnumber, ih _ (Nat.lt_of_succ_lt_succ h)]
      rfl

end Vault

/-! ## Documents with placeholders -/

/-- A text, and behind it the placeholders with the texts that follow them. -/
def parked {k : Nat} (w : Text) (parts : List (Fin k × Text)) : Text :=
  w ++ parts.flatMap fun p => placeholder p.1 ++ p.2

/-- Such a document with the blocks of the code in the place of the placeholders. The tags of a
paragraph go with a placeholder that is alone in it. -/
def restored (raws : List Text) (w : Text) : List (Fin raws.length × Text) → Text
  | [] => w
  | (i, w') :: parts =>
    match "<p>".toList.isSuffixOf? w, "</p>".toList.isPrefixOf? w' with
    | some u, some u' => u ++ CodeBlock.render (raws.get i) ++ restored raws u' parts
    | _, _ => w ++ CodeBlock.render (raws.get i) ++ restored raws w' parts

section Parked

variable {k : Nat} {w : Text} {parts : List (Fin k × Text)}

@[simp] theorem parked_nil (w : Text) : parked w ([] : List (Fin k × Text)) = w :=
  List.append_nil w

theorem parked_cons (w w' : Text) (i : Fin k) (parts : List (Fin k × Text)) :
    parked w ((i, w') :: parts) = w ++ token (Text.ofNat i) ++ parked w' parts := by
  simp [parked, placeholder_eq_token]

theorem parked_append (u w : Text) (parts : List (Fin k × Text)) :
    parked (u ++ w) parts = u ++ parked w parts := by
  simp [parked]

/-- A word without an opening brace that stands at the beginning stands in the first text. -/
theorem isPrefix_of_isPrefix_parked {t : Text} (ht : '\x7b' ∉ t) (h : t <+: parked w parts) :
    t <+: w := by
  cases parts with
  | nil => rwa [parked_nil] at h
  | cons p parts =>
    obtain ⟨l, hl⟩ := h
    rw [parked_cons, List.append_assoc] at hl
    rcases List.append_eq_append_iff.1 hl with ⟨z, rfl, -⟩ | ⟨z, rfl, hz⟩
    · exact List.prefix_append t z
    · cases z with
      | nil => simp
      | cons c z =>
        obtain rfl : '\x7b' = c := (List.cons.inj hz).1
        simp at ht

/-- The tokens of such a document are its placeholders. -/
theorem exists_of_token_infix_parked (hw : '\x7b' ∉ w) (hparts : ∀ p ∈ parts, '\x7b' ∉ p.2)
    {ds : Text} (hds : IsDigits ds) (h : token ds <:+: parked w parts) :
    ∃ p ∈ parts, ds = Text.ofNat p.1 := by
  have hbrace : '\x7b' ∈ token ds := by simp [token]
  rw [← occurrences_pos_iff (isDurable_token hds).ne_nil] at h
  induction parts generalizing w with
  | nil =>
    rw [parked_nil, occurrences_eq_zero_of_notMem hbrace hw] at h
    exact absurd h (Nat.lt_irrefl 0)
  | cons p parts ih =>
    obtain ⟨i, w'⟩ := p
    have hdigits := isDigits_ofNat i
    rw [parked_cons, isClosed_token hds hdigits, occurrences_eq_zero_of_notMem hbrace hw,
      occurrences_token hds hdigits, Nat.zero_add] at h
    by_cases heq : ds = Text.ofNat i
    · exact ⟨(i, w'), by simp, heq⟩
    · rw [if_neg heq, Nat.zero_add] at h
      obtain ⟨p, hp, hp'⟩ := ih (hparts (i, w') (by simp)) (fun p hp => hparts p (by simp [hp])) h
      exact ⟨p, by simp [hp], hp'⟩

end Parked

/-! ## The last rule -/

namespace Pattern

variable {w ds r : Text}

/-- A text without braces stays up to a placeholder in a paragraph of its own. -/
theorem rewriteFrom_append_wrappedToken (ρ : Match → Text) (b : Option Char) (hw : '\x7b' ∉ w)
    (hds : IsDigits ds) : placeholder.rewriteFrom ρ b (w ++ (wrappedToken ds ++ r)) =
      w ++ (ρ ⟨wrappedToken ds, [some ds, none]⟩ ++
        placeholder.rewriteFrom ρ (lastOr (lastOr b w) (wrappedToken ds)) r) := by
  rw [rewriteFrom_stretch isProper_placeholder ρ w,
    rewriteFrom_append isProper_placeholder ρ (finder_placeholder_wrappedToken hds _ _)]
  rintro x c y rfl
  have hfront : '\x7b' ∉ c :: y ++ "<p>".toList := fun hc =>
    (List.mem_append.1 hc).elim (fun hc => hw (List.mem_append_right x hc)) (by decide)
  have hnone (r : Text) := finder_placeholder_eq_none (r := r) (lastOr b x) hfront (by simp) hds
    fun hy => absurd (congrArg List.length hy) (by simp)
  simpa only [wrappedToken, List.append_assoc] using hnone _

/-- A text without braces stays up to a placeholder that has not both tags of a paragraph around
it. -/
theorem rewriteFrom_append_token (ρ : Match → Text) (b : Option Char) (hw : '\x7b' ∉ w)
    (hds : IsDigits ds) (hnot : "<p>".toList <:+ w → ¬ "</p>".toList <+: r) :
    placeholder.rewriteFrom ρ b (w ++ (token ds ++ r)) =
      w ++ (ρ ⟨token ds, [none, some ds]⟩ ++
        placeholder.rewriteFrom ρ (lastOr (lastOr b w) (token ds)) r) := by
  rw [rewriteFrom_stretch isProper_placeholder ρ w,
    rewriteFrom_append isProper_placeholder ρ (finder_placeholder_token hds _ _)]
  rintro x c y rfl
  exact finder_placeholder_eq_none _ (fun hc => hw (List.mem_append_right x hc)) (by simp) hds
    fun hy => hnot ⟨x, by rw [← hy]⟩

end Pattern

section Restored

variable {raws : List Text} {w : Text} {parts : List (Fin raws.length × Text)}

/-- If the blocks take the places of the matches, such a document is restored. -/
theorem Pattern.rewriteFrom_parked {ρ : Match → Text} (hw : '\x7b' ∉ w)
    (hparts : ∀ p ∈ parts, '\x7b' ∉ p.2)
    (hρ : ∀ p ∈ parts, ∀ m : Match, m.groups = [some (Text.ofNat p.1), none] ∨
      m.groups = [none, some (Text.ofNat p.1)] → ρ m = CodeBlock.render (raws.get p.1))
    (b : Option Char) : placeholder.rewriteFrom ρ b (parked w parts) = restored raws w parts := by
  induction parts generalizing w b with
  | nil =>
    rw [parked_nil, restored]
    refine rewriteFrom_eq_self isProper_placeholder ρ fun x c y hxy => ?_
    exact finder_placeholder_eq_none_of_notMem _ fun hc => hw (hxy ▸ List.mem_append_right x hc)
  | cons p parts ih =>
    obtain ⟨i, w'⟩ := p
    have hdigits := isDigits_ofNat i
    have hw' : '\x7b' ∉ w' := hparts (i, w') (by simp)
    have ih {w : Text} (hw : '\x7b' ∉ w) := ih hw (fun p hp => hparts p (by simp [hp]))
      fun p hp => hρ p (by simp [hp])
    have hblock := hρ (i, w') (by simp)
    rw [restored]
    split
    · rename_i u u' hu hu'
      obtain rfl := List.isSuffixOf?_eq_some_iff_append_eq.1 hu
      obtain rfl := List.isPrefixOf?_eq_some_iff_append_eq.1 hu'
      have hsplit : parked (u ++ "<p>".toList) ((i, "</p>".toList ++ u') :: parts) =
          u ++ (wrappedToken (Text.ofNat i) ++ parked u' parts) := by
        rw [parked_cons, parked_append, wrappedToken]
        simp only [List.append_assoc]
      have hu : '\x7b' ∉ u := fun hc => hw (List.mem_append_left _ hc)
      have hu' : '\x7b' ∉ u' := fun hc => hw' (List.mem_append_right _ hc)
      rw [hsplit, rewriteFrom_append_wrappedToken ρ b hu hdigits, hblock _ (.inl rfl), ih hu',
        List.append_assoc]
    · rename_i hnot
      have hbare : "<p>".toList <:+ w → ¬ "</p>".toList <+: parked w' parts := by
        rintro ⟨u, rfl⟩ hp
        obtain ⟨u', rfl⟩ := isPrefix_of_isPrefix_parked (by decide) hp
        exact hnot u u' (List.isSuffixOf?_eq_some_iff_append_eq.2 rfl)
          (List.isPrefixOf?_eq_some_iff_append_eq.2 rfl)
      rw [parked_cons, List.append_assoc, rewriteFrom_append_token ρ b hw hdigits hbare,
        hblock _ (.inr rfl), ih hw', List.append_assoc]

/-- The last rule restores such a document and changes nothing else but the log. -/
theorem Table.apply_reinsertion_parked {cx : Context}
    (hblocks : cx.vault = Vault.empty.append (raws.map CodeBlock.render)) (hw : '\x7b' ∉ w)
    (hparts : ∀ p ∈ parts, (p.1 : Nat) < indexBound ∧ '\x7b' ∉ p.2) :
    (reinsertion.apply (parked w parts) cx).1 = restored raws w parts ∧
      (reinsertion.apply (parked w parts) cx).2.quiet = cx.quiet := by
  have hbraces (p) (hp : p ∈ parts) : '\x7b' ∉ p.2 := (hparts p hp).2
  have hsize : cx.vault.size = raws.length := by simp [hblocks, Vault.append, Vault.empty, Vault.size]
  have hindex (i : Fin raws.length) : i < cx.vault.size := by
    rw [hsize]
    exact i.isLt
  have htokens (ds : Text) (hds : IsDigits ds) (hin : token ds <:+: parked w parts) :
      ∃ i < cx.vault.size, i < indexBound ∧ ds = Text.ofNat i := by
    obtain ⟨p, hp, rfl⟩ := exists_of_token_infix_parked hw hbraces hds hin
    exact ⟨p.1, hindex p.1, (hparts p hp).1, rfl⟩
  obtain ⟨htext, hquiet⟩ := apply_reinsertion_of_forall htokens
  refine ⟨?_, hquiet⟩
  rw [htext]
  refine Pattern.rewriteFrom_parked hw hbraces (fun p hp m hm => ?_) none
  rw [Handler.reinsertCodeBlock_of_lt (hindex p.1) (hparts p hp).1 hm]
  simp [hblocks, Vault.append, Vault.empty]

end Restored

/-- Code that is kept in a new vault gets different placeholders, with the numbers from 0 on, and
later code does not change its blocks. The last standard rule puts the blocks in the place of the
placeholders, wherever and how often these stand, and changes neither the warnings nor the vault. The
numbers have to fit into 64 bits. -/
theorem Vault.placeholders_restored (raws : List Text) :
    (empty.extractAll raws).1 = (List.range raws.length).map placeholder ∧
    (empty.extractAll raws).1.Nodup ∧
    (∀ (later : List Text) (i : Fin raws.length),
      ((empty.extractAll raws).2.extractAll later).2.reinsert i =
        .ok (CodeBlock.render (raws.get i))) ∧
    ∀ (o : Options) (cx : Context) (w : Text) (parts : List (Fin raws.length × Text)),
      cx.vault = (empty.extractAll raws).2 → '\x7b' ∉ w →
      (∀ p ∈ parts, (p.1 : Nat) < indexBound ∧ '\x7b' ∉ p.2) →
      ∃ rule, (Table.standard o).getLast? = some rule ∧
        (rule.apply (parked w parts) cx).1 = restored raws w parts ∧
        (rule.apply (parked w parts) cx).2.warnings = cx.warnings ∧
        (rule.apply (parked w parts) cx).2.vault = cx.vault := by
  have hanswers : (empty.extractAll raws).1 = (List.range raws.length).map placeholder := by
    rw [answers_extractAll, size_empty, List.range_eq_range']
  refine ⟨hanswers, ?_, fun later i => ?_, fun o cx w parts hvault hw hparts => ?_⟩
  · rw [hanswers]
    exact List.Pairwise.map placeholder (fun _ _ hne heq => hne (placeholder_inj heq)) List.nodup_range
  · have hlt : (i : Nat) < (empty.extractAll raws).2.size := by
      rw [extractAll_eq_append]
      simp [append, empty, size]
    have hblock := empty.reinsert_extractAll i.isLt
    rw [size_empty, Nat.zero_add] at hblock
    rw [reinsert_extractAll_of_lt later hlt, hblock]
    rfl
  · rw [extractAll_eq_append] at hvault
    obtain ⟨htext, hquiet⟩ := Table.apply_reinsertion_parked hvault hw hparts
    refine ⟨Table.reinsertion, List.getLast?_concat, htext, ?_, ?_⟩
    · rw [← Context.warnings_quiet, hquiet, Context.warnings_quiet]
    · rw [← Context.vault_quiet, hquiet, Context.vault_quiet]

/-- Two blocks, one of them used twice, in a whole paragraph and at the end of one. -/
theorem Vault.placeholders_restored_of_two_blocks :
    ∃ rule, (Table.standard {}).getLast? = some rule ∧
      (rule.apply ("<p>\x7b\x7b\x7b1\x7d\x7d\x7d</p>\x7b\x7b\x7b0\x7d\x7d\x7d1\x7d" ++
          "\x7b\x7b\x7b1\x7d\x7d\x7d</p>").toList
        { vault := (empty.extractAll ["a<".toList, "b".toList]).2 }).1 =
        ("<pre><code>b</code></pre><pre><code>a&lt;</code></pre>1\x7d" ++
          "<pre><code>b</code></pre></p>").toList := by
  obtain ⟨-, -, -, hrestored⟩ := placeholders_restored ["a<".toList, "b".toList]
  obtain ⟨rule, hlast, htext, -, -⟩ := hrestored {}
    { vault := (empty.extractAll ["a<".toList, "b".toList]).2 } "<p>".toList
    [(⟨1, by decide⟩, "</p>".toList), (⟨0, by decide⟩, "1\x7d".toList),
      (⟨1, by decide⟩, "</p>".toList)]
    rfl (by decide) (by decide +kernel)
  have hblocks : restored ["a<".toList, "b".toList] "<p>".toList
      [(⟨1, by decide⟩, "</p>".toList), (⟨0, by decide⟩, "1\x7d".toList),
        (⟨1, by decide⟩, "</p>".toList)] =
      ("<pre><code>b</code></pre><pre><code>a&lt;</code></pre>1\x7d" ++
        "<pre><code>b</code></pre></p>").toList := by
    decide +kernel
  exact ⟨rule, hlast, htext.trans hblocks⟩

end Markdown
