import Markdown.Proofs.Passes

/-!
# The stages of a rendering

The first rule puts placeholders in the place of the fenced code and the blocks into the vault. The
passes of the rules between follow, and the last rule gets their document and that vault
(`Renderer.settled_eq`).
-/

namespace Markdown

/-! ## Extraction -/

/-- The text of some pieces with placeholders for the matches; `n` is the number of the first. -/
def withPlaceholders (n : Nat) : List (Piece Char (List (Option Text))) → Text
  | [] => []
  | .kept c :: ps => c :: withPlaceholders n ps
  | .found .. :: ps => placeholder n ++ withPlaceholders (n + 1) ps

/-- The blocks of the code in some pieces. -/
def codeBlocks : List (Piece Char (List (Option Text))) → List Text
  | [] => []
  | .kept _ :: ps => codeBlocks ps
  | .found taken groups :: ps =>
    CodeBlock.render (Match.group ⟨taken, groups⟩ 1) :: codeBlocks ps

theorem length_codeBlocks (ps : List (Piece Char (List (Option Text)))) :
    (codeBlocks ps).length = ps.countP Piece.isFound := by
  induction ps with
  | nil => rfl
  | cons p ps ih =>
    cases p with
    | kept c => simp [codeBlocks, ih, Piece.isFound]
    | found taken groups => simp [codeBlocks, ih, List.countP_cons, Piece.isFound]

/-- A vault with some blocks behind its own. -/
def Vault.append (v : Vault) (blocks : List Text) : Vault :=
  ⟨v.blocks ++ blocks.toArray⟩

theorem rewriteFrom_codeBlock (ps : List (Piece Char (List (Option Text)))) (cx : Context) :
    Rule.rewriteFrom (.handler Handler.codeBlock) [] ps cx =
      (withPlaceholders cx.vault.size ps, { cx with vault := cx.vault.append (codeBlocks ps) }) := by
  induction ps generalizing cx with
  | nil => simp [Rule.rewriteFrom, withPlaceholders, codeBlocks, Vault.append]
  | cons p ps ih =>
    cases p with
    | kept c =>
      rw [Rule.rewriteFrom, Rule.rewriteFrom_eq, ih]
      rfl
    | found taken groups =>
      simp only [Rule.rewriteFrom, Action.replacement, Handler.codeBlock, List.reverseAux_eq]
      rw [Rule.rewriteFrom_eq, ih, Vault.size_extract]
      simp [withPlaceholders, codeBlocks, Vault.append, Vault.extract]

theorem withPlaceholders_of_countP_eq_zero {ps : List (Piece Char (List (Option Text)))}
    (h : ps.countP Piece.isFound = 0) (n : Nat) :
    withPlaceholders n ps = ps.flatMap Piece.source := by
  induction ps with
  | nil => rfl
  | cons p ps ih =>
    cases p with
    | kept c =>
      rw [withPlaceholders, ih (by simpa [Piece.isFound] using h)]
      rfl
    | found taken groups => simp [Piece.isFound] at h

/-- The first rule writes placeholders and fills the vault. -/
theorem apply_extraction (d : Text) (cx : Context) :
    (Table.extraction.apply d cx).1 =
        withPlaceholders cx.vault.size (Pattern.fencedCode.pieces d) ∧
      (Table.extraction.apply d cx).2.quiet =
        { cx.quiet with vault := cx.vault.append (codeBlocks (Pattern.fencedCode.pieces d)) } := by
  rw [Rule.apply, Rule.rewrite?]
  split
  · rename_i hcount
    have hcount' : (Pattern.fencedCode.pieces d).countP Piece.isFound = 0 := hcount
    have hblocks : codeBlocks (Pattern.fencedCode.pieces d) = [] := by
      rw [← List.length_eq_zero_iff, length_codeBlocks, hcount']
    rw [withPlaceholders_of_countP_eq_zero hcount', Pattern.flatMap_source_pieces, hblocks]
    refine ⟨rfl, ?_⟩
    simp [Vault.append, Context.quiet]
  · have h := rewriteFrom_codeBlock (Pattern.fencedCode.pieces d)
      (cx.note (.rewrote Table.extraction.key ((Pattern.fencedCode.pieces d).countP Piece.isFound)))
    refine ⟨congrArg Prod.fst h, ?_⟩
    rw [show (Table.extraction.action) = .handler Handler.codeBlock from rfl,
      show Table.extraction.pattern = Pattern.fencedCode from rfl, Option.getD_some, h]
    rfl

/-! ## The stages -/

namespace Renderer

variable (o : Options) (t : Text)

/-- The document and the context behind the first rule. -/
def extracted : Text × Context :=
  Table.extraction.apply (Protected.ofText t).document
    ((ofOptions o).begin t (Protected.ofText t))

/-- The document and the context before the last rule. -/
def settled : Text × Context :=
  (Table.beforeReinsertion o).apply (Protected.ofText t).document
    ((ofOptions o).begin t (Protected.ofText t))

theorem rewritten_eq :
    (ofOptions o).rewritten t = Table.reinsertion.apply (settled o t).1 (settled o t).2 := by
  rw [rewritten, settled]
  exact Table.apply_append (Table.beforeReinsertion o) [Table.reinsertion] _ _

theorem render_eq (r : Renderer) :
    r.render t = (Protected.ofText t).release (Text.trim (r.rewritten t).1) := rfl

theorem warnings_eq (r : Renderer) : r.warnings t = (r.rewritten t).2.warnings.toList := rfl

theorem tryRender_of_firstDangling?_eq_none {r : Renderer}
    (h : firstDangling? (r.warnings t) = none) : r.tryRender t = .ok (r.render t) := by
  rw [warnings] at h
  unfold tryRender
  simp only [h]
  rfl

/-- The pieces of the protected document, cut at fenced code. -/
def fencedPieces : List (Piece Char (List (Option Text))) :=
  Pattern.fencedCode.pieces (Protected.ofText t).document

theorem vault_begin : ((ofOptions o).begin t (Protected.ofText t)).vault = .empty := by
  unfold begin
  split <;> split <;> rfl

theorem options_begin : ((ofOptions o).begin t (Protected.ofText t)).options = o := by
  unfold begin
  split <;> split <;> rfl

/-- A context begins with a warning about an unclosed fence, if there is one. -/
theorem warnings_begin : ((ofOptions o).begin t (Protected.ofText t)).warnings.toList =
    ((unclosedFence? t).map Warning.unclosedCodeFence).toList := by
  unfold begin
  split
  all_goals
    rename_i h
    rw [h]
    split <;> rfl

theorem text_extracted : (extracted o t).1 = withPlaceholders 0 (fencedPieces t) := by
  rw [extracted, (apply_extraction _ _).1, vault_begin, Vault.size_empty, fencedPieces]

theorem vault_extracted : (extracted o t).2.vault = ⟨(codeBlocks (fencedPieces t)).toArray⟩ := by
  rw [extracted, ← Context.vault_quiet, (apply_extraction _ _).2, vault_begin, fencedPieces]
  simp [Vault.append, Vault.empty]

theorem size_vault_extracted :
    (extracted o t).2.vault.size = (fencedPieces t).countP Piece.isFound := by
  rw [vault_extracted, ← length_codeBlocks, Vault.size, List.size_toArray]

theorem warnings_extracted : (extracted o t).2.warnings.toList =
    ((unclosedFence? t).map Warning.unclosedCodeFence).toList := by
  rw [← warnings_begin o, extracted, ← Context.warnings_quiet, (apply_extraction _ _).2]
  rfl

theorem options_extracted : (extracted o t).2.options = o := by
  rw [extracted, ← Context.options_quiet, (apply_extraction _ _).2]
  exact options_begin o t

/-- The rules between the first and the last one run their passes and change nothing but the
document and the log. -/
theorem settled_eq : (settled o t).1 = (Table.between o).pass o (extracted o t).1 ∧
    (settled o t).2.quiet = (extracted o t).2.quiet := by
  have h := (Table.isPure_between o).apply_eq (extracted o t).1 (extracted o t).2
  rw [options_extracted] at h
  rw [settled, Table.beforeReinsertion_eq, Table.apply_cons, ← extracted]
  exact h

theorem vault_settled : (settled o t).2.vault = (extracted o t).2.vault := by
  rw [← Context.vault_quiet, (settled_eq o t).2, Context.vault_quiet]

end Renderer

end Markdown
