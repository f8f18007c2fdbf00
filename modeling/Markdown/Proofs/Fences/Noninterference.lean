import Markdown.Proofs.Fences.Extraction
import Markdown.Proofs.Frames

/-!
# Code does not influence the page

Texts with the same words around their code, and the same number of fences, make the same document
behind the first rule, and the rules between the first and the last one do not look into the vault.
The last rule then puts the blocks of each text into one and the same page
(`Renderer.code_cannot_influence`).
-/

namespace Markdown

open Pattern (fence)
open Text

/-! ## Texts around code -/

/-- Some texts with code between them, in fences. -/
def assemble : List Text → List Text → Text
  | s :: ss, c :: cs => s ++ fence ++ (c ++ fence ++ assemble ss cs)
  | s :: _, [] => s
  | [], _ => []

/-- What the first rule makes of these texts; `n` is the number of the first block. -/
def surroundings (n : Nat) : List Text → Text
  | [] => []
  | [s] => s ++ ['\n']
  | s :: s' :: ss => s ++ placeholder n ++ surroundings (n + 1) (s' :: ss)

/-- The texts around some code: one more than there are pieces of code, none with a fence in it, and
none but the last with a backtick at its end. -/
structure IsSkeleton (ss : List Text) (n : Nat) : Prop where
  length_eq : ss.length = n + 1
  not_fence : ∀ s ∈ ss, ¬ fence <:+: s
  getLast?_ne : ∀ s ∈ ss.dropLast, s.getLast? ≠ some '`'

/-- A text that can stand as code between two fences. -/
def IsCode (c : Text) : Prop :=
  ¬ fence <:+: c ∧ c.getLast? ≠ some '`'

variable {ss cs : List Text}

/-- The fences of such a text are the ones around the code. -/
theorem gaps_assemble (hss : IsSkeleton ss cs.length) (hcs : ∀ c ∈ cs, IsCode c) (n offset : Nat) :
    weave n (gaps (assemble ss cs ++ ['\n'])) = surroundings n ss ∧
      codes (gaps (assemble ss cs)) = cs ∧ (fenceOffsets offset (assemble ss cs)).length % 2 = 0 := by
  induction cs generalizing ss n offset with
  | nil =>
    obtain ⟨s, rfl⟩ := List.length_eq_one_iff.1 hss.length_eq
    have hs := hss.not_fence s (by simp)
    have hs' := not_fence_map (f := id) (fun _ => Iff.rfl) hs
    rw [List.map_id] at hs'
    rw [assemble, gaps_eq_singleton hs, gaps_eq_singleton hs', fenceOffsets_eq_nil hs]
    exact ⟨rfl, rfl, rfl⟩
  | cons c cs ih =>
    obtain ⟨s, ss, rfl⟩ := List.exists_cons_of_length_eq_add_one hss.length_eq
    obtain ⟨s', ss, rfl⟩ := List.exists_cons_of_length_eq_add_one
      (show ss.length = cs.length + 1 by simpa using hss.length_eq)
    have hs : IsFree fence s := isFree_fence_iff.2
      ⟨hss.not_fence s (by simp), hss.getLast?_ne s (by simp)⟩
    have hc : IsFree fence c := isFree_fence_iff.2 (hcs c (by simp))
    have htail : IsSkeleton (s' :: ss) cs.length :=
      ⟨by simpa using hss.length_eq, fun x hx => hss.not_fence x (by simp [hx]),
        fun x hx => hss.getLast?_ne x (by simp [hx])⟩
    obtain ⟨hweave, hcodes, heven⟩ := ih htail (fun c hc => hcs c (by simp [hc])) (n + 1)
      (offset + byteSize s + 3 + byteSize c + 3)
    have hsplit : assemble (s :: s' :: ss) (c :: cs) ++ ['\n'] =
        s ++ fence ++ (c ++ fence ++ (assemble (s' :: ss) cs ++ ['\n'])) := by
      simp [assemble]
    rw [hsplit, assemble, gaps_append hs, gaps_append hc, gaps_append hs, gaps_append hc, weave_pair,
      codes_pair, fenceOffsets_append hs, fenceOffsets_append hc, hweave, hcodes]
    refine ⟨rfl, rfl, ?_⟩
    simp only [List.length_cons]
    omega

namespace Renderer

variable (o : Options)

/-- What is known about a text made of texts around code. -/
theorem of_assemble (hss : IsSkeleton ss cs.length) (hcs : ∀ c ∈ cs, IsCode c)
    (hreserved : Reserved.occursIn (assemble ss cs) = false) :
    (extracted o (assemble ss cs)).1 = '\n' :: surroundings 0 ss ∧
      (settled o (assemble ss cs)).2.vault.blocks.toList = cs.map CodeBlock.render ∧
      unclosedFence? (assemble ss cs) = none := by
  obtain ⟨hweave, hcodes, heven⟩ := gaps_assemble hss hcs 0 0
  have hhide : (Protected.ofText (assemble ss cs)).hide = id := by
    rw [Protected.ofText_of_not_occursIn hreserved]
    rfl
  refine ⟨?_, ?_, ?_⟩
  · rw [text_extracted_eq_weave, hhide, List.map_id, hweave]
  · rw [vault_settled, vault_extracted, fencedPieces, codeBlocks_pieces, document_eq,
      (gaps_lineFeed _).2, codes_gaps_map (hide_eq_backtick_iff _), hhide, hcodes]
    simp
  · rw [unclosedFence?_eq, if_neg (by omega)]

/-- Texts that differ in their code only are set alike: the last rule gets the same document, and for
each text the blocks of its code; the same warnings are raised; and the HTML is one frame, filled with
the blocks of either text. -/
theorem code_cannot_influence {ss cs cs' : List Text} (hss : IsSkeleton ss cs.length)
    (hlength : cs'.length = cs.length) (hcs : ∀ c ∈ cs, IsCode c) (hcs' : ∀ c ∈ cs', IsCode c)
    (hreserved : Reserved.occursIn (assemble ss cs) = false)
    (hreserved' : Reserved.occursIn (assemble ss cs') = false) :
    (settled o (assemble ss cs)).1 = (settled o (assemble ss cs')).1 ∧
      (settled o (assemble ss cs)).2.vault.blocks.toList = cs.map CodeBlock.render ∧
      (settled o (assemble ss cs')).2.vault.blocks.toList = cs'.map CodeBlock.render ∧
      (ofOptions o).warnings (assemble ss cs) = (ofOptions o).warnings (assemble ss cs') ∧
      ∃ frame : Frame,
        (ofOptions o).render (assemble ss cs) = frame.fill (cs.map CodeBlock.render) ∧
        (ofOptions o).render (assemble ss cs') = frame.fill (cs'.map CodeBlock.render) := by
  obtain ⟨htext, hblocks, hclosed⟩ := of_assemble o hss hcs hreserved
  obtain ⟨htext', hblocks', hclosed'⟩ := of_assemble o (hlength ▸ hss) hcs' hreserved'
  have hdocument : (settled o (assemble ss cs)).1 = (settled o (assemble ss cs')).1 := by
    rw [(settled_eq o _).1, (settled_eq o _).1, htext, htext']
  have hsize (t : Text) {cs : List Text}
      (h : (settled o t).2.vault.blocks.toList = cs.map CodeBlock.render) :
      (settled o t).2.vault.size = cs.length := by
    rw [Vault.size, ← Array.length_toList, h, List.length_map]
  refine ⟨hdocument, hblocks, hblocks', ?_, (Table.frame cs.length (settled o (assemble ss cs)).1).trim,
    ?_, ?_⟩
  · rw [warnings_ofOptions, warnings_ofOptions, hclosed, hclosed', hsize _ hblocks, hsize _ hblocks',
      hlength, hdocument]
  · refine render_eq_fill o _ ?_ hblocks
    rw [Protected.ofText_of_not_occursIn hreserved]
  · have hrender := render_eq_fill o (assemble ss cs')
      (by rw [Protected.ofText_of_not_occursIn hreserved']) hblocks'
    rw [hrender, hlength, hdocument]

/-- A list in the code and a heading in it leave the page around them the same. -/
theorem code_cannot_influence_heading : ∃ frame : Frame,
    (ofOptions {}).render (assemble ["*a*\n".toList, "\nb".toList] ["* c".toList]) =
        frame.fill [CodeBlock.render "* c".toList] ∧
      (ofOptions {}).render (assemble ["*a*\n".toList, "\nb".toList] ["# `d` ".toList]) =
        frame.fill [CodeBlock.render "# `d` ".toList] := by
  have hskeleton : IsSkeleton ["*a*\n".toList, "\nb".toList] 1 := ⟨rfl, by decide, by decide⟩
  have hcode : ∀ c ∈ ["* c".toList], IsCode c := by
    rintro c hc
    obtain rfl := List.mem_singleton.1 hc
    exact ⟨by decide, by decide⟩
  have hcode' : ∀ c ∈ ["# `d` ".toList], IsCode c := by
    rintro c hc
    obtain rfl := List.mem_singleton.1 hc
    exact ⟨by decide, by decide⟩
  have hlength : ["# `d` ".toList].length = ["* c".toList].length := rfl
  exact (code_cannot_influence {} hskeleton hlength hcode hcode' (by decide) (by decide)).2.2.2.2

end Renderer

end Markdown
