import Markdown.Handler
import Markdown.Pattern.Standard

/-!
# The table of rules

A renderer applies the rules of its table in order, each of them to the whole document. The standard
table sets the document as HTML in this order: code goes into the vault, then come headings, images
before the links they look like, strong before plain emphasis, quotations and inline code, the
remaining blocks, and what is left over as paragraphs. Blocks of one kind that follow each other
directly are merged if the options ask for it. At last the addresses get their markers and the
placeholders their blocks back.
-/

namespace Markdown

/-- The rules of a renderer, in order. -/
abbrev Table := List Rule

namespace Table

/-- A rule that replaces its matches by a template. -/
def rewriting (p : Pattern) (template : String) : Rule :=
  ⟨p, .ofTemplate template.toList⟩

/-- A rule that replaces its matches by what a handler answers. -/
def handling (p : Pattern) (h : Handler) : Rule :=
  ⟨p, .handler h⟩

/-- The rule that puts code into the vault. -/
def extraction : Rule := handling .fencedCode Handler.codeBlock

/-- The rules for headings, for what stands inside a line, and for the other blocks. -/
def setting : Table :=
  [handling .header Handler.header,
   handling .image Handler.image,
   handling .link Handler.link,
   rewriting .strong "<strong>\\2</strong>",
   rewriting .emphasis "<em>\\2</em>",
   rewriting .deleted "<del>\\2</del>",
   rewriting .quotation "<q>\\1</q>",
   rewriting .inlineCode "<code>\\1</code>",
   handling .unorderedItem Handler.unorderedItem,
   handling .orderedItem Handler.orderedItem,
   handling .blockquote Handler.blockquote,
   rewriting .horizontalRule "\n<hr />"]

/-- The rule that makes paragraphs. -/
def wrapping : Rule := handling .paragraph Handler.paragraph

/-- The rules that merge adjacent blocks. -/
def merging : Table :=
  [rewriting .adjacentUnordered "",
   rewriting .adjacentOrdered "",
   rewriting .adjacentBlockquotes "\n"]

/-- The rules that put markers back into addresses. -/
def revealing : Table :=
  [handling .linkTag Handler.unescapeLink,
   handling .imageTag Handler.unescapeImage]

/-- The rule that puts code blocks back. -/
def reinsertion : Rule := handling .placeholder Handler.reinsertCodeBlock

/-- The rules of the standard table before the last one. -/
def beforeReinsertion (o : Options) : Table :=
  extraction :: setting ++ [wrapping] ++ (if o.mergeAdjacentBlocks then merging else []) ++
    revealing

/-- The standard table. -/
def standard (o : Options) : Table :=
  beforeReinsertion o ++ [reinsertion]

/-- The keys of a table, in order. -/
def keys (t : Table) : List Text :=
  t.map Rule.key

/-- Add a rule at the end, or in the place of the rule with the same key; the answer says whether
there was one. -/
def push (t : Table) (r : Rule) : Table × Bool :=
  match t.findIdx? (·.key == r.key) with
  | some i => (t.set i r, true)
  | none => (t ++ [r], false)

/-- A table has the same keys behind a replacement, and one more behind an addition. -/
theorem keys_push (t : Table) (r : Rule) :
    keys (t.push r).1 = if r.key ∈ keys t then keys t else keys t ++ [r.key] := by
  simp only [push]
  split
  · rename_i i h
    obtain ⟨hi, hkey, -⟩ := List.findIdx?_eq_some_iff_getElem.1 h
    have hlt : i < (keys t).length := by simpa [keys] using hi
    have hget : (keys t)[i] = r.key := by simpa [keys] using hkey
    have hmem : r.key ∈ keys t := hget ▸ List.getElem_mem _
    rw [if_pos hmem, keys, List.map_set, ← keys, ← hget, List.set_getElem_self]
  · rename_i h
    have hmem : r.key ∉ keys t := by
      simpa [keys, List.findIdx?_eq_none_iff] using h
    rw [if_neg hmem]
    simp [keys]

/-- Apply the rules of a table one after another. -/
def apply (t : Table) (document : Text) (cx : Context) : Text × Context :=
  t.foldl (fun (document, cx) rule => rule.apply document cx) (document, cx)

end Table

end Markdown
