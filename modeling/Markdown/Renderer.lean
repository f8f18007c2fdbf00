import Markdown.Reserved
import Markdown.Table

/-!
# Rendering

A renderer is a table of rules with options. To render a document, it hides reserved tokens, puts a
line feed on either side, applies its rules, trims the result and writes the hidden braces as
character references. Each rendering has a context of its own.
-/

namespace Markdown

/-- The location of the last code fence, if there is an odd number of them. -/
def unclosedFence? (t : Text) : Option Location :=
  let fences := (withOffsets (scan (literal Pattern.fence) t)).filter (·.2.isFound)
  if fences.length % 2 = 1 then fences.getLast?.map fun (offset, _) => .ofOffset t offset else none

/-- Options and the rules in order. -/
structure Renderer where
  options : Options
  table : Table

namespace Renderer

/-- The renderer with the standard table. -/
def ofOptions (o : Options) : Renderer :=
  ⟨o, .standard o⟩

/-! ## The table -/

/-- Add a rule or replace the one with the same key. The answer comes with the entries for the
log. -/
def push (r : Renderer) (rule : Rule) : Renderer × List Event :=
  let (table, replaced) := r.table.push rule
  ({ r with table }, if replaced then [.replaced rule.key] else [])

/-- Add the rule of a regular expression. -/
def add (r : Renderer) (source : Text) (action : Action) : Except Error (Renderer × List Event) := do
  let pattern ← Pattern.ofRegex source
  return r.push ⟨pattern, action⟩

/-! ## Documents -/

/-- The context in which the rules begin on a document and its protected form. -/
def begin (r : Renderer) (t : Text) (p : Protected) : Context :=
  let cx : Context := { options := r.options }
  let cx := match unclosedFence? t with
    | some location => (cx.note (.unclosedCodeFence location)).warn (.unclosedCodeFence location)
    | none => cx
  if Reserved.occursIn t && p.standIn.isNone then cx.note .noStandIn else cx

/-- The document behind the last rule, and the context there. -/
def rewritten (r : Renderer) (t : Text) : Text × Context :=
  let p := Protected.ofText t
  r.table.apply p.document (r.begin t p)

/-- The HTML of a document, and the context at the end. -/
def run (r : Renderer) (t : Text) : Text × Context :=
  let (out, cx) := r.rewritten t
  ((Protected.ofText t).release (Text.trim out),
    cx.note (.rendered (Text.byteSize t) r.table.length cx.vault.size))

/-- The HTML of a document. -/
def render (r : Renderer) (t : Text) : Text :=
  (r.run t).1

/-- The warnings about a document. -/
def warnings (r : Renderer) (t : Text) : List Warning :=
  (r.run t).2.warnings.toList

/-- The HTML of a document whose placeholders can all be resolved. -/
def tryRender (r : Renderer) (t : Text) : Except Error Text :=
  let (html, cx) := r.run t
  match firstDangling? cx.warnings.toList with
  | some index => .error (.danglingPlaceholder index cx.vault.size)
  | none => .ok html

end Renderer

/-- Render a document with the standard table and the standard options. -/
def render (t : Text) : Text :=
  (Renderer.ofOptions {}).render t

end Markdown
