import Markdown.Options
import Markdown.Pattern
import Markdown.Template
import Markdown.Vault

/-!
# Rules

A rule pairs a pattern with an action, which says what takes the place of each match. The matches
are found before any of them is replaced; the actions are then carried out from left to right, each
in the context that the one before has left.
-/

namespace Markdown

/-- What the rules share while a document is rendered. -/
structure Context where
  options : Options := {}
  vault : Vault := {}
  /-- The warnings so far. -/
  warnings : Array Warning := #[]
  /-- The log so far. -/
  log : Array Event := #[]

namespace Context

/-- Add a warning. -/
def warn (cx : Context) (w : Warning) : Context :=
  { cx with warnings := cx.warnings.push w }

/-- Add an entry to the log. -/
def note (cx : Context) (e : Event) : Context :=
  { cx with log := cx.log.push e }

end Context

/-- A handler makes the replacement of a match and may change the context. -/
abbrev Handler := Match → Context → Text × Context

/-- What takes the place of a match. -/
inductive Action where
  /-- The expansion of a template. -/
  | literal (template : Template)
  /-- What a handler answers. -/
  | handler (run : Handler)

namespace Action

/-- The action of a template, as it is written. -/
def ofTemplate (source : Text) : Action :=
  literal ⟨source⟩

/-- The replacement of a match. -/
def replacement (a : Action) (m : Match) (cx : Context) : Text × Context :=
  match a with
  | literal template => (template.expand m, cx)
  | handler run => run m cx

/-- The written form of the template, if the action is one. -/
def template? : Action → Option Text
  | literal template => some template.source
  | handler _ => none

/-- A character between quotation marks. -/
def quoteChar (c : Char) : Text :=
  if c = '\n' then ['\\', 'n'] else if c = '"' || c = '\\' then ['\\', c] else [c]

/-- A short description of an action. -/
def describe : Action → Text
  | literal template =>
    "Literal(\"".toList ++ template.source.flatMap quoteChar ++ "\")".toList
  | handler _ => "Handler(..)".toList

end Action

/-- A pattern and what takes the place of its matches. -/
structure Rule where
  pattern : Pattern
  action : Action

namespace Rule

/-- The key of a rule. -/
def key (r : Rule) : Text := r.pattern.key

/-- Rewrite the pieces of a text. The text so far is in `acc`, the last character first. -/
def rewriteFrom (a : Action) (acc : Text) :
    List (Piece Char (List (Option Text))) → Context → Text × Context
  | [], cx => (acc.reverse, cx)
  | .kept c :: ps, cx => rewriteFrom a (c :: acc) ps cx
  | .found taken groups :: ps, cx =>
    let (new, cx) := a.replacement ⟨taken, groups⟩ cx
    rewriteFrom a (new.reverseAux acc) ps cx

/-- The text so far stands in front of what is made of the pieces. -/
theorem rewriteFrom_eq (a : Action) (acc : Text) (ps : List (Piece Char (List (Option Text))))
    (cx : Context) :
    rewriteFrom a acc ps cx =
      (acc.reverse ++ (rewriteFrom a [] ps cx).1, (rewriteFrom a [] ps cx).2) := by
  induction ps generalizing acc cx with
  | nil => simp [rewriteFrom]
  | cons p ps ih =>
    cases p with
    | kept c =>
      simp only [rewriteFrom]
      rw [ih (c :: acc), ih [c]]
      simp
    | found taken groups =>
      simp only [rewriteFrom, List.reverseAux_eq]
      rw [ih (_ ++ acc), ih (_ ++ [])]
      simp

/-- Rewrite the matches of a rule in a text, unless there are none. -/
def rewrite? (r : Rule) (t : Text) (cx : Context) : Option (Text × Context) :=
  let pieces := r.pattern.pieces t
  let count := pieces.countP Piece.isFound
  if count = 0 then none
  else some (rewriteFrom r.action [] pieces (cx.note (.rewrote r.key count)))

/-- Rewrite the matches of a rule in a text. -/
def apply (r : Rule) (t : Text) (cx : Context) : Text × Context :=
  (r.rewrite? t cx).getD (t, cx)

end Rule

end Markdown
