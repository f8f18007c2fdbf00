import Markdown.Renderer

/-!
# Batches

Several documents are rendered with one renderer. Each has a context of its own, so that their order
does not matter; the results are in the order of the documents.
-/

namespace Markdown

/-- A document with a name. -/
structure Document where
  id : String
  source : Text

/-- What has become of a document. -/
structure DocumentResult where
  id : String
  html : Text
  warnings : List Warning
deriving DecidableEq, Repr

/-- The results of a batch, in the order of the documents. -/
structure BatchResult where
  results : List DocumentResult
deriving DecidableEq, Repr

namespace BatchResult

/-- The number of documents. -/
def total (b : BatchResult) : Nat := b.results.length

/-- The number of documents with a warning. -/
def withWarnings (b : BatchResult) : Nat := b.results.countP (!·.warnings.isEmpty)

end BatchResult

namespace Renderer

/-- Render one document of a batch. -/
def renderDocument (r : Renderer) (d : Document) : DocumentResult :=
  let (html, cx) := r.run d.source
  ⟨d.id, html, cx.warnings.toList⟩

/-- Render the documents of a batch. -/
def renderBatch (r : Renderer) (documents : List Document) : BatchResult :=
  ⟨documents.map r.renderDocument⟩

end Renderer

end Markdown
