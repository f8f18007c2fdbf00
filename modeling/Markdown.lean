import Markdown.Batch
import Markdown.Settings
import Markdown.Proofs.Leakage
import Markdown.Proofs.Blocks.Source
import Markdown.Proofs.Blocks.Passes
import Markdown.Proofs.Blocks.Merging
import Markdown.Proofs.Blocks.Rendering
import Markdown.Proofs.Blocks.SetText
import Markdown.Proofs.Blocks.RunLines
import Markdown.Proofs.Blocks.Idempotence
import Markdown.Proofs.Inline.Source
import Markdown.Proofs.Inline.Setting
import Markdown.Proofs.Inline.Passes
import Markdown.Proofs.Inline.Wrapping
import Markdown.Proofs.Inline.Rendering
import Markdown.Proofs.Inline.Links
import Markdown.Proofs.Locality.Rendering
import Markdown.Proofs.Confinement.Rendering
import Markdown.Proofs.Fences.Extraction
import Markdown.Proofs.Fences.Noninterference
import Markdown.Proofs.Contents
import Markdown.Proofs.Braces
import Markdown.Proofs.Blocks.Paragraphs
import Markdown.Proofs.Registrations
import Markdown.Proofs.Scheduling
import Markdown.Proofs.Bytes.Spans
import Markdown.Proofs.Bytes.Backticks
import Markdown.Proofs.Bytes.Tags
import Markdown.Proofs.Vault.Decoding
import Markdown.Proofs.Vault.Placeholders
import Markdown.Proofs.Protection
import Markdown.Proofs.Splicing
import Markdown.Proofs.Dangling
import Markdown.Proofs.Bytes.Templates
import Markdown.Proofs.Locations
