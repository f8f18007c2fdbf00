/-!
# Settings

Settings are options given from outside as fields with names, each of which has two spellings. A
field may be missing or null. Fields with other names are ignored.
-/

namespace Markdown

/-- The value of a field. -/
inductive FieldValue where
  | null
  | bool (b : Bool)
  /-- A value of a kind that no setting has. -/
  | other
deriving DecidableEq, Repr

/-- A field that a setting is read from. -/
structure Field where
  name : String
  value : FieldValue
deriving DecidableEq, Repr

/-- The options that have been given. -/
structure Settings where
  clampHeadingLevel : Option Bool
  mergeAdjacentBlocks : Option Bool
deriving DecidableEq, Repr

namespace Settings

/-- The setting with some spellings. It must not be given under both, nor with a value that is
neither a truth value nor null. -/
def setting? (spellings : List String) (fields : List Field) : Option (Option Bool) :=
  match fields.filter (spellings.contains ·.name) with
  | [] => some none
  | [⟨_, .null⟩] => some none
  | [⟨_, .bool b⟩] => some (some b)
  | _ => none

/-- The settings given by some fields. -/
def ofFields (fields : List Field) : Option Settings := do
  let clampHeadingLevel ← setting? ["clamp_heading_level", "clampHeadingLevel"] fields
  let mergeAdjacentBlocks ← setting? ["merge_adjacent_blocks", "mergeAdjacentBlocks"] fields
  return ⟨clampHeadingLevel, mergeAdjacentBlocks⟩

end Settings

end Markdown
