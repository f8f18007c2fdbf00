import Markdown.Match

/-!
# Replacement templates

A template is a text with references to the groups of a match: a backslash or a dollar sign before
one or two digits, or a dollar sign before a number in braces. A doubled sign stands for the sign
itself, and so does one that begins no reference.
-/

namespace Markdown

namespace Template

/-- A part of a template. -/
inductive Segment where
  /-- A character that stands for itself. -/
  | char (c : Char)
  /-- A reference to a group. -/
  | group (index : Nat)
deriving DecidableEq, Repr

/-- The signs that begin a reference. -/
def isSign (c : Char) : Bool :=
  c == '\\' || c == '$'

/-- A number of one or two digits, and the text behind it. -/
def shortReference? (t : Text) : Option (Nat × Text) :=
  match t with
  | a :: b :: rest =>
    if !a.isDigit then none
    else if b.isDigit then some (Text.decimal [a, b], rest)
    else some (Text.decimal [a], b :: rest)
  | [a] => if a.isDigit then some (Text.decimal [a], []) else none
  | [] => none

/-- A number before a closing brace, and the text behind the brace. -/
def bracedReference? (t : Text) : Option (Nat × Text) :=
  match t.dropWhile (· != '\x7d') with
  | [] => none
  | _ :: rest => (Text.index? (t.takeWhile (· != '\x7d'))).map (·, rest)

/-- The reference that a sign begins, and the text behind it. -/
def reference? (sign : Char) (t : Text) : Option (Nat × Text) :=
  match sign, t with
  | '$', '\x7b' :: t => bracedReference? t
  | _, t => shortReference? t

theorem shortReference?_length {t rest : Text} {n : Nat}
    (h : shortReference? t = some (n, rest)) : rest.length < t.length := by
  unfold shortReference? at h
  split at h
  · split at h
    · simp at h
    · split at h
      all_goals
        simp only [Option.some.injEq, Prod.mk.injEq] at h
        obtain ⟨-, rfl⟩ := h
        simp only [List.length_cons]
        omega
  · split at h
    · simp only [Option.some.injEq, Prod.mk.injEq] at h
      obtain ⟨-, rfl⟩ := h
      simp
    · simp at h
  · simp at h

theorem bracedReference?_length {t rest : Text} {n : Nat}
    (h : bracedReference? t = some (n, rest)) : rest.length < t.length := by
  unfold bracedReference? at h
  split at h
  · simp at h
  · rename_i c tail heq
    simp only [Option.map_eq_some_iff, Prod.mk.injEq] at h
    obtain ⟨_, -, -, rfl⟩ := h
    have := (List.dropWhile_suffix (fun c : Char => c != '\x7d') (l := t)).length_le
    rw [heq, List.length_cons] at this
    exact this

theorem reference?_length {sign : Char} {t rest : Text} {n : Nat}
    (h : reference? sign t = some (n, rest)) : rest.length < t.length := by
  unfold reference? at h
  split at h
  · exact Nat.lt_succ_of_lt (bracedReference?_length h)
  · exact shortReference?_length h

/-- Read the segments of a template; the ones before are in `acc`, the last one first. -/
def readSegments (acc : List Segment) : Text → List Segment
  | [] => acc.reverse
  | c :: t =>
    if !isSign c then readSegments (.char c :: acc) t
    else if t.head? = some c then readSegments (.char c :: acc) t.tail
    else
      match _h : reference? c t with
      | some (index, rest) => readSegments (.group index :: acc) rest
      | none => readSegments (.char c :: acc) t
termination_by t => t.length
decreasing_by
  · exact Nat.lt_succ_self _
  · exact Nat.lt_succ_of_le (List.length_tail ▸ Nat.sub_le ..)
  · exact Nat.lt_succ_of_lt (reference?_length _h)
  · exact Nat.lt_succ_self _

end Template

/-- A replacement template. -/
structure Template where
  /-- The template as it is written. -/
  source : Text
deriving DecidableEq, Repr

namespace Template

/-- The parts of a template. -/
def segments (t : Template) : List Segment :=
  readSegments [] t.source

/-- What a segment stands for in a match. -/
def Segment.expand (m : Match) : Segment → Text
  | .char c => [c]
  | .group index => m.group index

/-- The text that a template makes of a match. -/
def expand (t : Template) (m : Match) : Text :=
  t.segments.flatMap (·.expand m)

end Template

end Markdown
