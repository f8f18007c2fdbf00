import Markdown.Regex.Basic
import Markdown.Text.Basic

/-!
# Escapes

What a backslash and the characters behind it stand for: a character, a set of characters or a
condition. Like all functions that read a part of the written form, those below return what they
have read with the text behind it, or nothing where the form is broken.
-/

namespace Markdown.Regex

/-! ## Characters given by their code -/

/-- The value of a hexadecimal digit. -/
def hexDigit? (c : Char) : Option Nat :=
  if c.isDigit then some (c.toNat - '0'.toNat)
  else if 'a' ≤ c && c ≤ 'f' then some (c.toNat - 'a'.toNat + 10)
  else if 'A' ≤ c && c ≤ 'F' then some (c.toNat - 'A'.toNat + 10)
  else none

/-- The character with a code written in hexadecimal. -/
def hexChar? (digits : Text) : Option Char := do
  let code ← digits.foldlM (fun n c => (hexDigit? c).map (16 * n + ·)) 0
  if digits.isEmpty then none
  else if h : code.isValidChar then some (Char.ofNatAux code h) else none

/-- A code in braces, or one of exactly `width` digits. -/
def readHex (width : Nat) (t : Text) : Option (Char × Text) :=
  match t with
  | '\x7b' :: t =>
    match t.dropWhile (· != '\x7d') with
    | [] => none
    | _ :: rest => do some (← hexChar? (t.takeWhile (· != '\x7d')), rest)
  | t => if t.length < width then none else do some (← hexChar? (t.take width), t.drop width)

/-! ## Reading an escape -/

/-- What a backslash and the characters after it stand for. -/
inductive Escape where
  | char (c : Char)
  | set (s : CharSet)
  | assert (a : Assertion)

/-- Whether a character stands for itself behind a backslash. -/
def isEscapable (c : Char) : Bool :=
  c.toNat < 0x80 && !c.isAlphanum && c != '<' && c != '>'

/-- The special word boundaries, by name. -/
def wordAssertion? (name : Text) : Option Assertion :=
  if name = "start".toList then some .wordStart
  else if name = "end".toList then some .wordEnd
  else if name = "start-half".toList then some .noWordBefore
  else if name = "end-half".toList then some .noWordAfter
  else none

/-- What follows the `b` of a word boundary: the name of a special one in braces, unless the braces
belong to a counted repetition. -/
def readWordBoundary (t : Text) : Option (Assertion × Text) :=
  let isLetter := fun c : Char => c.isAlpha || c == '-'
  match t with
  | '\x7b' :: c :: t =>
    if !isLetter c then some (.wordBoundary, '\x7b' :: c :: t)
    else
      match (c :: t).dropWhile isLetter with
      | '\x7d' :: rest => do some (← wordAssertion? ((c :: t).takeWhile isLetter), rest)
      | _ => none
  | ['\x7b'] => none
  | t => some (.wordBoundary, t)

/-- What follows a backslash. -/
def readEscape : Text → Option (Escape × Text)
  | [] => none
  | 'd' :: t => some (.set .decimalDigit, t)
  | 'D' :: t => some (.set (.compl .decimalDigit), t)
  | 's' :: t => some (.set .whiteSpace, t)
  | 'S' :: t => some (.set (.compl .whiteSpace), t)
  | 'w' :: t => some (.set .wordCharacter, t)
  | 'W' :: t => some (.set (.compl .wordCharacter), t)
  | 'x' :: t => (readHex 2 t).map fun (c, t) => (.char c, t)
  | 'u' :: t => (readHex 4 t).map fun (c, t) => (.char c, t)
  | 'U' :: t => (readHex 8 t).map fun (c, t) => (.char c, t)
  | 'a' :: t => some (.char '\x07', t)
  | 'f' :: t => some (.char '\x0c', t)
  | 'n' :: t => some (.char '\n', t)
  | 'r' :: t => some (.char '\r', t)
  | 't' :: t => some (.char '\t', t)
  | 'v' :: t => some (.char '\x0b', t)
  | 'A' :: t => some (.assert .textStart, t)
  | 'z' :: t => some (.assert .textEnd, t)
  | 'B' :: t => some (.assert .noWordBoundary, t)
  | 'b' :: t => (readWordBoundary t).map fun (a, t) => (.assert a, t)
  | '<' :: t => some (.assert .wordStart, t)
  | '>' :: t => some (.assert .wordEnd, t)
  | c :: t => if isEscapable c then some (.char c, t) else none

end Markdown.Regex
