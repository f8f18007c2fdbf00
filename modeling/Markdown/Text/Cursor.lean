/-!
# Cursors

A cursor is a position in a list together with what a matcher may ask about it: the element just
before it, the elements after it, and how many these are. The count makes the distance between two
cursors into one list a subtraction.
-/

namespace Markdown

universe u

/-- A position in a list. -/
structure Cursor (α : Type u) where
  /-- The element just before the position, none at the start. -/
  before : Option α
  /-- The elements after the position. -/
  rest : List α
  /-- The number of elements after the position. -/
  left : Nat
  left_eq : left = rest.length

namespace Cursor

variable {α : Type u}

/-- The position in front of `rest` and behind `before`. -/
def of (before : Option α) (rest : List α) : Cursor α :=
  ⟨before, rest, rest.length, rfl⟩

/-- The position at the start of a list. -/
def start (l : List α) : Cursor α :=
  .of none l

/-- The position behind the first of `n` elements. -/
@[inline] def behind (a : α) (l : List α) (n : Nat) (h : n = (a :: l).length) : Cursor α :=
  ⟨some a, l, n - 1, by simp [h]⟩

/-- The next element, with the position behind it. -/
@[inline] def next? : Cursor α → Option (α × Cursor α)
  | ⟨_, [], _, _⟩ => none
  | ⟨_, a :: l, n, h⟩ => some (a, behind a l n h)

/-- The first `n` elements after the position. -/
def take (c : Cursor α) (n : Nat) : List α :=
  c.rest.take n

/-- The elements between a position and a later one in the same list. -/
def upTo (c d : Cursor α) : List α :=
  c.take (c.left - d.left)

@[simp] theorem rest_of (b : Option α) (l : List α) : (Cursor.of b l).rest = l := rfl

@[simp] theorem left_of (b : Option α) (l : List α) : (Cursor.of b l).left = l.length := rfl

@[simp] theorem rest_behind (a : α) (l : List α) (n : Nat) (h : n = (a :: l).length) :
    (behind a l n h).rest = l := rfl

@[simp] theorem behind_length (a : α) (l : List α) (h : (a :: l).length = (a :: l).length) :
    behind a l (a :: l).length h = .of (some a) l := rfl

@[simp] theorem next?_of_nil (b : Option α) : (Cursor.of b []).next? = none := rfl

@[simp] theorem next?_of_cons (b : Option α) (a : α) (l : List α) :
    (Cursor.of b (a :: l)).next? = some (a, .of (some a) l) := rfl

/-- Every position is determined by the elements around it. -/
theorem eq_of (c : Cursor α) : c = .of c.before c.rest := by
  obtain ⟨b, l, n, rfl⟩ := c
  rfl

/-- The elements up to a position behind `s` are those of `s`. -/
theorem upTo_of_append (b d : Option α) (s t : List α) :
    (Cursor.of b (s ++ t)).upTo (.of d t) = s := by
  simp [upTo, take]

end Cursor

end Markdown
