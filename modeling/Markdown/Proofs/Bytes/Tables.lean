import Markdown.Delimiter.Bytes
import Markdown.Proofs.Bytes.Places
import Markdown.Proofs.Pattern.Delimited

/-!
# The tables of a delimiter

Each table is filled from its end, every entry from the byte there and from entries behind it. So
filling it never fails, and its entries are what the rest of the text says: where its first line ends
(`ByteTable.lineEnd`), where a marker stands first (`ByteTable.nextStart`), whether a span may open
in front of it (`Outlook.ofText`). Between two characters and inside of one the table says the same as
in front of the next one.
-/

namespace Markdown

open Text

variable {α σ : Type} {i n : Nat} {t : Text}

/-! ## Filling a table -/

/-- What one turn of a loop leaves to the next holds behind the loop. -/
theorem exists_downFrom {P : Nat → σ → Prop} {body : Nat → σ → Option σ} {s : σ} (hs : P n s)
    (hbody : ∀ i < n, ∀ s, P (i + 1) s → ∃ s', body i s = some s' ∧ P i s') :
    ∃ s', downFrom body n s = some s' ∧ P 0 s' := by
  induction n generalizing s with
  | zero => exact ⟨s, rfl, hs⟩
  | succ n ih =>
    obtain ⟨s₁, hs₁, hP⟩ := hbody n (Nat.lt_succ_self n) s hs
    rw [downFrom, hs₁]
    exact ih hP fun i hi => hbody i (Nat.lt_succ_of_lt hi)

/-- The entries of a table from an offset on are the values of a function. -/
structure Filled (f : Nat → α) (n i : Nat) (table : Array α) : Prop where
  size : table.size = n + 1
  get : ∀ j, i ≤ j → j ≤ n → table[j]? = some (f j)

namespace Filled

variable {f : Nat → α} {table : Array α} {a : α}

theorem replicate (h : f n = a) : Filled f n n (.replicate (n + 1) a) where
  size := Array.size_replicate
  get j hj hn := by
    obtain rfl : j = n := Nat.le_antisymm hn hj
    rw [Array.getElem?_replicate, if_pos (Nat.lt_succ_self j), h]

theorem next (h : Filled f n (i + 1) table) (hi : i < n) : table[i + 1]? = some (f (i + 1)) :=
  h.get _ (Nat.le_refl _) hi

/-- The next entry can be written. -/
theorem write (h : Filled f n (i + 1) table) (hi : i ≤ n) (ha : f i = a) :
    ∃ table', write? table i a = some table' ∧ Filled f n i table' := by
  have hlt : i < table.size := h.size ▸ Nat.lt_succ_of_le hi
  refine ⟨table.set i a, dif_pos hlt, by simpa using h.size, fun j hj hn => ?_⟩
  rcases Nat.eq_or_lt_of_le hj with rfl | hj
  · rw [Array.getElem?_set_self, ha]
  · rw [Array.getElem?_set_ne hlt (Nat.ne_of_lt hj), h.get j hj hn]

end Filled

namespace ByteTable

/-! ## Lines and markers -/

/-- Where the first line of some bytes ends that stand at an offset. -/
def lineEnd : (i : Nat) → List UInt8 → Nat
  | i, [] => i
  | i, b :: bytes => if b = '\n'.toUInt8 then i else lineEnd (i + 1) bytes

theorem exists_lineEnds (bytes : List UInt8) :
    ∃ table, lineEnds bytes = some table ∧
      Filled (fun i => lineEnd i (bytes.drop i)) bytes.length 0 table := by
  refine exists_downFrom (P := Filled (fun i => lineEnd i (bytes.drop i)) bytes.length) ?_
    fun i hi ends h => ?_
  · exact .replicate (by rw [List.drop_length, lineEnd])
  have hdrop : bytes.drop i = bytes[i] :: bytes.drop (i + 1) := List.drop_eq_getElem_cons hi
  rw [writeLineEnd, List.getElem?_eq_getElem hi, h.next hi]
  by_cases hb : bytes[i] = '\n'.toUInt8
  · obtain ⟨ends', hwrite, h'⟩ := h.write (Nat.le_of_lt hi) (a := i)
      (by rw [hdrop, lineEnd, if_pos hb])
    exact ⟨ends', by simpa only [Option.bind_eq_bind, Option.bind_some, if_pos hb] using hwrite, h'⟩
  · obtain ⟨ends', hwrite, h'⟩ := h.write (Nat.le_of_lt hi)
      (a := lineEnd (i + 1) (bytes.drop (i + 1))) (by rw [hdrop, lineEnd, if_neg hb])
    exact ⟨ends', by simpa only [Option.bind_eq_bind, Option.bind_some, if_neg hb] using hwrite, h'⟩

/-- Where some bytes stand first in those at an offset. -/
def nextStart (largest : Nat) (needle : List UInt8) : (i : Nat) → List UInt8 → Nat
  | _, [] => largest
  | i, b :: bytes =>
    if needle.isPrefixOf (b :: bytes) then i else nextStart largest needle (i + 1) bytes

theorem exists_nextStarts (largest : Nat) (bytes needle : List UInt8) :
    ∃ table, nextStarts largest bytes needle = some table ∧
      Filled (fun i => nextStart largest needle i (bytes.drop i)) bytes.length 0 table := by
  refine exists_downFrom
    (P := Filled (fun i => nextStart largest needle i (bytes.drop i)) bytes.length) ?_
    fun i hi next h => ?_
  · exact .replicate (by rw [List.drop_length, nextStart])
  have hdrop : bytes.drop i = bytes[i] :: bytes.drop (i + 1) := List.drop_eq_getElem_cons hi
  rw [writeNextStart, if_neg (Nat.not_lt.2 (Nat.le_of_lt hi)), h.next hi]
  by_cases hb : needle.isPrefixOf (bytes.drop i)
  · obtain ⟨next', hwrite, h'⟩ := h.write (Nat.le_of_lt hi) (a := i)
      (by rw [hdrop, nextStart, ← hdrop, if_pos hb])
    exact ⟨next', by rwa [if_pos hb], h'⟩
  · obtain ⟨next', hwrite, h'⟩ := h.write (Nat.le_of_lt hi)
      (a := nextStart largest needle (i + 1) (bytes.drop (i + 1)))
      (by rw [hdrop, nextStart, ← hdrop, if_neg hb])
    exact ⟨next', by rwa [if_neg hb], h'⟩

/-! ## Guards -/

/-- What can be said about a text from an offset on. -/
def outlookAt (t : Text) (i : Nat) : Outlook :=
  .ofText (charsFrom t i)

theorem outlookAt_append (u v : Text) : outlookAt (u ++ v) (byteSize u) = .ofText v := by
  rw [outlookAt, charsFrom_append]

theorem outlookAt_byteSize (t : Text) : outlookAt t (byteSize t) = .atEnd := by
  rw [outlookAt, charsFrom_byteSize]
  rfl

/-- What can be said in front of a byte, from what can be said behind it and from whether the text
behind it completes a closing tag. -/
def before (b : UInt8) (completes : Bool) (next : Outlook) : Outlook where
  outsideCode := if b = '`'.toUInt8 then next.insideCode else next.outsideCode
  insideCode :=
    if b = '`'.toUInt8 then next.outsideCode
    else b != '\n'.toUInt8 && b != '\r'.toUInt8 && next.insideCode
  tagEndAhead := b != '\n'.toUInt8 && (b == '>'.toUInt8 || next.tagEndAhead)
  closingTagAhead :=
    b != '\n'.toUInt8 && (b == '<'.toUInt8 && completes || next.closingTagAhead)
  insideTag :=
    b != '/'.toUInt8 && b != '<'.toUInt8 &&
      (b == '>'.toUInt8 && next.closingTagAhead || next.insideTag)

theorem before_eq_self {b : UInt8} (h : ∀ a : Char, a.toNat < 128 → b ≠ a.toUInt8)
    (completes : Bool) (next : Outlook) : before b completes next = next := by
  have hbeq (a : Char) (ha : a.toNat < 128) : (b == a.toUInt8) = false :=
    beq_eq_false_iff_ne.2 (h a ha)
  simp only [before, bne, if_neg (h '`' (by decide)), hbeq '\n' (by decide), hbeq '\r' (by decide),
    hbeq '>' (by decide), hbeq '<' (by decide), hbeq '/' (by decide), Bool.not_false,
    Bool.true_and, Bool.false_and, Bool.false_or]

theorem before_eq_outlookOf {b : UInt8} {c : Char} (h : TellsAscii b c) (spots : List Spot) :
    before b (Spot.completesClosingTag spots) (Spot.ahead spots) = Spot.outlookOf c spots := by
  have hbeq (a : Char) (ha : a.toNat < 128) : (b == a.toUInt8) = (c == a) :=
    Bool.eq_iff_iff.2 (by rw [beq_iff_eq, beq_iff_eq, h a ha])
  simp only [before, Spot.outlookOf, bne, h '`' (by decide), hbeq '\n' (by decide),
    hbeq '\r' (by decide), hbeq '>' (by decide), hbeq '<' (by decide), hbeq '/' (by decide)]

/-- Whether what begins at an offset or behind it completes a `<` to a closing tag. -/
def completesAt (t : Text) (i : Nat) : Bool :=
  Spot.completesClosingTag (Spot.ofText (charsFrom t i))

theorem completesAt_append (u v : Text) : completesAt (u ++ '<' :: v) (byteSize u + 1) =
    Spot.completesClosingTag (Spot.ofText v) := by
  have hsize : byteSize (u ++ ['<']) = byteSize u + 1 := byteSize_append u ['<']
  rw [completesAt, List.append_cons, ← hsize, charsFrom_append]

/-- What can be said from an offset on comes from the byte there and from what can be said behind. -/
theorem exists_outlookAt_eq (h : i < byteSize t) :
    ∃ b, (utf8 t)[i]? = some b ∧
      outlookAt t i = before b (completesAt t (i + 1)) (outlookAt t (i + 1)) := by
  rcases offset_cases h with ⟨u, c, v, -, -, hi, hnext, b, hb, -, htells⟩ | ⟨-, hnext, b, hb, -, hne⟩
  · refine ⟨b, hb, ?_⟩
    rw [outlookAt, outlookAt, completesAt, hi, hnext]
    exact (before_eq_outlookOf htells _).symm
  · refine ⟨b, hb, ?_⟩
    rw [before_eq_self hne, outlookAt, outlookAt, hnext]

section Entries

variable {b : UInt8} {next : Outlook} {outside inside tagEnds closingTags : Array Bool}

theorem outsideEntry_eq (hout : outside[i + 1]? = some next.outsideCode)
    (hin : inside[i + 1]? = some next.insideCode) (completes : Bool) :
    outsideEntry b i outside inside = some (before b completes next).outsideCode := by
  by_cases hbt : b = '`'.toUInt8
  · simp [outsideEntry, before, hbt, hin]
  · simp [outsideEntry, before, hbt, hout]

theorem insideEntry_eq (hout : outside[i + 1]? = some next.outsideCode)
    (hin : inside[i + 1]? = some next.insideCode) (completes : Bool) :
    insideEntry b i outside inside = some (before b completes next).insideCode := by
  by_cases hbt : b = '`'.toUInt8
  · simp [insideEntry, before, hbt, hout]
  by_cases hlf : b = '\n'.toUInt8 ∨ b = '\r'.toUInt8
  · rcases hlf with rfl | rfl <;> simp [insideEntry, before, hbt]
  · simp [insideEntry, before, hbt, hin, not_or.1 hlf]

theorem tagEndEntry_eq (hends : tagEnds[i + 1]? = some next.tagEndAhead) (completes : Bool) :
    tagEndEntry b i tagEnds = some (before b completes next).tagEndAhead := by
  by_cases hlf : b = '\n'.toUInt8
  · simp [tagEndEntry, before, hlf]
  by_cases hgt : b = '>'.toUInt8
  · subst hgt
    simp [tagEndEntry, before, hlf]
  · simp [tagEndEntry, before, bne, hends, hlf, hgt, beq_eq_false_iff_ne.2]

theorem insideTagEntry_eq (hclosing : closingTags[i + 1]? = some next.closingTagAhead)
    (hin : inside[i + 1]? = some next.insideTag) (completes : Bool) :
    insideTagEntry b i closingTags inside = some (before b completes next).insideTag := by
  by_cases hnot : b = '/'.toUInt8 ∨ b = '<'.toUInt8
  · rcases hnot with rfl | rfl <;> simp [insideTagEntry, before]
  by_cases hgt : b = '>'.toUInt8
  · subst hgt
    cases hnext : next.closingTagAhead <;>
      simp [insideTagEntry, before, hclosing, hin, hnext, not_or.1 hnot]
  · obtain ⟨hslash, hlt⟩ := not_or.1 hnot
    simp [insideTagEntry, before, bne, hin, hslash, hlt, hgt, beq_eq_false_iff_ne.2]

/-- The check for a closing tag cuts the text behind the slash and reads the table behind the next
character. -/
theorem isClosingTag_eq {u w : Text} (hends : Filled (fun i => (outlookAt (u ++ '<' :: '/' :: w)
      i).tagEndAhead) (byteSize (u ++ '<' :: '/' :: w)) (byteSize u) tagEnds) :
    isClosingTag (u ++ '<' :: '/' :: w) (byteSize u) tagEnds =
      some (Spot.completesClosingTag (Spot.ofText ('/' :: w))) := by
  have hfrom : from? (u ++ '<' :: '/' :: w) (byteSize u + 2) = some w := by
    have hsize : byteSize (u ++ ['<', '/']) = byteSize u + 2 := byteSize_append u ['<', '/']
    have hsplit : u ++ '<' :: '/' :: w = (u ++ ['<', '/']) ++ w := by simp
    rw [← hsize, hsplit, from?_append]
  rw [isClosingTag, hfrom]
  cases w with
  | nil => rfl
  | cons c w =>
    have hsplit : u ++ '<' :: '/' :: c :: w = (u ++ ['<', '/', c]) ++ w := by simp
    have hsize : byteSize (u ++ ['<', '/', c]) = byteSize u + 2 + c.utf8Size := by
      have htag : byteSize ['<', '/', c] = 2 + c.utf8Size := by
        rw [byteSize_cons, byteSize_cons, byteSize_cons, byteSize_nil, Nat.add_zero, ← Nat.add_assoc]
        rfl
      rw [byteSize_append, htag, Nat.add_assoc]
    have hget := hends.get (byteSize u + 2 + c.utf8Size) (by omega) (by
      rw [hsplit, byteSize_append, hsize]
      omega)
    rw [hsplit, ← hsize, outlookAt_append, hsize] at hget
    by_cases hc : c = '\n'
    · simp [hc, Spot.completesClosingTag, Spot.ofText_cons]
    · simp [hc, hget, Spot.completesClosingTag, Spot.ofText_cons, Outlook.ofText]

theorem closingTagEntry_eq (hb : (utf8 t)[i]? = some b)
    (hends : Filled (fun i => (outlookAt t i).tagEndAhead) (byteSize t) i tagEnds)
    (hclosing : closingTags[i + 1]? = some next.closingTagAhead) :
    closingTagEntry t b i tagEnds closingTags =
      some (before b (completesAt t (i + 1)) next).closingTagAhead := by
  by_cases hlf : b = '\n'.toUInt8
  · simp [closingTagEntry, before, hlf]
  by_cases hlt : b = '<'.toUInt8
  · subst hlt
    obtain ⟨u, v, rfl, rfl⟩ := exists_of_getElem?_utf8 (by decide) hb
    have hsize : byteSize (u ++ ['<']) = byteSize u + 1 := byteSize_append u ['<']
    have hslash := getElem?_utf8_eq_iff (a := '/') (by decide) (u ++ ['<']) v
    rw [hsize, ← List.append_cons] at hslash
    rw [closingTagEntry, if_neg hlf, completesAt_append]
    by_cases hv : v.head? = some '/'
    · obtain ⟨w, rfl⟩ := List.head?_eq_some_iff.1 hv
      rw [if_pos ⟨rfl, hslash.2 hv⟩, isClosingTag_eq hends, hclosing]
      cases Spot.completesClosingTag (Spot.ofText ('/' :: w)) <;> simp [before, hlf]
    · have hnot : Spot.completesClosingTag (Spot.ofText v) = false := by
        match v with
        | [] => rfl
        | [_] => rfl
        | c :: d :: v =>
          have hc : (c == '/') = false := by simpa using hv
          simp [Spot.ofText_cons, Spot.completesClosingTag, hc]
      rw [if_neg fun h => hv (hslash.1 h.2), hclosing, hnot]
      simp [before, hlf]
  · simp [closingTagEntry, before, bne, hclosing, hlf, hlt, beq_eq_false_iff_ne.2]

end Entries

/-- What the tables of backticks hold from an offset on. -/
structure BacktickInv (t : Text) (i : Nat) (tables : Array Bool × Array Bool) : Prop where
  outside : Filled (fun i => (outlookAt t i).outsideCode) (byteSize t) i tables.1
  inside : Filled (fun i => (outlookAt t i).insideCode) (byteSize t) i tables.2

theorem BacktickInv.step {tables : Array Bool × Array Bool} (hi : i < byteSize t)
    (h : BacktickInv t (i + 1) tables) :
    ∃ tables', writeBacktick (utf8 t) i tables = some tables' ∧ BacktickInv t i tables' := by
  obtain ⟨b, hb, hstep⟩ := exists_outlookAt_eq hi
  obtain ⟨outside, hwrite, hout⟩ := h.outside.write (Nat.le_of_lt hi) rfl
  obtain ⟨inside, hwrite', hin⟩ := h.inside.write (Nat.le_of_lt hi) rfl
  refine ⟨(outside, inside), ?_, hout, hin⟩
  have hentry := outsideEntry_eq (b := b) (h.outside.next hi) (h.inside.next hi)
    (completesAt t (i + 1))
  have hentry' := insideEntry_eq (b := b) (hout.get (i + 1) (Nat.le_succ i) hi)
    (h.inside.next hi) (completesAt t (i + 1))
  rw [← hstep] at hentry hentry'
  simp [writeBacktick, hb, hentry, hwrite, hentry', hwrite']

theorem exists_outsideCode (t : Text) :
    ∃ table, outsideCode (utf8 t) = some table ∧
      Filled (fun i => (outlookAt t i).outsideCode) (byteSize t) 0 table := by
  -- the last entry is written before the loop
  have hblank : Filled (fun i => (outlookAt t i).outsideCode) (byteSize t) (byteSize t + 1)
      (.replicate (byteSize t + 1) false) := ⟨Array.size_replicate, fun j hj hn => by omega⟩
  obtain ⟨outside, hwrite, hout⟩ := hblank.write (Nat.le_refl _) (a := true)
    (by rw [outlookAt_byteSize]; rfl)
  have hin : Filled (fun i => (outlookAt t i).insideCode) (byteSize t) (byteSize t)
      (.replicate (byteSize t + 1) false) := .replicate (by rw [outlookAt_byteSize]; rfl)
  have hfirst : BacktickInv t (byteSize t) (outside, .replicate (byteSize t + 1) false) :=
    ⟨hout, hin⟩
  obtain ⟨tables, hloop, h⟩ := exists_downFrom hfirst fun i hi _ => BacktickInv.step hi
  refine ⟨tables.1, ?_, h.outside⟩
  simp [outsideCode, hwrite, hloop]

/-- What the tables of tags hold from an offset on. -/
structure TagInv (t : Text) (i : Nat) (tables : Array Bool × Array Bool × Array Bool) : Prop where
  tagEnds : Filled (fun i => (outlookAt t i).tagEndAhead) (byteSize t) i tables.1
  closingTags : Filled (fun i => (outlookAt t i).closingTagAhead) (byteSize t) i tables.2.1
  inside : Filled (fun i => (outlookAt t i).insideTag) (byteSize t) i tables.2.2

theorem TagInv.step {tables : Array Bool × Array Bool × Array Bool} (hi : i < byteSize t)
    (h : TagInv t (i + 1) tables) :
    ∃ tables', writeTag t i tables = some tables' ∧ TagInv t i tables' := by
  obtain ⟨b, hb, hstep⟩ := exists_outlookAt_eq hi
  obtain ⟨tagEnds, hwrite₁, hends⟩ := h.tagEnds.write (Nat.le_of_lt hi) rfl
  obtain ⟨closingTags, hwrite₂, hclosing⟩ := h.closingTags.write (Nat.le_of_lt hi) rfl
  obtain ⟨inside, hwrite₃, hin⟩ := h.inside.write (Nat.le_of_lt hi) rfl
  refine ⟨(tagEnds, closingTags, inside), ?_, hends, hclosing, hin⟩
  have hentry₁ := tagEndEntry_eq (b := b) (h.tagEnds.next hi) (completesAt t (i + 1))
  have hentry₂ := closingTagEntry_eq hb hends (h.closingTags.next hi)
  have hentry₃ := insideTagEntry_eq (b := b) (hclosing.get (i + 1) (Nat.le_succ i) hi)
    (h.inside.next hi) (completesAt t (i + 1))
  rw [← hstep] at hentry₁ hentry₂ hentry₃
  simp [writeTag, hb, hentry₁, hwrite₁, hentry₂, hwrite₂, hentry₃, hwrite₃]

theorem exists_insideTag (t : Text) :
    ∃ table, insideTag t = some table ∧
      Filled (fun i => (outlookAt t i).insideTag) (byteSize t) 0 table := by
  have hblank {f : Outlook → Bool} (hf : f .atEnd = false) :
      Filled (fun i => f (outlookAt t i)) (byteSize t) (byteSize t)
        (.replicate (byteSize t + 1) false) := .replicate (by rw [outlookAt_byteSize, hf])
  have hfirst : TagInv t (byteSize t) (.replicate (byteSize t + 1) false,
      .replicate (byteSize t + 1) false, .replicate (byteSize t + 1) false) :=
    ⟨hblank (f := Outlook.tagEndAhead) rfl, hblank (f := Outlook.closingTagAhead) rfl,
      hblank (f := Outlook.insideTag) rfl⟩
  obtain ⟨tables, hloop, h⟩ := exists_downFrom hfirst fun i hi _ => TagInv.step hi
  refine ⟨tables.2.2, ?_, h.inside⟩
  simp [insideTag, hloop]

end ByteTable

end Markdown
