import Markdown.Proofs.Bytes.Tables
import Markdown.Proofs.Pattern.Enclosed
import Mathlib.Data.Nat.Init

/-!
# Pairs of backticks

The table of backticks is filled backwards by two recurrences, one seen from outside of code and one
from inside. What they compute reads forwards: from an offset on, the bytes are such that are no
backticks and pairs of backticks on one line (`PairsUp`); from inside, the first backtick ends a pair
that was begun before (`EndsPair`).

In a text that pairs up, the backticks are even in number, and the odd ones open and the even ones
close (`pairsUp_iff_pairedInOrder`).
-/

namespace Markdown.ByteTable

open Text

variable {b : UInt8} {bytes : List UInt8}

/-- A byte that may stand between the backticks of a pair: neither a backtick nor a line break. -/
def IsCodeByte (b : UInt8) : Prop :=
  b ≠ '`'.toUInt8 ∧ b ≠ '\n'.toUInt8 ∧ b ≠ '\r'.toUInt8

/-- Bytes that are no backticks, one after the other, and pairs of backticks on a line. -/
inductive PairsUp : List UInt8 → Prop
  | nil : PairsUp []
  | other {b : UInt8} {bytes : List UInt8} (hb : b ≠ '`'.toUInt8) (h : PairsUp bytes) :
      PairsUp (b :: bytes)
  | pair {code bytes : List UInt8} (hcode : ∀ b ∈ code, IsCodeByte b) (h : PairsUp bytes) :
      PairsUp ('`'.toUInt8 :: (code ++ '`'.toUInt8 :: bytes))

/-- Bytes that end a pair of backticks, with such that pair up behind it. -/
def EndsPair (bytes : List UInt8) : Prop :=
  ∃ code rest, bytes = code ++ '`'.toUInt8 :: rest ∧ (∀ b ∈ code, IsCodeByte b) ∧ PairsUp rest

/-! ## The recurrences -/

theorem pairsUp_cons_iff :
    PairsUp (b :: bytes) ↔ if b = '`'.toUInt8 then EndsPair bytes else PairsUp bytes := by
  constructor
  · intro h
    cases h with
    | other hb h => rwa [if_neg hb]
    | pair hcode h => rw [if_pos rfl]; exact ⟨_, _, rfl, hcode, h⟩
  · split
    · rename_i hb
      subst hb
      rintro ⟨code, rest, rfl, hcode, h⟩
      exact .pair hcode h
    · rename_i hb
      exact .other hb

theorem not_endsPair_nil : ¬ EndsPair [] := by
  rintro ⟨code, rest, h, -⟩
  simp at h

theorem endsPair_cons_iff :
    EndsPair (b :: bytes) ↔
      if b = '`'.toUInt8 then PairsUp bytes
      else b ≠ '\n'.toUInt8 ∧ b ≠ '\r'.toUInt8 ∧ EndsPair bytes := by
  constructor
  · rintro ⟨code, rest, h, hcode, hrest⟩
    cases code with
    | nil =>
      obtain ⟨rfl, rfl⟩ := List.cons.inj h
      rwa [if_pos rfl]
    | cons d code =>
      obtain ⟨rfl, rfl⟩ := List.cons.inj h
      obtain ⟨⟨hb, hlf, hcr⟩, hcode⟩ := List.forall_mem_cons.1 hcode
      rw [if_neg hb]
      exact ⟨hlf, hcr, code, rest, rfl, hcode, hrest⟩
  · split
    · rename_i hb
      subst hb
      intro h
      exact ⟨[], bytes, rfl, by simp, h⟩
    · rename_i hb
      rintro ⟨hlf, hcr, code, rest, rfl, hcode, hrest⟩
      exact ⟨b :: code, rest, rfl, List.forall_mem_cons.2 ⟨⟨hb, hlf, hcr⟩, hcode⟩, hrest⟩

/-- What the two tables of backticks say at an offset. -/
theorem outlookAt_pairsUp_iff {t : Text} {i : Nat} (hi : i ≤ byteSize t) :
    ((outlookAt t i).outsideCode = true ↔ PairsUp ((utf8 t).drop i)) ∧
      ((outlookAt t i).insideCode = true ↔ EndsPair ((utf8 t).drop i)) := by
  -- along the tables, from the end of the text
  induction hi using Nat.decreasingInduction with
  | self =>
    rw [outlookAt_byteSize, ← length_utf8, List.drop_length]
    exact ⟨by simp [Outlook.atEnd, PairsUp.nil], by simp [Outlook.atEnd, not_endsPair_nil]⟩
  | of_succ i hi ih =>
    obtain ⟨hout, hin⟩ := ih
    obtain ⟨b, hb, hstep⟩ := exists_outlookAt_eq hi
    obtain ⟨hlt, rfl⟩ := List.getElem?_eq_some_iff.1 hb
    rw [hstep, List.drop_eq_getElem_cons hlt, pairsUp_cons_iff, endsPair_cons_iff, ← hout, ← hin]
    by_cases hbt : (utf8 t)[i] = '`'.toUInt8
    · simp [before, hbt]
    · simp [before, hbt, and_assoc]

/-! ## The backticks by number -/

/-- The backticks are even in number, and no line break stands between the first and the second one,
the third and the fourth one and so on: between one that has an even number of others in front and
the next. -/
structure PairedInOrder (bytes : List UInt8) : Prop where
  even : 2 ∣ bytes.count '`'.toUInt8
  line : ∀ u code v, bytes = u ++ '`'.toUInt8 :: (code ++ '`'.toUInt8 :: v) →
    2 ∣ u.count '`'.toUInt8 → '`'.toUInt8 ∉ code → '\n'.toUInt8 ∉ code ∧ '\r'.toUInt8 ∉ code

theorem pairedInOrder_nil : PairedInOrder [] :=
  ⟨by simp, fun u code v h => by simp at h⟩

/-- A byte that is no backtick does not matter. -/
theorem pairedInOrder_cons_iff (hb : b ≠ '`'.toUInt8) :
    PairedInOrder (b :: bytes) ↔ PairedInOrder bytes := by
  constructor
  · intro h
    refine ⟨?_, fun u code v hv hu hcode => ?_⟩
    · have heven := h.even
      rwa [List.count_cons_of_ne hb] at heven
    · refine h.line (b :: u) code v (by rw [hv, List.cons_append]) ?_ hcode
      rwa [List.count_cons_of_ne hb]
  · intro h
    refine ⟨by rw [List.count_cons_of_ne hb]; exact h.even, fun u code v hv hu hcode => ?_⟩
    cases u with
    | nil => exact absurd (List.cons.inj hv).1 hb
    | cons d u =>
      obtain ⟨rfl, htail⟩ := List.cons.inj hv
      rw [List.count_cons_of_ne hb] at hu
      exact h.line u code v htail hu hcode

/-- The first two backticks are a pair, and the others are in order behind it. -/
theorem pairedInOrder_pair_iff {code rest : List UInt8} (hcode : '`'.toUInt8 ∉ code) :
    PairedInOrder ('`'.toUInt8 :: (code ++ '`'.toUInt8 :: rest)) ↔
      (∀ b ∈ code, IsCodeByte b) ∧ PairedInOrder rest := by
  have hcount : code.count '`'.toUInt8 = 0 := List.count_eq_zero.2 hcode
  constructor
  · intro h
    obtain ⟨hlf, hcr⟩ := h.line [] code rest rfl (by simp) hcode
    refine ⟨fun b hb => ⟨ne_of_mem_of_not_mem hb hcode, ne_of_mem_of_not_mem hb hlf,
      ne_of_mem_of_not_mem hb hcr⟩, ?_, fun u inner v hv hu hinner => ?_⟩
    · have heven := h.even
      rw [List.count_cons_self, List.count_append, List.count_cons_self] at heven
      omega
    · refine h.line ('`'.toUInt8 :: (code ++ '`'.toUInt8 :: u)) inner v (by simp [hv]) ?_ hinner
      rw [List.count_cons_self, List.count_append, List.count_cons_self]
      omega
  · rintro ⟨hbytes, h⟩
    refine ⟨?_, fun u inner v hv hu hinner => ?_⟩
    · have heven := h.even
      rw [List.count_cons_self, List.count_append, List.count_cons_self]
      omega
    cases u with
    | nil =>
      -- the first backtick opens the first pair
      obtain ⟨-, htail⟩ := List.cons.inj hv
      obtain ⟨rfl, -⟩ := Pattern.append_cons_inj htail hcode hinner
      exact ⟨fun hm => (hbytes _ hm).2.1 rfl, fun hm => (hbytes _ hm).2.2 rfl⟩
    | cons d u =>
      obtain ⟨rfl, htail⟩ := List.cons.inj hv
      rw [List.count_cons_self] at hu
      rcases List.append_eq_append_iff.1 htail with ⟨z, rfl, hz⟩ | ⟨z, rfl, hz⟩
      · cases z with
        | nil =>
          -- an odd number of backticks stands in front of the one that closes it
          rw [List.append_nil, hcount] at hu
          omega
        | cons d z =>
          obtain ⟨rfl, hrest⟩ := List.cons.inj hz
          refine h.line z inner v hrest ?_ hinner
          rw [List.count_append, List.count_cons_self] at hu
          omega
      · cases z with
        | nil =>
          rw [List.append_nil] at hcount
          omega
        | cons d z =>
          obtain ⟨rfl, -⟩ := List.cons.inj hz
          exact absurd (List.mem_append_right u List.mem_cons_self) hcode

theorem PairsUp.pairedInOrder (h : PairsUp bytes) : PairedInOrder bytes := by
  induction h with
  | nil => exact pairedInOrder_nil
  | other hb _ ih => exact (pairedInOrder_cons_iff hb).2 ih
  | pair hcode _ ih => exact (pairedInOrder_pair_iff fun hm => (hcode _ hm).1 rfl).2 ⟨hcode, ih⟩

theorem PairedInOrder.pairsUp (h : PairedInOrder bytes) : PairsUp bytes := by
  induction hn : bytes.length using Nat.strongRecOn generalizing bytes with
  | ind n ih =>
    cases bytes with
    | nil => exact .nil
    | cons b bytes =>
      by_cases hb : b = '`'.toUInt8
      · subst hb
        have heven := h.even
        rw [List.count_cons_self] at heven
        have hmem : '`'.toUInt8 ∈ bytes := List.count_pos_iff.1 (by omega)
        obtain ⟨code, rest, rfl, hcode⟩ := List.eq_append_cons_of_mem hmem
        obtain ⟨hbytes, hrest⟩ := (pairedInOrder_pair_iff hcode).1 h
        have hlen : rest.length < n := by
          rw [← hn, List.length_cons, List.length_append, List.length_cons]
          omega
        exact .pair hbytes (ih rest.length hlen hrest rfl)
      · have hlen : bytes.length < n := hn ▸ Nat.lt_succ_self _
        exact .other hb (ih bytes.length hlen ((pairedInOrder_cons_iff hb).1 h) rfl)

theorem pairsUp_iff_pairedInOrder : PairsUp bytes ↔ PairedInOrder bytes :=
  ⟨PairsUp.pairedInOrder, PairedInOrder.pairsUp⟩

/-! ## The table -/

/-- The table of backticks is computed for every text, with an entry for each offset and the end. An
entry is true if the bytes from its offset on are a row of bytes that are no backticks and of pairs of
backticks on a line; in other words, if the backticks from there on are even in number and no line
break stands between an odd one and the next. -/
theorem outsideCode_pairsUp (t : Text) :
    ∃ table, outsideCode (utf8 t) = some table ∧ table.size = (utf8 t).length + 1 ∧
      ∀ i ≤ (utf8 t).length,
        (table[i]? = some true ↔ PairsUp ((utf8 t).drop i)) ∧
          (PairsUp ((utf8 t).drop i) ↔ PairedInOrder ((utf8 t).drop i)) := by
  obtain ⟨table, htable, hfilled⟩ := exists_outsideCode t
  rw [length_utf8]
  refine ⟨table, htable, hfilled.size, fun i hi => ⟨?_, pairsUp_iff_pairedInOrder⟩⟩
  rw [hfilled.get i (Nat.zero_le i) hi, Option.some_inj]
  exact (outlookAt_pairsUp_iff hi).1

example : outsideCode (utf8 "`a`b".toList) = some #[true, false, false, true, true] := by
  decide +kernel

end Markdown.ByteTable
