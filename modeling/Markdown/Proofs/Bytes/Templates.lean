import Mathlib.Data.List.Induction
import Mathlib.Tactic.MkIffOfInductiveProp
import Markdown.Proofs.Bytes.Places
import Markdown.Proofs.Templates
import Markdown.Template.Bytes

/-!
# Templates are read in bytes

Each step of the reading goes over some characters and takes their segments (`Template.StepsOver`). So
reading leads to the end of every template and cuts none of its characters, and the parts are the
segments with neighbouring characters put together (`Template.parse_eq`). What a template stands for
is put together from what its pieces stand for (`Template.expand_compositional`).
-/

namespace Markdown

/-! ## Bytes and characters -/

namespace Text

variable {u t : Text} {c : Char} {p : Char → Bool}

theorem offsetOf?_eq_none (h : ∀ c ∈ t, p c = false) : t.offsetOf? p = none := by
  rw [offsetOf?, if_neg (by simpa using h)]

theorem offsetOf?_append (h : ∀ c ∈ u, p c = false) (hc : p c = true) (v : Text) :
    (u ++ c :: v).offsetOf? p = some (byteSize u) := by
  have htake : (u ++ c :: v).takeWhile (!p ·) = u := by
    rw [List.takeWhile_append_of_pos fun d hd => by simp [h d hd],
      List.takeWhile_cons_of_neg (by simp [hc]), List.append_nil]
  rw [offsetOf?, htake, if_pos (by simp [hc])]

end Text

open Text

namespace Template

variable {t rest : Text}

theorem isDigitByte_iff {b : UInt8} : isDigitByte b = true ↔ 48 ≤ b.toNat ∧ b.toNat ≤ 57 := by
  rw [isDigitByte, Bool.and_eq_true, decide_eq_true_iff, decide_eq_true_iff, UInt8.le_iff_toNat_le,
    UInt8.le_iff_toNat_le]
  rfl

theorem isDigit_iff {c : Char} : c.isDigit = true ↔ 48 ≤ c.toNat ∧ c.toNat ≤ 57 := by
  rw [Char.isDigit, Bool.and_eq_true, decide_eq_true_iff, decide_eq_true_iff, ge_iff_le,
    UInt32.le_iff_toNat_le, UInt32.le_iff_toNat_le]
  rfl

/-- A digit is one byte. -/
theorem utf8_cons_of_isDigit {c : Char} (h : c.isDigit = true) (t : Text) :
    utf8 (c :: t) = c.toUInt8 :: utf8 t ∧ isDigitByte c.toUInt8 = true := by
  obtain ⟨hle, hge⟩ := isDigit_iff.1 h
  have hascii : c.toNat < 128 := by omega
  rcases utf8EncodeChar_cases c with ⟨-, heq⟩ | ⟨hlarge, -⟩
  · refine ⟨by rw [utf8_cons, heq]; rfl, ?_⟩
    rw [isDigitByte_iff, toNat_toUInt8 hascii]
    exact ⟨hle, hge⟩
  · omega

/-- Any other character begins with a byte that is no digit. -/
theorem utf8_cons_of_not_isDigit {c : Char} (h : c.isDigit = false) (t : Text) :
    ∃ b bs, utf8 (c :: t) = b :: bs ∧ isDigitByte b = false := by
  obtain ⟨b, bs, hc, -⟩ := exists_utf8EncodeChar c
  refine ⟨b, bs ++ utf8 t, by rw [utf8_cons, hc]; rfl, ?_⟩
  rw [← Bool.not_eq_true, isDigit_iff] at h
  rw [← Bool.not_eq_true, isDigitByte_iff]
  rintro ⟨hle, hge⟩
  refine h ?_
  rcases utf8EncodeChar_cases c with ⟨hascii, heq⟩ | ⟨-, hall⟩
  · obtain ⟨rfl, -⟩ := List.cons.inj (heq.symm.trans hc)
    rw [toNat_toUInt8 hascii] at hle hge
    exact ⟨hle, hge⟩
  · have := hall b (by simp [hc])
    omega

theorem all_isDigitByte_utf8 {t : Text} (h : t.all Char.isDigit = true) :
    (utf8 t).all isDigitByte = true := by
  induction t with
  | nil => rfl
  | cons c t ih =>
    rw [List.all_cons, Bool.and_eq_true] at h
    obtain ⟨heq, hdigit⟩ := utf8_cons_of_isDigit h.1 t
    rw [heq, List.all_cons, hdigit, ih h.2]
    rfl

/-! ## References -/

/-- A reference that is given with the number of its bytes is one that is given with the text behind
it. -/
@[mk_iff]
inductive IsMeasured : Text → Option (Nat × Nat) → Option (Nat × Text) → Prop where
  | none (t : Text) : IsMeasured t none none
  | some (w rest : Text) (n : Nat) : IsMeasured (w ++ rest) (some (n, byteSize w)) (some (n, rest))

/-- The number of bytes grows with a text in front. -/
theorem IsMeasured.append {found : Option (Nat × Nat)} {reference : Option (Nat × Text)}
    (h : IsMeasured t found reference) (u : Text) :
    IsMeasured (u ++ t) (found.map fun (n, size) => (n, size + byteSize u)) reference := by
  cases h with
  | none => exact .none _
  | some w rest n =>
    have hmeasured := IsMeasured.some (u ++ w) rest n
    rwa [List.append_assoc, byteSize_append, Nat.add_comm] at hmeasured

theorem decimal_lt_pow {w : Text} (h : ∀ c ∈ w, c.isDigit = true) :
    decimal w < Nat.pow 10 w.length := by
  induction w using List.reverseRecOn with
  | nil => simp [decimal]
  | append_singleton w c ih =>
    have hdigit := isDigit_iff.1 (h c (by simp))
    have hdecimal : decimal (w ++ [c]) = 10 * decimal w + (c.toNat - 48) := by
      simp [decimal]
    have hw := ih fun d hd => h d (by simp [hd])
    have hpow : Nat.pow 10 (w.length + 1) = Nat.pow 10 w.length * 10 := rfl
    rw [hdecimal, List.length_append, List.length_singleton, hpow]
    omega

/-- A short reference is the digits at the beginning, at most two of them. -/
theorem shortReference?_cases (t : Text) :
    (shortReference? t = none ∧ ∀ c ∈ t.head?, c.isDigit = false) ∨
    ∃ w rest, shortReference? t = some (decimal w, rest) ∧ t = w ++ rest ∧
      w ≠ [] ∧ w.length ≤ 2 ∧ (∀ c ∈ w, c.isDigit = true) ∧
      (w.length = 2 ∨ ∀ c ∈ rest.head?, c.isDigit = false) := by
  match t with
  | [] => exact .inl ⟨rfl, by simp⟩
  | [a] =>
    by_cases ha : a.isDigit = true
    · exact .inr ⟨[a], [], by simp [shortReference?, ha]⟩
    · exact .inl (by simp [shortReference?, ha])
  | a :: b :: t =>
    by_cases ha : a.isDigit = true
    · by_cases hb : b.isDigit = true
      · exact .inr ⟨[a, b], t, by simp [shortReference?, ha, hb]⟩
      · exact .inr ⟨[a], b :: t, by simp [shortReference?, ha, hb]⟩
    · exact .inl (by simp [shortReference?, ha])

/-- The digits at the beginning of a text are the bytes of digits at the beginning. -/
theorem takeWhile_isDigitByte {w : Text} (hw : ∀ c ∈ w, c.isDigit = true) (n : Nat)
    (hrest : n = 0 ∨ ∀ c ∈ rest.head?, c.isDigit = false) :
    ((utf8 (w ++ rest)).take (w.length + n)).takeWhile isDigitByte = utf8 w := by
  induction w with
  | nil =>
    rcases hrest with rfl | hrest
    · simp
    · cases rest with
      | nil => simp
      | cons c rest =>
        obtain ⟨b, bs, heq, hb⟩ := utf8_cons_of_not_isDigit (hrest c rfl) rest
        cases n with
        | zero => simp
        | succ n =>
          rw [List.nil_append, heq, List.length_nil, Nat.zero_add, List.take_succ_cons,
            List.takeWhile_cons_of_neg (by simp [hb])]
          rfl
  | cons c w ih =>
    rw [List.forall_mem_cons] at hw
    obtain ⟨heq, hdigit⟩ := utf8_cons_of_isDigit hw.1 (w ++ rest)
    obtain ⟨heq', -⟩ := utf8_cons_of_isDigit hw.1 w
    rw [List.cons_append, heq, heq', List.length_cons, Nat.add_right_comm, List.take_succ_cons,
      List.takeWhile_cons_of_pos hdigit, ih hw.2]

theorem digitsGroup_eq (t : Text) :
    ∃ found, digitsGroup t = some found ∧ IsMeasured t found (shortReference? t) := by
  rcases shortReference?_cases t with
    ⟨hnone, hhead⟩ | ⟨w, rest, hsome, rfl, hne, hlength, hdigits, hend⟩
  · have hsize := takeWhile_isDigitByte (w := []) (by simp) 2 (.inr hhead)
    rw [List.nil_append, List.length_nil, Nat.zero_add] at hsize
    rw [hnone, digitsGroup, hsize]
    exact ⟨none, rfl, .none t⟩
  · have hsize := takeWhile_isDigitByte hdigits (2 - w.length) (hend.imp_left (by simp [·]))
    rw [Nat.add_sub_cancel' hlength] at hsize
    have hbetween := between?_append [] w rest
    rw [List.nil_append, byteSize_nil] at hbetween
    have hindex : index? w = some (decimal w) := by
      have hlt := decimal_lt_pow hdigits
      have hpow : Nat.pow 10 w.length ≤ Nat.pow 10 2 := Nat.pow_le_pow_right (by decide) hlength
      have hbound : Nat.pow 10 2 < indexBound := by decide
      rw [index?, if_neg (by simpa [hne] using hdigits), if_pos (by omega)]
    rw [hsome, digitsGroup, hsize, length_utf8, if_neg (Nat.ne_of_gt (byteSize_pos hne)), hbetween]
    simp only [Option.bind_eq_bind, Option.bind_some, hindex]
    exact ⟨_, rfl, .some w rest _⟩

theorem bracedGroup_eq (t : Text) :
    ∃ found, bracedGroup t = some found ∧ IsMeasured t found (bracedReference? t) := by
  by_cases hclose : '\x7d' ∈ t
  · obtain ⟨w, rest, rfl, hw⟩ := List.eq_append_cons_of_mem hclose
    have hoffset : offsetOf? (· == '\x7d') (w ++ '\x7d' :: rest) = some (byteSize w) :=
      offsetOf?_append (fun c hc => beq_false_of_ne (ne_of_mem_of_not_mem hc hw))
        (beq_self_eq_true _) rest
    have hbetween := between?_append [] w ('\x7d' :: rest)
    rw [List.nil_append, byteSize_nil] at hbetween
    rw [bracedReference?_closed hw, bracedGroup, hoffset]
    simp only [hbetween, Option.bind_eq_bind, Option.bind_some]
    cases hindex : index? w with
    | none => exact ⟨none, by split <;> rfl, .none _⟩
    | some n =>
      -- the bytes before the brace are looked at as well
      have hdigits : ¬ (w.isEmpty || !w.all Char.isDigit) = true := fun h => by
        rw [index?, if_pos h] at hindex
        simp at hindex
      have hbytes : ¬ (w.isEmpty || !(utf8 w).all isDigitByte) = true := by
        rw [Bool.or_eq_true, not_or, Bool.not_eq_true', Bool.not_eq_false] at hdigits
        simp [hdigits.1, all_isDigitByte_utf8 hdigits.2]
      rw [if_neg hbytes]
      have hmeasured := IsMeasured.some (w ++ ['\x7d']) rest n
      rw [List.append_assoc, List.singleton_append, byteSize_append] at hmeasured
      exact ⟨_, rfl, hmeasured⟩
  · have hnone : offsetOf? (· == '\x7d') t = none :=
      offsetOf?_eq_none fun c hc => beq_false_of_ne (ne_of_mem_of_not_mem hc hclose)
    rw [bracedGroup, hnone, bracedReference?_of_notMem hclose]
    exact ⟨none, rfl, .none t⟩

/-- A sign is one byte. -/
theorem utf8Size_of_isSign {c : Char} (h : isSign c = true) : c.utf8Size = 1 := by
  rcases eq_or_eq_of_isSign h with rfl | rfl <;> rfl

/-- The byte behind a sign tells which character of ASCII follows. -/
theorem getElem?_utf8_behind_sign (u : Text) {c : Char} (hc : isSign c = true) (t : Text) {a : Char}
    (ha : a.toNat < 128) :
    (utf8 (u ++ c :: t))[byteSize u + 1]? = some a.toUInt8 ↔ t.head? = some a := by
  have h := getElem?_utf8_eq_iff ha (u ++ [c]) t
  rwa [byteSize_append, byteSize_cons, byteSize_nil, utf8Size_of_isSign hc, List.append_assoc] at h

theorem groupAt_eq (u : Text) {c : Char} (hc : isSign c = true) (t : Text) :
    ∃ found, groupAt (u ++ c :: t) c.toUInt8 (byteSize u) = some found ∧
      IsMeasured (c :: t) found (reference? c t) := by
  have hsize := utf8Size_of_isSign hc
  have hdollar : c.toUInt8 = '$'.toUInt8 ↔ c = '$' := by
    rcases eq_or_eq_of_isSign hc with rfl | rfl <;> decide
  have hfrom (w v : Text) : from? (u ++ (w ++ v)) (byteSize u + byteSize w) = some v := by
    rw [← List.append_assoc, ← byteSize_append]
    exact from?_append (u ++ w) v
  have hcond := and_congr hdollar (getElem?_utf8_behind_sign u hc t (a := '\x7b') (by decide))
  rw [groupAt]
  by_cases hbraced : c = '$' ∧ t.head? = some '\x7b'
  · obtain ⟨rfl, hhead⟩ := hbraced
    obtain ⟨t, rfl⟩ := List.head?_eq_some_iff.1 hhead
    obtain ⟨found, hfound, hmeasured⟩ := bracedGroup_eq t
    have hbehind : from? (u ++ '$' :: '\x7b' :: t) (byteSize u + 2) = some t :=
      hfrom ['$', '\x7b'] t
    rw [if_pos (hcond.2 ⟨rfl, rfl⟩), hbehind, Option.bind_eq_bind, Option.bind_some, hfound,
      reference?_braced]
    exact ⟨_, rfl, hmeasured.append ['$', '\x7b']⟩
  · obtain ⟨found, hfound, hmeasured⟩ := digitsGroup_eq t
    have hbehind : from? (u ++ c :: t) (byteSize u + 1) = some t := by
      have h := hfrom [c] t
      rwa [byteSize_cons, byteSize_nil, hsize] at h
    rw [if_neg (mt hcond.1 hbraced), hbehind, Option.bind_eq_bind, Option.bind_some, hfound,
      reference?_short hbraced]
    refine ⟨_, rfl, ?_⟩
    have h := hmeasured.append [c]
    rwa [byteSize_cons, byteSize_nil, hsize] at h

/-! ## Parts -/

/-- A text as a part, if there is any. -/
def textPart (pending : Text) : List Part :=
  if pending.isEmpty then [] else [.text pending]

/-- Segments as parts, behind a text that goes on: neighbouring characters are one part. -/
def joined (pending : Text) : List Segment → List Part
  | [] => textPart pending
  | .char c :: ss => joined (pending ++ [c]) ss
  | .group n :: ss => textPart pending ++ .group n :: joined [] ss

theorem joined_map_char (pending run : Text) (ss : List Segment) :
    joined pending (run.map .char ++ ss) = joined (pending ++ run) ss := by
  induction run generalizing pending with
  | nil => simp
  | cons c run ih =>
    rw [List.map_cons, List.cons_append, joined, ih, List.append_assoc, List.singleton_append]

theorem flatMap_expand_textPart (pending : Text) (m : Match) :
    (textPart pending).flatMap (·.expand m) = pending := by
  cases pending <;> simp [textPart, Part.expand]

/-- Parts make the same text of a match as the segments. -/
theorem flatMap_expand_joined (pending : Text) (ss : List Segment) (m : Match) :
    (joined pending ss).flatMap (·.expand m) = pending ++ ss.flatMap (·.expand m) := by
  induction ss generalizing pending with
  | nil => simpa [joined] using flatMap_expand_textPart pending m
  | cons segment ss ih =>
    cases segment with
    | char c => simp [joined, ih, Segment.expand]
    | group n =>
      rw [joined, List.flatMap_append, flatMap_expand_textPart, List.flatMap_cons, ih,
        List.nil_append, List.flatMap_cons]
      rfl

namespace Reading

/-- The parts that come out if some segments are still to be read. -/
def joined (s : Reading) (ss : List Segment) : List Part :=
  s.parts.toList ++ Template.joined s.pending ss

variable (s : Reading)

theorem joined_add (t : Text) (ss : List Segment) :
    (s.add t).joined ss = s.joined (t.map .char ++ ss) := by
  rw [joined, joined, joined_map_char, add]

theorem toList_close : s.close.parts.toList = s.joined [] ∧ s.close.pending = [] := by
  rw [close, joined, Template.joined, textPart]
  split
  · rename_i h
    exact ⟨by simp, List.isEmpty_iff.1 h⟩
  · exact ⟨by simp, rfl⟩

theorem joined_refer (n : Nat) (ss : List Segment) :
    (s.refer n).joined ss = s.joined (.group n :: ss) := by
  obtain ⟨hparts, hpending⟩ := s.toList_close
  rw [refer, joined, hpending, Array.toList_push, hparts]
  simp [joined, Template.joined]

end Reading

/-! ## Reading -/

/-- What a step must do in front of a text: it takes some of its characters and, of the segments, those
which these characters are. -/
def StepsOver (u v : Text) (s : Reading) : Prop :=
  ∃ w rest s', v = w ++ rest ∧ w ≠ [] ∧
    step (u ++ v) (byteSize u) s = some (byteSize (u ++ w), s') ∧
    s'.joined (segments ⟨rest⟩) = s.joined (segments ⟨v⟩)

/-- The text up to the next sign, or to the end. -/
theorem exists_run (u v : Text) : ∃ run rest, v = run ++ rest ∧ (∀ c ∈ run, isSign c = false) ∧
    (∀ c ∈ rest.head?, isSign c = true) ∧
    (v.offsetOf? isSign).elim (byteSize (u ++ v)) (byteSize u + ·) = byteSize (u ++ run) := by
  cases hfind : v.find? isSign with
  | none =>
    have hnone : ∀ c ∈ v, isSign c = false := by simpa using hfind
    refine ⟨v, [], (List.append_nil v).symm, hnone, by simp, ?_⟩
    rw [offsetOf?_eq_none hnone, Option.elim_none]
  | some d =>
    obtain ⟨hd, run, rest, rfl, hrun⟩ := List.find?_eq_some_iff_append.1 hfind
    have hrun' : ∀ c ∈ run, isSign c = false := by simpa using hrun
    refine ⟨run, d :: rest, rfl, hrun', fun c hc => Option.some.inj hc ▸ hd, ?_⟩
    rw [offsetOf?_append hrun' hd, Option.elim_some, byteSize_append]

theorem step_of_not_isSign (u : Text) {c : Char} (hc : isSign c = false) (t : Text) (s : Reading) :
    StepsOver u (c :: t) s := by
  obtain ⟨b, hb, htells⟩ := exists_getElem?_utf8 u c t
  have hne : b ≠ '\\'.toUInt8 ∧ b ≠ '$'.toUInt8 := by
    constructor
    · exact fun h => by simp [(htells _ (by decide)).1 h, isSign] at hc
    · exact fun h => by simp [(htells _ (by decide)).1 h, isSign] at hc
  obtain ⟨run, rest, hrun, hsigns, hrest, hnext⟩ := exists_run u (c :: t)
  have hrun_ne : run ≠ [] := by
    rintro rfl
    rw [List.nil_append] at hrun
    rw [hrest c (by rw [← hrun]; rfl)] at hc
    exact absurd hc (by decide)
  have hbetween : between? (u ++ c :: t) (byteSize u) (byteSize (u ++ run)) = some run := by
    rw [hrun, ← List.append_assoc]
    exact between?_append u run rest
  refine ⟨run, rest, s.add run, hrun, hrun_ne, ?_, ?_⟩
  · rw [step, hb, Option.bind_eq_bind, Option.bind_some, if_pos hne, from?_append]
    simp only [Option.bind_eq_bind, Option.bind_some, hnext, hbetween]
    rfl
  · rw [s.joined_add, hrun, segments_text_append hsigns]

/-- A sign is one byte, and no text begins with it. -/
theorem getElem?_utf8_sign (u : Text) {c : Char} (hc : isSign c = true) (t : Text) :
    (utf8 (u ++ c :: t))[byteSize u]? = some c.toUInt8 ∧ Char.ofUInt8 c.toUInt8 = c ∧
      ¬ (c.toUInt8 ≠ '\\'.toUInt8 ∧ c.toUInt8 ≠ '$'.toUInt8) := by
  obtain ⟨hascii, hchar⟩ : c.toNat < 128 ∧ Char.ofUInt8 c.toUInt8 = c ∧
      ¬ (c.toUInt8 ≠ '\\'.toUInt8 ∧ c.toUInt8 ≠ '$'.toUInt8) := by
    rcases eq_or_eq_of_isSign hc with rfl | rfl <;> decide
  exact ⟨(getElem?_utf8_eq_iff hascii u _).2 rfl, hchar⟩

theorem behind_sign_iff (u : Text) {c : Char} (hc : isSign c = true) (t : Text) :
    (utf8 (u ++ c :: t))[byteSize u + 1]? = some c.toUInt8 ↔ t.head? = some c := by
  refine getElem?_utf8_behind_sign u hc t ?_
  rcases eq_or_eq_of_isSign hc with rfl | rfl <;> decide

/-- Two signs stand for one of them. -/
theorem step_of_doubled (u : Text) {c : Char} (hc : isSign c = true) (t : Text) (s : Reading) :
    StepsOver u (c :: c :: t) s := by
  obtain ⟨hbyte, hchar, hsign⟩ := getElem?_utf8_sign u hc (c :: t)
  have hstep : step (u ++ c :: c :: t) (byteSize u) s = some (byteSize u + 2, s.add [c]) := by
    rw [step, hbyte, Option.bind_eq_bind, Option.bind_some, if_neg hsign,
      if_pos ((behind_sign_iff u hc (c :: t)).2 rfl), hchar]
    rfl
  refine ⟨[c, c], t, s.add [c], rfl, by simp, ?_, ?_⟩
  · rw [hstep, byteSize_append, byteSize_cons, byteSize_cons, byteSize_nil, utf8Size_of_isSign hc]
  · rw [s.joined_add, segments_cons, firstSegment_doubled hc]
    rfl

/-- A single sign is the beginning of a reference, or a character. -/
theorem step_of_single (u : Text) {c : Char} (hc : isSign c = true) {t : Text}
    (hhead : t.head? ≠ some c) (s : Reading) : StepsOver u (c :: t) s := by
  obtain ⟨hbyte, hchar, hsign⟩ := getElem?_utf8_sign u hc t
  obtain ⟨found, hfound, hmeasured⟩ := groupAt_eq u hc t
  have hstep : step (u ++ c :: t) (byteSize u) s = some (found.elim
      (byteSize u + 1, s.add [c]) fun (n, size) => (byteSize u + size, s.refer n)) := by
    rw [step, hbyte, Option.bind_eq_bind, Option.bind_some, if_neg hsign,
      if_neg (mt (behind_sign_iff u hc t).1 hhead), hfound, hchar]
    cases found <;> rfl
  have hsingle := firstSegment_single hc hhead
  rcases (isMeasured_iff ..).1 hmeasured with
    ⟨hfound, hnone⟩ | ⟨w, rest, n, hv, hfound, hsome⟩
  · rw [hnone] at hsingle
    rw [hfound, Option.elim_none] at hstep
    refine ⟨[c], t, s.add [c], rfl, by simp, ?_, ?_⟩
    · rw [hstep, byteSize_append, byteSize_cons, byteSize_nil, utf8Size_of_isSign hc]
    · rw [s.joined_add, segments_cons, hsingle]
      rfl
  · rw [hsome] at hsingle
    rw [hfound, Option.elim_some] at hstep
    have hw : w ≠ [] := by
      rintro rfl
      have hlength := reference?_length hsome
      rw [← List.nil_append rest, ← hv, List.length_cons] at hlength
      omega
    refine ⟨w, rest, s.refer n, hv, hw, ?_, ?_⟩
    · rw [hstep, byteSize_append]
    · rw [s.joined_refer, segments_cons, hsingle]
      rfl

theorem step_of_isSign (u : Text) {c : Char} (hc : isSign c = true) (t : Text) (s : Reading) :
    StepsOver u (c :: t) s := by
  by_cases hhead : t.head? = some c
  · obtain ⟨t, rfl⟩ := List.head?_eq_some_iff.1 hhead
    exact step_of_doubled u hc t s
  · exact step_of_single u hc hhead s

/-- Reading leads to the end of the template. -/
theorem readFrom_eq (u v : Text) (s : Reading) :
    ∃ s', readFrom (u ++ v) (byteSize u) s = some s' ∧ s'.joined [] = s.joined (segments ⟨v⟩) := by
  induction hlength : v.length using Nat.strongRecOn generalizing u v s with
  | ind n ih =>
    cases v with
    | nil =>
      rw [readFrom, if_neg (by simp), segments_nil]
      exact ⟨s, rfl, rfl⟩
    | cons c t =>
      obtain ⟨w, rest, s₁, hv, hw, hstep, hjoined⟩ : StepsOver u (c :: t) s := by
        cases hc : isSign c with
        | false => exact step_of_not_isSign u hc t s
        | true => exact step_of_isSign u hc t s
      have hpos := byteSize_pos hw
      have hshort : rest.length < n := by
        rw [← hlength, hv, List.length_append]
        exact Nat.lt_add_of_pos_left (List.length_pos_iff.2 hw)
      obtain ⟨s', hread, hjoined'⟩ := ih _ hshort (u ++ w) rest s₁ rfl
      have hlt : byteSize u < byteSize (u ++ (c :: t)) := by
        rw [byteSize_append]
        exact Nat.lt_add_of_pos_right (byteSize_pos (List.cons_ne_nil c t))
      have hon : byteSize u < byteSize (u ++ w) := by
        rw [byteSize_append]
        exact Nat.lt_add_of_pos_right hpos
      rw [readFrom, if_pos hlt, hstep]
      simp only
      rw [if_pos hon, hv, ← List.append_assoc]
      exact ⟨s', hread, hjoined'.trans (hjoined.trans (by rw [hv]))⟩

/-- Every template is read, and its parts are its segments. -/
theorem parse_eq (source : Text) :
    ∃ parts, parse source = some parts ∧ parts.toList = joined [] (segments ⟨source⟩) := by
  obtain ⟨s, hread, hjoined⟩ := readFrom_eq [] source ⟨#[], []⟩
  rw [List.nil_append, byteSize_nil] at hread
  refine ⟨s.close.parts, by rw [parse, hread]; rfl, ?_⟩
  rw [s.toList_close.1, hjoined]
  rfl

/-- The parts make the text that the template stands for. -/
theorem expand?_eq (source : Text) (m : Match) :
    expand? source m = some ((Template.mk source).expand m) := by
  obtain ⟨parts, hparse, hparts⟩ := parse_eq source
  rw [expand?, hparse, Option.bind_eq_bind, Option.bind_some, hparts, flatMap_expand_joined]
  rfl

/-! ## Templates behind each other -/

/-- Reading a template in its bytes leads to the end of every template, without a cut inside a
character, and gives the text that the template stands for. A template in front of a text that begins
with no sign, no brace and no digit stands for what it stands for alone, wherever it ends: inside of a
reference, behind a single sign or behind some doubled ones. A text with all its signs doubled stands
for that text. -/
theorem expand_compositional :
    (∀ source m, expand? source m = some ((Template.mk source).expand m)) ∧
    (∀ a b m, BeginsAfresh b →
      (Template.mk (a ++ b)).expand m = (Template.mk a).expand m ++ (Template.mk b).expand m) ∧
    ∀ s m, (Template.mk (doubleSigns s)).expand m = s := by
  refine ⟨expand?_eq, fun a b m hb => ?_, fun s m => ?_⟩
  · rw [expand, hb.segments_append, List.flatMap_append]
    rfl
  · rw [expand, segments_doubleSigns, flatMap_expand_map_char]

/-- The reference that the first template leaves open does not go on in the second one. -/
theorem expand_compositional_of_open_reference :
    BeginsAfresh "é$1".toList ∧
    (∀ m, (Template.mk ("$$$\x7b12".toList ++ "é$1".toList)).expand m =
      (Template.mk "$$$\x7b12".toList).expand m ++ (Template.mk "é$1".toList).expand m) ∧
    (Template.mk "$$$\x7b12é$1".toList).expand ⟨"ab".toList, [some ['b']]⟩ = "$$\x7b12éb".toList := by
  have hafresh : BeginsAfresh "é$1".toList := by
    intro c hc
    obtain rfl := Option.some.inj hc
    decide
  exact ⟨hafresh, fun m => expand_compositional.2.1 _ _ m hafresh, by decide +kernel⟩

end Template

end Markdown
