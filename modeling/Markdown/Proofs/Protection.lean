import Mathlib.Data.Char
import Mathlib.Data.List.Infix
import Markdown.Proofs.Reserved
import Markdown.Proofs.Text.Replacing

/-!
# Hiding and releasing braces

The protection of reserved tokens can be undone, and it is seen in nothing but the braces
(`Protected.protection_exact`). What this rests on is that the stand-in is new to the text: it is the
least of the characters for private use that the text does not have
(`Reserved.isLeast_of_standIn?_eq_some`).
-/

namespace Markdown

open Text

variable {t : Text} {c : Char}

namespace Reserved

/-! ## The stand-in -/

/-- The characters for private use are considered in their order. -/
theorem pairwise_privateUse : privateUse.Pairwise (· < ·) := by
  have hnumbers : (List.range' 0xE000 0x1900 ++ List.range' 0xF0000 0xFFFE).Pairwise (· < ·) := by
    rw [List.pairwise_append]
    refine ⟨List.pairwise_lt_range', List.pairwise_lt_range', fun a ha b hb => ?_⟩
    rw [List.mem_range'_1] at ha hb
    omega
  have hvalid {n : Nat} (hn : n ∈ List.range' 0xE000 0x1900 ++ List.range' 0xF0000 0xFFFE) :
      n.isValidChar := by
    simp only [List.mem_append, List.mem_range'_1] at hn
    simp only [Nat.isValidChar]
    omega
  rw [privateUse, List.pairwise_map]
  refine hnumbers.imp_of_mem fun {a b} ha hb hlt => ?_
  change (Char.ofNat a).toNat < (Char.ofNat b).toNat
  rwa [toNat_ofNat_of_isValidChar (hvalid ha), toNat_ofNat_of_isValidChar (hvalid hb)]

theorem standIn?_eq_none_iff : standIn? t = none ↔ ∀ c, IsPrivateUse c → c ∈ t := by
  simp [standIn?, mem_privateUse_iff]

/-- The stand-in is the first character for private use that a text does not have. -/
theorem isLeast_of_standIn?_eq_some (h : standIn? t = some c) :
    IsPrivateUse c ∧ c ∉ t ∧ ∀ d, IsPrivateUse d → d ∉ t → c ≤ d := by
  obtain ⟨hc, hmem⟩ := Protected.of_standIn?_eq_some h
  refine ⟨mem_privateUse_iff.1 hmem, hc, fun d hd hdt => ?_⟩
  obtain ⟨-, before, behind, hsplit, hbefore⟩ := List.find?_eq_some_iff_append.1 h
  have hordered := pairwise_privateUse
  rw [hsplit, List.pairwise_append, List.pairwise_cons] at hordered
  have hd' := mem_privateUse_iff.2 hd
  rw [hsplit, List.mem_append, List.mem_cons] at hd'
  rcases hd' with hd' | rfl | hd'
  · exact absurd (hbefore d hd') (by simp [hdt])
  · exact le_refl d
  · exact le_of_lt (hordered.2.1.1 d hd')

/-! ## Texts that are left as they are -/

/-- There is nothing to hide in a text, or nothing to hide it behind. -/
def IsExempt (t : Text) : Prop :=
  (∀ w ∈ ["\x7b\x7b\x7b", "\x7b^^^\x7d", "\x7b~~~\x7d"], ¬ w.toList <:+: t) ∨
    ∀ c, IsPrivateUse c → c ∈ t

theorem occursIn_eq_false_iff : occursIn t = false ↔
    ∀ w ∈ ["\x7b\x7b\x7b", "\x7b^^^\x7d", "\x7b~~~\x7d"], ¬ w.toList <:+: t := by
  have htokens : tokens = ["\x7b\x7b\x7b", "\x7b^^^\x7d", "\x7b~~~\x7d"].map String.toList := by
    decide
  rw [occursIn, List.any_eq_false, htokens, List.forall_mem_map]
  simp only [includes_iff]

/-- A text that is not left as it is has a stand-in. -/
theorem exists_standIn_of_not_isExempt (h : ¬ IsExempt t) :
    occursIn t = true ∧ ∃ c, standIn? t = some c := by
  rw [IsExempt, not_or, ← occursIn_eq_false_iff, ← standIn?_eq_none_iff] at h
  exact ⟨by simpa using h.1, Option.ne_none_iff_exists'.1 h.2⟩

end Reserved

namespace Protected

theorem ofText_of_isExempt (h : Reserved.IsExempt t) : ofText t = ⟨t, none⟩ := by
  rcases h with h | h
  · exact ofText_of_not_occursIn (Reserved.occursIn_eq_false_iff.2 h)
  · exact ofText_of_standIn?_eq_none (Reserved.standIn?_eq_none_iff.2 h)

/-! ## There and back -/

/-- Putting the braces back for a character that is new to the text gives the text. -/
theorem replace_map_hidden (hc : c ∉ t) :
    Text.replace (t.map fun d => if d = '\x7b' then c else d) [c] ['\x7b'] = t := by
  rw [replace_singleton, List.flatMap_map]
  conv_rhs => rw [← List.flatMap_singleton' t]
  refine List.flatMap_congr fun d hd => ?_
  have hne : d ≠ c := fun h => hc (h ▸ hd)
  by_cases hbrace : d = '\x7b' <;> simp [hbrace, hne]

/-- So does releasing, with references for the braces. -/
theorem replace_map_hidden_reference (hc : c ∉ t) :
    Text.replace (t.map fun d => if d = '\x7b' then c else d) [c] Reserved.braceReference =
      t.replace ['\x7b'] Reserved.braceReference := by
  rw [replace_singleton, replace_singleton, List.flatMap_map]
  refine List.flatMap_congr fun d hd => ?_
  have hne : d ≠ c := fun h => hc (h ▸ hd)
  by_cases hbrace : d = '\x7b' <;> simp [hbrace, hne]

/-- A text without reserved tokens, or with all characters for private use, is left as it is, and
releasing changes nothing then. From any other text all opening braces are gone: the first character
for private use that the text does not have stands for each of them, and putting braces back for it
gives the text again. Releasing puts the reference of the brace for the stand-in and changes nothing
else, and so the protected text becomes the text with references for its braces. -/
theorem protection_exact (t : Text) :
    (Reserved.IsExempt t → (ofText t).text = t ∧ ∀ output, (ofText t).release output = output) ∧
    (¬ Reserved.IsExempt t →
      '\x7b' ∉ (ofText t).text ∧
      (∃ c, (ofText t).standIn = some c ∧
        (Reserved.IsPrivateUse c ∧ c ∉ t ∧ ∀ d, Reserved.IsPrivateUse d → d ∉ t → c ≤ d) ∧
        (ofText t).text.replace [c] ['\x7b'] = t ∧
        ∀ output, (ofText t).release output = output.replace [c] "&#123;".toList) ∧
      (ofText t).release (ofText t).text = t.replace ['\x7b'] "&#123;".toList) := by
  refine ⟨fun h => ?_, fun h => ?_⟩
  · rw [ofText_of_isExempt h]
    exact ⟨rfl, fun _ => rfl⟩
  · obtain ⟨hoccurs, c, hc⟩ := Reserved.exists_standIn_of_not_isExempt h
    have hprotected := ofText_of_standIn hoccurs hc
    have hleast := Reserved.isLeast_of_standIn?_eq_some hc
    have hrelease (output : Text) :
        (ofText t).release output = output.replace [c] Reserved.braceReference := by
      rw [hprotected, replace_singleton]
      rfl
    refine ⟨brace_notMem_text (by rw [hprotected]), ⟨c, by rw [hprotected], hleast, ?_, hrelease⟩, ?_⟩
    · rw [hprotected]
      exact replace_map_hidden hleast.2.1
    · rw [hrelease, hprotected]
      exact replace_map_hidden_reference hleast.2.1

/-- The first character for private use stands in the texts already: in one with a token, and in one
with nothing to hide. -/
theorem protection_exact_of_private_use :
    (¬ Reserved.IsExempt "\x7b\x7b\x7b0\x7d\x7d\x7d \uE000".toList ∧
      (ofText "\x7b\x7b\x7b0\x7d\x7d\x7d \uE000".toList).standIn = some '\uE001' ∧
      (ofText "\x7b\x7b\x7b0\x7d\x7d\x7d \uE000".toList).release
          (ofText "\x7b\x7b\x7b0\x7d\x7d\x7d \uE000".toList).text =
        "&#123;&#123;&#123;0\x7d\x7d\x7d \uE000".toList) ∧
    Reserved.IsExempt "\x7bx\x7d \uE000".toList ∧
      (ofText "\x7bx\x7d \uE000".toList).release "a \uE000 b".toList = "a \uE000 b".toList := by
  have hfree : Reserved.IsPrivateUse '\uE001' ∧
      '\uE001' ∉ "\x7b\x7b\x7b0\x7d\x7d\x7d \uE000".toList :=
    ⟨by simp [Reserved.IsPrivateUse], by decide⟩
  have hnot : ¬ Reserved.IsExempt "\x7b\x7b\x7b0\x7d\x7d\x7d \uE000".toList := by
    rintro (h | h)
    · exact h "\x7b\x7b\x7b" (by simp) ⟨[], "0\x7d\x7d\x7d \uE000".toList, rfl⟩
    · exact hfree.2 (h _ hfree.1)
  have hexempt : Reserved.IsExempt "\x7bx\x7d \uE000".toList := by
    refine .inl fun w hw => ?_
    rw [← Text.includes_iff]
    revert w
    decide
  obtain ⟨-, ⟨c, hc, ⟨hprivate, hnew, hleast⟩, -, -⟩, hreleased⟩ := (protection_exact _).2 hnot
  -- the stand-in is not the character of the text, and not behind the one that is free
  obtain rfl : c = '\uE001' := by
    have hle : c.toNat ≤ 0xE001 := hleast '\uE001' hfree.1 hfree.2
    have hne : c.toNat ≠ 0xE000 := by
      intro h
      obtain rfl : c = '\uE000' := Char.toNat_inj.1 h
      exact hnew (by decide)
    refine Char.toNat_inj.1 (?_ : c.toNat = 0xE001)
    rcases hprivate with h | h <;> omega
  exact ⟨⟨hnot, hc, hreleased.trans (by decide +kernel)⟩, hexempt,
    ((protection_exact _).1 hexempt).2 _⟩

end Protected

end Markdown
