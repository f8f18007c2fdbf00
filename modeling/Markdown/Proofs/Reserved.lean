import Markdown.Proofs.Text.Occurrences
import Markdown.Reserved

/-!
# Reserved tokens in the protected text

The document that the first rule gets has no three opening braces next to each other, unless a
reserved token stands in the text and no character is left to stand in for its braces.
-/

namespace Markdown

theorem Text.includes_iff {needle t : Text} : Text.includes needle t ↔ needle <:+: t := by
  induction t with
  | nil => simp [includes]
  | cons c t ih =>
    rw [includes, Bool.or_eq_true, List.isPrefixOf_iff_prefix, ih, List.infix_cons_iff]

namespace Reserved

/-- The characters of the two ranges for private use. -/
def IsPrivateUse (c : Char) : Prop :=
  (0xE000 ≤ c.toNat ∧ c.toNat ≤ 0xF8FF) ∨ (0xF0000 ≤ c.toNat ∧ c.toNat ≤ 0xFFFFD)

theorem toNat_ofNat_of_isValidChar {n : Nat} (h : n.isValidChar) : (Char.ofNat n).toNat = n := by
  rw [Char.ofNat, dif_pos h]
  rfl

theorem mem_privateUse_iff {c : Char} : c ∈ privateUse ↔ IsPrivateUse c := by
  simp only [privateUse, List.mem_map, List.mem_append, List.mem_range'_1, IsPrivateUse]
  constructor
  · rintro ⟨n, hn, rfl⟩
    have hvalid : n.isValidChar := by
      simp only [Nat.isValidChar]
      omega
    rw [toNat_ofNat_of_isValidChar hvalid]
    omega
  · intro h
    exact ⟨c.toNat, by omega, Char.ofNat_toNat c⟩

end Reserved

namespace Protected

variable {t : Text}

theorem ofText_of_not_occursIn (h : Reserved.occursIn t = false) : ofText t = ⟨t, none⟩ := by
  simp [ofText, h]

theorem ofText_of_standIn?_eq_none (h : Reserved.standIn? t = none) : ofText t = ⟨t, none⟩ := by
  simp [ofText, h]

theorem ofText_of_standIn {c : Char} (h : Reserved.occursIn t) (hc : Reserved.standIn? t = some c) :
    ofText t = ⟨t.map fun d => if d = '\x7b' then c else d, some c⟩ := by
  simp [ofText, h, hc]

/-- The stand-in is no character of the text, and one for private use. -/
theorem of_standIn?_eq_some {c : Char} (hc : Reserved.standIn? t = some c) :
    c ∉ t ∧ c ∈ Reserved.privateUse := by
  simp only [Reserved.standIn?] at hc
  refine ⟨fun hm => ?_, List.mem_of_find?_eq_some hc⟩
  have hused := List.find?_some hc
  simp [hm] at hused

theorem le_toNat_of_mem_privateUse {c : Char} (h : c ∈ Reserved.privateUse) :
    0xE000 ≤ c.toNat := by
  rcases Reserved.mem_privateUse_iff.1 h with h | h <;> omega

theorem of_standIn_ofText {c : Char} (h : (ofText t).standIn = some c) :
    Reserved.occursIn t = true ∧ Reserved.standIn? t = some c := by
  unfold ofText at h
  split at h
  · rename_i hoccurs
    split at h
    · rename_i c' hc'
      obtain rfl : c' = c := Option.some.inj h
      exact ⟨hoccurs, hc'⟩
    · simp at h
  · simp at h

/-- What the rules get for a character of the text. -/
def hide (p : Protected) (d : Char) : Char :=
  match p.standIn with
  | some c => if d = '\x7b' then c else d
  | none => d

theorem text_ofText (t : Text) : (ofText t).text = t.map (ofText t).hide := by
  have hnone : t.map (hide ⟨t, none⟩) = t := List.map_id'' (fun _ => rfl) t
  unfold ofText
  split
  · split
    · rfl
    · exact hnone.symm
  · exact hnone.symm

/-- No character of the text becomes an ASCII character, except for one that stays. -/
theorem hide_eq_iff {a : Char} (ha : a.toNat < 0xE000) (hbrace : a ≠ '\x7b') (t : Text) (d : Char) :
    (ofText t).hide d = a ↔ d = a := by
  unfold hide
  split
  · rename_i c hc
    have hne : c ≠ a := by
      rintro rfl
      have hprivate := le_toNat_of_mem_privateUse (of_standIn?_eq_some (of_standIn_ofText hc).2).2
      omega
    split
    · rename_i hd
      simp [hne, hd, hbrace.symm]
    · rfl
  · rfl

/-- A text with a stand-in has no opening brace. -/
theorem brace_notMem_text {c : Char} (h : (ofText t).standIn = some c) :
    '\x7b' ∉ (ofText t).text := by
  unfold ofText at h ⊢
  split
  · split
    · rename_i c' hc'
      have hne : c' ≠ '\x7b' := by
        rintro rfl
        exact absurd (le_toNat_of_mem_privateUse (of_standIn?_eq_some hc').2) (by decide)
      simp only [List.mem_map, not_exists, not_and]
      intro d _
      split
      · exact hne
      · assumption
    · simp_all
  · simp_all

/-- The words that cannot hold a line feed are as frequent in the document as in the text. -/
theorem occurrences_document {w : Text} (hw : '\n' ∉ w) (hne : w ≠ []) (p : Protected) :
    Text.occurrences w p.document = Text.occurrences w p.text := by
  have hzero : Text.occurrences w ['\n'] = 0 := by
    obtain ⟨c, w, rfl⟩ := List.exists_cons_of_ne_nil hne
    exact Text.occurrences_eq_zero_of_notMem (c := c) (by simp) fun hm => hw (by simp_all)
  have hsplit : p.document = ['\n'] ++ p.text ++ ['\n'] := rfl
  rw [hsplit, (Text.isClosed_singleton hw).append_right, (Text.isClosed_singleton hw).append_left,
    hzero, Nat.zero_add, Nat.add_zero]

/-- No reserved token stands in a document in which none is left as it is. -/
theorem not_infix_document {w : Text} (hw : w ∈ Reserved.tokens)
    (h : Reserved.occursIn t = false ∨ (ofText t).standIn.isSome) : ¬ w <:+: (ofText t).document := by
  obtain ⟨hbrace, hlf⟩ : '\x7b' ∈ w ∧ '\n' ∉ w := by
    simp only [Reserved.tokens, List.mem_cons, List.not_mem_nil, or_false] at hw
    rcases hw with rfl | rfl | rfl <;> decide
  have hne : w ≠ [] := List.ne_nil_of_mem hbrace
  rw [← Text.occurrences_eq_zero_iff hne, occurrences_document hlf hne,
    Text.occurrences_eq_zero_iff hne]
  rcases h with h | h
  · rw [ofText_of_not_occursIn h]
    intro hin
    have hoccurs : Reserved.occursIn t = true := by
      rw [Reserved.occursIn, List.any_eq_true]
      exact ⟨w, hw, Text.includes_iff.2 hin⟩
    rw [h] at hoccurs
    exact absurd hoccurs (by simp)
  · obtain ⟨c, hc⟩ := Option.isSome_iff_exists.1 h
    exact fun hin => brace_notMem_text hc (hin.subset hbrace)

/-- No three opening braces stand in such a document. -/
theorem not_braces_infix_document
    (h : Reserved.occursIn t = false ∨ (ofText t).standIn.isSome) :
    ¬ "\x7b\x7b\x7b".toList <:+: (ofText t).document :=
  not_infix_document (by simp [Reserved.tokens]) h

/-- Nothing is left as it is if a character can stand in where it has to. -/
theorem not_occursIn_or_standIn
    (h : Reserved.occursIn t = true → (Reserved.standIn? t).isSome) :
    Reserved.occursIn t = false ∨ (ofText t).standIn.isSome := by
  by_cases hoccurs : Reserved.occursIn t = true
  · obtain ⟨c, hc⟩ := Option.isSome_iff_exists.1 (h hoccurs)
    rw [ofText_of_standIn hoccurs hc]
    exact .inr rfl
  · exact .inl (by simpa using hoccurs)

end Protected

end Markdown
