import Markdown.Proofs.Marks.Basic
import Markdown.Proofs.Pattern.Tokens

/-!
# Occurrences of placeholders

A token is a durable word, and two tokens cannot overlap: a text is a token with other digits, or
the same one, or none reaches into it (`isClosed_token`).
-/

namespace Markdown

open Text

theorem isMarkChar_of_isDigit {c : Char} (h : c.isDigit) : isMarkChar c = false := by
  have hrange : 48 ≤ c.toNat ∧ c.toNat ≤ 57 := Char.isDigit_iff_toNat.1 h
  have hspace : Unicode.isWhiteSpace c = false := by
    simp only [Unicode.isWhiteSpace, Unicode.whiteSpace, Unicode.Ranges.mem]
    rw [if_neg (by omega), if_neg (by omega), if_pos (by omega)]
    have hlow : ¬ c.toNat ≤ 0xD ∧ ¬ c.toNat ≤ 0x20 := by omega
    simp [hlow]
  rw [isMarkChar, hspace, h]
  simp

variable {ds ds' : Text}

theorem isDurable_token (h : IsDigits ds) : IsDurable (token ds) := by
  refine ⟨fun c hc => ?_, ⟨'\x7b', by simp [token], rfl⟩, by simp [token], by simp [token, List.getLast?_cons]⟩
  simp only [token, List.mem_append] at hc
  rcases hc with (hc | hc) | hc
  · obtain rfl : c = '\x7b' := by simpa using hc
    decide
  · exact isMarkChar_of_isDigit (h.2 c hc)
  · obtain rfl : c = '\x7d' := by simpa using hc
    decide

theorem count_token (h : IsDigits ds) :
    (token ds).count '\x7b' = 3 ∧ (token ds).count '\x7d' = 3 := by
  have hopen : ds.count '\x7b' = 0 := List.count_eq_zero.2 (h.notMem rfl)
  have hclose : ds.count '\x7d' = 0 := List.count_eq_zero.2 (h.notMem rfl)
  simp [token, hopen, hclose]

/-- An end of a token that has an opening brace has all closing ones. -/
theorem count_of_suffix_token (h : IsDigits ds) {x : Text} (hx : x <:+ token ds)
    (hmem : '\x7b' ∈ x) : 3 ≤ x.count '\x7d' := by
  obtain ⟨y, hy⟩ := hx
  rw [token, List.append_assoc] at hy
  rcases List.append_eq_append_iff.1 hy with ⟨z, -, rfl⟩ | ⟨z, -, hz⟩
  · have : ("\x7d\x7d\x7d".toList).count '\x7d' = 3 := rfl
    rw [List.count_append, List.count_append]
    omega
  · have hmem' : '\x7b' ∈ ds ++ "\x7d\x7d\x7d".toList := hz ▸ List.mem_append_right _ hmem
    rcases List.mem_append.1 hmem' with hmem' | hmem'
    · exact absurd hmem' (h.notMem rfl)
    · exact absurd hmem' (by decide)

/-- If a token is parted, the first part begins with a brace and the second one ends with one, so that
neither has three of the other's. -/
theorem of_token_eq_append (h : IsDigits ds) {u v : Text} (hw : token ds = u ++ v) (hu : u ≠ [])
    (hv : v ≠ []) : ('\x7b' ∈ u ∧ v.count '\x7b' < 3) ∧ '\x7d' ∈ v ∧ u.count '\x7d' < 3 := by
  have hhead : '\x7b' ∈ u := by
    have hfirst := congrArg List.head? hw
    obtain ⟨c, u, rfl⟩ := List.exists_cons_of_ne_nil hu
    obtain rfl : c = '\x7b' := by simpa [token, eq_comm] using hfirst
    exact List.mem_cons_self
  have hlast : '\x7d' ∈ v := by
    have hend := congrArg List.getLast? hw
    rw [List.getLast?_append, List.getLast?_eq_some_getLast hv] at hend
    have hv' : v.getLast hv = '\x7d' := by simpa [token, List.getLast?_cons, eq_comm] using hend
    exact hv' ▸ List.getLast_mem hv
  obtain ⟨hopen, hclose⟩ := count_token h
  rw [hw, List.count_append] at hopen hclose
  have hpos := List.count_pos_iff.2 hhead
  have hpos' := List.count_pos_iff.2 hlast
  exact ⟨⟨hhead, by omega⟩, hlast, by omega⟩

/-- Neither a part of a token nor one of a neighbour completes the other. -/
theorem isClosed_token (h : IsDigits ds) (h' : IsDigits ds') : IsClosed (token ds) (token ds') := by
  refine isClosed_of_apart (fun l r => ?_) fun r => ?_
  · -- `v` would have to begin with three opening braces
    intro u v hw hu hv _ hp
    obtain ⟨⟨-, hcount⟩, hlast, -⟩ := of_token_eq_append h hw hu hv
    obtain ⟨y, hy⟩ := hp
    rw [token, List.append_assoc, List.append_assoc] at hy
    rcases List.append_eq_append_iff.1 hy with ⟨z, hz, -⟩ | ⟨z, rfl, -⟩
    · have hmem : '\x7d' ∈ "\x7b\x7b\x7b".toList := hz ▸ List.mem_append_left _ hlast
      exact absurd hmem (by decide)
    · have hthree : ("\x7b\x7b\x7b".toList).count '\x7b' = 3 := rfl
      rw [List.count_append] at hcount
      omega
  · -- `u` would have to end with three closing braces
    intro u v hw hu hv hs _
    obtain ⟨⟨hhead, -⟩, -, hcount⟩ := of_token_eq_append h hw hu hv
    have hthree := count_of_suffix_token h' hs hhead
    omega

theorem token_inj (h : token ds = token ds') : ds = ds' := by
  rw [token, token, List.append_assoc, List.append_assoc] at h
  exact List.append_cancel_right (List.append_cancel_left h)

/-- A token stands once in itself and in no other one. -/
theorem occurrences_token (h : IsDigits ds) (h' : IsDigits ds') :
    occurrences (token ds) (token ds') = if ds = ds' then 1 else 0 := by
  have htail : occurrences (token ds) ("\x7b\x7b".toList ++ ds' ++ "\x7d\x7d\x7d".toList) = 0 := by
    rw [occurrences_eq_zero_iff (isDurable_token h).ne_nil]
    intro hin
    have hle := hin.sublist.count_le '\x7b'
    have hopen : ds'.count '\x7b' = 0 := List.count_eq_zero.2 (h'.notMem rfl)
    rw [(count_token h).1] at hle
    simp [hopen] at hle
  have hsplit : token ds' = '\x7b' :: ("\x7b\x7b".toList ++ ds' ++ "\x7d\x7d\x7d".toList) := rfl
  rw [hsplit, occurrences, htail, ← hsplit]
  by_cases hds : ds = ds'
  · simp [hds]
  · have hpre : ¬ token ds <+: token ds' := fun hp =>
      hds (of_token_append_isPrefix h h' (t := []) (r := []) (by simpa using hp)).1
    rw [if_neg hpre, if_neg hds]

/-! ## Placeholders -/

theorem isDigits_ofNat (n : Nat) : IsDigits (Text.ofNat n) :=
  ⟨Nat.toDigits_ne_nil, fun _ hc => Nat.isDigit_of_mem_toDigits (by decide) (by decide) hc⟩

theorem decimal_ofNat (n : Nat) : decimal (Text.ofNat n) = n :=
  Nat.ofDigitChars_ten_toDigits

/-- All tokens of a text are placeholders with a number below `k`. -/
def OnlyPlaceholders (k : Nat) (d : Text) : Prop :=
  ∀ ds, IsDigits ds → token ds <:+: d → ∃ i < k, token ds = placeholder i

theorem placeholder_inj {i j : Nat} (h : placeholder i = placeholder j) : i = j := by
  rw [← decimal_ofNat i, token_inj h, decimal_ofNat]

end Markdown
