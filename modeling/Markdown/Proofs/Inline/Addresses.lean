import Markdown.Proofs.Inline.Rendering

/-!
# Addresses with asterisks

The token for an asterisk holds two markers of deleted text. Within the tag of a link such a marker
does not open as long as no slash stands between it and the end of the tag, since for the guard a slash
ends the tag. An asterisk with another one and a slash behind it is therefore taken for the
beginning of deleted text, and both tokens are torn (`turns_hide`).
-/

namespace Markdown

open Pattern

/-! ## What becomes of an address -/

/-- The characters of an address, asterisks included. -/
def isLinkChar (c : Char) : Bool :=
  isAddressChar c || c == '*'

/-- Where a link leads, if asterisks may stand in the address. -/
structure LinkAddress where
  text : Text
  ne_nil : text ≠ []
  isLinkChar_of_mem : ∀ c ∈ text, isLinkChar c

theorem notMem_of_isLinkChar {u : Text} {c : Char} (hu : ∀ c ∈ u, isLinkChar c)
    (h : isLinkChar c = false) : c ∉ u := by
  intro hc
  rw [hu c hc] at h
  exact absurd h (by simp)

theorem LinkAddress.notMem (u : LinkAddress) {c : Char} (h : isLinkChar c = false) : c ∉ u.text :=
  notMem_of_isLinkChar u.isLinkChar_of_mem h

/-- A part of an address: a character, or an asterisk that opens or closes deleted text. -/
inductive AddressPart where
  | char (c : Char)
  | opening
  | closing
deriving DecidableEq, Repr

namespace AddressPart

/-- The torn token of an asterisk that opens deleted text. -/
def openingToken : Text := "\x7b<del>~\x7d".toList

/-- The torn token of an asterisk that closes deleted text. -/
def closingToken : Text := "\x7b</del>~\x7d".toList

/-- A part with its token, if it has one. -/
def hidden : AddressPart → Text
  | char c => Url.hideChar c
  | opening => openingToken
  | closing => closingToken

/-- A part as it is revealed. -/
def html : AddressPart → Text
  | char c => [c]
  | opening => openingToken
  | closing => closingToken

end AddressPart

/-- The parts of an address, within deleted text or outside of it. An asterisk opens deleted text if
another one and a slash stand behind it, and the next asterisk closes it. -/
def addressParts : (deleted : Bool) → Text → List AddressPart
  | _, [] => []
  | false, c :: u =>
    if c = '*' ∧ '*' ∈ u ∧ '/' ∈ u then .opening :: addressParts true u
    else .char c :: addressParts false u
  | true, c :: u =>
    if c = '*' then .closing :: addressParts false u else .char c :: addressParts true u

/-- What an address is rendered as. -/
def shownAddress (u : Text) : Text :=
  (addressParts false u).flatMap AddressPart.html

/-- Behind no asterisk do another one and a slash stand. -/
def IsGuarded (u : Text) : Prop :=
  ∀ v w, u = v ++ '*' :: w → '*' ∈ w → '/' ∉ w

section Parts

variable {q u w : Text} {c : Char}

theorem addressParts_outside (c : Char) (u : Text) : addressParts false (c :: u) =
    if c = '*' ∧ '*' ∈ u ∧ '/' ∈ u then .opening :: addressParts true u
    else .char c :: addressParts false u := by
  rw [addressParts]

theorem addressParts_within (c : Char) (u : Text) : addressParts true (c :: u) =
    if c = '*' then .closing :: addressParts false u else .char c :: addressParts true u := by
  rw [addressParts]

theorem addressParts_append (hq : '*' ∉ q) (deleted : Bool) (w : Text) :
    addressParts deleted (q ++ w) = q.map .char ++ addressParts deleted w := by
  induction q with
  | nil => rfl
  | cons c q ih =>
    have hc : c ≠ '*' := fun h => hq (by simp [h])
    have ih' := ih fun h => hq (by simp [h])
    cases deleted with
    | false =>
      rw [List.cons_append, addressParts_outside, if_neg fun h => hc h.1, ih']
      rfl
    | true =>
      rw [List.cons_append, addressParts_within, if_neg hc, ih']
      rfl

theorem flatMap_map_char (f : AddressPart → Text) (q : Text) :
    (q.map AddressPart.char).flatMap f = q.flatMap fun c => f (.char c) := by
  rw [List.flatMap_map]

/-- A guarded address is shown as it is. -/
theorem shownAddress_of_isGuarded (h : IsGuarded u) : shownAddress u = u := by
  have hparts : addressParts false u = u.map .char := by
    induction u with
    | nil => rfl
    | cons c u ih =>
      have hc : ¬ (c = '*' ∧ '*' ∈ u ∧ '/' ∈ u) := by
        rintro ⟨rfl, hasterisk, hslash⟩
        exact h [] u rfl hasterisk hslash
      rw [addressParts_outside, if_neg hc, ih fun v w hu => h (c :: v) w (by rw [hu]; rfl)]
      rfl
  rw [shownAddress, hparts, flatMap_map_char]
  exact List.flatMap_singleton' u

/-- What stands behind some asterisk stands behind the first one. -/
theorem suffix_of_append_asterisk {v r : Text} (h : v ++ '*' :: w = q ++ '*' :: r) (hq : '*' ∉ q) :
    w <:+ r := by
  rcases List.append_eq_append_iff.1 h with ⟨a, rfl, ha⟩ | ⟨a, rfl, ha⟩
  · cases a with
    | nil =>
      obtain ⟨-, rfl⟩ := List.cons.inj ha
      exact List.suffix_rfl
    | cons c a =>
      obtain ⟨rfl, -⟩ := List.cons.inj ha
      exact absurd (by simp) hq
  · cases a with
    | nil =>
      obtain ⟨-, rfl⟩ := List.cons.inj ha
      exact List.suffix_rfl
    | cons c a =>
      obtain ⟨-, rfl⟩ := List.cons.inj ha
      exact (List.suffix_cons '*' w).trans (List.suffix_append a _)

/-- Another address is shown with a brace in it. -/
theorem brace_mem_shownAddress (h : ¬ IsGuarded u) : '\x7b' ∈ shownAddress u := by
  obtain ⟨v, w, rfl, hasterisk, hslash⟩ : ∃ v w, u = v ++ '*' :: w ∧ '*' ∈ w ∧ '/' ∈ w := by
    simpa [IsGuarded] using h
  obtain ⟨q, r, hqr, hq⟩ := List.eq_append_cons_of_mem (a := '*')
    (List.mem_append_right v (List.mem_cons_self (l := w)))
  have hsuffix : w <:+ r := suffix_of_append_asterisk hqr hq
  have hparts : .opening ∈ addressParts false (v ++ '*' :: w) := by
    rw [hqr, addressParts_append hq, addressParts_outside,
      if_pos ⟨rfl, hsuffix.subset hasterisk, hsuffix.subset hslash⟩]
    exact List.mem_append_right _ List.mem_cons_self
  exact List.mem_flatMap_of_mem hparts (by decide)

/-- An address without braces is shown as it is if, and only if, it is guarded. -/
theorem shownAddress_eq_self_iff (hbrace : '\x7b' ∉ u) : shownAddress u = u ↔ IsGuarded u := by
  refine ⟨fun h => ?_, shownAddress_of_isGuarded⟩
  by_contra hnot
  exact hbrace (h ▸ brace_mem_shownAddress hnot)

theorem mem_of_char_mem_addressParts {deleted : Bool} (h : .char c ∈ addressParts deleted u) :
    c ∈ u := by
  induction u generalizing deleted with
  | nil => exact absurd h List.not_mem_nil
  | cons d u ih =>
    have htail (part : AddressPart) {deleted : Bool} (hpart : part = .char c → c = d)
        (h : .char c ∈ part :: addressParts deleted u) : c ∈ d :: u := by
      rcases List.mem_cons.1 h with h | h
      · exact List.mem_cons.2 (.inl (hpart h.symm))
      · exact List.mem_cons_of_mem d (ih h)
    have hsame (h : AddressPart.char d = .char c) : c = d := by
      injection h with h
      exact h.symm
    cases deleted with
    | false =>
      rw [addressParts_outside] at h
      split at h
      · exact htail .opening (fun h => nomatch h) h
      · exact htail (.char d) hsame h
    | true =>
      rw [addressParts_within] at h
      split at h
      · exact htail .closing (fun h => nomatch h) h
      · exact htail (.char d) hsame h

/-- What is said of the characters and of the torn tokens is said of all parts. -/
theorem forall_addressParts {P : AddressPart → Prop} (hopening : P .opening) (hclosing : P .closing)
    (hchar : ∀ c ∈ u, P (.char c)) : ∀ part ∈ addressParts false u, P part := by
  intro part hpart
  cases part with
  | char c => exact hchar c (mem_of_char_mem_addressParts hpart)
  | opening => exact hopening
  | closing => exact hclosing

/-- The parts of an address are revealed one by one. -/
theorem reveal_flatMap_hidden (hbrace : '\x7b' ∉ u) :
    Url.reveal ((addressParts false u).flatMap AddressPart.hidden) = shownAddress u := by
  have htorn {t : Text} (ht : Text.lacks Url.underscoreToken t) (ht' : Text.lacks Url.asteriskToken t) :
      Url.Reveals t t :=
    .inr (.inr ⟨rfl, Text.isFree_of_lacks ht, Text.isFree_of_lacks ht'⟩)
  exact Url.reveal_flatMap <| forall_addressParts (htorn rfl rfl) (htorn rfl rfl) fun c hc =>
    Url.reveals_hideChar fun he => hbrace (he ▸ hc)

end Parts

/-! ## Deleted text in a hidden address -/

theorem Outlook.insideTag_of_slash_mem {u : Text} (hslash : '/' ∈ u) (hangle : '>' ∉ u) (t : Text) :
    (Outlook.ofText (u ++ t)).insideTag = false := by
  obtain ⟨v, w, rfl⟩ := List.append_of_mem hslash
  rw [List.append_assoc]
  exact insideTag_append_slash (fun h => hangle (List.mem_append_left _ h)) (w ++ t)

section Hidden

variable {u r : Text}

theorem eq_of_mem_markers_deleted {m : Text}
    (h : m ∈ (Delimiter.ofMarkers ["~~".toList]).markers) : m = ['~', '~'] := by
  rw [Delimiter.markers_ofMarkers (by decide)] at h
  exact List.mem_singleton.1 h

theorem notMem_hide_of_isLinkChar {c : Char} (hu : ∀ c ∈ u, isLinkChar c) (hc : isLinkChar c = false)
    (htokens : c ∉ Url.underscoreToken ∧ c ∉ Url.asteriskToken) : c ∉ Url.hide u :=
  Url.notMem_hide (notMem_of_isLinkChar hu hc) htokens

/-- Tildes are in the tokens of asterisks only. -/
theorem tilde_notMem_hide (hu : ∀ c ∈ u, isLinkChar c) (hasterisk : '*' ∉ u) : '~' ∉ Url.hide u :=
  Url.tilde_notMem_hide fun c hc => by
    simp only [List.mem_cons, List.not_mem_nil, or_false] at hc
    rcases hc with rfl | rfl
    · exact hasterisk
    · exact notMem_of_isLinkChar hu (by decide)

/-- The token of an asterisk stays whole if too few tildes are behind it. -/
theorem turns_asteriskToken_of_tilde_notMem (htilde : '~' ∉ r) (ρ : Match → Text) :
    deleted.Turns ρ r Url.asteriskToken Url.asteriskToken := by
  have hp : deleted.finder.IsProper := isProper_finder_delimiter _
  refine .of_none hp ρ fun b x c y hxy => ?_
  have hcount : (c :: y ++ r).count '~' ≤ 3 := by
    have htoken : (x ++ c :: y).count '~' = 3 := hxy ▸ (by decide : Url.asteriskToken.count '~' = 3)
    rw [List.count_append] at htoken
    rw [List.count_append, List.count_eq_zero.2 htilde]
    omega
  refine finder_eq_none hp fun s l v hsl hfound => ?_
  obtain ⟨marker, hmarker, g, rfl, -⟩ := eq_of_finder_delimiter hfound
  have htwo : marker.count '~' = 2 := by
    rw [eq_of_mem_markers_deleted hmarker]
    decide
  rw [hsl] at hcount
  simp only [List.count_append] at hcount
  omega

/-- The token of an asterisk stays whole inside of a tag. -/
theorem turns_asteriskToken_of_insideTag (hinside : (Outlook.ofText r).insideTag) (ρ : Match → Text) :
    deleted.Turns ρ r Url.asteriskToken Url.asteriskToken := by
  refine .of_none (isProper_finder_delimiter _) ρ fun b x c y hxy => ?_
  refine finder_delimiter_of_not_mayOpen fun m hm hpre => ?_
  obtain rfl := eq_of_mem_markers_deleted hm
  have hsuffix : c :: y <:+ Url.asteriskToken := ⟨x, hxy.symm⟩
  cases y with
  | nil =>
    -- the last character of the token is a brace
    rw [(List.cons_prefix_cons.1 hpre).1.symm] at hsuffix
    exact absurd hsuffix (by decide)
  | cons d y =>
    have hmem {e : Char} (he : e ∈ y) : e ∈ Url.asteriskToken := hsuffix.subset (by simp [he])
    have hsplit : (c :: d :: y ++ r).drop ['~', '~'].length = y ++ r := by simp
    rw [hsplit]
    exact Outlook.mayOpen_of_insideTag (Outlook.insideTag_append_of_insideTag
      (fun he => absurd (hmem he) (by decide)) (fun he => absurd (hmem he) (by decide)) hinside)

/-- The token of an asterisk stays whole if no other asterisk or no slash is behind it. -/
theorem turns_asteriskToken (hu : ∀ c ∈ u, isLinkChar c) (htilde : '~' ∉ r)
    (hclosing : (Outlook.ofText r).closingTagAhead) (h : ¬ ('*' ∈ u ∧ '/' ∈ u)) (ρ : Match → Text) :
    deleted.Turns ρ (Url.hide u ++ ('\'' :: '>' :: r)) Url.asteriskToken Url.asteriskToken := by
  by_cases hslash : '/' ∈ u
  · refine turns_asteriskToken_of_tilde_notMem ?_ ρ
    simp [tilde_notMem_hide hu fun hm => h ⟨hm, hslash⟩, htilde]
  · refine turns_asteriskToken_of_insideTag ?_ ρ
    have hsplit : Url.hide u ++ ('\'' :: '>' :: r) = (Url.hide u ++ ['\'']) ++ '>' :: r := by simp
    rw [hsplit]
    exact Outlook.insideTag_of_closingTagAhead (by simp [Url.notMem_hide hslash (by decide)])
      (by simp [notMem_hide_of_isLinkChar hu (c := '<') (by decide) (by decide)]) hclosing

/-- Behind the first two tildes of a token the guard lets deleted text begin, if a slash stands in the
rest of the address. -/
theorem mayOpen_of_slash_mem {q w : Text} (hq : ∀ c ∈ q, isLinkChar c) (hw : ∀ c ∈ w, isLinkChar c)
    (hslash : '/' ∈ q ++ w) (hpaired : Outlook.IsPaired (.ofText r)) :
    (Outlook.ofText (['~', '\x7d'] ++ Url.hide q ++ Url.asteriskToken ++ Url.hide w ++
      ('\'' :: '>' :: r))).mayOpen := by
  have hslash' : '/' ∈ ['~', '\x7d'] ++ Url.hide q ++ Url.asteriskToken ++ Url.hide w := by
    rcases List.mem_append.1 hslash with h | h
    · simp [Url.mem_hide_of_mem h (by decide) (by decide)]
    · simp [Url.mem_hide_of_mem h (by decide) (by decide)]
  have hangle : '>' ∉ ['~', '\x7d'] ++ Url.hide q ++ Url.asteriskToken ++ Url.hide w := by
    simp [Url.asteriskToken, notMem_hide_of_isLinkChar hq (c := '>') (by decide) (by decide),
      notMem_hide_of_isLinkChar hw (c := '>') (by decide) (by decide)]
  have hbacktick : '`' ∉ ['~', '\x7d'] ++ Url.hide q ++ Url.asteriskToken ++ Url.hide w := by
    simp [Url.asteriskToken, notMem_hide_of_isLinkChar hq (c := '`') (by decide) (by decide),
      notMem_hide_of_isLinkChar hw (c := '`') (by decide) (by decide)]
  rw [Outlook.mayOpen, Outlook.insideTag_of_slash_mem hslash' hangle,
    (Outlook.isPaired_append hbacktick
      (Outlook.isPaired_cons (by decide) (Outlook.isPaired_cons (by decide) hpaired))).outsideCode]
  rfl

/-- With a slash behind it, the token of an asterisk is torn, and so is the next one. -/
theorem turns_opening {q w : Text} (hq : ∀ c ∈ q, isLinkChar c) (hw : ∀ c ∈ w, isLinkChar c)
    (hasterisk : '*' ∉ q) (hslash : '/' ∈ q ++ w) (hpaired : Outlook.IsPaired (.ofText r)) :
    deleted.Turns (fun m => Handler.element "del".toList (m.group 2))
      (Url.hide w ++ ('\'' :: '>' :: r))
      (Url.asteriskToken ++ Url.hide q ++ Url.asteriskToken)
      (AddressPart.openingToken ++ Url.hide q ++ AddressPart.closingToken) := by
  have hp : deleted.finder.IsProper := isProper_finder_delimiter _
  -- what stands between the two markers, and behind them
  let g : Text := ['~', '\x7d'] ++ Url.hide q ++ ['\x7b']
  let t : Text := ['~', '\x7d'] ++ (Url.hide w ++ ('\'' :: '>' :: r))
  have hg : Text.IsFree ['~', '~'] g :=
    ((Text.isFree_of_lacks rfl).append
      (Text.isFree_of_notMem _ (tilde_notMem_hide hq hasterisk))).append (Text.isFree_of_lacks rfl)
  have hline : '\n' ∉ g := by simp [g, notMem_hide_of_isLinkChar hq (c := '\n') (by decide) (by decide)]
  have hopen : (Outlook.ofText (g ++ ['~', '~'] ++ t)).mayOpen := by
    have hsplit : g ++ ['~', '~'] ++ t =
        ['~', '\x7d'] ++ Url.hide q ++ Url.asteriskToken ++ Url.hide w ++ ('\'' :: '>' :: r) := by
      simp [g, t, Url.asteriskToken]
    rw [hsplit]
    exact mayOpen_of_slash_mem hq hw hslash hpaired
  have hfound : deleted.Turns (fun m => Handler.element "del".toList (m.group 2)) t
      (['~', '~'] ++ g ++ ['~', '~']) (Handler.element "del".toList g) := by
    refine .of_found (v := [some ['~', '~'], some g]) hp _ fun b =>
      finder_delimiter t ?_ hopen hg hline (by decide)
    rw [Delimiter.markers_ofMarkers (by decide)]
    rfl
  have hstay {u : Text} (hu : Text.IsFree ['~', '~'] u) (r : Text) :
      deleted.Turns (fun m => Handler.element "del".toList (m.group 2)) r u u :=
    .of_isFree_word hp opensWith_deleted _ r hu
  have hbefore := hstay (u := ['\x7b']) (Text.isFree_of_lacks rfl)
    ((['~', '~'] ++ g ++ ['~', '~']) ++ t)
  have hbehind := hstay (u := ['~', '\x7d']) (Text.isFree_of_lacks rfl)
    (Url.hide w ++ ('\'' :: '>' :: r))
  have hturns := (hbefore.append hfound).append hbehind
  have hsource : ['\x7b'] ++ (['~', '~'] ++ g ++ ['~', '~']) ++ ['~', '\x7d'] =
      Url.asteriskToken ++ Url.hide q ++ Url.asteriskToken := by
    simp [g, Url.asteriskToken]
  have htorn : ['\x7b'] ++ Handler.element "del".toList g ++ ['~', '\x7d'] =
      AddressPart.openingToken ++ Url.hide q ++ AddressPart.closingToken := by
    have hopening : AddressPart.openingToken = ['\x7b'] ++ "<del>".toList ++ ['~', '\x7d'] := rfl
    have hclosing : AddressPart.closingToken = ['\x7b'] ++ "</del>".toList ++ ['~', '\x7d'] := rfl
    rw [hopening, hclosing, element_eq]
    simp [g]
  rwa [hsource, htorn] at hturns

theorem hide_two_asterisks (q w : Text) : Url.hide ('*' :: (q ++ '*' :: w)) =
    Url.asteriskToken ++ Url.hide q ++ Url.asteriskToken ++ Url.hide w := by
  rw [Url.hide_cons, Url.hide_append, Url.hide_cons, List.append_assoc, List.append_assoc]
  rfl

theorem hidden_two_asterisks {q w : Text} (hq : '*' ∉ q) (hslash : '/' ∈ q ++ w) :
    (addressParts false ('*' :: (q ++ '*' :: w))).flatMap AddressPart.hidden =
      AddressPart.openingToken ++ Url.hide q ++ AddressPart.closingToken ++
        (addressParts false w).flatMap AddressPart.hidden := by
  have hslash' : '/' ∈ q ++ '*' :: w := by simpa using hslash
  rw [addressParts_outside, if_pos ⟨rfl, by simp, hslash'⟩, addressParts_append hq,
    addressParts_within, if_pos rfl, List.flatMap_cons, List.flatMap_append, List.flatMap_cons,
    flatMap_map_char, List.append_assoc, List.append_assoc]
  rfl

/-- Deleted text is found in a hidden address as its parts say. -/
theorem turns_hide (hu : ∀ c ∈ u, isLinkChar c) (htilde : '~' ∉ r)
    (hclosing : (Outlook.ofText r).closingTagAhead) (hpaired : Outlook.IsPaired (.ofText r)) :
    deleted.Turns (fun m => Handler.element "del".toList (m.group 2)) ('\'' :: '>' :: r)
      (Url.hide u) ((addressParts false u).flatMap AddressPart.hidden) := by
  induction hn : u.length using Nat.strong_induction_on generalizing u with
  | _ n ih =>
    cases u with
    | nil => exact .nil _ _ _
    | cons c u =>
      have hu' : ∀ d ∈ u, isLinkChar d := fun d hd => hu d (List.mem_cons_of_mem c hd)
      by_cases hopens : c = '*' ∧ '*' ∈ u ∧ '/' ∈ u
      · obtain ⟨rfl, hasterisk, hslash⟩ := hopens
        obtain ⟨q, w, rfl, hq⟩ := List.eq_append_cons_of_mem hasterisk
        have hslash' : '/' ∈ q ++ w := by simpa using hslash
        have hw : w.length < n := by
          simp only [← hn, List.length_append, List.length_cons]
          omega
        have htorn := turns_opening (fun d hd => hu' d (by simp [hd])) (fun d hd => hu' d (by simp [hd]))
          hq hslash' hpaired
        rw [hide_two_asterisks, hidden_two_asterisks hq hslash']
        exact htorn.append (ih w.length hw (fun d hd => hu' d (by simp [hd])) rfl)
      · have hlen : u.length < n := hn ▸ Nat.lt_succ_self _
        rw [addressParts_outside, if_neg hopens, Url.hide_cons, List.flatMap_cons]
        refine .append ?_ (ih u.length hlen hu' rfl)
        by_cases hc : c = '*'
        · subst hc
          exact turns_asteriskToken hu' htilde hclosing (fun h => hopens ⟨rfl, h⟩) _
        · have hchar : '~' ∉ Url.hide [c] := tilde_notMem_hide (by simpa using hu c (by simp))
            (by simpa using Ne.symm hc)
          have hone : Url.hide [c] = Url.hideChar c := List.append_nil _
          exact turns_deleted_of_notMem _ (hone ▸ hchar)

end Hidden

end Markdown
