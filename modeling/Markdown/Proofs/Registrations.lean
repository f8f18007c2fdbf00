import Markdown.Renderer
import Mathlib.Data.List.Nodup

/-!
# Registering rules

A call registers a rule with a renderer, or fails because its expression does not compile. However
many calls there are, of either kind, the table stays a map from keys to rules, in the order in which
the keys have come (`Renderer.table_well_formed`).

1. What one rule does to the keys, and to what is stored under a key (`Table.keys_push`,
   `Table.stored_push`). A rule with a new key goes to the end; otherwise it takes the place of the
   first rule with its key, which is the only one since the keys are distinct.
2. What one call does to a renderer (`Renderer.call_eq`), and so what all calls do, by induction on
   their number.
-/

namespace Markdown

variable {t : Table} {r s : Rule}

namespace Table

/-- The rule stored under a key. -/
def stored (t : Table) (k : Text) : Option Rule :=
  t.find? (·.key == k)

/-! ## One rule -/

theorem push_cons_of_eq (h : s.key = r.key) : (push (s :: t) r).1 = r :: t := by
  simp [push, List.findIdx?_cons, h]

theorem push_cons_of_ne (h : s.key ≠ r.key) : (push (s :: t) r).1 = s :: (push t r).1 := by
  simp only [push, List.findIdx?_cons, beq_eq_false_iff_ne.2 h]
  cases t.findIdx? (·.key == r.key) <;> rfl

/-- A rule is stored under its key; what is stored under other keys stays. -/
theorem stored_push (t : Table) (r : Rule) (k : Text) :
    stored (t.push r).1 k = if r.key = k then some r else stored t k := by
  induction t with
  | nil =>
    by_cases hk : r.key = k
    · simp [stored, push, hk]
    · simp [stored, push, hk]
  | cons s t ih =>
    unfold stored at ih ⊢
    by_cases hs : s.key = r.key
    · rw [push_cons_of_eq hs]
      by_cases hk : r.key = k
      · simp [hk]
      · simp [hs, hk]
    · rw [push_cons_of_ne hs, List.find?_cons, List.find?_cons, ih]
      by_cases hk : r.key = k
      · subst hk
        simp [beq_eq_false_iff_ne.2 hs]
      · simp [hk]

theorem nodup_keys_push (h : (keys t).Nodup) (r : Rule) : (keys (t.push r).1).Nodup := by
  rw [keys_push]
  split_ifs with hr
  · exact h
  · rw [← List.concat_eq_append]
    exact h.concat hr

/-- In a table with distinct keys, each rule is the one stored under its key. -/
theorem stored_of_mem (h : (keys t).Nodup) (hr : r ∈ t) : stored t r.key = some r := by
  obtain ⟨u, v, rfl⟩ := List.append_of_mem hr
  have hu : ∀ s ∈ u, s.key ≠ r.key := by
    rw [keys, List.map_append, List.nodup_append] at h
    intro s hs
    exact h.2.2 s.key (List.mem_map_of_mem hs) r.key (by simp)
  have hnone : u.find? (·.key == r.key) = none := by
    simpa [List.find?_eq_none] using hu
  simp [stored, List.find?_append, hnone]

/-! ## Several rules -/

/-- Add or replace rules one after another. -/
def pushAll (t : Table) (rs : List Rule) : Table :=
  rs.foldl (fun t r => (t.push r).1) t

/-- The last rule with a key is stored under it. -/
theorem stored_pushAll (t : Table) (rs : List Rule) (k : Text) :
    stored (t.pushAll rs) k = (rs.findRev? (·.key == k)).or (stored t k) := by
  induction rs generalizing t with
  | nil => rfl
  | cons r rs ih =>
    rw [show t.pushAll (r :: rs) = pushAll (t.push r).1 rs from rfl, ih, stored_push,
      List.findRev?]
    cases rs.findRev? (·.key == k) with
    | some s => rfl
    | none => by_cases hk : r.key = k <;> simp [hk]

theorem nodup_keys_pushAll (h : (keys t).Nodup) (rs : List Rule) :
    (keys (t.pushAll rs)).Nodup := by
  induction rs generalizing t with
  | nil => exact h
  | cons r rs ih => exact ih (nodup_keys_push h r)

/-- The keys that are not in the table yet follow in the order in which they come first. -/
theorem keys_pushAll (t : Table) (rs : List Rule) :
    keys (t.pushAll rs) = keys t ++ ((rs.map Rule.key).filter (· ∉ keys t)).eraseDups := by
  induction rs generalizing t with
  | nil => simp [pushAll]
  | cons r rs ih =>
    rw [show t.pushAll (r :: rs) = pushAll (t.push r).1 rs from rfl, ih, keys_push]
    by_cases hr : r.key ∈ keys t
    · simp [hr]
    · have hrest : (rs.map Rule.key).filter (· ∉ keys t ++ [r.key]) =
          ((rs.map Rule.key).filter (· ∉ keys t)).filter (fun k => !k == r.key) := by
        rw [List.filter_filter]
        apply List.filter_congr
        intro k _
        by_cases hk : k = r.key <;> simp [hk]
      rw [if_neg hr, hrest, List.map_cons, List.filter_cons_of_pos (by simpa using hr),
        List.eraseDups_cons]
      simp

/-- No two rules of the standard table have the same key. -/
theorem nodup_keys_standard (o : Options) : (keys (standard o)).Nodup := by
  obtain ⟨clamp, merge⟩ := o
  cases merge with
  | false =>
    change (keys (standard { mergeAdjacentBlocks := false })).Nodup
    decide +kernel
  | true =>
    change (keys (standard {})).Nodup
    decide +kernel

end Table

/-! ## Calls -/

/-- A call that registers a rule. -/
inductive Registration where
  /-- Compile a regular expression and register it with an action. -/
  | add (source : Text) (action : Action)
  /-- Register a rule. -/
  | push (rule : Rule)

/-- The rule that a call registers, or why it fails. -/
def Registration.rule : Registration → Except Error Rule
  | add source action => (Pattern.ofRegex source).map (⟨·, action⟩)
  | push rule => .ok rule

/-- The rules that some calls register, in order. -/
def Registration.rules (calls : List Registration) : List Rule :=
  calls.filterMap (·.rule.toOption)

namespace Renderer

/-- The renderer behind a call, and the answer of the call. -/
def call (r : Renderer) : Registration → Renderer × Except Error (List Event)
  | .add source action =>
    match r.add source action with
    | .ok (r, events) => (r, .ok events)
    | .error e => (r, .error e)
  | .push rule => ((r.push rule).1, .ok (r.push rule).2)

/-- The renderer behind some calls, one after another. -/
def after (o : Options) (calls : List Registration) : Renderer :=
  calls.foldl (fun r c => (r.call c).1) (ofOptions o)

/-- A call puts its rule into the table, or does nothing. -/
theorem call_eq (r : Renderer) (c : Registration) :
    r.call c = match c.rule with
      | .ok rule => ((r.push rule).1, .ok (r.push rule).2)
      | .error e => (r, .error e) := by
  cases c with
  | add source action =>
    cases h : Pattern.ofRegex source with
    | ok pattern =>
      simp [call, add, Registration.rule, h, bind, Except.bind, pure, Except.pure, Except.map]
    | error e => simp [call, add, Registration.rule, h, bind, Except.bind, Except.map]
  | push rule => rfl

/-- Behind some calls, the table is that behind their rules. -/
theorem table_foldl_call (r : Renderer) (calls : List Registration) :
    (calls.foldl (fun r c => (r.call c).1) r).table = r.table.pushAll (Registration.rules calls) := by
  induction calls generalizing r with
  | nil => rfl
  | cons c calls ih =>
    rw [List.foldl_cons, ih, call_eq]
    cases hc : c.rule with
    | ok rule => simp [Registration.rules, hc, Except.toOption, push, Table.pushAll]
    | error e => simp [Registration.rules, hc, Except.toOption]

theorem after_append (o : Options) (calls more : List Registration) :
    after o (calls ++ more) = more.foldl (fun r c => (r.call c).1) (after o calls) :=
  List.foldl_append

theorem table_after (o : Options) (calls : List Registration) :
    (after o calls).table = (Table.standard o).pushAll (Registration.rules calls) :=
  table_foldl_call (ofOptions o) calls

/-- Whatever rules are registered with a renderer, one after another,

* no two rules of its table have the same key;
* the keys are those of the standard table, in their order, and behind them the new ones in the order
  in which a rule was first registered under them;
* a key stays in its place, however many calls follow;
* each rule of the table is the one registered last with its key, or that of the standard table if
  there was none;
* a call that fails changes nothing. -/
theorem table_well_formed (o : Options) (calls : List Registration) :
    (after o calls).table.keys.Nodup ∧
      (after o calls).table.keys = (Table.standard o).keys ++
        (((Registration.rules calls).map Rule.key).filter (· ∉ (Table.standard o).keys)).eraseDups ∧
      (∀ (more : List Registration) (i : Nat) (k : Text),
        (after o calls).table.keys[i]? = some k →
          (after o (calls ++ more)).table.keys[i]? = some k) ∧
      (∀ rule ∈ (after o calls).table,
        ((Registration.rules calls).findRev? (·.key == rule.key)).or
          ((Table.standard o).find? (·.key == rule.key)) = some rule) ∧
      ∀ c e, ((after o calls).call c).2 = .error e →
        after o (calls ++ [c]) = after o calls := by
  have hnodup : (after o calls).table.keys.Nodup := by
    rw [table_after]
    exact Table.nodup_keys_pushAll (Table.nodup_keys_standard o) _
  refine ⟨hnodup, ?_, fun more i k hk => ?_, fun rule hrule => ?_, fun c e he => ?_⟩
  · rw [table_after, Table.keys_pushAll]
  · have hlt := (List.getElem?_eq_some_iff.1 hk).1
    rw [after_append, table_foldl_call, Table.keys_pushAll, List.getElem?_append_left hlt, hk]
  · have hstored := Table.stored_of_mem hnodup hrule
    rwa [table_after, Table.stored_pushAll] at hstored
  · rw [call_eq] at he
    rw [after_append, List.foldl_cons, List.foldl_nil, call_eq]
    cases hc : c.rule with
    | ok rule => simp [hc] at he
    | error e => rfl

end Renderer

end Markdown
