import Mathlib.Algebra.Ring.Nat
import Mathlib.Logic.Relation
import Markdown.Batch

/-!
# Batches on several threads

A batch is rendered by the threads of a pool. A thread that is free takes any document that is still
waiting; when it has rendered the document, it puts the result into the place of the document and
counts it if there are warnings. The count is shared by all threads and wraps around, the places are
not shared.

Whatever the order, the outcome is the same (`Batch.outcome_independent`):

1. A step changes nothing about what will stand in the places in the end, nor about what the count
   says of the documents that are done (`Batch.Inv.step`). So this holds behind any number of steps
   (`Batch.Inv.reaches`).
2. As long as a document is not done there is a next step (`Batch.exists_step`), and each step leaves
   less to do (`Batch.Step.remaining_lt`). So every run can be completed, and none goes on for ever.
-/

namespace Markdown

/-- The options of a batch. -/
structure BatchOptions where
  /-- How many threads to use; zero is the same as not to say. -/
  maxThreads : Option Nat := none

/-- What a batch finds where it runs. -/
structure Machine where
  /-- The threads of the pool that is there for everyone. -/
  sharedThreads : Nat
  sharedThreads_pos : 0 < sharedThreads
  /-- Whether a pool with so many threads can be made. -/
  canMake : Nat → Bool

/-- How many threads render a batch: a pool is made if that is asked for and possible. -/
def BatchOptions.threads (o : BatchOptions) (m : Machine) : Nat :=
  match o.maxThreads with
  | some n => if 0 < n ∧ m.canMake n then n else m.sharedThreads
  | none => m.sharedThreads

theorem BatchOptions.threads_pos (o : BatchOptions) (m : Machine) : 0 < o.threads m := by
  unfold threads
  split
  · split_ifs with h
    · exact h.1
    · exact m.sharedThreads_pos
  · exact m.sharedThreads_pos

/-- How far a document of a batch has come. -/
inductive Task where
  | waiting (d : Document)
  | taken (d : Document)
  | done (result : DocumentResult)

namespace Task

/-- Whether a thread is at work on a document. -/
def isTaken : Task → Bool
  | taken _ => true
  | _ => false

/-- The result of a document that is done. -/
def result? : Task → Option DocumentResult
  | done result => some result
  | _ => none

/-- What the result of a document is or will be. -/
def outcome (r : Renderer) : Task → DocumentResult
  | waiting d => r.renderDocument d
  | taken d => r.renderDocument d
  | done result => result

/-- Whether a document is done and has warnings. -/
def hasWarned : Task → Bool
  | done result => !result.warnings.isEmpty
  | _ => false

/-- How many steps a document needs to be done. -/
def remaining : Task → Nat
  | waiting _ => 2
  | taken _ => 1
  | done _ => 0

end Task

/-- A batch on its way. -/
structure Batch where
  /-- The documents, each in its place. -/
  tasks : List Task
  /-- The number of documents, as counted at the start. -/
  total : UInt32
  /-- The number of documents with warnings, as counted by the threads so far. -/
  withWarnings : UInt32

/-- What a batch returns. -/
structure BatchOutcome where
  results : List DocumentResult
  total : UInt32
  withWarnings : UInt32

namespace Batch

variable {r : Renderer} {documents : List Document} {threads : Nat} {b b' : Batch}

/-- A batch before its first step. -/
def start (documents : List Document) : Batch :=
  ⟨documents.map .waiting, .ofNat documents.length, 0⟩

/-- What a batch returns, if all its documents are done. -/
def outcome? (b : Batch) : Option BatchOutcome :=
  (b.tasks.mapM Task.result?).map (⟨·, b.total, b.withWarnings⟩)

/-- How many steps a batch needs to be done. -/
def remaining (b : Batch) : Nat :=
  (b.tasks.map Task.remaining).sum

/-- One step of one thread. -/
inductive Step (r : Renderer) (threads : Nat) : Batch → Batch → Prop
  /-- A free thread takes a document. -/
  | take (before after : List Task) (d : Document) (total withWarnings : UInt32)
      (free : (before ++ after).countP Task.isTaken < threads) :
      Step r threads ⟨before ++ .waiting d :: after, total, withWarnings⟩
        ⟨before ++ .taken d :: after, total, withWarnings⟩
  /-- A thread is done with its document. -/
  | finish (before after : List Task) (d : Document) (total withWarnings : UInt32) :
      Step r threads ⟨before ++ .taken d :: after, total, withWarnings⟩
        ⟨before ++ .done (r.renderDocument d) :: after, total,
          if (r.renderDocument d).warnings.isEmpty then withWarnings else withWarnings + 1⟩

/-- Any number of steps, in any order. -/
abbrev Reaches (r : Renderer) (threads : Nat) : Batch → Batch → Prop :=
  Relation.ReflTransGen (Step r threads)

/-- While a thread is free, any document that is waiting may be processed next. -/
theorem reaches_process (before after : List Task) (d : Document) (total withWarnings : UInt32)
    (free : (before ++ after).countP Task.isTaken < threads) :
    Reaches r threads ⟨before ++ .waiting d :: after, total, withWarnings⟩
      ⟨before ++ .done (r.renderDocument d) :: after, total,
        if (r.renderDocument d).warnings.isEmpty then withWarnings else withWarnings + 1⟩ :=
  .tail (.single (.take before after d total withWarnings free)) (.finish ..)

/-! ## What the steps keep -/

/-- What holds on the way from the start of a batch. -/
structure Inv (r : Renderer) (documents : List Document) (b : Batch) : Prop where
  /-- In each place stands the result of its document, or it will in the end. -/
  outcome : b.tasks.map (Task.outcome r) = documents.map r.renderDocument
  total : b.total = .ofNat documents.length
  withWarnings : b.withWarnings = .ofNat (b.tasks.countP Task.hasWarned)

theorem Inv.start (r : Renderer) (documents : List Document) :
    Inv r documents (start documents) where
  outcome := by simp [Batch.start, Task.outcome]
  total := rfl
  withWarnings := by
    have hnone : documents.countP (Task.hasWarned ∘ .waiting) = 0 :=
      List.countP_eq_zero.2 fun _ _ => Bool.false_ne_true
    rw [Batch.start, List.countP_map, hnone]
    rfl

theorem Inv.step (h : Inv r documents b) (hstep : Step r threads b b') : Inv r documents b' := by
  obtain ⟨houtcome, htotal, hcount⟩ := h
  cases hstep with
  | take before after d total withWarnings _ =>
    refine ⟨?_, htotal, ?_⟩
    · simpa [Task.outcome] using houtcome
    · simpa [Task.hasWarned] using hcount
  | finish before after d total withWarnings =>
    refine ⟨?_, htotal, ?_⟩
    · simpa [Task.outcome] using houtcome
    · have hbefore : withWarnings =
          .ofNat (before.countP Task.hasWarned + after.countP Task.hasWarned) := by
        simpa [Task.hasWarned] using hcount
      cases hw : (r.renderDocument d).warnings.isEmpty with
      | true => simpa [Task.hasWarned, hw] using hbefore
      | false => simp [Task.hasWarned, hw, hbefore, UInt32.ofNat_add, UInt32.add_assoc]

theorem Inv.reaches (h : Inv r documents b) (hrun : Reaches r threads b b') :
    Inv r documents b' := by
  induction hrun with
  | refl => exact h
  | tail _ hstep ih => exact ih.step hstep

/-! ## Every run can be completed -/

/-- Each step leaves less to do. -/
theorem Step.remaining_lt (h : Step r threads b b') : b'.remaining < b.remaining := by
  cases h with
  | take => simp [remaining, Task.remaining]
  | finish => simp [remaining, Task.remaining]

theorem mapM_result?_eq_some_iff {tasks : List Task} {results : List DocumentResult} :
    tasks.mapM Task.result? = some results ↔ tasks = results.map .done := by
  induction tasks generalizing results with
  | nil => simp [eq_comm]
  | cons task tasks ih =>
    cases task with
    | waiting d => cases results <;> simp [Task.result?]
    | taken d => cases results <;> simp [Task.result?]
    | done result =>
      cases results with
      | nil => simp [Task.result?, Option.bind_eq_some_iff]
      | cons => simpa [Task.result?, Option.bind_eq_some_iff, ih] using and_comm

/-- As long as a document is not done, a thread can go on. -/
theorem exists_step (r : Renderer) (hthreads : 0 < threads) (hb : b.outcome? = none) :
    ∃ b', Step r threads b b' := by
  obtain ⟨tasks, total, withWarnings⟩ := b
  by_cases htaken : ∃ d, .taken d ∈ tasks
  · obtain ⟨d, hd⟩ := htaken
    obtain ⟨before, after, rfl⟩ := List.append_of_mem hd
    exact ⟨_, .finish before after d total withWarnings⟩
  by_cases hwaiting : ∃ d, .waiting d ∈ tasks
  · obtain ⟨d, hd⟩ := hwaiting
    obtain ⟨before, after, rfl⟩ := List.append_of_mem hd
    -- all threads are free
    have hnone : (before ++ after).countP Task.isTaken = 0 := by
      refine List.countP_eq_zero.2 fun task htask => ?_
      cases task with
      | taken d' =>
        have hmem : .taken d' ∈ before ++ .waiting d :: after := by
          rw [List.mem_append, List.mem_cons]
          exact (List.mem_append.1 htask).imp_right .inr
        exact absurd ⟨d', hmem⟩ htaken
      | _ => exact Bool.false_ne_true
    exact ⟨_, .take before after d total withWarnings (hnone ▸ hthreads)⟩
  have hdone : tasks = (tasks.map (Task.outcome r)).map .done := by
    rw [List.map_map, List.map_congr_left, List.map_id]
    intro task htask
    cases task with
    | waiting d => exact absurd ⟨d, htask⟩ hwaiting
    | taken d => exact absurd ⟨d, htask⟩ htaken
    | done result => rfl
  rw [outcome?, mapM_result?_eq_some_iff.2 hdone] at hb
  exact absurd hb (by simp)

/-- Every run can be completed. -/
theorem exists_outcome (r : Renderer) (hthreads : 0 < threads) (b : Batch) :
    ∃ b' out, Reaches r threads b b' ∧ b'.outcome? = some out := by
  induction h : b.remaining using Nat.strongRecOn generalizing b with
  | ind n ih =>
    cases hb : b.outcome? with
    | some out => exact ⟨b, out, .refl, hb⟩
    | none =>
      obtain ⟨b₁, hstep⟩ := exists_step r hthreads hb
      obtain ⟨b', out, hrun, hout⟩ := ih _ (h ▸ hstep.remaining_lt) b₁ rfl
      exact ⟨b', out, .head hstep hrun, hout⟩

/-! ## The outcome -/

/-- A batch returns what comes from rendering its documents one by one. -/
theorem Inv.outcome_eq (h : Inv r documents b) {out : BatchOutcome} (hout : b.outcome? = some out) :
    out = ⟨(r.renderBatch documents).results, .ofNat documents.length,
      .ofNat (r.renderBatch documents).withWarnings⟩ := by
  obtain ⟨results, hresults, rfl⟩ := Option.map_eq_some_iff.1 hout
  rw [mapM_result?_eq_some_iff] at hresults
  have hdocuments : results = (r.renderBatch documents).results := by
    rw [Renderer.renderBatch, ← h.outcome, hresults, List.map_map]
    exact (List.map_id results).symm
  rw [h.total, h.withWarnings, hresults, hdocuments, List.countP_map]
  rfl

/-- However the documents of a batch are spread over the threads and in whatever order they are
rendered, every run can be completed and ends after finitely many steps. What it returns are the
results of the documents rendered one by one, in the order of the documents, with the number of
documents and the number of those with warnings. -/
theorem outcome_independent (r : Renderer) (documents : List Document)
    (hlength : documents.length < 2 ^ 32) (o : BatchOptions) (m : Machine) :
    (∀ b, Reaches r (o.threads m) (start documents) b →
      (∃ b' out, Reaches r (o.threads m) b b' ∧ b'.outcome? = some out) ∧
      ∀ out, b.outcome? = some out →
        out.results.length = documents.length ∧
        (∀ (i : Nat) (d : Document), documents[i]? = some d →
          out.results[i]? = some ⟨d.id, r.render d.source, r.warnings d.source⟩) ∧
        out.total.toNat = documents.length ∧
        out.withWarnings.toNat = out.results.countP (!·.warnings.isEmpty)) ∧
    ∀ b b', Step r (o.threads m) b b' → b'.remaining < b.remaining := by
  refine ⟨fun b hb => ⟨exists_outcome r (o.threads_pos m) b, fun out hout => ?_⟩,
    fun b b' => Step.remaining_lt⟩
  have hinv := (Inv.start r documents).reaches hb
  obtain rfl := hinv.outcome_eq hout
  have hcount : (r.renderBatch documents).withWarnings < 2 ^ 32 := by
    calc (r.renderBatch documents).withWarnings
      _ ≤ (documents.map r.renderDocument).length := List.countP_le_length
      _ = documents.length := List.length_map _
      _ < 2 ^ 32 := hlength
  refine ⟨List.length_map _, fun i d hd => ?_, UInt32.toNat_ofNat_of_lt hlength,
    UInt32.toNat_ofNat_of_lt hcount⟩
  rw [Renderer.renderBatch, List.getElem?_map, hd]
  rfl

/-- Two documents on two threads; the second has a fence without a partner. -/
theorem outcome_independent_two :
    [(⟨"a", "x".toList⟩ : Document), ⟨"b", "```".toList⟩].length < 2 ^ 32 ∧
      ∃ b out, Reaches (.ofOptions {})
          (BatchOptions.threads ⟨some 2⟩ ⟨8, by decide, fun _ => true⟩)
          (start [⟨"a", "x".toList⟩, ⟨"b", "```".toList⟩]) b ∧
        b.outcome? = some out ∧ out.total.toNat = 2 ∧
        out.results[1]? = some ⟨"b", "<code></code>`".toList, [.unclosedCodeFence ⟨1, 1⟩]⟩ := by
  have hlength : [(⟨"a", "x".toList⟩ : Document), ⟨"b", "```".toList⟩].length < 2 ^ 32 := by decide
  obtain ⟨hruns, -⟩ := outcome_independent (.ofOptions {}) _ hlength ⟨some 2⟩
    ⟨8, by decide, fun _ => true⟩
  obtain ⟨⟨b, out, hb, hout⟩, -⟩ := hruns _ .refl
  obtain ⟨-, hresults, htotal, -⟩ := (hruns b hb).2 out hout
  refine ⟨hlength, b, out, hb, hout, htotal, ?_⟩
  rw [hresults 1 _ rfl]
  decide +kernel

end Batch

end Markdown
