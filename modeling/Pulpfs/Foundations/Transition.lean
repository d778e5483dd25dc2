import Mathlib.Data.List.Basic
import Mathlib.Data.List.Forall2

/-! Runs of a deterministic step function over a list of inputs: the states passed
through, the invariant rule and the rule for two runs side by side. -/
namespace Transition

variable {σ τ ι κ ο ξ : Type*}

/-- One step of a run. -/
structure Step (σ ι ο : Type*) where
  before : σ
  input : ι
  output : ο
  after : σ

/-- Every step of a run, in order. -/
def trace (step : ι → σ → ο × σ) : List ι → σ → List (Step σ ι ο)
  | [], _ => []
  | i :: is, s => ⟨s, i, (step i s).1, (step i s).2⟩ :: trace step is (step i s).2

/-- The state a run ends in. -/
def final (step : ι → σ → ο × σ) : List ι → σ → σ
  | [], s => s
  | i :: is, s => final step is (step i s).2

variable {step : ι → σ → ο × σ}

@[simp] theorem trace_nil (s : σ) : trace step [] s = [] := rfl

@[simp] theorem trace_cons (i : ι) (is : List ι) (s : σ) :
    trace step (i :: is) s = ⟨s, i, (step i s).1, (step i s).2⟩ :: trace step is (step i s).2 :=
  rfl

@[simp] theorem final_nil (s : σ) : final step [] s = s := rfl

@[simp] theorem final_cons (i : ι) (is : List ι) (s : σ) :
    final step (i :: is) s = final step is (step i s).2 := rfl

theorem final_append (is js : List ι) (s : σ) :
    final step (is ++ js) s = final step js (final step is s) := by
  induction is generalizing s with
  | nil => rfl
  | cons i is ih => exact ih _

theorem trace_append (is js : List ι) (s : σ) :
    trace step (is ++ js) s = trace step is s ++ trace step js (final step is s) := by
  induction is generalizing s with
  | nil => rfl
  | cons i is ih => simp only [List.cons_append, trace_cons, final_cons, ih]

theorem trace_length (is : List ι) (s : σ) : (trace step is s).length = is.length := by
  induction is generalizing s with
  | nil => rfl
  | cons i is ih => simp only [trace_cons, List.length_cons, ih]

/-- The inputs of a run are those of its steps. -/
theorem trace_input (is : List ι) (s : σ) : (trace step is s).map Step.input = is := by
  induction is generalizing s with
  | nil => rfl
  | cons i is ih => simp only [trace_cons, List.map_cons, ih]

/-- Each step of a run is a step of the machine. -/
theorem trace_step {is : List ι} {s : σ} {e : Step σ ι ο} (he : e ∈ trace step is s) :
    step e.input e.before = (e.output, e.after) := by
  induction is generalizing s with
  | nil => simp at he
  | cons i is ih =>
    rcases List.mem_cons.mp he with rfl | he
    · rfl
    · exact ih he

/-- The invariant rule. A step has to keep the invariant only where the run takes it. -/
theorem invariant {I : σ → Prop} {is : List ι} {s : σ} (hs : I s)
    (hstep : ∀ e ∈ trace step is s, I e.before → I e.after) :
    I (final step is s) ∧ ∀ e ∈ trace step is s, I e.before ∧ I e.after := by
  induction is generalizing s with
  | nil => exact ⟨hs, by simp⟩
  | cons i is ih =>
    simp only [trace_cons, List.forall_mem_cons] at hstep
    have hn := hstep.1 hs
    obtain ⟨hf, ht⟩ := ih hn hstep.2
    refine ⟨hf, ?_⟩
    simp only [trace_cons, List.forall_mem_cons]
    exact ⟨⟨hs, hn⟩, ht⟩

/-- The invariant rule for an invariant every step keeps. -/
theorem invariant_final {I : σ → Prop} (hstep : ∀ i s, I s → I (step i s).2) {s : σ}
    (hs : I s) (is : List ι) : I (final step is s) := by
  refine (invariant hs fun e he hb => ?_).1
  have h := hstep e.input e.before hb
  rwa [trace_step he] at h

/-- What a run collects, with what its first step adds set apart. -/
theorem append_filterMap_cons {α β : Type*} (f : α → Option β) (done : List β) (a : α)
    (as : List α) :
    done ++ (f a).toList ++ as.filterMap f = done ++ (a :: as).filterMap f := by
  cases ha : f a with
  | none => rw [List.filterMap_cons_none ha, Option.toList_none, List.append_nil]
  | some b =>
    rw [List.filterMap_cons_some ha, Option.toList_some, List.append_assoc]
    rfl

variable {step' : κ → τ → ξ × τ}

/-- Two runs side by side: where related inputs take related states to related outputs and
states, related input lists do so too. -/
theorem simulation {R : σ → τ → Prop} {J : ι → κ → Prop} {O : ο → ξ → Prop}
    (hstep : ∀ {s t i j}, R s t → J i j →
      O (step i s).1 (step' j t).1 ∧ R (step i s).2 (step' j t).2)
    {is : List ι} {js : List κ} (hij : List.Forall₂ J is js) {s : σ} {t : τ} (hst : R s t) :
    List.Forall₂ O ((trace step is s).map Step.output) ((trace step' js t).map Step.output) ∧
      R (final step is s) (final step' js t) := by
  induction hij generalizing s t with
  | nil => exact ⟨.nil, hst⟩
  | cons hi _ ih =>
    obtain ⟨ho, hr⟩ := hstep hst hi
    obtain ⟨hos, hf⟩ := ih hr
    exact ⟨.cons ho hos, hf⟩

end Transition
