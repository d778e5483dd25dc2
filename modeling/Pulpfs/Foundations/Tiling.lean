import Mathlib.Data.List.Basic
import Mathlib.Order.Lattice

/-! Ranges of positions laid end to end. -/
namespace Tiling

variable {α : Type*} [LinearOrder α]

/-- The positions from `start` up to, not including, `stop`. -/
structure Span (α : Type*) where
  start : α
  stop : α

def Span.Contains (s : Span α) (x : α) : Prop := s.start ≤ x ∧ x < s.stop

/-- The spans lead from `lo` to `hi`, each from where the one before ends. -/
def Tiles : α → List (Span α) → α → Prop
  | lo, [], hi => lo = hi
  | lo, s :: rest, hi => s.start = lo ∧ s.start ≤ s.stop ∧ Tiles s.stop rest hi

variable {lo hi : α} {spans : List (Span α)}

theorem Tiles.le (h : Tiles lo spans hi) : lo ≤ hi := by
  induction spans generalizing lo with
  | nil => exact h.le
  | cons s rest ih =>
    obtain ⟨rfl, hle, hrest⟩ := h
    exact hle.trans (ih hrest)

/-- Every position between is in one of them, and no other position is. -/
theorem Tiles.exists_contains_iff (h : Tiles lo spans hi) (x : α) :
    (∃ s ∈ spans, s.Contains x) ↔ lo ≤ x ∧ x < hi := by
  induction spans generalizing lo with
  | nil =>
    have h : lo = hi := h
    simp only [List.not_mem_nil, false_and, exists_false, h, false_iff, not_and, not_lt, imp_self]
  | cons s rest ih =>
    obtain ⟨rfl, hle, hrest⟩ := h
    rw [List.exists_mem_cons_iff, ih hrest]
    constructor
    · rintro (⟨h1, h2⟩ | ⟨h1, h2⟩)
      · exact ⟨h1, h2.trans_le hrest.le⟩
      · exact ⟨hle.trans h1, h2⟩
    · rintro ⟨h1, h2⟩
      rcases lt_or_ge x s.stop with hx | hx
      · exact .inl ⟨h1, hx⟩
      · exact .inr ⟨hx, h2⟩

theorem Tiles.le_start (h : Tiles lo spans hi) {s : Span α} (hs : s ∈ spans) : lo ≤ s.start := by
  induction spans generalizing lo with
  | nil => exact absurd hs List.not_mem_nil
  | cons t rest ih =>
    obtain ⟨rfl, hle, hrest⟩ := h
    rcases List.mem_cons.mp hs with rfl | hs
    · exact le_rfl
    · exact hle.trans (ih hrest hs)

/-- Each ends before any later one starts. -/
theorem Tiles.pairwise (h : Tiles lo spans hi) :
    spans.Pairwise fun s t => s.stop ≤ t.start := by
  induction spans generalizing lo with
  | nil => exact .nil
  | cons s rest ih =>
    obtain ⟨rfl, hle, hrest⟩ := h
    exact .cons (fun _ ht => hrest.le_start ht) (ih hrest)

/-- No position is in two of them. -/
theorem Tiles.disjoint (h : Tiles lo spans hi) :
    spans.Pairwise fun s t => ∀ x, s.Contains x → ¬ t.Contains x :=
  h.pairwise.imp fun hst _ hs ht => (hs.2.trans_le hst).not_ge ht.1

end Tiling
