import Mathlib.Data.List.Induction
import Mathlib.Data.List.Perm.Basic
import Mathlib.Tactic.ByCases
import Mathlib.Order.Lattice

/-! Partial maps on positions built by laying patches over one another, the later patch
winning, and the sparse files made of such a map and a size. -/
namespace Overlay

variable {β : Type*}

/-- A value for every position from `start` up to, not including, `stop`. -/
structure Patch (β : Type*) where
  start : ℕ
  stop : ℕ
  value : ℕ → β

def Patch.Covers (p : Patch β) (x : ℕ) : Prop := p.start ≤ x ∧ x < p.stop

instance (p : Patch β) (x : ℕ) : Decidable (p.Covers x) :=
  inferInstanceAs (Decidable (_ ∧ _))

/-- No position is covered by both. -/
def Patch.Apart (p q : Patch β) : Prop := ∀ x, p.Covers x → ¬ q.Covers x

theorem Patch.Apart.symm {p q : Patch β} (h : p.Apart q) : q.Apart p :=
  fun x hq hp => h x hp hq

def overlay (f : ℕ → Option β) (p : Patch β) : ℕ → Option β :=
  fun x => if p.Covers x then some (p.value x) else f x

def overlayAll (f : ℕ → Option β) (ps : List (Patch β)) : ℕ → Option β := ps.foldl overlay f

/-- The map of the patches alone. -/
def content (ps : List (Patch β)) : ℕ → Option β := overlayAll (fun _ => none) ps

theorem overlay_covered {f : ℕ → Option β} {p : Patch β} {x : ℕ} (h : p.Covers x) :
    overlay f p x = some (p.value x) := if_pos h

theorem overlay_not_covered {f : ℕ → Option β} {p : Patch β} {x : ℕ} (h : ¬ p.Covers x) :
    overlay f p x = f x := if_neg h

@[simp] theorem overlayAll_nil (f : ℕ → Option β) : overlayAll f [] = f := rfl

@[simp] theorem overlayAll_cons (f : ℕ → Option β) (p : Patch β) (ps : List (Patch β)) :
    overlayAll f (p :: ps) = overlayAll (overlay f p) ps := rfl

theorem overlayAll_append (f : ℕ → Option β) (ps qs : List (Patch β)) :
    overlayAll f (ps ++ qs) = overlayAll (overlayAll f ps) qs := List.foldl_append

theorem overlayAll_concat (f : ℕ → Option β) (ps : List (Patch β)) (p : Patch β) :
    overlayAll f (ps ++ [p]) = overlay (overlayAll f ps) p := overlayAll_append f ps [p]

theorem content_append (ps qs : List (Patch β)) :
    content (ps ++ qs) = overlayAll (content ps) qs := overlayAll_append _ ps qs

/-- Where no patch lies the map below shows through. -/
theorem overlayAll_not_covered {f : ℕ → Option β} {ps : List (Patch β)} {x : ℕ}
    (h : ∀ p ∈ ps, ¬ p.Covers x) : overlayAll f ps x = f x := by
  induction ps generalizing f with
  | nil => rfl
  | cons p ps ih =>
    rw [List.forall_mem_cons] at h
    rw [overlayAll_cons, ih h.2, overlay_not_covered h.1]

/-- The value at a position only depends on the map below at that position. -/
theorem overlayAll_congr {f g : ℕ → Option β} (ps : List (Patch β)) {x : ℕ} (h : f x = g x) :
    overlayAll f ps x = overlayAll g ps x := by
  induction ps generalizing f g with
  | nil => exact h
  | cons p ps ih =>
    apply ih
    simp only [overlay, h]

/-- Where a patch lies the map below does not matter. -/
theorem overlayAll_covered {f g : ℕ → Option β} {ps : List (Patch β)} {x : ℕ}
    (h : ∃ p ∈ ps, p.Covers x) : overlayAll f ps x = overlayAll g ps x := by
  induction ps generalizing f g with
  | nil => simp at h
  | cons p ps ih =>
    by_cases hx : p.Covers x
    · apply overlayAll_congr (f := overlay f p) (g := overlay g p)
      rw [overlay_covered hx, overlay_covered hx]
    · apply ih
      obtain ⟨q, hq, hc⟩ := h
      rcases List.mem_cons.mp hq with rfl | hq
      · exact absurd hc hx
      · exact ⟨q, hq, hc⟩

/-- Every value of the map is the value of a patch lying there. -/
theorem exists_of_content {ps : List (Patch β)} {x : ℕ} {v : β} (h : content ps x = some v) :
    ∃ p ∈ ps, p.Covers x ∧ v = p.value x := by
  induction ps using List.reverseRecOn with
  | nil => contradiction
  | append_singleton ps p ih =>
    rw [content, overlayAll_concat] at h
    by_cases hx : p.Covers x
    · rw [overlay_covered hx] at h
      exact ⟨p, by simp, hx, (Option.some.inj h).symm⟩
    · rw [overlay_not_covered hx] at h
      obtain ⟨q, hq, hc⟩ := ih h
      exact ⟨q, List.mem_append_left _ hq, hc⟩

/-- The map shows the last patch lying at a position. -/
theorem content_eq_find (ps : List (Patch β)) (x : ℕ) :
    content ps x = (ps.reverse.find? fun p => p.Covers x).map fun p => p.value x := by
  induction ps using List.reverseRecOn with
  | nil => rfl
  | append_singleton ps p ih =>
    rw [content, overlayAll_concat, List.reverse_append, List.reverse_singleton,
      List.singleton_append, List.find?_cons]
    by_cases hx : p.Covers x
    · simp only [overlay_covered hx, hx, decide_true, Option.map_some]
    · simp only [overlay_not_covered hx, hx, decide_false]
      exact ih

/-- A value on which all patches lying there agree is the value of the map. -/
theorem content_eq_some {ps : List (Patch β)} {x : ℕ} {v : β} (hc : ∃ p ∈ ps, p.Covers x)
    (hv : ∀ p ∈ ps, p.Covers x → p.value x = v) : content ps x = some v := by
  induction ps using List.reverseRecOn with
  | nil => simp at hc
  | append_singleton ps p ih =>
    rw [content, overlayAll_concat]
    by_cases hx : p.Covers x
    · rw [overlay_covered hx, hv p (by simp) hx]
    · rw [overlay_not_covered hx]
      refine ih ?_ fun q hq => hv q (List.mem_append_left _ hq)
      obtain ⟨q, hq, hqx⟩ := hc
      rcases List.mem_append.mp hq with hq | hq
      · exact ⟨q, hq, hqx⟩
      · exact absurd (List.mem_singleton.mp hq ▸ hqx) hx

/-- Patches laid again under patches that cover them leave no mark. -/
theorem overlayAll_absorb {f : ℕ → Option β} {ps qs : List (Patch β)}
    (h : ∀ p ∈ ps, ∀ x, p.Covers x → ∃ q ∈ qs, q.Covers x) :
    overlayAll (overlayAll f ps) qs = overlayAll f qs := by
  funext x
  by_cases hx : ∃ q ∈ qs, q.Covers x
  · exact overlayAll_covered hx
  · apply overlayAll_congr
    apply overlayAll_not_covered
    exact fun p hp hc => hx (h p hp x hc)

/-- Laying a batch over an initial part of itself is laying the batch. -/
theorem overlayAll_retry {f : ℕ → Option β} {ps qs : List (Patch β)} (h : ps <+: qs) :
    overlayAll (overlayAll f ps) qs = overlayAll f qs :=
  overlayAll_absorb fun p hp _ hx => ⟨p, h.subset hp, hx⟩

/-- Among patches lying apart each one shows in full. -/
theorem overlayAll_apart {f : ℕ → Option β} {ps : List (Patch β)}
    (h : ps.Pairwise Patch.Apart) {p : Patch β} (hp : p ∈ ps) {x : ℕ} (hx : p.Covers x) :
    overlayAll f ps x = some (p.value x) := by
  induction ps generalizing f with
  | nil => simp at hp
  | cons q ps ih =>
    rw [List.pairwise_cons] at h
    rcases List.mem_cons.mp hp with rfl | hp
    · rw [overlayAll_cons, overlayAll_not_covered fun r hr => h.1 r hr x hx, overlay_covered hx]
    · exact ih h.2 hp

/-- Of patches lying apart at most one covers a position. -/
theorem countP_covers_le_one {ps : List (Patch β)} (h : ps.Pairwise Patch.Apart) (x : ℕ) :
    (ps.countP fun p => p.Covers x) ≤ 1 := by
  induction ps with
  | nil => exact Nat.zero_le 1
  | cons p ps ih =>
    rw [List.pairwise_cons] at h
    rw [List.countP_cons]
    by_cases hx : p.Covers x
    · have hrest : (ps.countP fun q => q.Covers x) = 0 := by
        rw [List.countP_eq_zero]
        intro q hq
        simpa using h.1 q hq x hx
      simp only [hrest, hx, decide_true, if_true, Nat.zero_add, Nat.le_refl]
    · simp only [hx, decide_false, Bool.false_eq_true, if_false, Nat.add_zero]
      exact ih h.2

/-- The order of patches lying apart does not matter. -/
theorem overlayAll_perm {f : ℕ → Option β} {ps qs : List (Patch β)} (hperm : ps.Perm qs)
    (h : ps.Pairwise Patch.Apart) : overlayAll f ps = overlayAll f qs := by
  funext x
  have hq : qs.Pairwise Patch.Apart := hperm.pairwise h fun hab => hab.symm
  by_cases hx : ∃ p ∈ ps, p.Covers x
  · obtain ⟨p, hp, hc⟩ := hx
    rw [overlayAll_apart h hp hc, overlayAll_apart hq (hperm.mem_iff.mp hp) hc]
  · have hn : ∀ p ∈ ps, ¬ p.Covers x := fun p hp hc => hx ⟨p, hp, hc⟩
    rw [overlayAll_not_covered hn,
      overlayAll_not_covered fun q hq => hn q (hperm.mem_iff.mpr hq)]

/-- Forget every position from `n` on. -/
def cut (n : ℕ) (f : ℕ → Option β) : ℕ → Option β := fun x => if x < n then f x else none

/-- The same patch `d` positions further on. -/
def Patch.shift (d : ℕ) (p : Patch β) : Patch β where
  start := d + p.start
  stop := d + p.stop
  value := fun x => p.value (x - d)

/-- The largest end of the patches, or `n` when that is larger. -/
def extent (n : ℕ) (ps : List (Patch β)) : ℕ := ps.foldl (fun m p => max m p.stop) n

@[simp] theorem extent_nil (n : ℕ) : extent n ([] : List (Patch β)) = n := rfl

@[simp] theorem extent_cons (n : ℕ) (p : Patch β) (ps : List (Patch β)) :
    extent n (p :: ps) = extent (max n p.stop) ps := rfl

theorem extent_append (n : ℕ) (ps qs : List (Patch β)) :
    extent n (ps ++ qs) = extent (extent n ps) qs := List.foldl_append

theorem extent_le {n m : ℕ} {ps : List (Patch β)} :
    extent n ps ≤ m ↔ n ≤ m ∧ ∀ p ∈ ps, p.stop ≤ m := by
  induction ps generalizing n with
  | nil => simp
  | cons p ps ih => simp only [extent_cons, ih, List.forall_mem_cons, sup_le_iff, and_assoc]

theorem le_extent (n : ℕ) (ps : List (Patch β)) : n ≤ extent n ps := (extent_le.mp le_rfl).1

theorem stop_le_extent {n : ℕ} {ps : List (Patch β)} {p : Patch β} (hp : p ∈ ps) :
    p.stop ≤ extent n ps := (extent_le.mp le_rfl).2 p hp

theorem extent_shift (d n : ℕ) (ps : List (Patch β)) :
    extent (d + n) (ps.map (Patch.shift d)) = d + extent n ps := by
  induction ps generalizing n with
  | nil => rfl
  | cons p ps ih =>
    rw [List.map_cons, extent_cons, extent_cons, ← ih]
    congr 1
    exact (Nat.add_max_add_left d n p.stop)

theorem extent_mono {n m : ℕ} {ps : List (Patch β)} (h : n ≤ m) : extent n ps ≤ extent m ps :=
  extent_le.mpr ⟨h.trans (le_extent m ps), fun _ hp => stop_le_extent hp⟩

/-- Growing by a batch after an initial part of it is growing by the batch. -/
theorem extent_retry {n : ℕ} {ps qs : List (Patch β)} (h : ps <+: qs) :
    extent (extent n ps) qs = extent n qs :=
  le_antisymm
    (extent_le.mpr ⟨extent_le.mpr ⟨le_extent n qs, fun _ hp => stop_le_extent (h.subset hp)⟩,
      fun _ hp => stop_le_extent hp⟩)
    (extent_mono (le_extent n ps))

/-- A file that stores a value at some of its positions. -/
structure SparseFile (β : Type*) where
  size : ℕ
  content : ℕ → Option β

namespace SparseFile

def empty : SparseFile β := ⟨0, fun _ => none⟩

/-- Lay the patches over the file in order; the file grows to the largest end. -/
def write (r : SparseFile β) (ps : List (Patch β)) : SparseFile β :=
  ⟨extent r.size ps, overlayAll r.content ps⟩

/-- The same with every patch starting from the end of the file. -/
def append (r : SparseFile β) (ps : List (Patch β)) : SparseFile β :=
  r.write (ps.map (Patch.shift r.size))

/-- Forget the positions from `n` on and make `n` the size. -/
def truncate (r : SparseFile β) (n : ℕ) : SparseFile β := ⟨n, cut n r.content⟩

theorem write_append (r : SparseFile β) (ps qs : List (Patch β)) :
    r.write (ps ++ qs) = (r.write ps).write qs := by
  simp only [write, extent_append, overlayAll_append]

/-- Writing a batch again, possibly longer, is writing the longer batch. -/
theorem write_retry {r : SparseFile β} {ps qs : List (Patch β)} (h : ps <+: qs) :
    (r.write ps).write qs = r.write qs := by
  simp only [write, extent_retry h, overlayAll_retry h]

/-- Patches that end before the place where a file is cut may be laid before or after. -/
theorem truncate_write (r : SparseFile β) {ps : List (Patch β)} {n : ℕ}
    (h : ∀ p ∈ ps, p.stop ≤ n) : (r.truncate n).write ps = (r.write ps).truncate n := by
  have hsize : extent n ps = n := le_antisymm (extent_le.mpr ⟨le_rfl, h⟩) (le_extent n ps)
  have hcontent : overlayAll (cut n r.content) ps = cut n (overlayAll r.content ps) := by
    funext x
    by_cases hx : x < n
    · rw [cut, if_pos hx]
      exact overlayAll_congr ps (if_pos hx)
    · rw [cut, if_neg hx, overlayAll_not_covered]
      · exact if_neg hx
      · intro p hp hc
        exact hx (hc.2.trans_le (h p hp))
  simp only [write, truncate, hsize, hcontent]

end SparseFile

end Overlay
