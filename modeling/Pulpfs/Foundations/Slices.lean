import Mathlib.Data.List.Perm.Basic
import Mathlib.Order.MinMax

/-! Pieces of an ordered line that are put over one another. A piece that is put cuts out of the
others what it spans. The order in which pieces that lie apart are put does not matter, and
putting a batch again leaves no trace. -/
namespace Slices

/-- Pieces with two ends. A slice has the ends it is cut to, and nothing else of how it was cut
can be told from it. -/
class Sliceable (P : Type*) (α : outParam Type*) where
  start : P → α
  stop : P → α
  slice : P → α → α → P
  start_slice : ∀ c x y, start (slice c x y) = x
  stop_slice : ∀ c x y, stop (slice c x y) = y
  slice_slice : ∀ c x y x' y', slice (slice c x y) x' y' = slice c x' y'
  slice_self : ∀ c, slice c (start c) (stop c) = c

open Sliceable

variable {P α : Type*} [LinearOrder α] [Sliceable P α]

/-- The piece ends behind its start. -/
def Proper (c : P) : Prop := start c < stop c

instance : DecidablePred (Proper : P → Prop) := fun c =>
  inferInstanceAs (Decidable (start c < stop c))

def Apart (c d : P) : Prop := stop c ≤ start d ∨ stop d ≤ start c

def Inside (p c : P) : Prop := start c ≤ start p ∧ stop p ≤ stop c

theorem Apart.symm {c d : P} (h : Apart c d) : Apart d c := Or.symm h

theorem Inside.refl (c : P) : Inside c c := ⟨le_rfl, le_rfl⟩

theorem Inside.trans {p c d : P} (h : Inside p c) (h' : Inside c d) : Inside p d :=
  ⟨h'.1.trans h.1, h.2.trans h'.2⟩

theorem Inside.apart {p c d : P} (h : Inside p c) (h' : Apart c d) : Apart p d := by
  rcases h' with h' | h'
  · exact .inl (h.2.trans h')
  · exact .inr (h'.trans h.1)

/-- A proper piece is not both inside another one and apart from it. -/
theorem Inside.not_apart {p c : P} (h : Inside p c) (hp : Proper p) : ¬ Apart p c := by
  intro ha
  rcases ha with ha | ha
  · exact absurd (hp.trans_le ha) (not_lt_of_ge h.1)
  · exact absurd (ha.trans_lt hp) (not_lt_of_ge h.2)

/-- The part of `c` before `x`. -/
def below (x : α) (c : P) : P := slice c (start c) (min (stop c) x)

/-- The part of `c` from `x` on. -/
def above (x : α) (c : P) : P := slice c (max (start c) x) (stop c)

theorem below_comm (x y : α) (c : P) : below x (below y c) = below y (below x c) := by
  simp only [below, start_slice, stop_slice, slice_slice, min_right_comm]

theorem above_comm (x y : α) (c : P) : above x (above y c) = above y (above x c) := by
  simp only [above, start_slice, stop_slice, slice_slice, max_right_comm]

theorem above_below (x y : α) (c : P) : above x (below y c) = below y (above x c) := by
  simp only [above, below, start_slice, stop_slice, slice_slice]

theorem below_eq_self {x : α} {c : P} (h : stop c ≤ x) : below x c = c := by
  rw [below, min_eq_left h, slice_self]

theorem above_eq_self {x : α} {c : P} (h : x ≤ start c) : above x c = c := by
  rw [above, max_eq_left h, slice_self]

theorem proper_below {x : α} {c : P} : Proper (below x c) ↔ Proper c ∧ start c < x := by
  rw [Proper, below, start_slice, stop_slice, lt_min_iff]
  rfl

theorem proper_above {x : α} {c : P} : Proper (above x c) ↔ Proper c ∧ x < stop c := by
  rw [Proper, above, start_slice, stop_slice, max_lt_iff]
  rfl

/-- What is left of `c` where `e` is put over it. -/
def cut (e c : P) : List P := [below (start e) c, above (stop e) c].filter (Proper ·)

theorem mem_cut {e c p : P} (h : p ∈ cut e c) : Proper p ∧ Inside p c ∧ Apart p e := by
  obtain ⟨hp, hproper⟩ := List.mem_filter.mp h
  refine ⟨of_decide_eq_true hproper, ?_⟩
  rw [List.mem_pair] at hp
  rcases hp with rfl | rfl
  · simp only [Inside, Apart, below, start_slice, stop_slice]
    exact ⟨⟨le_rfl, min_le_left _ _⟩, .inl (min_le_right _ _)⟩
  · simp only [Inside, Apart, above, start_slice, stop_slice]
    exact ⟨⟨le_max_left _ _, le_rfl⟩, .inr (le_max_right _ _)⟩

theorem cut_of_apart {e c : P} (hc : Proper c) (he : Proper e) (h : Apart c e) :
    cut e c = [c] := by
  rcases h with h | h
  · have habove : ¬ Proper (above (stop e) c) := by
      rw [proper_above]
      exact fun hp => absurd (hp.2.trans_le h) (lt_asymm he)
    simp [cut, below_eq_self h, hc, habove]
  · have hbelow : ¬ Proper (below (start e) c) := by
      rw [proper_below]
      exact fun hp => absurd (h.trans_lt hp.2) (lt_asymm he)
    simp [cut, above_eq_self h, hc, hbelow]

/-- Nothing is left of what is empty already. -/
theorem cut_of_not_proper {c : P} (e : P) (hc : ¬ Proper c) : cut e c = [] := by
  simp [cut, proper_below, proper_above, hc]

theorem flatMap_cut_filter (f : P) (L : List P) :
    (L.filter (Proper ·)).flatMap (cut f) = L.flatMap (cut f) := by
  induction L with
  | nil => rfl
  | cons c L ih =>
    by_cases hc : Proper c
    · simp [hc, ih]
    · simp [hc, ih, cut_of_not_proper f hc]

/-- Two pieces cut the same parts out of a third one, whichever comes first. -/
theorem cut_comm (e f c : P) :
    ((cut e c).flatMap (cut f)).Perm ((cut f c).flatMap (cut e)) := by
  have hboth (e f : P) : (cut e c).flatMap (cut f) =
      [below (start f) (below (start e) c), above (stop f) (below (start e) c),
        below (start f) (above (stop e) c), above (stop f) (above (stop e) c)].filter
          (Proper ·) := by
    rw [cut, flatMap_cut_filter, List.flatMap_cons, List.flatMap_singleton, cut, cut,
      ← List.filter_append]
    rfl
  rw [hboth e f, hboth f e, below_comm (start f) (start e), above_comm (stop f) (stop e),
    above_below (stop f) (start e), above_below (stop e) (start f)]
  exact ((List.Perm.swap _ _ _).cons _).filter _

/-- What is left of pieces where a batch is put over them. -/
def cutAll (L es : List P) : List P := es.foldl (fun L e => L.flatMap (cut e)) L

/-- Put the pieces of a batch over others one after the other. -/
def putAll (L es : List P) : List P := es.foldl (fun L e => L.flatMap (cut e) ++ [e]) L

@[simp] theorem cutAll_nil (L : List P) : cutAll L [] = L := rfl

@[simp] theorem cutAll_cons (L : List P) (e : P) (es : List P) :
    cutAll L (e :: es) = cutAll (L.flatMap (cut e)) es := rfl

@[simp] theorem putAll_nil (L : List P) : putAll L [] = L := rfl

@[simp] theorem putAll_cons (L : List P) (e : P) (es : List P) :
    putAll L (e :: es) = putAll (L.flatMap (cut e) ++ [e]) es := rfl

theorem cutAll_append_left (L M es : List P) :
    cutAll (L ++ M) es = cutAll L es ++ cutAll M es := by
  induction es generalizing L M with
  | nil => rfl
  | cons e es ih => rw [cutAll_cons, List.flatMap_append, ih, cutAll_cons, cutAll_cons]

/-- A batch is put over the pieces by cutting them and adding what it puts over nothing. -/
theorem putAll_eq (L es : List P) : putAll L es = cutAll L es ++ putAll [] es := by
  induction es generalizing L with
  | nil => simp
  | cons e es ih =>
    rw [putAll_cons, putAll_cons, ih, ih ([].flatMap (cut e) ++ [e]), cutAll_append_left]
    simp [List.append_assoc]

theorem cutAll_perm {L M : List P} (h : L.Perm M) (es : List P) :
    (cutAll L es).Perm (cutAll M es) := by
  induction es generalizing L M with
  | nil => exact h
  | cons e es ih => exact ih (h.flatMap fun _ _ => .refl _)

theorem putAll_perm {L M : List P} (h : L.Perm M) (es : List P) :
    (putAll L es).Perm (putAll M es) := by
  rw [putAll_eq L, putAll_eq M]
  exact (cutAll_perm h es).append_right _

theorem flatMap_cut_comm (L : List P) (e f : P) :
    ((L.flatMap (cut e)).flatMap (cut f)).Perm ((L.flatMap (cut f)).flatMap (cut e)) := by
  rw [List.flatMap_assoc, List.flatMap_assoc]
  exact List.Perm.flatMap_left L fun c _ => cut_comm e f c

theorem cutAll_flatMap_cut (L es : List P) (f : P) :
    ((cutAll L es).flatMap (cut f)).Perm (cutAll (L.flatMap (cut f)) es) := by
  induction es generalizing L with
  | nil => exact .refl _
  | cons e es ih => exact (ih _).trans (cutAll_perm (flatMap_cut_comm L e f) es)

theorem cutAll_comm (L es fs : List P) :
    (cutAll (cutAll L es) fs).Perm (cutAll (cutAll L fs) es) := by
  induction fs generalizing L with
  | nil => exact .refl _
  | cons f fs ih =>
    rw [cutAll_cons, cutAll_cons]
    exact (cutAll_perm (cutAll_flatMap_cut L es f) fs).trans (ih _)

/-- What is left lies inside what was there, and apart from the batch. -/
theorem mem_cutAll {L es : List P} {p : P} (h : p ∈ cutAll L es) :
    (∃ c ∈ L, Inside p c) ∧ ∀ e ∈ es, Apart p e := by
  induction es generalizing L with
  | nil => exact ⟨⟨p, h, .refl p⟩, by simp⟩
  | cons e es ih =>
    obtain ⟨⟨d, hd, hpd⟩, hapart⟩ := ih h
    obtain ⟨c, hc, hdc⟩ := List.mem_flatMap.mp hd
    obtain ⟨-, hinside, he⟩ := mem_cut hdc
    refine ⟨⟨c, hc, hpd.trans hinside⟩, ?_⟩
    rw [List.forall_mem_cons]
    exact ⟨hpd.apart he, hapart⟩

theorem proper_of_mem_cutAll {L es : List P} (hL : ∀ c ∈ L, Proper c) :
    ∀ p ∈ cutAll L es, Proper p := by
  induction es generalizing L with
  | nil => exact hL
  | cons e es ih =>
    apply ih
    intro p hp
    obtain ⟨c, _, hp⟩ := List.mem_flatMap.mp hp
    exact (mem_cut hp).1

/-- What a batch puts is proper, and inside the pieces of the batch. -/
theorem mem_putAll_nil {es : List P} (he : ∀ e ∈ es, Proper e) {p : P} (h : p ∈ putAll [] es) :
    Proper p ∧ ∃ e ∈ es, Inside p e := by
  induction es with
  | nil => simp at h
  | cons e es ih =>
    rw [List.forall_mem_cons] at he
    rw [putAll_cons, putAll_eq, List.mem_append] at h
    rcases h with h | h
    · have hp : ∀ c ∈ ([] : List P).flatMap (cut e) ++ [e], Proper c := by simpa using he.1
      obtain ⟨⟨c, hc, hpc⟩, -⟩ := mem_cutAll h
      rw [List.flatMap_nil, List.nil_append, List.mem_singleton] at hc
      exact ⟨proper_of_mem_cutAll hp p h, e, List.mem_cons_self, hc ▸ hpc⟩
    · obtain ⟨hp, f, hf, hpf⟩ := ih he.2 h
      exact ⟨hp, f, List.mem_cons_of_mem e hf, hpf⟩

theorem cutAll_of_apart {L es : List P} (hL : ∀ c ∈ L, Proper c) (he : ∀ e ∈ es, Proper e)
    (h : ∀ c ∈ L, ∀ e ∈ es, Apart c e) : cutAll L es = L := by
  induction es with
  | nil => rfl
  | cons e es ih =>
    rw [List.forall_mem_cons] at he
    have hcut : L.flatMap (cut e) = L := by
      rw [List.flatMap_congr fun c hc => cut_of_apart (hL c hc) he.1 (h c hc e List.mem_cons_self),
        List.flatMap_singleton']
    rw [cutAll_cons, hcut]
    exact ih he.2 fun c hc f hf => h c hc f (List.mem_cons_of_mem e hf)

theorem cutAll_of_inside {L es : List P} (hL : ∀ c ∈ L, Proper c)
    (h : ∀ c ∈ L, ∃ e ∈ es, Inside c e) : cutAll L es = [] := by
  rw [List.eq_nil_iff_forall_not_mem]
  intro p hp
  obtain ⟨⟨c, hc, hpc⟩, hapart⟩ := mem_cutAll hp
  obtain ⟨e, he, hce⟩ := h c hc
  exact (hpc.trans hce).not_apart (proper_of_mem_cutAll hL p hp) (hapart e he)

/-- Batches that lie apart are put in either order. -/
theorem putAll_comm {es fs : List P} (he : ∀ e ∈ es, Proper e) (hf : ∀ f ∈ fs, Proper f)
    (h : ∀ e ∈ es, ∀ f ∈ fs, Apart e f) (L : List P) :
    (putAll (putAll L es) fs).Perm (putAll (putAll L fs) es) := by
  have hkept {es fs : List P} (he : ∀ e ∈ es, Proper e) (hf : ∀ f ∈ fs, Proper f)
      (h : ∀ e ∈ es, ∀ f ∈ fs, Apart e f) : cutAll (putAll [] es) fs = putAll [] es := by
    apply cutAll_of_apart (fun p hp => (mem_putAll_nil he hp).1) hf
    intro p hp f hf
    obtain ⟨-, e, he, hpe⟩ := mem_putAll_nil he hp
    exact hpe.apart (h e he f hf)
  rw [putAll_eq (putAll L es), putAll_eq L es, cutAll_append_left, hkept he hf h,
    putAll_eq (putAll L fs), putAll_eq L fs, cutAll_append_left,
    hkept hf he fun f hf e he => (h e he f hf).symm, List.append_assoc, List.append_assoc]
  exact (cutAll_comm L es fs).append List.perm_append_comm

/-- A batch that is put again changes nothing. -/
theorem putAll_self {L es : List P} (hL : ∀ c ∈ L, Proper c) (he : ∀ e ∈ es, Proper e) :
    putAll (putAll L es) es = putAll L es := by
  have hleft : cutAll (cutAll L es) es = cutAll L es :=
    cutAll_of_apart (proper_of_mem_cutAll hL) he fun _ hp => (mem_cutAll hp).2
  have hput : cutAll (putAll [] es) es = [] :=
    cutAll_of_inside (fun p hp => (mem_putAll_nil he hp).1) fun p hp => (mem_putAll_nil he hp).2
  rw [putAll_eq (putAll L es), putAll_eq L es, cutAll_append_left, hleft, hput, List.append_nil]

end Slices
