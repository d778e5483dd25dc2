import Pulpfs.Foundations.RootedTree
import Mathlib.Data.Set.Card

/-! How many entries of a node of a rooted tree lead to directories, and what entering, removing
and moving an entry does to the count. -/
namespace RootedTree
open Function

variable {ι ν : Type*}

/-- The entries of `p` that lead to directories. -/
def subdirs (dir : ι → Prop) (entry : ι × ν → Option ι) (p : ι) : Set (ι × ν) :=
  {k | k.1 = p ∧ ∃ c, entry k = some c ∧ dir c}

theorem mem_subdirs {dir : ι → Prop} {entry : ι × ν → Option ι} {p : ι} {k : ι × ν} :
    k ∈ subdirs dir entry p ↔ k.1 = p ∧ ∃ c, entry k = some c ∧ dir c := Iff.rfl

noncomputable def linkCount (dir : ι → Prop) (entry : ι × ν → Option ι) (p : ι) : ℕ :=
  (subdirs dir entry p).ncard

namespace IsTree

variable {root : ι} {dir node : ι → Prop} {entry : ι × ν → Option ι}

/-- No two entries lead to one node. -/
theorem entry_injOn (h : IsTree root dir node entry) (p : ι) :
    Set.InjOn entry (subdirs dir entry p) := by
  rintro k ⟨-, c, hk, -⟩ l ⟨-, d, hl, -⟩ hkl
  refine h.unique hk ?_
  rw [← hkl, hk]

theorem finite_subdirs [Finite ι] (h : IsTree root dir node entry) (p : ι) :
    (subdirs dir entry p).Finite :=
  Set.Finite.of_finite_image (Set.toFinite _) (h.entry_injOn p)

/-- There are no more subdirectories than nodes they can be. -/
theorem linkCount_le (h : IsTree root dir node entry) (p : ι) {γ : Type*} {f : ι → γ}
    (hf : Injective f) {bound : Finset γ} (hbound : ∀ i, node i → i ≠ root → f i ∈ bound) :
    linkCount dir entry p ≤ bound.card := by
  rw [← Set.ncard_coe_finset, linkCount]
  refine Set.ncard_le_ncard_of_injOn (fun k => f ((entry k).getD root)) ?_ ?_ bound.finite_toSet
  · rintro k ⟨-, c, hk, -⟩
    simp only [hk, Option.getD_some]
    refine hbound c (h.child_node hk) ?_
    rintro rfl
    exact h.root_unnamed k hk
  · rintro k ⟨-, c, hk, -⟩ l ⟨-, d, hl, -⟩ hkl
    simp only [hk, hl, Option.getD_some] at hkl
    exact h.unique hk (hf hkl ▸ hl)

variable [DecidableEq ι] [DecidableEq ν]

/-- A new node below `l`. -/
theorem linkCount_link [Finite ι] (h : IsTree root dir node entry) {l : ι × ν} {c : ι}
    (isDir : Prop) [Decidable isDir] (free : entry l = none) (fresh : ¬ node c) (p : ι) :
    linkCount (fun i => dir i ∨ i = c ∧ isDir) (update entry l (some c)) p =
      linkCount dir entry p + if l.1 = p ∧ isDir then 1 else 0 := by
  have hnot : l ∉ subdirs dir entry p := by
    rintro ⟨-, d, hd, -⟩
    rw [free] at hd
    contradiction
  have hsame {k : ι × ν} (hk : k ≠ l) :
      k ∈ subdirs (fun i => dir i ∨ i = c ∧ isDir) (update entry l (some c)) p ↔
        k ∈ subdirs dir entry p := by
    simp only [mem_subdirs, update_of_ne hk]
    refine and_congr_right fun _ => exists_congr fun d => and_congr_right fun hd => ?_
    refine ⟨?_, .inl⟩
    rintro (hdir | ⟨rfl, -⟩)
    · exact hdir
    · exact absurd (h.child_node hd) fresh
  have hself : l ∈ subdirs (fun i => dir i ∨ i = c ∧ isDir) (update entry l (some c)) p ↔
      l.1 = p ∧ isDir := by
    simp only [mem_subdirs, update_self, Option.some.injEq, exists_eq_left']
    refine and_congr_right fun _ => ⟨?_, fun hd => .inr ⟨trivial, hd⟩⟩
    rintro (hdir | ⟨-, hd⟩)
    · exact absurd (h.dir_node hdir) fresh
    · exact hd
  unfold linkCount
  split
  next hl =>
    rw [← Set.ncard_insert_of_notMem hnot (h.finite_subdirs p)]
    congr 1
    ext k
    by_cases hk : k = l
    · rw [hk]
      exact ⟨fun _ => Set.mem_insert _ _, fun _ => hself.mpr hl⟩
    · rw [hsame hk, Set.mem_insert_iff, or_iff_right hk]
  next hl =>
    rw [Nat.add_zero]
    congr 1
    ext k
    by_cases hk : k = l
    · rw [hk]
      exact ⟨fun hm => absurd (hself.mp hm) hl, fun hm => absurd hm hnot⟩
    · exact hsame hk

/-- The entry of a node goes, whether or not the node goes with it. -/
theorem linkCount_erase [Finite ι] (h : IsTree root dir node entry) {k : ι × ν} {c : ι}
    (hc : entry k = some c) [Decidable (dir c)] {dir' : ι → Prop}
    (hdir : ∀ i, i ≠ c → (dir' i ↔ dir i)) (p : ι) :
    linkCount dir' (update entry k none) p + (if k.1 = p ∧ dir c then 1 else 0) =
      linkCount dir entry p := by
  have hset : subdirs dir' (update entry k none) p = subdirs dir entry p \ {k} := by
    ext l
    by_cases hl : l = k
    · subst hl
      simp [mem_subdirs]
    · simp only [mem_subdirs, Set.mem_sdiff, Set.mem_singleton_iff, hl,
        not_false_eq_true, and_true, update_of_ne hl]
      refine and_congr_right fun _ => exists_congr fun d => and_congr_right fun hd => hdir d ?_
      rintro rfl
      exact hl (h.unique hd hc)
  have hmem : k ∈ subdirs dir entry p ↔ k.1 = p ∧ dir c := by
    simp only [mem_subdirs, hc, Option.some.injEq, exists_eq_left']
  unfold linkCount
  rw [hset]
  split
  next hk => exact Set.ncard_sdiff_singleton_add_one (hmem.mpr hk) (h.finite_subdirs p)
  next hk => rw [Set.sdiff_singleton_eq_self (hk ∘ hmem.mp), Nat.add_zero]

/-- An entry is moved to a free name. -/
theorem linkCount_move [Finite ι] (h : IsTree root dir node entry) {k l : ι × ν} {c : ι}
    (hc : entry k = some c) (free : entry l = none) [Decidable (dir c)] (p : ι) :
    linkCount dir (update (update entry k none) l (some c)) p +
        (if k.1 = p ∧ dir c then 1 else 0) =
      linkCount dir entry p + if l.1 = p ∧ dir c then 1 else 0 := by
  have hfree : update entry k none l = none := by
    by_cases hl : l = k
    · rw [hl, update_self]
    · rw [update_of_ne hl, free]
  have hsub : subdirs dir (update entry k none) p ⊆ subdirs dir entry p := by
    rintro m ⟨hp, d, hd, hdir⟩
    refine ⟨hp, d, ?_, hdir⟩
    by_cases hm : m = k
    · rw [hm, update_self] at hd
      contradiction
    · rwa [update_of_ne hm] at hd
  have hnot : l ∉ subdirs dir (update entry k none) p := by
    rintro ⟨-, d, hd, -⟩
    rw [hfree] at hd
    contradiction
  have hset : subdirs dir (update (update entry k none) l (some c)) p =
      if l.1 = p ∧ dir c then insert l (subdirs dir (update entry k none) p)
      else subdirs dir (update entry k none) p := by
    ext m
    by_cases hm : m = l
    · subst hm
      split
      next hl => simpa [mem_subdirs] using hl
      next hl =>
        refine ⟨?_, fun hmem => absurd hmem hnot⟩
        intro hmem
        simp only [mem_subdirs, update_self, Option.some.injEq,
          exists_eq_left'] at hmem
        exact absurd hmem hl
    · split
      next => simp only [Set.mem_insert_iff, hm, false_or, mem_subdirs, update_of_ne hm]
      next => simp only [mem_subdirs, update_of_ne hm]
  have herase := h.linkCount_erase hc (fun i _ => (Iff.rfl : dir i ↔ dir i)) p
  unfold linkCount at herase ⊢
  rw [hset]
  split
  next hl =>
    rw [Set.ncard_insert_of_notMem hnot ((h.finite_subdirs p).subset hsub)]
    omega
  next hl => omega

end IsTree

end RootedTree
