import Pulpfs.Meta.Namespace
import Pulpfs.Foundations.TreeMap
import Pulpfs.Foundations.Walk

/-! The walk of `IsAncestor` and the scan of `IsDirectoryEmpty`. On a tree the walk ends and
decides whether one directory lies above another. -/
namespace Pulpfs
open RootedTree Relation

namespace MetaState

variable (s : MetaState)

theorem mem_dentries_toList {k : DentryKey} {c : UInt64} :
    (k, c) ∈ s.dentries.toList ↔ s.dentries[k]? = some c :=
  Std.ExtTreeMap.mem_toList_iff_getElem?_eq_some

theorem isDirectoryEmpty_iff {i : UInt64} :
    s.isDirectoryEmpty i = true ↔ ∀ n : Bytes, s.dentries[(i, n)]? = none := by
  simp only [isDirectoryEmpty, List.all_eq_true, decide_eq_true_eq]
  constructor
  · intro h n
    by_contra hn
    obtain ⟨c, hc⟩ := Option.ne_none_iff_exists'.mp hn
    exact h _ (s.mem_dentries_toList.mpr hc) rfl
  · intro h d hd he
    have hc := s.mem_dentries_toList.mp (show (d.1, d.2) ∈ s.dentries.toList from hd)
    have hn := h d.1.2
    rw [← he, Prod.eta, hc] at hn
    contradiction

/-- Where the walk moves to, if it moves on at all. -/
def climb (ancestorInodeId current : UInt64) : Option UInt64 :=
  if current = kRootInodeId ∨ current = ancestorInodeId ∨ s.parentOf current = current then none
  else some (s.parentOf current)

/-- The walk only moves to parents of entries. -/
theorem climb_mem {a i j : UInt64} (h : s.climb a i = some j) :
    j ∈ s.dentries.toList.map fun d => d.1.1 := by
  unfold climb at h
  split at h
  next => contradiction
  next hc =>
    obtain rfl := Option.some.inj h
    simp only [not_or] at hc
    obtain ⟨hroot, _, hself⟩ := hc
    unfold parentOf at hself ⊢
    rw [if_neg hroot] at hself ⊢
    cases hf : s.dentries.toList.find? fun d => decide (d.2 = i) with
    | none =>
      rw [hf] at hself
      exact absurd rfl hself
    | some d => exact List.mem_map_of_mem (List.mem_of_find?_eq_some hf)

/-- A loop that returns follows a finite walk, and more fuel changes nothing. -/
theorem ancestorLoop_eq_some {a : UInt64} {fuel : ℕ} {i : UInt64} {b : Bool}
    (h : s.ancestorLoop a fuel i = some b) :
    ∃ n < fuel, Walk.EndsIn (s.climb a) n i ∧ ∀ m, n < m → s.ancestorLoop a m i = some b := by
  induction fuel generalizing i with
  | zero => contradiction
  | succ fuel ih =>
    by_cases hstop : i = kRootInodeId ∨ i = a ∨ s.parentOf i = i
    · refine ⟨0, fuel.succ_pos, .stop (if_pos hstop), ?_⟩
      intro m hm
      obtain ⟨m, rfl⟩ := Nat.exists_eq_succ_of_ne_zero hm.ne'
      rw [← h]
      unfold ancestorLoop
      rcases hstop with hr | ha | hp
      · rw [if_pos hr, if_pos hr]
      · by_cases hr : i = kRootInodeId
        · rw [if_pos hr, if_pos hr]
        · rw [if_neg hr, if_neg hr, if_pos ha, if_pos ha]
      · simp only [hp, if_true]
    · have hmove : s.climb a i = some (s.parentOf i) := if_neg hstop
      simp only [not_or] at hstop
      obtain ⟨hr, ha, hp⟩ := hstop
      have hloop : ∀ m, s.ancestorLoop a (m + 1) i = s.ancestorLoop a m (s.parentOf i) := by
        intro m
        rw [ancestorLoop]
        simp only [hr, ha, hp, if_false]
      rw [hloop] at h
      obtain ⟨n, hn, hw, hm⟩ := ih h
      refine ⟨n + 1, Nat.succ_lt_succ hn, .move hmove hw, ?_⟩
      intro m hlt
      obtain ⟨m, rfl⟩ := Nat.exists_eq_succ_of_ne_zero (Nat.ne_zero_of_lt hlt)
      rw [hloop]
      exact hm m (Nat.lt_of_succ_lt_succ hlt)

/-- The fuel of `isAncestor` is enough for every loop that returns. -/
theorem isAncestor_of_ancestorLoop {a : UInt64} {fuel : ℕ} {i : UInt64} {b : Bool}
    (h : s.ancestorLoop a fuel i = some b) : s.isAncestor a i = some b := by
  obtain ⟨n, _, hw, hm⟩ := s.ancestorLoop_eq_some h
  have hlen := hw.le_length _ fun _ _ => s.climb_mem
  rw [List.length_map, Std.ExtTreeMap.length_toList] at hlen
  exact hm _ (Nat.lt_succ_of_le hlen)

variable {s}

/-- On a tree `ParentOf` finds the one parent. -/
theorem parentOf_eq (h : s.names.WellFormed) {c p : UInt64}
    (hp : ChildOf s.names.entry c p) : s.parentOf c = p := by
  obtain ⟨n, hn⟩ := hp
  have hroot : c ≠ kRootInodeId := by
    rintro rfl
    exact h.tree.root_unnamed _ hn
  unfold parentOf
  rw [if_neg hroot]
  have hmem := s.mem_dentries_toList.mpr hn
  cases hf : s.dentries.toList.find? fun d => decide (d.2 = c) with
  | none =>
    have hnone := List.find?_eq_none.mp hf _ hmem
    simp at hnone
  | some d =>
    have hdc := List.find?_some hf
    rw [decide_eq_true_eq] at hdc
    have hd := s.mem_dentries_toList.mp
      (show (d.1, d.2) ∈ s.dentries.toList from List.mem_of_find?_eq_some hf)
    rw [hdc] at hd
    exact congrArg Prod.fst (h.tree.unique hd hn)

/-- On a tree the loop makes one round for the node and one for each node above it at most, and
says whether the ancestor is among them. -/
theorem ancestorLoop_ascent (h : s.names.WellFormed) (a : UInt64) {i : UInt64} {l : List UInt64}
    (hl : Ascent s.names.entry kRootInodeId i l) {fuel : ℕ} (hfuel : l.length < fuel) :
    s.ancestorLoop a fuel i = some (decide (a = i ∨ a ∈ l)) := by
  induction hl generalizing fuel with
  | root =>
    obtain ⟨fuel, rfl⟩ := Nat.exists_eq_succ_of_ne_zero (Nat.ne_zero_of_lt hfuel)
    simp only [ancestorLoop, if_true, List.not_mem_nil, or_false]
  | @climb i p l hip hl ih =>
    obtain ⟨fuel, rfl⟩ := Nat.exists_eq_succ_of_ne_zero (Nat.ne_zero_of_lt hfuel)
    obtain ⟨n, hn⟩ := hip
    have hroot : i ≠ kRootInodeId := by
      rintro rfl
      exact h.tree.root_unnamed _ hn
    have hp : p ≠ i := by
      rintro rfl
      exact h.tree.not_self hn
    rw [ancestorLoop]
    by_cases ha : i = a
    · subst ha
      simp only [hroot, if_false, if_true, true_or, decide_true]
    · simp only [hroot, ha, parentOf_eq h ⟨n, hn⟩, hp, if_false]
      rw [ih (Nat.lt_of_succ_lt_succ hfuel)]
      simp only [Ne.symm ha, false_or, List.mem_cons]

/-- `IsAncestor` is right on a tree. -/
theorem isAncestor_spec (h : s.names.WellFormed) (a : UInt64) {i : UInt64}
    (hi : s.names.IsNode i) :
    ∃ b, s.isAncestor a i = some b ∧ (b = true ↔ ReflTransGen (ChildOf s.names.entry) i a) := by
  obtain ⟨l, hl⟩ := h.tree.exists_ascent hi
  refine ⟨_, s.isAncestor_of_ancestorLoop (ancestorLoop_ascent h a hl l.length.lt_succ_self), ?_⟩
  rw [decide_eq_true_iff]
  exact h.tree.mem_ascent_iff hl a

end MetaState

end Pulpfs
