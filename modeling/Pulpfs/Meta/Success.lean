import Pulpfs.Meta.State

/-! What the calls that change names found in the state, and what they did, when they succeed. -/
namespace Pulpfs

namespace MetaState

variable {s s' : MetaState} {clock : Clock}

/-- A sequence that succeeds has a first part that does. -/
theorem andThen_eq_ok {α β : Type} {r : Result α} {f : α → MetaState → Result β} {b : β}
    (h : r.andThen f = (.ok b, s')) : ∃ a s₁, r = (.ok a, s₁) ∧ f a s₁ = (.ok b, s') := by
  obtain ⟨o, s₁⟩ := r
  cases o with
  | ok a => exact ⟨a, s₁, rfl, h⟩
  | error e => cases h
  | outOfRange => cases h
  | diverged => cases h

theorem Result.map_eq_ok {α β : Type} {r : Result α} {f : α → β} {b : β}
    (h : r.map f = (.ok b, s')) : ∃ a, r = (.ok a, s') ∧ f a = b := by
  obtain ⟨ho, hs⟩ := Prod.mk.inj h
  obtain ⟨a, ha, hb⟩ := Outcome.map_eq_ok ho
  exact ⟨a, Prod.ext ha hs, hb⟩

/-- A sequence that starts with a lookup and succeeds finds the inode. -/
theorem inodeAt_eq_ok {β : Type} {i : UInt64} {f : InodeAttrs → MetaState → Result β} {b : β}
    (h : (s.inodeAt i).andThen f = (.ok b, s')) :
    ∃ a, s.inodes[i]? = some a ∧ f a s = (.ok b, s') := by
  cases hi : s.inodes[i]? with
  | none =>
    simp only [inodeAt, hi] at h
    cases h
  | some a =>
    rw [inodeAt_of_some hi] at h
    exact ⟨a, rfl, h⟩

theorem inodeAt_ok {i : UInt64} {a : InodeAttrs} (h : s.inodeAt i = (.ok a, s')) : s = s' := by
  unfold inodeAt at h
  split at h
  next => exact (Prod.mk.inj h).2
  next => cases h

theorem unlink_ok {p : UInt64} {n : Bytes} {a : InodeAttrs}
    (h : s.unlink clock p n = (.ok a, s')) :
    ∃ id target, s.dentries[(p, n)]? = some id ∧ s.inodes[id]? = some target ∧
      target.type ≠ .directory ∧ s.removeNode p n id (clock 0) = (.ok (), s') := by
  unfold unlink at h
  cases hp : s.validateParent p n with
  | error e =>
    rw [hp] at h
    cases h
  | ok _ =>
  cases hk : s.dentries[(p, n)]? with
  | none =>
    simp only [hp, hk] at h
    cases h
  | some id =>
  simp only [hp, hk] at h
  obtain ⟨target, htarget, hrest⟩ := inodeAt_eq_ok h
  split at hrest
  next => cases hrest
  next ht =>
    obtain ⟨_, s₁, hr, hread⟩ := andThen_eq_ok hrest
    exact ⟨id, target, rfl, htarget, ht, (inodeAt_ok hread) ▸ hr⟩

theorem rmdir_ok {p : UInt64} {n : Bytes} {a : InodeAttrs}
    (h : s.rmdir clock p n = (.ok a, s')) :
    ∃ id target, s.dentries[(p, n)]? = some id ∧ s.inodes[id]? = some target ∧
      target.type = .directory ∧ s.isDirectoryEmpty id = true ∧
      s.removeNode p n id (clock 0) = (.ok (), s') := by
  unfold rmdir at h
  cases hp : s.validateParent p n with
  | error e =>
    rw [hp] at h
    cases h
  | ok _ =>
  cases hk : s.dentries[(p, n)]? with
  | none =>
    simp only [hp, hk] at h
    cases h
  | some id =>
  simp only [hp, hk] at h
  obtain ⟨target, htarget, hrest⟩ := inodeAt_eq_ok h
  split at hrest
  next => cases hrest
  next ht =>
    split at hrest
    next => cases hrest
    next hempty =>
      obtain ⟨_, s₁, hr, hread⟩ := andThen_eq_ok hrest
      simp only [Bool.not_eq_true', Bool.not_eq_false] at hempty
      exact ⟨id, target, rfl, htarget, not_not.mp ht, hempty, (inodeAt_ok hread) ▸ hr⟩

/-- A target that `Rename` replaces has no entries: it is empty, or it is no directory. -/
def Replaceable (s : MetaState) (i : UInt64) (a : InodeAttrs) : Prop :=
  a.type = .directory → s.isDirectoryEmpty i = true

/-- The three ways in which `Rename` succeeds. -/
inductive Renamed (clock : Clock) (s : MetaState) (oldKey newKey : DentryKey) (id : UInt64)
    (moved : InodeAttrs) (a : InodeAttrs) (s' : MetaState) : Prop
  | same : s.dentries[newKey]? = some id → s' = s → Renamed clock s oldKey newKey id moved a s'
  | moved : s.dentries[newKey]? = none →
      s.moveEntry (clock 0) oldKey newKey id moved.type = (.ok a, s') →
      Renamed clock s oldKey newKey id moved a s'
  | replaced (target : UInt64) (t : InodeAttrs) (s₁ : MetaState) :
      s.dentries[newKey]? = some target → target ≠ id → s.inodes[target]? = some t →
      s.Replaceable target t →
      s.removeNode newKey.1 newKey.2 target (clock 0) = (.ok (), s₁) →
      s₁.moveEntry (clock 1) oldKey newKey id moved.type = (.ok a, s') →
      Renamed clock s oldKey newKey id moved a s'

theorem rename_ok {p q : UInt64} {n m : Bytes} {a : InodeAttrs}
    (h : s.rename clock p n q m = (.ok a, s')) :
    ∃ id moved, s.dentries[(p, n)]? = some id ∧ s.inodes[id]? = some moved ∧
      s.validateParent q m = .ok () ∧
      (moved.type = .directory → s.isAncestor id q = some false) ∧
      Renamed clock s (p, n) (q, m) id moved a s' := by
  unfold rename at h
  cases hp : s.validateParent p n with
  | error e =>
    rw [hp] at h
    cases h
  | ok _ =>
  cases hq : s.validateParent q m with
  | error e =>
    simp only [hp, hq] at h
    cases h
  | ok _ =>
  cases hk : s.dentries[(p, n)]? with
  | none =>
    simp only [hp, hq, hk] at h
    cases h
  | some id =>
  simp only [hp, hq, hk] at h
  obtain ⟨moved, hmoved, hrest⟩ := inodeAt_eq_ok h
  refine ⟨id, moved, rfl, hmoved, rfl, ?_⟩
  split at hrest
  next => cases hrest
  next => cases hrest
  next hancestor =>
  refine ⟨fun ht => ?_, ?_⟩
  · rwa [if_pos ht] at hancestor
  cases hl : s.dentries[(q, m)]? with
  | none =>
    simp only [hl] at hrest
    exact .moved hl hrest
  | some target =>
  simp only [hl] at hrest
  split at hrest
  next hsame => exact .same (hsame ▸ hl) (Prod.mk.inj hrest).2.symm
  next hne =>
    obtain ⟨t, ht, hreplace⟩ := inodeAt_eq_ok hrest
    split at hreplace
    next => cases hreplace
    next =>
      split at hreplace
      next => cases hreplace
      next =>
        split at hreplace
        next => cases hreplace
        next hempty =>
          obtain ⟨_, s₁, hr, hm⟩ := andThen_eq_ok hreplace
          refine .replaced target t s₁ hl hne ht ?_ hr hm
          intro hd
          simpa [hd] using hempty

end MetaState

end Pulpfs
