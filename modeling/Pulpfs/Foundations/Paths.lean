import Pulpfs.Foundations.RootedTree
import Mathlib.Data.List.Infix

/-! Paths in a table of entries: the node that a list of names leads to, and how the paths of a
tree change when one of its subtrees is moved. -/
namespace RootedTree
open Relation Function

variable {ι ν : Type*} {entry entry' : ι × ν → Option ι}

/-- The node reached from `i` by following one name after another. -/
def resolve (entry : ι × ν → Option ι) : ι → List ν → Option ι
  | i, [] => some i
  | i, n :: ns => (entry (i, n)).bind fun j => resolve entry j ns

@[simp] theorem resolve_nil (i : ι) : resolve entry i [] = some i := rfl

@[simp] theorem resolve_cons (i : ι) (n : ν) (ns : List ν) :
    resolve entry i (n :: ns) = (entry (i, n)).bind fun j => resolve entry j ns := rfl

theorem resolve_append (i : ι) (xs ys : List ν) :
    resolve entry i (xs ++ ys) = (resolve entry i xs).bind fun j => resolve entry j ys := by
  induction xs generalizing i with
  | nil => simp
  | cons x xs ih => simp [ih, Option.bind_assoc]

theorem resolve_append_of_some {i j : ι} {xs : List ν} (h : resolve entry i xs = some j)
    (ys : List ν) : resolve entry i (xs ++ ys) = resolve entry j ys := by
  rw [resolve_append, h, Option.bind_some]

theorem resolve_concat_eq_some {i c : ι} {xs : List ν} {n : ν} :
    resolve entry i (xs ++ [n]) = some c ↔
      ∃ j, resolve entry i xs = some j ∧ entry (j, n) = some c := by
  simp [resolve_append, Option.bind_eq_some_iff]

/-- What a path leads to lies below where it starts. -/
theorem reaches_of_resolve {i j : ι} {xs : List ν} (h : resolve entry i xs = some j) :
    ReflTransGen (ChildOf entry) j i := by
  induction xs using List.reverseRecOn generalizing j with
  | nil =>
    obtain rfl := Option.some.inj h
    exact .refl
  | append_singleton xs n ih =>
    obtain ⟨k, hk, hj⟩ := resolve_concat_eq_some.mp h
    exact .head ⟨n, hj⟩ (ih hk)

theorem exists_path {i j : ι} (h : ReflTransGen (ChildOf entry) j i) :
    ∃ xs, resolve entry i xs = some j := by
  induction h using ReflTransGen.head_induction_on with
  | refl => exact ⟨[], rfl⟩
  | head hj _ ih =>
    obtain ⟨n, hn⟩ := hj
    obtain ⟨xs, hxs⟩ := ih
    exact ⟨xs ++ [n], resolve_concat_eq_some.mpr ⟨_, hxs, hn⟩⟩

/-- No path goes on from a leaf. -/
theorem eq_nil_of_resolve_leaf {t j : ι} (leaf : ∀ n, entry (t, n) = none) {xs : List ν}
    (h : resolve entry t xs = some j) : xs = [] := by
  cases xs with
  | nil => rfl
  | cons x xs => simp [leaf x] at h

/-- Two tables that agree on the entries a path visits resolve it alike. -/
theorem resolve_congr {i : ι} {path : List ν}
    (h : ∀ xs n ys j, path = xs ++ n :: ys → resolve entry i xs = some j →
      entry' (j, n) = entry (j, n)) : resolve entry' i path = resolve entry i path := by
  induction path generalizing i with
  | nil => rfl
  | cons n ns ih =>
    have hfirst : entry' (i, n) = entry (i, n) := h [] n ns i rfl rfl
    rw [resolve_cons, resolve_cons, hfirst]
    cases hc : entry (i, n) with
    | none => rfl
    | some c =>
      apply ih
      intro xs m ys j hpath hxs
      apply h (n :: xs) m ys j
      · rw [hpath, List.cons_append]
      · rw [resolve_cons, hc]
        exact hxs

theorem concat_not_prefix_self (xs : List ν) (x : ν) : ¬ xs ++ [x] <+: xs := by
  intro h
  have hle := h.length_le
  rw [List.length_append, List.length_singleton] at hle
  omega

namespace IsTree

variable {root : ι} {dir node : ι → Prop}

/-- The names from the root to a node are determined by the node. -/
theorem path_unique (h : IsTree root dir node entry) {i : ι} {xs ys : List ν}
    (hx : resolve entry root xs = some i) (hy : resolve entry root ys = some i) : xs = ys := by
  induction xs using List.reverseRecOn generalizing i ys with
  | nil =>
    obtain rfl := Option.some.inj hx
    cases ys using List.reverseRecOn with
    | nil => rfl
    | append_singleton ys m =>
      obtain ⟨j, _, hj⟩ := resolve_concat_eq_some.mp hy
      exact absurd hj (h.root_unnamed _)
  | append_singleton xs n ih =>
    obtain ⟨j, hj, hn⟩ := resolve_concat_eq_some.mp hx
    cases ys using List.reverseRecOn with
    | nil =>
      obtain rfl := Option.some.inj hy
      exact absurd hn (h.root_unnamed _)
    | append_singleton ys m =>
      obtain ⟨k, hk, hm⟩ := resolve_concat_eq_some.mp hy
      obtain ⟨rfl, rfl⟩ := Prod.mk.inj (h.unique hn hm)
      rw [ih hj hk]

theorem existsUnique_path (h : IsTree root dir node entry) {i : ι} (hi : node i) :
    ∃! xs, resolve entry root xs = some i := by
  obtain ⟨xs, hxs⟩ := exists_path (h.reaches hi)
  exact ⟨xs, hxs, fun ys hys => h.path_unique hys hxs⟩

section Move

variable [DecidableEq ι] [DecidableEq ν] {p q c : ι} {n m : ν} {A B : List ν}

/-- The table after the entry `(p, n)` for `c` was moved to `(q, m)`. -/
def moved (entry : ι × ν → Option ι) (p : ι) (n : ν) (q : ι) (m : ν) (c : ι) :
    ι × ν → Option ι := update (update entry (p, n) none) (q, m) (some c)

theorem moved_of_ne {k : ι × ν} (hp : k ≠ (p, n)) (hq : k ≠ (q, m)) :
    moved entry p n q m c k = entry k := by
  unfold moved
  rw [update_of_ne hq, update_of_ne hp]

/-- A path through neither the old nor the new name resolves as before. -/
theorem resolve_moved_elsewhere (h : IsTree root dir node entry)
    (hA : resolve entry root A = some p) (hB : resolve entry root B = some q) {path : List ν}
    (hold : ¬ A ++ [n] <+: path) (hnew : ¬ B ++ [m] <+: path) :
    resolve (moved entry p n q m c) root path = resolve entry root path := by
  apply resolve_congr
  intro xs x ys j hpath hxs
  have hprefix : xs ++ [x] <+: path := ⟨ys, by simp [hpath]⟩
  apply moved_of_ne
  · intro he
    obtain ⟨rfl, rfl⟩ := Prod.mk.inj he
    exact hold (h.path_unique hxs hA ▸ hprefix)
  · intro he
    obtain ⟨rfl, rfl⟩ := Prod.mk.inj he
    exact hnew (h.path_unique hxs hB ▸ hprefix)

/-- The new parent is still found at its path, for it is not below the moved node. -/
theorem resolve_moved_newParent (h : IsTree root dir node entry)
    (hA : resolve entry root A = some p) (hB : resolve entry root B = some q)
    (hc : entry (p, n) = some c) (outside : ¬ ReflTransGen (ChildOf entry) q c) :
    resolve (moved entry p n q m c) root B = some q := by
  rw [h.resolve_moved_elsewhere hA hB _ (concat_not_prefix_self B m), hB]
  rintro ⟨rest, rfl⟩
  have hcpath := resolve_concat_eq_some.mpr ⟨p, hA, hc⟩
  rw [resolve_append_of_some hcpath] at hB
  exact outside (reaches_of_resolve hB)

/-- The old parent is still found at its path, for it is not the replaced leaf. -/
theorem resolve_moved_oldParent (h : IsTree root dir node entry)
    (hA : resolve entry root A = some p) (hB : resolve entry root B = some q)
    (hc : entry (p, n) = some c)
    (leaf : ∀ t, entry (q, m) = some t → ∀ x, entry (t, x) = none) :
    resolve (moved entry p n q m c) root A = some p := by
  rw [h.resolve_moved_elsewhere hA hB (concat_not_prefix_self A n), hA]
  rintro ⟨rest, rfl⟩
  have hpath := hA
  rw [List.append_assoc, resolve_append_of_some hB, List.singleton_append, resolve_cons,
    Option.bind_eq_some_iff] at hpath
  obtain ⟨t, ht, hrest⟩ := hpath
  obtain rfl := eq_nil_of_resolve_leaf (leaf t ht) hrest
  obtain rfl := Option.some.inj hrest
  rw [leaf t ht n] at hc
  contradiction

/-- Below the moved node nothing changes. -/
theorem resolve_moved_below (h : IsTree root dir node entry) (hc : entry (p, n) = some c)
    (outside : ¬ ReflTransGen (ChildOf entry) q c) (rest : List ν) :
    resolve (moved entry p n q m c) c rest = resolve entry c rest := by
  apply resolve_congr
  intro xs x ys j _ hxs
  have hj := reaches_of_resolve hxs
  apply moved_of_ne
  · intro he
    obtain ⟨rfl, rfl⟩ := Prod.mk.inj he
    exact h.acyclic c (.head' ⟨x, hc⟩ hj)
  · intro he
    obtain ⟨rfl, rfl⟩ := Prod.mk.inj he
    exact outside hj

/-- Behind the new name stands what stood behind the old one. -/
theorem resolve_moved_new (h : IsTree root dir node entry)
    (hA : resolve entry root A = some p) (hB : resolve entry root B = some q)
    (hc : entry (p, n) = some c) (outside : ¬ ReflTransGen (ChildOf entry) q c)
    (rest : List ν) :
    resolve (moved entry p n q m c) root (B ++ m :: rest) =
      resolve entry root (A ++ n :: rest) := by
  have hentry : moved entry p n q m c (q, m) = some c := update_self ..
  rw [resolve_append_of_some (h.resolve_moved_newParent hA hB hc outside), resolve_cons, hentry,
    Option.bind_some, h.resolve_moved_below hc outside, resolve_append_of_some hA, resolve_cons,
    hc, Option.bind_some]

/-- Behind the old name stands nothing. -/
theorem resolve_moved_old (h : IsTree root dir node entry)
    (hA : resolve entry root A = some p) (hB : resolve entry root B = some q)
    (hc : entry (p, n) = some c)
    (leaf : ∀ t, entry (q, m) = some t → ∀ x, entry (t, x) = none) (hne : (p, n) ≠ (q, m))
    (rest : List ν) : resolve (moved entry p n q m c) root (A ++ n :: rest) = none := by
  have hentry : moved entry p n q m c (p, n) = none := by
    unfold moved
    rw [update_of_ne hne, update_self]
  rw [resolve_append_of_some (h.resolve_moved_oldParent hA hB hc leaf), resolve_cons, hentry,
    Option.bind_none]

end Move

end IsTree

end RootedTree
