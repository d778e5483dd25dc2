import Mathlib.Logic.Relation
import Mathlib.Logic.Function.Basic
import Mathlib.Data.Fintype.Card
import Mathlib.Tactic.ByCases

/-! Rooted trees stored as one flat table of entries. The table sends a pair of a
directory and a name to the node the name stands for; nothing else is stored. -/
namespace RootedTree
open Relation Function

variable {ι ν : Type*}

/-- What an updated table holds: the new value at the new key, the old ones elsewhere. -/
theorem of_update_eq_some {κ β : Type*} [DecidableEq κ] {f : κ → Option β} {k l : κ}
    {v : Option β} {d : β} (h : update f k v l = some d) :
    (l = k ∧ v = some d) ∨ (l ≠ k ∧ f l = some d) := by
  by_cases he : l = k
  · subst he
    rw [update_self] at h
    exact .inl ⟨rfl, h⟩
  · rw [update_of_ne he] at h
    exact .inr ⟨he, h⟩

/-- `c` is named by an entry of `p`. -/
def ChildOf (entry : ι × ν → Option ι) (c p : ι) : Prop := ∃ n, entry (p, n) = some c

/-- The table is a tree: every entry leads from a directory to a node, no node has two
entries, the root has none, and following parents leads from every node to the root. -/
structure IsTree (root : ι) (dir node : ι → Prop) (entry : ι × ν → Option ι) : Prop where
  root_dir : dir root
  dir_node : ∀ {i}, dir i → node i
  root_unnamed : ∀ k, entry k ≠ some root
  parent_dir : ∀ {k c}, entry k = some c → dir k.1
  child_node : ∀ {k c}, entry k = some c → node c
  unique : ∀ {k l c}, entry k = some c → entry l = some c → k = l
  reaches : ∀ {i}, node i → ReflTransGen (ChildOf entry) i root

/-- The chain of parents from a node up to the root, without the node itself. -/
inductive Ascent (entry : ι × ν → Option ι) (root : ι) : ι → List ι → Prop
  | root : Ascent entry root root []
  | climb {i p : ι} {l : List ι} :
      ChildOf entry i p → Ascent entry root p l → Ascent entry root i (p :: l)

theorem Ascent.transGen {entry : ι × ν → Option ι} {root i a : ι} {l : List ι}
    (h : Ascent entry root i l) (ha : a ∈ l) : TransGen (ChildOf entry) i a := by
  induction h with
  | root => contradiction
  | climb hip _ ih =>
    rcases List.mem_cons.mp ha with rfl | ha
    · exact .single hip
    · exact .head hip (ih ha)

namespace IsTree

variable {root : ι} {dir node : ι → Prop} {entry : ι × ν → Option ι}

/-- The root alone is a tree. -/
theorem single (root : ι) :
    IsTree (ν := ν) root (fun i => i = root) (fun i => i = root) fun _ => none where
  root_dir := rfl
  dir_node := id
  root_unnamed := nofun
  parent_dir := nofun
  child_node := nofun
  unique := nofun
  reaches := by
    rintro i rfl
    exact .refl

theorem root_node (h : IsTree root dir node entry) : node root := h.dir_node h.root_dir

theorem exists_entry (h : IsTree root dir node entry) {i : ι} (hi : node i) (hr : i ≠ root) :
    ∃ k, entry k = some i := by
  rcases (h.reaches hi).cases_head with rfl | ⟨p, ⟨n, hn⟩, _⟩
  · exact absurd rfl hr
  · exact ⟨(p, n), hn⟩

/-- Every node but the root has exactly one entry. -/
theorem existsUnique_entry (h : IsTree root dir node entry) {i : ι} (hi : node i)
    (hr : i ≠ root) : ∃! k, entry k = some i := by
  obtain ⟨k, hk⟩ := h.exists_entry hi hr
  exact ⟨k, hk, fun l hl => h.unique hl hk⟩

theorem childOf_unique (h : IsTree root dir node entry) {c p q : ι}
    (hp : ChildOf entry c p) (hq : ChildOf entry c q) : p = q := by
  obtain ⟨n, hn⟩ := hp
  obtain ⟨k, hk⟩ := hq
  exact congrArg Prod.fst (h.unique hn hk)

/-- Following parents never leads back. -/
theorem acyclic (h : IsTree root dir node entry) (i : ι) : ¬ TransGen (ChildOf entry) i i := by
  intro hi
  have hnot : ∀ j, ReflTransGen (ChildOf entry) j root → ¬ TransGen (ChildOf entry) j j := by
    intro j hj
    induction hj using ReflTransGen.head_induction_on with
    | refl =>
      intro hcycle
      obtain ⟨p, ⟨n, hn⟩, _⟩ := TransGen.head'_iff.mp hcycle
      exact h.root_unnamed _ hn
    | @head j p hjp _ ih =>
      -- a cycle through a node goes on through its one parent
      intro hcycle
      obtain ⟨p', hjp', hback⟩ := TransGen.head'_iff.mp hcycle
      obtain rfl := h.childOf_unique hjp hjp'
      exact ih (TransGen.tail' hback hjp)
  obtain ⟨p, ⟨n, hn⟩, _⟩ := TransGen.head'_iff.mp hi
  exact hnot i (h.reaches (h.child_node hn)) hi

/-- No directory has an entry for itself. -/
theorem not_self (h : IsTree root dir node entry) {q : ι} {n : ν} :
    entry (q, n) ≠ some q := fun hq => h.acyclic q (.single ⟨n, hq⟩)

theorem exists_ascent (h : IsTree root dir node entry) {i : ι} (hi : node i) :
    ∃ l, Ascent entry root i l := by
  have hr := h.reaches hi
  clear hi
  induction hr using ReflTransGen.head_induction_on with
  | refl => exact ⟨[], .root⟩
  | head hip _ ih =>
    obtain ⟨l, hl⟩ := ih
    exact ⟨_, .climb hip hl⟩

/-- The chain of parents holds what following parents leads to. -/
theorem mem_ascent_iff (h : IsTree root dir node entry) {i : ι} {l : List ι}
    (hl : Ascent entry root i l) (a : ι) :
    a = i ∨ a ∈ l ↔ ReflTransGen (ChildOf entry) i a := by
  constructor
  · rintro (rfl | ha)
    · exact .refl
    · exact (hl.transGen ha).to_reflTransGen
  · intro hr
    induction hl with
    | root =>
      rcases hr.cases_head with he | ⟨p, ⟨n, hn⟩, _⟩
      · exact .inl he.symm
      · exact absurd hn (h.root_unnamed _)
    | climb hip _ ih =>
      rcases hr.cases_head with he | ⟨q, hiq, hq⟩
      · exact .inl he.symm
      · obtain rfl := h.childOf_unique hip hiq
        exact .inr (List.mem_cons.mpr (ih hq))

/-- No node stands twice on its way to the root. -/
theorem ascent_nodup (h : IsTree root dir node entry) {i : ι} {l : List ι}
    (hl : Ascent entry root i l) : (i :: l).Nodup := by
  induction hl with
  | root => exact List.nodup_singleton _
  | climb hip hl ih =>
    refine List.nodup_cons.mpr ⟨?_, ih⟩
    intro hi
    exact h.acyclic _ ((Ascent.climb hip hl).transGen hi)

/-- A chain of parents is shorter than any list of all nodes. -/
theorem ascent_length_lt (h : IsTree root dir node entry) {i : ι} {l : List ι}
    (hl : Ascent entry root i l) (hi : node i) {nodes : List ι}
    (hnodes : ∀ j, node j → j ∈ nodes) : l.length < nodes.length := by
  have hsub : i :: l ⊆ nodes := by
    intro a ha
    rcases List.mem_cons.mp ha with rfl | ha
    · exact hnodes a hi
    · obtain ⟨j, _, n, hn⟩ := TransGen.tail'_iff.mp (hl.transGen ha)
      exact hnodes a (h.dir_node (h.parent_dir hn))
  exact ((h.ascent_nodup hl).subperm hsub).length_le

/-- Among finitely many nodes that all have an entry but for the root, following parents leads
to the root unless it goes in circles. -/
theorem reaches_of_acyclic [Finite ι] {r : ι → ι → Prop} (hacyclic : ∀ i, ¬ TransGen r i i)
    (hparent : ∀ i, node i → i ≠ root → ∃ p, r i p ∧ node p) {i : ι} (hi : node i) :
    ReflTransGen r i root := by
  have hirrefl : Std.Irrefl (flip (TransGen r)) := ⟨hacyclic⟩
  have htrans : IsTrans ι (flip (TransGen r)) := ⟨fun _ _ _ hab hbc => TransGen.trans hbc hab⟩
  have hwf : WellFounded (flip (TransGen r)) := Finite.wellFounded_of_trans_of_irrefl _
  induction i using hwf.induction with
  | _ i ih =>
    by_cases hr : i = root
    · subst hr
      exact .refl
    · obtain ⟨p, hip, hp⟩ := hparent i hi hr
      exact .head hip (ih p (.single hip) hp)

/-- A chain of parents that meets a leaf starts at it. -/
theorem eq_of_reaches_leaf {c i : ι} (leaf : ∀ n, entry (c, n) = none)
    (hi : ReflTransGen (ChildOf entry) i c) : i = c := by
  induction hi using ReflTransGen.head_induction_on with
  | refl => rfl
  | head hij _ ih =>
    subst ih
    obtain ⟨n, hn⟩ := hij
    rw [leaf n] at hn
    contradiction

variable [DecidableEq ι] [DecidableEq ν]

/-- Entering a new node below a directory keeps the tree. -/
theorem link (h : IsTree root dir node entry) {p c : ι} {n : ν} (isDir : Prop) (hp : dir p)
    (free : entry (p, n) = none) (fresh : ¬ node c) :
    IsTree root (fun i => dir i ∨ i = c ∧ isDir) (fun i => node i ∨ i = c)
      (update entry (p, n) (some c)) := by
  have hold {i j : ι} (hij : ChildOf entry i j) :
      ChildOf (update entry (p, n) (some c)) i j := by
    obtain ⟨k, hk⟩ := hij
    refine ⟨k, ?_⟩
    rw [update_of_ne]
    · exact hk
    · intro he
      rw [he, free] at hk
      contradiction
  have hreach {i : ι} (hi : node i) :
      ReflTransGen (ChildOf (update entry (p, n) (some c))) i root :=
    ReflTransGen.mono (fun _ _ => hold) _ _ (h.reaches hi)
  have hcases {k : ι × ν} {d : ι} (hk : update entry (p, n) (some c) k = some d) :
      (k = (p, n) ∧ d = c) ∨ entry k = some d := by
    rcases of_update_eq_some hk with ⟨he, hd⟩ | ⟨_, hk⟩
    · exact .inl ⟨he, (Option.some.inj hd).symm⟩
    · exact .inr hk
  have hne {k : ι × ν} : entry k ≠ some c := fun hk => fresh (h.child_node hk)
  refine ⟨.inl h.root_dir, ?_, ?_, ?_, ?_, ?_, ?_⟩
  · rintro i (hi | ⟨rfl, _⟩)
    · exact .inl (h.dir_node hi)
    · exact .inr rfl
  · intro k hk
    rcases hcases hk with ⟨_, hc⟩ | hk
    · exact fresh (hc ▸ h.root_node)
    · exact h.root_unnamed k hk
  · intro k d hk
    rcases hcases hk with ⟨rfl, _⟩ | hk
    · exact .inl hp
    · exact .inl (h.parent_dir hk)
  · intro k d hk
    rcases hcases hk with ⟨_, rfl⟩ | hk
    · exact .inr rfl
    · exact .inl (h.child_node hk)
  · intro k l d hk hl
    rcases hcases hk with ⟨rfl, rfl⟩ | hk <;> rcases hcases hl with ⟨rfl, hd⟩ | hl
    · rfl
    · exact absurd hl hne
    · exact absurd (hd ▸ hk) hne
    · exact h.unique hk hl
  · rintro i (hi | rfl)
    · exact hreach hi
    · exact .head ⟨n, update_self ..⟩ (hreach (h.dir_node hp))

/-- Removing the entry of a node without entries of its own, and the node, keeps the tree. -/
theorem unlink (h : IsTree root dir node entry) {k : ι × ν} {c : ι} (hc : entry k = some c)
    (leaf : ∀ n, entry (c, n) = none) :
    IsTree root (fun i => dir i ∧ i ≠ c) (fun i => node i ∧ i ≠ c) (update entry k none) := by
  have hsub {l : ι × ν} {d : ι} (hl : update entry k none l = some d) :
      entry l = some d ∧ l ≠ k := by
    rcases of_update_eq_some hl with ⟨_, hd⟩ | ⟨he, hl⟩
    · contradiction
    · exact ⟨hl, he⟩
  have hreach : ∀ i, ReflTransGen (ChildOf entry) i root → i ≠ c →
      ReflTransGen (ChildOf (update entry k none)) i root := by
    intro i hi
    induction hi using ReflTransGen.head_induction_on with
    | refl => exact fun _ => .refl
    | @head i j hij _ ih =>
      intro hic
      obtain ⟨n, hn⟩ := hij
      have hj : j ≠ c := by
        rintro rfl
        rw [leaf n] at hn
        contradiction
      refine .head ⟨n, ?_⟩ (ih hj)
      rw [update_of_ne]
      · exact hn
      · rintro rfl
        exact hic (Option.some.inj (hn.symm.trans hc))
  have hroot : root ≠ c := fun he => h.root_unnamed k (he ▸ hc)
  refine ⟨⟨h.root_dir, hroot⟩, fun hi => ⟨h.dir_node hi.1, hi.2⟩, ?_, ?_, ?_, ?_, ?_⟩
  · exact fun l hl => h.root_unnamed l (hsub hl).1
  · intro l d hl
    refine ⟨h.parent_dir (hsub hl).1, ?_⟩
    rintro rfl
    have hd := (hsub hl).1
    have hl := leaf l.2
    rw [Prod.eta, hd] at hl
    contradiction
  · intro l d hl
    refine ⟨h.child_node (hsub hl).1, ?_⟩
    rintro rfl
    exact (hsub hl).2 (h.unique (hsub hl).1 hc)
  · exact fun hl hm => h.unique (hsub hl).1 (hsub hm).1
  · exact fun hi => hreach _ (h.reaches hi.1) hi.2

section Move

variable {k : ι × ν} {q m : ι} {n : ν}

theorem of_move_eq_some {l : ι × ν} {d : ι}
    (hl : update (update entry k none) (q, n) (some m) l = some d) :
    (l = (q, n) ∧ d = m) ∨ (entry l = some d ∧ l ≠ k) := by
  rcases of_update_eq_some hl with ⟨he, hd⟩ | ⟨_, hl⟩
  · exact .inl ⟨he, (Option.some.inj hd).symm⟩
  · rcases of_update_eq_some hl with ⟨_, hd⟩ | ⟨hk, hl⟩
    · contradiction
    · exact .inr ⟨hl, hk⟩

/-- An edge that does not start at the moved node is still there. -/
theorem childOf_move (hm : entry k = some m) (free : entry (q, n) = none) {i j : ι}
    (hij : ChildOf entry i j) (hi : i ≠ m) :
    ChildOf (update (update entry k none) (q, n) (some m)) i j := by
  obtain ⟨x, hx⟩ := hij
  refine ⟨x, ?_⟩
  rw [update_of_ne, update_of_ne]
  · exact hx
  · rintro rfl
    exact hi (Option.some.inj (hx.symm.trans hm))
  · intro he
    rw [he, free] at hx
    contradiction

/-- A chain of parents to the root is still one after the move: up to the moved node, if it goes
through that, and from there by way of the new parent. -/
theorem reaches_move (h : IsTree root dir node entry) (hm : entry k = some m) (hq : dir q)
    (free : entry (q, n) = none) (outside : ¬ ReflTransGen (ChildOf entry) q m) {i : ι}
    (hi : node i) :
    ReflTransGen (ChildOf (update (update entry k none) (q, n) (some m))) i root := by
  have havoid : ∀ i, ReflTransGen (ChildOf entry) i root → ¬ ReflTransGen (ChildOf entry) i m →
      ReflTransGen (ChildOf (update (update entry k none) (q, n) (some m))) i root := by
    intro i hi
    induction hi using ReflTransGen.head_induction_on with
    | refl => exact fun _ => .refl
    | head hij _ ih =>
      intro hnot
      have hstill := childOf_move hm free hij fun he => hnot (he ▸ .refl)
      exact .head hstill (ih fun hj => hnot (.head hij hj))
  induction h.reaches hi using ReflTransGen.head_induction_on with
  | refl => exact .refl
  | @head i j hij _ ih =>
    by_cases him : i = m
    · subst him
      exact .head ⟨n, update_self ..⟩ (havoid q (h.reaches (h.dir_node hq)) outside)
    · obtain ⟨x, hx⟩ := hij
      exact .head (childOf_move hm free ⟨x, hx⟩ him) (ih (h.dir_node (h.parent_dir hx)))

/-- Moving an entry to a free name of a directory outside the moved subtree keeps the tree. -/
theorem move (h : IsTree root dir node entry) (hm : entry k = some m) (hq : dir q)
    (free : entry (q, n) = none) (outside : ¬ ReflTransGen (ChildOf entry) q m) :
    IsTree root dir node (update (update entry k none) (q, n) (some m)) := by
  constructor
  case root_dir => exact h.root_dir
  case dir_node => exact h.dir_node
  case root_unnamed =>
    intro l hl
    rcases of_move_eq_some hl with ⟨_, rfl⟩ | ⟨hl, _⟩
    · exact h.root_unnamed k hm
    · exact h.root_unnamed l hl
  case parent_dir =>
    intro l d hl
    rcases of_move_eq_some hl with ⟨rfl, _⟩ | ⟨hl, _⟩
    · exact hq
    · exact h.parent_dir hl
  case child_node =>
    intro l d hl
    rcases of_move_eq_some hl with ⟨_, rfl⟩ | ⟨hl, _⟩
    · exact h.child_node hm
    · exact h.child_node hl
  case unique =>
    intro l l' d hl hl'
    rcases of_move_eq_some hl with ⟨rfl, rfl⟩ | ⟨hold, hk⟩
    · rcases of_move_eq_some hl' with ⟨rfl, _⟩ | ⟨hold', hk'⟩
      · rfl
      · exact absurd (h.unique hold' hm) hk'
    · rcases of_move_eq_some hl' with ⟨rfl, rfl⟩ | ⟨hold', _⟩
      · exact absurd (h.unique hold hm) hk
      · exact h.unique hold hold'
  case reaches => exact fun hi => h.reaches_move hm hq free outside hi

end Move

end IsTree

end RootedTree
