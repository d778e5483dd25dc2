import Pulpfs.Meta.TreeInvariant
import Pulpfs.Foundations.Paths

/-! `Rename` moves one subtree. What a path resolves to after it is what the path that went
through the old name resolved to before; no path elsewhere and no other inode is touched. -/
namespace Pulpfs
open RootedTree Function Relation Transition

namespace MetaState

variable {s s' : MetaState} {clock : Clock} {p q : UInt64} {n m : Bytes} {a : InodeAttrs}

/-- The inode reached from the root by following dentries along a list of names. -/
def resolve (s : MetaState) (path : List Bytes) : Option UInt64 :=
  RootedTree.resolve (fun k => s.dentries[k]?) kRootInodeId path

/-- What was at the name `n` of `p` is at the name `m` of `q`, with all that is below it. -/
structure MovesSubtree (s s' : MetaState) (p : UInt64) (n : Bytes) (q : UInt64) (m : Bytes) :
    Prop where
  oldParent : ∃! A, s.resolve A = some p
  newParent : ∃! B, s.resolve B = some q
  arrives : ∀ A B, s.resolve A = some p → s.resolve B = some q →
    ∀ rest, s'.resolve (B ++ m :: rest) = s.resolve (A ++ n :: rest)
  leaves : ∀ A, s.resolve A = some p → ∀ rest, s'.resolve (A ++ n :: rest) = none
  elsewhere : ∀ A B, s.resolve A = some p → s.resolve B = some q →
    ∀ path, ¬ A ++ [n] <+: path → ¬ B ++ [m] <+: path → s'.resolve path = s.resolve path
  ceases : ∀ B, s.resolve B = some q → ∀ i,
    (i ∈ s.inodes ∧ i ∉ s'.inodes) ↔ s.resolve (B ++ [m]) = some i
  created : ∀ i ∈ s'.inodes, i ∈ s.inodes

/-- What the checks of `Rename` found, and the entries and inodes it leaves: the entry of `id`
is moved and only what the new name stood for is gone. -/
structure MovesEntry (s s' : MetaState) (p : UInt64) (n : Bytes) (q : UInt64) (m : Bytes)
    (id : UInt64) : Prop where
  found : s.names.entry (p, n) = some id
  newDir : s.names.IsDir q
  outside : ¬ ReflTransGen (ChildOf s.names.entry) q id
  leaf : ∀ t, s.names.entry (q, m) = some t → ∀ x, s.names.entry (t, x) = none
  entries : s'.names.entry = IsTree.moved s.names.entry p n q m id
  inodes : ∀ i, s'.names.IsNode i ↔ s.names.IsNode i ∧ s.names.entry (q, m) ≠ some i

/-- A name is first freed and then moved to: freeing it first made no difference. -/
theorem move_remove_entry (ns : Namespace) (target id : UInt64) :
    ((ns.remove (q, m) target).move (p, n) (q, m) id).entry =
      IsTree.moved ns.entry p n q m id := by
  funext k
  show update (update (update ns.entry (q, m) none) (p, n) none) (q, m) (some id) k =
    update (update ns.entry (p, n) none) (q, m) (some id) k
  by_cases hk : k = (q, m)
  · rw [hk, update_self, update_self]
  · rw [update_of_ne hk, update_of_ne hk]
    by_cases hp : k = (p, n)
    · rw [hp, update_self, update_self]
    · rw [update_of_ne hp, update_of_ne hp, update_of_ne hk]

theorem MovesEntry.of_free {id : UInt64} (hk : s.names.entry (p, n) = some id)
    (hq : s.names.IsDir q) (outside : ¬ ReflTransGen (ChildOf s.names.entry) q id)
    (free : s.names.entry (q, m) = none) (hn : s'.names = s.names.move (p, n) (q, m) id) :
    s.MovesEntry s' p n q m id := by
  constructor
  case found => exact hk
  case newDir => exact hq
  case outside => exact outside
  case leaf =>
    intro t ht
    rw [free] at ht
    contradiction
  case entries => exact congrArg Namespace.entry hn
  case inodes =>
    intro i
    rw [hn, free]
    exact (and_iff_left nofun).symm

theorem MovesEntry.of_leaf {id target : UInt64} (hk : s.names.entry (p, n) = some id)
    (hq : s.names.IsDir q) (outside : ¬ ReflTransGen (ChildOf s.names.entry) q id)
    (hl : s.names.entry (q, m) = some target) (leaf : ∀ x, s.names.entry (target, x) = none)
    (hn : s'.names = (s.names.remove (q, m) target).move (p, n) (q, m) id) :
    s.MovesEntry s' p n q m id := by
  constructor
  case found => exact hk
  case newDir => exact hq
  case outside => exact outside
  case leaf =>
    intro t ht
    obtain rfl := Option.some.inj (hl.symm.trans ht)
    exact leaf
  case entries => rw [hn, move_remove_entry]
  case inodes =>
    intro i
    have hnode : (s.names.remove (q, m) target).IsNode i = (s.names.IsNode i ∧ i ≠ target) :=
      congrFun (Namespace.isNode_remove (q, m) target) i
    rw [hn, hl, ne_eq, Option.some.injEq, eq_comm]
    exact iff_of_eq hnode

/-- The names a rename leaves: those it found, or with the entry moved to a free name, or with
the entry moved to the name of what had no entries and is gone. -/
theorem rename_ok_names (h : s.names.WellFormed) (hr : s.rename clock p n q m = (.ok a, s')) :
    ∃ id, s.names.entry (p, n) = some id ∧ s.names.IsDir q ∧
      ¬ ReflTransGen (ChildOf s.names.entry) q id ∧
      ((s.names.entry (q, m) = some id ∧ s' = s) ∨
        (s.names.entry (q, m) = none ∧ s'.names = s.names.move (p, n) (q, m) id) ∨
        ∃ target, s.names.entry (q, m) = some target ∧ target ≠ id ∧
          (∀ x, s.names.entry (target, x) = none) ∧
          s'.names = (s.names.remove (q, m) target).move (p, n) (q, m) id) := by
  obtain ⟨id, attrs, hk, hattrs, hvalid, hancestor, hcase⟩ := rename_ok hr
  have hqdir := names_isDir.mpr (validateParent_inode hvalid)
  have outside : ¬ ReflTransGen (ChildOf s.names.entry) q id := by
    obtain ⟨b, hb, hout⟩ := moveCheck_spec h hattrs hqdir
    apply hout
    split at hb
    next ht => exact Option.some.inj (hb.symm.trans (hancestor ht))
    next => exact (Option.some.inj hb).symm
  refine ⟨id, hk, hqdir, outside, ?_⟩
  cases hcase with
  | same hl hs => exact .inl ⟨hl, hs⟩
  | moved hl hmove =>
    have hp := h.tree.dir_node (h.tree.parent_dir (k := (p, n)) hk)
    have hid := h.tree.child_node (k := (p, n)) hk
    obtain ⟨_, s₁, hm, hn⟩ := moveEntry_names (p, n) (q, m) (clock 0) attrs.type hp
      (h.tree.dir_node hqdir) hid hl
    obtain ⟨-, rfl⟩ := Prod.mk.inj (hm.symm.trans hmove)
    exact .inr (.inl ⟨hl, hn⟩)
  | replaced target t s₁ hl hti ht hreplace hremove hmove =>
    have leaf := hreplace.leaf h ht
    obtain ⟨_, s₂, hboth, hn⟩ := replaceEntry_names (p, n) attrs.type (clock 0) (clock 1) h hk hl
      hti leaf
    simp only [hremove, andThen_ok, hmove] at hboth
    obtain ⟨-, rfl⟩ := Prod.mk.inj hboth
    exact .inr (.inr ⟨target, hl, hti, leaf, hn⟩)

/-- A rename to another directory gives the inode a new parent. -/
theorem rename_parent (h : s.names.WellFormed) (hr : s.rename clock p n q m = (.ok a, s'))
    (hne : p ≠ q) {id : UInt64} (hk : s.names.entry (p, n) = some id) :
    s'.names.WellFormed ∧ s'.names.entry (q, m) = some id ∧
      (s.names.IsDir id → s'.names.IsDir id) := by
  have hw : s'.names.WellFormed := by
    rcases rename_names clock p n q m h with ⟨e, he⟩ | ⟨b, t, hb, -, hsteps⟩
    · cases hr.symm.trans he
    · obtain ⟨-, rfl⟩ := Prod.mk.inj (hr.symm.trans hb)
      exact h.steps hsteps
  refine ⟨hw, ?_⟩
  obtain ⟨c, hc, -, -, ⟨hl, -⟩ | ⟨-, hn⟩ | ⟨target, -, ht, -, hn⟩⟩ := rename_ok_names h hr
  all_goals obtain rfl := Option.some.inj (hk.symm.trans hc)
  · exact absurd (congrArg Prod.fst (h.tree.unique hk hl)) hne
  · rw [hn]
    exact ⟨update_self .., fun hd => hd⟩
  · rw [hn]
    refine ⟨update_self .., fun hd => ?_⟩
    have hstill : (s.names.remove (q, m) target).IsDir id := hd.remove (Ne.symm ht)
    exact hstill

theorem rename_moves (h : s.names.WellFormed) (hr : s.rename clock p n q m = (.ok a, s'))
    (hne : (p, n) ≠ (q, m)) : ∃ id, s.MovesEntry s' p n q m id := by
  obtain ⟨id, hk, hqdir, outside, ⟨hl, -⟩ | ⟨hl, hn⟩ | ⟨target, hl, -, leaf, hn⟩⟩ :=
    rename_ok_names h hr
  · exact absurd (h.tree.unique hk hl) hne
  · exact ⟨id, .of_free hk hqdir outside hl hn⟩
  · exact ⟨id, .of_leaf hk hqdir outside hl leaf hn⟩

theorem MovesEntry.movesSubtree {id : UInt64} (hm : s.MovesEntry s' p n q m id)
    (h : s.names.WellFormed) (hne : (p, n) ≠ (q, m)) : s.MovesSubtree s' p n q m := by
  have hresolve (path : List Bytes) : s'.resolve path =
      RootedTree.resolve (IsTree.moved s.names.entry p n q m id) kRootInodeId path := by
    rw [← hm.entries]
    rfl
  have htarget {B : List Bytes} (hB : s.resolve B = some q) (i : UInt64) :
      s.resolve (B ++ [m]) = some i ↔ s.names.entry (q, m) = some i := by
    unfold resolve at hB ⊢
    rw [resolve_append_of_some hB, resolve_cons]
    simp
  have hp := h.tree.dir_node (h.tree.parent_dir hm.found)
  have hq := h.tree.dir_node hm.newDir
  obtain ⟨B, hB⟩ := exists_path (h.tree.reaches hq)
  constructor
  case oldParent => exact h.tree.existsUnique_path hp
  case newParent => exact h.tree.existsUnique_path hq
  case arrives =>
    intro A B hA hB rest
    rw [hresolve]
    exact h.tree.resolve_moved_new hA hB hm.found hm.outside rest
  case leaves =>
    intro A hA rest
    rw [hresolve]
    exact h.tree.resolve_moved_old hA hB hm.found hm.leaf hne rest
  case elsewhere =>
    intro A B hA hB path hold hnew
    rw [hresolve]
    exact h.tree.resolve_moved_elsewhere hA hB hold hnew
  case ceases =>
    intro B hB i
    rw [htarget hB, mem_inodes, mem_inodes, hm.inodes]
    constructor
    · rintro ⟨hi, hgone⟩
      by_contra hother
      exact hgone ⟨hi, hother⟩
    · intro hi
      exact ⟨h.tree.child_node hi, fun hstill => hstill.2 hi⟩
  case created =>
    intro i hi
    exact mem_inodes.mpr ((hm.inodes i).mp (mem_inodes.mp hi)).1

end MetaState

/-- In every state that a run from a fresh state reaches before numbers run out, a successful
`Rename` that is not of an entry onto itself moves exactly one subtree. -/
theorem renames_of_run [OffsetSort] (chunkSize : UInt64) (nowNs : Int64) (calls : List Call)
    (room : (MetaState.createdIds calls (.fresh chunkSize nowNs)).length < 2 ^ 64 - 2)
    (clock : Clock) (p : UInt64) (n : Bytes) (q : UInt64) (m : Bytes) :
    let s := final MetaState.call calls (.fresh chunkSize nowNs)
    let r := s.rename clock p n q m
    r.1.isOk = true → (p, n) ≠ (q, m) → s.MovesSubtree r.2 p n q m := by
  intro s r hok hne
  have hw := MetaState.wellFormed_run chunkSize nowNs calls room
  obtain ⟨a, ha⟩ := Outcome.exists_of_isOk hok
  have hr : s.rename clock p n q m = (.ok a, r.2) := Prod.ext ha rfl
  obtain ⟨id, hm⟩ := MetaState.rename_moves hw hr hne
  exact hm.movesSubtree hw hne

/-- Two directories, a file in the first and an empty directory in the second. -/
def subtreeCalls : List Call :=
  [⟨fun _ => 5, .mkdir 1 (ascii "a") 0o755 0 0⟩, ⟨fun _ => 6, .mkdir 1 (ascii "b") 0o755 0 0⟩,
    ⟨fun _ => 7, .createFile 2 (ascii "f") 0o644 0 0⟩,
    ⟨fun _ => 8, .mkdir 3 (ascii "c") 0o755 0 0⟩]

/-- The first directory takes the place of the empty one. -/
theorem renames_of_subtreeCalls :
    let s := final (@MetaState.call .insertion) subtreeCalls (.fresh 4096 0)
    let r := s.rename (fun _ => 9) 1 (ascii "a") 3 (ascii "c")
    r.1.isOk = true ∧ s.MovesSubtree r.2 1 (ascii "a") 3 (ascii "c") ∧
      s.resolve [ascii "b", ascii "c"] = some 5 ∧
      r.2.resolve [ascii "b", ascii "c", ascii "f"] = some 4 :=
  ⟨by decide, @renames_of_run .insertion 4096 0 subtreeCalls (by decide) (fun _ => 9) 1 (ascii "a")
    3 (ascii "c") (by decide) (by decide), by decide, by decide⟩

end Pulpfs
