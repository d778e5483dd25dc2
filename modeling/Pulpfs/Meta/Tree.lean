import Pulpfs.Meta.Ancestor
import Pulpfs.Meta.Success
import Pulpfs.Meta.Writes

/-! The calls of the state machine are steps of the machine of names: from a tree they
return, and they leave a tree. -/
namespace Pulpfs
open RootedTree Function Relation

namespace MetaState

variable {s : MetaState}

theorem names_isNode {i : UInt64} : s.names.IsNode i ↔ ∃ a, s.inodes[i]? = some a := by
  constructor
  · rintro ⟨d, hd⟩
    obtain ⟨a, ha, -⟩ := Option.map_eq_some_iff.mp hd
    exact ⟨a, ha⟩
  · rintro ⟨a, ha⟩
    exact ⟨_, Option.map_eq_some_iff.mpr ⟨a, ha, rfl⟩⟩

theorem mem_inodes {i : UInt64} : i ∈ s.inodes ↔ s.names.IsNode i := by
  rw [names_isNode, Std.ExtTreeMap.mem_iff_isSome_getElem?, Option.isSome_iff_exists]

theorem names_isDir {i : UInt64} :
    s.names.IsDir i ↔ ∃ a, s.inodes[i]? = some a ∧ a.type = .directory := by
  constructor
  · rintro ⟨d, hd, ht⟩
    obtain ⟨a, ha, rfl⟩ := Option.map_eq_some_iff.mp hd
    exact ⟨a, ha, ht⟩
  · rintro ⟨a, ha, ht⟩
    exact ⟨_, Option.map_eq_some_iff.mpr ⟨a, ha, rfl⟩, ht⟩

@[simp] theorem names_entry (k : DentryKey) : s.names.entry k = s.dentries[k]? := rfl

@[simp] theorem names_next : s.names.next = s.nextInodeId := rfl

@[simp] theorem names_setLayoutAttrs (i : UInt64) (a : InodeAttrs) :
    (s.setLayoutAttrs i a).names = s.names := rfl

@[simp] theorem names_setLayoutExtents (i : UInt64) (es : List FileExtent) :
    (s.setLayoutExtents i es).names = s.names := rfl

@[simp] theorem names_emplaceLayout (i : UInt64) (l : FileLayout) :
    (s.emplaceLayout i l).names = s.names := rfl

@[simp] theorem names_eraseLayout (i : UInt64) : (s.eraseLayout i).names = s.names := rfl

@[simp] theorem names_countInodeId :
    s.countInodeId.names = { s.names with next := s.nextInodeId + 1 } := rfl

/-- Rewriting an inode without touching its number and type leaves the names alone. -/
theorem names_storeInode {i : UInt64} {a b : InodeAttrs} (h : s.inodes[i]? = some a)
    (hid : b.inodeId = a.inodeId) (ht : b.type = a.type) :
    (s.storeInode i b).names = s.names := by
  unfold names storeInode
  congr 1
  funext j
  rw [congrFun (TreeMap.get_insert s.inodes i b) j]
  by_cases hj : j = i
  · subst hj
    simp [h, hid, ht]
  · rw [update_of_ne hj]

theorem names_emplaceInode {i : UInt64} (a : InodeAttrs) (h : s.inodes[i]? = none) :
    (s.emplaceInode i a).names = s.names.setNode i (some (a.inodeId, a.type)) := by
  unfold names emplaceInode Namespace.setNode
  congr 1
  funext j
  rw [congrFun (TreeMap.get_insertIfNew a h) j]
  by_cases hj : j = i
  · rw [hj, update_self, update_self, Option.map_some]
  · rw [update_of_ne hj, update_of_ne hj]

theorem names_eraseInode (i : UInt64) :
    (s.eraseInode i).names = s.names.setNode i none := by
  unfold names eraseInode Namespace.setNode
  congr 1
  funext j
  rw [congrFun (TreeMap.get_erase s.inodes i) j]
  by_cases hj : j = i
  · rw [hj, update_self, update_self, Option.map_none]
  · rw [update_of_ne hj, update_of_ne hj]

theorem names_emplaceDentry {k : DentryKey} (c : UInt64) (h : s.dentries[k]? = none) :
    (s.emplaceDentry k c).names = s.names.setEntry k (some c) := by
  simp only [names, emplaceDentry, Namespace.setEntry, TreeMap.get_insertIfNew c h]

theorem names_eraseDentry (k : DentryKey) :
    (s.eraseDentry k).names = s.names.setEntry k none := by
  simp only [names, eraseDentry, Namespace.setEntry, TreeMap.get_erase]

theorem setInodeAt_names {i : UInt64} {f : InodeAttrs → InodeAttrs} (h : s.names.IsNode i)
    (hf : ∀ a, (f a).inodeId = a.inodeId ∧ (f a).type = a.type) :
    ∃ s', s.setInodeAt i f = (.ok (), s') ∧ s'.names = s.names := by
  obtain ⟨a, ha⟩ := names_isNode.mp h
  exact ⟨_, setInodeAt_of_some f ha, names_storeInode ha (hf a).1 (hf a).2⟩

theorem touchInode_names {i : UInt64} (nowNs : Int64) (h : s.names.IsNode i) :
    ∃ s', s.touchInode i nowNs = (.ok (), s') ∧ s'.names = s.names := by
  obtain ⟨a, ha⟩ := names_isNode.mp h
  refine ⟨_, touchInode_of_some nowNs ha, ?_⟩
  rw [names_setLayoutAttrs]
  exact names_storeInode ha rfl rfl

/-- The link count of a parent is set after its times. -/
theorem setNlink_names {i : UInt64} (f : UInt64 → UInt64) (h : s.names.IsNode i) :
    ∃ s', (s.setInodeAt i fun parent => { parent with nlink := f parent.nlink }) = (.ok (), s') ∧
      s'.names = s.names :=
  setInodeAt_names h fun _ => ⟨rfl, rfl⟩

theorem removeNode_names {parent id : UInt64} (name : Bytes) (nowNs : Int64)
    (hid : s.names.IsNode id) (hp : s.names.IsNode parent) (hne : parent ≠ id) :
    ∃ s', s.removeNode parent name id nowNs = (.ok (), s') ∧
      s'.names = s.names.remove (parent, name) id := by
  obtain ⟨a, ha⟩ := names_isNode.mp hid
  let erased := ((s.eraseDentry (parent, name)).eraseLayout id).eraseInode id
  have hnames : erased.names = s.names.remove (parent, name) id := by
    rw [names_eraseInode, names_eraseLayout, names_eraseDentry]
    rfl
  have hparent : erased.names.IsNode parent := by
    rw [hnames]
    exact hp.remove hne
  obtain ⟨s₁, h₁, hn₁⟩ := touchInode_names nowNs hparent
  simp only [erased] at h₁
  simp only [removeNode, inodeAt_of_some ha, andThen_ok, h₁]
  by_cases ht : a.type = .directory
  · obtain ⟨s₂, h₂, hn₂⟩ := setNlink_names (· - 1) (hn₁ ▸ hparent)
    refine ⟨s₂, ?_, hn₂.trans (hn₁.trans hnames)⟩
    simp only [ht, if_true, h₂]
  · refine ⟨s₁, ?_, hn₁.trans hnames⟩
    simp only [ht, if_false]

theorem touchParents_names {p q : UInt64} (nowNs : Int64) (type : InodeType)
    (hp : s.names.IsNode p) (hq : s.names.IsNode q) :
    ∃ s', s.touchParents nowNs p q type = (.ok (), s') ∧ s'.names = s.names := by
  obtain ⟨s₁, h₁, hn₁⟩ := touchInode_names nowNs hp
  simp only [touchParents, h₁, andThen_ok]
  by_cases hpq : p = q
  · exact ⟨s₁, by simp [hpq], hn₁⟩
  · obtain ⟨s₂, h₂, hn₂⟩ := touchInode_names nowNs (hn₁ ▸ hq)
    simp only [if_pos hpq, h₂, andThen_ok]
    by_cases ht : type = .directory
    · obtain ⟨s₃, h₃, hn₃⟩ := setNlink_names (· - 1) (hn₂ ▸ hn₁ ▸ hp)
      obtain ⟨s₄, h₄, hn₄⟩ := setNlink_names (· + 1) (hn₃ ▸ hn₂ ▸ hn₁ ▸ hq)
      refine ⟨s₄, ?_, hn₄.trans (hn₃.trans (hn₂.trans hn₁))⟩
      simp only [ht, if_true, h₃, andThen_ok, h₄]
    · exact ⟨s₂, by simp only [ht, if_false], hn₂.trans hn₁⟩

/-- The second half of `Rename` once the target name is free. -/
theorem moveEntry_names (oldKey newKey : DentryKey) {id : UInt64} (nowNs : Int64)
    (type : InodeType) (hold : s.names.IsNode oldKey.1) (hnew : s.names.IsNode newKey.1)
    (hid : s.names.IsNode id) (free : s.names.entry newKey = none) :
    ∃ a s', s.moveEntry nowNs oldKey newKey id type = (.ok a, s') ∧
      s'.names = s.names.move oldKey newKey id := by
  let entered := (s.eraseDentry oldKey).emplaceDentry newKey id
  have hnames : entered.names = s.names.move oldKey newKey id := by
    rw [names_emplaceDentry, names_eraseDentry]
    · rfl
    · show (s.eraseDentry oldKey).names.entry newKey = none
      rw [names_eraseDentry]
      show update s.names.entry oldKey none newKey = none
      by_cases hk : newKey = oldKey
      · rw [hk, update_self]
      · rw [update_of_ne hk]
        exact free
  have hnode : ∀ i, s.names.IsNode i → entered.names.IsNode i := fun i hi => hi
  obtain ⟨s₁, h₁, hn₁⟩ := touchParents_names nowNs type (hnode _ hold) (hnode _ hnew)
  obtain ⟨a, ha⟩ := names_isNode.mp (hn₁ ▸ hnode _ hid)
  simp only [entered] at h₁
  simp only [moveEntry, h₁, andThen_ok, inodeAt_of_some ha]
  refine ⟨_, _, rfl, ?_⟩
  rw [names_setLayoutAttrs, ← hnames, ← hn₁]
  exact names_storeInode ha rfl rfl

/-- The next number is not in use. -/
theorem next_unused (h : s.names.WellFormed) : s.inodes[s.nextInodeId]? = none := by
  by_contra hn
  obtain ⟨a, ha⟩ := Option.ne_none_iff_exists'.mp hn
  exact h.next_free (names_isNode.mpr ⟨a, ha⟩)

/-- A call that fails here changes nothing; one that succeeds creates a node. -/
theorem createNode_names (clock : Clock) (p : UInt64) (n : Bytes) (type : InodeType)
    (mode uid gid : UInt32) (h : s.names.WellFormed) :
    (∃ e, s.createNode clock p n type mode uid gid = (.error e, s)) ∨
    ∃ a s', s.createNode clock p n type mode uid gid = (.ok a, s') ∧
      a.inodeId = s.nextInodeId ∧ s.names.IsDir p ∧ s.names.entry (p, n) = none ∧
      s'.names = s.names.create (p, n) type := by
  unfold createNode
  cases hv : s.validateParent p n with
  | error e => exact .inl ⟨e, rfl⟩
  | ok _ =>
    have hdir := names_isDir.mpr (validateParent_inode hv)
    by_cases hk : (p, n) ∈ s.dentries
    · simp only [hk, if_true]
      exact .inl ⟨_, rfl⟩
    · have free : s.dentries[(p, n)]? = none := Std.ExtTreeMap.getElem?_eq_none hk
      have hfresh := next_unused h
      obtain ⟨b, hb, _⟩ := names_isDir.mp hdir
      have hparent : s.countInodeId.inodes[p]? = some b := hb
      right
      simp only [hk, if_false, setInodeAt_of_some _ hparent, andThen_ok]
      refine ⟨_, _, rfl, rfl, hdir, free, ?_⟩
      rw [apply_ite names, names_emplaceLayout, ite_self, names_emplaceInode,
        names_emplaceDentry, names_storeInode hparent]
      · rfl
      · rfl
      · rfl
      · exact free
      · show (s.inodes.insert p _)[s.nextInodeId]? = none
        rw [congrFun (TreeMap.get_insert s.inodes p _) _, update_of_ne]
        · exact hfresh
        · rintro rfl
          rw [hfresh] at hb
          contradiction

/-- Only directories have entries. -/
theorem leaf_of_not_directory (h : s.names.WellFormed) {i : UInt64} {a : InodeAttrs}
    (ha : s.inodes[i]? = some a) (ht : a.type ≠ .directory) (n : Bytes) :
    s.names.entry (i, n) = none := by
  by_contra hn
  obtain ⟨c, hc⟩ := Option.ne_none_iff_exists'.mp hn
  obtain ⟨b, hb, hd⟩ := names_isDir.mp (h.tree.parent_dir hc)
  obtain rfl := Option.some.inj (ha.symm.trans hb)
  exact ht hd

/-- What `Rename` may replace has no entries. -/
theorem Replaceable.leaf {i : UInt64} {a : InodeAttrs} (h : s.Replaceable i a)
    (hw : s.names.WellFormed) (ha : s.inodes[i]? = some a) (n : Bytes) :
    s.names.entry (i, n) = none := by
  by_cases ht : a.type = .directory
  · exact s.isDirectoryEmpty_iff.mp (h ht) n
  · exact leaf_of_not_directory hw ha ht n

/-- The common end of `Unlink` and `Rmdir`. -/
theorem removeAndRead_names {p id : UInt64} {n : Bytes} (nowNs : Int64)
    (h : s.names.WellFormed) (hk : s.names.entry (p, n) = some id) :
    ∃ a s', ((s.removeNode p n id nowNs).andThen fun _ s => s.inodeAt p) = (.ok a, s') ∧
      s'.names = s.names.remove (p, n) id := by
  have hp := h.tree.dir_node (h.tree.parent_dir hk)
  have hne : p ≠ id := by
    rintro rfl
    exact h.tree.not_self hk
  obtain ⟨s', hs, hn⟩ := removeNode_names n nowNs (h.tree.child_node hk) hp hne
  obtain ⟨a, ha⟩ := names_isNode.mp (hn ▸ hp.remove hne)
  exact ⟨a, s', by simp only [hs, andThen_ok, inodeAt_of_some ha], hn⟩

theorem unlink_names (clock : Clock) (p : UInt64) (n : Bytes) (h : s.names.WellFormed) :
    (∃ e, s.unlink clock p n = (.error e, s)) ∨
    ∃ a s' id, s.unlink clock p n = (.ok a, s') ∧ s.names.entry (p, n) = some id ∧
      (∀ m, s.names.entry (id, m) = none) ∧ s'.names = s.names.remove (p, n) id := by
  unfold unlink
  cases hv : s.validateParent p n with
  | error e => exact .inl ⟨e, rfl⟩
  | ok _ =>
    cases hk : s.dentries[(p, n)]? with
    | none => exact .inl ⟨_, rfl⟩
    | some id =>
      obtain ⟨a, ha⟩ := names_isNode.mp (h.tree.child_node hk)
      simp only [inodeAt_of_some ha, andThen_ok]
      by_cases ht : a.type = .directory
      · simp only [ht, if_true]
        exact .inl ⟨_, rfl⟩
      · right
        have leaf := leaf_of_not_directory h ha ht
        obtain ⟨b, s', hr, hn⟩ := removeAndRead_names (clock 0) h hk
        exact ⟨b, s', id, by simp only [ht, if_false, hr], hk, leaf, hn⟩

theorem rmdir_names (clock : Clock) (p : UInt64) (n : Bytes) (h : s.names.WellFormed) :
    (∃ e, s.rmdir clock p n = (.error e, s)) ∨
    ∃ a s' id, s.rmdir clock p n = (.ok a, s') ∧ s.names.entry (p, n) = some id ∧
      (∀ m, s.names.entry (id, m) = none) ∧ s'.names = s.names.remove (p, n) id := by
  unfold rmdir
  cases hv : s.validateParent p n with
  | error e => exact .inl ⟨e, rfl⟩
  | ok _ =>
    cases hk : s.dentries[(p, n)]? with
    | none => exact .inl ⟨_, rfl⟩
    | some id =>
      obtain ⟨a, ha⟩ := names_isNode.mp (h.tree.child_node hk)
      simp only [inodeAt_of_some ha, andThen_ok]
      by_cases ht : a.type = .directory
      · cases hempty : s.isDirectoryEmpty id with
        | false =>
          simp only [ht, ne_eq, not_true, if_false, Bool.not_false, if_true]
          exact .inl ⟨_, rfl⟩
        | true =>
          right
          obtain ⟨b, s', hr, hn⟩ := removeAndRead_names (clock 0) h hk
          refine ⟨b, s', id, ?_, hk, s.isDirectoryEmpty_iff.mp hempty, hn⟩
          simp only [ht, ne_eq, not_true, if_false, Bool.not_true, Bool.false_eq_true, hr]
      · simp only [ne_eq, ht, not_false_eq_true, if_true]
        exact .inl ⟨_, rfl⟩

/-- The check of `Rename` returns, and lets only moves out of the moved subtree pass. -/
theorem moveCheck_spec (h : s.names.WellFormed) {id q : UInt64} {a : InodeAttrs}
    (ha : s.inodes[id]? = some a) (hq : s.names.IsDir q) :
    ∃ b, (if a.type = .directory then s.isAncestor id q else some false) = some b ∧
      (b = false → ¬ ReflTransGen (ChildOf s.names.entry) q id) := by
  by_cases ht : a.type = .directory
  · obtain ⟨b, hb, hiff⟩ := isAncestor_spec h id (h.tree.dir_node hq)
    refine ⟨b, by rw [if_pos ht, hb], ?_⟩
    intro hf hr
    rw [hiff.mpr hr] at hf
    contradiction
  · refine ⟨false, if_neg ht, ?_⟩
    intro _ hr
    obtain rfl := IsTree.eq_of_reaches_leaf (leaf_of_not_directory h ha ht) hr
    obtain ⟨b, hb, hd⟩ := names_isDir.mp hq
    obtain rfl := Option.some.inj (ha.symm.trans hb)
    exact ht hd

/-- `Rename` when the new name stands for another node, which the checks let it remove. -/
theorem replaceEntry_names (oldKey : DentryKey) {q id target : UInt64} {m : Bytes}
    (type : InodeType) (nowNs nowNs' : Int64) (h : s.names.WellFormed)
    (hk : s.names.entry oldKey = some id) (hl : s.names.entry (q, m) = some target)
    (hne : target ≠ id) (leaf : ∀ n, s.names.entry (target, n) = none) :
    ∃ a s', ((s.removeNode q m target nowNs).andThen fun _ s =>
        s.moveEntry nowNs' oldKey (q, m) id type) = (.ok a, s') ∧
      s'.names = (s.names.remove (q, m) target).move oldKey (q, m) id := by
  have hq := h.tree.dir_node (h.tree.parent_dir hl)
  have hp := h.tree.dir_node (h.tree.parent_dir hk)
  have hqt : q ≠ target := by
    rintro rfl
    exact h.tree.not_self hl
  have hpt : oldKey.1 ≠ target := by
    intro he
    have hnone := leaf oldKey.2
    rw [← he, Prod.eta, hk] at hnone
    contradiction
  obtain ⟨s₁, hr, hn⟩ := removeNode_names m nowNs (h.tree.child_node hl) hq hqt
  have hfree : (s.names.remove (q, m) target).entry (q, m) = none := update_self ..
  obtain ⟨a, s₂, hm, hn₂⟩ := moveEntry_names oldKey (q, m) nowNs' type
    (hn ▸ hp.remove hpt) (hn ▸ hq.remove hqt)
    (hn ▸ (h.tree.child_node hk).remove (Ne.symm hne)) (hn ▸ hfree)
  exact ⟨a, s₂, by simp only [hr, andThen_ok, hm], hn ▸ hn₂⟩

theorem replaceEntry_steps {ns : Namespace} (h : ns.WellFormed) {oldKey : DentryKey}
    {q id target : UInt64} {m : Bytes} (hk : ns.entry oldKey = some id)
    (hl : ns.entry (q, m) = some target) (hne : target ≠ id)
    (leaf : ∀ n, ns.entry (target, n) = none)
    (outside : ¬ ReflTransGen (ChildOf ns.entry) q id) :
    ReflTransGen Namespace.Step ns ((ns.remove (q, m) target).move oldKey (q, m) id) := by
  have hqt : q ≠ target := by
    rintro rfl
    exact h.tree.not_self hl
  have hkeys : oldKey ≠ (q, m) := by
    rintro rfl
    exact hne (Option.some.inj (hl.symm.trans hk))
  have hfree : (ns.remove (q, m) target).entry (q, m) = none := update_self ..
  have hstill : (ns.remove (q, m) target).entry oldKey = some id :=
    (update_of_ne hkeys _ _).trans hk
  refine .tail (.single (.remove hl leaf)) ?_
  apply Namespace.Step.move hstill ((h.tree.parent_dir hl).remove hqt) hfree
  intro hr
  exact outside (Namespace.reaches_of_remove hr)

/-- `Rename` moves an entry, after removing what the new name stood for. -/
theorem rename_names (clock : Clock) (p : UInt64) (n : Bytes) (q : UInt64) (m : Bytes)
    (h : s.names.WellFormed) :
    (∃ e, s.rename clock p n q m = (.error e, s)) ∨
    ∃ a s', s.rename clock p n q m = (.ok a, s') ∧ s'.nextInodeId = s.nextInodeId ∧
      ReflTransGen Namespace.Step s.names s'.names := by
  unfold rename
  cases hp : s.validateParent p n with
  | error e => exact .inl ⟨e, rfl⟩
  | ok _ =>
  cases hq : s.validateParent q m with
  | error e => exact .inl ⟨e, rfl⟩
  | ok _ =>
  have hpdir := names_isDir.mpr (validateParent_inode hp)
  have hqdir := names_isDir.mpr (validateParent_inode hq)
  cases hk : s.dentries[(p, n)]? with
  | none => exact .inl ⟨_, rfl⟩
  | some id =>
  have hid := h.tree.child_node hk
  obtain ⟨a, ha⟩ := names_isNode.mp hid
  simp only [inodeAt_of_some ha, andThen_ok]
  obtain ⟨b, hb, hab⟩ := moveCheck_spec h ha hqdir
  rw [hb]
  cases b with
  | true => exact .inl ⟨_, rfl⟩
  | false =>
  have outside := hab rfl
  cases hl : s.dentries[(q, m)]? with
  | none =>
    right
    obtain ⟨c, s', hm, hn⟩ := moveEntry_names (p, n) (q, m) (clock 0) a.type
      (h.tree.dir_node hpdir) (h.tree.dir_node hqdir) hid hl
    refine ⟨c, s', hm, ?_, ?_⟩
    · exact congrArg Namespace.next hn
    · rw [hn]
      exact .single (.move hk hqdir hl outside)
  | some target =>
  by_cases hsame : target = id
  · simp only [hsame, if_true]
    exact .inr ⟨a, s, rfl, rfl, .refl⟩
  · obtain ⟨t, ht⟩ := names_isNode.mp (h.tree.child_node hl)
    simp only [hsame, if_false, inodeAt_of_some ht, andThen_ok]
    split
    next => exact .inl ⟨_, rfl⟩
    next =>
      split
      next => exact .inl ⟨_, rfl⟩
      next =>
        split
        next => exact .inl ⟨_, rfl⟩
        next hdir =>
          right
          simp only [Bool.not_eq_eq_eq_not, Bool.not_true, not_and, Bool.not_eq_false] at hdir
          have leaf := Replaceable.leaf hdir h ht
          obtain ⟨c, s', hr, hn⟩ := replaceEntry_names (p, n) a.type (clock 0) (clock 1) h hk hl
            hsame leaf
          refine ⟨c, s', hr, congrArg Namespace.next hn, ?_⟩
          rw [hn]
          exact replaceEntry_steps h hk hl hsame leaf outside

theorem setAttr_names (clock : Clock) (c : SetAttrCommand) :
    ∃ o s', s.setAttr clock c = (o, s') ∧ o.Returns ∧ s'.names = s.names := by
  unfold setAttr
  cases ha : s.inodes[c.inodeId]? with
  | none => exact ⟨_, _, rfl, trivial, rfl⟩
  | some a =>
    refine ⟨_, _, rfl, trivial, ?_⟩
    rw [names_setLayoutAttrs]
    exact names_storeInode ha rfl rfl

theorem Wrote.names {α : Type} {i : UInt64} {r : Result α} (h : s.Wrote i r) :
    ∃ o s', r = (o, s') ∧ o.Returns ∧ s'.names = s.names := by
  cases h with
  | refused e hr => exact ⟨_, _, hr, trivial, rfl⟩
  | midway e es hr => exact ⟨_, _, hr, trivial, names_setLayoutExtents i es⟩
  | written x a size nowNs es ha hr =>
    have hstill : (s.setLayoutExtents i es).inodes[i]? = some a := ha
    refine ⟨_, _, hr, trivial, ?_⟩
    rw [names_setLayoutAttrs, names_storeInode hstill, names_setLayoutExtents]
    · rfl
    · rfl

end MetaState

end Pulpfs
