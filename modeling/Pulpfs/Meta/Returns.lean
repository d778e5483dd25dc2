import Pulpfs.Meta.Coherent

/-! No call asks `inodes_` for a number that is not there: the reads because whatever refers to
an inode refers to a stored one, the writes because the entries form a tree. -/
namespace Pulpfs
open RootedTree Transition

namespace MetaState

variable {s : MetaState}

/-- Whatever refers to an inode refers to a stored one. -/
structure Linked (s : MetaState) : Prop where
  root : ∃ a, s.inodes[kRootInodeId]? = some a
  parent : ∀ (k : DentryKey) c, s.dentries[k]? = some c → ∃ a, s.inodes[k.1]? = some a
  child : ∀ (k : DentryKey) c, s.dentries[k]? = some c → ∃ a, s.inodes[c]? = some a
  layout : ∀ (i : UInt64) (l : FileLayout), s.layouts[i]? = some l → ∃ a, s.inodes[i]? = some a
  stored : ∀ (i : UInt64) (a : InodeAttrs), s.inodes[i]? = some a → a.inodeId = i

theorem Coherent.linked (h : s.Coherent) : s.Linked where
  root := names_isNode.mp h.names.tree.root_node
  parent _ _ hk := names_isNode.mp (h.names.tree.dir_node (h.names.tree.parent_dir hk))
  child _ _ hk := names_isNode.mp (h.names.tree.child_node hk)
  layout i l hl := by
    by_contra hn
    have hnone : s.inodes[i]? = none := by
      by_contra hsome
      exact hn (Option.ne_none_iff_exists'.mp hsome)
    have hview := (h.exact i).laid.stored (by simp only [fileView, hnone, Option.map_none])
    simp [fileView, hl] at hview
  stored := (treeInvariant_of_wellFormed h.names).stored

/-- The calls that change nothing come back. -/
structure ReadsReturn (s : MetaState) : Prop where
  lookup : ∀ p n, (s.lookup p n).Returns
  getAttr : ∀ i, (s.getAttr i).Returns
  readDir : ∀ i, (s.readDir i).Returns
  getLayout : ∀ i, (s.getLayout i).Returns

theorem Linked.lookup_returns (h : s.Linked) (p : UInt64) (n : Bytes) :
    (s.lookup p n).Returns := by
  unfold MetaState.lookup
  cases s.validateParent p n with
  | error e => trivial
  | ok _ =>
    cases hk : s.dentries[(p, n)]? with
    | none => trivial
    | some c =>
      obtain ⟨a, ha⟩ := h.child _ _ hk
      simp only [inodeAt_of_some ha]
      trivial

theorem getAttr_returns (s : MetaState) (i : UInt64) : (s.getAttr i).Returns := by
  unfold MetaState.getAttr
  cases s.inodes[i]? with
  | none => trivial
  | some a => trivial

theorem readEntries_ok (i : UInt64) {entries : List (DentryKey × UInt64)}
    (h : ∀ d ∈ entries, ∃ a, s.inodes[d.2]? = some a) :
    ∃ listed, s.readEntries i entries = .ok listed := by
  induction entries with
  | nil => exact ⟨[], rfl⟩
  | cons d entries ih =>
    obtain ⟨⟨a, ha⟩, hrest⟩ := List.forall_mem_cons.mp h
    obtain ⟨listed, hlisted⟩ := ih hrest
    unfold readEntries
    simp only [ha, hlisted]
    split
    · exact ⟨listed, rfl⟩
    · exact ⟨_, rfl⟩

theorem Linked.readEntries_dentries (h : s.Linked) (i : UInt64) :
    ∃ listed, s.readEntries i s.dentries.toList = .ok listed :=
  readEntries_ok i fun d hd => h.child d.1 d.2 (s.mem_dentries_toList.mp hd)

theorem Linked.readDir_returns (h : s.Linked) (i : UInt64) : (s.readDir i).Returns := by
  obtain ⟨listed, hlisted⟩ := h.readEntries_dentries i
  unfold MetaState.readDir
  cases s.inodes[i]? with
  | none => trivial
  | some a =>
    simp only [hlisted]
    split
    · trivial
    · trivial

theorem getLayout_returns (s : MetaState) (i : UInt64) : (s.getLayout i).Returns := by
  unfold MetaState.getLayout
  cases hv : s.validateRegularFile i with
  | error e => trivial
  | ok _ =>
    obtain ⟨a, ha, _⟩ := validateRegularFile_inode hv
    cases s.layouts[i]? with
    | none => trivial
    | some l =>
      simp only [inodeAt_of_some ha]
      trivial

theorem Linked.readsReturn (h : s.Linked) : s.ReadsReturn where
  lookup := h.lookup_returns
  getAttr := s.getAttr_returns
  readDir := h.readDir_returns
  getLayout := s.getLayout_returns

omit s in
theorem Returns.of_attrs {s : MetaState} {r : Result InodeAttrs}
    (h : (∃ e, r = (.error e, s)) ∨ ∃ a s', r = (.ok a, s')) : (r.map Reply.attrs).1.Returns := by
  rcases h with ⟨e, rfl⟩ | ⟨a, s', rfl⟩
  · trivial
  · trivial

/-- On a tree every call comes back, one that hands out the last number too. -/
theorem execute_returns [OffsetSort] (h : s.names.WellFormed) (clock : Clock) (c : Command) :
    (s.execute clock c).1.Returns := by
  have hcreate (p : UInt64) (n : Bytes) (type : InodeType) (mode uid gid : UInt32) :
      ((s.createNode clock p n type mode uid gid).map Reply.attrs).1.Returns := by
    apply Returns.of_attrs (s := s)
    rcases createNode_names clock p n type mode uid gid h with he | ⟨a, s', hr, _⟩
    · exact .inl he
    · exact .inr ⟨a, s', hr⟩
  cases c with
  | mkdir p n mode uid gid => exact hcreate p n _ mode uid gid
  | createFile p n mode uid gid => exact hcreate p n _ mode uid gid
  | setAttr a => exact (execute_names clock _ h fun hne => absurd rfl hne).1
  | commitWrite i v es => exact (execute_names clock _ h fun hne => absurd rfl hne).1
  | appendWrite i v es => exact (execute_names clock _ h fun hne => absurd rfl hne).1
  | truncate i size => exact (execute_names clock _ h fun hne => absurd rfl hne).1
  | unlink p n => exact (execute_names clock _ h fun hne => absurd rfl hne).1
  | rmdir p n => exact (execute_names clock _ h fun hne => absurd rfl hne).1
  | rename p n q m => exact (execute_names clock _ h fun hne => absurd rfl hne).1

/-- A rename that succeeds replaces only what has no entries. -/
theorem rename_replaces_leaf {clock : Clock} {p q : UInt64} {n m : Bytes} {a : InodeAttrs}
    {moved target : UInt64} (h : s.names.WellFormed)
    (hr : (s.rename clock p n q m).1 = .ok a) (hk : s.dentries[(p, n)]? = some moved)
    (hl : s.dentries[(q, m)]? = some target) (hne : target ≠ moved) (x : Bytes) :
    s.names.entry (target, x) = none := by
  obtain ⟨b, hb⟩ := names_isNode.mp (h.tree.child_node hk)
  obtain ⟨t, ht⟩ := names_isNode.mp (h.tree.child_node hl)
  by_cases hdir : t.type = .directory
  · unfold rename at hr
    simp only [hk, hl, inodeAt_of_some hb, inodeAt_of_some ht, andThen_ok, hne, if_false, hdir,
      ne_eq, not_true, and_false, and_true, true_and] at hr
    cases hempty : s.isDirectoryEmpty target with
    | true => exact s.isDirectoryEmpty_iff.mp hempty x
    | false =>
      simp only [hempty, Bool.not_false, if_true] at hr
      split at hr
      next => contradiction
      next =>
        split at hr
        next => contradiction
        next =>
          split at hr
          next => contradiction
          next => contradiction
          next =>
            split at hr
            next => contradiction
            next => contradiction
  · exact leaf_of_not_directory h ht hdir x

end MetaState

/-- In every state a run from a fresh one leads to, every call with any arguments comes back.
What `Unlink` and `Rmdir` erase is not the parent, and what `Rename` erases is neither of the
parents. -/
theorem returns_after_run [OffsetSort] (chunkSize : UInt64) (nowNs : Int64) (calls : List Call)
    (room : (MetaState.createdIds calls (.fresh chunkSize nowNs)).length < 2 ^ 64 - 2) :
    let s := final MetaState.call calls (.fresh chunkSize nowNs)
    (∀ clock c, (s.execute clock c).1.Returns) ∧ s.ReadsReturn ∧
      (∀ (p : UInt64) (n : Bytes) c, s.dentries[(p, n)]? = some c → c ≠ p) ∧
      ∀ clock (p : UInt64) (n : Bytes) (q : UInt64) (m : Bytes) a moved target,
        (s.rename clock p n q m).1 = .ok a → s.dentries[(p, n)]? = some moved →
        s.dentries[(q, m)]? = some target → target ≠ moved → target ≠ p ∧ target ≠ q := by
  intro s
  have hs : s.Coherent := MetaState.coherent_run chunkSize nowNs calls room
  refine ⟨MetaState.execute_returns hs.names, hs.linked.readsReturn, ?_, ?_⟩
  · rintro p n c hk rfl
    exact hs.names.tree.not_self hk
  · intro clock p n q m a moved target hr hk hl hne
    have leaf := MetaState.rename_replaces_leaf hs.names hr hk hl hne
    constructor
    · rintro rfl
      have hnone := leaf n
      rw [MetaState.names_entry, hk] at hnone
      contradiction
    · rintro rfl
      exact hs.names.tree.not_self hl

theorem returns_after_moveCalls :
    let s := final (@MetaState.call .insertion) moveCalls (.fresh 4096 0)
    (∀ clock c, (@MetaState.execute .insertion clock s c).1.Returns) ∧ s.ReadsReturn ∧
      (∀ (p : UInt64) (n : Bytes) c, s.dentries[(p, n)]? = some c → c ≠ p) ∧
      ∀ clock (p : UInt64) (n : Bytes) (q : UInt64) (m : Bytes) a moved target,
        (s.rename clock p n q m).1 = .ok a → s.dentries[(p, n)]? = some moved →
        s.dentries[(q, m)]? = some target → target ≠ moved → target ≠ p ∧ target ≠ q :=
  @returns_after_run .insertion 4096 0 moveCalls (by decide)

end Pulpfs
