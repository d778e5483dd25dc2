import Pulpfs.Meta.Hierarchical
import Pulpfs.Meta.References

/-! What `Rename` and the writes do to the hierarchy of names. -/
namespace Pulpfs
open RootedTree Function Relation Overlay
open Hierarchy (Node)

namespace MetaState

variable {s s' : MetaState}

section Rename

variable {A B : List Bytes} {p q i : UInt64} {n m : Bytes} (clock : Clock)

/-- A directory is an ancestor of those whose paths go through its own. -/
theorem isAncestor_prefix (h : s.Whole) (hA : s.LeadsTo A p) (hB : s.LeadsTo B q)
    (hk : s.names.entry (p, n) = some i) :
    ReflTransGen (ChildOf s.names.entry) q i ↔ A ++ [n] <+: B := by
  have hpath : RootedTree.resolve s.names.entry kRootInodeId (A ++ [n]) = some i :=
    resolve_concat_eq_some.mpr ⟨p, hA.resolve, hk⟩
  constructor
  · intro hq
    obtain ⟨rest, hrest⟩ := exists_path hq
    have hboth : RootedTree.resolve s.names.entry kRootInodeId (A ++ [n] ++ rest) = some q := by
      rw [resolve_append_of_some hpath, hrest]
    exact ⟨rest, h.names.tree.path_unique hboth hB.resolve⟩
  · rintro ⟨rest, rfl⟩
    have hq := hB.resolve
    unfold resolve at hq
    exact reaches_of_resolve ((resolve_append_of_some hpath rest).symm.trans hq)

/-- An entry that was moved, together with what was below it. -/
theorem MovesEntry.follows {a : InodeAttrs} {r : Result InodeAttrs}
    (hm : s.MovesEntry s' p n q m i) (hr : r = (.ok a, s')) (h : s.Whole)
    (hw : s'.names.WellFormed) (hnext : s'.nextInodeId = s.nextInodeId)
    (hkeeps : ∀ j, Keeps j s s') (hA : s.LeadsTo A p) (hB : s.LeadsTo B q)
    (hne : (p, n) ≠ (q, m)) :
    Follows s r (.ok (Hierarchy.moveTree s.hierarchy (A ++ [n]) (B ++ [m]))) := by
  refine .done hr (h.keeps hw hkeeps) (by rw [hnext]; exact Nat.le_succ _) ?_
  unfold hierarchy
  rw [hm.entries]
  refine Hierarchy.view_moved h.names.tree hA.resolve hB.resolve hm.found hm.outside hm.leaf hne ?_
  intro j hj
  refine look_kept (hkeeps j) ?_
  rw [hm.inodes]
  exact and_iff_left hj

theorem moveEntry_follows (nowNs : Int64) (type : InodeType) (h : s.Whole) (hA : s.LeadsTo A p)
    (hB : s.LeadsTo B q) (hk : s.names.entry (p, n) = some i) (hq : s.names.IsDir q)
    (outside : ¬ ReflTransGen (ChildOf s.names.entry) q i)
    (free : s.names.entry (q, m) = none) :
    Follows s (s.moveEntry nowNs (p, n) (q, m) i type)
      (.ok (Hierarchy.moveTree s.hierarchy (A ++ [n]) (B ++ [m]))) := by
  have hp := h.names.tree.dir_node (h.names.tree.parent_dir hk)
  obtain ⟨a, s', hr, hn⟩ := moveEntry_names (p, n) (q, m) nowNs type hp
    (h.names.tree.dir_node hq) (h.names.tree.child_node hk) free
  have hne : (p, n) ≠ (q, m) := by
    intro heq
    rw [← heq, hk] at free
    contradiction
  refine (MovesEntry.of_free hk hq outside free hn).follows hr h ?_ ?_ ?_ hA hB hne
  · exact hn ▸ h.names.move hk hq free outside
  · exact congrArg Namespace.next hn
  · intro j
    have hj := Keeps.moveEntry (f := j) s nowNs (p, n) (q, m) i type
    rwa [hr] at hj

theorem replaceEntry_follows {target : UInt64} (nowNs nowNs' : Int64) (type : InodeType)
    (h : s.Whole) (hA : s.LeadsTo A p) (hB : s.LeadsTo B q)
    (hk : s.names.entry (p, n) = some i) (hl : s.names.entry (q, m) = some target)
    (hti : target ≠ i) (leaf : ∀ x, s.names.entry (target, x) = none)
    (outside : ¬ ReflTransGen (ChildOf s.names.entry) q i) :
    Follows s ((s.removeNode q m target nowNs).andThen fun _ s =>
        s.moveEntry nowNs' (p, n) (q, m) i type)
      (.ok (Hierarchy.moveTree s.hierarchy (A ++ [n]) (B ++ [m]))) := by
  obtain ⟨a, s', hr, hn⟩ := replaceEntry_names (p, n) type nowNs nowNs' h.names hk hl hti leaf
  have hne : (p, n) ≠ (q, m) := by
    intro heq
    rw [← heq, hk] at hl
    exact hti (Option.some.inj hl).symm
  have hq := h.names.tree.parent_dir hl
  refine (MovesEntry.of_leaf hk hq outside hl leaf hn).follows hr h ?_ ?_ ?_ hA hB hne
  · exact hn ▸ h.names.steps (replaceEntry_steps h.names hk hl hti leaf outside)
  · exact congrArg Namespace.next hn
  · intro j
    have hj : Keeps j s ((s.removeNode q m target nowNs).andThen fun _ s =>
        s.moveEntry nowNs' (p, n) (q, m) i type).2 :=
      (Keeps.removeNode s q m target nowNs).andThen fun _ s => Keeps.moveEntry s nowNs' _ _ i type
    rwa [hr] at hj

/-- The check of `Rename` is that of the paths. -/
theorem moveCheck_prefix {a : InodeAttrs} (h : s.Whole) (hA : s.LeadsTo A p)
    (hB : s.LeadsTo B q) (hk : s.names.entry (p, n) = some i) (ha : s.inodes[i]? = some a)
    (hq : s.names.IsDir q) :
    ∃ b, (if a.type = .directory then s.isAncestor i q else some false) = some b ∧
      (b = false → ¬ ReflTransGen (ChildOf s.names.entry) q i) ∧
      (b = true ↔ a.type = .directory ∧ A ++ [n] <+: B) := by
  obtain ⟨b, hb, hout⟩ := moveCheck_spec h.names ha hq
  refine ⟨b, hb, hout, ?_⟩
  by_cases ht : a.type = .directory
  · obtain ⟨b', hb', hiff⟩ := isAncestor_spec h.names i (h.names.tree.dir_node hq)
    rw [if_pos ht, hb'] at hb
    obtain rfl := Option.some.inj hb
    rw [hiff, isAncestor_prefix h hA hB hk]
    exact (and_iff_right ht).symm
  · rw [if_neg ht] at hb
    obtain rfl := Option.some.inj hb
    simp [ht]

/-- Two entries are one where their paths are. -/
theorem path_eq_iff (h : s.Whole) (hA : s.LeadsTo A p) (hB : s.LeadsTo B q)
    (hk : s.names.entry (p, n) = some i) :
    A ++ [n] = B ++ [m] ↔ s.names.entry (q, m) = some i := by
  have hold := resolve_concat_eq_some.mpr ⟨p, hA.resolve, hk⟩
  constructor
  · intro heq
    rw [heq] at hold
    obtain ⟨j, hj, hm⟩ := resolve_concat_eq_some.mp hold
    obtain rfl := Option.some.inj (hB.resolve.symm.trans hj)
    exact hm
  · intro hl
    exact h.names.tree.path_unique hold (resolve_concat_eq_some.mpr ⟨q, hB.resolve, hl⟩)

theorem rename_follows (h : s.Whole) (hA : s.LeadsTo A p) (hB : s.LeadsTo B q) (n m : Bytes) :
    Follows s (s.rename clock p n q m)
      (Hierarchy.apply isName s.hierarchy (.rename A n B m)) := by
  simp only [Hierarchy.apply, hA.walk, hB.walk, Except.bind]
  unfold rename
  rcases validateParent_enter h hA n with ⟨hv, henter⟩ | ⟨e, r, hv, he, henter⟩
  case inr =>
    rw [hv, henter]
    exact .refused rfl he
  rcases validateParent_enter h hB m with ⟨hv', henter'⟩ | ⟨e, r, hv', he, henter'⟩
  case inr =>
    rw [hv, henter, hv', henter']
    exact .refused rfl he
  have hqdir := names_isDir.mpr (validateParent_inode hv')
  rw [hv, henter, hv', henter', hierarchy_child hA]
  cases hk : s.dentries[(p, n)]? with
  | none => exact .refused rfl rfl
  | some i =>
    obtain ⟨a, ha⟩ := names_isNode.mp (h.names.tree.child_node hk)
    obtain ⟨b, hb, hout, hmoves⟩ := moveCheck_prefix h hA hB hk ha hqdir
    obtain ⟨node, hnode, hdir⟩ := exists_look ha
    have hpaths := path_eq_iff (m := m) h hA hB hk
    have hnew := hierarchy_child hB m
    simp only [inodeAt_of_some ha, andThen_ok, Option.bind_some, hb, hnode, hdir]
    cases b with
    | true =>
      rw [if_pos (hmoves.mp rfl)]
      exact .refused rfl rfl
    | false =>
      have outside := hout rfl
      rw [if_neg fun hc => Bool.false_ne_true (hmoves.mpr hc)]
      cases hl : s.dentries[(q, m)]? with
      | none =>
        rw [hl, Option.bind_none] at hnew
        have hne : ¬ A ++ [n] = B ++ [m] := fun heq =>
          Option.some_ne_none i ((hpaths.mp heq).symm.trans hl)
        rw [if_neg hne]
        unfold Hierarchy.replace
        rw [hnew]
        have hmove := moveEntry_follows (clock 0) a.type h hA hB hk hqdir outside hl
        cases node with
        | directory => exact hmove
        | file c => exact hmove
      | some target =>
        rw [hl, Option.bind_some] at hnew
        by_cases hsame : target = i
        · rw [if_pos (hpaths.mpr (hsame ▸ hl))]
          simp only [hsame, if_true]
          exact .done rfl h (Nat.le_succ _) rfl
        · have hne : ¬ A ++ [n] = B ++ [m] := fun heq =>
            hsame (Option.some.inj (hl.symm.trans (hpaths.mp heq)))
          obtain ⟨t, ht⟩ := names_isNode.mp (h.names.tree.child_node hl)
          obtain ⟨node', hnode', hdir'⟩ := exists_look ht
          have hempty : Hierarchy.IsEmpty s.hierarchy (B ++ [m]) ↔
              s.isDirectoryEmpty target = true := by
            rw [isDirectoryEmpty_iff]
            exact Hierarchy.isEmpty_view h.names.tree s.shows_names
              (resolve_concat_eq_some.mpr ⟨q, hB.resolve, hl⟩)
          have hreplace (hleaf : s.Replaceable target t) := replaceEntry_follows (clock 0) (clock 1)
            a.type h hA hB hk hl hsame (hleaf.leaf h.names ht) outside
          rw [if_neg hne]
          unfold Hierarchy.replace
          rw [hnew, hnode']
          simp only [hsame, if_false, inodeAt_of_some ht, andThen_ok, ← hdir, ← hdir', ne_eq]
          cases node with
          | directory =>
            cases node' with
            | directory =>
              have ht' := hdir'.mp rfl
              simp only [Node.isDirectory, true_and, not_true, false_and, if_false, hempty]
              cases hdir : s.isDirectoryEmpty target with
              | false =>
                simp only [Bool.not_false, if_true, Bool.false_eq_true, if_false]
                exact .refused rfl rfl
              | true =>
                simp only [Bool.not_true, Bool.false_eq_true, if_false, if_true]
                exact hreplace fun _ => hdir
            | file c => exact .refused rfl rfl
          | file c =>
            cases node' with
            | directory => exact .refused rfl rfl
            | file c' =>
              simp only [Node.isDirectory, Bool.false_eq_true, false_and, and_false, if_false]
              exact hreplace fun hd => absurd (hdir'.mpr hd) Bool.false_ne_true

end Rename

section Writes

variable {A : List Bytes} {i : UInt64} (clock : Clock)

/-- A regular file holds the content it stands for. -/
theorem Whole.holds (h : s.Whole) {a : InodeAttrs} (ha : s.inodes[i]? = some a)
    (ht : a.type = .file) : ∃ l r, s.FileAt i a l ∧ Holds (some r) (s.fileView i) := by
  have hshape : (s.fileView i).shape.1 = some .file := by
    simp only [FileView.shape, fileView, ha, Option.map_some, ht]
  have hlaid := (h.views i).exact.mpr hshape
  simp only [FileView.shape, fileView, Option.isSome_map, Option.isSome_iff_exists] at hlaid
  obtain ⟨l, hl⟩ := hlaid
  have hfile : s.FileAt i a l := ⟨ha, ht, hl⟩
  have hd := (h.views i).apart l.extents (congrArg Prod.snd hfile.view)
  refine ⟨l, ⟨a.size.toNat, contentOf l.extents⟩, hfile, ?_⟩
  rw [hfile.view]
  exact .file rfl hd rfl

/-- A directory is not written to. -/
theorem validateRegularFile_directory {a : InodeAttrs} (ha : s.inodes[i]? = some a)
    (ht : a.type = .directory) : s.validateRegularFile i =
      .error (makeError .invalidArgument "inode is not a regular file") := by
  simp only [validateRegularFile, ha, ht]
  rfl

theorem setAttr_follows (h : s.Whole) (hA : s.LeadsTo A i) (command : SetAttrCommand) :
    Follows s (s.setAttr clock { command with inodeId := i })
      (Hierarchy.apply isName s.hierarchy (.touch A)) := by
  simp only [Hierarchy.apply, hA.walk, Except.bind]
  obtain ⟨a, ha⟩ := names_isNode.mp (Hierarchy.node_of_resolve h.names.tree hA.resolve)
  obtain ⟨o, s', hr, -, hn⟩ := setAttr_names (s := s) clock { command with inodeId := i }
  have hview (f : UInt64) : s'.fileView f = s.fileView f := by
    have hf := setAttr_view (f := f) s clock { command with inodeId := i }
    rwa [hr] at hf
  have hok : ∃ b, o = .ok b := by
    have ho := congrArg Prod.fst hr
    simp only [setAttr, ha] at ho
    exact ⟨_, ho.symm⟩
  obtain ⟨b, rfl⟩ := hok
  refine .done hr ⟨hn ▸ h.names, fun f => hview f ▸ h.views f⟩ ?_ ?_
  · rw [← names_next, hn]
    exact Nat.le_succ _
  · have hlook : s'.look = s.look := funext fun f => congrArg FileView.node (hview f)
    unfold hierarchy
    rw [hn, hlook]

variable [OffsetSort]

/-- A write of valid extents to a file succeeds. -/
theorem execute_isOk {a : InodeAttrs} {l : FileLayout} (hf : s.FileAt i a l) {c : Command}
    (hc : c.written = some i) (hvalid : accepted c.extents = true) :
    (s.execute clock c).1.isOk = true := by
  rcases Command.of_written hc with ⟨v, es, rfl⟩ | ⟨v, es, rfl⟩ | ⟨size, rfl⟩
  · exact isOk_map.trans (commitWrite_isOk clock hf (accepted_iff.mp hvalid))
  · exact isOk_map.trans (appendWrite_isOk clock hf (accepted_iff.mp hvalid))
  · exact isOk_map.trans (truncate_isOk clock hf size)

/-- A write to a directory is refused. -/
theorem execute_directory {a : InodeAttrs} (ha : s.inodes[i]? = some a)
    (ht : a.type = .directory) {c : Command} (hc : c.written = some i) :
    s.execute clock c =
      (.error (makeError .invalidArgument "inode is not a regular file"), s) := by
  have hv := validateRegularFile_directory ha ht
  rcases Command.of_written hc with ⟨v, es, rfl⟩ | ⟨v, es, rfl⟩ | ⟨size, rfl⟩
  · simp only [execute, commitWrite, hv, Result.map, Outcome.map]
  · simp only [execute, appendWrite, hv, Result.map, Outcome.map]
  · simp only [execute, truncate, hv, Result.map, Outcome.map]

theorem execute_follows (h : s.Whole) (hA : s.LeadsTo A i) {c : Command}
    (hc : c.written = some i) {change : SparseFile ObjectByte → SparseFile ObjectByte}
    (hchange : ∀ r, c.onReference i r = change r) (hvalid : accepted c.extents = true)
    (hno : c.NoOverflow (s.sizeOf i)) :
    Follows s (s.execute clock c)
      (Hierarchy.apply isName s.hierarchy (.edit A change)) := by
  simp only [Hierarchy.apply, hA.walk, Except.bind]
  obtain ⟨a, ha⟩ := names_isNode.mp (Hierarchy.node_of_resolve h.names.tree hA.resolve)
  have htyped := (h.views i).typed (a.type, a.size) (by simp only [fileView, ha, Option.map_some])
  rcases htyped with ht | ht
  · obtain ⟨l, r, hfile, hholds⟩ := h.holds ha ht
    obtain ⟨reply, hreply⟩ := Outcome.exists_of_isOk (execute_isOk clock hfile hc hvalid)
    have hafter := execute_written clock hc hholds (execute_isOk clock hfile hc hvalid) hno
    rw [hchange] at hafter
    have hwrote := s.execute_wrote clock hc
    have hnames : (s.execute clock c).2.names = s.names := by
      obtain ⟨o, s', hr, -, hn⟩ := hwrote.names
      exact hr ▸ hn
    rw [hierarchy_at hA, look_of_holds hholds]
    refine .done (Prod.ext hreply rfl) ⟨hnames ▸ h.names, fun f => ?_⟩ ?_ ?_
    · by_cases hf : f = i
      · exact hf ▸ hafter.whole
      · exact hwrote.view hf ▸ h.views f
    · rw [← names_next, hnames]
      exact Nat.le_succ _
    · unfold hierarchy
      rw [hnames]
      refine Hierarchy.view_edit h.names.tree hA.resolve (look_of_holds hafter) ?_
      intro f hf
      exact congrArg FileView.node (hwrote.view hf)
  · rw [hierarchy_at hA, look_of_inode ha, if_pos ht]
    exact .refused (execute_directory clock ha ht hc) rfl

end Writes

end MetaState

end Pulpfs
