import Pulpfs.Meta.Atomicity
import Pulpfs.Meta.Coherent
import Pulpfs.Meta.Layout
import Pulpfs.Meta.Listing
import Pulpfs.Meta.Renames
import Pulpfs.Foundations.Hierarchy

/-! The metadata server as a hierarchy of names. A call on the inodes that paths lead to does to the
hierarchy what the operation on these paths does, or is refused as that is. -/
namespace Pulpfs
open RootedTree Function Relation Overlay
open Hierarchy (Refusal Files Node)

/-- Why the call was refused, where an operation on a hierarchy is refused for that too. -/
def ErrorKind.refusal : ErrorKind → Option Refusal
  | .invalidArgument => some .invalid
  | .notFound _ => some .missing
  | .alreadyExists _ => some .alreadyExists
  | .notDirectory _ => some .notDirectory
  | .isDirectory _ => some .isDirectory
  | .directoryNotEmpty _ => some .notEmpty
  | _ => none

/-- What an entry may be called: anything but nothing, "." and "..", with no slash and no zero byte
in it. -/
def isName (name : Bytes) : Bool :=
  name ≠ [] ∧ name ≠ [46] ∧ name ≠ [46, 46] ∧ 47 ∉ name ∧ 0 ∉ name

/-- `ValidateName` accepts these names and no others. -/
theorem validateName_ok_iff {n : Bytes} : validateName n = .ok () ↔ isName n = true := by
  have hdot : ascii "." = [46] := by decide
  have hdots : ascii ".." = [46, 46] := by decide
  have hslash : '/'.toUInt8 = 47 := by decide
  simp only [isName, decide_eq_true_eq, validateName, hdot, hdots, hslash, List.isEmpty_iff]
  split
  next hempty => simp [hempty]
  next hempty =>
    split
    next hreserved => exact iff_of_false nofun fun h => hreserved.elim h.2.1 h.2.2.1
    next hreserved =>
      split
      next hin => exact iff_of_false nofun fun h => hin.elim h.2.2.2.1 h.2.2.2.2
      next hin =>
        rw [not_or] at hreserved hin
        exact iff_of_true rfl ⟨hempty, hreserved.1, hreserved.2, hin⟩

theorem validateName_kind {n : Bytes} {e : Error} (h : validateName n = .error e) :
    e.kind = .invalidArgument := by
  unfold validateName at h
  split at h
  next => exact Except.error.inj h ▸ rfl
  next =>
    split at h
    next => exact Except.error.inj h ▸ rfl
    next =>
      split at h
      next => exact Except.error.inj h ▸ rfl
      next => contradiction

/-- A regular file or a directory, with a layout of extents that lie apart exactly for a file. -/
structure FileView.Whole (v : FileView) : Prop where
  exact : v.Exact
  typed : ∀ d, v.1 = some d → d.1 = .file ∨ d.1 = .directory
  apart : ∀ es, v.2 = some es → Disjoint es

theorem FileView.whole_none : FileView.Whole (none, none) := ⟨exact_none, nofun, nofun⟩

theorem MetaState.Holds.whole {r : SparseFile ObjectByte} {v : FileView}
    (h : MetaState.Holds (some r) v) : v.Whole := by
  cases h with
  | file _ hd _ =>
    refine ⟨⟨fun _ => rfl, fun _ => rfl⟩, ?_, ?_⟩
    · exact fun d hd => .inl (Option.some.inj hd ▸ rfl)
    · exact fun es hes => Option.some.inj hes ▸ hd

/-- What the number stands for. -/
def FileView.node : FileView → Option (Node (SparseFile ObjectByte))
  | (none, _) => none
  | (some (type, size), extents) =>
    if type = .directory then some .directory
    else some (.file ⟨size.toNat, contentOf (extents.getD [])⟩)

namespace MetaState

variable {s s' : MetaState}

def look (s : MetaState) (i : UInt64) : Option (Node (SparseFile ObjectByte)) :=
  (s.fileView i).node

/-- What stands at every path from the root. -/
def hierarchy (s : MetaState) : Files Bytes (SparseFile ObjectByte) :=
  Hierarchy.view s.names.entry s.look kRootInodeId

theorem look_of_inode {i : UInt64} {a : InodeAttrs} (h : s.inodes[i]? = some a) :
    s.look i = if a.type = .directory then some .directory
      else some (.file ⟨a.size.toNat, contentOf ((s.fileView i).2.getD [])⟩) := by
  unfold look fileView
  rw [h]
  rfl

/-- A stored number stands for a node, a directory for a directory. -/
theorem exists_look {i : UInt64} {a : InodeAttrs} (h : s.inodes[i]? = some a) :
    ∃ node, s.look i = some node ∧ (node.isDirectory = true ↔ a.type = .directory) := by
  rw [look_of_inode h]
  by_cases ht : a.type = .directory
  · exact ⟨.directory, if_pos ht, by simp [ht, Node.isDirectory]⟩
  · exact ⟨.file _, if_neg ht, by simp [ht, Node.isDirectory]⟩

theorem look_of_none {i : UInt64} (h : s.inodes[i]? = none) : s.look i = none := by
  unfold look fileView
  rw [h]
  rfl

theorem look_of_holds {i : UInt64} {r : SparseFile ObjectByte}
    (h : Holds (some r) (s.fileView i)) : s.look i = some (.file r) := by
  unfold look
  generalize s.fileView i = v at h
  cases h with
  | file hsize _ hc => simp [FileView.node, hsize, hc]

/-- A number stands for what is stored under it. -/
theorem shows_names (s : MetaState) : Hierarchy.Shows s.names.IsDir s.names.IsNode s.look where
  dir_iff i := by
    rw [names_isDir]
    cases hi : s.inodes[i]? with
    | none => simp [look_of_none hi]
    | some a =>
      rw [look_of_inode hi]
      by_cases ht : a.type = .directory
      · simp [ht]
      · simp [ht]
  node_iff i := by
    rw [names_isNode]
    cases hi : s.inodes[i]? with
    | none => simp [look_of_none hi]
    | some a =>
      rw [look_of_inode hi]
      by_cases ht : a.type = .directory
      · simp [ht]
      · simp [ht]

theorem look_eq_none {i : UInt64} : s.look i = none ↔ ¬ s.names.IsNode i := by
  rw [s.shows_names.node_iff, Option.not_isSome_iff_eq_none]

/-- What is kept by a call and still stored looks as before. -/
theorem look_kept {i : UInt64} (hk : Keeps i s s')
    (hi : s'.names.IsNode i ↔ s.names.IsNode i) : s'.look i = s.look i := by
  rcases hk with hk | hk
  · unfold look
    rw [hk]
  · have hnone : s'.look i = none := by
      unfold look
      rw [hk]
      rfl
    rw [hnone, eq_comm, look_eq_none, ← hi]
    exact look_eq_none.mp hnone

/-- The entries form a tree of regular files with a layout and of directories. -/
structure Whole (s : MetaState) : Prop where
  names : s.names.WellFormed
  views : ∀ f, (s.fileView f).Whole

theorem Whole.keeps (h : s.Whole) (hw : s'.names.WellFormed) (hk : ∀ i, Keeps i s s') :
    s'.Whole := by
  refine ⟨hw, fun f => ?_⟩
  rcases hk f with hf | hf
  · exact hf ▸ h.views f
  · exact hf ▸ FileView.whole_none

theorem whole_fresh (chunkSize : UInt64) (nowNs : Int64) : (fresh chunkSize nowNs).Whole := by
  have hc := coherent_fresh chunkSize nowNs
  refine ⟨hc.names, fun f => ⟨hc.exact f, ?_, ?_⟩⟩
  · intro d hd
    rw [fileView_fresh] at hd
    split at hd
    next => exact .inr (Option.some.inj hd ▸ rfl)
    next => contradiction
  · intro es hes
    rw [fileView_fresh] at hes
    contradiction

/-- A path leads to a node, over names that may be asked for. -/
structure LeadsTo (s : MetaState) (path : List Bytes) (i : UInt64) : Prop where
  resolve : s.resolve path = some i
  walk : Hierarchy.walk isName s.hierarchy path = .ok ()

/-- The call ends as the operation on the hierarchy does. -/
inductive Follows {α : Type} (s : MetaState) (r : Result α) :
    Except Refusal (Files Bytes (SparseFile ObjectByte)) → Prop
  | refused {e : Error} {refusal : Refusal} :
      r = (.error e, s) → e.kind.refusal = some refusal → Follows s r (.error refusal)
  | done {a : α} {s' : MetaState} {fs : Files Bytes (SparseFile ObjectByte)} :
      r = (.ok a, s') → s'.Whole → s'.nextInodeId.toNat ≤ s.nextInodeId.toNat + 1 →
      s'.hierarchy = fs → Follows s r (.ok fs)

theorem Follows.map {α β : Type} {r : Result α} {f : α → β}
    {x : Except Refusal (Files Bytes (SparseFile ObjectByte))} (h : Follows s r x) :
    Follows s (r.map f) x := by
  cases h with
  | refused hr he =>
    subst hr
    exact .refused rfl he
  | done hr hw hnext hfs =>
    subst hr
    exact .done rfl hw hnext hfs

section Calls

variable {A B : List Bytes} {p q : UInt64} {n m : Bytes} (clock : Clock)

/-- What stands at a path is what is stored under the number it leads to. -/
theorem hierarchy_at (hA : s.LeadsTo A p) : s.hierarchy A = s.look p :=
  Hierarchy.view_of_resolve hA.resolve

theorem hierarchy_child (hA : s.LeadsTo A p) (n : Bytes) :
    s.hierarchy (A ++ [n]) = s.dentries[(p, n)]?.bind s.look :=
  Hierarchy.view_child hA.resolve n

/-- The check of a parent is that of the directory at its path. -/
theorem validateParent_enter (h : s.Whole) (hA : s.LeadsTo A p) (n : Bytes) :
    (s.validateParent p n = .ok () ∧ Hierarchy.enter isName s.hierarchy A n = .ok ()) ∨
      ∃ e r, s.validateParent p n = .error e ∧ e.kind.refusal = some r ∧
        Hierarchy.enter isName s.hierarchy A n = .error r := by
  obtain ⟨a, ha⟩ := names_isNode.mp (Hierarchy.node_of_resolve h.names.tree hA.resolve)
  unfold validateParent Hierarchy.enter
  rw [hierarchy_at hA, look_of_inode ha]
  cases hn : validateName n with
  | error e =>
    have hname : isName n = false := by
      rw [Bool.eq_false_iff, Ne, ← validateName_ok_iff, hn]
      exact nofun
    refine .inr ⟨e, .invalid, rfl, ?_, ?_⟩
    · rw [validateName_kind hn]
      rfl
    · rw [hname]
      rfl
  | ok _ =>
    have hname : isName n = true := validateName_ok_iff.mp hn
    simp only [ha, hname, if_true]
    by_cases ht : a.type = .directory
    · simp [ht]
    · right
      simp only [ht, ne_eq, not_false_eq_true, if_true, if_false]
      exact ⟨_, .notDirectory, rfl, rfl, rfl⟩

/-- The new node of a call that creates one. -/
def createdNode (type : InodeType) : Node (SparseFile ObjectByte) :=
  if type = .directory then .directory else .file .empty

/-- A call that got past its checks creates the node. -/
theorem createNode_done (type : InodeType) (mode uid gid : UInt32) (h : s.names.WellFormed)
    (hv : s.validateParent p n = .ok ()) (free : s.dentries[(p, n)]? = none) :
    ∃ a s', s.createNode clock p n type mode uid gid = (.ok a, s') ∧
      s'.names = s.names.create (p, n) type := by
  rcases createNode_names clock p n type mode uid gid h with
    ⟨e, hr⟩ | ⟨a, s', hr, -, -, -, hn⟩
  · have hno : NoError (s.createNode clock p n type mode uid gid) := by
      have hk : (p, n) ∉ s.dentries := by
        rw [Std.ExtTreeMap.mem_iff_isSome_getElem?, free]
        exact Bool.false_ne_true
      simp only [createNode, hv, hk, if_false]
      exact (NoError.setInodeAt _ p _).andThen fun _ _ => rfl
    rw [hr] at hno
    contradiction
  · exact ⟨a, s', hr, hn⟩

/-- The node a call creates, seen under its number. -/
theorem created_view {v : FileView} (hs : FileView.Step (none, none) v) {type : InodeType}
    {size : UInt64} (hv : v.1 = some (type, size)) (ht : type = .file ∨ type = .directory) :
    v.Whole ∧ v.node = some (createdNode type) := by
  cases hs with
  | kept => contradiction
  | removed => contradiction
  | created type' =>
    obtain ⟨rfl, rfl⟩ := Prod.mk.inj (Option.some.inj hv)
    rcases ht with rfl | rfl
    · refine ⟨⟨?_, ?_, ?_⟩, rfl⟩
      · exact ⟨fun _ => rfl, fun _ => rfl⟩
      · exact fun d hd => .inl (Option.some.inj hd ▸ rfl)
      · exact fun es hes => Option.some.inj hes ▸ .nil
    · refine ⟨⟨?_, ?_, ?_⟩, rfl⟩
      · exact ⟨nofun, nofun⟩
      · exact fun d hd => .inr (Option.some.inj hd ▸ rfl)
      · exact fun es hes => nomatch hes

theorem createNode_follows (type : InodeType) (mode uid gid : UInt32) (h : s.Whole)
    (hA : s.LeadsTo A p) (ht : type = .file ∨ type = .directory)
    (room : s.nextInodeId.toNat + 1 < 2 ^ 64) :
    Follows s (s.createNode clock p n type mode uid gid)
      (Hierarchy.apply isName s.hierarchy (.make A n (createdNode type))) := by
  have hcoherent : s.Coherent := ⟨h.names, fun f => (h.views f).exact⟩
  simp only [Hierarchy.apply, Hierarchy.locate, hA.walk, Except.bind]
  rcases validateParent_enter h hA n with ⟨hv, henter⟩ | ⟨e, r, hv, he, henter⟩
  · rw [henter, hierarchy_child hA]
    cases hk : s.dentries[(p, n)]? with
    | some i =>
      have hlook := (s.shows_names.node_iff i).mp (h.names.tree.child_node hk)
      have hmem : (p, n) ∈ s.dentries := by
        rw [Std.ExtTreeMap.mem_iff_isSome_getElem?, hk]
        rfl
      have hr : s.createNode clock p n type mode uid gid =
          (.error (makeError (.alreadyExists (pathFor p n)) "directory entry already exists"),
            s) := by
        simp only [createNode, hv, hmem, if_true]
      simp only [Option.bind_some, hlook, if_true]
      exact .refused hr rfl
    | none =>
      obtain ⟨a, s', hr, hn⟩ := createNode_done clock type mode uid gid h.names hv hk
      have hdir := names_isDir.mpr (validateParent_inode hv)
      have hw : s'.names.WellFormed := by
        rw [hn]
        exact h.names.create hdir hk room
      have hkeeps (i : UInt64) (hi : i ≠ s.nextInodeId) : Keeps i s s' := by
        have hk := createNode_keeps clock p n type mode uid gid hi hcoherent.next_free
        rwa [hr] at hk
      have hnext : s'.look s.nextInodeId = some (createdNode type) ∧
          (s'.fileView s.nextInodeId).Whole := by
        have hstep := createNode_view s clock p n type mode uid gid
          (hcoherent.exact s.nextInodeId).laid (f := s.nextInodeId)
        rw [hcoherent.next_free, hr] at hstep
        have hnode : s'.names.node s.nextInodeId = some (s.nextInodeId, type) := by
          rw [hn]
          exact update_self ..
        obtain ⟨b, hb, hbt⟩ := Option.map_eq_some_iff.mp hnode
        have hview : (s'.fileView s.nextInodeId).1 = some (type, b.size) := by
          simp only [fileView, hb, Option.map_some, (Prod.mk.inj hbt).2]
        obtain ⟨hwhole, hlook⟩ := created_view hstep hview ht
        exact ⟨hlook, hwhole⟩
      have hwhole : s'.Whole := by
        refine ⟨hw, fun f => ?_⟩
        by_cases hf : f = s.nextInodeId
        · exact hf ▸ hnext.2
        · rcases hkeeps f hf with hview | hview
          · exact hview ▸ h.views f
          · exact hview ▸ FileView.whole_none
      simp only [Option.bind_none, Option.isSome_none, Bool.false_eq_true, if_false]
      refine .done hr hwhole ?_ ?_
      · rw [← names_next, hn]
        exact (UInt64.toNat_add _ _).le.trans (Nat.mod_le _ _)
      · unfold hierarchy
        rw [hn]
        refine Hierarchy.view_link h.names.tree hA.resolve hk h.names.next_free hnext.1 ?_
        intro i hi
        refine look_kept (hkeeps i hi) ?_
        rw [hn, Namespace.isNode_create]
        exact or_iff_left hi
  · rw [henter]
    refine .refused ?_ he
    simp only [createNode, hv]

/-- The common end of `Unlink` and `Rmdir`. -/
theorem removeAndRead_follows {i : UInt64} (nowNs : Int64) (h : s.Whole) (hA : s.LeadsTo A p)
    (hk : s.names.entry (p, n) = some i) (leaf : ∀ x, s.names.entry (i, x) = none) :
    Follows s ((s.removeNode p n i nowNs).andThen fun _ s => s.inodeAt p)
      (.ok (update s.hierarchy (A ++ [n]) none)) := by
  obtain ⟨a, s', hr, hn⟩ := removeAndRead_names nowNs h.names hk
  have hkeeps (j : UInt64) : Keeps j s s' := by
    have hj := Keeps.removeAndRead (f := j) s p n i nowNs
    rwa [hr] at hj
  refine .done hr (h.keeps (hn ▸ h.names.remove hk leaf) hkeeps) ?_ ?_
  · rw [← names_next, hn]
    exact Nat.le_succ _
  · unfold hierarchy
    rw [hn]
    refine Hierarchy.view_unlink h.names.tree hA.resolve hk leaf ?_
    intro j hj
    refine look_kept (hkeeps j) ?_
    rw [hn, Namespace.isNode_remove]
    exact and_iff_left hj

theorem unlink_follows (h : s.Whole) (hA : s.LeadsTo A p) (n : Bytes) :
    Follows s (s.unlink clock p n) (Hierarchy.apply isName s.hierarchy (.unlink A n)) := by
  simp only [Hierarchy.apply, Hierarchy.locate, hA.walk, Except.bind]
  unfold unlink
  rcases validateParent_enter h hA n with ⟨hv, henter⟩ | ⟨e, r, hv, he, henter⟩
  · rw [hv, henter, hierarchy_child hA]
    cases hk : s.dentries[(p, n)]? with
    | none => exact .refused rfl rfl
    | some i =>
      obtain ⟨a, ha⟩ := names_isNode.mp (h.names.tree.child_node hk)
      simp only [inodeAt_of_some ha, andThen_ok, Option.bind_some, look_of_inode ha]
      by_cases ht : a.type = .directory
      · simp only [ht, if_true]
        exact .refused rfl rfl
      · simp only [ht, if_false]
        exact removeAndRead_follows (clock 0) h hA hk (leaf_of_not_directory h.names ha ht)
  · rw [hv, henter]
    exact .refused rfl he

theorem rmdir_follows (h : s.Whole) (hA : s.LeadsTo A p) (n : Bytes) :
    Follows s (s.rmdir clock p n) (Hierarchy.apply isName s.hierarchy (.rmdir A n)) := by
  simp only [Hierarchy.apply, Hierarchy.locate, hA.walk, Except.bind]
  unfold rmdir
  rcases validateParent_enter h hA n with ⟨hv, henter⟩ | ⟨e, r, hv, he, henter⟩
  · rw [hv, henter, hierarchy_child hA]
    cases hk : s.dentries[(p, n)]? with
    | none => exact .refused rfl rfl
    | some i =>
      have hempty : Hierarchy.IsEmpty s.hierarchy (A ++ [n]) ↔ s.isDirectoryEmpty i = true := by
        rw [isDirectoryEmpty_iff]
        exact Hierarchy.isEmpty_view h.names.tree s.shows_names
          (resolve_concat_eq_some.mpr ⟨p, hA.resolve, hk⟩)
      obtain ⟨a, ha⟩ := names_isNode.mp (h.names.tree.child_node hk)
      simp only [inodeAt_of_some ha, andThen_ok, Option.bind_some, look_of_inode ha, hempty]
      by_cases ht : a.type = .directory
      · cases hdir : s.isDirectoryEmpty i with
        | false =>
          simp only [ht, ne_eq, not_true, if_false, if_true, Bool.not_false, Bool.false_eq_true]
          exact .refused rfl rfl
        | true =>
          simp only [ht, ne_eq, not_true, if_false, if_true, Bool.not_true, Bool.false_eq_true]
          exact removeAndRead_follows (clock 0) h hA hk (s.isDirectoryEmpty_iff.mp hdir)
      · simp only [ht, ne_eq, not_false_eq_true, if_true, if_false]
        exact .refused rfl rfl
  · rw [hv, henter]
    exact .refused rfl he

end Calls

end MetaState

end Pulpfs
