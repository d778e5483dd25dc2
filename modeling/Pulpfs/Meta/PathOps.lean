import Pulpfs.Meta.HierarchyMoves
import Pulpfs.Foundations.Transition

/-! The metadata server as its clients use it. They ask for inodes by paths, looking one name up
after another, and what they are answered is what a hierarchy of names answers. -/
namespace Pulpfs
open Function Transition
open Hierarchy (Refusal Files)

/-- A call that names its inodes by paths. -/
inductive PathOp where
  | mkdir (path : List Bytes) (name : Bytes) (mode uid gid : UInt32)
  | createFile (path : List Bytes) (name : Bytes) (mode uid gid : UInt32)
  | setAttr (path : List Bytes) (command : SetAttrCommand)
  | commitWrite (path : List Bytes) (baseVersion : UInt64) (extents : List FileExtent)
  | appendWrite (path : List Bytes) (baseVersion : UInt64) (extents : List FileExtent)
  | truncate (path : List Bytes) (size : UInt64)
  | unlink (path : List Bytes) (name : Bytes)
  | rmdir (path : List Bytes) (name : Bytes)
  | rename (oldPath : List Bytes) (oldName : Bytes) (newPath : List Bytes) (newName : Bytes)

/-- What the call is for. -/
def PathOp.op : PathOp → Hierarchy.Op Bytes (Overlay.SparseFile ObjectByte)
  | .mkdir path name _ _ _ => .make path name .directory
  | .createFile path name _ _ _ => .make path name (.file .empty)
  | .setAttr path _ => .touch path
  | .commitWrite path _ extents => .edit path fun r => r.write (extents.map FileExtent.patch)
  | .appendWrite path _ extents => .edit path fun r => r.append (extents.map FileExtent.patch)
  | .truncate path size => .edit path fun r => r.truncate size.toNat
  | .unlink path name => .unlink path name
  | .rmdir path name => .rmdir path name
  | .rename oldPath oldName newPath newName => .rename oldPath oldName newPath newName

/-- Whether the call was refused, and why; a call that did not return has no answer. -/
def Outcome.answer {α : Type} : Outcome α → Option (Except Refusal Unit)
  | .ok _ => some (.ok ())
  | .error e => e.kind.refusal.map .error
  | .outOfRange => none
  | .diverged => none

namespace MetaState

variable (s : MetaState)

/-- Names are looked up one after another, the first one in the inode `i`. -/
def walk : UInt64 → List Bytes → MetaState.Result UInt64
  | i, [] => (.ok i, s)
  | i, name :: rest =>
    MetaState.Result.andThen (s.lookup i name, s) fun attrs _ => walk attrs.inodeId rest

/-- The paths of a call are walked, then the call is made. -/
def perform [OffsetSort] (op : Clock × PathOp) (s : MetaState) : MetaState.Result Reply :=
  let withPath (path : List Bytes) (command : UInt64 → Command) : MetaState.Result Reply :=
    (s.walk kRootInodeId path).andThen fun i s => s.execute op.1 (command i)
  match op.2 with
  | .mkdir path name mode uid gid => withPath path fun p => .mkdir p name mode uid gid
  | .createFile path name mode uid gid => withPath path fun p => .createFile p name mode uid gid
  | .setAttr path command => withPath path fun i => .setAttr { command with inodeId := i }
  | .commitWrite path baseVersion extents =>
    withPath path fun i => .commitWrite i baseVersion extents
  | .appendWrite path baseVersion extents =>
    withPath path fun i => .appendWrite i baseVersion extents
  | .truncate path size => withPath path fun i => .truncate i size
  | .unlink path name => withPath path fun p => .unlink p name
  | .rmdir path name => withPath path fun p => .rmdir p name
  | .rename oldPath oldName newPath newName =>
    (s.walk kRootInodeId oldPath).andThen fun p s =>
    (s.walk kRootInodeId newPath).andThen fun q s =>
      s.execute op.1 (.rename p oldName q newName)

end MetaState

/-- The extents of a write are valid, and none ends beyond what 64 bits reach. -/
def PathOp.Fits (s : MetaState) : PathOp → Prop
  | .commitWrite _ _ extents => accepted extents = true ∧ ∀ e ∈ extents, e.InRange
  | .appendWrite path _ extents => accepted extents = true ∧ ∀ i ∈ s.resolve path,
      ∀ e ∈ extents, s.sizeOf i + e.offset.toNat + e.length.toNat < 2 ^ 64
  | _ => True

instance (s : MetaState) (op : PathOp) : Decidable (op.Fits s) :=
  match op with
  | .commitWrite _ _ extents =>
    inferInstanceAs (Decidable (accepted extents = true ∧ ∀ e ∈ extents, e.InRange))
  | .appendWrite path _ extents =>
    -- not by trying all inodes
    have (i : UInt64) : Decidable
        (∀ e ∈ extents, s.sizeOf i + e.offset.toNat + e.length.toNat < 2 ^ 64) := inferInstance
    @instDecidableAnd _ _ _ (Option.decidableForallMem (s.resolve path))
  | .mkdir .. => .isTrue trivial
  | .createFile .. => .isTrue trivial
  | .setAttr .. => .isTrue trivial
  | .truncate .. => .isTrue trivial
  | .unlink .. => .isTrue trivial
  | .rmdir .. => .isTrue trivial
  | .rename .. => .isTrue trivial

namespace MetaState

variable {s : MetaState}

/-- Looking up one name after another is walking the hierarchy. -/
theorem walk_follows (h : s.Whole) {done : List Bytes} {i : UInt64} (hA : s.LeadsTo done i)
    (rest : List Bytes) :
    (∃ j, s.walk i rest = (.ok j, s) ∧ s.LeadsTo (done ++ rest) j) ∨
      ∃ e r, s.walk i rest = (.error e, s) ∧ e.kind.refusal = some r ∧
        Hierarchy.walk isName s.hierarchy (done ++ rest) = .error r := by
  induction rest generalizing done i with
  | nil => exact .inl ⟨i, rfl, (List.append_nil done).symm ▸ hA⟩
  | cons n rest ih =>
    -- one more name, by the definition of each walk
    have hfirst : Hierarchy.walk isName s.hierarchy (done ++ n :: rest) = _ :=
      Hierarchy.walk_append hA.walk (n :: rest)
    rw [Hierarchy.walkFrom] at hfirst
    rcases validateParent_enter h hA n with ⟨hv, henter⟩ | ⟨e, r, hv, he, henter⟩
    · rw [henter, hierarchy_child hA] at hfirst
      cases hk : s.dentries[(i, n)]? with
      | none =>
        right
        refine ⟨makeError (.notFound (pathFor i n)) "directory entry not found", .missing, ?_, rfl,
          ?_⟩
        · simp only [walk, lookup, hv, hk, andThen_error]
        · rw [hfirst, hk]
          rfl
      | some c =>
        obtain ⟨a, ha⟩ := names_isNode.mp (h.names.tree.child_node hk)
        have hid : a.inodeId = c := (treeInvariant_of_wellFormed h.names).stored c a ha
        have hlook := (s.shows_names.node_iff c).mp (h.names.tree.child_node hk)
        have hc : s.LeadsTo (done ++ [n]) c := by
          refine ⟨RootedTree.resolve_concat_eq_some.mpr ⟨i, hA.resolve, hk⟩, ?_⟩
          rw [Hierarchy.walk_append hA.walk, Hierarchy.walkFrom, henter, hierarchy_child hA, hk]
          simp only [Except.bind, Option.bind_some, hlook, if_true, Hierarchy.walkFrom]
        have hwalk : s.walk i (n :: rest) = s.walk c rest := by
          simp only [walk, lookup, hv, hk, inodeAt_of_some ha, andThen_ok, hid]
        have hrest := ih hc
        rwa [List.append_assoc, List.singleton_append, ← hwalk] at hrest
    · right
      refine ⟨e, r, ?_, he, ?_⟩
      · simp only [walk, lookup, hv, andThen_error]
      · rw [hfirst, henter]
        rfl

theorem walk_root (h : s.Whole) (path : List Bytes) :
    (∃ i, s.walk kRootInodeId path = (.ok i, s) ∧ s.LeadsTo path i) ∨
      ∃ e r, s.walk kRootInodeId path = (.error e, s) ∧ e.kind.refusal = some r ∧
        Hierarchy.walk isName s.hierarchy path = .error r := by
  have hroot : s.LeadsTo [] kRootInodeId := ⟨rfl, rfl⟩
  exact walk_follows h hroot path

section Steps

variable [OffsetSort] (clock : Clock)

/-- A call at one path. -/
theorem follows_at {path : List Bytes} {c : UInt64 → Command}
    {op : Hierarchy.Op Bytes (Overlay.SparseFile ObjectByte)} (h : s.Whole)
    (hwalk : ∀ r, Hierarchy.walk isName s.hierarchy path = .error r →
      Hierarchy.apply isName s.hierarchy op = .error r)
    (hcall : ∀ i, s.LeadsTo path i →
      Follows s (s.execute clock (c i)) (Hierarchy.apply isName s.hierarchy op)) :
    Follows s ((s.walk kRootInodeId path).andThen fun i s => s.execute clock (c i))
      (Hierarchy.apply isName s.hierarchy op) := by
  rcases walk_root h path with ⟨i, hi, hleads⟩ | ⟨e, r, he, hr, herr⟩
  · rw [hi, andThen_ok]
    exact hcall i hleads
  · rw [he, andThen_error, hwalk r herr]
    exact .refused rfl hr

/-- The step lemma. -/
theorem perform_follows (h : s.Whole) (op : PathOp) (hfits : op.Fits s)
    (room : s.nextInodeId.toNat + 1 < 2 ^ 64) :
    Follows s (s.perform (clock, op)) (Hierarchy.apply isName s.hierarchy op.op) := by
  have locate_error {path : List Bytes} {name : Bytes} {r : Refusal}
      (hr : Hierarchy.walk isName s.hierarchy path = .error r) :
      Hierarchy.locate isName s.hierarchy path name = .error r := by
    simp only [Hierarchy.locate, hr, Except.bind]
  cases op with
  | mkdir path name mode uid gid =>
    refine follows_at clock h (fun r hr => ?_) fun i hi => ?_
    · simp only [PathOp.op, Hierarchy.apply, locate_error hr, Except.bind]
    · exact (createNode_follows clock .directory mode uid gid h hi (.inr rfl) room).map
  | createFile path name mode uid gid =>
    refine follows_at clock h (fun r hr => ?_) fun i hi => ?_
    · simp only [PathOp.op, Hierarchy.apply, locate_error hr, Except.bind]
    · exact (createNode_follows clock .file mode uid gid h hi (.inl rfl) room).map
  | setAttr path command =>
    refine follows_at clock h (fun r hr => ?_) fun i hi => ?_
    · simp only [PathOp.op, Hierarchy.apply, hr, Except.bind]
    · exact (setAttr_follows clock h hi command).map
  | commitWrite path baseVersion extents =>
    refine follows_at clock h (fun r hr => ?_) fun i hi => ?_
    · simp only [PathOp.op, Hierarchy.apply, hr, Except.bind]
    · exact execute_follows clock h hi (c := .commitWrite i baseVersion extents) rfl
        (fun r => if_pos rfl) hfits.1 hfits.2
  | appendWrite path baseVersion extents =>
    refine follows_at clock h (fun r hr => ?_) fun i hi => ?_
    · simp only [PathOp.op, Hierarchy.apply, hr, Except.bind]
    · exact execute_follows clock h hi (c := .appendWrite i baseVersion extents) rfl
        (fun r => if_pos rfl) hfits.1 (hfits.2 i hi.resolve)
  | truncate path size =>
    refine follows_at clock h (fun r hr => ?_) fun i hi => ?_
    · simp only [PathOp.op, Hierarchy.apply, hr, Except.bind]
    · exact execute_follows clock h hi (c := .truncate i size) rfl (fun r => if_pos rfl) rfl trivial
  | unlink path name =>
    refine follows_at clock h (fun r hr => ?_) fun i hi => ?_
    · simp only [PathOp.op, Hierarchy.apply, locate_error hr, Except.bind]
    · exact (unlink_follows clock h hi name).map
  | rmdir path name =>
    refine follows_at clock h (fun r hr => ?_) fun i hi => ?_
    · simp only [PathOp.op, Hierarchy.apply, locate_error hr, Except.bind]
    · exact (rmdir_follows clock h hi name).map
  | rename oldPath oldName newPath newName =>
    simp only [perform]
    rcases walk_root h oldPath with ⟨p, hp, hold⟩ | ⟨e, r, he, hr, herr⟩
    · rw [hp, andThen_ok]
      rcases walk_root h newPath with ⟨q, hq, hnew⟩ | ⟨e, r, he, hr, herr⟩
      · rw [hq, andThen_ok]
        exact (rename_follows clock h hold hnew oldName newName).map
      · rw [he, andThen_error]
        simp only [PathOp.op, Hierarchy.apply, hold.walk, herr, Except.bind]
        exact .refused rfl hr
    · rw [he, andThen_error]
      simp only [PathOp.op, Hierarchy.apply, herr, Except.bind]
      exact .refused rfl hr

end Steps

section Runs

/-- What a call that follows an operation leaves for the next one. -/
theorem Follows.step {r : Result Reply} {op : Hierarchy.Op Bytes (Overlay.SparseFile ObjectByte)}
    (hf : Follows s r (Hierarchy.apply isName s.hierarchy op)) (h : s.Whole) :
    r.1.answer = some (Hierarchy.step isName op s.hierarchy).1 ∧
      r.2.hierarchy = (Hierarchy.step isName op s.hierarchy).2 ∧ r.2.Whole ∧
      r.2.nextInodeId.toNat ≤ s.nextInodeId.toNat + 1 := by
  unfold Hierarchy.step
  generalize Hierarchy.apply isName s.hierarchy op = x at hf
  cases hf with
  | refused hr he =>
    subst hr
    exact ⟨congrArg (Option.map Except.error) he, rfl, h, Nat.le_succ _⟩
  | done hr hw hnext hfs =>
    subst hr
    exact ⟨rfl, hfs, hw, hnext⟩

theorem hierarchy_fresh (chunkSize : UInt64) (nowNs : Int64) :
    (fresh chunkSize nowNs).hierarchy = Hierarchy.initial := by
  have hnames := fresh_names chunkSize nowNs
  have hroot : (fresh chunkSize nowNs).look kRootInodeId = some .directory := by
    unfold look
    rw [fileView_fresh]
    rfl
  funext path
  unfold hierarchy Hierarchy.view
  rw [hnames]
  cases path with
  | nil => exact hroot
  | cons n path => rfl

/-- The run lemma, with room for as many nodes as there are calls. -/
theorem perform_run [OffsetSort] (ops : List (Clock × PathOp)) (h : s.Whole)
    (room : s.nextInodeId.toNat + ops.length < 2 ^ 64)
    (hfits : ∀ e ∈ trace perform ops s, e.input.2.Fits e.before) :
    (trace perform ops s).map (fun e => e.output.answer) =
        (trace (Hierarchy.step isName) (ops.map fun o => o.2.op) s.hierarchy).map
          (fun e => some e.output) ∧
      (final perform ops s).hierarchy =
        final (Hierarchy.step isName) (ops.map fun o => o.2.op) s.hierarchy ∧
      (final perform ops s).Whole := by
  induction ops generalizing s with
  | nil => exact ⟨rfl, rfl, h⟩
  | cons op ops ih =>
    rw [trace_cons, List.forall_mem_cons] at hfits
    rw [List.length_cons] at room
    obtain ⟨hanswer, hafter, hwhole, hnext⟩ :=
      (perform_follows op.1 h op.2 hfits.1 (by omega)).step h
    obtain ⟨houtputs, hfinal, hf⟩ := ih hwhole (by omega) hfits.2
    rw [hafter] at houtputs hfinal
    simp only [trace_cons, List.map_cons, final_cons]
    exact ⟨congrArg₂ List.cons hanswer houtputs, hfinal, hf⟩

/-- What the server shows to those who walk and list it. -/
structure Presents (s : MetaState) (fs : Files Bytes (Overlay.SparseFile ObjectByte)) : Prop where
  hierarchy : s.hierarchy = fs
  walks : ∀ path, (s.walk kRootInodeId path).1.answer = some (Hierarchy.walk isName fs path)
  /-- What a path leads to can be listed exactly if it is a directory. -/
  listed : ∀ path i, s.walk kRootInodeId path = (.ok i, s) →
    ((∃ listed, s.readDir i = .ok listed) ↔ fs path = some .directory)
  lists : ∀ path i listed, s.walk kRootInodeId path = (.ok i, s) → s.readDir i = .ok listed →
    ∀ name, name ∈ listed.map DirectoryEntry.name ↔ (fs (path ++ [name])).isSome = true

theorem Whole.leadsTo_of_walk (h : s.Whole) {path : List Bytes} {i : UInt64}
    (hwalk : s.walk kRootInodeId path = (.ok i, s)) : s.LeadsTo path i := by
  rcases walk_root h path with ⟨j, hj, hleads⟩ | ⟨e, r, he, -, -⟩
  · obtain rfl : i = j := Outcome.ok.inj (congrArg Prod.fst (hwalk.symm.trans hj))
    exact hleads
  · cases hwalk.symm.trans he

theorem Whole.presents (h : s.Whole) : s.Presents s.hierarchy := by
  refine ⟨rfl, fun path => ?_, fun path i hwalk => ?_, fun path i listed hwalk hlisted name => ?_⟩
  · rcases walk_root h path with ⟨i, hi, hleads⟩ | ⟨e, r, he, hr, herr⟩
    · rw [hi, hleads.walk]
      rfl
    · rw [he, herr]
      exact congrArg (Option.map Except.error) hr
  · have hleads := h.leadsTo_of_walk hwalk
    obtain ⟨a, ha⟩ := names_isNode.mp (Hierarchy.node_of_resolve h.names.tree hleads.resolve)
    rw [hierarchy_at hleads, look_of_inode ha]
    by_cases hdir : a.type = .directory
    · obtain ⟨listed, hlisted, -⟩ := readDir_ok h.names ha hdir
      exact iff_of_true ⟨listed, hlisted⟩ (if_pos hdir)
    · simp [readDir, ha, hdir]
  · have hleads := h.leadsTo_of_walk hwalk
    rw [readDir_names hlisted, mem_namesIn, Std.ExtTreeMap.mem_iff_isSome_getElem?,
      hierarchy_child hleads]
    cases hk : s.dentries[(i, name)]? with
    | none => simp
    | some c => simpa using (s.shows_names.node_iff c).mp (h.names.tree.child_node hk)

end Runs

end MetaState

/-- Every run of calls that name inodes by paths, from a fresh state, is answered as a hierarchy of
names answers it, refusal for refusal, and leaves the hierarchy that it leaves: what paths lead to,
what directories list, and every byte of every file. -/
theorem hierarchy_of_run [OffsetSort] (chunkSize : UInt64) (nowNs : Int64)
    (ops : List (Clock × PathOp)) (room : ops.length < 2 ^ 64 - 2)
    (hfits : ∀ e ∈ trace MetaState.perform ops (.fresh chunkSize nowNs), e.input.2.Fits e.before) :
    (trace MetaState.perform ops (.fresh chunkSize nowNs)).map (fun e => e.output.answer) =
        (trace (Hierarchy.step isName) (ops.map fun o => o.2.op) Hierarchy.initial).map
          (fun e => some e.output) ∧
      (final MetaState.perform ops (.fresh chunkSize nowNs)).Presents
        (final (Hierarchy.step isName) (ops.map fun o => o.2.op) Hierarchy.initial) := by
  have hstart : (MetaState.fresh chunkSize nowNs).nextInodeId.toNat = 2 := rfl
  obtain ⟨houtputs, hfinal, hwhole⟩ := MetaState.perform_run ops
    (MetaState.whole_fresh chunkSize nowNs) (by omega) hfits
  rw [MetaState.hierarchy_fresh] at houtputs hfinal
  exact ⟨houtputs, hfinal ▸ hwhole.presents⟩

/-- A file is written and appended to in a directory, which is then moved, with a move below itself
and a removal that are refused. -/
def pathOps : List (Clock × PathOp) :=
  let e (offset length : UInt64) (key : String) : FileExtent :=
    { offset, length, objectKey := ascii key }
  [(fun _ => 1, .mkdir [] (ascii "a") 0o755 0 0), (fun _ => 2, .mkdir [] (ascii "b") 0o755 0 0),
    (fun _ => 3, .createFile [ascii "a"] (ascii "f") 0o644 0 0),
    (fun _ => 4, .commitWrite [ascii "a", ascii "f"] 0 [e 0 10 "k", e 4 2 "l"]),
    (fun _ => 5, .appendWrite [ascii "a", ascii "f"] 0 [e 0 3 "m"]),
    (fun _ => 6, .rename [] (ascii "a") [ascii "a"] (ascii "c")),
    (fun _ => 7, .rename [] (ascii "a") [ascii "b"] (ascii "c")),
    (fun _ => 8, .rmdir [] (ascii "b")),
    (fun _ => 9, .truncate [ascii "b", ascii "c", ascii "f"] 5)]

theorem hierarchy_of_pathOps :
    let run := trace (@MetaState.perform .insertion) pathOps (.fresh 4096 0)
    run.map (fun e => e.output.answer) =
        (trace (Hierarchy.step isName) (pathOps.map fun o => o.2.op) Hierarchy.initial).map
          (fun e => some e.output) ∧
      run.map (fun e => e.output.isOk) = [true, true, true, true, true, false, true, false, true] ∧
      (final (@MetaState.perform .insertion) pathOps (.fresh 4096 0)).Presents
        (final (Hierarchy.step isName) (pathOps.map fun o => o.2.op) Hierarchy.initial) := by
  have h := @hierarchy_of_run .insertion 4096 0 pathOps (by decide) (by decide +kernel)
  exact ⟨h.1, by decide +kernel, h.2⟩

end Pulpfs
