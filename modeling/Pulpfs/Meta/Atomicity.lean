import Pulpfs.Meta.Batches
import Pulpfs.Meta.Snapshot
import Pulpfs.Foundations.TreeMap
import Pulpfs.Foundations.Transition

/-! Which failing calls leave the state alone. Every error exit but one comes before the first
change of the state; the loops of `CommitWrite` and `AppendWrite` merge the extents before the
first invalid one into the stored layout. -/
namespace Pulpfs
open Transition

namespace MetaState

variable {α β : Type} {s : MetaState}

/-- When the call returned an error it left the state alone. -/
def Atomic (s : MetaState) (r : Result α) : Prop := r.1.isError = true → r.2 = s

/-- The call does not return an error. -/
def NoError (r : Result α) : Prop := r.1.isError = false

theorem Atomic.error (e : Error) : Atomic s ((.error e, s) : Result α) := fun _ => rfl

theorem NoError.atomic {r : Result α} (h : NoError r) : Atomic s r := by
  intro he
  rw [h] at he
  contradiction

theorem NoError.andThen {r : Result α} {f : α → MetaState → Result β} (h : NoError r)
    (hf : ∀ a s, NoError (f a s)) : NoError (r.andThen f) := by
  obtain ⟨o, s⟩ := r
  cases o with
  | ok a => exact hf a s
  | error e => contradiction
  | outOfRange => rfl
  | diverged => rfl

theorem NoError.inodeAt (s : MetaState) (i : UInt64) : NoError (s.inodeAt i) := by
  unfold MetaState.inodeAt
  cases s.inodes[i]? with
  | none => rfl
  | some a => rfl

/-- Looking an inode up changes nothing, so what follows decides. -/
theorem Atomic.inodeAt {i : UInt64} {f : InodeAttrs → MetaState → Result β}
    (hf : ∀ a, Atomic s (f a s)) : Atomic s ((s.inodeAt i).andThen f) := by
  unfold MetaState.inodeAt
  cases s.inodes[i]? with
  | none => exact NoError.atomic rfl
  | some a => exact hf a

theorem Atomic.map {r : Result α} (h : Atomic s r) (f : α → β) : Atomic s (r.map f) := by
  obtain ⟨o, s'⟩ := r
  cases o with
  | ok a => exact NoError.atomic rfl
  | error e => exact h
  | outOfRange => exact NoError.atomic rfl
  | diverged => exact NoError.atomic rfl

theorem NoError.setInodeAt (s : MetaState) (i : UInt64) (f : InodeAttrs → InodeAttrs) :
    NoError (s.setInodeAt i f) :=
  (NoError.inodeAt s i).andThen fun _ _ => rfl

theorem NoError.touchInode (s : MetaState) (i : UInt64) (nowNs : Int64) :
    NoError (s.touchInode i nowNs) :=
  (NoError.inodeAt s i).andThen fun _ _ => rfl

theorem NoError.removeNode (s : MetaState) (p : UInt64) (n : Bytes) (i : UInt64)
    (nowNs : Int64) : NoError (s.removeNode p n i nowNs) := by
  refine (NoError.inodeAt s i).andThen fun a s => ?_
  refine (NoError.touchInode _ p nowNs).andThen fun _ s => ?_
  split
  · exact NoError.setInodeAt s p _
  · rfl

theorem NoError.touchParents (s : MetaState) (nowNs : Int64) (p q : UInt64)
    (type : InodeType) : NoError (s.touchParents nowNs p q type) := by
  refine (NoError.touchInode s p nowNs).andThen fun _ s => ?_
  split
  · refine (NoError.touchInode s q nowNs).andThen fun _ s => ?_
    split
    · exact (NoError.setInodeAt s p _).andThen fun _ s => NoError.setInodeAt s q _
    · rfl
  · rfl

theorem NoError.moveEntry (s : MetaState) (nowNs : Int64) (oldKey newKey : DentryKey)
    (i : UInt64) (type : InodeType) : NoError (s.moveEntry nowNs oldKey newKey i type) := by
  refine (NoError.touchParents _ nowNs oldKey.1 newKey.1 type).andThen fun _ s => ?_
  exact (NoError.inodeAt s i).andThen fun _ _ => rfl

variable (s) (clock : Clock)

theorem createNode_atomic (p : UInt64) (n : Bytes) (type : InodeType) (mode uid gid : UInt32) :
    Atomic s (s.createNode clock p n type mode uid gid) := by
  unfold createNode
  cases s.validateParent p n with
  | error e => exact .error e
  | ok _ =>
    simp only
    split
    · exact .error _
    · apply NoError.atomic
      apply (NoError.setInodeAt _ p _).andThen
      intro _ s
      rfl

theorem setAttr_atomic (c : SetAttrCommand) : Atomic s (s.setAttr clock c) := by
  unfold setAttr
  cases s.inodes[c.inodeId]? with
  | none => exact .error _
  | some a => exact NoError.atomic rfl

/-- The common end of `Unlink` and `Rmdir`. -/
theorem NoError.removeAndRead (p : UInt64) (n : Bytes) (i : UInt64) (nowNs : Int64) :
    NoError ((s.removeNode p n i nowNs).andThen fun _ s => s.inodeAt p) :=
  (NoError.removeNode s p n i nowNs).andThen fun _ s => NoError.inodeAt s p

theorem unlink_atomic (p : UInt64) (n : Bytes) : Atomic s (s.unlink clock p n) := by
  unfold unlink
  cases s.validateParent p n with
  | error e => exact .error e
  | ok _ =>
    cases s.dentries[(p, n)]? with
    | none => exact .error _
    | some i =>
      apply Atomic.inodeAt
      intro a
      split
      · exact .error _
      · exact (NoError.removeAndRead s p n i _).atomic

theorem rmdir_atomic (p : UInt64) (n : Bytes) : Atomic s (s.rmdir clock p n) := by
  unfold rmdir
  cases s.validateParent p n with
  | error e => exact .error e
  | ok _ =>
    cases s.dentries[(p, n)]? with
    | none => exact .error _
    | some i =>
      apply Atomic.inodeAt
      intro a
      split
      · exact .error _
      · split
        · exact .error _
        · exact (NoError.removeAndRead s p n i _).atomic

theorem rename_atomic (p : UInt64) (n : Bytes) (q : UInt64) (m : Bytes) :
    Atomic s (s.rename clock p n q m) := by
  unfold rename
  cases s.validateParent p n with
  | error e => exact .error e
  | ok _ =>
  cases s.validateParent q m with
  | error e => exact .error e
  | ok _ =>
  cases s.dentries[(p, n)]? with
  | none => exact .error _
  | some i =>
  apply Atomic.inodeAt
  intro a
  split
  · exact NoError.atomic rfl
  · exact .error _
  · cases s.dentries[(q, m)]? with
    | none => exact (NoError.moveEntry s _ _ _ i _).atomic
    | some target =>
      simp only
      split
      · exact NoError.atomic rfl
      · apply Atomic.inodeAt
        intro t
        split
        · exact .error _
        · split
          · exact .error _
          · split
            · exact .error _
            · refine NoError.atomic ?_
              exact (NoError.removeNode s q m target _).andThen fun _ s =>
                NoError.moveEntry s _ _ _ i _

theorem truncate_atomic (i size : UInt64) : Atomic s (s.truncate clock i size) := by
  unfold truncate
  cases s.validateRegularFile i with
  | error e => exact .error e
  | ok _ =>
    cases s.layouts[i]? with
    | none => exact .error _
    | some l =>
      apply NoError.atomic
      apply (NoError.inodeAt _ i).andThen
      intro a s
      rfl

theorem restoreSnapshot_atomic (codec : Codec MetaSnapshot) (data : Bytes) :
    Atomic s (s.restoreSnapshot codec data) := by
  unfold restoreSnapshot
  cases codec.parse data with
  | none => exact .error _
  | some m =>
    simp only [restoreMessage]
    split
    · exact .error _
    · split
      · exact .error _
      · split
        · exact .error _
        · exact NoError.atomic rfl

variable [OffsetSort]

/-- The loop of `CommitWrite` runs through exactly when no extent is invalid. -/
theorem mergeCommitted_fst (stored extents : List FileExtent) :
    (mergeCommitted stored extents).1 = !extents.any FileExtent.isInvalid := by
  rw [mergeCommitted_eq]
  exact List.not_any_eq_all_not.symm

theorem mergeAppended_fst (start : UInt64) (acc : AppendState) (extents : List FileExtent) :
    (mergeAppended start acc extents).1 = !extents.any FileExtent.isInvalid := by
  rw [mergeAppended_eq]
  exact List.not_any_eq_all_not.symm

omit [OffsetSort] in
/-- Storing the extents a layout has changes nothing. -/
theorem setLayoutExtents_self {s : MetaState} {i : UInt64} {l : FileLayout}
    (h : s.layouts[i]? = some l) : s.setLayoutExtents i l.extents = s := by
  have hsame : s.layouts.modify i (fun layout => { layout with extents := l.extents }) =
      s.layouts := by
    apply Std.ExtTreeMap.ext_getElem?
    intro j
    rw [congrFun (TreeMap.get_modify s.layouts i _) j]
    by_cases hj : j = i
    · subst hj
      rw [Function.update_self, h, Option.map_some]
    · rw [Function.update_of_ne hj]
  unfold setLayoutExtents
  rw [hsame]

/-- The batch starts with a valid extent and has an invalid one after it. -/
def rejectedMidway : List FileExtent → Bool
  | [] => false
  | e :: es => !e.isInvalid && es.any FileExtent.isInvalid

omit [OffsetSort] in
theorem first_isInvalid {e : FileExtent} {es : List FileExtent}
    (h : rejectedMidway (e :: es) = false)
    (hflag : (!!(e :: es).any FileExtent.isInvalid) = true) : e.isInvalid = true := by
  cases he : e.isInvalid with
  | true => rfl
  | false =>
    simp only [rejectedMidway, he, Bool.not_false, Bool.true_and] at h
    simp only [List.any_cons, he, h, Bool.or_self, Bool.not_not] at hflag
    contradiction

theorem commitWrite_atomic (i v : UInt64) (extents : List FileExtent)
    (h : (s.getLayout i).isOk = true → rejectedMidway extents = false) :
    Atomic s (s.commitWrite clock i v extents) := by
  unfold commitWrite
  cases hv : s.validateRegularFile i with
  | error e => exact .error e
  | ok _ =>
    cases hl : s.layouts[i]? with
    | none => exact .error _
    | some l =>
      simp only
      split
      next hflag =>
        rw [mergeCommitted_fst] at hflag
        cases extents with
        | nil => contradiction
        | cons e es =>
          have he := first_isInvalid (h (getLayout_isOk hv hl)) hflag
          simp only [mergeCommitted, he, if_true, setLayoutExtents_self hl]
          exact .error _
      next =>
        apply NoError.atomic
        apply (NoError.inodeAt _ i).andThen
        intro a s
        rfl

theorem appendWrite_atomic (i v : UInt64) (extents : List FileExtent)
    (h : (s.getLayout i).isOk = true → rejectedMidway extents = false) :
    Atomic s (s.appendWrite clock i v extents) := by
  unfold appendWrite
  cases hv : s.validateRegularFile i with
  | error e => exact .error e
  | ok _ =>
    cases hl : s.layouts[i]? with
    | none => exact .error _
    | some l =>
      simp only
      apply Atomic.inodeAt
      intro a
      split
      next hflag =>
        rw [mergeAppended_fst] at hflag
        cases extents with
        | nil => contradiction
        | cons e es =>
          have he := first_isInvalid (h (getLayout_isOk hv hl)) hflag
          simp only [mergeAppended, he, if_true, setLayoutExtents_self hl]
          exact .error _
      next => exact NoError.atomic rfl

end MetaState

/-- An operation that may change the state. -/
inductive Operation where
  | call (c : Call)
  | restoreSnapshot (data : Bytes)

def MetaState.operate [OffsetSort] (codec : Codec MetaSnapshot) (op : Operation)
    (s : MetaState) : MetaState.Result (Option Reply) :=
  match op with
  | .call c => (s.call c).map some
  | .restoreSnapshot data => (s.restoreSnapshot codec data).map fun _ => none

/-- The operation is not a write whose batch passes the checks of the file and is rejected
midway. -/
def Operation.wholeBatch (s : MetaState) : Operation → Bool
  | .call ⟨_, .commitWrite i _ extents⟩ =>
    !((s.getLayout i).isOk && MetaState.rejectedMidway extents)
  | .call ⟨_, .appendWrite i _ extents⟩ =>
    !((s.getLayout i).isOk && MetaState.rejectedMidway extents)
  | _ => true

namespace MetaState

variable {s : MetaState} [OffsetSort]

omit [OffsetSort] in
theorem not_midway {i : UInt64} {extents : List FileExtent}
    (h : (!((s.getLayout i).isOk && rejectedMidway extents)) = true) :
    (s.getLayout i).isOk = true → rejectedMidway extents = false := by
  intro hok
  rwa [hok, Bool.true_and, Bool.not_eq_true'] at h

theorem operate_atomic (codec : Codec MetaSnapshot) {op : Operation} (h : op.wholeBatch s = true) :
    Atomic s (s.operate codec op) := by
  cases op with
  | restoreSnapshot data => exact (restoreSnapshot_atomic s codec data).map _
  | call c =>
    obtain ⟨clock, command⟩ := c
    apply Atomic.map
    cases command with
    | mkdir p n mode uid gid => exact (createNode_atomic s clock p n _ mode uid gid).map _
    | createFile p n mode uid gid => exact (createNode_atomic s clock p n _ mode uid gid).map _
    | setAttr a => exact (setAttr_atomic s clock a).map _
    | commitWrite i v es => exact (commitWrite_atomic s clock i v es (not_midway h)).map _
    | appendWrite i v es => exact (appendWrite_atomic s clock i v es (not_midway h)).map _
    | truncate i size => exact (truncate_atomic s clock i size).map _
    | unlink p n => exact (unlink_atomic s clock p n).map _
    | rmdir p n => exact (rmdir_atomic s clock p n).map _
    | rename p n q m => exact (rename_atomic s clock p n q m).map _

end MetaState

/-- In a run of operations none of which is rejected midway, an operation that returns an error
leaves the state alone. -/
theorem unchanged_of_error [OffsetSort] (codec : Codec MetaSnapshot) (chunkSize : UInt64)
    (nowNs : Int64) (ops : List Operation)
    (h : ∀ e ∈ trace (MetaState.operate codec) ops (.fresh chunkSize nowNs),
      e.input.wholeBatch e.before = true) :
    ∀ e ∈ trace (MetaState.operate codec) ops (.fresh chunkSize nowNs),
      e.output.isError = true → e.after = e.before := by
  intro e he herr
  have hstep := trace_step he
  have hatomic := MetaState.operate_atomic codec (h e he)
  rw [hstep] at hatomic
  exact hatomic herr

/-- A file, and two batches on it whose second extent is empty. -/
def midwayOps : List Operation :=
  let good : FileExtent := { length := 4, objectKey := ascii "k" }
  [.call ⟨fun _ => 5, .createFile 1 (ascii "f") 0o644 0 0⟩,
    .call ⟨fun _ => 6, .commitWrite 2 0 [good, {}]⟩,
    .call ⟨fun _ => 7, .appendWrite 2 0 [{ good with offset := 8 }, {}]⟩]

/-- A codec that parses nothing, for runs that restore nothing. -/
def noCodec : Codec MetaSnapshot := ⟨fun _ => [], fun _ => none⟩

/-- The batches are rejected, and each leaves its first extent in the layout. -/
theorem changed_on_error :
    ¬ ∀ e ∈ trace (@MetaState.operate .insertion noCodec) midwayOps (.fresh 4096 0),
      e.output.isError = true → e.after = e.before := by
  intro h
  have hrun : (trace (@MetaState.operate .insertion noCodec) midwayOps (.fresh 4096 0)).map
      (fun e => (e.output.isError,
        decide (e.before.layouts[(2 : UInt64)]? = e.after.layouts[(2 : UInt64)]?))) =
      [(false, false), (true, false), (true, false)] := rfl
  have hmem := List.mem_map.mp (hrun ▸ (by decide : (true, false) ∈
    [(false, false), (true, false), (true, false)]))
  obtain ⟨e, he, hpair⟩ := hmem
  obtain ⟨herr, hdiff⟩ := Prod.mk.inj hpair
  rw [h e he herr] at hdiff
  exact absurd rfl (of_decide_eq_false hdiff)

/-- A batch whose first extent is empty, and a rename and a removal that are refused. -/
def refusedOps : List Operation :=
  [.call ⟨fun _ => 5, .createFile 1 (ascii "f") 0o644 0 0⟩,
    .call ⟨fun _ => 6, .commitWrite 2 0 [{}, { length := 4, objectKey := ascii "k" }]⟩,
    .call ⟨fun _ => 7, .rmdir 1 (ascii "f")⟩, .restoreSnapshot (ascii "x")]

theorem unchanged_of_refusedOps :
    let run := trace (@MetaState.operate .insertion noCodec) refusedOps (.fresh 4096 0)
    run.map (fun e => e.output.isError) = [false, true, true, true] ∧
      ∀ e ∈ run, e.output.isError = true → e.after = e.before :=
  ⟨by decide, @unchanged_of_error .insertion noCodec 4096 0 refusedOps (by decide)⟩

end Pulpfs
