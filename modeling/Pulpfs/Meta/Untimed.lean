import Pulpfs.Meta.Service
import Pulpfs.Foundations.TreeMap
import Pulpfs.Foundations.Transition

/-! The state machine with its clock readings erased. Erasing them commutes with every call, so
no branch of a call depends on a reading, and two runs of one log agree up to the times. -/
namespace Pulpfs
open Transition

def InodeAttrs.untimed (a : InodeAttrs) : InodeAttrs :=
  { a with atimeNs := 0, mtimeNs := 0, ctimeNs := 0 }

def FileLayout.untimed (l : FileLayout) : FileLayout := { l with attrs := l.attrs.untimed }

def DirectoryEntry.untimed (e : DirectoryEntry) : DirectoryEntry :=
  { e with attrs := e.attrs.untimed }

def AppendWriteStateResult.untimed (r : AppendWriteStateResult) : AppendWriteStateResult :=
  { r with attrs := r.attrs.untimed }

def Reply.untimed : Reply → Reply
  | .attrs a => .attrs a.untimed
  | .appended r => .appended r.untimed

def SetAttrCommand.untimed (c : SetAttrCommand) : SetAttrCommand :=
  { c with atimeNs := 0, mtimeNs := 0 }

def Command.untimed : Command → Command
  | .setAttr c => .setAttr c.untimed
  | c => c

def Response.untimed : Response → Response
  | .attrs a => .attrs a.untimed
  | .error e => .error e
  | .appendWrite r => .appendWrite { r with attrs := r.attrs.untimed }

def RaftCommandResponse.untimed (r : RaftCommandResponse) : RaftCommandResponse :=
  { response := r.response.map Response.untimed }

/-- The clock that stands still. -/
def Clock.still : Clock := fun _ => 0

@[simp] theorem InodeAttrs.untimed_type (a : InodeAttrs) : a.untimed.type = a.type := rfl

@[simp] theorem InodeAttrs.untimed_size (a : InodeAttrs) : a.untimed.size = a.size := rfl

@[simp] theorem FileLayout.untimed_extents (l : FileLayout) : l.untimed.extents = l.extents := rfl

@[simp] theorem InodeAttrs.untimed_untimed (a : InodeAttrs) : a.untimed.untimed = a.untimed := rfl

theorem Outcome.map_map {α β γ : Type} (f : α → β) (g : β → γ) (o : Outcome α) :
    (o.map f).map g = o.map (g ∘ f) := by
  cases o with
  | ok => rfl
  | error => rfl
  | outOfRange => rfl
  | diverged => rfl

namespace MetaState

variable {α β γ δ : Type}

def untimed (s : MetaState) : MetaState where
  nextInodeId := s.nextInodeId
  defaultChunkSize := s.defaultChunkSize
  inodes := s.inodes.map fun _ => InodeAttrs.untimed
  dentries := s.dentries
  layouts := s.layouts.map fun _ => FileLayout.untimed

/-- Erase the times of a state, and those of a value by `f`. -/
def Result.untimed (f : α → β) (r : Result α) : Result β := (r.1.map f, r.2.untimed)

@[simp] theorem Result.untimed_ok (f : α → β) (a : α) (s : MetaState) :
    Result.untimed f (.ok a, s) = (.ok (f a), s.untimed) := rfl

@[simp] theorem Result.untimed_error (f : α → β) (e : Error) (s : MetaState) :
    Result.untimed f (.error e, s) = (.error e, s.untimed) := rfl

@[simp] theorem Result.untimed_outOfRange (f : α → β) (s : MetaState) :
    Result.untimed f (.outOfRange, s) = (.outOfRange, s.untimed) := rfl

@[simp] theorem Result.untimed_diverged (f : α → β) (s : MetaState) :
    Result.untimed f (.diverged, s) = (.diverged, s.untimed) := rfl

/-- Erasing goes through a sequence of two calls when it goes through each of them. -/
theorem Result.untimed_andThen {f : α → γ} {g : β → δ} {r : Result α} {r' : Result γ}
    {k : α → MetaState → Result β} {k' : γ → MetaState → Result δ}
    (hr : r.untimed f = r') (hk : ∀ a s, (k a s).untimed g = k' (f a) s.untimed) :
    (r.andThen k).untimed g = r'.andThen k' := by
  subst hr
  obtain ⟨o, s⟩ := r
  cases o with
  | ok a => exact hk a s
  | error e => rfl
  | outOfRange => rfl
  | diverged => rfl

/-- Erasing goes through a branch whose condition does not look at times. -/
theorem Result.untimed_ite {c : Prop} [Decidable c] {f : α → β} {x y : Result α}
    {x' y' : Result β} (hx : x.untimed f = x') (hy : y.untimed f = y') :
    (if c then x else y).untimed f = if c then x' else y' := by
  subst hx hy
  exact apply_ite (Result.untimed f) c x y

variable {s : MetaState}

@[simp] theorem untimed_nextInodeId : s.untimed.nextInodeId = s.nextInodeId := rfl

@[simp] theorem untimed_defaultChunkSize : s.untimed.defaultChunkSize = s.defaultChunkSize := rfl

@[simp] theorem untimed_dentries : s.untimed.dentries = s.dentries := rfl

@[simp] theorem untimed_inodes (i : UInt64) :
    s.untimed.inodes[i]? = s.inodes[i]?.map InodeAttrs.untimed :=
  Std.ExtTreeMap.getElem?_map

@[simp] theorem untimed_layouts (i : UInt64) :
    s.untimed.layouts[i]? = s.layouts[i]?.map FileLayout.untimed :=
  Std.ExtTreeMap.getElem?_map

@[simp] theorem untimed_storeInode (i : UInt64) (a : InodeAttrs) :
    (s.storeInode i a).untimed = s.untimed.storeInode i a.untimed := by
  simp only [storeInode, untimed, TreeMap.map_insert]

@[simp] theorem untimed_emplaceInode (i : UInt64) (a : InodeAttrs) :
    (s.emplaceInode i a).untimed = s.untimed.emplaceInode i a.untimed := by
  simp only [emplaceInode, untimed, TreeMap.map_insertIfNew]

@[simp] theorem untimed_emplaceLayout (i : UInt64) (l : FileLayout) :
    (s.emplaceLayout i l).untimed = s.untimed.emplaceLayout i l.untimed := by
  simp only [emplaceLayout, untimed, TreeMap.map_insertIfNew]

@[simp] theorem untimed_eraseInode (i : UInt64) :
    (s.eraseInode i).untimed = s.untimed.eraseInode i := by
  simp only [eraseInode, untimed, TreeMap.map_erase]

@[simp] theorem untimed_eraseLayout (i : UInt64) :
    (s.eraseLayout i).untimed = s.untimed.eraseLayout i := by
  simp only [eraseLayout, untimed, TreeMap.map_erase]

@[simp] theorem untimed_eraseDentry (k : DentryKey) :
    (s.eraseDentry k).untimed = s.untimed.eraseDentry k := rfl

@[simp] theorem untimed_emplaceDentry (k : DentryKey) (i : UInt64) :
    (s.emplaceDentry k i).untimed = s.untimed.emplaceDentry k i := rfl

@[simp] theorem untimed_countInodeId : s.countInodeId.untimed = s.untimed.countInodeId := rfl

@[simp] theorem untimed_setLayoutAttrs (i : UInt64) (a : InodeAttrs) :
    (s.setLayoutAttrs i a).untimed = s.untimed.setLayoutAttrs i a.untimed := by
  simp only [setLayoutAttrs, untimed, mk.injEq, true_and]
  exact TreeMap.map_modify _ _ _ fun _ => rfl

@[simp] theorem untimed_setLayoutExtents (i : UInt64) (es : List FileExtent) :
    (s.setLayoutExtents i es).untimed = s.untimed.setLayoutExtents i es := by
  simp only [setLayoutExtents, untimed, mk.injEq, true_and]
  exact TreeMap.map_modify _ _ _ fun _ => rfl

theorem untimed_inodeAt (s : MetaState) (i : UInt64) :
    (s.inodeAt i).untimed InodeAttrs.untimed = s.untimed.inodeAt i := by
  unfold inodeAt
  cases h : s.inodes[i]? with
  | none => simp [h]
  | some a => simp [h]

theorem untimed_setInodeAt (s : MetaState) (i : UInt64) {f f' : InodeAttrs → InodeAttrs}
    (hf : ∀ a, (f a).untimed = f' a.untimed) :
    (s.setInodeAt i f).untimed id = s.untimed.setInodeAt i f' := by
  apply Result.untimed_andThen (s.untimed_inodeAt i)
  intro a s
  simp [hf a]

theorem untimed_touchInode (s : MetaState) (i : UInt64) (nowNs : Int64) :
    (s.touchInode i nowNs).untimed id = s.untimed.touchInode i 0 := by
  apply Result.untimed_andThen (s.untimed_inodeAt i)
  intro a s
  simp only [Result.untimed_ok, untimed_setLayoutAttrs, untimed_storeInode]
  rfl

theorem untimed_removeNode (s : MetaState) (p : UInt64) (n : Bytes) (i : UInt64)
    (nowNs : Int64) : (s.removeNode p n i nowNs).untimed id = s.untimed.removeNode p n i 0 := by
  apply Result.untimed_andThen (s.untimed_inodeAt i)
  intro a s
  rw [← untimed_eraseDentry, ← untimed_eraseLayout, ← untimed_eraseInode]
  apply Result.untimed_andThen (untimed_touchInode _ p nowNs)
  intro _ s
  rw [InodeAttrs.untimed_type]
  split
  · exact s.untimed_setInodeAt p fun _ => rfl
  · rfl

theorem untimed_touchParents (s : MetaState) (nowNs : Int64) (p q : UInt64)
    (type : InodeType) :
    (s.touchParents nowNs p q type).untimed id = s.untimed.touchParents 0 p q type := by
  apply Result.untimed_andThen (s.untimed_touchInode p nowNs)
  intro _ s
  split
  · apply Result.untimed_andThen (s.untimed_touchInode q nowNs)
    intro _ s
    split
    · refine Result.untimed_andThen (s.untimed_setInodeAt p fun _ => rfl) ?_
      exact fun _ s => s.untimed_setInodeAt q fun _ => rfl
    · rfl
  · rfl

theorem untimed_moveEntry (s : MetaState) (nowNs : Int64) (oldKey newKey : DentryKey)
    (i : UInt64) (type : InodeType) :
    (s.moveEntry nowNs oldKey newKey i type).untimed InodeAttrs.untimed =
      s.untimed.moveEntry 0 oldKey newKey i type := by
  unfold moveEntry
  rw [← untimed_eraseDentry, ← untimed_emplaceDentry]
  apply Result.untimed_andThen (untimed_touchParents _ nowNs oldKey.1 newKey.1 type)
  intro _ s
  apply Result.untimed_andThen (s.untimed_inodeAt i)
  intro a s
  simp only [Result.untimed_ok, untimed_setLayoutAttrs, untimed_storeInode]
  rfl

@[simp] theorem untimed_isDirectoryEmpty (i : UInt64) :
    s.untimed.isDirectoryEmpty i = s.isDirectoryEmpty i := rfl

theorem untimed_ancestorLoop (a : UInt64) (fuel : ℕ) (i : UInt64) :
    s.untimed.ancestorLoop a fuel i = s.ancestorLoop a fuel i := by
  induction fuel generalizing i with
  | zero => rfl
  | succ fuel ih =>
    have hp : s.untimed.parentOf i = s.parentOf i := rfl
    simp only [ancestorLoop, hp, ih]

@[simp] theorem untimed_isAncestor (a i : UInt64) :
    s.untimed.isAncestor a i = s.isAncestor a i := untimed_ancestorLoop ..

@[simp] theorem untimed_validateParent (p : UInt64) (n : Bytes) :
    s.untimed.validateParent p n = s.validateParent p n := by
  unfold validateParent
  rw [untimed_inodes]
  cases s.inodes[p]? with
  | none => rfl
  | some a => rfl

@[simp] theorem untimed_validateRegularFile (i : UInt64) :
    s.untimed.validateRegularFile i = s.validateRegularFile i := by
  unfold validateRegularFile
  rw [untimed_inodes]
  cases s.inodes[i]? with
  | none => rfl
  | some a => rfl

section Calls

variable (s) (clock : Clock)

theorem untimed_createNode (p : UInt64) (n : Bytes) (type : InodeType) (mode uid gid : UInt32) :
    (s.createNode clock p n type mode uid gid).untimed InodeAttrs.untimed =
      s.untimed.createNode .still p n type mode uid gid := by
  unfold createNode
  rw [untimed_validateParent]
  cases s.validateParent p n with
  | error e => rfl
  | ok _ =>
    simp only [untimed_dentries, ← untimed_countInodeId]
    apply Result.untimed_ite rfl
    refine Result.untimed_andThen (untimed_setInodeAt _ p ?_) ?_
    · exact fun _ => rfl
    · intro _ s
      simp only [Result.untimed_ok]
      rw [apply_ite MetaState.untimed]
      simp only [untimed_emplaceLayout, untimed_emplaceInode, untimed_emplaceDentry]
      rfl

theorem untimed_setAttr (c : SetAttrCommand) :
    (s.setAttr clock c).untimed InodeAttrs.untimed = s.untimed.setAttr .still c.untimed := by
  obtain ⟨i, setMode, mode, setUid, uid, setGid, gid, setAtime, atimeNs, setMtime, mtimeNs⟩ := c
  simp only [setAttr, SetAttrCommand.untimed, untimed_inodes]
  cases s.inodes[i]? with
  | none => rfl
  | some a =>
    simp only [Option.map_some, Result.untimed_ok, untimed_setLayoutAttrs, untimed_storeInode]
    cases setAtime with
    | false => cases setMtime <;> rfl
    | true => cases setMtime <;> rfl

/-- The common end of `Unlink` and `Rmdir`. -/
theorem untimed_removeAndRead (p : UInt64) (n : Bytes) (i : UInt64) (nowNs : Int64) :
    ((s.removeNode p n i nowNs).andThen fun _ s => s.inodeAt p).untimed InodeAttrs.untimed =
      (s.untimed.removeNode p n i 0).andThen fun _ s => s.inodeAt p :=
  Result.untimed_andThen (s.untimed_removeNode p n i nowNs) fun _ s => s.untimed_inodeAt p

theorem untimed_unlink (p : UInt64) (n : Bytes) :
    (s.unlink clock p n).untimed InodeAttrs.untimed = s.untimed.unlink .still p n := by
  unfold unlink
  rw [untimed_validateParent, untimed_dentries]
  cases s.validateParent p n with
  | error e => rfl
  | ok _ =>
    cases s.dentries[(p, n)]? with
    | none => rfl
    | some i =>
      apply Result.untimed_andThen (s.untimed_inodeAt i)
      intro a s
      exact Result.untimed_ite rfl (s.untimed_removeAndRead p n i _)

theorem untimed_rmdir (p : UInt64) (n : Bytes) :
    (s.rmdir clock p n).untimed InodeAttrs.untimed = s.untimed.rmdir .still p n := by
  unfold rmdir
  rw [untimed_validateParent, untimed_dentries]
  cases s.validateParent p n with
  | error e => rfl
  | ok _ =>
    cases s.dentries[(p, n)]? with
    | none => rfl
    | some i =>
      apply Result.untimed_andThen (s.untimed_inodeAt i)
      intro a s
      apply Result.untimed_ite rfl
      exact Result.untimed_ite rfl (s.untimed_removeAndRead p n i _)

theorem untimed_rename (p : UInt64) (n : Bytes) (q : UInt64) (m : Bytes) :
    (s.rename clock p n q m).untimed InodeAttrs.untimed = s.untimed.rename .still p n q m := by
  unfold rename
  rw [untimed_validateParent, untimed_validateParent, untimed_dentries]
  cases s.validateParent p n with
  | error e => rfl
  | ok _ =>
  cases s.validateParent q m with
  | error e => rfl
  | ok _ =>
  cases s.dentries[(p, n)]? with
  | none => rfl
  | some i =>
  apply Result.untimed_andThen (s.untimed_inodeAt i)
  intro a s
  simp only [InodeAttrs.untimed_type, untimed_isAncestor, untimed_dentries]
  split
  · rfl
  · rfl
  · cases s.dentries[(q, m)]? with
    | none => exact s.untimed_moveEntry _ _ _ i _
    | some target =>
      apply Result.untimed_ite rfl
      apply Result.untimed_andThen (s.untimed_inodeAt target)
      intro t s
      apply Result.untimed_ite rfl
      apply Result.untimed_ite rfl
      apply Result.untimed_ite rfl
      apply Result.untimed_andThen (s.untimed_removeNode q m target _)
      exact fun _ s => s.untimed_moveEntry _ _ _ i _

section Writes

variable [OffsetSort]

theorem untimed_commitWrite (i v : UInt64) (es : List FileExtent) :
    (s.commitWrite clock i v es).untimed InodeAttrs.untimed =
      s.untimed.commitWrite .still i v es := by
  unfold commitWrite
  rw [untimed_validateRegularFile, untimed_layouts]
  cases s.validateRegularFile i with
  | error e => rfl
  | ok _ =>
    cases s.layouts[i]? with
    | none => rfl
    | some l =>
      simp only [Option.map_some, FileLayout.untimed_extents, ← untimed_setLayoutExtents]
      apply Result.untimed_ite rfl
      apply Result.untimed_andThen (untimed_inodeAt _ i)
      intro a s
      simp only [Result.untimed_ok, untimed_setLayoutAttrs, untimed_storeInode]
      rfl

theorem untimed_appendWrite (i v : UInt64) (es : List FileExtent) :
    (s.appendWrite clock i v es).untimed AppendWriteStateResult.untimed =
      s.untimed.appendWrite .still i v es := by
  unfold appendWrite
  rw [untimed_validateRegularFile, untimed_layouts]
  cases s.validateRegularFile i with
  | error e => rfl
  | ok _ =>
    cases s.layouts[i]? with
    | none => rfl
    | some l =>
      apply Result.untimed_andThen (untimed_inodeAt _ i)
      intro a s
      simp only [InodeAttrs.untimed_size, FileLayout.untimed_extents, ← untimed_setLayoutExtents]
      apply Result.untimed_ite rfl
      simp only [Result.untimed_ok, untimed_setLayoutAttrs, untimed_storeInode]
      rfl

end Writes

theorem untimed_truncate (i size : UInt64) :
    (s.truncate clock i size).untimed InodeAttrs.untimed = s.untimed.truncate .still i size := by
  unfold truncate
  rw [untimed_validateRegularFile, untimed_layouts]
  cases s.validateRegularFile i with
  | error e => rfl
  | ok _ =>
    cases s.layouts[i]? with
    | none => rfl
    | some l =>
      simp only [Option.map_some, FileLayout.untimed_extents, ← untimed_setLayoutExtents]
      apply Result.untimed_andThen (untimed_inodeAt _ i)
      intro a s
      simp only [Result.untimed_ok, untimed_setLayoutAttrs, untimed_storeInode]
      rfl

end Calls

end MetaState

end Pulpfs
