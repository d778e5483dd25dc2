import Pulpfs.Meta.State

/-! The errors of the state machine. A call that refuses says why, and its kind is one of the six
that a response of raft can name. -/
namespace Pulpfs

/-- The kinds `ErrorFromResponse` reads back. -/
def ErrorKind.isNamed : ErrorKind → Bool
  | .invalidArgument => true
  | .notFound _ => true
  | .alreadyExists _ => true
  | .notDirectory _ => true
  | .isDirectory _ => true
  | .directoryNotEmpty _ => true
  | _ => false

/-- One of the six kinds, with a text. -/
def Error.IsRefusal (e : Error) : Prop := e.kind.isNamed = true ∧ e.message ≠ []

theorem isRefusal_makeError {kind : ErrorKind} {text : String} (hkind : kind.isNamed = true)
    (htext : ascii text ≠ []) : (makeError kind text).IsRefusal := ⟨hkind, htext⟩

/-- If the call ends with an error, it is a refusal. -/
def Outcome.Refuses {α : Type} : Outcome α → Prop
  | .error e => e.IsRefusal
  | _ => True

theorem Outcome.Refuses.map {α β : Type} {o : Outcome α} (h : o.Refuses) (f : α → β) :
    (o.map f).Refuses := by
  cases o with
  | ok => trivial
  | error e => exact h
  | outOfRange => trivial
  | diverged => trivial

theorem Outcome.Refuses.isRefusal {α : Type} {o : Outcome α} {e : Error} (h : o.Refuses)
    (he : o = .error e) : e.IsRefusal := by
  rwa [he] at h

namespace MetaState

variable {α β : Type} {s : MetaState}

/-- A sequence refuses where one of its parts does. -/
theorem Refuses.andThen {r : Result α} {f : α → MetaState → Result β} (h : r.1.Refuses)
    (hf : ∀ a s, (f a s).1.Refuses) : (r.andThen f).1.Refuses := by
  obtain ⟨o, s⟩ := r
  cases o with
  | ok a => exact hf a s
  | error e => exact h
  | outOfRange => trivial
  | diverged => trivial

theorem inodeAt_refuses (s : MetaState) (i : UInt64) : (s.inodeAt i).1.Refuses := by
  unfold inodeAt
  split
  · trivial
  · trivial

/-- Sequences that begin with a lookup. -/
theorem Refuses.inodeAt {i : UInt64} {f : InodeAttrs → MetaState → Result β}
    (hf : ∀ a s, (f a s).1.Refuses) : ((s.inodeAt i).andThen f).1.Refuses :=
  Refuses.andThen (s.inodeAt_refuses i) hf

theorem setInodeAt_refuses (s : MetaState) (i : UInt64) (f : InodeAttrs → InodeAttrs) :
    (s.setInodeAt i f).1.Refuses :=
  Refuses.inodeAt fun _ _ => trivial

theorem touchInode_refuses (s : MetaState) (i : UInt64) (nowNs : Int64) :
    (s.touchInode i nowNs).1.Refuses :=
  Refuses.inodeAt fun _ _ => trivial

theorem removeNode_refuses (s : MetaState) (p : UInt64) (n : Bytes) (i : UInt64) (nowNs : Int64) :
    (s.removeNode p n i nowNs).1.Refuses := by
  refine Refuses.inodeAt fun inode s => Refuses.andThen (touchInode_refuses _ _ _) fun _ s => ?_
  split
  · exact s.setInodeAt_refuses _ _
  · trivial

theorem moveEntry_refuses (s : MetaState) (nowNs : Int64) (oldKey newKey : DentryKey)
    (i : UInt64) (type : InodeType) : (s.moveEntry nowNs oldKey newKey i type).1.Refuses := by
  refine Refuses.andThen ?_ fun _ s => Refuses.inodeAt fun _ _ => trivial
  refine Refuses.andThen (touchInode_refuses _ _ _) fun _ s => ?_
  split
  · refine Refuses.andThen (touchInode_refuses _ _ _) fun _ s => ?_
    split
    · exact Refuses.andThen (setInodeAt_refuses _ _ _) fun _ s => s.setInodeAt_refuses _ _
    · trivial
  · trivial

theorem validateName_refuses {n : Bytes} {e : Error} (h : validateName n = .error e) :
    e.IsRefusal := by
  unfold validateName at h
  split at h
  next => exact Except.error.inj h ▸ isRefusal_makeError rfl (by decide)
  next =>
    split at h
    next => exact Except.error.inj h ▸ isRefusal_makeError rfl (by decide)
    next =>
      split at h
      next => exact Except.error.inj h ▸ isRefusal_makeError rfl (by decide)
      next => contradiction

theorem validateParent_refuses {p : UInt64} {n : Bytes} {e : Error}
    (h : s.validateParent p n = .error e) : e.IsRefusal := by
  unfold validateParent at h
  split at h
  next hname => exact Except.error.inj h ▸ validateName_refuses hname
  next =>
    split at h
    next => exact Except.error.inj h ▸ isRefusal_makeError rfl (by decide)
    next =>
      split at h
      next => exact Except.error.inj h ▸ isRefusal_makeError rfl (by decide)
      next => contradiction

theorem validateRegularFile_refuses {i : UInt64} {e : Error}
    (h : s.validateRegularFile i = .error e) : e.IsRefusal := by
  unfold validateRegularFile at h
  split at h
  next => exact Except.error.inj h ▸ isRefusal_makeError rfl (by decide)
  next =>
    split at h
    next => exact Except.error.inj h ▸ isRefusal_makeError rfl (by decide)
    next => contradiction

variable (s) (clock : Clock)

theorem createNode_refuses (p : UInt64) (n : Bytes) (type : InodeType) (mode uid gid : UInt32) :
    (s.createNode clock p n type mode uid gid).1.Refuses := by
  unfold createNode
  split
  next h => exact validateParent_refuses h
  next =>
    split
    next => exact isRefusal_makeError rfl (by decide)
    next => exact Refuses.andThen (setInodeAt_refuses _ _ _) fun _ _ => trivial

theorem setAttr_refuses (c : SetAttrCommand) : (s.setAttr clock c).1.Refuses := by
  unfold setAttr
  split
  next => exact isRefusal_makeError rfl (by decide)
  next => trivial

theorem unlink_refuses (p : UInt64) (n : Bytes) : (s.unlink clock p n).1.Refuses := by
  unfold unlink
  split
  next h => exact validateParent_refuses h
  next =>
    split
    next => exact isRefusal_makeError rfl (by decide)
    next =>
      refine Refuses.inodeAt fun inode s => ?_
      split
      next => exact isRefusal_makeError rfl (by decide)
      next => exact Refuses.andThen (removeNode_refuses _ _ _ _ _) fun _ s => s.inodeAt_refuses _

theorem rmdir_refuses (p : UInt64) (n : Bytes) : (s.rmdir clock p n).1.Refuses := by
  unfold rmdir
  split
  next h => exact validateParent_refuses h
  next =>
    split
    next => exact isRefusal_makeError rfl (by decide)
    next =>
      refine Refuses.inodeAt fun inode s => ?_
      split
      next => exact isRefusal_makeError rfl (by decide)
      next =>
        split
        next => exact isRefusal_makeError rfl (by decide)
        next =>
          exact Refuses.andThen (removeNode_refuses _ _ _ _ _) fun _ s => s.inodeAt_refuses _

theorem rename_refuses (p : UInt64) (n : Bytes) (q : UInt64) (m : Bytes) :
    (s.rename clock p n q m).1.Refuses := by
  unfold rename
  split
  next h => exact validateParent_refuses h
  next =>
  split
  next h => exact validateParent_refuses h
  next =>
  split
  next => exact isRefusal_makeError rfl (by decide)
  next =>
  refine Refuses.inodeAt fun moved s => ?_
  split
  next => trivial
  next => exact isRefusal_makeError rfl (by decide)
  next =>
  split
  next => exact s.moveEntry_refuses _ _ _ _ _
  next =>
  split
  next => trivial
  next =>
  refine Refuses.inodeAt fun target s => ?_
  split
  next => exact isRefusal_makeError rfl (by decide)
  next =>
  split
  next => exact isRefusal_makeError rfl (by decide)
  next =>
  split
  next => exact isRefusal_makeError rfl (by decide)
  next =>
    exact Refuses.andThen (removeNode_refuses _ _ _ _ _) fun _ s => s.moveEntry_refuses _ _ _ _ _

theorem commitWrite_refuses [OffsetSort] (i v : UInt64) (es : List FileExtent) :
    (s.commitWrite clock i v es).1.Refuses := by
  unfold commitWrite
  split
  next h => exact validateRegularFile_refuses h
  next =>
    split
    next => exact isRefusal_makeError rfl (by decide)
    next =>
      dsimp only
      split
      next => exact isRefusal_makeError rfl (by decide)
      next => exact Refuses.inodeAt fun _ _ => trivial

theorem appendWrite_refuses [OffsetSort] (i v : UInt64) (es : List FileExtent) :
    (s.appendWrite clock i v es).1.Refuses := by
  unfold appendWrite
  split
  next h => exact validateRegularFile_refuses h
  next =>
    split
    next => exact isRefusal_makeError rfl (by decide)
    next =>
      refine Refuses.inodeAt fun inode s => ?_
      dsimp only
      split
      next => exact isRefusal_makeError rfl (by decide)
      next => trivial

theorem truncate_refuses (i size : UInt64) : (s.truncate clock i size).1.Refuses := by
  unfold truncate
  split
  next h => exact validateRegularFile_refuses h
  next =>
    split
    next => exact isRefusal_makeError rfl (by decide)
    next => exact Refuses.inodeAt fun _ _ => trivial

/-- Every error of a command is a refusal. -/
theorem execute_refuses [OffsetSort] (c : Command) : (s.execute clock c).1.Refuses := by
  cases c with
  | mkdir p n mode uid gid =>
    exact Outcome.Refuses.map (s.createNode_refuses clock p n _ mode uid gid) _
  | createFile p n mode uid gid =>
    exact Outcome.Refuses.map (s.createNode_refuses clock p n _ mode uid gid) _
  | setAttr c => exact Outcome.Refuses.map (s.setAttr_refuses clock c) _
  | commitWrite i v es => exact Outcome.Refuses.map (s.commitWrite_refuses clock i v es) _
  | appendWrite i v es => exact Outcome.Refuses.map (s.appendWrite_refuses clock i v es) _
  | truncate i size => exact Outcome.Refuses.map (s.truncate_refuses clock i size) _
  | unlink p n => exact Outcome.Refuses.map (s.unlink_refuses clock p n) _
  | rmdir p n => exact Outcome.Refuses.map (s.rmdir_refuses clock p n) _
  | rename p n q m => exact Outcome.Refuses.map (s.rename_refuses clock p n q m) _

theorem lookup_refuses (p : UInt64) (n : Bytes) : (s.lookup p n).Refuses := by
  unfold lookup
  split
  next h => exact validateParent_refuses h
  next =>
    split
    next => exact isRefusal_makeError rfl (by decide)
    next => exact s.inodeAt_refuses _

theorem getAttr_refuses (i : UInt64) : (s.getAttr i).Refuses := by
  unfold getAttr
  split
  next => exact isRefusal_makeError rfl (by decide)
  next => trivial

theorem readEntries_refuses (i : UInt64) (entries : List (DentryKey × UInt64)) :
    (s.readEntries i entries).Refuses := by
  induction entries with
  | nil => trivial
  | cons d entries ih =>
    unfold readEntries
    split
    next => exact ih
    next =>
      split
      next => trivial
      next => exact Outcome.Refuses.map ih _

theorem readDir_refuses (i : UInt64) : (s.readDir i).Refuses := by
  unfold readDir
  split
  next => exact isRefusal_makeError rfl (by decide)
  next =>
    split
    next => exact isRefusal_makeError rfl (by decide)
    next => exact s.readEntries_refuses _ _

theorem getLayout_refuses (i : UInt64) : (s.getLayout i).Refuses := by
  unfold getLayout
  split
  next h => exact validateRegularFile_refuses h
  next =>
    split
    next => exact isRefusal_makeError rfl (by decide)
    next => exact Outcome.Refuses.map (s.inodeAt_refuses _) _

end MetaState

end Pulpfs
