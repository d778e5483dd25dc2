import Pulpfs.Meta.Extents
import Mathlib.Data.List.Destutter
import Std.Data.ExtTreeMap

/-! The metadata state machine of `meta_state.cc`. A call returns how it ended together with
the state it leaves behind, which a failing call may have changed already. -/
namespace Pulpfs

/-- The readings `NowNs` returns during one call, in order. -/
abbrev Clock := ℕ → Int64

def kRootInodeId : UInt64 := 1

def kDefaultChunkSize : UInt64 := 64 * 1024 * 1024

abbrev DentryKey := UInt64 × Bytes

/-- The order of `std::pair<uint64_t, std::string>`. -/
def dentryOrder : DentryKey → DentryKey → Ordering :=
  compareLex (compareOn Prod.fst) (compareOn Prod.snd)

instance : Std.TransCmp dentryOrder := inferInstanceAs (Std.TransCmp (compareLex _ _))

instance : Std.LawfulEqCmp dentryOrder where
  eq_of_compare {a b} h := by
    simp only [dentryOrder, compareLex, compareOn, Ordering.then_eq_eq,
      Std.LawfulEqOrd.compare_eq_iff_eq] at h
    exact Prod.ext h.1 h.2

structure MetaState where
  nextInodeId : UInt64 := kRootInodeId + 1
  defaultChunkSize : UInt64 := kDefaultChunkSize
  inodes : Std.ExtTreeMap UInt64 InodeAttrs
  dentries : Std.ExtTreeMap DentryKey UInt64 dentryOrder
  layouts : Std.ExtTreeMap UInt64 FileLayout

/-- How a call ended and the state after it. -/
abbrev MetaState.Result (α : Type) := Outcome α × MetaState

/-- Go on with the value of a call that returned one. -/
def MetaState.Result.andThen {α β : Type} (r : MetaState.Result α)
    (f : α → MetaState → MetaState.Result β) : MetaState.Result β :=
  match r with
  | (.ok a, s) => f a s
  | (.error e, s) => (.error e, s)
  | (.outOfRange, s) => (.outOfRange, s)
  | (.diverged, s) => (.diverged, s)

section AndThen

variable {α β : Type} (a : α) (e : Error) (s : MetaState)
  (f : α → MetaState → MetaState.Result β)

@[simp] theorem MetaState.andThen_ok :
    MetaState.Result.andThen (Outcome.ok a, s) f = f a s := rfl

@[simp] theorem MetaState.andThen_error :
    MetaState.Result.andThen (Outcome.error e, s) f = (Outcome.error e, s) := rfl

@[simp] theorem MetaState.andThen_outOfRange :
    MetaState.Result.andThen (Outcome.outOfRange, s) f = (Outcome.outOfRange, s) := rfl

@[simp] theorem MetaState.andThen_diverged :
    MetaState.Result.andThen (Outcome.diverged, s) f = (Outcome.diverged, s) := rfl

end AndThen

structure AppendWriteStateResult where
  attrs : InodeAttrs
  appendStart : UInt64
  committedExtents : List FileExtent
  deriving DecidableEq

def pathFor (parentInodeId : UInt64) (name : Bytes) : Bytes :=
  toDecimal parentInodeId ++ ascii "/" ++ name

def validateName (name : Bytes) : Except Error Unit :=
  if name.isEmpty then
    .error (makeError .invalidArgument "entry name is empty")
  else if name = ascii "." ∨ name = ascii ".." then
    .error (makeError .invalidArgument "reserved directory entry name")
  else if '/'.toUInt8 ∈ name ∨ 0 ∈ name then
    .error (makeError .invalidArgument "entry name contains an invalid character")
  else .ok ()

/-- `extent.length() == 0 || extent.object_key().empty()`. -/
def FileExtent.isInvalid (extent : FileExtent) : Bool :=
  extent.length = 0 || extent.objectKey.isEmpty

/-- The fields `TouchInode` sets. -/
def InodeAttrs.touched (inode : InodeAttrs) (nowNs : Int64) : InodeAttrs :=
  { inode with mtimeNs := nowNs, ctimeNs := nowNs, version := inode.version + 1 }

section Loops

variable [OffsetSort]

/-- The first loop of `CommitWrite` and the extents it leaves stored; it stops at the first
invalid extent, which the flag reports. -/
def mergeCommitted (storedExtents : List FileExtent) : List FileExtent → Bool × List FileExtent
  | [] => (true, storedExtents)
  | extent :: extents =>
    if extent.isInvalid then (false, storedExtents)
    else mergeCommitted (mergeExtent storedExtents extent) extents

/-- What the loop of `AppendWrite` accumulates. -/
structure AppendState where
  appendLength : UInt64
  committedExtents : List FileExtent
  storedExtents : List FileExtent

def mergeAppended (appendStart : UInt64) (acc : AppendState) :
    List FileExtent → Bool × AppendState
  | [] => (true, acc)
  | extent :: extents =>
    if extent.isInvalid then (false, acc)
    else
      let committed := { extent with offset := appendStart + extent.offset }
      mergeAppended appendStart
        { appendLength := max acc.appendLength (extentEnd extent)
          committedExtents := acc.committedExtents ++ [committed]
          storedExtents := mergeExtent acc.storedExtents committed } extents

end Loops

namespace MetaState

/-- The constructor; `nowNs` is its reading of the clock. -/
def fresh (defaultChunkSize : UInt64) (nowNs : Int64) : MetaState where
  nextInodeId := kRootInodeId + 1
  defaultChunkSize := defaultChunkSize
  inodes := (∅ : Std.ExtTreeMap UInt64 InodeAttrs).insertIfNew kRootInodeId
    { inodeId := kRootInodeId, type := .directory, mode := 0o755, uid := 0, gid := 0, size := 0,
      nlink := 2, version := 1, atimeNs := nowNs, mtimeNs := nowNs, ctimeNs := nowNs,
      chunkSize := 0 }
  dentries := ∅
  layouts := ∅

variable (s : MetaState)

/-- `inodes_.at(inode_id)`. -/
def inodeAt (inodeId : UInt64) : MetaState.Result InodeAttrs :=
  match s.inodes[inodeId]? with
  | some inode => (.ok inode, s)
  | none => (.outOfRange, s)

def storeInode (inodeId : UInt64) (inode : InodeAttrs) : MetaState :=
  { s with inodes := s.inodes.insert inodeId inode }

/-- `next_inode_id_++`. -/
def countInodeId : MetaState := { s with nextInodeId := s.nextInodeId + 1 }

def emplaceInode (inodeId : UInt64) (inode : InodeAttrs) : MetaState :=
  { s with inodes := s.inodes.insertIfNew inodeId inode }

def emplaceDentry (key : DentryKey) (inodeId : UInt64) : MetaState :=
  { s with dentries := s.dentries.insertIfNew key inodeId }

def emplaceLayout (inodeId : UInt64) (layout : FileLayout) : MetaState :=
  { s with layouts := s.layouts.insertIfNew inodeId layout }

def eraseInode (inodeId : UInt64) : MetaState := { s with inodes := s.inodes.erase inodeId }

def eraseDentry (key : DentryKey) : MetaState := { s with dentries := s.dentries.erase key }

def eraseLayout (inodeId : UInt64) : MetaState := { s with layouts := s.layouts.erase inodeId }

/-- Fields of `inodes_.at(inode_id)` are set. -/
def setInodeAt (inodeId : UInt64) (f : InodeAttrs → InodeAttrs) : MetaState.Result Unit :=
  (s.inodeAt inodeId).andThen fun inode s => (.ok (), s.storeInode inodeId (f inode))

/-- `*layout->second.mutable_attrs() = inode` where the layout exists. -/
def setLayoutAttrs (inodeId : UInt64) (inode : InodeAttrs) : MetaState :=
  { s with layouts := s.layouts.modify inodeId fun layout => { layout with attrs := inode } }

def setLayoutExtents (inodeId : UInt64) (extents : List FileExtent) : MetaState :=
  { s with layouts := s.layouts.modify inodeId fun layout => { layout with extents := extents } }

def touchInode (inodeId : UInt64) (nowNs : Int64) : MetaState.Result Unit :=
  (s.inodeAt inodeId).andThen fun inode s =>
    let inode := inode.touched nowNs
    (.ok (), (s.storeInode inodeId inode).setLayoutAttrs inodeId inode)

def removeNode (parentInodeId : UInt64) (name : Bytes) (inodeId : UInt64) (nowNs : Int64) :
    MetaState.Result Unit :=
  (s.inodeAt inodeId).andThen fun inode s =>
    let s := ((s.eraseDentry (parentInodeId, name)).eraseLayout inodeId).eraseInode inodeId
    (s.touchInode parentInodeId nowNs).andThen fun _ s =>
      if inode.type = .directory then
        s.setInodeAt parentInodeId fun parent => { parent with nlink := parent.nlink - 1 }
      else (.ok (), s)

def isDirectoryEmpty (inodeId : UInt64) : Bool :=
  s.dentries.toList.all fun d => d.1.1 ≠ inodeId

def parentOf (inodeId : UInt64) : UInt64 :=
  if inodeId = kRootInodeId then kRootInodeId
  else
    match s.dentries.toList.find? fun d => d.2 = inodeId with
    | some d => d.1.1
    | none => inodeId

/-- The loop of `IsAncestor`, `none` when it has not returned within `fuel` rounds. -/
def ancestorLoop (ancestorInodeId : UInt64) : ℕ → UInt64 → Option Bool
  | 0, _ => none
  | fuel + 1, current =>
    if current = kRootInodeId then some (ancestorInodeId = kRootInodeId)
    else if current = ancestorInodeId then some true
    else
      let parent := s.parentOf current
      if parent = current then some false else ancestorLoop ancestorInodeId fuel parent

/-- After the first round `current` is the parent of some entry, so a loop that returns at all
does so within one round more than there are entries. -/
def isAncestor (ancestorInodeId inodeId : UInt64) : Option Bool :=
  s.ancestorLoop ancestorInodeId (s.dentries.size + 1) inodeId

def validateParent (parentInodeId : UInt64) (name : Bytes) : Except Error Unit :=
  match validateName name with
  | .error e => .error e
  | .ok () =>
    match s.inodes[parentInodeId]? with
    | none => .error (makeError (.notFound (toDecimal parentInodeId)) "parent inode not found")
    | some parent =>
      if parent.type ≠ .directory then
        .error (makeError (.notDirectory (toDecimal parentInodeId))
          "parent inode is not a directory")
      else .ok ()

def validateRegularFile (inodeId : UInt64) : Except Error Unit :=
  match s.inodes[inodeId]? with
  | none => .error (makeError (.notFound (toDecimal inodeId)) "inode not found")
  | some inode =>
    if inode.type ≠ .file then
      .error (makeError .invalidArgument "inode is not a regular file")
    else .ok ()

def createNode (clock : Clock) (parentInodeId : UInt64) (name : Bytes) (type : InodeType)
    (mode uid gid : UInt32) : MetaState.Result InodeAttrs :=
  match s.validateParent parentInodeId name with
  | .error e => (.error e, s)
  | .ok () =>
    if (parentInodeId, name) ∈ s.dentries then
      (.error (makeError (.alreadyExists (pathFor parentInodeId name))
        "directory entry already exists"), s)
    else
      let inodeId := s.nextInodeId
      let s := s.countInodeId
      let nowNs := clock 0
      let inode : InodeAttrs :=
        { inodeId, type, mode, uid, gid, size := 0,
          nlink := if type = .directory then 2 else 1, version := 1,
          atimeNs := nowNs, mtimeNs := nowNs, ctimeNs := nowNs,
          chunkSize := if type = .file then s.defaultChunkSize else 0 }
      (s.setInodeAt parentInodeId fun parent =>
        { parent with
          mtimeNs := nowNs, ctimeNs := nowNs, version := parent.version + 1
          nlink := if type = .directory then parent.nlink + 1 else parent.nlink }).andThen
      fun _ s =>
        let s := (s.emplaceDentry (parentInodeId, name) inodeId).emplaceInode inodeId inode
        (.ok inode, if type = .file then
          s.emplaceLayout inodeId { attrs := inode, chunkSize := s.defaultChunkSize } else s)

def mkdir (clock : Clock) (parentInodeId : UInt64) (name : Bytes) (mode uid gid : UInt32) :
    MetaState.Result InodeAttrs :=
  s.createNode clock parentInodeId name .directory mode uid gid

def createFile (clock : Clock) (parentInodeId : UInt64) (name : Bytes) (mode uid gid : UInt32) :
    MetaState.Result InodeAttrs :=
  s.createNode clock parentInodeId name .file mode uid gid

def lookup (parentInodeId : UInt64) (name : Bytes) : Outcome InodeAttrs :=
  match s.validateParent parentInodeId name with
  | .error e => .error e
  | .ok () =>
    match s.dentries[(parentInodeId, name)]? with
    | none => .error (makeError (.notFound (pathFor parentInodeId name))
        "directory entry not found")
    | some inodeId => (s.inodeAt inodeId).1

def getAttr (inodeId : UInt64) : Outcome InodeAttrs :=
  match s.inodes[inodeId]? with
  | none => .error (makeError (.notFound (toDecimal inodeId)) "inode not found")
  | some inode => .ok inode

def setAttr (clock : Clock) (command : SetAttrCommand) : MetaState.Result InodeAttrs :=
  match s.inodes[command.inodeId]? with
  | none => (.error (makeError (.notFound (toDecimal command.inodeId)) "inode not found"), s)
  | some inode =>
    let inode := { inode with
      mode := if command.setMode then command.mode else inode.mode
      uid := if command.setUid then command.uid else inode.uid
      gid := if command.setGid then command.gid else inode.gid
      atimeNs := if command.setAtime then command.atimeNs else inode.atimeNs
      mtimeNs := if command.setMtime then command.mtimeNs else inode.mtimeNs
      ctimeNs := clock 0
      version := inode.version + 1 }
    (.ok inode, (s.storeInode command.inodeId inode).setLayoutAttrs command.inodeId inode)

/-- The loop of `ReadDir` over the entries of the map. -/
def readEntries (inodeId : UInt64) : List (DentryKey × UInt64) → Outcome (List DirectoryEntry)
  | [] => .ok []
  | (key, childInodeId) :: rest =>
    if key.1 ≠ inodeId then readEntries inodeId rest
    else
      match s.inodes[childInodeId]? with
      | none => .outOfRange
      | some attrs =>
        (readEntries inodeId rest).map fun entries => { name := key.2, attrs } :: entries

def readDir (inodeId : UInt64) : Outcome (List DirectoryEntry) :=
  match s.inodes[inodeId]? with
  | none => .error (makeError (.notFound (toDecimal inodeId)) "inode not found")
  | some inode =>
    if inode.type ≠ .directory then
      .error (makeError (.notDirectory (toDecimal inodeId)) "inode is not a directory")
    else s.readEntries inodeId s.dentries.toList

def unlink (clock : Clock) (parentInodeId : UInt64) (name : Bytes) :
    MetaState.Result InodeAttrs :=
  match s.validateParent parentInodeId name with
  | .error e => (.error e, s)
  | .ok () =>
    match s.dentries[(parentInodeId, name)]? with
    | none => (.error (makeError (.notFound (pathFor parentInodeId name))
        "directory entry not found"), s)
    | some inodeId =>
      (s.inodeAt inodeId).andThen fun inode s =>
        if inode.type = .directory then
          (.error (makeError (.isDirectory (pathFor parentInodeId name))
            "cannot unlink directory"), s)
        else
          (s.removeNode parentInodeId name inodeId (clock 0)).andThen fun _ s =>
            s.inodeAt parentInodeId

def rmdir (clock : Clock) (parentInodeId : UInt64) (name : Bytes) :
    MetaState.Result InodeAttrs :=
  match s.validateParent parentInodeId name with
  | .error e => (.error e, s)
  | .ok () =>
    match s.dentries[(parentInodeId, name)]? with
    | none => (.error (makeError (.notFound (pathFor parentInodeId name))
        "directory entry not found"), s)
    | some inodeId =>
      (s.inodeAt inodeId).andThen fun inode s =>
        if inode.type ≠ .directory then
          (.error (makeError (.notDirectory (pathFor parentInodeId name))
            "cannot remove non-directory"), s)
        else if !s.isDirectoryEmpty inodeId then
          (.error (makeError (.directoryNotEmpty (pathFor parentInodeId name))
            "directory is not empty"), s)
        else
          (s.removeNode parentInodeId name inodeId (clock 0)).andThen fun _ s =>
            s.inodeAt parentInodeId

/-- What `Rename` does to the two parents; `movedType` is the type read through the reference
to the moved inode. -/
def touchParents (nowNs : Int64) (oldParentInodeId newParentInodeId : UInt64)
    (movedType : InodeType) : MetaState.Result Unit :=
  (s.touchInode oldParentInodeId nowNs).andThen fun _ s =>
  if oldParentInodeId ≠ newParentInodeId then
    (s.touchInode newParentInodeId nowNs).andThen fun _ s =>
    if movedType = .directory then
      (s.setInodeAt oldParentInodeId fun parent =>
        { parent with nlink := parent.nlink - 1 }).andThen fun _ s =>
      s.setInodeAt newParentInodeId fun parent => { parent with nlink := parent.nlink + 1 }
    else (.ok (), s)
  else (.ok (), s)

/-- `Rename` from the point where a replaced target is gone. -/
def moveEntry (nowNs : Int64) (oldKey newKey : DentryKey) (movedInodeId : UInt64)
    (movedType : InodeType) : MetaState.Result InodeAttrs :=
  let s := (s.eraseDentry oldKey).emplaceDentry newKey movedInodeId
  (s.touchParents nowNs oldKey.1 newKey.1 movedType).andThen fun _ s =>
  (s.inodeAt movedInodeId).andThen fun moved s =>
    let moved := { moved with ctimeNs := nowNs, version := moved.version + 1 }
    (.ok moved, (s.storeInode movedInodeId moved).setLayoutAttrs movedInodeId moved)

def rename (clock : Clock) (oldParentInodeId : UInt64) (oldName : Bytes)
    (newParentInodeId : UInt64) (newName : Bytes) : MetaState.Result InodeAttrs :=
  match s.validateParent oldParentInodeId oldName with
  | .error e => (.error e, s)
  | .ok () =>
  match s.validateParent newParentInodeId newName with
  | .error e => (.error e, s)
  | .ok () =>
  match s.dentries[(oldParentInodeId, oldName)]? with
  | none => (.error (makeError (.notFound (pathFor oldParentInodeId oldName))
      "source entry not found"), s)
  | some movedInodeId =>
  (s.inodeAt movedInodeId).andThen fun moved s =>
  match if moved.type = .directory then s.isAncestor movedInodeId newParentInodeId
    else some false with
  | none => (.diverged, s)
  | some true => (.error (makeError .invalidArgument
      "cannot move directory into itself or its descendant"), s)
  | some false =>
  match s.dentries[(newParentInodeId, newName)]? with
  | none =>
    s.moveEntry (clock 0) (oldParentInodeId, oldName) (newParentInodeId, newName) movedInodeId
      moved.type
  | some targetInodeId =>
    if targetInodeId = movedInodeId then (.ok moved, s)
    else
      (s.inodeAt targetInodeId).andThen fun target s =>
      if moved.type = .directory ∧ target.type ≠ .directory then
        (.error (makeError (.notDirectory (pathFor newParentInodeId newName))
          "cannot replace non-directory with directory"), s)
      else if moved.type ≠ .directory ∧ target.type = .directory then
        (.error (makeError (.isDirectory (pathFor newParentInodeId newName))
          "cannot replace directory with non-directory"), s)
      else if target.type = .directory ∧ !s.isDirectoryEmpty targetInodeId then
        (.error (makeError (.directoryNotEmpty (pathFor newParentInodeId newName))
          "target directory is not empty"), s)
      else
        (s.removeNode newParentInodeId newName targetInodeId (clock 0)).andThen fun _ s =>
          s.moveEntry (clock 1) (oldParentInodeId, oldName) (newParentInodeId, newName)
            movedInodeId moved.type

def getLayout (inodeId : UInt64) : Outcome FileLayout :=
  match s.validateRegularFile inodeId with
  | .error e => .error e
  | .ok () =>
    match s.layouts[inodeId]? with
    | none => .error (makeError (.notFound (toDecimal inodeId)) "file layout not found")
    | some layout => (s.inodeAt inodeId).1.map fun attrs => { layout with attrs }

/-- The sorted list of keys without repetitions. -/
def listLiveObjects : List Bytes :=
  let objectKeys := s.layouts.toList.flatMap fun l =>
    (l.2.extents.map FileExtent.objectKey).filter fun key => !key.isEmpty
  (objectKeys.mergeSort fun a b => (compare a b).isLE).destutter (· ≠ ·)

section Writes

variable [OffsetSort]

def commitWrite (clock : Clock) (inodeId _baseVersion : UInt64) (extents : List FileExtent) :
    MetaState.Result InodeAttrs :=
  match s.validateRegularFile inodeId with
  | .error e => (.error e, s)
  | .ok () =>
    match s.layouts[inodeId]? with
    | none => (.error (makeError (.notFound (toDecimal inodeId)) "file layout not found"), s)
    | some layout =>
      let merged := mergeCommitted layout.extents extents
      let s := s.setLayoutExtents inodeId merged.2
      if !merged.1 then
        (.error (makeError .invalidArgument "invalid committed extent"), s)
      else
        (s.inodeAt inodeId).andThen fun inode s =>
          let inode := { inode with
            size := extents.foldl (fun size extent => max size (extentEnd extent)) inode.size
            version := inode.version + 1, mtimeNs := clock 0, ctimeNs := clock 0 }
          (.ok inode, (s.storeInode inodeId inode).setLayoutAttrs inodeId inode)

def appendWrite (clock : Clock) (inodeId _baseVersion : UInt64) (extents : List FileExtent) :
    MetaState.Result AppendWriteStateResult :=
  match s.validateRegularFile inodeId with
  | .error e => (.error e, s)
  | .ok () =>
    match s.layouts[inodeId]? with
    | none => (.error (makeError (.notFound (toDecimal inodeId)) "file layout not found"), s)
    | some layout =>
      (s.inodeAt inodeId).andThen fun inode s =>
        let appendStart := inode.size
        let merged := mergeAppended appendStart
          { appendLength := 0, committedExtents := [], storedExtents := layout.extents } extents
        let s := s.setLayoutExtents inodeId merged.2.storedExtents
        if !merged.1 then
          (.error (makeError .invalidArgument "invalid appended extent"), s)
        else
          let inode := { inode with
            size := appendStart + merged.2.appendLength
            version := inode.version + 1, mtimeNs := clock 0, ctimeNs := clock 0 }
          (.ok { attrs := inode, appendStart, committedExtents := merged.2.committedExtents },
            (s.storeInode inodeId inode).setLayoutAttrs inodeId inode)

end Writes

def truncate (clock : Clock) (inodeId size : UInt64) : MetaState.Result InodeAttrs :=
  match s.validateRegularFile inodeId with
  | .error e => (.error e, s)
  | .ok () =>
    match s.layouts[inodeId]? with
    | none => (.error (makeError (.notFound (toDecimal inodeId)) "file layout not found"), s)
    | some layout =>
      let s := s.setLayoutExtents inodeId (truncateExtents size layout.extents)
      (s.inodeAt inodeId).andThen fun inode s =>
        let inode := { inode with
          size := size, version := inode.version + 1, mtimeNs := clock 0, ctimeNs := clock 0 }
        (.ok inode, (s.storeInode inodeId inode).setLayoutAttrs inodeId inode)

section Specs

variable {s : MetaState}

theorem inodeAt_of_some {i : UInt64} {a : InodeAttrs} (h : s.inodes[i]? = some a) :
    s.inodeAt i = (.ok a, s) := by
  simp only [inodeAt, h]

theorem setInodeAt_of_some {i : UInt64} {a : InodeAttrs} (f : InodeAttrs → InodeAttrs)
    (h : s.inodes[i]? = some a) :
    s.setInodeAt i f = (.ok (), s.storeInode i (f a)) := by
  simp only [setInodeAt, inodeAt_of_some h, andThen_ok]

theorem touchInode_of_some {i : UInt64} {a : InodeAttrs} (nowNs : Int64)
    (h : s.inodes[i]? = some a) :
    s.touchInode i nowNs =
      (.ok (), (s.storeInode i (a.touched nowNs)).setLayoutAttrs i (a.touched nowNs)) := by
  simp only [touchInode, inodeAt_of_some h, andThen_ok]

/-- A parent that passes is a stored directory. -/
theorem validateParent_inode {p : UInt64} {n : Bytes} (h : s.validateParent p n = .ok ()) :
    ∃ a, s.inodes[p]? = some a ∧ a.type = .directory := by
  unfold validateParent at h
  split at h
  next => contradiction
  next =>
    split at h
    next => contradiction
    next a ha =>
      split at h
      next => contradiction
      next ht => exact ⟨a, ha, not_not.mp ht⟩

/-- A regular file is stored. -/
theorem validateRegularFile_inode {i : UInt64} (h : s.validateRegularFile i = .ok ()) :
    ∃ a, s.inodes[i]? = some a ∧ a.type = .file := by
  unfold validateRegularFile at h
  split at h
  next => contradiction
  next a ha =>
    split at h
    next => contradiction
    next ht => exact ⟨a, ha, not_not.mp ht⟩

/-- What passes the checks of `CommitWrite`, `AppendWrite` and `Truncate` has a layout to
get. -/
theorem getLayout_isOk {i : UInt64} {l : FileLayout} (hv : s.validateRegularFile i = .ok ())
    (hl : s.layouts[i]? = some l) : (s.getLayout i).isOk = true := by
  obtain ⟨a, ha, _⟩ := validateRegularFile_inode hv
  simp only [getLayout, hv, hl, inodeAt_of_some ha]
  rfl

end Specs

end MetaState

/-- The value of a command that succeeds. -/
inductive Reply where
  | attrs (attrs : InodeAttrs)
  | appended (result : AppendWriteStateResult)
  deriving DecidableEq

def MetaState.Result.map {α β : Type} (f : α → β) (r : MetaState.Result α) :
    MetaState.Result β := (r.1.map f, r.2)

/-- The call a command asks for, as the `switch` of `MetaService::Apply` makes it. -/
def MetaState.execute [OffsetSort] (clock : Clock) (s : MetaState) :
    Command → MetaState.Result Reply
  | .mkdir parentInodeId name mode uid gid =>
    (s.mkdir clock parentInodeId name mode uid gid).map .attrs
  | .createFile parentInodeId name mode uid gid =>
    (s.createFile clock parentInodeId name mode uid gid).map .attrs
  | .setAttr command => (s.setAttr clock command).map .attrs
  | .commitWrite inodeId baseVersion extents =>
    (s.commitWrite clock inodeId baseVersion extents).map .attrs
  | .appendWrite inodeId baseVersion extents =>
    (s.appendWrite clock inodeId baseVersion extents).map .appended
  | .truncate inodeId size => (s.truncate clock inodeId size).map .attrs
  | .unlink parentInodeId name => (s.unlink clock parentInodeId name).map .attrs
  | .rmdir parentInodeId name => (s.rmdir clock parentInodeId name).map .attrs
  | .rename oldParentInodeId oldName newParentInodeId newName =>
    (s.rename clock oldParentInodeId oldName newParentInodeId newName).map .attrs

/-- A call of the state machine with the clock it reads. -/
structure Call where
  clock : Clock
  command : Command

def MetaState.call [OffsetSort] (c : Call) (s : MetaState) : MetaState.Result Reply :=
  s.execute c.clock c.command

end Pulpfs
