import Pulpfs.Fuse.FileIo
import Pulpfs.Foundations.TreeMap

/-! `fuse/fuse_server.cc`: the requests that open, use and release files. The metadata client
and the object store are parameters over an environment that any of their calls may change. -/
namespace Pulpfs

/-- The calls of `MetaClient` these requests make. -/
structure MetaClient (σ : Type) where
  createFile : (parentInodeId : UInt64) → (name : Bytes) → (mode uid gid : UInt32) →
    σ → Except Error InodeAttrs × σ
  getAttr : (inodeId : UInt64) → σ → Except Error InodeAttrs × σ
  getLayout : (inodeId : UInt64) → σ → Except Error FileLayout × σ
  commitWrite : (inodeId baseVersion : UInt64) → List FileExtent →
    σ → Except Error InodeAttrs × σ
  appendWrite : (inodeId baseVersion : UInt64) → List FileExtent →
    σ → Except Error AppendWriteReply × σ
  truncate : (inodeId size : UInt64) → σ → Except Error InodeAttrs × σ

inductive Errno where
  | eagain
  | ebadf
  | eexist
  | einval
  | eio
  | eisdir
  | enoent
  | enotdir
  | enotempty
  | etimedout
  deriving DecidableEq, Repr

def toErrno (error : Error) : Errno :=
  match error.kind with
  | .invalidArgument => .einval
  | .notFound _ => .enoent
  | .alreadyExists _ => .eexist
  | .notDirectory _ => .enotdir
  | .isDirectory _ => .eisdir
  | .directoryNotEmpty _ => .enotempty
  | .timeout _ => .etimedout
  | .unavailable => .eagain
  | .notLeader _ => .eagain
  | .internal => .eio
  | .raftFailure => .eio

def kModeMask : UInt32 := 0o7777

/-- `S_IFDIR` and `S_IFREG`. -/
def fileTypeMode : InodeType → UInt32
  | .directory => 0o040000
  | .file => 0o100000
  | _ => 0

structure Timespec where
  tvSec : Int64
  tvNsec : Int64
  deriving DecidableEq, Repr

def timespecFromNs (ns : Int64) : Timespec := ⟨ns / 1000000000, ns % 1000000000⟩

structure Stat where
  ino : UInt64
  mode : UInt32
  nlink : UInt64
  uid : UInt32
  gid : UInt32
  size : Int64
  blksize : Int64
  blocks : Int64
  atim : Timespec
  mtim : Timespec
  ctim : Timespec
  deriving DecidableEq, Repr

def statFromAttrs (attrs : InodeAttrs) : Stat where
  ino := attrs.inodeId
  mode := fileTypeMode attrs.type ||| (attrs.mode &&& kModeMask)
  nlink := attrs.nlink
  uid := attrs.uid
  gid := attrs.gid
  size := attrs.size.toInt64
  blksize := 4096
  blocks := ((attrs.size + 511) / 512).toInt64
  atim := timespecFromNs attrs.atimeNs
  mtim := timespecFromNs attrs.mtimeNs
  ctim := timespecFromNs attrs.ctimeNs

/-- A `fuse_entry_param` without its generation and timeouts, which are always zero. -/
structure EntryParam where
  ino : UInt64
  attr : Stat
  deriving DecidableEq, Repr

def entryFromAttrs (attrs : InodeAttrs) : EntryParam := ⟨attrs.inodeId, statFromAttrs attrs⟩

/-- The fields of `fuse_file_info` that the requests read or set. -/
structure FuseFileInfo where
  flags : UInt32
  fh : UInt64 := 0
  directIo : Bool := false
  deriving DecidableEq, Repr

def oAccmode : UInt32 := 0o3
def oWronly : UInt32 := 0o1
def oRdwr : UInt32 := 0o2
def oTrunc : UInt32 := 0o1000
def oAppend : UInt32 := 0o2000

def isWritable (flags : UInt32) : Bool :=
  flags &&& oAccmode = oWronly || flags &&& oAccmode = oRdwr

/-- The reply to a request; `ok` is `fuse_reply_err` with 0. -/
inductive FuseReply where
  | ok
  | err (errno : Errno)
  | create (entry : EntryParam) (fi : FuseFileInfo)
  | open (fi : FuseFileInfo)
  | buf (data : Bytes)
  | write (size : UInt64)
  deriving DecidableEq, Repr

structure FuseServerConfig where
  bucket : Bytes
  objectPrefix : Bytes := ascii "pulpfs"
  deriving DecidableEq

/-- The members of `FuseServer` a request may change, with its configuration. -/
structure FuseServer where
  config : FuseServerConfig
  objectKeyGenerator : ObjectKeyGenerator
  parents : Std.ExtTreeMap UInt64 UInt64
  nextHandleId : UInt64
  handles : Std.ExtTreeMap UInt64 FuseFileHandle

namespace FuseServer

/-- The constructor; `writerId` is what `MakeWriterId` drew. -/
def fresh (config : FuseServerConfig) (writerId : Bytes) : FuseServer where
  config := config
  objectKeyGenerator := { writerId }
  parents := (∅ : Std.ExtTreeMap UInt64 UInt64).insertIfNew 1 1
  nextHandleId := 1
  handles := ∅

variable (server : FuseServer)

/-- The key of the next object. -/
def nextObjectKey (inodeId offset : UInt64) : Bytes :=
  (server.objectKeyGenerator.makeObjectKey server.config.objectPrefix inodeId offset).1

/-- `MakeObjectKey` has been called. -/
def countObjectKey (inodeId offset : UInt64) : FuseServer :=
  { server with
    objectKeyGenerator :=
      (server.objectKeyGenerator.makeObjectKey server.config.objectPrefix inodeId offset).2 }

def rememberParent (inodeId parentInodeId : UInt64) : FuseServer :=
  { server with parents := server.parents.insert inodeId parentInodeId }

def allocateFileHandle (handle : FuseFileHandle) : UInt64 × FuseServer :=
  (server.nextHandleId,
    { server with
      nextHandleId := server.nextHandleId + 1
      handles := server.handles.insert server.nextHandleId handle })

def getFileHandle (handleId : UInt64) : Option FuseFileHandle := server.handles[handleId]?

/-- The handle the shared pointer under `handleId` points to has changed. -/
def setFileHandle (handleId : UInt64) (handle : FuseFileHandle) : FuseServer :=
  { server with handles := server.handles.insert handleId handle }

def releaseFileHandle (handleId : UInt64) : FuseServer :=
  { server with handles := server.handles.erase handleId }

end FuseServer

/-- What the server talks to; there is no object store without an S3 endpoint. -/
structure Backend (σ : Type) where
  metaClient : MetaClient σ
  objectStore : Option (ObjectStore σ)

/-- A server and its environment. -/
structure Mount (σ : Type) where
  server : FuseServer
  world : σ

variable {σ : Type}

section Commit

variable (client : MetaClient σ)

/-- The layout is fetched again; a failure leaves the cached one. -/
def refreshLayout (handle : FuseFileHandle) (w : σ) : FuseFileHandle × σ :=
  match client.getLayout handle.inodeId w with
  | (.ok layout, w) => ({ handle with layout }, w)
  | (.error _, w) => (handle, w)

/-- The first half of `CommitHandle`. -/
def commitExtents (handle : FuseFileHandle) (w : σ) : Except Error Unit × FuseFileHandle × σ :=
  if handle.pendingExtents.isEmpty then (.ok (), handle, w)
  else
    match client.commitWrite handle.inodeId handle.layout.attrs.version handle.pendingExtents w
      with
    | (.error e, w) => (.error e, handle, w)
    | (.ok _, w) => (.ok (), refreshLayout client { handle with pendingExtents := [] } w)

/-- The second half. -/
def commitAppends (handle : FuseFileHandle) (w : σ) : Except Error Unit × FuseFileHandle × σ :=
  if handle.pendingAppendExtents.isEmpty then (.ok (), handle, w)
  else
    match client.appendWrite handle.inodeId handle.layout.attrs.version
      handle.pendingAppendExtents w with
    | (.error e, w) => (.error e, handle, w)
    | (.ok _, w) =>
      (.ok (), refreshLayout client
        { handle with pendingAppendExtents := [], pendingAppendLength := 0 } w)

def commitHandle (handle : FuseFileHandle) (w : σ) : Except Error Unit × FuseFileHandle × σ :=
  match commitExtents client handle w with
  | (.error e, handle, w) => (.error e, handle, w)
  | (.ok _, handle, w) => commitAppends client handle w

end Commit

/-- What `PulpfsWrite` uploads and the extent it makes of it. -/
def putExtent (objectStore : ObjectStore σ) (bucket objectKey buf : Bytes) (writeOffset : UInt64)
    (w : σ) : Except Error FileExtent × σ :=
  match objectStore.putObject ⟨bucket, objectKey, buf⟩ w with
  | (.error e, w) => (.error e, w)
  | (.ok put, w) =>
    (.ok
      { offset := writeOffset, length := UInt64.ofNat buf.length, objectKey, etag := put.etag,
        objectSize := put.size, objectOffset := 0 }, w)

/-- What `PulpfsWrite` does to the handle. -/
def FuseFileHandle.queue (handle : FuseFileHandle) (extent : FileExtent) : FuseFileHandle :=
  if handle.append then
    { handle with
      pendingAppendLength := handle.pendingAppendLength + extent.length
      pendingAppendExtents := handle.pendingAppendExtents ++ [extent] }
  else { handle with pendingExtents := handle.pendingExtents ++ [extent] }

/-- The layout `PulpfsOpen` starts a handle from. -/
def openLayout (client : MetaClient σ) (ino : UInt64) (flags : UInt32) (w : σ) :
    Except Errno FileLayout × σ :=
  match client.getLayout ino w with
  | (.error e, w) => (.error (toErrno e), w)
  | (.ok layout, w) =>
    if layout.attrs.type ≠ .file then (.error .eisdir, w)
    else if isWritable flags && flags &&& oTrunc ≠ 0 then
      match client.truncate ino 0 w with
      | (.error e, w) => (.error (toErrno e), w)
      | (.ok _, w) =>
        match client.getLayout ino w with
        | (.error e, w) => (.error (toErrno e), w)
        | (.ok layout, w) => (.ok layout, w)
    else (.ok layout, w)

namespace Mount

variable (b : Backend σ) (m : Mount σ)

/-- `fuse_reply_err(req, result ? 0 : ToErrno(result.error()))`. -/
def replyOf : Except Error Unit → FuseReply
  | .ok _ => .ok
  | .error e => .err (toErrno e)

def pulpfsCreate (parent : UInt64) (name : Bytes) (mode uid gid : UInt32) (fi : FuseFileInfo) :
    FuseReply × Mount σ :=
  match b.metaClient.createFile parent name (mode &&& kModeMask) uid gid m.world with
  | (.error e, w) => (.err (toErrno e), { m with world := w })
  | (.ok attrs, w) =>
    let server := m.server.rememberParent attrs.inodeId parent
    let handle : FuseFileHandle :=
      { inodeId := attrs.inodeId, writable := isWritable fi.flags
        append := fi.flags &&& oAppend ≠ 0 }
    let refreshed := refreshLayout b.metaClient handle w
    let allocated := server.allocateFileHandle refreshed.1
    (.create (entryFromAttrs attrs) { fi with fh := allocated.1, directIo := true },
      ⟨allocated.2, refreshed.2⟩)

def pulpfsOpen (ino : UInt64) (fi : FuseFileInfo) : FuseReply × Mount σ :=
  match openLayout b.metaClient ino fi.flags m.world with
  | (.error errno, w) => (.err errno, { m with world := w })
  | (.ok layout, w) =>
    let handle : FuseFileHandle :=
      { inodeId := ino, writable := isWritable fi.flags, append := fi.flags &&& oAppend ≠ 0,
        layout }
    let allocated := m.server.allocateFileHandle handle
    (.open { fi with fh := allocated.1, directIo := true }, ⟨allocated.2, w⟩)

def pulpfsOpenDir (ino : UInt64) (fi : FuseFileInfo) : FuseReply × Mount σ :=
  match b.metaClient.getAttr ino m.world with
  | (.error e, w) => (.err (toErrno e), { m with world := w })
  | (.ok attrs, w) =>
    if attrs.type ≠ .directory then (.err .enotdir, { m with world := w })
    else (.open { fi with fh := ino }, { m with world := w })

def pulpfsRead (_ino size : UInt64) (off : Int64) (fi : FuseFileInfo) : FuseReply × Mount σ :=
  match m.server.getFileHandle fi.fh with
  | none => (.err .ebadf, m)
  | some handle =>
    match b.objectStore with
    | none => (.err .eio, m)
    | some objectStore =>
      match readFromHandle objectStore m.server.config.bucket handle size off m.world with
      | (.error e, w) => (.err (toErrno e), { m with world := w })
      | (.ok data, w) => (.buf data, { m with world := w })

def pulpfsWrite (ino : UInt64) (buf : Bytes) (off : Int64) (fi : FuseFileInfo) :
    FuseReply × Mount σ :=
  match m.server.getFileHandle fi.fh with
  | none => (.err .ebadf, m)
  | some handle =>
    if !handle.writable then (.err .ebadf, m)
    else
      match b.objectStore with
      | none => (.err .eio, m)
      | some objectStore =>
        if m.server.config.bucket.isEmpty then (.err .eio, m)
        else
          let writeOffset :=
            if handle.append then handle.pendingAppendLength else off.toUInt64
          let objectKey := m.server.nextObjectKey ino writeOffset
          let server := m.server.countObjectKey ino writeOffset
          match putExtent objectStore m.server.config.bucket objectKey buf writeOffset m.world with
          | (.error e, w) => (.err (toErrno e), ⟨server, w⟩)
          | (.ok extent, w) =>
            (.write extent.length, ⟨server.setFileHandle fi.fh (handle.queue extent), w⟩)

/-- `CommitHandle` on the handle under a handle id, if there is one. -/
def commit (handleId : UInt64) : Except Error Unit × Mount σ :=
  match m.server.getFileHandle handleId with
  | none => (.ok (), m)
  | some handle =>
    let result := commitHandle b.metaClient handle m.world
    (result.1, ⟨m.server.setFileHandle handleId result.2.1, result.2.2⟩)

def pulpfsFlush (_ino : UInt64) (fi : FuseFileInfo) : FuseReply × Mount σ :=
  let result := m.commit b fi.fh
  (replyOf result.1, result.2)

def pulpfsFsync (_ino : UInt64) (_datasync : Int32) (fi : FuseFileInfo) : FuseReply × Mount σ :=
  let result := m.commit b fi.fh
  (replyOf result.1, result.2)

def pulpfsRelease (_ino : UInt64) (fi : FuseFileInfo) : FuseReply × Mount σ :=
  let result := m.commit b fi.fh
  (replyOf result.1, { result.2 with server := result.2.server.releaseFileHandle fi.fh })

end Mount

/-- A request with the arguments the kernel passes. -/
inductive Request where
  | create (parent : UInt64) (name : Bytes) (mode uid gid : UInt32) (fi : FuseFileInfo)
  | open (ino : UInt64) (fi : FuseFileInfo)
  | opendir (ino : UInt64) (fi : FuseFileInfo)
  | read (ino size : UInt64) (off : Int64) (fi : FuseFileInfo)
  | write (ino : UInt64) (buf : Bytes) (off : Int64) (fi : FuseFileInfo)
  | flush (ino : UInt64) (fi : FuseFileInfo)
  | fsync (ino : UInt64) (datasync : Int32) (fi : FuseFileInfo)
  | release (ino : UInt64) (fi : FuseFileInfo)
  | releasedir (ino : UInt64) (fi : FuseFileInfo)
  deriving DecidableEq

/-- The callback `MakeOps` enters for a request; a directory is released like a file. -/
def Mount.serve (b : Backend σ) (m : Mount σ) : Request → FuseReply × Mount σ
  | .create parent name mode uid gid fi => m.pulpfsCreate b parent name mode uid gid fi
  | .open ino fi => m.pulpfsOpen b ino fi
  | .opendir ino fi => m.pulpfsOpenDir b ino fi
  | .read ino size off fi => m.pulpfsRead b ino size off fi
  | .write ino buf off fi => m.pulpfsWrite b ino buf off fi
  | .flush ino fi => m.pulpfsFlush b ino fi
  | .fsync ino datasync fi => m.pulpfsFsync b ino datasync fi
  | .release ino fi => m.pulpfsRelease b ino fi
  | .releasedir ino fi => m.pulpfsRelease b ino fi

namespace FuseServer

variable {server : FuseServer} {id id' : UInt64} (h h' : FuseFileHandle)

theorem getFileHandle_setFileHandle_self :
    (server.setFileHandle id h).getFileHandle id = some h := by
  simp [getFileHandle, setFileHandle]

theorem getFileHandle_allocateFileHandle :
    (server.allocateFileHandle h).2.getFileHandle (server.allocateFileHandle h).1 = some h := by
  simp [getFileHandle, allocateFileHandle]

theorem getFileHandle_setFileHandle (hne : id' ≠ id) :
    (server.setFileHandle id h).getFileHandle id' = server.getFileHandle id' := by
  have hget := congrFun (TreeMap.get_insert server.handles id h) id'
  rwa [Function.update_of_ne hne] at hget

theorem setFileHandle_comm (hne : id' ≠ id) :
    (server.setFileHandle id h).setFileHandle id' h' =
      (server.setFileHandle id' h').setFileHandle id h := by
  simp only [setFileHandle, TreeMap.insert_comm _ hne.symm]

theorem releaseFileHandle_comm (hne : id' ≠ id) :
    (server.setFileHandle id h).releaseFileHandle id' =
      (server.releaseFileHandle id').setFileHandle id h := by
  simp only [setFileHandle, releaseFileHandle, TreeMap.erase_insert_comm _ hne.symm]

theorem setFileHandle_self {h : FuseFileHandle} (hget : server.getFileHandle id = some h) :
    server.setFileHandle id h = server := by
  simp only [setFileHandle, TreeMap.insert_of_some hget]

theorem allocateFileHandle_setFileHandle (hne : server.nextHandleId ≠ id) :
    (server.setFileHandle id h).allocateFileHandle h' =
      ((server.allocateFileHandle h').1,
        (server.allocateFileHandle h').2.setFileHandle id h) := by
  simp only [allocateFileHandle, setFileHandle, TreeMap.insert_comm _ hne.symm]

end FuseServer

/-- A commit works on the handle it finds. -/
theorem Mount.commit_of_get {b : Backend σ} {m : Mount σ} {id : UInt64} {h : FuseFileHandle}
    (hget : m.server.getFileHandle id = some h) :
    m.commit b id = ((commitHandle b.metaClient h m.world).1,
      ⟨m.server.setFileHandle id (commitHandle b.metaClient h m.world).2.1,
        (commitHandle b.metaClient h m.world).2.2⟩) := by
  simp only [commit, hget]

end Pulpfs
