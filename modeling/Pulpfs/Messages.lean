import Pulpfs.Errors

/-! The messages of `pulpfs.proto`. A field that was never set reads as its default, so a
message is a structure with defaults; a `oneof` is an option. -/
namespace Pulpfs

/-- proto3 enums are open: a decoded message may hold a number without a name. -/
inductive InodeType where
  | unspecified
  | file
  | directory
  | other (value : Int32)
  deriving DecidableEq, Repr

structure InodeAttrs where
  inodeId : UInt64 := 0
  type : InodeType := .unspecified
  mode : UInt32 := 0
  uid : UInt32 := 0
  gid : UInt32 := 0
  size : UInt64 := 0
  nlink : UInt64 := 0
  version : UInt64 := 0
  atimeNs : Int64 := 0
  mtimeNs : Int64 := 0
  ctimeNs : Int64 := 0
  chunkSize : UInt64 := 0
  deriving DecidableEq, Repr

structure DirectoryEntry where
  name : Bytes := []
  attrs : InodeAttrs := {}
  deriving DecidableEq, Repr

structure FileExtent where
  offset : UInt64 := 0
  length : UInt64 := 0
  objectKey : Bytes := []
  etag : Bytes := []
  checksum : Bytes := []
  objectSize : UInt64 := 0
  objectOffset : UInt64 := 0
  deriving DecidableEq, Repr

structure FileLayout where
  attrs : InodeAttrs := {}
  chunkSize : UInt64 := 0
  extents : List FileExtent := []
  deriving DecidableEq, Repr

/-- `SetAttrRequest` has the same fields. -/
structure SetAttrCommand where
  inodeId : UInt64 := 0
  setMode : Bool := false
  mode : UInt32 := 0
  setUid : Bool := false
  uid : UInt32 := 0
  setGid : Bool := false
  gid : UInt32 := 0
  setAtime : Bool := false
  atimeNs : Int64 := 0
  setMtime : Bool := false
  mtimeNs : Int64 := 0
  deriving DecidableEq, Repr

/-- The alternatives of the `oneof` of `RaftCommand`, each with the fields of its message. -/
inductive Command where
  | mkdir (parentInodeId : UInt64) (name : Bytes) (mode uid gid : UInt32)
  | createFile (parentInodeId : UInt64) (name : Bytes) (mode uid gid : UInt32)
  | commitWrite (inodeId baseVersion : UInt64) (extents : List FileExtent)
  | truncate (inodeId size : UInt64)
  | unlink (parentInodeId : UInt64) (name : Bytes)
  | rmdir (parentInodeId : UInt64) (name : Bytes)
  | rename (oldParentInodeId : UInt64) (oldName : Bytes) (newParentInodeId : UInt64)
      (newName : Bytes)
  | setAttr (command : SetAttrCommand)
  | appendWrite (inodeId baseVersion : UInt64) (extents : List FileExtent)
  deriving DecidableEq, Repr

structure RaftCommand where
  command : Option Command := none
  deriving DecidableEq, Repr

structure ErrorResponse where
  kind : Bytes := []
  message : Bytes := []
  path : Bytes := []
  deriving DecidableEq, Repr

structure AppendWriteReply where
  attrs : InodeAttrs := {}
  appendStart : UInt64 := 0
  committedExtents : List FileExtent := []
  deriving DecidableEq, Repr

/-- The alternatives of the `oneof` of `RaftCommandResponse`. -/
inductive Response where
  | attrs (attrs : InodeAttrs)
  | error (error : ErrorResponse)
  | appendWrite (reply : AppendWriteReply)
  deriving DecidableEq, Repr

structure RaftCommandResponse where
  response : Option Response := none
  deriving DecidableEq, Repr

structure SnapshotLayout where
  inodeId : UInt64 := 0
  layout : FileLayout := {}
  deriving DecidableEq, Repr

structure SnapshotDentry where
  parentInodeId : UInt64 := 0
  name : Bytes := []
  childInodeId : UInt64 := 0
  deriving DecidableEq, Repr

structure MetaSnapshot where
  nextInodeId : UInt64 := 0
  defaultChunkSize : UInt64 := 0
  inodes : List InodeAttrs := []
  dentries : List SnapshotDentry := []
  layouts : List SnapshotLayout := []
  deriving DecidableEq, Repr

end Pulpfs
