import Pulpfs.Meta.State

/-! `SerializeSnapshot` and `RestoreSnapshot`. How a message becomes bytes is the business of
the protobuf library, which stands as a parameter. -/
namespace Pulpfs

/-- `SerializeAsString` and `ParseFromString` of one message type. -/
structure Codec (M : Type) where
  serialize : M → Bytes
  parse : Bytes → Option M

/-- The message is parsed as what was serialized. -/
def Codec.Keeps {M : Type} (codec : Codec M) (message : M) : Prop :=
  codec.parse (codec.serialize message) = some message

namespace Wire

/-- A base 128 varint; ten bytes hold every 64-bit value. -/
def varint : ℕ → ℕ → Bytes
  | 0, _ => []
  | fuel + 1, n =>
    if n < 128 then [UInt8.ofNat n] else UInt8.ofNat (n % 128 + 128) :: varint fuel (n / 128)

/-- A numeric field; the default is left out. -/
def number (field value : ℕ) : Bytes :=
  if value = 0 then [] else varint 10 (8 * field) ++ varint 10 value

def message (field : ℕ) (body : Bytes) : Bytes :=
  varint 10 (8 * field + 2) ++ varint 10 body.length ++ body

def string (field : ℕ) (value : Bytes) : Bytes :=
  if value.isEmpty then [] else message field value

def inodeType : InodeType → ℕ
  | .unspecified => 0
  | .file => 1
  | .directory => 2
  | .other value => value.toInt64.toUInt64.toNat

def inodeAttrs (a : InodeAttrs) : Bytes :=
  number 1 a.inodeId.toNat ++ number 2 (inodeType a.type) ++ number 3 a.mode.toNat ++
    number 4 a.uid.toNat ++ number 5 a.gid.toNat ++ number 6 a.size.toNat ++
    number 7 a.nlink.toNat ++ number 8 a.version.toNat ++ number 9 a.atimeNs.toUInt64.toNat ++
    number 10 a.mtimeNs.toUInt64.toNat ++ number 11 a.ctimeNs.toUInt64.toNat ++
    number 12 a.chunkSize.toNat

def fileExtent (e : FileExtent) : Bytes :=
  number 1 e.offset.toNat ++ number 2 e.length.toNat ++ string 3 e.objectKey ++
    string 4 e.etag ++ string 5 e.checksum ++ number 6 e.objectSize.toNat ++
    number 7 e.objectOffset.toNat

def fileLayout (l : FileLayout) : Bytes :=
  message 1 (inodeAttrs l.attrs) ++ number 2 l.chunkSize.toNat ++
    l.extents.flatMap fun e => message 3 (fileExtent e)

/-- The bytes of a snapshot on the wire. -/
def metaSnapshot (m : MetaSnapshot) : Bytes :=
  number 1 m.nextInodeId.toNat ++ number 2 m.defaultChunkSize.toNat ++
    (m.inodes.flatMap fun a => message 3 (inodeAttrs a)) ++
    (m.dentries.flatMap fun d => message 4
      (number 1 d.parentInodeId.toNat ++ string 2 d.name ++ number 3 d.childInodeId.toNat)) ++
    m.layouts.flatMap fun l => message 5
      (number 1 l.inodeId.toNat ++ message 2 (fileLayout l.layout))

/-- The codec as far as the bytes of one message go. -/
def codecOf (m : MetaSnapshot) : Codec MetaSnapshot where
  serialize := metaSnapshot
  parse data := if data = metaSnapshot m then some m else none

theorem parse_codecOf (m : MetaSnapshot) : (codecOf m).parse (metaSnapshot m) = some m :=
  if_pos rfl

end Wire

namespace MetaState

variable (s : MetaState)

/-- The message `SerializeSnapshot` fills. -/
def snapshotMessage : MetaSnapshot where
  nextInodeId := s.nextInodeId
  defaultChunkSize := s.defaultChunkSize
  inodes := s.inodes.toList.map fun e => e.2
  dentries := s.dentries.toList.map fun e =>
    { parentInodeId := e.1.1, name := e.1.2, childInodeId := e.2 }
  layouts := s.layouts.toList.map fun e => { inodeId := e.1, layout := e.2 }

def serializeSnapshot (codec : Codec MetaSnapshot) : Bytes :=
  codec.serialize s.snapshotMessage

def emplaceInodes (inodes : List InodeAttrs) : Std.ExtTreeMap UInt64 InodeAttrs :=
  inodes.foldl (fun m inode => m.insertIfNew inode.inodeId inode) ∅

def emplaceDentries (dentries : List SnapshotDentry) :
    Std.ExtTreeMap DentryKey UInt64 dentryOrder :=
  dentries.foldl (fun m d => m.insertIfNew (d.parentInodeId, d.name) d.childInodeId) ∅

def emplaceLayouts (layouts : List SnapshotLayout) : Std.ExtTreeMap UInt64 FileLayout :=
  layouts.foldl (fun m l => m.insertIfNew l.inodeId l.layout) ∅

/-- `RestoreSnapshot` on a parsed message. The loops stop at the first dangling dentry or
layout; the maps they fill are local. -/
def restoreMessage (snapshot : MetaSnapshot) : MetaState.Result Unit :=
  let inodes := emplaceInodes snapshot.inodes
  if kRootInodeId ∉ inodes then
    (.error (makeError .invalidArgument "metadata snapshot has no root inode"), s)
  else if snapshot.dentries.any fun d => d.parentInodeId ∉ inodes ∨ d.childInodeId ∉ inodes then
    (.error (makeError .invalidArgument "metadata snapshot has dangling dentry"), s)
  else if snapshot.layouts.any fun l => l.inodeId ∉ inodes then
    (.error (makeError .invalidArgument "metadata snapshot has dangling layout"), s)
  else
    (.ok (),
      { nextInodeId := snapshot.nextInodeId
        defaultChunkSize := snapshot.defaultChunkSize
        inodes
        dentries := emplaceDentries snapshot.dentries
        layouts := emplaceLayouts snapshot.layouts })

def restoreSnapshot (codec : Codec MetaSnapshot) (data : Bytes) : MetaState.Result Unit :=
  match codec.parse data with
  | none => (.error (makeError .invalidArgument "failed to parse metadata snapshot"), s)
  | some snapshot => s.restoreMessage snapshot

end MetaState

end Pulpfs
