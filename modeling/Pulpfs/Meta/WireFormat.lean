import Pulpfs.Foundations.ProtoWire
import Pulpfs.Meta.Snapshot

/-! The messages of `pulpfs.proto` that go through raft and into snapshots, on the wire. A schema
is the list of the fields of a message with their numbers. `isText` stands for the check that a
text is UTF-8, which parsing makes. Results about the service take the codecs as parameters; the
ones here show that what is asked of these can be had. -/
namespace Pulpfs
open ProtoWire

namespace Wire

variable {M : Type} (number : ℕ) [NeZero number]

/-- A number is cut to the width of its field when it is read. -/
def uint64 (get : M → UInt64) (set : UInt64 → M → M) : Slot M :=
  .scalar number (fun m => (get m).toNat) fun n => set (UInt64.ofNat n)

def uint32 (get : M → UInt32) (set : UInt32 → M → M) : Slot M :=
  .scalar number (fun m => (get m).toNat) fun n => set (UInt32.ofNat n)

def int64 (get : M → Int64) (set : Int64 → M → M) : Slot M :=
  .scalar number (fun m => (get m).toUInt64.toNat) fun n => set (UInt64.ofNat n).toInt64

def bool (get : M → Bool) (set : Bool → M → M) : Slot M :=
  .scalar number (fun m => if get m then 1 else 0) fun n => set (UInt64.ofNat n ≠ 0)

/-- The value of an `InodeType` that a number stands for. -/
def toInodeType (n : ℕ) : InodeType :=
  match (UInt64.ofNat n).toInt64.toInt32 with
  | 0 => .unspecified
  | 1 => .file
  | 2 => .directory
  | value => .other value

end Wire

open Wire

def InodeAttrs.schema : Schema InodeAttrs :=
  [uint64 1 (·.inodeId) fun v a => { a with inodeId := v },
    .scalar 2 (fun a => Wire.inodeType a.type) fun n a => { a with type := toInodeType n },
    uint32 3 (·.mode) fun v a => { a with mode := v },
    uint32 4 (·.uid) fun v a => { a with uid := v },
    uint32 5 (·.gid) fun v a => { a with gid := v },
    uint64 6 (·.size) fun v a => { a with size := v },
    uint64 7 (·.nlink) fun v a => { a with nlink := v },
    uint64 8 (·.version) fun v a => { a with version := v },
    int64 9 (·.atimeNs) fun v a => { a with atimeNs := v },
    int64 10 (·.mtimeNs) fun v a => { a with mtimeNs := v },
    int64 11 (·.ctimeNs) fun v a => { a with ctimeNs := v },
    uint64 12 (·.chunkSize) fun v a => { a with chunkSize := v }]

/-- A type with a name is not held as a number. -/
def InodeType.Canonical : InodeType → Prop
  | .other value => value ≠ 0 ∧ value ≠ 1 ∧ value ≠ 2
  | _ => True

theorem Wire.toInodeType_inodeType {t : InodeType} (h : t.Canonical) :
    toInodeType (Wire.inodeType t) = t := by
  cases t with
  | unspecified => rfl
  | file => rfl
  | directory => rfl
  | other value =>
    have hvalue : (UInt64.ofNat value.toInt64.toUInt64.toNat).toInt64.toInt32 = value := by
      simp
    unfold toInodeType Wire.inodeType
    dsimp only
    rw [hvalue]
    split
    · exact absurd rfl h.1
    · exact absurd rfl h.2.1
    · exact absurd rfl h.2.2
    · rfl

theorem InodeAttrs.mergeFrom_serialize {a : InodeAttrs} (h : a.type.Canonical) :
    schema.mergeFrom {} (schema.serialize a) = some a := by
  refine Schema.mergeFrom_serialize (by decide) (Schema.Fills.of_eq
    (.cons (Slot.scalar_fold rfl) <| .cons (Slot.scalar_fold rfl) <|
    .cons (Slot.scalar_fold rfl) <| .cons (Slot.scalar_fold rfl) <|
    .cons (Slot.scalar_fold rfl) <| .cons (Slot.scalar_fold rfl) <|
    .cons (Slot.scalar_fold rfl) <| .cons (Slot.scalar_fold rfl) <|
    .cons (Slot.scalar_fold rfl) <| .cons (Slot.scalar_fold rfl) <|
    .cons (Slot.scalar_fold rfl) <| .cons (Slot.scalar_fold rfl) <| .nil _) ?_)
  simp [toInodeType_inodeType h]

def FileExtent.schema : Schema FileExtent :=
  [uint64 1 (·.offset) fun v e => { e with offset := v },
    uint64 2 (·.length) fun v e => { e with length := v },
    .text 3 (·.objectKey) fun v e => { e with objectKey := v },
    .text 4 (·.etag) fun v e => { e with etag := v },
    .text 5 (·.checksum) fun v e => { e with checksum := v },
    uint64 6 (·.objectSize) fun v e => { e with objectSize := v },
    uint64 7 (·.objectOffset) fun v e => { e with objectOffset := v }]

def FileLayout.schema : Schema FileLayout :=
  [.message 1 InodeAttrs.schema (·.attrs) fun v l => { l with attrs := v },
    uint64 2 (·.chunkSize) fun v l => { l with chunkSize := v },
    .messages 3 (FileExtent.schema) {} (·.extents)
      fun v l => { l with extents := v }]

/-- The bodies of the commands that make a node, and of those that remove one. -/
structure NodeCommand where
  parentInodeId : UInt64 := 0
  name : Bytes := []
  mode : UInt32 := 0
  uid : UInt32 := 0
  gid : UInt32 := 0

structure EntryCommand where
  parentInodeId : UInt64 := 0
  name : Bytes := []

structure RenameCommand where
  oldParentInodeId : UInt64 := 0
  oldName : Bytes := []
  newParentInodeId : UInt64 := 0
  newName : Bytes := []

/-- The body of the two commands that write. -/
structure WriteCommand where
  inodeId : UInt64 := 0
  baseVersion : UInt64 := 0
  extents : List FileExtent := []

structure TruncateCommand where
  inodeId : UInt64 := 0
  size : UInt64 := 0

def NodeCommand.schema : Schema NodeCommand :=
  [uint64 1 (·.parentInodeId) fun v c => { c with parentInodeId := v },
    .text 2 (·.name) fun v c => { c with name := v },
    uint32 3 (·.mode) fun v c => { c with mode := v },
    uint32 4 (·.uid) fun v c => { c with uid := v },
    uint32 5 (·.gid) fun v c => { c with gid := v }]

def EntryCommand.schema : Schema EntryCommand :=
  [uint64 1 (·.parentInodeId) fun v c => { c with parentInodeId := v },
    .text 2 (·.name) fun v c => { c with name := v }]

def RenameCommand.schema : Schema RenameCommand :=
  [uint64 1 (·.oldParentInodeId) fun v c => { c with oldParentInodeId := v },
    .text 2 (·.oldName) fun v c => { c with oldName := v },
    uint64 3 (·.newParentInodeId) fun v c => { c with newParentInodeId := v },
    .text 4 (·.newName) fun v c => { c with newName := v }]

def WriteCommand.schema : Schema WriteCommand :=
  [uint64 1 (·.inodeId) fun v c => { c with inodeId := v },
    uint64 2 (·.baseVersion) fun v c => { c with baseVersion := v },
    .messages 3 (FileExtent.schema) {} (·.extents)
      fun v c => { c with extents := v }]

def TruncateCommand.schema : Schema TruncateCommand :=
  [uint64 1 (·.inodeId) fun v c => { c with inodeId := v },
    uint64 2 (·.size) fun v c => { c with size := v }]

def SetAttrCommand.schema : Schema SetAttrCommand :=
  [uint64 1 (·.inodeId) fun v c => { c with inodeId := v },
    bool 2 (·.setMode) fun v c => { c with setMode := v },
    uint32 3 (·.mode) fun v c => { c with mode := v },
    bool 4 (·.setUid) fun v c => { c with setUid := v },
    uint32 5 (·.uid) fun v c => { c with uid := v },
    bool 6 (·.setGid) fun v c => { c with setGid := v },
    uint32 7 (·.gid) fun v c => { c with gid := v },
    bool 8 (·.setAtime) fun v c => { c with setAtime := v },
    int64 9 (·.atimeNs) fun v c => { c with atimeNs := v },
    bool 10 (·.setMtime) fun v c => { c with setMtime := v },
    int64 11 (·.mtimeNs) fun v c => { c with mtimeNs := v }]

def RaftCommand.schema : Schema RaftCommand :=
  [.alternative 1 (NodeCommand.schema) {}
      (fun
        | ⟨some (.mkdir parentInodeId name mode uid gid)⟩ =>
          some { parentInodeId, name, mode, uid, gid }
        | _ => none)
      fun v _ => ⟨some (.mkdir v.parentInodeId v.name v.mode v.uid v.gid)⟩,
    .alternative 2 (NodeCommand.schema) {}
      (fun
        | ⟨some (.createFile parentInodeId name mode uid gid)⟩ =>
          some { parentInodeId, name, mode, uid, gid }
        | _ => none)
      fun v _ => ⟨some (.createFile v.parentInodeId v.name v.mode v.uid v.gid)⟩,
    .alternative 3 (WriteCommand.schema) {}
      (fun
        | ⟨some (.commitWrite inodeId baseVersion extents)⟩ =>
          some { inodeId, baseVersion, extents }
        | _ => none)
      fun v _ => ⟨some (.commitWrite v.inodeId v.baseVersion v.extents)⟩,
    .alternative 4 TruncateCommand.schema {}
      (fun
        | ⟨some (.truncate inodeId size)⟩ => some { inodeId, size }
        | _ => none)
      fun v _ => ⟨some (.truncate v.inodeId v.size)⟩,
    .alternative 5 (EntryCommand.schema) {}
      (fun
        | ⟨some (.unlink parentInodeId name)⟩ => some { parentInodeId, name }
        | _ => none)
      fun v _ => ⟨some (.unlink v.parentInodeId v.name)⟩,
    .alternative 6 (EntryCommand.schema) {}
      (fun
        | ⟨some (.rmdir parentInodeId name)⟩ => some { parentInodeId, name }
        | _ => none)
      fun v _ => ⟨some (.rmdir v.parentInodeId v.name)⟩,
    .alternative 7 (RenameCommand.schema) {}
      (fun
        | ⟨some (.rename oldParentInodeId oldName newParentInodeId newName)⟩ =>
          some { oldParentInodeId, oldName, newParentInodeId, newName }
        | _ => none)
      fun v _ => ⟨some (.rename v.oldParentInodeId v.oldName v.newParentInodeId v.newName)⟩,
    .alternative 8 SetAttrCommand.schema {}
      (fun
        | ⟨some (.setAttr command)⟩ => some command
        | _ => none)
      fun v _ => ⟨some (.setAttr v)⟩,
    .alternative 9 (WriteCommand.schema) {}
      (fun
        | ⟨some (.appendWrite inodeId baseVersion extents)⟩ =>
          some { inodeId, baseVersion, extents }
        | _ => none)
      fun v _ => ⟨some (.appendWrite v.inodeId v.baseVersion v.extents)⟩]

def ErrorResponse.schema : Schema ErrorResponse :=
  [.text 1 (·.kind) fun v e => { e with kind := v },
    .text 2 (·.message) fun v e => { e with message := v },
    .text 3 (·.path) fun v e => { e with path := v }]

def AppendWriteReply.schema : Schema AppendWriteReply :=
  [.message 1 InodeAttrs.schema (·.attrs) fun v r => { r with attrs := v },
    uint64 2 (·.appendStart) fun v r => { r with appendStart := v },
    .messages 3 (FileExtent.schema) {} (·.committedExtents)
      fun v r => { r with committedExtents := v }]

def RaftCommandResponse.schema : Schema RaftCommandResponse :=
  [.alternative 1 InodeAttrs.schema {}
      (fun
        | ⟨some (.attrs attrs)⟩ => some attrs
        | _ => none)
      fun v _ => ⟨some (.attrs v)⟩,
    .alternative 2 (ErrorResponse.schema) {}
      (fun
        | ⟨some (.error error)⟩ => some error
        | _ => none)
      fun v _ => ⟨some (.error v)⟩,
    .alternative 3 (AppendWriteReply.schema) {}
      (fun
        | ⟨some (.appendWrite reply)⟩ => some reply
        | _ => none)
      fun v _ => ⟨some (.appendWrite v)⟩]

def SnapshotLayout.schema : Schema SnapshotLayout :=
  [uint64 1 (·.inodeId) fun v l => { l with inodeId := v },
    .message 2 (FileLayout.schema) (·.layout) fun v l => { l with layout := v }]

def SnapshotDentry.schema : Schema SnapshotDentry :=
  [uint64 1 (·.parentInodeId) fun v d => { d with parentInodeId := v },
    .text 2 (·.name) fun v d => { d with name := v },
    uint64 3 (·.childInodeId) fun v d => { d with childInodeId := v }]

def MetaSnapshot.schema : Schema MetaSnapshot :=
  [uint64 1 (·.nextInodeId) fun v m => { m with nextInodeId := v },
    uint64 2 (·.defaultChunkSize) fun v m => { m with defaultChunkSize := v },
    .messages 3 InodeAttrs.schema {} (·.inodes)
      fun v m => { m with inodes := v },
    .messages 4 (SnapshotDentry.schema) {} (·.dentries)
      fun v m => { m with dentries := v },
    .messages 5 (SnapshotLayout.schema) {} (·.layouts)
      fun v m => { m with layouts := v }]

namespace Wire

variable {M : Type} (schema : Schema M)

def byteSize (m : M) : ℕ := (schema.serialize m).length

/-- The codec of a message type with a schema. A message of 2 GiB or more is not written, and so
much data is not read. -/
def codec (empty : M) : Codec M where
  serialize m := if byteSize schema m < 2 ^ 31 then schema.serialize m else []
  parse data := if data.length < 2 ^ 31 then schema.mergeFrom empty data else none

variable {schema}

theorem codec_keeps {empty m : M} (h : schema.mergeFrom empty (schema.serialize m) = some m)
    (hsize : byteSize schema m < 2 ^ 31) : (codec schema empty).Keeps m := by
  have hlength : (schema.serialize m).length < 2 ^ 31 := hsize
  unfold Codec.Keeps codec
  dsimp only
  rw [if_pos hsize, if_pos hlength, h]

end Wire

/-- The texts pass the check; the types of the inodes are canonical. -/
structure FileExtent.Sendable (e : FileExtent) : Prop where
  objectKey : isText e.objectKey = true
  etag : isText e.etag = true
  checksum : isText e.checksum = true

def Command.Sendable : Command → Prop
  | .mkdir _ name _ _ _ => isText name = true
  | .createFile _ name _ _ _ => isText name = true
  | .commitWrite _ _ extents => ∀ e ∈ extents, e.Sendable
  | .truncate _ _ => True
  | .unlink _ name => isText name = true
  | .rmdir _ name => isText name = true
  | .rename _ oldName _ newName => isText oldName = true ∧ isText newName = true
  | .setAttr _ => True
  | .appendWrite _ _ extents => ∀ e ∈ extents, e.Sendable

def RaftCommand.Sendable (c : RaftCommand) : Prop :=
  ∀ command, c.command = some command → command.Sendable

def Response.Sendable : Response → Prop
  | .attrs a => a.type.Canonical
  | .error e => isText e.kind = true ∧ isText e.message = true ∧ isText e.path = true
  | .appendWrite reply =>
    reply.attrs.type.Canonical ∧ ∀ e ∈ reply.committedExtents, e.Sendable

def RaftCommandResponse.Sendable (r : RaftCommandResponse) : Prop :=
  ∀ response, r.response = some response → response.Sendable

structure FileLayout.Sendable (l : FileLayout) : Prop where
  attrs : l.attrs.type.Canonical
  extents : ∀ e ∈ l.extents, e.Sendable

structure MetaSnapshot.Sendable (m : MetaSnapshot) : Prop where
  inodes : ∀ a ∈ m.inodes, a.type.Canonical
  dentries : ∀ d ∈ m.dentries, isText d.name = true
  layouts : ∀ l ∈ m.layouts, l.layout.Sendable

theorem FileExtent.mergeFrom_serialize {e : FileExtent} (h : e.Sendable) :
    schema.mergeFrom {} (schema.serialize e) = some e := by
  have hnumbers : (schema.map Slot.number).Nodup := by decide
  refine Schema.mergeFrom_serialize hnumbers (Schema.Fills.of_eq
    (.cons (Slot.scalar_fold rfl) <| .cons (Slot.scalar_fold rfl) <|
    .cons (Slot.text_fold h.objectKey rfl) <| .cons (Slot.text_fold h.etag rfl) <|
    .cons (Slot.text_fold h.checksum rfl) <| .cons (Slot.scalar_fold rfl) <|
    .cons (Slot.scalar_fold rfl) <| .nil _) ?_)
  simp

theorem FileLayout.mergeFrom_serialize {l : FileLayout} (h : l.Sendable) :
    schema.mergeFrom {} (schema.serialize l) = some l := by
  have hnumbers : (schema.map Slot.number).Nodup := by decide
  refine Schema.mergeFrom_serialize hnumbers (Schema.Fills.of_eq
    (.cons (Slot.message_fold (InodeAttrs.mergeFrom_serialize h.attrs)) <|
    .cons (Slot.scalar_fold rfl) <|
    .cons (Slot.messages_fold (fun _ _ => rfl) (fun _ _ _ => rfl) rfl rfl
      fun e he => FileExtent.mergeFrom_serialize (h.extents e he)) <| .nil _) ?_)
  simp

theorem NodeCommand.mergeFrom_serialize {c : NodeCommand} (h : isText c.name = true) :
    schema.mergeFrom {} (schema.serialize c) = some c := by
  have hnumbers : (schema.map Slot.number).Nodup := by decide
  refine Schema.mergeFrom_serialize hnumbers (Schema.Fills.of_eq
    (.cons (Slot.scalar_fold rfl) <| .cons (Slot.text_fold h rfl) <|
    .cons (Slot.scalar_fold rfl) <| .cons (Slot.scalar_fold rfl) <|
    .cons (Slot.scalar_fold rfl) <| .nil _) ?_)
  simp

theorem EntryCommand.mergeFrom_serialize {c : EntryCommand} (h : isText c.name = true) :
    schema.mergeFrom {} (schema.serialize c) = some c := by
  have hnumbers : (schema.map Slot.number).Nodup := by decide
  refine Schema.mergeFrom_serialize hnumbers (Schema.Fills.of_eq
    (.cons (Slot.scalar_fold rfl) <| .cons (Slot.text_fold h rfl) <| .nil _) ?_)
  simp

theorem RenameCommand.mergeFrom_serialize {c : RenameCommand} (hold : isText c.oldName = true)
    (hnew : isText c.newName = true) :
    schema.mergeFrom {} (schema.serialize c) = some c := by
  have hnumbers : (schema.map Slot.number).Nodup := by decide
  refine Schema.mergeFrom_serialize hnumbers (Schema.Fills.of_eq
    (.cons (Slot.scalar_fold rfl) <| .cons (Slot.text_fold hold rfl) <|
    .cons (Slot.scalar_fold rfl) <| .cons (Slot.text_fold hnew rfl) <| .nil _) ?_)
  simp

theorem WriteCommand.mergeFrom_serialize {c : WriteCommand}
    (h : ∀ e ∈ c.extents, e.Sendable) :
    schema.mergeFrom {} (schema.serialize c) = some c := by
  have hnumbers : (schema.map Slot.number).Nodup := by decide
  refine Schema.mergeFrom_serialize hnumbers (Schema.Fills.of_eq
    (.cons (Slot.scalar_fold rfl) <| .cons (Slot.scalar_fold rfl) <|
    .cons (Slot.messages_fold (fun _ _ => rfl) (fun _ _ _ => rfl) rfl rfl
      fun e he => FileExtent.mergeFrom_serialize (h e he)) <| .nil _) ?_)
  simp

theorem TruncateCommand.mergeFrom_serialize (c : TruncateCommand) :
    schema.mergeFrom {} (schema.serialize c) = some c := by
  have hnumbers : (schema.map Slot.number).Nodup := by decide
  refine Schema.mergeFrom_serialize hnumbers (Schema.Fills.of_eq
    (.cons (Slot.scalar_fold rfl) <| .cons (Slot.scalar_fold rfl) <| .nil _) ?_)
  simp

theorem SetAttrCommand.mergeFrom_serialize (c : SetAttrCommand) :
    schema.mergeFrom {} (schema.serialize c) = some c := by
  have hnumbers : (schema.map Slot.number).Nodup := by decide
  have hflag (b : Bool) : decide (UInt64.ofNat (if b then 1 else 0) ≠ 0) = b := by
    cases b <;> decide
  refine Schema.mergeFrom_serialize hnumbers (Schema.Fills.of_eq
    (.cons (Slot.scalar_fold rfl) <| .cons (Slot.scalar_fold rfl) <|
    .cons (Slot.scalar_fold rfl) <| .cons (Slot.scalar_fold rfl) <|
    .cons (Slot.scalar_fold rfl) <| .cons (Slot.scalar_fold rfl) <|
    .cons (Slot.scalar_fold rfl) <| .cons (Slot.scalar_fold rfl) <|
    .cons (Slot.scalar_fold rfl) <| .cons (Slot.scalar_fold rfl) <|
    .cons (Slot.scalar_fold rfl) <| .nil _) ?_)
  simp only [hflag]
  simp

theorem AppendWriteReply.mergeFrom_serialize {r : AppendWriteReply}
    (hattrs : r.attrs.type.Canonical) (h : ∀ e ∈ r.committedExtents, e.Sendable) :
    schema.mergeFrom {} (schema.serialize r) = some r := by
  have hnumbers : (schema.map Slot.number).Nodup := by decide
  refine Schema.mergeFrom_serialize hnumbers (Schema.Fills.of_eq
    (.cons (Slot.message_fold (InodeAttrs.mergeFrom_serialize hattrs)) <|
    .cons (Slot.scalar_fold rfl) <|
    .cons (Slot.messages_fold (fun _ _ => rfl) (fun _ _ _ => rfl) rfl rfl
      fun e he => FileExtent.mergeFrom_serialize (h e he)) <| .nil _) ?_)
  simp

theorem ErrorResponse.mergeFrom_serialize {e : ErrorResponse} (hkind : isText e.kind = true)
    (hmessage : isText e.message = true) (hpath : isText e.path = true) :
    schema.mergeFrom {} (schema.serialize e) = some e := by
  have hnumbers : (schema.map Slot.number).Nodup := by decide
  exact Schema.mergeFrom_serialize hnumbers (.cons (Slot.text_fold hkind rfl) <|
    .cons (Slot.text_fold hmessage rfl) <| .cons (Slot.text_fold hpath rfl) <| .nil _)

theorem SnapshotDentry.mergeFrom_serialize {d : SnapshotDentry} (h : isText d.name = true) :
    schema.mergeFrom {} (schema.serialize d) = some d := by
  have hnumbers : (schema.map Slot.number).Nodup := by decide
  refine Schema.mergeFrom_serialize hnumbers (Schema.Fills.of_eq
    (.cons (Slot.scalar_fold rfl) <| .cons (Slot.text_fold h rfl) <|
    .cons (Slot.scalar_fold rfl) <| .nil _) ?_)
  simp

theorem SnapshotLayout.mergeFrom_serialize {l : SnapshotLayout} (h : l.layout.Sendable) :
    schema.mergeFrom {} (schema.serialize l) = some l := by
  have hnumbers : (schema.map Slot.number).Nodup := by decide
  refine Schema.mergeFrom_serialize hnumbers (Schema.Fills.of_eq
    (.cons (Slot.scalar_fold rfl) <|
    .cons (Slot.message_fold (FileLayout.mergeFrom_serialize h)) <| .nil _) ?_)
  simp

theorem RaftCommand.mergeFrom_serialize {c : RaftCommand} (h : c.Sendable) :
    schema.mergeFrom {} (schema.serialize c) = some c := by
  have hnumbers : (schema.map Slot.number).Nodup := by decide
  obtain ⟨_ | command⟩ := c
  · exact Schema.mergeFrom_serialize hnumbers (.idle rfl _)
  have hcommand := h command rfl
  cases command with
  | mkdir parentInodeId name mode uid gid =>
    refine Schema.mergeFrom_serialize hnumbers (.only 0 rfl rfl ?_)
    exact Slot.alternative_fold rfl rfl rfl (NodeCommand.mergeFrom_serialize hcommand)
  | createFile parentInodeId name mode uid gid =>
    refine Schema.mergeFrom_serialize hnumbers (.only 1 rfl rfl ?_)
    exact Slot.alternative_fold rfl rfl rfl (NodeCommand.mergeFrom_serialize hcommand)
  | commitWrite inodeId baseVersion extents =>
    refine Schema.mergeFrom_serialize hnumbers (.only 2 rfl rfl ?_)
    exact Slot.alternative_fold rfl rfl rfl (WriteCommand.mergeFrom_serialize hcommand)
  | truncate inodeId size =>
    refine Schema.mergeFrom_serialize hnumbers (.only 3 rfl rfl ?_)
    exact Slot.alternative_fold rfl rfl rfl (TruncateCommand.mergeFrom_serialize _)
  | unlink parentInodeId name =>
    refine Schema.mergeFrom_serialize hnumbers (.only 4 rfl rfl ?_)
    exact Slot.alternative_fold rfl rfl rfl (EntryCommand.mergeFrom_serialize hcommand)
  | rmdir parentInodeId name =>
    refine Schema.mergeFrom_serialize hnumbers (.only 5 rfl rfl ?_)
    exact Slot.alternative_fold rfl rfl rfl (EntryCommand.mergeFrom_serialize hcommand)
  | rename oldParentInodeId oldName newParentInodeId newName =>
    refine Schema.mergeFrom_serialize hnumbers (.only 6 rfl rfl ?_)
    exact Slot.alternative_fold rfl rfl rfl
      (RenameCommand.mergeFrom_serialize hcommand.1 hcommand.2)
  | setAttr command =>
    refine Schema.mergeFrom_serialize hnumbers (.only 7 rfl rfl ?_)
    exact Slot.alternative_fold rfl rfl rfl (SetAttrCommand.mergeFrom_serialize _)
  | appendWrite inodeId baseVersion extents =>
    refine Schema.mergeFrom_serialize hnumbers (.only 8 rfl rfl ?_)
    exact Slot.alternative_fold rfl rfl rfl (WriteCommand.mergeFrom_serialize hcommand)

theorem RaftCommandResponse.mergeFrom_serialize {r : RaftCommandResponse}
    (h : r.Sendable) :
    schema.mergeFrom {} (schema.serialize r) = some r := by
  have hnumbers : (schema.map Slot.number).Nodup := by decide
  obtain ⟨_ | response⟩ := r
  · exact Schema.mergeFrom_serialize hnumbers (.idle rfl _)
  have hresponse := h response rfl
  cases response with
  | attrs attrs =>
    refine Schema.mergeFrom_serialize hnumbers (.only 0 rfl rfl ?_)
    exact Slot.alternative_fold rfl rfl rfl (InodeAttrs.mergeFrom_serialize hresponse)
  | error error =>
    refine Schema.mergeFrom_serialize hnumbers (.only 1 rfl rfl ?_)
    exact Slot.alternative_fold rfl rfl rfl
      (ErrorResponse.mergeFrom_serialize hresponse.1 hresponse.2.1 hresponse.2.2)
  | appendWrite reply =>
    refine Schema.mergeFrom_serialize hnumbers (.only 2 rfl rfl ?_)
    exact Slot.alternative_fold rfl rfl rfl
      (AppendWriteReply.mergeFrom_serialize hresponse.1 hresponse.2)

theorem MetaSnapshot.mergeFrom_serialize {m : MetaSnapshot} (h : m.Sendable) :
    schema.mergeFrom {} (schema.serialize m) = some m := by
  have hnumbers : (schema.map Slot.number).Nodup := by decide
  refine Schema.mergeFrom_serialize hnumbers (Schema.Fills.of_eq
    (.cons (Slot.scalar_fold rfl) <| .cons (Slot.scalar_fold rfl) <|
    .cons (Slot.messages_fold (fun _ _ => rfl) (fun _ _ _ => rfl) rfl rfl
      fun a ha => InodeAttrs.mergeFrom_serialize (h.inodes a ha)) <|
    .cons (Slot.messages_fold (fun _ _ => rfl) (fun _ _ _ => rfl) rfl rfl
      fun d hd => SnapshotDentry.mergeFrom_serialize (h.dentries d hd)) <|
    .cons (Slot.messages_fold (fun _ _ => rfl) (fun _ _ _ => rfl) rfl rfl
      fun l hl => SnapshotLayout.mergeFrom_serialize (h.layouts l hl)) <| .nil _) ?_)
  simp

section Sizes

theorem InodeAttrs.byteSize_le (a : InodeAttrs) : byteSize schema a ≤ 132 := by
  have htype : Wire.inodeType a.type < 2 ^ 64 := by
    cases a.type with
    | other value => exact value.toInt64.toUInt64.toNat_lt
    | _ => decide
  have hword (n : UInt32) : n.toNat < 2 ^ 64 := n.toNat_lt.trans (by decide)
  refine Schema.length_serialize_le (by decide) (b := 11) ?_
  simp only [schema, List.forall_mem_cons, List.not_mem_nil, false_implies, implies_true, and_true]
  refine ⟨?_, ?_, ?_, ?_, ?_, ?_, ?_, ?_, ?_, ?_, ?_, ?_⟩
  all_goals apply Slot.size_scalar_le
  all_goals first | exact htype | exact hword _ | exact UInt64.toNat_lt _

theorem SnapshotDentry.byteSize_le {d : SnapshotDentry} (h : d.name.length ≤ 4096) :
    byteSize schema d ≤ 12321 := by
  refine Schema.length_serialize_le (by decide) (b := 4107) ?_
  simp only [schema, List.forall_mem_cons, List.not_mem_nil, false_implies, implies_true, and_true]
  refine ⟨le_trans (b := 11) ?_ (by decide), ?_, le_trans (b := 11) ?_ (by decide)⟩
  · exact Slot.size_scalar_le (UInt64.toNat_lt _)
  · exact Slot.size_text_le (by decide) h
  · exact Slot.size_scalar_le (UInt64.toNat_lt _)

/-- A snapshot of a few inodes and names, and of no file. -/
theorem MetaSnapshot.byteSize_le {m : MetaSnapshot} (hinodes : m.inodes.length ≤ 100)
    (hdentries : m.dentries.length ≤ 100) (hnames : ∀ d ∈ m.dentries, d.name.length ≤ 4096)
    (hlayouts : m.layouts = []) : byteSize schema m < 2 ^ 31 := by
  refine (Schema.length_serialize_le (by decide) (b := 1233200) ?_).trans_lt (by decide)
  simp only [schema, List.forall_mem_cons, List.not_mem_nil, false_implies, implies_true, and_true]
  refine ⟨le_trans (b := 11) ?_ (by decide), le_trans (b := 11) ?_ (by decide), ?_, ?_, ?_⟩
  · exact Slot.size_scalar_le (UInt64.toNat_lt _)
  · exact Slot.size_scalar_le (UInt64.toNat_lt _)
  · refine (Slot.size_messages_le (b := 132) (by decide) fun a _ => a.byteSize_le).trans ?_
    exact (Nat.mul_le_mul_right _ hinodes).trans (by decide)
  · refine (Slot.size_messages_le (b := 12321) (by decide)
      fun d hd => SnapshotDentry.byteSize_le (hnames d hd)).trans ?_
    exact (Nat.mul_le_mul_right _ hdentries).trans (by decide)
  · refine (Slot.size_messages_le (b := 0) (by decide) ?_).trans ?_
    · simp [hlayouts]
    · simp [hlayouts]

theorem RaftCommandResponse.byteSize_attrs_le (a : InodeAttrs) :
    byteSize schema ⟨some (.attrs a)⟩ < 2 ^ 31 := by
  have hlength := Slot.length_encode_bytes_le (b := 132) (by decide) a.byteSize_le
  have hsize : byteSize schema ⟨some (.attrs a)⟩ =
      1 + (Value.bytes (InodeAttrs.schema.serialize a)).encode.length := by
    rw [byteSize, Schema.length_serialize (by decide)]
    simp [schema, Schema.size, Slot.alternative]
  rw [hsize]
  omega

end Sizes

end Pulpfs
