import Pulpfs.Fuse.FlushRead
import Pulpfs.Foundations.Transition

/-! One file used through one open at a time, against the modelled service and store: what each
call does to the file the service has and to the handle. -/
namespace Pulpfs
open Overlay Transition

/-- A mount and the open in use, as the reply to it left `fi`. -/
structure Client where
  mount : Mount World
  opened : Option FuseFileInfo

/-- A use of the file. -/
inductive Op where
  | open (flags : UInt32)
  | read (size : UInt64) (off : Int64)
  | write (buf : Bytes) (off : Int64)
  | flush
  | fsync (datasync : Int32)
  | release
  deriving DecidableEq

namespace Client

/-- The request sent: an open while none is in use, the rest on the one that is. -/
def request (ino : UInt64) (c : Client) : Op → Option Request
  | .open flags => if c.opened.isNone then some (.open ino { flags }) else none
  | .read size off => c.opened.map fun fi => .read ino size off fi
  | .write buf off => c.opened.map fun fi => .write ino buf off fi
  | .flush => c.opened.map fun fi => .flush ino fi
  | .fsync datasync => c.opened.map fun fi => .fsync ino datasync fi
  | .release => c.opened.map fun fi => .release ino fi

def openedAfter (c : Client) : Op → FuseReply → Option FuseFileInfo
  | .open _, .open fi => some fi
  | .release, _ => none
  | _, _ => c.opened

def step [OffsetSort] (ino : UInt64) (op : Op) (c : Client) : Option FuseReply × Client :=
  match c.request ino op with
  | none => (none, c)
  | some r =>
    let result := c.mount.serve World.backend r
    (some result.1, ⟨result.2, c.openedAfter op result.1⟩)

/-- The state of the metadata service. -/
def state (c : Client) : MetaState := c.mount.world.service.state

/-- The handle of the open in use. -/
def handle (c : Client) : Option FuseFileHandle :=
  c.opened.bind fun fi => c.mount.server.getFileHandle fi.fh

theorem handle_of_get {c : Client} {fi : FuseFileInfo} {h : FuseFileHandle}
    (hopened : c.opened = some fi) (hget : c.mount.server.getFileHandle fi.fh = some h) :
    c.handle = some h := by
  rw [handle, hopened, Option.bind_some, hget]

theorem get_of_handle {c : Client} {fi : FuseFileInfo} {h : FuseFileHandle}
    (hopened : c.opened = some fi) (hhandle : c.handle = some h) :
    c.mount.server.getFileHandle fi.fh = some h := by
  rwa [handle, hopened, Option.bind_some] at hhandle

/-- The number the next object key is made from. -/
def sequence (c : Client) : UInt64 := c.mount.server.objectKeyGenerator.nextSequence

section Steps

variable [OffsetSort] {c : Client} {ino : UInt64} {fi : FuseFileInfo}

theorem step_of_none {op : Op} (h : c.opened = none) (hop : ∀ flags, op ≠ .open flags) :
    c.step ino op = (none, c) := by
  unfold step request
  cases op with
  | «open» flags => exact absurd rfl (hop flags)
  | read => simp only [h, Option.map_none]
  | write => simp only [h, Option.map_none]
  | flush => simp only [h, Option.map_none]
  | fsync => simp only [h, Option.map_none]
  | release => simp only [h, Option.map_none]

theorem step_open_of_some (h : c.opened = some fi) (flags : UInt32) :
    c.step ino (.open flags) = (none, c) := by
  simp only [step, request, h, Option.isNone_some, Bool.false_eq_true, if_false]

theorem step_open (h : c.opened = none) (flags : UInt32) :
    c.step ino (.open flags) = (some (c.mount.pulpfsOpen World.backend ino { flags }).1,
      ⟨(c.mount.pulpfsOpen World.backend ino { flags }).2,
        c.openedAfter (.open flags) (c.mount.pulpfsOpen World.backend ino { flags }).1⟩) := by
  simp only [step, request, h, Option.isNone_none, if_true, Mount.serve]

theorem step_read (h : c.opened = some fi) (size : UInt64) (off : Int64) :
    c.step ino (.read size off) = (some (c.mount.pulpfsRead World.backend ino size off fi).1,
      ⟨(c.mount.pulpfsRead World.backend ino size off fi).2, some fi⟩) := by
  simp only [step, request, h, Option.map_some, Mount.serve, openedAfter]

theorem step_write (h : c.opened = some fi) (buf : Bytes) (off : Int64) :
    c.step ino (.write buf off) = (some (c.mount.pulpfsWrite World.backend ino buf off fi).1,
      ⟨(c.mount.pulpfsWrite World.backend ino buf off fi).2, some fi⟩) := by
  simp only [step, request, h, Option.map_some, Mount.serve, openedAfter]

theorem step_flush (h : c.opened = some fi) :
    c.step ino .flush = (some (Mount.replyOf (c.mount.commit World.backend fi.fh).1),
      ⟨(c.mount.commit World.backend fi.fh).2, some fi⟩) := by
  simp only [step, request, h, Option.map_some, Mount.serve, openedAfter, Mount.pulpfsFlush]

theorem step_fsync (h : c.opened = some fi) (datasync : Int32) :
    c.step ino (.fsync datasync) = (some (Mount.replyOf (c.mount.commit World.backend fi.fh).1),
      ⟨(c.mount.commit World.backend fi.fh).2, some fi⟩) := by
  simp only [step, request, h, Option.map_some, Mount.serve, openedAfter, Mount.pulpfsFsync]

theorem step_release (h : c.opened = some fi) :
    c.step ino .release = (some (Mount.replyOf (c.mount.commit World.backend fi.fh).1),
      ⟨⟨(c.mount.commit World.backend fi.fh).2.server.releaseFileHandle fi.fh,
        (c.mount.commit World.backend fi.fh).2.world⟩, none⟩) := by
  simp only [step, request, h, Option.map_some, Mount.serve, openedAfter, Mount.pulpfsRelease]

end Steps

end Client

/-- The write of an object from its start to the positions from `off` on. -/
def writtenPatch (key : Bytes) (off length : ℕ) : Patch ObjectByte where
  start := off
  stop := off + length
  value := fun x => ⟨key, UInt64.ofNat (x - off)⟩

theorem patch_of_written {e : FileExtent} {key : Bytes} {off length : ℕ}
    (hkey : e.objectKey = key) (hoff : e.offset.toNat = off) (hlen : e.length.toNat = length)
    (hobj : e.objectOffset = 0) : e.patch = writtenPatch key off length := by
  subst hkey hoff hlen
  simp only [FileExtent.patch, writtenPatch, hobj, UInt64.zero_add]

namespace World

variable {α : Type} {w : World}

section Calls

variable [OffsetSort]

/-- A write the state machine accepts is answered with its attributes. -/
theorem commitWrite_answered (h : w.deliveries w.calls = .answered) {i v : UInt64}
    {es : List FileExtent}
    (hok : (w.service.state.commitWrite (w.clocks w.calls) i v es).1.isOk = true) :
    ∃ a, metaClient.commitWrite i v es w = (.ok a, w.applied (.commitWrite i v es)) := by
  obtain ⟨a, hr⟩ := Outcome.exists_of_isOk hok
  have hexec : (w.service.state.execute (w.clocks w.calls) (.commitWrite i v es)).1 =
      .ok (.attrs a) := by
    simp only [MetaState.execute, MetaState.Result.map, hr, Outcome.map]
  exact ⟨_, propose_answered h hexec⟩

theorem appendWrite_answered (h : w.deliveries w.calls = .answered) {i v : UInt64}
    {es : List FileExtent}
    (hok : (w.service.state.appendWrite (w.clocks w.calls) i v es).1.isOk = true) :
    ∃ reply, metaClient.appendWrite i v es w = (.ok reply, w.applied (.appendWrite i v es)) := by
  obtain ⟨a, hr⟩ := Outcome.exists_of_isOk hok
  have hexec : (w.service.state.execute (w.clocks w.calls) (.appendWrite i v es)).1 =
      .ok (.appended a) := by
    simp only [MetaState.execute, MetaState.Result.map, hr, Outcome.map]
  exact ⟨_, propose_answered h hexec⟩

theorem truncate_answered (h : w.deliveries w.calls = .answered) {i size : UInt64}
    (hok : (w.service.state.truncate (w.clocks w.calls) i size).1.isOk = true) :
    ∃ a, metaClient.truncate i size w = (.ok a, w.applied (.truncate i size)) := by
  obtain ⟨a, hr⟩ := Outcome.exists_of_isOk hok
  have hexec : (w.service.state.execute (w.clocks w.calls) (.truncate i size)).1 =
      .ok (.attrs a) := by
    simp only [MetaState.execute, MetaState.Result.map, hr, Outcome.map]
  exact ⟨_, propose_answered h hexec⟩

end Calls

/-- How an upload ends. -/
theorem putExtent_cases (bucket key buf : Bytes) (off : UInt64) (w : World) :
    (∃ e w', putExtent objectStore bucket key buf off w = (.error e, w') ∧
      (w' = w.store ⟨bucket, key, buf⟩ ∨ w' = { w with puts := w.puts + 1 })) ∨
    ∃ extent, putExtent objectStore bucket key buf off w =
        (.ok extent, w.store ⟨bucket, key, buf⟩) ∧
      extent.offset = off ∧ extent.length = UInt64.ofNat buf.length ∧ extent.objectKey = key ∧
      extent.objectOffset = 0 := by
  unfold putExtent
  simp only [objectStore, putObject]
  cases w.uploads w.puts with
  | done etag => exact .inr ⟨_, rfl, rfl, rfl, rfl, rfl⟩
  | failed stored e =>
    cases stored with
    | false => exact .inl ⟨_, _, rfl, .inr rfl⟩
    | true => exact .inl ⟨_, _, rfl, .inl rfl⟩

end World

section Commit

theorem commitHandle_of_no_extents {σ : Type} {client : MetaClient σ} {h : FuseFileHandle}
    (he : h.pendingExtents = []) (w : σ) : commitHandle client h w = commitAppends client h w := by
  simp only [commitHandle, commitExtents, he, List.isEmpty_nil, if_true]

/-- A commit of nothing makes no call. -/
theorem commitHandle_idle {σ : Type} {client : MetaClient σ} {h : FuseFileHandle}
    (he : h.pendingExtents = []) (ha : h.pendingAppendExtents = []) (w : σ) :
    commitHandle client h w = (.ok (), h, w) := by
  rw [commitHandle_of_no_extents he, commitAppends, ha]
  rfl

variable [OffsetSort] {h : FuseFileHandle} {w : World}

/-- The command a handle with positional writes queued sends. -/
def FuseFileHandle.commitCommand (h : FuseFileHandle) : Command :=
  .commitWrite h.inodeId h.layout.attrs.version h.pendingExtents

/-- What `CommitHandle` can do with queued positional writes that the service accepts. -/
theorem commitHandle_extents (ha : h.pendingAppendExtents = []) (hne : h.pendingExtents ≠ [])
    (hok : (w.service.state.commitWrite (w.clocks w.calls) h.inodeId h.layout.attrs.version
      h.pendingExtents).1.isOk = true) :
    (∃ e, commitHandle World.metaClient h w = (.error e, h, w.count)) ∨
    (∃ e, commitHandle World.metaClient h w = (.error e, h, w.applied h.commitCommand)) ∨
    ∃ layout, commitHandle World.metaClient h w =
      (.ok (), { h with pendingExtents := [], layout }, (w.applied h.commitCommand).count) := by
  have hempty : h.pendingExtents.isEmpty = false := by
    rw [List.isEmpty_eq_false_iff]
    exact hne
  cases hd : w.deliveries w.calls with
  | notApplied status =>
    have hcall : World.metaClient.commitWrite h.inodeId h.layout.attrs.version h.pendingExtents w
        = (.error (fromGrpcStatus (w.memory w.calls) status), w.count) :=
      World.propose_notApplied hd
    left
    refine ⟨fromGrpcStatus (w.memory w.calls) status, ?_⟩
    simp only [commitHandle, commitExtents, hempty, Bool.false_eq_true, if_false, hcall]
  | replyLost status =>
    have hcall : World.metaClient.commitWrite h.inodeId h.layout.attrs.version h.pendingExtents w
        = (.error (fromGrpcStatus (w.memory w.calls) status), w.applied h.commitCommand) :=
      World.propose_replyLost hd
    right
    left
    refine ⟨fromGrpcStatus (w.memory w.calls) status, ?_⟩
    simp only [commitHandle, commitExtents, hempty, Bool.false_eq_true, if_false, hcall]
  | answered =>
    obtain ⟨a, hcall⟩ := World.commitWrite_answered hd hok
    obtain ⟨layout, hrefresh⟩ := refreshLayout_eq { h with pendingExtents := [] }
      (w.applied (.commitWrite h.inodeId h.layout.attrs.version h.pendingExtents))
    right
    right
    refine ⟨layout, ?_⟩
    simp only [commitHandle, commitExtents, hempty, Bool.false_eq_true, if_false, hcall, hrefresh]
    simp only [commitAppends, ha, List.isEmpty_nil, if_true, FuseFileHandle.commitCommand]

/-- The command a handle with appends queued sends. -/
def FuseFileHandle.appendCommand (h : FuseFileHandle) : Command :=
  .appendWrite h.inodeId h.layout.attrs.version h.pendingAppendExtents

/-- The handle once its appends are committed. -/
def FuseFileHandle.appended (h : FuseFileHandle) (layout : FileLayout) : FuseFileHandle :=
  { h with pendingAppendExtents := [], pendingAppendLength := 0, layout }

/-- What `CommitHandle` can do with queued appends. -/
theorem commitHandle_appends (he : h.pendingExtents = []) :
    (∃ result, commitHandle World.metaClient h w = (result, h, w)) ∨
    (∃ e, commitHandle World.metaClient h w = (.error e, h, w.count)) ∨
    (w.deliveries w.calls).isApplied = true ∧
      ((∃ e, commitHandle World.metaClient h w = (.error e, h, w.applied h.appendCommand)) ∨
      ∃ layout, commitHandle World.metaClient h w =
        (.ok (), h.appended layout, (w.applied h.appendCommand).count)) := by
  rw [commitHandle_of_no_extents he]
  unfold commitAppends
  cases hempty : h.pendingAppendExtents.isEmpty with
  | true =>
    simp only [if_true]
    exact .inl ⟨_, rfl⟩
  | false =>
    simp only [Bool.false_eq_true, if_false]
    right
    cases hd : (w.deliveries w.calls).isApplied with
    | false =>
      obtain ⟨status, hd⟩ := World.exists_of_not_applied hd
      have hcall : World.metaClient.appendWrite h.inodeId h.layout.attrs.version
          h.pendingAppendExtents w = (.error (fromGrpcStatus (w.memory w.calls) status), w.count) :=
        World.propose_notApplied hd
      left
      simp only [hcall]
      exact ⟨_, rfl⟩
    | true =>
      right
      refine ⟨rfl, ?_⟩
      obtain ⟨result, hcall⟩ : ∃ result, World.metaClient.appendWrite h.inodeId
          h.layout.attrs.version h.pendingAppendExtents w = (result, w.applied h.appendCommand) :=
        World.propose_applied hd
      cases result with
      | error e =>
        left
        simp only [hcall]
        exact ⟨_, rfl⟩
      | ok reply =>
        obtain ⟨layout, hrefresh⟩ := refreshLayout_eq
          { h with pendingAppendExtents := [], pendingAppendLength := 0 }
          (w.applied h.appendCommand)
        right
        simp only [hcall, hrefresh]
        exact ⟨layout, rfl⟩

theorem commit_eq {m : Mount World} {id : UInt64} {h' : FuseFileHandle} {w' : World}
    {result : Except Error Unit} (hget : m.server.getFileHandle id = some h)
    (hc : commitHandle World.metaClient h m.world = (result, h', w')) :
    m.commit World.backend id = (result, ⟨m.server.setFileHandle id h', w'⟩) := by
  have hb : commitHandle World.backend.metaClient h m.world = (result, h', w') := hc
  rw [Mount.commit_of_get hget, hb]

end Commit

section Write

variable [OffsetSort] {m : Mount World} {h : FuseFileHandle} {fi : FuseFileInfo}

omit [OffsetSort] in
theorem ok_of_replyOf {result : Except Error Unit} (h : Mount.replyOf result = .ok) :
    result = .ok () := by
  cases result with
  | error e => contradiction
  | ok u => rfl

/-- Where in the file, or in the queue of appends, a write goes. -/
def FuseFileHandle.writeOffset (h : FuseFileHandle) (off : Int64) : UInt64 :=
  if h.append then h.pendingAppendLength else off.toUInt64

/-- The upload of a write. -/
def Mount.upload (m : Mount World) (ino off : UInt64) (buf : Bytes) : PutObjectRequest :=
  ⟨m.server.config.bucket, m.server.nextObjectKey ino off, buf⟩

/-- The extent a write queues. -/
structure IsWritten (m : Mount World) (ino off : UInt64) (buf : Bytes) (extent : FileExtent) :
    Prop where
  offset : extent.offset = off
  length : extent.length = UInt64.ofNat buf.length
  objectKey : extent.objectKey = m.server.nextObjectKey ino off
  objectOffset : extent.objectOffset = 0

/-- Everything a write on a handle that is there can do. -/
theorem pulpfsWrite_cases (hget : m.server.getFileHandle fi.fh = some h) (ino : UInt64)
    (buf : Bytes) (off : Int64) :
    (∃ errno, m.pulpfsWrite World.backend ino buf off fi = (.err errno, m)) ∨
    (∃ errno w', m.pulpfsWrite World.backend ino buf off fi =
        (.err errno, ⟨m.server.countObjectKey ino (h.writeOffset off), w'⟩) ∧
      (w' = m.world.store (m.upload ino (h.writeOffset off) buf) ∨
        w' = { m.world with puts := m.world.puts + 1 })) ∨
    ∃ extent, IsWritten m ino (h.writeOffset off) buf extent ∧ h.writable = true ∧
      m.pulpfsWrite World.backend ino buf off fi = (.write extent.length,
        ⟨(m.server.countObjectKey ino (h.writeOffset off)).setFileHandle fi.fh (h.queue extent),
          m.world.store (m.upload ino (h.writeOffset off) buf)⟩) := by
  unfold Mount.pulpfsWrite
  simp only [hget, World.backend]
  cases hw : h.writable with
  | false => exact .inl ⟨.ebadf, rfl⟩
  | true =>
    by_cases hb : m.server.config.bucket.isEmpty = true
    · exact .inl ⟨.eio, by simp [hb]⟩
    · right
      rcases World.putExtent_cases m.server.config.bucket
        (m.server.nextObjectKey ino (h.writeOffset off)) buf (h.writeOffset off) m.world with
        ⟨e, w', hput, hw'⟩ | ⟨extent, hput, hoff, hlen, hkey, hobj⟩
      · left
        refine ⟨toErrno e, w', ?_, hw'⟩
        unfold FuseFileHandle.writeOffset at hput
        simp only [Bool.not_true, Bool.false_eq_true, if_false, hb, hput]
        rfl
      · right
        refine ⟨extent, ⟨hoff, hlen, hkey, hobj⟩, rfl, ?_⟩
        unfold FuseFileHandle.writeOffset at hput
        simp only [Bool.not_true, Bool.false_eq_true, if_false, hb, hput]
        rfl

end Write

/-- The patch of a written extent. -/
theorem IsWritten.patch_eq {m : Mount World} {ino off : UInt64} {buf : Bytes}
    {extent : FileExtent} (h : IsWritten m ino off buf extent) (hlen : buf.length < 2 ^ 64) :
    extent.patch = writtenPatch (m.server.nextObjectKey ino off) off.toNat buf.length := by
  refine patch_of_written h.objectKey (congrArg UInt64.toNat h.offset) ?_ h.objectOffset
  rw [h.length, UInt64.toNat_ofNat']
  exact Nat.mod_eq_of_lt hlen

theorem keyAt_ne_nil (g : ObjectKeyGenerator) (objectPrefix : Bytes)
    (inodeId sequence offset : UInt64) : g.keyAt objectPrefix inodeId sequence offset ≠ [] := by
  unfold ObjectKeyGenerator.keyAt
  have hchunks : ascii "chunks/" ≠ [] := by decide
  simp [hchunks]

/-- A write of at least one byte queues an extent the service accepts. -/
theorem IsWritten.valid {m : Mount World} {ino off : UInt64} {buf : Bytes}
    {extent : FileExtent} (h : IsWritten m ino off buf extent) (hne : buf ≠ [])
    (hlen : buf.length < 2 ^ 64) : extent.isInvalid = false := by
  have hpos := List.length_pos_iff.mpr hne
  have hlength : extent.length ≠ 0 := by
    intro h0
    have hnat := congrArg UInt64.toNat (h.length.symm.trans h0)
    rw [UInt64.toNat_ofNat', Nat.mod_eq_of_lt hlen] at hnat
    simp only [UInt64.toNat_zero] at hnat
    omega
  have hkey : extent.objectKey ≠ [] := h.objectKey ▸ keyAt_ne_nil _ _ _ _ _
  simp [FileExtent.isInvalid, hlength, hkey]

end Pulpfs
