import Pulpfs.Fuse.OneFile

/-! A file whose layout the service has and whose objects the store has: what the requests on an
open make of it as long as no call is lost. -/
namespace Pulpfs
open Overlay Transition

/-- What is stored in a layout with a queue laid over it lies in an object one of them refers to. -/
theorem key_of_content {l : FileLayout} {es : List FileExtent} {x : ℕ} {b : ObjectByte}
    (h : (l.file.write (es.map FileExtent.patch)).content x = some b) :
    ∃ e ∈ l.extents ++ es, e.objectKey = b.key := by
  have hall : content ((reachable l.extents ++ es).map FileExtent.patch) x = some b := by
    rw [List.map_append, content_append]
    exact h
  obtain ⟨p, hp, -, rfl⟩ := exists_of_content hall
  obtain ⟨e, he, rfl⟩ := List.mem_map.mp hp
  refine ⟨e, ?_, rfl⟩
  rcases List.mem_append.mp he with he | he
  · exact List.mem_append_left _ (mem_reachable.mp he).1
  · exact List.mem_append_right _ he

namespace World

variable {w : World} {bucket : Bytes} {i : UInt64} {l : FileLayout} {p c e : FileExtent}

theorem Holds.within (h : w.Holds bucket c) (hp : p.Within c) : w.Holds bucket p := by
  obtain ⟨body, hbody, hlen, hrange⟩ := h
  obtain ⟨hkey, skip, hoff, hle⟩ := hp
  have hsum : p.objectOffset.toNat = c.objectOffset.toNat + skip.toNat := by
    rw [hoff, UInt64.toNat_add]
    omega
  refine ⟨body, hkey ▸ hbody, ?_, ?_⟩
  · omega
  · omega

/-- Some calls later the worlds differ in the object under one key at most. -/
structure SameBut (bucket key : Bytes) (w w' : World) : Prop where
  service : w'.service = w.service
  deliveries : w'.deliveries = w.deliveries
  uploads : w'.uploads = w.uploads
  objects : ∀ k, k ≠ key → w'.objects (bucket, k) = w.objects (bucket, k)

theorem sameBut_refl (bucket key : Bytes) (w : World) : SameBut bucket key w w :=
  ⟨rfl, rfl, rfl, fun _ _ => rfl⟩

theorem sameBut_store (w : World) (bucket key body : Bytes) :
    SameBut bucket key w (w.store ⟨bucket, key, body⟩) := by
  refine ⟨rfl, rfl, rfl, ?_⟩
  intro k hk
  have hne : (bucket, k) ≠ (bucket, key) := fun he => hk (Prod.mk.inj he).2
  simp only [World.store, Function.update_of_ne hne]

theorem SameBut.holds {key : Bytes} {w' : World} (hs : SameBut bucket key w w')
    (h : w.Holds bucket e) (hne : e.objectKey ≠ key) : w'.Holds bucket e := by
  obtain ⟨body, hbody, hlen⟩ := h
  exact ⟨body, (hs.objects _ hne).trans hbody, hlen⟩

/-- Under another key nothing changes in a file. -/
theorem SameBut.byteAt_of_content {key : Bytes} {w' : World} (hs : SameBut bucket key w w')
    {es : List FileExtent} (hnew : ∀ e ∈ l.extents ++ es, e.objectKey ≠ key) :
    ∀ x b, (l.file.write (es.map FileExtent.patch)).content x = some b →
      w'.byteAt bucket b = w.byteAt bucket b := by
  intro x b hb
  obtain ⟨e, he, hkey⟩ := key_of_content hb
  simp only [byteAt, hs.objects b.key (hkey ▸ hnew e he)]

/-- The bytes of a write are those of its object. -/
theorem byteAt_written (w : World) (bucket key : Bytes) {buf : Bytes} {off x : ℕ}
    (hlen : buf.length < 2 ^ 64) (hlo : off ≤ x) (hhi : x < off + buf.length) :
    (w.store ⟨bucket, key, buf⟩).byteAt bucket ((writtenPatch key off buf.length).value x) =
      buf.getD (x - off) 0 := by
  have hpos : (UInt64.ofNat (x - off)).toNat = x - off := by
    rw [UInt64.toNat_ofNat', Nat.mod_eq_of_lt (by omega)]
  simp only [byteAt, writtenPatch, World.store, Function.update_self, Option.getD_some, hpos]

/-- Calls of the service leave the store as it is, and what will become of calls to come. -/
structure SameStore (w w' : World) : Prop where
  objects : w'.objects = w.objects
  deliveries : w'.deliveries = w.deliveries
  uploads : w'.uploads = w.uploads

theorem SameStore.refl (w : World) : SameStore w w := ⟨rfl, rfl, rfl⟩

theorem SameStore.trans {w' w'' : World} (h : SameStore w w') (h' : SameStore w' w'') :
    SameStore w w'' :=
  ⟨h'.objects.trans h.objects, h'.deliveries.trans h.deliveries, h'.uploads.trans h.uploads⟩

theorem sameStore_count (w : World) : SameStore w w.count := ⟨rfl, rfl, rfl⟩

theorem sameStore_applied [OffsetSort] (w : World) (command : Command) :
    SameStore w (w.applied command) := ⟨rfl, rfl, rfl⟩

theorem SameStore.holds {w' : World} (hs : SameStore w w') (h : w.Holds bucket e) :
    w'.Holds bucket e := by
  unfold Holds
  rw [hs.objects]
  exact h

theorem SameStore.byteAt {w' : World} (hs : SameStore w w') (bucket : Bytes) :
    w'.byteAt bucket = w.byteAt bucket := by
  funext b
  unfold World.byteAt
  rw [hs.objects]

/-- The service has the layout and the store the objects. -/
structure Stored (w : World) (bucket : Bytes) (i : UInt64) (l : FileLayout) : Prop where
  got : w.service.state.getLayout i = .ok l
  disjoint : Disjoint (reachable l.extents)
  held : ∀ e ∈ l.extents, w.Holds bucket e

theorem Stored.count (h : w.Stored bucket i l) : w.count.Stored bucket i l :=
  ⟨h.got, h.disjoint, h.held⟩

theorem SameBut.stored {key : Bytes} {w' : World} (hs : SameBut bucket key w w')
    (h : w.Stored bucket i l) (hnew : ∀ e ∈ l.extents, e.objectKey ≠ key) :
    w'.Stored bucket i l := by
  refine ⟨?_, h.disjoint, fun e he => hs.holds (h.held e he) (hnew e he)⟩
  rw [hs.service]
  exact h.got

section Calls

variable [OffsetSort] {es : List FileExtent}

theorem Stored.applied (h : w.Stored bucket i l) (command : Command) (es : List FileExtent)
    (hes : ∀ e ∈ es, w.Holds bucket e) {r : SparseFile ObjectByte} {l' : FileLayout}
    (hw : (w.service.state.execute (w.clocks w.calls) command).2.Written i l es r l') :
    (w.applied command).Stored bucket i l' := by
  refine ⟨?_, hw.disjoint, ?_⟩
  · rw [applied_state]
    exact hw.got
  · intro p hp
    obtain ⟨c, hc, hpc⟩ := hw.within p hp
    rcases List.mem_append.mp hc with hc | hc
    · exact (h.held c hc).within hpc
    · exact (hes c hc).within hpc

theorem Stored.commitWrite (h : w.Stored bucket i l) (v : UInt64)
    (hv : ∀ e ∈ es, e.isInvalid = false ∧ e.InRange) (hes : ∀ e ∈ es, w.Holds bucket e) :
    (w.service.state.commitWrite (w.clocks w.calls) i v es).1.isOk = true ∧
      ∃ l', (w.applied (.commitWrite i v es)).Stored bucket i l' ∧
        l'.file = l.file.write (es.map FileExtent.patch) ∧
        ∀ p ∈ l'.extents, ∃ c ∈ l.extents ++ es, p.Within c := by
  obtain ⟨hok, l', hw⟩ := MetaState.commitWrite_written (w.clocks w.calls) (v := v) h.got
    h.disjoint (fun e he => (hv e he).1) fun e he => (hv e he).2
  exact ⟨hok, l', h.applied (.commitWrite i v es) es hes hw, hw.file_eq, hw.within⟩

theorem Stored.appendWrite (h : w.Stored bucket i l) (v : UInt64)
    (hv : ∀ e ∈ es, e.isInvalid = false ∧
      l.attrs.size.toNat + e.offset.toNat + e.length.toNat < 2 ^ 64)
    (hes : ∀ e ∈ es, w.Holds bucket e) :
    (w.service.state.appendWrite (w.clocks w.calls) i v es).1.isOk = true ∧
      ∃ l', (w.applied (.appendWrite i v es)).Stored bucket i l' ∧
        l'.file = l.file.append (es.map FileExtent.patch) ∧
        ∀ p ∈ l'.extents, ∃ c ∈ l.extents ++ es, p.Within c := by
  obtain ⟨hok, l', hw⟩ := MetaState.appendWrite_written (w.clocks w.calls) (v := v) h.got
    h.disjoint (fun e he => (hv e he).1) fun e he => (hv e he).2
  exact ⟨hok, l', h.applied (.appendWrite i v es) es hes hw, hw.file_eq, hw.within⟩

theorem Stored.truncate (h : w.Stored bucket i l) (size : UInt64) :
    (w.service.state.truncate (w.clocks w.calls) i size).1.isOk = true ∧
      ∃ l', (w.applied (.truncate i size)).Stored bucket i l' ∧
        l'.file = l.file.truncate size.toNat ∧
        ∀ p ∈ l'.extents, ∃ c ∈ l.extents, p.Within c := by
  obtain ⟨hok, l', hw⟩ := MetaState.truncate_written (w.clocks w.calls) h.got h.disjoint size
  have hwithin := hw.within
  rw [List.append_nil] at hwithin
  exact ⟨hok, l', h.applied (.truncate i size) [] (by simp) hw, hw.file_eq, hwithin⟩

/-- Other attributes of a file do not touch what it holds. -/
theorem Stored.setAttr (h : w.Stored bucket i l) (command : SetAttrCommand) :
    ∃ l', (w.applied (.setAttr command)).Stored bucket i l' ∧ l'.file = l.file := by
  have hview : (w.applied (.setAttr command)).service.state.fileView i =
      (some (.file, l.attrs.size), some l.extents) := by
    rw [applied_state]
    exact (MetaState.setAttr_view _ _ command).trans (MetaState.view_of_getLayout h.got)
  obtain ⟨l', hgot, hsize, hext⟩ := MetaState.getLayout_of_view hview
  refine ⟨l', ⟨hgot, ?_, ?_⟩, ?_⟩
  · rw [hext]
    exact h.disjoint
  · rw [hext]
    exact h.held
  · rw [FileLayout.file, hsize, hext]
    rfl

end Calls

end World

/-- The object of a write that was uploaded. -/
theorem IsWritten.holds {m : Mount World} {ino off : UInt64} {buf : Bytes} {extent : FileExtent}
    (h : IsWritten m ino off buf extent) (hlen : buf.length < 2 ^ 64) :
    (m.world.store (m.upload ino off buf)).Holds m.server.config.bucket extent := by
  have hlength : extent.length.toNat = buf.length := by
    rw [h.length, UInt64.toNat_ofNat', Nat.mod_eq_of_lt hlen]
  refine ⟨buf, ?_, ?_, ?_⟩
  · rw [h.objectKey]
    exact Function.update_self _ _ _
  · rw [h.objectOffset, hlength, UInt64.toNat_zero, Nat.zero_add]
  · rw [h.objectOffset, hlength, UInt64.toNat_zero, Nat.zero_add]
    exact hlen

theorem IsWritten.inRange {m : Mount World} {ino off : UInt64} {buf : Bytes} {extent : FileExtent}
    (h : IsWritten m ino off buf extent) (hrange : off.toNat + buf.length < 2 ^ 64) :
    extent.InRange := by
  have hlength : extent.length.toNat = buf.length := by
    rw [h.length, UInt64.toNat_ofNat', Nat.mod_eq_of_lt (by omega)]
  unfold FileExtent.InRange
  rw [h.offset, hlength]
  exact hrange

section Requests

variable [OffsetSort] {m : Mount World} {h : FuseFileHandle} {w : World} {fi : FuseFileInfo}

/-- A commit whose `CommitWrite` is not answered keeps the queue. -/
theorem commitHandle_unanswered (hne : h.pendingExtents ≠ [])
    (hd : w.deliveries w.calls ≠ .answered) :
    ∃ e w', commitHandle World.metaClient h w = (.error e, h, w') ∧
      (w' = w.count ∨ w' = w.applied h.commitCommand) := by
  have hempty : h.pendingExtents.isEmpty = false := by
    rw [List.isEmpty_eq_false_iff]
    exact hne
  cases hdel : w.deliveries w.calls with
  | answered => exact absurd hdel hd
  | notApplied status =>
    have hcall : World.metaClient.commitWrite h.inodeId h.layout.attrs.version h.pendingExtents w
        = (.error (fromGrpcStatus (w.memory w.calls) status), w.count) :=
      World.propose_notApplied hdel
    refine ⟨fromGrpcStatus (w.memory w.calls) status, w.count, ?_, .inl rfl⟩
    simp only [commitHandle, commitExtents, hempty, Bool.false_eq_true, if_false, hcall]
  | replyLost status =>
    have hcall : World.metaClient.commitWrite h.inodeId h.layout.attrs.version h.pendingExtents w
        = (.error (fromGrpcStatus (w.memory w.calls) status), w.applied h.commitCommand) :=
      World.propose_replyLost hdel
    refine ⟨fromGrpcStatus (w.memory w.calls) status, _, ?_, .inr rfl⟩
    simp only [commitHandle, commitExtents, hempty, Bool.false_eq_true, if_false, hcall]

/-- A layout that is got as the service has it. -/
theorem getLayout_answered {i : UInt64} {layout : FileLayout}
    (hd : w.deliveries w.calls = .answered) (hgot : w.service.state.getLayout i = .ok layout) :
    World.metaClient.getLayout i w = (.ok layout, w.count) := by
  show w.query (fun s => s.getLayout i) = _
  exact World.query_answered hd hgot

theorem refreshLayout_answered (hd : w.deliveries w.calls = .answered) {layout : FileLayout}
    (hgot : w.service.state.getLayout h.inodeId = .ok layout) :
    refreshLayout World.metaClient h w = ({ h with layout }, w.count) := by
  simp only [refreshLayout, getLayout_answered hd hgot]

/-- A commit of positional writes with both calls answered. -/
theorem commitHandle_refreshed (ha : h.pendingAppendExtents = []) (hne : h.pendingExtents ≠ [])
    (hok : (w.service.state.commitWrite (w.clocks w.calls) h.inodeId h.layout.attrs.version
      h.pendingExtents).1.isOk = true)
    (hd : w.deliveries w.calls = .answered) (hd' : w.deliveries (w.calls + 1) = .answered)
    {layout : FileLayout}
    (hgot : (w.applied h.commitCommand).service.state.getLayout h.inodeId = .ok layout) :
    commitHandle World.metaClient h w =
      (.ok (), { h with pendingExtents := [], layout }, (w.applied h.commitCommand).count) := by
  have hempty : h.pendingExtents.isEmpty = false := by
    rw [List.isEmpty_eq_false_iff]
    exact hne
  obtain ⟨a, hcall⟩ := World.commitWrite_answered hd hok
  have hrefresh : refreshLayout World.metaClient { h with pendingExtents := [] }
      (w.applied (.commitWrite h.inodeId h.layout.attrs.version h.pendingExtents)) = _ :=
    refreshLayout_answered hd' hgot
  simp only [commitHandle, commitExtents, hempty, Bool.false_eq_true, if_false, hcall, hrefresh]
  simp only [commitAppends, ha, List.isEmpty_nil, if_true, FuseFileHandle.commitCommand]

/-- A commit of appends with both calls answered. -/
theorem commitHandle_appended (he : h.pendingExtents = []) (hne : h.pendingAppendExtents ≠ [])
    (hok : (w.service.state.appendWrite (w.clocks w.calls) h.inodeId h.layout.attrs.version
      h.pendingAppendExtents).1.isOk = true)
    (hd : w.deliveries w.calls = .answered) (hd' : w.deliveries (w.calls + 1) = .answered)
    {layout : FileLayout}
    (hgot : (w.applied h.appendCommand).service.state.getLayout h.inodeId = .ok layout) :
    commitHandle World.metaClient h w =
      (.ok (), h.appended layout, (w.applied h.appendCommand).count) := by
  have hempty : h.pendingAppendExtents.isEmpty = false := by
    rw [List.isEmpty_eq_false_iff]
    exact hne
  obtain ⟨reply, hcall⟩ := World.appendWrite_answered hd hok
  have hrefresh : refreshLayout World.metaClient
      { h with pendingAppendExtents := [], pendingAppendLength := 0 }
      (w.applied (.appendWrite h.inodeId h.layout.attrs.version h.pendingAppendExtents)) = _ :=
    refreshLayout_answered hd' hgot
  rw [commitHandle_of_no_extents he]
  simp only [commitAppends, hempty, Bool.false_eq_true, if_false, hcall, hrefresh]
  rfl

/-- A read through a handle whose objects are all in the store. -/
theorem pulpfsRead_held (hget : m.server.getFileHandle fi.fh = some h) (hr : h.PendingInRange)
    (hlayout : ∀ e ∈ h.layout.extents, m.world.Holds m.server.config.bucket e)
    (hextents : ∀ e ∈ h.pendingExtents, m.world.Holds m.server.config.bucket e)
    (happends : ∀ e ∈ h.pendingAppendExtents, m.world.Holds m.server.config.bucket e)
    (ino : UInt64) {size : UInt64} {off : Int64} (hsize : size.toNat < 2 ^ 63) (hoff : 0 ≤ off) :
    m.pulpfsRead World.backend ino size off fi =
      (.buf (((h.visible.bytes (m.world.byteAt m.server.config.bucket) 0).drop
        off.toUInt64.toNat).take size.toNat), m) := by
  have hserves {e : FileExtent} (he : m.world.Holds m.server.config.bucket e) :=
    he.serves (I := fun w => w = m.world) fun w hw => congrArg World.objects hw
  obtain ⟨w', rfl, hread⟩ := readFromHandle_spec (s := m.world) hr
    ⟨fun e he => hserves (hlayout e he), fun e he => hserves (hextents e he),
      fun e he => hserves (happends e he)⟩ hsize hoff rfl
  simp only [Mount.pulpfsRead, hget, World.backend, hread]

end Requests

/-- The bytes of an object as the mount reads them. -/
def Mount.value (m : Mount World) : ObjectByte → UInt8 := m.world.byteAt m.server.config.bucket

/-- What a handle has queued to be written in place. -/
def FuseFileHandle.queued (h : FuseFileHandle) : List (Patch ObjectByte) :=
  h.pendingExtents.map FileExtent.patch

/-- A use of a handle for reading and writing in place, with sizes and offsets as the kernel
passes them. -/
def Op.InPlace : Op → Prop
  | .write buf off => buf ≠ [] ∧ off.toUInt64.toNat + buf.length < 2 ^ 64
  | .read size off => size.toNat < 2 ^ 63 ∧ 0 ≤ off
  | .flush => True
  | .fsync _ => True
  | .open _ => False
  | .release => False

instance (op : Op) : Decidable op.InPlace :=
  match op with
  | .write _ _ => inferInstanceAs (Decidable (_ ∧ _))
  | .read _ _ => inferInstanceAs (Decidable (_ ∧ _))
  | .flush => .isTrue trivial
  | .fsync _ => .isTrue trivial
  | .open _ => .isFalse id
  | .release => .isFalse id

/-- An open without `O_APPEND`: a commit accepts what it has queued, and the store has it. -/
structure InPlace (ino : UInt64) (fi : FuseFileInfo) (m : Mount World) (h : FuseFileHandle) :
    Prop where
  handle : m.server.getFileHandle fi.fh = some h
  inodeId : h.inodeId = ino
  append : h.append = false
  appends : h.pendingAppendExtents = []
  valid : ∀ e ∈ h.pendingExtents, e.isInvalid = false ∧ e.InRange
  held : ∀ e ∈ h.pendingExtents, m.world.Holds m.server.config.bucket e

section InPlace

variable [OffsetSort] {ino : UInt64} {fi : FuseFileInfo} {m : Mount World} {h : FuseFileHandle}

omit [OffsetSort] in
theorem InPlace.visible (hi : InPlace ino fi m h) : h.visible = h.layout.file.write h.queued :=
  FuseFileHandle.visible_of_extents hi.appends

omit [OffsetSort] in
theorem InPlace.pendingInRange (hi : InPlace ino fi m h) : h.PendingInRange := by
  refine ⟨fun e he => (hi.valid e he).2, ?_⟩
  simp [FuseFileHandle.visibleAppendExtents, hi.appends]

theorem InPlace.read (hi : InPlace ino fi m h)
    (hlayout : ∀ e ∈ h.layout.extents, m.world.Holds m.server.config.bucket e) {size : UInt64}
    {off : Int64} (hsize : size.toNat < 2 ^ 63) (hoff : 0 ≤ off) :
    m.pulpfsRead World.backend ino size off fi =
      (.buf ((((h.layout.file.write h.queued).bytes m.value 0).drop off.toUInt64.toNat).take
        size.toNat), m) := by
  rw [← hi.visible]
  exact pulpfsRead_held hi.handle hi.pendingInRange hlayout hi.held (by simp [hi.appends]) ino
    hsize hoff

/-- A write under a key of its own that is not acknowledged changes no file, and one that is
acknowledged joins the end of the queue. -/
theorem InPlace.write (hi : InPlace ino fi m h) {buf : Bytes} {off : Int64} (hne : buf ≠ [])
    (hrange : off.toUInt64.toNat + buf.length < 2 ^ 64)
    (hnew : ∀ e ∈ h.pendingExtents, e.objectKey ≠ m.server.nextObjectKey ino off.toUInt64) :
    ∃ reply m', m.pulpfsWrite World.backend ino buf off fi = (reply, m') ∧
      m'.server.config = m.server.config ∧
      World.SameBut m.server.config.bucket (m.server.nextObjectKey ino off.toUInt64) m.world
        m'.world ∧
      ((∃ errno, reply = .err errno) ∧ InPlace ino fi m' h ∨
      ∃ size extent, reply = .write size ∧
        InPlace ino fi m' { h with pendingExtents := h.pendingExtents ++ [extent] } ∧
        extent.patch = writtenPatch (m.server.nextObjectKey ino off.toUInt64) off.toUInt64.toNat
          buf.length ∧
        ∀ x, extent.patch.Covers x →
          m'.value (extent.patch.value x) = buf.getD (x - off.toUInt64.toNat) 0) := by
  have hoffset : h.writeOffset off = off.toUInt64 := by
    rw [FuseFileHandle.writeOffset, hi.append, if_neg Bool.false_ne_true]
  have hcases := pulpfsWrite_cases hi.handle ino buf off
  have hstore := World.sameBut_store m.world m.server.config.bucket
    (m.server.nextObjectKey ino off.toUInt64) buf
  rw [hoffset] at hcases
  rcases hcases with ⟨errno, he⟩ | ⟨errno, w', he, hw'⟩ | ⟨extent, hext, _, he⟩
  · exact ⟨_, _, he, rfl, World.sameBut_refl .., .inl ⟨⟨errno, rfl⟩, hi⟩⟩
  · have hsame : World.SameBut m.server.config.bucket (m.server.nextObjectKey ino off.toUInt64)
        m.world w' := by
      rcases hw' with rfl | rfl
      · exact hstore
      · exact ⟨rfl, rfl, rfl, fun _ _ => rfl⟩
    refine ⟨_, _, he, rfl, hsame, .inl ⟨⟨errno, rfl⟩, hi.handle, hi.inodeId, hi.append,
      hi.appends, hi.valid, ?_⟩⟩
    exact fun e hmem => hsame.holds (hi.held e hmem) (hnew e hmem)
  · have hlen : buf.length < 2 ^ 64 := by omega
    have hpatch := hext.patch_eq hlen
    have hqueue : h.queue extent = { h with pendingExtents := h.pendingExtents ++ [extent] } := by
      rw [FuseFileHandle.queue, hi.append, if_neg Bool.false_ne_true]
    rw [hqueue] at he
    refine ⟨_, _, he, rfl, hstore, .inr ⟨extent.length, extent, rfl, ?_, hpatch, ?_⟩⟩
    · refine ⟨FuseServer.getFileHandle_setFileHandle_self _, hi.inodeId, hi.append, hi.appends,
        ?_, ?_⟩
      · exact List.forall_mem_append.mpr ⟨hi.valid,
          List.forall_mem_singleton.mpr ⟨hext.valid hne hlen, hext.inRange hrange⟩⟩
      · exact List.forall_mem_append.mpr
          ⟨fun e hmem => hstore.holds (hi.held e hmem) (hnew e hmem),
            List.forall_mem_singleton.mpr (hext.holds hlen)⟩
    · rw [hpatch]
      rintro x ⟨hlo, hhi⟩
      exact World.byteAt_written m.world m.server.config.bucket _ hlen hlo hhi

/-- A write through a handle opened for writing is acknowledged where uploads are done. -/
theorem pulpfsWrite_acknowledged (hget : m.server.getFileHandle fi.fh = some h)
    (hw : h.writable = true) (hb : m.server.config.bucket ≠ [])
    (hup : ∃ etag, m.world.uploads m.world.puts = .done etag) (ino : UInt64) (buf : Bytes)
    (off : Int64) : ∃ size, (m.pulpfsWrite World.backend ino buf off fi).1 = .write size := by
  obtain ⟨etag, hup⟩ := hup
  have hbucket : m.server.config.bucket.isEmpty = false := by
    rw [List.isEmpty_eq_false_iff]
    exact hb
  unfold Mount.pulpfsWrite
  simp only [hget, World.backend, hw, hbucket, Bool.not_true, Bool.false_eq_true, if_false,
    putExtent, World.objectStore, World.putObject, hup]
  exact ⟨_, rfl⟩

/-- A commit applied to a file that is stored lays the queue over it. -/
theorem InPlace.applied (hi : InPlace ino fi m h) {l : FileLayout}
    (hs : m.world.Stored m.server.config.bucket ino l) :
    (m.world.service.state.commitWrite (m.world.clocks m.world.calls) h.inodeId
      h.layout.attrs.version h.pendingExtents).1.isOk = true ∧
    ∃ l', (m.world.applied h.commitCommand).Stored m.server.config.bucket ino l' ∧
      l'.file = l.file.write h.queued := by
  obtain ⟨hok, l', hs', hfile, -⟩ := hs.commitWrite h.layout.attrs.version hi.valid hi.held
  unfold FuseFileHandle.commitCommand
  rw [hi.inodeId]
  exact ⟨hok, l', hs', hfile⟩

end InPlace

namespace Client

variable (ino : UInt64) (c : Client)

/-- No extent of the handle or of the service is in an object with the key of the next write. -/
def NewKey (off : Int64) : Prop :=
  ∀ h ∈ c.handle, ∀ extents ∈ (c.state.fileView ino).2,
    ∀ e ∈ h.layout.extents ++ h.pendingExtents ++ extents,
      e.objectKey ≠ c.mount.server.nextObjectKey ino off.toUInt64

instance (off : Int64) : Decidable (c.NewKey ino off) :=
  inferInstanceAs (Decidable (∀ h ∈ c.handle, _))

end Client

/-- A new file opened for writing. -/
def newFileClient (deliveries : ℕ → Delivery) : Client where
  mount :=
    { server := (FuseServer.fresh ⟨ascii "b", []⟩ (ascii "w")).setFileHandle 1
        { inodeId := 2, writable := true }
      world :=
        { World.fresh 4096 with
          service := ⟨final (@MetaState.call .insertion)
            [⟨fun _ => 1, .createFile 1 (ascii "f") 0o644 0 0⟩] (.fresh 4096 0)⟩
          deliveries } }
  opened := some { flags := oRdwr, fh := 1 }

theorem newFileClient_stored (deliveries : ℕ → Delivery) :
    ∃ l, (newFileClient deliveries).mount.world.Stored (ascii "b") 2 l ∧ l.file = .empty := by
  have hview : (newFileClient deliveries).state.fileView 2 = (some (.file, 0), some []) := by
    show MetaState.fileView (final (@MetaState.call .insertion) _ _) 2 = _
    decide
  obtain ⟨l, hgot, hsize, hext⟩ := MetaState.getLayout_of_view hview
  refine ⟨l, ⟨hgot, ?_, ?_⟩, ?_⟩
  · rw [hext]
    exact .nil
  · simp [hext]
  · rw [FileLayout.file, hsize, hext]
    rfl

end Pulpfs
