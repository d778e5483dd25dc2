import Pulpfs.Fuse.Backed
import Pulpfs.Meta.Contents
import Pulpfs.Foundations.Sessions

/-! A mount as a client that has files open. Its handles are sessions on the files of the service,
both read out of the object store, and a commit of a handle is a commit of its session. -/
namespace Pulpfs
open Overlay Function Transition Sessions

namespace World

variable (bucket : Bytes) (w : World)

/-- The bytes of a file. -/
def files (f : UInt64) : Option Bytes :=
  (w.service.state.contents f).map fun r => r.bytes (w.byteAt bucket) 0

/-- What is queued, as writes of bytes. -/
def queue (h : FuseFileHandle) : List (Write UInt8) :=
  h.pendingExtents.map (fun e => ⟨some e.offset.toNat, data (w.byteAt bucket) e.patch⟩) ++
    h.pendingAppendExtents.map fun e => ⟨none, data (w.byteAt bucket) e.patch⟩

def session (h : FuseFileHandle) : Opened UInt64 UInt8 where
  file := h.inodeId
  writable := h.writable
  append := h.append
  seen := h.layout.file.bytes (w.byteAt bucket) 0
  queue := w.queue bucket h

variable {bucket w} {w' : World} {h : FuseFileHandle}

/-- A stored byte stays what it is. -/
theorem Holds.byteAt_kept {e : FileExtent} (he : w.Holds bucket e) (hk : w.ObjectsKept w')
    {b : ObjectByte} (hb : e.objectKey = b.key) : w'.byteAt bucket b = w.byteAt bucket b := by
  obtain ⟨body, hbody, -⟩ := he
  unfold byteAt
  rw [← hb, hbody, hk _ body hbody]

theorem Holds.data_kept {e : FileExtent} (he : w.Holds bucket e) (hk : w.ObjectsKept w') :
    data (w'.byteAt bucket) e.patch = data (w.byteAt bucket) e.patch :=
  window_congr fun _ _ _ => he.byteAt_kept hk rfl

theorem bytes_kept (hk : w.ObjectsKept w') {es : List FileExtent}
    (hes : ∀ e ∈ es, w.Holds bucket e) {r : SparseFile ObjectByte}
    (hr : ∀ x b, r.content x = some b → ∃ e ∈ es, e.objectKey = b.key) :
    r.bytes (w'.byteAt bucket) 0 = r.bytes (w.byteAt bucket) 0 := by
  refine SparseFile.bytes_congr fun x b hb => ?_
  obtain ⟨e, he, hkey⟩ := hr x b hb
  exact (hes e he).byteAt_kept hk hkey

theorem Backs.queue_kept (hb : w.Backs bucket h) (hk : w.ObjectsKept w') :
    w'.queue bucket h = w.queue bucket h := by
  unfold queue
  refine congrArg₂ (· ++ ·) (List.map_congr_left fun e he => ?_)
    (List.map_congr_left fun e he => ?_)
  · rw [(hb.extents e he).data_kept hk]
  · rw [(hb.appends e he).data_kept hk]

theorem Backs.session_kept (hb : w.Backs bucket h) (hk : w.ObjectsKept w') :
    w'.session bucket h = w.session bucket h := by
  have hseen := bytes_kept hk hb.layout (r := h.layout.file) fun x b hx => by
    have hx : (h.layout.file.write (([] : List FileExtent).map FileExtent.patch)).content x =
      some b := hx
    obtain ⟨e, he, hkey⟩ := key_of_content hx
    rw [List.append_nil] at he
    exact ⟨e, he, hkey⟩
  simp only [session, hseen, hb.queue_kept hk]

/-- What a file contains lies in its extents. -/
theorem Backed.bytes_kept (hw : w.Backed bucket) (hk : w.ObjectsKept w') {f : UInt64}
    {r : SparseFile ObjectByte} (hr : w.service.state.contents f = some r) :
    r.bytes (w'.byteAt bucket) 0 = r.bytes (w.byteAt bucket) 0 := by
  have hheld := hw.held f
  unfold MetaState.contents at hr
  generalize w.service.state.fileView f = v at hr hheld
  obtain ⟨d, es⟩ := v
  cases d with
  | none => contradiction
  | some d =>
    cases es with
    | none => contradiction
    | some es =>
      obtain ⟨type, size⟩ := d
      simp only [FileView.contents] at hr
      split at hr
      next =>
        obtain rfl := Option.some.inj hr
        refine World.bytes_kept hk (hheld es rfl) fun x b hx => ?_
        obtain ⟨p, hp, -, rfl⟩ := exists_of_content hx
        obtain ⟨e, he, rfl⟩ := List.mem_map.mp hp
        exact ⟨e, he, rfl⟩
      next => contradiction

theorem Backed.files_kept (hw : w.Backed bucket) (hk : w.ObjectsKept w') {f : UInt64}
    (hsame : w'.service.state.contents f = w.service.state.contents f) :
    w'.files bucket f = w.files bucket f := by
  unfold files
  rw [hsame]
  cases hr : w.service.state.contents f with
  | none => rfl
  | some r => rw [Option.map_some, Option.map_some, hw.bytes_kept hk hr]

end World

/-- Numbers are left to give out, and the sizes are those of files. -/
structure MetaState.Small (s : MetaState) : Prop where
  room : s.nextInodeId.toNat + 1 < 2 ^ 64
  sizes : ∀ f, s.sizeOf f < 2 ^ 63

theorem MetaState.small_fresh (chunkSize : UInt64) (nowNs : Int64) :
    (fresh chunkSize nowNs).Small := by
  refine ⟨show (kRootInodeId + 1).toNat + 1 < 2 ^ 64 by decide, fun f => ?_⟩
  have hsize : (fresh chunkSize nowNs).sizeOf f =
      (((fresh chunkSize nowNs).fileView f).1.map fun d => d.2.toNat).getD 0 := by
    unfold sizeOf fileView
    cases (fresh chunkSize nowNs).inodes[f]? with
    | none => rfl
    | some a => rfl
  rw [hsize, fileView_fresh]
  by_cases hf : f = kRootInodeId
  · simp [hf]
  · simp [hf]

/-- It is enough to look at the inodes there are. -/
theorem MetaState.small_of_inodes {s : MetaState} (room : s.nextInodeId.toNat + 1 < 2 ^ 64)
    (hsizes : ∀ p ∈ s.inodes.toList, p.2.size.toNat < 2 ^ 63) : s.Small := by
  refine ⟨room, fun f => ?_⟩
  unfold sizeOf
  cases hf : s.inodes[f]? with
  | none => exact Nat.two_pow_pos 63
  | some a => exact hsizes (f, a) (Std.ExtTreeMap.mem_toList_iff_getElem?_eq_some.mpr hf)

theorem MetaState.Consistent.getLayout_spec {s : MetaState} (h : s.Consistent) (hsmall : s.Small)
    {i : UInt64} {l : FileLayout} (hl : s.getLayout i = .ok l) :
    s.contents i = some l.file ∧ l.file.Confined ∧ l.attrs.size.toNat < 2 ^ 63 := by
  obtain ⟨hc, -⟩ := h.contents_of_getLayout hl
  have hsize := hsmall.sizes i
  rw [h.sizeOf_eq hc] at hsize
  exact ⟨hc, h.confined i _ hc, hsize⟩

namespace FuseFileHandle

/-- What the file becomes when the queue is committed. -/
def onto (h : FuseFileHandle) (r : SparseFile ObjectByte) : SparseFile ObjectByte :=
  if h.append then r.append (h.pendingAppendExtents.map FileExtent.patch)
  else r.write (h.pendingExtents.map FileExtent.patch)

/-- One queue is in use, of extents that a commit accepts; appends abut, and nothing reaches
beyond what an offset of a file can be. -/
structure Ready (h : FuseFileHandle) : Prop where
  confined : h.layout.file.Confined
  size : h.layout.attrs.size.toNat < 2 ^ 63
  extents : ∀ e ∈ h.pendingExtents, e.isInvalid = false ∧
    e.offset.toNat + e.length.toNat < 2 ^ 63
  appends : ∀ e ∈ h.pendingAppendExtents, e.isInvalid = false
  abut : Abut 0 h.pendingAppendLength.toNat (h.pendingAppendExtents.map FileExtent.patch)
  length : h.pendingAppendLength.toNat < 2 ^ 63
  one_queue : if h.append then h.pendingExtents = [] else h.pendingAppendExtents = []

/-- A handle with nothing queued. -/
theorem ready_of_empty {h : FuseFileHandle} (hc : h.layout.file.Confined)
    (hsize : h.layout.attrs.size.toNat < 2 ^ 63) (hextents : h.pendingExtents = [])
    (happends : h.pendingAppendExtents = []) (hlength : h.pendingAppendLength = 0) : h.Ready := by
  refine ⟨hc, hsize, by simp [hextents], by simp [happends], ?_, by simp [hlength], ?_⟩
  · rw [happends, hlength]
    rfl
  · split
    · exact hextents
    · exact happends

theorem patch_pos {e : FileExtent} (h : e.isInvalid = false) : e.patch.start < e.patch.stop :=
  Nat.lt_add_of_pos_right (FileExtent.length_pos h)

namespace Ready

variable {h : FuseFileHandle} (hr : h.Ready)
include hr

theorem extents_pos : ∀ p ∈ h.pendingExtents.map FileExtent.patch, p.start < p.stop := by
  simp only [List.forall_mem_map]
  exact fun e he => patch_pos (hr.extents e he).1

theorem appends_pos : ∀ p ∈ h.pendingAppendExtents.map FileExtent.patch, p.start < p.stop := by
  simp only [List.forall_mem_map]
  exact fun e he => patch_pos (hr.appends e he)

theorem extents_inRange : ∀ e ∈ h.pendingExtents, e.InRange := by
  intro e he
  have hlt := (hr.extents e he).2
  unfold FileExtent.InRange
  omega

theorem appends_lt {n : ℕ} (hn : n < 2 ^ 63) :
    ∀ e ∈ h.pendingAppendExtents, n + e.offset.toNat + e.length.toNat < 2 ^ 64 := by
  intro e he
  have hle : e.offset.toNat + e.length.toNat ≤ h.pendingAppendLength.toNat :=
    (hr.abut.le hr.appends_pos).2 e.patch (List.mem_map_of_mem he)
  have hlt := hr.length
  omega

theorem pendingInRange : h.PendingInRange :=
  ⟨hr.extents_inRange, FuseFileHandle.appends_inRange (hr.appends_lt hr.size)⟩

/-- What a handle shows is what a commit would make of the file it last saw. -/
theorem visible_eq : h.visible = h.onto h.layout.file := by
  have hone := hr.one_queue
  unfold onto
  cases ha : h.append with
  | true =>
    rw [if_pos rfl]
    rw [if_pos ha] at hone
    exact visible_of_appends hone (hr.appends_lt hr.size)
  | false =>
    rw [if_neg Bool.false_ne_true]
    rw [ha, if_neg Bool.false_ne_true] at hone
    exact visible_of_extents hone

/-- A commit lays the queue over the bytes of the file. -/
theorem bytes_onto {bucket : Bytes} {w : World} {r : SparseFile ObjectByte} (hc : r.Confined) :
    (h.onto r).bytes (w.byteAt bucket) 0 =
      lay 0 (r.bytes (w.byteAt bucket) 0) (w.queue bucket h) := by
  have hone := hr.one_queue
  unfold onto World.queue
  cases ha : h.append with
  | true =>
    rw [if_pos rfl]
    rw [if_pos ha] at hone
    refine (bytes_append_all hc hr.appends_pos hr.abut rfl).trans ?_
    rw [hone, List.map_nil, List.nil_append, List.map_map]
    rfl
  | false =>
    rw [if_neg Bool.false_ne_true]
    rw [ha, if_neg Bool.false_ne_true] at hone
    refine (bytes_write_all hc hr.extents_pos).trans ?_
    rw [hone, List.map_nil, List.append_nil, List.map_map]
    rfl

/-- What is read through a handle is what its session shows. -/
theorem bytes_visible (bucket : Bytes) (w : World) :
    h.visible.bytes (w.byteAt bucket) 0 = (w.session bucket h).shown 0 := by
  rw [hr.visible_eq, hr.bytes_onto hr.confined]
  rfl

end Ready

end FuseFileHandle

section Writes

variable {m : Mount World} {h : FuseFileHandle} {ino off : UInt64} {buf : Bytes}
  {extent : FileExtent}

/-- The extent of a write has the bytes that were written. -/
theorem IsWritten.data_eq (hext : IsWritten m ino off buf extent) (hlen : buf.length < 2 ^ 64) :
    data ((m.world.store (m.upload ino off buf)).byteAt m.server.config.bucket) extent.patch =
      buf := by
  have hstop : off.toNat + buf.length - off.toNat = buf.length := Nat.add_sub_cancel_left ..
  rw [hext.patch_eq hlen]
  apply List.ext_getElem
  · rw [length_data]
    exact hstop
  · intro n hn hn'
    simp only [data, getElem_window]
    refine (World.byteAt_written m.world m.server.config.bucket (m.server.nextObjectKey ino off)
      hlen (Nat.le_add_right _ n) (Nat.add_lt_add_left hn' _)).trans ?_
    rw [Nat.add_sub_cancel_left, ← List.getElem_eq_getD 0]

namespace FuseFileHandle.Ready

variable (hr : h.Ready) {offset : Int64}
include hr

/-- What is queued for a handle is what its session writes. -/
theorem session_queue (hb : m.world.Backs m.server.config.bucket h)
    (hext : IsWritten m ino (h.writeOffset offset) buf extent) (hlen : buf.length < 2 ^ 64)
    (hk : m.world.ObjectsKept (m.world.store (m.upload ino (h.writeOffset offset) buf))) :
    (m.world.store (m.upload ino (h.writeOffset offset) buf)).session m.server.config.bucket
        (h.queue extent) =
      (m.world.session m.server.config.bucket h).write offset.toUInt64.toNat buf := by
  have hdata := hext.data_eq hlen
  have hone := hr.one_queue
  rw [← hb.session_kept hk]
  unfold FuseFileHandle.queue Opened.write
  cases ha : h.append with
  | true =>
    simp only [if_true, World.session, World.queue, ha, List.map_append, List.map_cons,
      List.map_nil, hdata, List.append_assoc]
  | false =>
    rw [ha, if_neg Bool.false_ne_true] at hone
    have hoffset : extent.offset = offset.toUInt64 := by
      rw [hext.offset, FuseFileHandle.writeOffset, ha, if_neg Bool.false_ne_true]
    simp only [Bool.false_eq_true, if_false, World.session, World.queue, ha, hone,
      List.map_append, List.map_cons, List.map_nil, List.append_nil, hdata, hoffset]

/-- A write of at least one byte below the largest offset leaves the handle ready. -/
theorem queue (hext : IsWritten m ino (h.writeOffset offset) buf extent) (hne : buf ≠ [])
    (hfits : (h.writeOffset offset).toNat + buf.length < 2 ^ 63) : (h.queue extent).Ready := by
  have hvalid := hext.valid hne (by omega)
  have hlength : extent.length.toNat = buf.length := by
    rw [hext.length, UInt64.toNat_ofNat', Nat.mod_eq_of_lt (by omega)]
  have hone := hr.one_queue
  unfold FuseFileHandle.queue
  cases ha : h.append with
  | true =>
    have hoffset : h.writeOffset offset = h.pendingAppendLength := by
      rw [FuseFileHandle.writeOffset, ha, if_pos rfl]
    rw [ha, if_pos rfl] at hone
    rw [hoffset] at hext hfits
    have hsum : (h.pendingAppendLength + extent.length).toNat =
        h.pendingAppendLength.toNat + buf.length := by
      rw [UInt64.toNat_add, hlength]
      omega
    have hstop : extent.patch.stop = (h.pendingAppendLength + extent.length).toNat := by
      rw [hsum, hext.patch_eq (by omega)]
      rfl
    have hstart : extent.patch.start = h.pendingAppendLength.toNat :=
      congrArg UInt64.toNat hext.offset
    rw [if_pos rfl]
    refine ⟨hr.confined, hr.size, hr.extents, ?_, ?_, ?_, ?_⟩
    · simp only [List.forall_mem_append, List.forall_mem_singleton]
      exact ⟨hr.appends, hvalid⟩
    · rw [List.map_append, List.map_singleton, ← hstop]
      exact hr.abut.concat hstart
    · show (h.pendingAppendLength + extent.length).toNat < 2 ^ 63
      omega
    · simpa using hone
  | false =>
    rw [ha, if_neg Bool.false_ne_true] at hone
    rw [if_neg Bool.false_ne_true]
    refine ⟨hr.confined, hr.size, ?_, hr.appends, hr.abut, hr.length, ?_⟩
    · simp only [List.forall_mem_append, List.forall_mem_singleton]
      refine ⟨hr.extents, hvalid, ?_⟩
      rw [hext.offset, hlength]
      exact hfits
    · simpa using hone

end FuseFileHandle.Ready

end Writes

section Calls

variable [OffsetSort] {bucket : Bytes} {w : World} {h : FuseFileHandle}

/-- How a command ends for the client, whose reading of the response fails where the server did. -/
theorem World.propose_cases {α : Type} (w : World) (c : Command)
    (read : RaftCommandResponse → Except Error α)
    (hread : ∀ e, ∃ e', read (makeErrorResponse e) = .error e')
    (hends : (∃ e, (w.service.state.execute (w.clocks w.calls) c).1 = .error e) ∨
      ∃ reply, (w.service.state.execute (w.clocks w.calls) c).1 = .ok reply) :
    (∃ e, w.propose c read = (.error e, w.count)) ∨
      (∃ e, w.propose c read = (.error e, w.applied c)) ∨
        ∃ a reply, w.propose c read = (.ok a, w.applied c) ∧
          (w.service.state.execute (w.clocks w.calls) c).1 = .ok reply := by
  cases hd : w.deliveries w.calls with
  | notApplied status => exact .inl ⟨_, World.propose_notApplied hd⟩
  | replyLost status => exact .inr (.inl ⟨_, World.propose_replyLost hd⟩)
  | answered =>
    right
    rcases hends with ⟨e, he⟩ | ⟨reply, hreply⟩
    · obtain ⟨e', he'⟩ := hread e
      left
      rw [World.propose_refused hd he, he']
      exact ⟨_, rfl⟩
    · rw [World.propose_answered hd hreply]
      cases read reply.response with
      | error e => exact .inl ⟨_, rfl⟩
      | ok a => exact .inr ⟨a, reply, rfl, hreply⟩

/-- A refresh gets what the service has or leaves the handle alone. -/
theorem World.refreshLayout_cases (w : World) (h : FuseFileHandle) :
    refreshLayout World.metaClient h w = (h, w.count) ∨
      ∃ l, w.service.state.getLayout h.inodeId = .ok l ∧
        refreshLayout World.metaClient h w = ({ h with layout := l }, w.count) := by
  have hworld : (World.metaClient.getLayout h.inodeId w).2 = w.count := w.query_world _
  unfold Pulpfs.refreshLayout
  split
  next layout w' he =>
    rw [he] at hworld
    obtain rfl := hworld
    exact .inr ⟨layout, World.query_ok (congrArg Prod.fst he), rfl⟩
  next e w' he =>
    rw [he] at hworld
    obtain rfl := hworld
    exact .inl rfl

namespace FuseFileHandle

/-- The command that commits the queue. -/
def command (h : FuseFileHandle) : Command :=
  if h.append then h.appendCommand else h.commitCommand

/-- The handle with its queue committed. -/
def emptied (h : FuseFileHandle) : FuseFileHandle :=
  { h with pendingExtents := [], pendingAppendExtents := [], pendingAppendLength := 0 }

omit [OffsetSort] in
theorem command_written (h : FuseFileHandle) : h.command.written = some h.inodeId := by
  unfold command
  split
  · rfl
  · rfl

omit [OffsetSort] in
/-- What the command does to the file. -/
theorem command_onto (h : FuseFileHandle) (r : SparseFile ObjectByte) :
    h.command.onReference h.inodeId r = h.onto r := by
  unfold command onto
  split
  · exact if_pos rfl
  · exact if_pos rfl

namespace Ready

variable (hr : h.Ready)
include hr

omit [OffsetSort] in
theorem command_extents : accepted h.command.extents = true := by
  unfold command
  split
  · exact accepted_iff.mpr hr.appends
  · exact accepted_iff.mpr fun e he => (hr.extents e he).1

omit [OffsetSort] in
theorem command_noOverflow {n : ℕ} (hn : n < 2 ^ 63) : h.command.NoOverflow n := by
  unfold command
  split
  · exact hr.appends_lt hn
  · exact hr.extents_inRange

omit hr in
/-- With nothing queued, nothing is done. -/
theorem commit_idle (hqueue : w.queue bucket h = []) :
    commitHandle World.metaClient h w = (.ok (), h, w) := by
  obtain ⟨he, ha⟩ := List.append_eq_nil_iff.mp hqueue
  exact commitHandle_idle (List.map_eq_nil_iff.mp he) (List.map_eq_nil_iff.mp ha) w

/-- Otherwise one command is sent, and when it is answered the layout is got again. -/
theorem commit_cases (hqueue : w.queue bucket h ≠ [])
    (hends : (∃ e, (w.service.state.execute (w.clocks w.calls) h.command).1 = .error e) ∨
      ∃ reply, (w.service.state.execute (w.clocks w.calls) h.command).1 = .ok reply) :
    (∃ e, commitHandle World.metaClient h w = (.error e, h, w.count)) ∨
      (∃ e, commitHandle World.metaClient h w = (.error e, h, w.applied h.command)) ∨
        (∃ reply, (w.service.state.execute (w.clocks w.calls) h.command).1 = .ok reply) ∧
          commitHandle World.metaClient h w =
            (.ok (), refreshLayout World.metaClient h.emptied (w.applied h.command)) := by
  have hone := hr.one_queue
  unfold World.queue at hqueue
  cases ha : h.append with
  | true =>
    have hcommand : h.command = h.appendCommand := if_pos ha
    rw [if_pos ha] at hone
    rw [hone, List.map_nil, List.nil_append] at hqueue
    have hne : h.pendingAppendExtents.isEmpty = false := by
      rw [List.isEmpty_eq_false_iff]
      exact fun hnil => hqueue (List.map_eq_nil_iff.mpr hnil)
    rw [hcommand] at hends ⊢
    rw [commitHandle_of_no_extents hone]
    rcases w.propose_cases h.appendCommand RaftCommandResponse.appendResult (fun e => ⟨_, rfl⟩)
      hends with ⟨e, he⟩ | ⟨e, he⟩ | ⟨a, reply, he, hreply⟩
    all_goals
      have hcall : World.metaClient.appendWrite h.inodeId h.layout.attrs.version
        h.pendingAppendExtents w = _ := he
      simp only [commitAppends, hne, Bool.false_eq_true, if_false, hcall]
    · exact .inl ⟨e, rfl⟩
    · exact .inr (.inl ⟨e, rfl⟩)
    · refine .inr (.inr ⟨⟨reply, hreply⟩, ?_⟩)
      simp only [emptied, hone]
  | false =>
    have hcommand : h.command = h.commitCommand := by
      rw [command, ha, if_neg Bool.false_ne_true]
    rw [ha, if_neg Bool.false_ne_true] at hone
    rw [hone, List.map_nil, List.append_nil] at hqueue
    have hne : h.pendingExtents.isEmpty = false := by
      rw [List.isEmpty_eq_false_iff]
      exact fun hnil => hqueue (List.map_eq_nil_iff.mpr hnil)
    have hlength : h.pendingAppendLength = 0 := by
      have habut := hr.abut
      rw [hone, List.map_nil] at habut
      exact UInt64.toNat_inj.mp habut.symm
    have hemptied : ({ h with pendingExtents := [] } : FuseFileHandle) = h.emptied := by
      simp only [emptied, hone, hlength]
    rw [hcommand] at hends ⊢
    rcases w.propose_cases h.commitCommand RaftCommandResponse.inodeResult (fun e => ⟨_, rfl⟩)
      hends with ⟨e, he⟩ | ⟨e, he⟩ | ⟨a, reply, he, hreply⟩
    all_goals
      have hcall : World.metaClient.commitWrite h.inodeId h.layout.attrs.version
        h.pendingExtents w = _ := he
      simp only [commitHandle, commitExtents, hne, Bool.false_eq_true, if_false, hcall]
    · exact .inl ⟨e, rfl⟩
    · exact .inr (.inl ⟨e, rfl⟩)
    · refine .inr (.inr ⟨⟨reply, hreply⟩, ?_⟩)
      rw [hemptied]
      -- nothing is left for the second half
      obtain ⟨layout, hrefresh⟩ := refreshLayout_eq h.emptied (w.applied h.commitCommand)
      rw [hrefresh]
      rfl

variable (bucket) in
/-- The step lemma for `CommitHandle`. -/
theorem commits (hs : w.service.state.Consistent) (hsmall : w.service.state.Small) :
    Commits 0 (w.session bucket h) (w.files bucket h.inodeId)
        (commitHandle World.metaClient h w).1.isOk
        ((commitHandle World.metaClient h w).2.2.files bucket h.inodeId)
        ((commitHandle World.metaClient h w).2.2.session bucket
          (commitHandle World.metaClient h w).2.1) ∧
      (∀ f, f ≠ h.inodeId →
        (commitHandle World.metaClient h w).2.2.files bucket f = w.files bucket f) ∧
      (commitHandle World.metaClient h w).2.2.service.state.Consistent ∧
      ((commitHandle World.metaClient h w).2.2.service.state.Small →
        (commitHandle World.metaClient h w).2.1.Ready) := by
  by_cases hqueue : w.queue bucket h = []
  · rw [commit_idle hqueue]
    exact ⟨.idle hqueue, fun _ _ => rfl, hs, fun _ => hr⟩
  · have hno : h.command.NoOverflow (w.service.state.sizeOf h.inodeId) :=
      hr.command_noOverflow (hsmall.sizes _)
    have hwritten := hs.execute_written (w.clocks w.calls) h.command_written hr.command_extents hno
    have hsound : (w.applied h.command).service.state.Consistent := by
      rw [w.applied_state]
      refine hs.execute _ hr.command_extents (fun f hf => ?_) hsmall.room
      obtain rfl := Option.some.inj (h.command_written.symm.trans hf)
      exact hno
    have hother (f : UInt64) (hf : f ≠ h.inodeId) :
        (w.applied h.command).files bucket f = w.files bucket f := by
      have hview := (w.service.state.execute_wrote (w.clocks w.calls) h.command_written).view hf
      rw [← w.applied_state] at hview
      exact congrArg (fun v => (FileView.contents v).map fun r => r.bytes (w.byteAt bucket) 0) hview
    have hafter : (w.applied h.command).files bucket h.inodeId =
        (w.files bucket h.inodeId).map fun r => lay 0 r (w.queue bucket h) := by
      have hcontents := hs.contents_written (w.clocks w.calls) h.command_written
        hr.command_extents hno
      rw [← w.applied_state] at hcontents
      unfold World.files
      rw [hcontents]
      cases hc : w.service.state.contents h.inodeId with
      | none => rfl
      | some r =>
        simp only [Option.map_some, h.command_onto]
        exact congrArg some (hr.bytes_onto (hs.confined _ r hc))
    have hends : (∃ e, (w.service.state.execute (w.clocks w.calls) h.command).1 = .error e) ∨
        ∃ reply, (w.service.state.execute (w.clocks w.calls) h.command).1 = .ok reply := by
      rcases hwritten with ⟨e, -, hfail⟩ | ⟨r, reply, -, hreply, -⟩
      · exact .inl ⟨e, congrArg Prod.fst hfail⟩
      · exact .inr ⟨reply, hreply⟩
    rcases hr.commit_cases hqueue hends with ⟨e, he⟩ | ⟨e, he⟩ | ⟨⟨reply, hreply⟩, he⟩
    · rw [he]
      exact ⟨.lost, fun _ _ => rfl, hs, fun _ => hr⟩
    · rw [he]
      refine ⟨?_, hother, hsound, fun _ => hr⟩
      show Commits 0 (w.session bucket h) _ false ((w.applied h.command).files bucket h.inodeId)
        (w.session bucket h)
      rw [hafter]
      cases w.files bucket h.inodeId with
      | none => exact .lost
      | some r => exact .unanswered
    · obtain ⟨r, hfile⟩ : ∃ r, w.files bucket h.inodeId = some r := by
        rcases hwritten with ⟨e, -, hfail⟩ | ⟨r, -, hc, -⟩
        · rw [hfail] at hreply
          contradiction
        · exact ⟨_, congrArg (Option.map _) hc⟩
      rw [hfile, Option.map_some] at hafter
      have hdone {seen : Bytes} (hseen : seen = (w.session bucket h).seen ∨
          seen = lay 0 r (w.queue bucket h)) :
          Commits 0 (w.session bucket h) (w.files bucket h.inodeId) true
            ((w.applied h.command).files bucket h.inodeId)
            { w.session bucket h with seen, queue := [] } := by
        rw [hfile, hafter]
        exact .done hseen
      rw [he]
      rcases (w.applied h.command).refreshLayout_cases h.emptied with hkept | ⟨l, hl, hgot⟩
      · rw [hkept]
        exact ⟨hdone (.inl rfl), hother, hsound,
          fun _ => ready_of_empty hr.confined hr.size rfl rfl rfl⟩
      · rw [hgot]
        refine ⟨hdone (.inr ?_), hother, hsound, fun hsmall' => ?_⟩
        · have hgotten : (w.applied h.command).files bucket h.inodeId =
              some (l.file.bytes (w.byteAt bucket) 0) :=
            congrArg (Option.map _) (hsound.contents_of_getLayout hl).1
          exact Option.some.inj (hgotten.symm.trans hafter)
        · obtain ⟨-, hconfined, hsize⟩ := hsound.getLayout_spec hsmall' hl
          exact ready_of_empty hconfined hsize rfl rfl rfl

end Ready

end FuseFileHandle

end Calls

end Pulpfs
