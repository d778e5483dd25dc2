import Pulpfs.Fuse.Stored

/-! A handle whose cached layout is the one of the service and whose queue the store has, for
positional writes and appends alike, and what each request makes of it when its calls are
answered. -/
namespace Pulpfs
open Overlay Transition

structure OpenMode where
  writable : Bool
  append : Bool
  deriving DecidableEq

def OpenMode.of (flags : UInt32) : OpenMode := ⟨isWritable flags, flags &&& oAppend ≠ 0⟩

/-- Keys of different numbers differ. -/
theorem keyAt_sequence {g : ObjectKeyGenerator} {objectPrefix : Bytes}
    {ino sequence sequence' off off' : UInt64}
    (h : g.keyAt objectPrefix ino sequence off = g.keyAt objectPrefix ino sequence' off') :
    sequence = sequence' := by
  simp only [ObjectKeyGenerator.keyAt, List.append_assoc, List.append_cancel_left_eq] at h
  have hslash : ascii "/" = [47] := by decide
  rw [hslash, List.singleton_append, List.singleton_append] at h
  obtain ⟨hsequence, -⟩ := (List.append_cons_inj_of_notMem (slash_notMem_toDecimal _)
    (slash_notMem_toDecimal _)).mp h
  exact toDecimal_injective hsequence

namespace Mount

variable {m m' : Mount World} {ino : UInt64} {n : ℕ} {key : Bytes}

/-- No object of the file that is one of the next `n` to be put has this key. -/
def Misses (m : Mount World) (ino : UInt64) (n : ℕ) (key : Bytes) : Prop :=
  ∀ i < n, ∀ off, key ≠ m.server.objectKeyGenerator.keyAt m.server.config.objectPrefix ino
    (m.server.objectKeyGenerator.nextSequence + UInt64.ofNat i) off

theorem Misses.mono (h : m.Misses ino (n + 1) key) : m.Misses ino n key :=
  fun i hi => h i (by omega)

theorem Misses.congr (h : m.Misses ino n key) (hconfig : m'.server.config = m.server.config)
    (hgenerator : m'.server.objectKeyGenerator = m.server.objectKeyGenerator) :
    m'.Misses ino n key := by
  unfold Misses
  rw [hconfig, hgenerator]
  exact h

theorem Misses.ne_next (h : m.Misses ino (n + 1) key) (off : UInt64) :
    key ≠ m.server.nextObjectKey ino off := by
  have hkey := h 0 (by omega) off
  have hzero : m.server.objectKeyGenerator.nextSequence + UInt64.ofNat 0 =
      m.server.objectKeyGenerator.nextSequence := UInt64.add_zero _
  rwa [hzero] at hkey

/-- One key later. -/
theorem Misses.advance (h : m.Misses ino (n + 1) key) (off : UInt64)
    (hconfig : m'.server.config = m.server.config)
    (hgenerator : m'.server.objectKeyGenerator =
      (m.server.countObjectKey ino off).objectKeyGenerator) :
    m'.Misses ino n key := by
  intro i hi off'
  have hkey := h (i + 1) (by omega) off'
  have hsum : m.server.objectKeyGenerator.nextSequence + UInt64.ofNat (i + 1) =
      m.server.objectKeyGenerator.nextSequence + 1 + UInt64.ofNat i := by
    rw [UInt64.ofNat_add, UInt64.add_comm (UInt64.ofNat i), UInt64.add_assoc]
    rfl
  rw [hsum] at hkey
  rw [hconfig, hgenerator]
  exact hkey

/-- As long as the numbers do not come round, the key that is used now does not come again. -/
theorem nextObjectKey_missed (hn : n < 2 ^ 64) (off : UInt64)
    (hconfig : m'.server.config = m.server.config)
    (hgenerator : m'.server.objectKeyGenerator =
      (m.server.countObjectKey ino off).objectKeyGenerator) :
    m'.Misses ino n (m.server.nextObjectKey ino off) := by
  intro i hi off' hkey
  rw [hconfig, hgenerator] at hkey
  have hsequence : m.server.objectKeyGenerator.nextSequence =
      m.server.objectKeyGenerator.nextSequence + 1 + UInt64.ofNat i := keyAt_sequence hkey
  have hnat := congrArg UInt64.toNat hsequence
  have hlt := m.server.objectKeyGenerator.nextSequence.toNat_lt
  rw [UInt64.toNat_add, UInt64.toNat_add, UInt64.toNat_ofNat', UInt64.toNat_one] at hnat
  omega

/-- Every call to come is answered, every upload done. -/
structure Healthy (m : Mount World) : Prop where
  bucket : m.server.config.bucket ≠ []
  answered : ∀ n, m.world.deliveries n = .answered
  uploaded : ∀ n, ∃ etag, m.world.uploads n = .done etag

theorem Healthy.of_sameStore (h : m.Healthy) {server : FuseServer} {w' : World}
    (hconfig : server.config = m.server.config) (hs : World.SameStore m.world w') :
    Healthy ⟨server, w'⟩ :=
  ⟨hconfig ▸ h.bucket, hs.deliveries ▸ h.answered, hs.uploads ▸ h.uploaded⟩

end Mount

/-- No open is in use, and the service has the file. -/
structure Closed (ino : UInt64) (n : ℕ) (file : Bytes) (m : Mount World) (l : FileLayout) :
    Prop where
  stored : m.world.Stored m.server.config.bucket ino l
  confined : l.file.Confined
  bytes : l.file.bytes m.value 0 = file
  missed : ∀ e ∈ l.extents, m.Misses ino n e.objectKey

/-- Between two uses of an open: the cached layout is the one of the service, and with what is
queued it shows the file. -/
structure Mirrors (ino : UInt64) (fi : FuseFileInfo) (n : ℕ) (file : Bytes) (mode : OpenMode)
    (m : Mount World) (h : FuseFileHandle) : Prop where
  handle : m.server.getFileHandle fi.fh = some h
  inodeId : h.inodeId = ino
  writable : h.writable = mode.writable
  append : h.append = mode.append
  stored : m.world.Stored m.server.config.bucket ino h.layout
  confined : h.layout.file.Confined
  extents : ∀ e ∈ h.pendingExtents, e.isInvalid = false ∧ e.InRange
  appends : ∀ e ∈ h.pendingAppendExtents, e.isInvalid = false ∧
    h.layout.attrs.size.toNat + e.offset.toNat + e.length.toNat < 2 ^ 64
  one_queue : if h.append then h.pendingExtents = [] else h.pendingAppendExtents = []
  held : ∀ e ∈ h.pendingExtents ++ h.pendingAppendExtents,
    m.world.Holds m.server.config.bucket e
  length : h.append = true →
    h.layout.attrs.size.toNat + h.pendingAppendLength.toNat = file.length
  bytes : h.visible.bytes m.value 0 = file
  missed : ∀ e ∈ h.layout.extents ++ (h.pendingExtents ++ h.pendingAppendExtents),
    m.Misses ino n e.objectKey

/-- An offset below 2^63 is no negative one. -/
theorem nonneg_of_toUInt64_lt {off : Int64} (h : off.toUInt64.toNat < 2 ^ 63) : 0 ≤ off := by
  rw [Int64.le_iff_toInt_le]
  have hint : off.toInt = (off.toUInt64.toNat : ℤ) := by
    show off.toBitVec.toInt = _
    rw [BitVec.toInt_eq_toNat_cond, if_pos]
    · rfl
    · show 2 * off.toUInt64.toNat < 2 ^ 64
      omega
  rw [hint]
  exact Int.natCast_nonneg _

namespace FuseFileHandle

variable (h : FuseFileHandle) (extent : FileExtent)

/-- A queued extent where it is shown. -/
def shownExtent : FileExtent :=
  if h.append then { extent with offset := h.layout.attrs.size + extent.offset } else extent

theorem queue_frame : (h.queue extent).inodeId = h.inodeId ∧
    (h.queue extent).writable = h.writable ∧ (h.queue extent).append = h.append ∧
    (h.queue extent).layout = h.layout := by
  unfold queue
  split
  · exact ⟨rfl, rfl, rfl, rfl⟩
  · exact ⟨rfl, rfl, rfl, rfl⟩

variable {h extent}

theorem mem_queue {e : FileExtent}
    (he : e ∈ (h.queue extent).pendingExtents ++ (h.queue extent).pendingAppendExtents) :
    e ∈ h.pendingExtents ++ h.pendingAppendExtents ∨ e = extent := by
  unfold queue at he
  split at he
  · simp only [List.mem_append, List.mem_singleton] at he ⊢
    tauto
  · simp only [List.mem_append, List.mem_singleton] at he ⊢
    tauto

/-- With one of the two queues in use, the new extent is shown over all others. -/
theorem visible_queue
    (hone : if h.append then h.pendingExtents = [] else h.pendingAppendExtents = []) :
    (h.queue extent).visible = h.visible.write [(h.shownExtent extent).patch] := by
  unfold queue shownExtent
  cases ha : h.append with
  | true =>
    simp only [if_true, visible, visibleAppendExtents, List.map_append, SparseFile.write_append]
    rfl
  | false =>
    rw [ha, if_neg Bool.false_ne_true] at hone
    simp only [Bool.false_eq_true, if_false, visible, visibleAppendExtents, hone, List.map_append,
      SparseFile.write_append]
    rfl

end FuseFileHandle

namespace Mirrors

variable {ino : UInt64} {fi : FuseFileInfo} {n : ℕ} {file : Bytes} {mode : OpenMode}
  {m m' : Mount World} {h : FuseFileHandle}

theorem mono (hm : Mirrors ino fi (n + 1) file mode m h) : Mirrors ino fi n file mode m h :=
  { hm with missed := fun e he => (hm.missed e he).mono }

theorem pendingInRange (hm : Mirrors ino fi n file mode m h) : h.PendingInRange :=
  ⟨fun e he => (hm.extents e he).2,
    FuseFileHandle.appends_inRange fun e he => (hm.appends e he).2⟩

/-- All that a handle has queued, where it is shown. -/
theorem visible_eq (h : FuseFileHandle) : h.visible =
    h.layout.file.write ((h.pendingExtents ++ h.visibleAppendExtents).map FileExtent.patch) := by
  rw [List.map_append, SparseFile.write_append]
  rfl

theorem read [OffsetSort] (hm : Mirrors ino fi n file mode m h) {size : UInt64} {off : Int64}
    (hrange : off.toUInt64.toNat + size.toNat < 2 ^ 63) :
    m.pulpfsRead World.backend ino size off fi =
      (.buf ((file.drop off.toUInt64.toNat).take size.toNat), m) := by
  have hoff : 0 ≤ off := nonneg_of_toUInt64_lt (by omega)
  rw [pulpfsRead_held hm.handle hm.pendingInRange hm.stored.held
    (fun e he => hm.held e (List.mem_append_left _ he))
    (fun e he => hm.held e (List.mem_append_right _ he)) ino (by omega) hoff]
  rw [← hm.bytes]
  rfl

/-- What is queued is what a commit would add. -/
theorem visible_of_append (hm : Mirrors ino fi n file mode m h) (ha : h.append = true) :
    h.visible = h.layout.file.append (h.pendingAppendExtents.map FileExtent.patch) := by
  have hone := hm.one_queue
  rw [if_pos ha] at hone
  exact FuseFileHandle.visible_of_appends hone fun e he => (hm.appends e he).2

theorem visible_of_positional (hm : Mirrors ino fi n file mode m h) (ha : h.append = false) :
    h.visible = h.layout.file.write h.queued := by
  have hone := hm.one_queue
  rw [ha, if_neg Bool.false_ne_true] at hone
  exact FuseFileHandle.visible_of_extents hone

/-- With the queue gone into the layout, the file is still shown. -/
theorem flushed (hm : Mirrors ino fi n file mode m h) {h' : FuseFileHandle}
    (hget : m'.server.getFileHandle fi.fh = some h')
    (hconfig : m'.server.config = m.server.config)
    (hgenerator : m'.server.objectKeyGenerator = m.server.objectKeyGenerator)
    (hsame : World.SameStore m.world m'.world) (hinode : h'.inodeId = h.inodeId)
    (hwritable : h'.writable = h.writable) (happend : h'.append = h.append)
    (hextents : h'.pendingExtents = []) (happends : h'.pendingAppendExtents = [])
    (hlength : h.append = true → h'.pendingAppendLength = 0)
    (hstored : m'.world.Stored m.server.config.bucket ino h'.layout)
    (hfile : h'.layout.file = h.visible)
    (hwithin : ∀ p ∈ h'.layout.extents,
      ∃ c ∈ h.layout.extents ++ (h.pendingExtents ++ h.pendingAppendExtents), p.Within c) :
    Mirrors ino fi n file mode m' h' := by
  have hvalue : m'.value = m.value := by
    unfold Mount.value
    rw [hconfig]
    exact hsame.byteAt _
  have hvisible : h'.visible = h.visible :=
    (FuseFileHandle.visible_of_empty hextents happends).trans hfile
  refine ⟨hget, hinode.trans hm.inodeId, hwritable.trans hm.writable, happend.trans hm.append,
    hconfig ▸ hstored, ?_, by simp [hextents], by simp [happends], ?_, ?_, ?_, ?_, ?_⟩
  · rw [hfile]
    exact (hm.confined.write _).write _
  · split
    · exact hextents
    · exact happends
  · simp [hextents, happends]
  · intro ha
    rw [hlength (happend.symm.trans ha), UInt64.toNat_zero, Nat.add_zero, ← hm.bytes,
      SparseFile.length_bytes, ← hfile]
    rfl
  · rw [hvisible, hvalue]
    exact hm.bytes
  · rw [hextents, happends, List.append_nil, List.append_nil]
    intro p hp
    obtain ⟨c, hc, hpc⟩ := hwithin p hp
    rw [hpc.1]
    exact (hm.missed c hc).congr hconfig hgenerator

/-- The step lemma for `CommitHandle`. -/
theorem commit [OffsetSort] (hm : Mirrors ino fi n file mode m h) (hhealthy : m.Healthy) :
    (m.commit World.backend fi.fh).1 = .ok () ∧ (m.commit World.backend fi.fh).2.Healthy ∧
      ∃ h', Mirrors ino fi n file mode (m.commit World.backend fi.fh).2 h' ∧
        h'.pendingExtents = [] ∧ h'.pendingAppendExtents = [] := by
  have hget (h' : FuseFileHandle) :
      (m.server.setFileHandle fi.fh h').getFileHandle fi.fh = some h' :=
    FuseServer.getFileHandle_setFileHandle_self h'
  by_cases hextents : h.pendingExtents = []
  · by_cases happends : h.pendingAppendExtents = []
    · rw [commit_eq hm.handle (commitHandle_idle hextents happends _)]
      refine ⟨rfl, hhealthy.of_sameStore rfl (.refl _), h, ?_, hextents, happends⟩
      rw [FuseServer.setFileHandle_self hm.handle]
      exact hm
    · have ha : h.append = true := by
        by_contra hfalse
        have hone := hm.one_queue
        rw [if_neg hfalse] at hone
        exact happends hone
      obtain ⟨hok, l', hs', hfile, hwithin⟩ := hm.stored.appendWrite h.layout.attrs.version
        hm.appends fun e he => hm.held e (List.mem_append_right _ he)
      rw [← hm.inodeId] at hok hs'
      rw [commit_eq hm.handle (commitHandle_appended hextents happends hok (hhealthy.answered _)
        (hhealthy.answered _) hs'.got)]
      have hsame := (World.sameStore_applied m.world h.appendCommand).trans
        (World.sameStore_count _)
      refine ⟨rfl, hhealthy.of_sameStore rfl hsame, h.appended l', ?_, hextents, rfl⟩
      refine hm.flushed (hget _) rfl rfl hsame rfl rfl rfl hextents rfl (fun _ => rfl)
        (hm.inodeId ▸ hs'.count) ?_ ?_
      · exact hfile.trans (hm.visible_of_append ha).symm
      · rw [hextents, List.nil_append]
        exact hwithin
  · have ha : h.append = false := by
      by_contra hfalse
      have hone := hm.one_queue
      rw [if_pos (Bool.eq_true_of_not_eq_false hfalse)] at hone
      exact hextents hone
    have happends := hm.one_queue
    rw [ha, if_neg Bool.false_ne_true] at happends
    obtain ⟨hok, l', hs', hfile, hwithin⟩ := hm.stored.commitWrite h.layout.attrs.version
      hm.extents fun e he => hm.held e (List.mem_append_left _ he)
    rw [← hm.inodeId] at hok hs'
    rw [commit_eq hm.handle (commitHandle_refreshed happends hextents hok (hhealthy.answered _)
      (hhealthy.answered _) hs'.got)]
    have hsame := (World.sameStore_applied m.world h.commitCommand).trans (World.sameStore_count _)
    refine ⟨rfl, hhealthy.of_sameStore rfl hsame, { h with pendingExtents := [], layout := l' }, ?_,
      rfl, happends⟩
    refine hm.flushed (hget _) rfl rfl hsame rfl rfl rfl rfl happends
      (fun htrue => absurd (ha.symm.trans htrue) Bool.false_ne_true) (hm.inodeId ▸ hs'.count) ?_ ?_
    · exact hfile.trans (hm.visible_of_positional ha).symm
    · rw [happends, List.append_nil]
      exact hwithin

/-- Where a written extent is shown. -/
theorem shown_written (hm : Mirrors ino fi n file mode m h) {buf : Bytes} {off : Int64}
    {extent : FileExtent} (hext : IsWritten m ino (h.writeOffset off) buf extent) {place : ℕ}
    (hplace : place = if mode.append then file.length else off.toUInt64.toNat)
    (hrange : place + buf.length < 2 ^ 63) : (h.shownExtent extent).patch =
      writtenPatch (m.server.nextObjectKey ino (h.writeOffset off)) place buf.length := by
  have hlength : extent.length.toNat = buf.length := by
    rw [hext.length, UInt64.toNat_ofNat', Nat.mod_eq_of_lt (by omega)]
  unfold FuseFileHandle.shownExtent
  cases ha : h.append with
  | false =>
    rw [← hm.append, ha, if_neg Bool.false_ne_true] at hplace
    rw [if_neg Bool.false_ne_true]
    refine patch_of_written hext.objectKey ?_ hlength hext.objectOffset
    rw [hext.offset, FuseFileHandle.writeOffset, ha, if_neg Bool.false_ne_true, hplace]
  | true =>
    rw [← hm.append, ha, if_pos rfl, ← hm.length ha] at hplace
    rw [if_pos rfl]
    refine patch_of_written hext.objectKey ?_ hlength hext.objectOffset
    rw [hext.offset, FuseFileHandle.writeOffset, ha, if_pos rfl, UInt64.toNat_add, hplace]
    omega

/-- An upload under a key of its own does not disturb what is shown. -/
theorem visible_stored (hm : Mirrors ino fi n file mode m h) {key : Bytes}
    (hnew : ∀ e ∈ h.layout.extents ++ (h.pendingExtents ++ h.pendingAppendExtents),
      e.objectKey ≠ key) (buf : Bytes) :
    h.visible.bytes ((m.world.store ⟨m.server.config.bucket, key, buf⟩).byteAt
      m.server.config.bucket) 0 = file := by
  rw [← hm.bytes, visible_eq]
  refine SparseFile.bytes_congr ((World.sameBut_store _ _ _ _).byteAt_of_content ?_)
  intro e he
  rcases List.mem_append.mp he with he | he
  · exact hnew e (List.mem_append_left _ he)
  · rcases List.mem_append.mp he with he | he
    · exact hnew e (List.mem_append_right _ (List.mem_append_left _ he))
    · obtain ⟨d, hd, rfl⟩ := List.mem_map.mp he
      exact hnew d (List.mem_append_right _ (List.mem_append_right _ hd))

/-- The queues with an extent more. -/
theorem queue_valid (hm : Mirrors ino fi n file mode m h) {buf : Bytes} {off : Int64}
    (hne : buf ≠ []) {extent : FileExtent}
    (hext : IsWritten m ino (h.writeOffset off) buf extent) {place : ℕ}
    (hplace : place = if mode.append then file.length else off.toUInt64.toNat)
    (hrange : place + buf.length < 2 ^ 63) :
    (∀ e ∈ (h.queue extent).pendingExtents, e.isInvalid = false ∧ e.InRange) ∧
      (∀ e ∈ (h.queue extent).pendingAppendExtents, e.isInvalid = false ∧
        h.layout.attrs.size.toNat + e.offset.toNat + e.length.toNat < 2 ^ 64) ∧
      (if h.append then (h.queue extent).pendingExtents = []
        else (h.queue extent).pendingAppendExtents = []) ∧
      (h.append = true → h.layout.attrs.size.toNat + (h.queue extent).pendingAppendLength.toNat =
        (writeAt 0 file place buf).length) := by
  have hlength : extent.length.toNat = buf.length := by
    rw [hext.length, UInt64.toNat_ofNat', Nat.mod_eq_of_lt (by omega)]
  have hvalid := hext.valid hne (by omega)
  have hone := hm.one_queue
  rw [← hm.append] at hplace
  unfold FuseFileHandle.queue
  cases ha : h.append with
  | false =>
    rw [ha, if_neg Bool.false_ne_true] at hone hplace
    have hoffset : extent.offset.toNat = place := by
      rw [hext.offset, FuseFileHandle.writeOffset, ha, if_neg Bool.false_ne_true, hplace]
    have hin : extent.InRange := by
      unfold FileExtent.InRange
      omega
    simp only [Bool.false_eq_true, if_false, List.forall_mem_append, List.forall_mem_singleton]
    exact ⟨⟨hm.extents, hvalid, hin⟩, hm.appends, hone, fun hfalse => absurd hfalse (by decide)⟩
  | true =>
    rw [ha, if_pos rfl] at hone hplace
    have hend := hm.length ha
    have hoffset : extent.offset = h.pendingAppendLength := by
      rw [hext.offset, FuseFileHandle.writeOffset, ha, if_pos rfl]
    have hsum : (h.pendingAppendLength + extent.length).toNat =
        h.pendingAppendLength.toNat + buf.length := by
      rw [UInt64.toNat_add, hlength]
      omega
    simp only [if_true, List.forall_mem_append, List.forall_mem_singleton]
    refine ⟨hm.extents, ⟨hm.appends, hvalid, ?_⟩, hone, fun _ => ?_⟩
    · rw [hoffset, hlength]
      omega
    · rw [hplace, writeAt_length, List.length_append, hsum]
      omega

/-- An extent that has been uploaded joins its queue. -/
theorem queued (hm : Mirrors ino fi (n + 1) file mode m h) (hn : n < 2 ^ 64) {buf : Bytes}
    {off : Int64} (hne : buf ≠ []) {extent : FileExtent}
    (hext : IsWritten m ino (h.writeOffset off) buf extent) {place : ℕ}
    (hplace : place = if mode.append then file.length else off.toUInt64.toNat)
    (hrange : place + buf.length < 2 ^ 63) :
    Mirrors ino fi n (writeAt 0 file place buf) mode
      ⟨(m.server.countObjectKey ino (h.writeOffset off)).setFileHandle fi.fh (h.queue extent),
        m.world.store (m.upload ino (h.writeOffset off) buf)⟩ (h.queue extent) := by
  have hlen : buf.length < 2 ^ 64 := by omega
  have hstore := World.sameBut_store m.world m.server.config.bucket
    (m.server.nextObjectKey ino (h.writeOffset off)) buf
  have hnew : ∀ e ∈ h.layout.extents ++ (h.pendingExtents ++ h.pendingAppendExtents),
      e.objectKey ≠ m.server.nextObjectKey ino (h.writeOffset off) :=
    fun e he => (hm.missed e he).ne_next _
  have hpatch := hm.shown_written hext hplace hrange
  obtain ⟨hextents, happends, hone, hend⟩ := hm.queue_valid hne hext hplace hrange
  obtain ⟨hinode, hwritable, happend, hlayout⟩ := h.queue_frame extent
  refine ⟨FuseServer.getFileHandle_setFileHandle_self _, hinode.trans hm.inodeId,
    hwritable.trans hm.writable, happend.trans hm.append, ?_, ?_, hextents, hlayout ▸ happends,
    happend ▸ hone, ?_, by rwa [happend, hlayout], ?_, ?_⟩
  · rw [hlayout]
    exact hstore.stored hm.stored fun e he => hnew e (List.mem_append_left _ he)
  · rw [hlayout]
    exact hm.confined
  · intro e he
    rcases FuseFileHandle.mem_queue he with he | rfl
    · exact hstore.holds (hm.held e he) (hnew e (List.mem_append_right _ he))
    · exact hext.holds hlen
  · have hconfined : h.visible.Confined := (hm.confined.write _).write _
    rw [FuseFileHandle.visible_queue hm.one_queue, hpatch, ← hm.visible_stored hnew buf]
    refine SparseFile.bytes_write _ 0 hconfined hne rfl ?_
    intro i hi
    refine (World.byteAt_written m.world m.server.config.bucket _ hlen (Nat.le_add_right _ _)
      (Nat.add_lt_add_left hi _)).trans ?_
    show buf.getD (place + i - place) 0 = buf[i]
    rw [Nat.add_sub_cancel_left]
    exact (List.getElem_eq_getD 0).symm
  · rw [hlayout]
    intro e he
    rcases List.mem_append.mp he with he | he
    · exact (hm.missed e (List.mem_append_left _ he)).advance (h.writeOffset off) rfl rfl
    · rcases FuseFileHandle.mem_queue he with he | rfl
      · exact (hm.missed e (List.mem_append_right _ he)).advance (h.writeOffset off) rfl rfl
      · rw [hext.objectKey]
        exact Mount.nextObjectKey_missed (m := m) hn _ rfl rfl

section Requests

variable [OffsetSort]

/-- The step lemma for a write. -/
theorem write (hm : Mirrors ino fi (n + 1) file mode m h) (hhealthy : m.Healthy) (hn : n < 2 ^ 64)
    (hwritable : mode.writable = true) {buf : Bytes} {off : Int64} (hne : buf ≠ []) {place : ℕ}
    (hplace : place = if mode.append then file.length else off.toUInt64.toNat)
    (hrange : place + buf.length < 2 ^ 63) :
    (m.pulpfsWrite World.backend ino buf off fi).2.Healthy ∧
      ∃ h', Mirrors ino fi n (writeAt 0 file place buf) mode
        (m.pulpfsWrite World.backend ino buf off fi).2 h' := by
  obtain ⟨size, hsize⟩ := pulpfsWrite_acknowledged hm.handle (hm.writable.trans hwritable)
    hhealthy.bucket (hhealthy.uploaded _) ino buf off
  rcases pulpfsWrite_cases hm.handle ino buf off with
    ⟨errno, he⟩ | ⟨errno, w', he, -⟩ | ⟨extent, hext, -, he⟩
  · rw [he] at hsize
    contradiction
  · rw [he] at hsize
    contradiction
  · rw [he]
    exact ⟨⟨hhealthy.bucket, hhealthy.answered, hhealthy.uploaded⟩, _,
      hm.queued hn hne hext hplace hrange⟩

/-- A write through an open for reading is refused. -/
theorem write_refused (hm : Mirrors ino fi n file mode m h) (hwritable : mode.writable = false)
    (buf : Bytes) (off : Int64) :
    m.pulpfsWrite World.backend ino buf off fi = (.err .ebadf, m) := by
  simp only [Mount.pulpfsWrite, hm.handle, hm.writable, hwritable, Bool.not_false, if_true]

/-- What `PulpfsRelease` leaves. -/
theorem release (hm : Mirrors ino fi n file mode m h) (hhealthy : m.Healthy) :
    (m.pulpfsRelease World.backend ino fi).2.Healthy ∧
      ∃ l, Closed ino n file (m.pulpfsRelease World.backend ino fi).2 l := by
  obtain ⟨-, hhealthy', h', hm', hextents, happends⟩ := hm.commit hhealthy
  refine ⟨⟨hhealthy'.bucket, hhealthy'.answered, hhealthy'.uploaded⟩, h'.layout, hm'.stored,
    hm'.confined, ?_, ?_⟩
  · rw [← hm'.bytes, FuseFileHandle.visible_of_empty hextents happends]
    rfl
  · exact fun e he => hm'.missed e (List.mem_append_left _ he)

end Requests

end Mirrors

section Open

variable [OffsetSort] {ino : UInt64} {n : ℕ} {file : Bytes} {l : FileLayout}

/-- The layout an open starts from, when all calls are answered. -/
theorem openLayout_stored {w : World} {bucket : Bytes}
    (answered : ∀ n, w.deliveries n = .answered) (hs : w.Stored bucket ino l) (flags : UInt32) :
    ∃ layout w', openLayout World.metaClient ino flags w = (.ok layout, w') ∧
      World.SameStore w w' ∧ w'.Stored bucket ino layout ∧
      (layout.file = if isWritable flags && flags &&& oTrunc ≠ 0 then l.file.truncate 0
        else l.file) ∧
      ∀ p ∈ layout.extents, ∃ c ∈ l.extents, p.Within c := by
  obtain ⟨stored, hf, -⟩ := MetaState.getLayout_ok hs.got
  unfold openLayout
  simp only [getLayout_answered (answered _) hs.got, hf.type_eq, ne_eq, not_true_eq_false, if_false]
  by_cases htrunc : (isWritable flags && decide (¬ flags &&& oTrunc = 0)) = true
  · obtain ⟨hok, l', hs', hfile, hwithin⟩ := hs.count.truncate 0
    obtain ⟨a, hcall⟩ := World.truncate_answered (w := w.count) (answered _) hok
    simp only [htrunc, if_true, hcall, getLayout_answered (w := w.count.applied (.truncate ino 0))
      (answered _) hs'.got]
    exact ⟨l', _, rfl, ⟨rfl, rfl, rfl⟩, hs'.count, hfile, hwithin⟩
  · simp only [htrunc]
    exact ⟨l, _, rfl, World.sameStore_count w, hs.count, rfl, fun p hp => ⟨p, hp, .refl p⟩⟩

/-- The step lemma for an open. -/
theorem Closed.open {m : Mount World} (hc : Closed ino n file m l) (hhealthy : m.Healthy)
    (flags : UInt32) :
    ∃ fi m', m.pulpfsOpen World.backend ino { flags } = (.open fi, m') ∧ m'.Healthy ∧
      ∃ h, Mirrors ino fi n (if isWritable flags && flags &&& oTrunc ≠ 0 then [] else file)
        (.of flags) m' h := by
  obtain ⟨layout, w', he, hsame, hs, hfile, hwithin⟩ :=
    openLayout_stored hhealthy.answered hc.stored flags
  have hopen : openLayout World.backend.metaClient ino flags m.world = (.ok layout, w') := he
  let h : FuseFileHandle :=
    { inodeId := ino, writable := isWritable flags, append := flags &&& oAppend ≠ 0, layout }
  have hvisible : h.visible = layout.file := FuseFileHandle.visible_of_empty rfl rfl
  simp only [Mount.pulpfsOpen, hopen]
  refine ⟨_, _, rfl, hhealthy.of_sameStore rfl hsame, h, ?_⟩
  have hvalue : Mount.value ⟨(m.server.allocateFileHandle h).2, w'⟩ = m.value := hsame.byteAt _
  have hconfined : layout.file.Confined := by
    rw [hfile]
    split
    · exact SparseFile.confined_truncate _ _
    · exact hc.confined
  have hbytes : layout.file.bytes m.value 0 =
      if isWritable flags && flags &&& oTrunc ≠ 0 then [] else file := by
    rw [hfile]
    split
    · exact SparseFile.bytes_truncate_zero _ _ _
    · exact hc.bytes
  refine ⟨FuseServer.getFileHandle_allocateFileHandle h, rfl, rfl, rfl, hs, hconfined, by simp [h],
    by simp [h], by simp [h], by simp [h], fun _ => ?_, ?_, ?_⟩
  · rw [← hbytes, SparseFile.length_bytes]
    rfl
  · rw [hvisible, hvalue, hbytes]
  · simp only [h, List.append_nil]
    intro p hp
    obtain ⟨c, hmem, hpc⟩ := hwithin p hp
    rw [hpc.1]
    exact (hc.missed c hmem).congr rfl rfl

end Open

end Pulpfs
