import Pulpfs.Meta.Layout
import Pulpfs.Foundations.ByteFile

/-! `fuse/file_io.cc`: object keys and reading through an open file. A read lays the extents
of the cached layout, the pending ones and the pending appends over a buffer of zeros. -/
namespace Pulpfs
open Overlay

structure PutObjectRequest where
  bucket : Bytes
  key : Bytes
  body : Bytes
  deriving DecidableEq

structure PutObjectResult where
  etag : Bytes
  size : UInt64
  deriving DecidableEq

structure GetObjectRequest where
  bucket : Bytes
  key : Bytes
  offset : Option UInt64
  length : Option UInt64
  deriving DecidableEq

structure GetObjectResult where
  body : Bytes
  deriving DecidableEq

/-- The two calls of `ObjectStore` an open file makes, in an environment `σ` that any call may
change. -/
structure ObjectStore (σ : Type) where
  putObject : PutObjectRequest → σ → Except Error PutObjectResult × σ
  getObject : GetObjectRequest → σ → Except Error GetObjectResult × σ

structure FuseFileHandle where
  inodeId : UInt64 := 0
  writable : Bool := false
  append : Bool := false
  layout : FileLayout := {}
  pendingExtents : List FileExtent := []
  pendingAppendExtents : List FileExtent := []
  pendingAppendLength : UInt64 := 0
  deriving DecidableEq

structure ObjectKeyGenerator where
  writerId : Bytes
  nextSequence : UInt64 := 1
  deriving DecidableEq

namespace ObjectKeyGenerator

/-- The key `MakeObjectKey` builds from a sequence number. -/
def keyAt (g : ObjectKeyGenerator) (objectPrefix : Bytes) (inodeId sequence offset : UInt64) :
    Bytes :=
  (if objectPrefix.isEmpty then [] else objectPrefix ++ ascii "/") ++ ascii "chunks/" ++
    toDecimal inodeId ++ ascii "/" ++ g.writerId ++ ascii "/" ++ toDecimal sequence ++
    ascii "/" ++ toDecimal offset

def makeObjectKey (g : ObjectKeyGenerator) (objectPrefix : Bytes) (inodeId offset : UInt64) :
    Bytes × ObjectKeyGenerator :=
  (g.keyAt objectPrefix inodeId g.nextSequence offset,
    { g with nextSequence := g.nextSequence + 1 })

end ObjectKeyGenerator

variable {σ : Type}

/-- The loop of `ReadExtentsIntoBuffer`. -/
def readExtentsIntoBuffer (objectStore : ObjectStore σ) (bucket : Bytes)
    (readBegin readEnd : UInt64) : List FileExtent → Bytes → σ → Except Error Bytes × σ
  | [], output, s => (.ok output, s)
  | extent :: extents, output, s =>
    let overlapBegin := max readBegin extent.offset
    let overlapEnd := min readEnd (extentEnd extent)
    if overlapBegin ≥ overlapEnd then
      readExtentsIntoBuffer objectStore bucket readBegin readEnd extents output s
    else
      let request : GetObjectRequest :=
        { bucket, key := extent.objectKey
          offset := some (extent.objectOffset + (overlapBegin - extent.offset))
          length := some (overlapEnd - overlapBegin) }
      match objectStore.getObject request s with
      | (.error e, s) => (.error e, s)
      | (.ok object, s) =>
        let outputOffset := overlapBegin - readBegin
        let copySize := min object.body.length (overlapEnd - overlapBegin).toNat
        readExtentsIntoBuffer objectStore bucket readBegin readEnd extents
          (splice output outputOffset.toNat (object.body.take copySize)) s

/-- `std::vector::resize`. -/
def resize (output : Bytes) (n : ℕ) : Bytes :=
  output.take n ++ List.replicate (n - output.length) 0

namespace FuseFileHandle

/-- The pending appends moved to the end of the file as the cached layout knows it. -/
def visibleAppendExtents (handle : FuseFileHandle) : List FileExtent :=
  handle.pendingAppendExtents.map fun extent =>
    { extent with offset := handle.layout.attrs.size + extent.offset }

/-- The loops of `ReadFromHandle` that compute `visible_size`. -/
def visibleSize (handle : FuseFileHandle) : UInt64 :=
  handle.visibleAppendExtents.foldl (fun size extent => max size (extentEnd extent))
    (handle.pendingExtents.foldl (fun size extent => max size (extentEnd extent))
      handle.layout.attrs.size)

end FuseFileHandle

/-- The three calls of `ReadExtentsIntoBuffer` in `ReadFromHandle`. -/
def readLayers (objectStore : ObjectStore σ) (bucket : Bytes) (handle : FuseFileHandle)
    (readBegin readEnd : UInt64) (output : Bytes) (s : σ) : Except Error Bytes × σ :=
  match readExtentsIntoBuffer objectStore bucket readBegin readEnd handle.layout.extents output
    s with
  | (.error e, s) => (.error e, s)
  | (.ok output, s) =>
    match readExtentsIntoBuffer objectStore bucket readBegin readEnd handle.pendingExtents output
      s with
    | (.error e, s) => (.error e, s)
    | (.ok output, s) =>
      readExtentsIntoBuffer objectStore bucket readBegin readEnd handle.visibleAppendExtents
        output s

/-- The allocation of the buffer is taken to succeed. -/
def readFromHandle (objectStore : ObjectStore σ) (bucket : Bytes) (handle : FuseFileHandle)
    (size : UInt64) (off : Int64) (s : σ) : Except Error Bytes × σ :=
  let output := List.replicate size.toNat 0
  if size = 0 then (.ok output, s)
  else if off < 0 then (.error (makeError .invalidArgument "negative read offset"), s)
  else if off.toUInt64 ≥ handle.visibleSize then (.ok [], s)
  else
    let readBegin := off.toUInt64
    let readEnd := min (readBegin + size) handle.visibleSize
    readLayers objectStore bucket handle readBegin readEnd
      (resize output (readEnd - readBegin).toNat) s

/-- In every state of `I` the store returns any part of the object range an extent refers to
in full, with the bytes `data` says, and leaves a state of `I`. -/
def ObjectStore.Serves (objectStore : ObjectStore σ) (bucket : Bytes) (data : ObjectByte → UInt8)
    (I : σ → Prop) (extent : FileExtent) : Prop :=
  ∀ s, I s → ∀ skip length : UInt64, 0 < length.toNat →
    skip.toNat + length.toNat ≤ extent.length.toNat →
    ∃ s', I s' ∧
      objectStore.getObject ⟨bucket, extent.objectKey, some (extent.objectOffset + skip),
        some length⟩ s =
      (.ok ⟨window (fun i => data ⟨extent.objectKey,
        extent.objectOffset + skip + UInt64.ofNat i⟩) 0 length.toNat⟩, s')

/-- The store has every part of a part. -/
theorem ObjectStore.Serves.within {objectStore : ObjectStore σ} {bucket : Bytes}
    {data : ObjectByte → UInt8} {I : σ → Prop} {p c : FileExtent}
    (h : objectStore.Serves bucket data I c) (hp : p.Within c) :
    objectStore.Serves bucket data I p := by
  obtain ⟨hkey, skip, hoff, hle⟩ := hp
  intro s hs skip' length hpos hlen
  have hc := c.length.toNat_lt
  have hsum : (skip + skip').toNat = skip.toNat + skip'.toNat := by
    rw [UInt64.toNat_add]
    omega
  obtain ⟨s', hs', hget⟩ := h s hs (skip + skip') length hpos (by omega)
  refine ⟨s', hs', ?_⟩
  rw [hkey, hoff, UInt64.add_assoc]
  exact hget

section Read

variable {objectStore : ObjectStore σ} {bucket : Bytes} {data : ObjectByte → UInt8}
  {I : σ → Prop}

/-- What the store returns for the part of an extent that a read asks for. -/
theorem ObjectStore.Serves.overlap {readBegin readEnd : UInt64} {e : FileExtent}
    (h : objectStore.Serves bucket data I e) (hin : e.InRange)
    (hover : ¬ max readBegin e.offset ≥ min readEnd (extentEnd e)) {s : σ} (hs : I s) :
    ∃ s', I s' ∧
      objectStore.getObject ⟨bucket, e.objectKey,
        some (e.objectOffset + (max readBegin e.offset - e.offset)),
        some (min readEnd (extentEnd e) - max readBegin e.offset)⟩ s =
      (.ok ⟨window (fun x => data (e.patch.value x)) (max readBegin.toNat e.patch.start)
        (min readEnd.toNat e.patch.stop - max readBegin.toNat e.patch.start)⟩, s') := by
  have hmax := UInt64.toNat_max readBegin e.offset
  have hmin := UInt64.toNat_min readEnd (extentEnd e)
  have hend := extentEnd_toNat hin
  rw [ge_iff_le, UInt64.le_iff_toNat_le, hmax, hmin] at hover
  have hskip : (max readBegin e.offset - e.offset).toNat =
      max readBegin.toNat e.offset.toNat - e.offset.toNat := by
    rw [sub_toNat (by rw [hmax]; omega), hmax]
  have hlen : (min readEnd (extentEnd e) - max readBegin e.offset).toNat =
      min readEnd.toNat (extentEnd e).toNat - max readBegin.toNat e.offset.toNat := by
    rw [sub_toNat (by rw [hmax, hmin]; omega), hmax, hmin]
  obtain ⟨s', hs', hget⟩ := h s hs (max readBegin e.offset - e.offset)
    (min readEnd (extentEnd e) - max readBegin e.offset) (by omega) (by omega)
  refine ⟨s', hs', hget.trans ?_⟩
  rw [hlen, hend]
  congr 3
  refine List.map_congr_left ?_
  intro i _
  simp only [FileExtent.patch, Nat.zero_add]
  congr 2
  rw [UInt64.add_assoc]
  congr 1
  rw [← UInt64.ofNat_toNat (x := max readBegin e.offset - e.offset), ← UInt64.ofNat_add]
  congr 1
  omega

/-- The loop lays the extents it is given over what the buffer shows. -/
theorem readExtentsIntoBuffer_spec (readBegin readEnd : UInt64) {extents : List FileExtent}
    (hserves : ∀ e ∈ extents, objectStore.Serves bucket data I e) (f : ℕ → Option ObjectByte)
    {s : σ} (hs : I s) :
    ∃ s', I s' ∧
      readExtentsIntoBuffer objectStore bucket readBegin readEnd extents
        (window (SparseFile.shown data 0 f) readBegin.toNat (readEnd.toNat - readBegin.toNat)) s =
      (.ok (window (SparseFile.shown data 0
        (overlayAll f ((reachable extents).map FileExtent.patch))) readBegin.toNat
        (readEnd.toNat - readBegin.toNat)), s') := by
  induction extents generalizing f s with
  | nil => exact ⟨s, hs, rfl⟩
  | cons e es ih =>
    rw [List.forall_mem_cons] at hserves
    have hmax := UInt64.toNat_max readBegin e.offset
    have hmin := UInt64.toNat_min readEnd (extentEnd e)
    unfold readExtentsIntoBuffer
    by_cases hin : e.InRange
    · have hend := extentEnd_toNat hin
      rw [reachable_cons_of_inRange hin, List.map_cons, overlayAll_cons]
      by_cases hover : max readBegin e.offset ≥ min readEnd (extentEnd e)
      · rw [if_pos hover]
        rw [ge_iff_le, UInt64.le_iff_toNat_le, hmax, hmin, hend] at hover
        rw [← SparseFile.window_overlay_apart data 0 f (p := e.patch) hover]
        exact ih hserves.2 (overlay f e.patch) hs
      · obtain ⟨s₁, hs₁, hget⟩ := hserves.1.overlap hin hover hs
        rw [if_neg hover]
        simp only [hget]
        rw [ge_iff_le, UInt64.le_iff_toNat_le, hmax, hmin, hend, not_le] at hover
        have hlen : (min readEnd (extentEnd e) - max readBegin e.offset).toNat =
            min readEnd.toNat e.patch.stop - max readBegin.toNat e.patch.start := by
          rw [sub_toNat (by rw [hmax, hmin, hend]; exact hover.le), hmax, hmin, hend]
          rfl
        have hout : (max readBegin e.offset - readBegin).toNat =
            max readBegin.toNat e.patch.start - readBegin.toNat := by
          rw [sub_toNat (by rw [hmax]; omega), hmax]
          rfl
        rw [length_window, hlen, Nat.min_self, List.take_of_length_le (by rw [length_window]), hout,
          SparseFile.splice_overlay data 0 f hover]
        exact ih hserves.2 (overlay f e.patch) hs₁
    · have hwrap := extentEnd_le_of_not_inRange hin
      have hover : max readBegin e.offset ≥ min readEnd (extentEnd e) := by
        rw [ge_iff_le, UInt64.le_iff_toNat_le, hmax, hmin]
        omega
      rw [if_pos hover, reachable_cons_of_not_inRange hin]
      exact ih hserves.2 f hs

namespace FuseFileHandle

/-- The file a handle shows: its cached layout with the pending writes laid over it. -/
def visible (handle : FuseFileHandle) : SparseFile ObjectByte :=
  (handle.layout.file.write (handle.pendingExtents.map FileExtent.patch)).write
    (handle.visibleAppendExtents.map FileExtent.patch)

/-- No pending extent ends beyond the largest 64-bit value, where a read would see it. -/
structure PendingInRange (handle : FuseFileHandle) : Prop where
  extents : ∀ e ∈ handle.pendingExtents, e.InRange
  appends : ∀ e ∈ handle.visibleAppendExtents, e.InRange

/-- The store has every object range the handle refers to. -/
structure ServedBy (handle : FuseFileHandle) (objectStore : ObjectStore σ) (bucket : Bytes)
    (data : ObjectByte → UInt8) (I : σ → Prop) : Prop where
  layout : ∀ e ∈ handle.layout.extents, objectStore.Serves bucket data I e
  extents : ∀ e ∈ handle.pendingExtents, objectStore.Serves bucket data I e
  appends : ∀ e ∈ handle.pendingAppendExtents, objectStore.Serves bucket data I e

variable {handle : FuseFileHandle}

theorem visibleSize_toNat (h : handle.PendingInRange) :
    handle.visibleSize.toNat = handle.visible.size := by
  rw [visibleSize, foldl_extentEnd h.appends, foldl_extentEnd h.extents]
  rfl

theorem visible_content (h : handle.PendingInRange) :
    overlayAll (overlayAll (contentOf (reachable handle.layout.extents))
      ((reachable handle.pendingExtents).map FileExtent.patch))
      ((reachable handle.visibleAppendExtents).map FileExtent.patch) = handle.visible.content := by
  rw [reachable_of_inRange h.extents, reachable_of_inRange h.appends]
  rfl

theorem ServedBy.visibleAppends (h : handle.ServedBy objectStore bucket data I) :
    ∀ e ∈ handle.visibleAppendExtents, objectStore.Serves bucket data I e := by
  intro e he
  obtain ⟨d, hd, rfl⟩ := List.mem_map.mp he
  exact h.appends d hd

end FuseFileHandle

/-- A fresh buffer of zeros cut to the bytes to read. -/
theorem resize_replicate {n m : ℕ} (h : m ≤ n) (start : ℕ) (value : ObjectByte → UInt8) :
    resize (List.replicate n 0) m =
      window (SparseFile.shown value 0 fun _ => none) start m := by
  have hpad : m - (List.replicate n (0 : UInt8)).length = 0 := by
    rw [List.length_replicate]
    omega
  rw [resize, hpad, List.replicate_zero, List.append_nil, List.take_replicate, Nat.min_eq_left h]
  apply List.ext_getElem
  · rw [List.length_replicate, length_window]
  · intro i hi hi'
    rw [List.getElem_replicate, getElem_window]
    rfl

/-- The layers together lay the handle's extents over the buffer. -/
theorem readLayers_spec {handle : FuseFileHandle} (hr : handle.PendingInRange)
    (hserved : handle.ServedBy objectStore bucket data I) (readBegin readEnd : UInt64) {s : σ}
    (hs : I s) :
    ∃ s', I s' ∧ readLayers objectStore bucket handle readBegin readEnd
        (window (SparseFile.shown data 0 fun _ => none) readBegin.toNat
          (readEnd.toNat - readBegin.toNat)) s =
      (.ok (window (SparseFile.shown data 0 handle.visible.content) readBegin.toNat
        (readEnd.toNat - readBegin.toNat)), s') := by
  obtain ⟨s₁, hs₁, h₁⟩ := readExtentsIntoBuffer_spec readBegin readEnd hserved.layout
    (fun _ => none) hs
  obtain ⟨s₂, hs₂, h₂⟩ := readExtentsIntoBuffer_spec readBegin readEnd hserved.extents
    (contentOf (reachable handle.layout.extents)) hs₁
  obtain ⟨s₃, hs₃, h₃⟩ := readExtentsIntoBuffer_spec readBegin readEnd hserved.visibleAppends
    (overlayAll (contentOf (reachable handle.layout.extents))
      ((reachable handle.pendingExtents).map FileExtent.patch)) hs₂
  rw [FuseFileHandle.visible_content hr] at h₃
  unfold contentOf content at h₂ h₃
  refine ⟨s₃, hs₃, ?_⟩
  simp only [readLayers, h₁, h₂, h₃]

/-- A read returns what the handle shows at the positions asked for. -/
theorem readFromHandle_spec {handle : FuseFileHandle} (hr : handle.PendingInRange)
    (hserved : handle.ServedBy objectStore bucket data I) {size : UInt64} {off : Int64}
    (hsize : size.toNat < 2 ^ 63) (hoff : 0 ≤ off) {s : σ} (hs : I s) :
    ∃ s', I s' ∧ readFromHandle objectStore bucket handle size off s =
      (.ok (((handle.visible.bytes data 0).drop off.toUInt64.toNat).take size.toNat), s') := by
  have hoff63 : off.toUInt64.toNat < 2 ^ 63 := by
    rw [Int64.toNat_toUInt64_of_le hoff]
    exact Int64.toNatClampNeg_lt off
  have hvis := FuseFileHandle.visibleSize_toNat hr
  unfold readFromHandle
  by_cases hzero : size = 0
  · subst hzero
    exact ⟨s, hs, by simp⟩
  · rw [SparseFile.bytes, take_drop_window, Nat.zero_add]
    simp only [if_neg hzero, if_neg (Int64.not_lt.mpr hoff)]
    by_cases hend : off.toUInt64 ≥ handle.visibleSize
    · rw [if_pos hend]
      rw [ge_iff_le, UInt64.le_iff_toNat_le, hvis] at hend
      have hnone : min size.toNat (handle.visible.size - off.toUInt64.toNat) = 0 := by omega
      rw [hnone]
      exact ⟨s, hs, rfl⟩
    · rw [if_neg hend]
      rw [ge_iff_le, UInt64.le_iff_toNat_le, hvis] at hend
      have hsum : (off.toUInt64 + size).toNat = off.toUInt64.toNat + size.toNat := by
        rw [UInt64.toNat_add]
        omega
      have hre : (min (off.toUInt64 + size) handle.visibleSize).toNat =
          min (off.toUInt64.toNat + size.toNat) handle.visible.size := by
        rw [UInt64.toNat_min, hsum, hvis]
      have hle : off.toUInt64.toNat ≤
          (min (off.toUInt64 + size) handle.visibleSize).toNat := by omega
      have hwidth : (min (off.toUInt64 + size) handle.visibleSize).toNat -
          off.toUInt64.toNat = min size.toNat (handle.visible.size - off.toUInt64.toNat) := by
        omega
      have hread := readLayers_spec hr hserved off.toUInt64
        (min (off.toUInt64 + size) handle.visibleSize) hs
      rw [hwidth] at hread
      rw [sub_toNat hle, hwidth, resize_replicate (Nat.min_le_left _ _) off.toUInt64.toNat data]
      exact hread

end Read

end Pulpfs
