import Pulpfs.Fuse.FlushRead

/-! What `ReadFromHandle` returns, said of the extents of the handle in the order in which they
are laid over one another. -/
namespace Pulpfs
open Overlay

/-- The last extent of a list that covers a position. -/
def lastCovering (extents : List FileExtent) (x : ℕ) : Option FileExtent :=
  extents.reverse.find? fun e =>
    e.offset.toNat ≤ x ∧ x < e.offset.toNat + e.length.toNat

namespace FuseFileHandle

/-- The extents a read goes through, the appends shifted by the size of the layout. -/
def layers (handle : FuseFileHandle) : List FileExtent :=
  handle.layout.extents ++ handle.pendingExtents ++ handle.visibleAppendExtents

/-- No extent ends beyond the largest 64-bit value, the appends where they are shown. -/
structure NoOverflow (handle : FuseFileHandle) : Prop where
  layout : ∀ e ∈ handle.layout.extents, e.InRange
  extents : ∀ e ∈ handle.pendingExtents, e.InRange
  appends : ∀ e ∈ handle.pendingAppendExtents,
    handle.layout.attrs.size.toNat + e.offset.toNat + e.length.toNat < 2 ^ 64

/-- The largest of the size of the layout and the ends of what is pending. -/
def visibleEnd (handle : FuseFileHandle) : ℕ :=
  (handle.pendingExtents ++ handle.visibleAppendExtents).foldl
    (fun size e => max size (e.offset.toNat + e.length.toNat)) handle.layout.attrs.size.toNat

/-- The byte of the last extent that covers a position. -/
def shownByte (data : ObjectByte → UInt8) (handle : FuseFileHandle) (x : ℕ) : UInt8 :=
  match lastCovering handle.layers x with
  | some e => data ⟨e.objectKey, e.objectOffset + UInt64.ofNat (x - e.offset.toNat)⟩
  | none => 0

variable {handle : FuseFileHandle}

theorem NoOverflow.pending (h : handle.NoOverflow) : handle.PendingInRange :=
  ⟨h.extents, appends_inRange h.appends⟩

theorem visible_size (handle : FuseFileHandle) : handle.visible.size = handle.visibleEnd := by
  rw [visibleEnd, List.foldl_append]
  simp only [visible, SparseFile.write, extent, List.foldl_map]
  rfl

theorem NoOverflow.visible_content (h : handle.NoOverflow) :
    handle.visible.content = content (handle.layers.map FileExtent.patch) := by
  rw [← FuseFileHandle.visible_content h.pending, reachable_of_inRange h.layout,
    reachable_of_inRange h.extents, reachable_of_inRange h.pending.appends, layers,
    List.map_append, List.map_append, content_append, content_append]
  rfl

/-- What the layers show at a position is the byte of the last one there. -/
theorem NoOverflow.shown (h : handle.NoOverflow) (data : ObjectByte → UInt8) (x : ℕ) :
    SparseFile.shown data 0 handle.visible.content x = handle.shownByte data x := by
  have hfind : handle.layers.reverse.find? (fun e => e.patch.Covers x) =
      lastCovering handle.layers x := rfl
  rw [SparseFile.shown, h.visible_content, content_eq_find, ← List.map_reverse, List.find?_map,
    Function.comp_def, hfind, shownByte]
  cases lastCovering handle.layers x with
  | none => rfl
  | some e => rfl

end FuseFileHandle

/-- A read of any handle without overflow, at any offset from 0 on and of any size that can be
allocated: it returns what is asked for up to the end of what is visible, and every byte is that
of the last extent there, 0 where there is none. A range read in two adjacent parts gives the
bytes of the range read at once. -/
theorem reads_shown {σ : Type} (objectStore : ObjectStore σ) (bucket : Bytes)
    (data : ObjectByte → UInt8) (I : σ → Prop) (handle : FuseFileHandle)
    (hno : handle.NoOverflow) (hserved : handle.ServedBy objectStore bucket data I) :
    (∀ (size : UInt64) (off : Int64), size.toNat < 2 ^ 63 → 0 ≤ off.toInt → ∀ s, I s →
      ∃ bytes s', I s' ∧ readFromHandle objectStore bucket handle size off s = (.ok bytes, s') ∧
        bytes.length = min size.toNat (handle.visibleEnd - off.toInt.toNat) ∧
        ∀ p, ∀ hp : p < bytes.length,
          bytes[p] = handle.shownByte data (off.toInt.toNat + p)) ∧
    ∀ (m n : UInt64) (off next : Int64), m.toNat + n.toNat < 2 ^ 63 → 0 ≤ off.toInt →
      next.toInt = off.toInt + m.toNat → ∀ s₁ s₂ s₃, I s₁ → I s₂ → I s₃ →
        ∃ front back,
          (readFromHandle objectStore bucket handle m off s₁).1 = .ok front ∧
          (readFromHandle objectStore bucket handle n next s₂).1 = .ok back ∧
          (readFromHandle objectStore bucket handle (m + n) off s₃).1 = .ok (front ++ back) := by
  have hread (size : UInt64) (off : Int64) (hsize : size.toNat < 2 ^ 63) (hoff : 0 ≤ off.toInt)
      {s : σ} (hs : I s) : ∃ s', I s' ∧ readFromHandle objectStore bucket handle size off s =
        (.ok (((handle.visible.bytes data 0).drop off.toInt.toNat).take size.toNat), s') := by
    have hle : 0 ≤ off := Int64.le_iff_toInt_le.mpr hoff
    have hpos := Int64.toNat_toUInt64_of_le hle
    obtain ⟨s', hs', h⟩ := readFromHandle_spec hno.pending hserved hsize hle hs
    rw [hpos] at h
    exact ⟨s', hs', h⟩
  constructor
  · intro size off hsize hoff s hs
    obtain ⟨s', hs', h⟩ := hread size off hsize hoff hs
    refine ⟨_, s', hs', h, ?_, ?_⟩
    · rw [List.length_take, List.length_drop, SparseFile.length_bytes,
        FuseFileHandle.visible_size]
    · intro p hp
      simp only [SparseFile.bytes, List.getElem_take, List.getElem_drop, getElem_window,
        Nat.zero_add]
      exact hno.shown data _
  · intro m n off next hmn hoff hnext s₁ s₂ s₃ h₁ h₂ h₃
    have hsum : (m + n).toNat = m.toNat + n.toNat := by
      rw [UInt64.toNat_add]
      omega
    have hplace : next.toInt.toNat = off.toInt.toNat + m.toNat := by omega
    obtain ⟨_, -, hfront⟩ := hread m off (by omega) hoff h₁
    obtain ⟨_, -, hback⟩ := hread n next (by omega) (by omega) h₂
    obtain ⟨_, -, hwhole⟩ := hread (m + n) off (by omega) hoff h₃
    refine ⟨_, _, congrArg Prod.fst hfront, congrArg Prod.fst hback, ?_⟩
    rw [hwhole, hsum, hplace, List.take_add, List.drop_drop]

/-- Two extents that overlap one another in the layout, one pending that crosses the end of both
and one appended that leaves a gap. -/
def overlaidHandle : FuseFileHandle where
  inodeId := 2
  layout :=
    { attrs := { inodeId := 2, type := .file, size := 6 }
      extents :=
        [{ offset := 0, length := 4, objectKey := ascii "x", objectOffset := 3 },
          { offset := 2, length := 4, objectKey := ascii "y" }] }
  pendingExtents := [{ offset := 5, length := 2, objectKey := ascii "x" }]
  pendingAppendExtents := [{ offset := 3, length := 1, objectKey := ascii "y", objectOffset := 5 }]

def overlaidWorld : World :=
  { World.fresh 4096 with
    objects := fun k =>
      if k = (ascii "b", ascii "x") then some [0, 1, 2, 3, 4, 5, 6, 7]
      else if k = (ascii "b", ascii "y") then some [10, 11, 12, 13, 14, 15] else none }

theorem reads_shown_of_overlaidHandle :
    let read (size : UInt64) (off : Int64) :=
      (readFromHandle World.objectStore (ascii "b") overlaidHandle size off overlaidWorld).1
    (∃ bytes, read 20 1 = .ok bytes ∧ bytes.length = 9 ∧ ∀ p, ∀ hp : p < bytes.length,
      bytes[p] = overlaidHandle.shownByte (overlaidWorld.byteAt (ascii "b")) (1 + p)) ∧
    ∃ front back, read 4 1 = .ok front ∧ read 16 5 = .ok back ∧
      read 20 1 = .ok (front ++ back) := by
  intro read
  have hserves (es : List FileExtent)
      (h : ∀ e ∈ es, overlaidWorld.objects (ascii "b", e.objectKey) =
          some ((overlaidWorld.objects (ascii "b", e.objectKey)).getD []) ∧
        e.objectOffset.toNat + e.length.toNat ≤
          ((overlaidWorld.objects (ascii "b", e.objectKey)).getD []).length ∧
        e.objectOffset.toNat + e.length.toNat < 2 ^ 64) :
      ∀ e ∈ es, World.objectStore.Serves (ascii "b") (overlaidWorld.byteAt (ascii "b"))
        (fun w => w = overlaidWorld) e :=
    fun e he => World.Holds.serves ⟨_, h e he⟩ fun w hw => congrArg World.objects hw
  obtain ⟨hbytes, hparts⟩ := reads_shown World.objectStore (ascii "b")
    (overlaidWorld.byteAt (ascii "b")) (fun w => w = overlaidWorld) overlaidHandle
    ⟨by decide, by decide, by decide⟩
    ⟨hserves _ (by decide), hserves _ (by decide), hserves _ (by decide)⟩
  obtain ⟨bytes, w, -, hread, hlength, hshown⟩ := hbytes 20 1 (by decide) (by decide)
    overlaidWorld rfl
  refine ⟨⟨bytes, congrArg Prod.fst hread, hlength.trans (by decide), hshown⟩, ?_⟩
  exact hparts 4 16 1 5 (by decide) (by decide) (by decide) _ _ _ rfl rfl rfl

end Pulpfs
