import Pulpfs.Fuse.World

/-! Committing what a handle has queued does not change what is read: the layers a read lays
over one another are those the server merges into the layout. -/
namespace Pulpfs
open Overlay

variable {σ : Type}

/-- The two handles read the same bytes everywhere, each in any state of `I`. -/
def SameReads (objectStore : ObjectStore σ) (bucket : Bytes) (I : σ → Prop)
    (h h' : FuseFileHandle) : Prop :=
  ∀ (size : UInt64) (off : Int64), size.toNat < 2 ^ 63 → 0 ≤ off → ∀ s s', I s → I s' →
    ∃ bytes, (readFromHandle objectStore bucket h size off s).1 = .ok bytes ∧
      (readFromHandle objectStore bucket h' size off s').1 = .ok bytes

section

variable {objectStore : ObjectStore σ} {bucket : Bytes} {data : ObjectByte → UInt8}
  {I : σ → Prop} {h h' : FuseFileHandle}

/-- Handles that show the same file read the same. -/
theorem sameReads_of_visible (hr : h.PendingInRange) (hr' : h'.PendingInRange)
    (hs : h.ServedBy objectStore bucket data I) (hs' : h'.ServedBy objectStore bucket data I)
    (heq : h'.visible = h.visible) : SameReads objectStore bucket I h h' := by
  intro size off hsize hoff s s' hI hI'
  obtain ⟨_, _, hread⟩ := readFromHandle_spec hr hs hsize hoff hI
  obtain ⟨_, _, hread'⟩ := readFromHandle_spec hr' hs' hsize hoff hI'
  refine ⟨_, congrArg Prod.fst hread, ?_⟩
  rw [hread', heq]

namespace FuseFileHandle

/-- A handle with nothing queued shows its layout. -/
theorem visible_of_empty (he : h.pendingExtents = []) (ha : h.pendingAppendExtents = []) :
    h.visible = h.layout.file := by
  rw [visible, visibleAppendExtents, he, ha]
  rfl

theorem pendingInRange_of_empty (he : h.pendingExtents = []) (ha : h.pendingAppendExtents = []) :
    h.PendingInRange := by
  constructor
  · simp [he]
  · simp [visibleAppendExtents, ha]

/-- Queued positional writes lie over the layout. -/
theorem visible_of_extents (ha : h.pendingAppendExtents = []) :
    h.visible = h.layout.file.write (h.pendingExtents.map FileExtent.patch) := by
  rw [visible, visibleAppendExtents, ha]
  rfl

/-- Queued appends lie behind the layout. -/
theorem visible_of_appends (he : h.pendingExtents = [])
    (hr : ∀ e ∈ h.pendingAppendExtents,
      h.layout.attrs.size.toNat + e.offset.toNat + e.length.toNat < 2 ^ 64) :
    h.visible = h.layout.file.append (h.pendingAppendExtents.map FileExtent.patch) := by
  have hmap : h.visibleAppendExtents.map FileExtent.patch =
      (h.pendingAppendExtents.map FileExtent.patch).map (Patch.shift h.layout.attrs.size.toNat) :=
    (appendedTo_patches hr).2
  rw [visible, he, hmap]
  rfl

theorem appends_inRange
    (hr : ∀ e ∈ h.pendingAppendExtents,
      h.layout.attrs.size.toNat + e.offset.toNat + e.length.toNat < 2 ^ 64) :
    ∀ e ∈ h.visibleAppendExtents, e.InRange := (appendedTo_patches hr).1

end FuseFileHandle

/-- The layout a write leaves is served like the extents it was made of. -/
theorem servedBy_of_written {s : MetaState} {i : UInt64} {es : List FileExtent}
    {r : SparseFile ObjectByte} {l l' : FileLayout} (hw : s.Written i l es r l')
    (hl : ∀ e ∈ l.extents, objectStore.Serves bucket data I e)
    (hes : ∀ e ∈ es, objectStore.Serves bucket data I e) :
    ∀ e ∈ l'.extents, objectStore.Serves bucket data I e := by
  intro p hp
  obtain ⟨c, hc, hpc⟩ := hw.within p hp
  rcases List.mem_append.mp hc with hc | hc
  · exact (hl c hc).within hpc
  · exact (hes c hc).within hpc

end

/-- Where the cached layout is the server's and its extents lie apart, a handle with a list of
valid extents queued, positional or to be appended, reads the same as one with nothing queued and
the layout that the commit of the list leaves. -/
theorem sameReads_after_commit [OffsetSort] {objectStore : ObjectStore σ} {bucket : Bytes}
    {data : ObjectByte → UInt8} {I : σ → Prop} {s : MetaState} {h : FuseFileHandle}
    (clock : Clock) (baseVersion : UInt64)
    (hlayout : s.getLayout h.inodeId = .ok h.layout)
    (hapart : (h.layout.extents.map FileExtent.patch).Pairwise Patch.Apart)
    (hserved : h.ServedBy objectStore bucket data I) :
    (h.pendingAppendExtents = [] →
      (∀ e ∈ h.pendingExtents, e.isInvalid = false ∧ e.InRange) →
      (s.commitWrite clock h.inodeId baseVersion h.pendingExtents).1.isOk = true ∧
      ∃ layout,
        (s.commitWrite clock h.inodeId baseVersion h.pendingExtents).2.getLayout h.inodeId =
          .ok layout ∧
        SameReads objectStore bucket I h { h with layout, pendingExtents := [] }) ∧
    (h.pendingExtents = [] →
      (∀ e ∈ h.pendingAppendExtents, e.isInvalid = false ∧
        h.layout.attrs.size.toNat + e.offset.toNat + e.length.toNat < 2 ^ 64) →
      (s.appendWrite clock h.inodeId baseVersion h.pendingAppendExtents).1.isOk = true ∧
      ∃ layout,
        (s.appendWrite clock h.inodeId baseVersion h.pendingAppendExtents).2.getLayout
          h.inodeId = .ok layout ∧
        SameReads objectStore bucket I h
          { h with layout, pendingAppendExtents := [], pendingAppendLength := 0 }) := by
  have hd := disjoint_reachable hapart
  constructor
  · intro ha hvalid
    have hr : ∀ e ∈ h.pendingExtents, e.InRange := fun e he => (hvalid e he).2
    obtain ⟨hok, l', hw⟩ := MetaState.commitWrite_written clock (v := baseVersion)
      hlayout hd (fun e he => (hvalid e he).1) hr
    refine ⟨hok, l', hw.got, ?_⟩
    have hempty : ({ h with layout := l', pendingExtents := [] } : FuseFileHandle).visible =
        l'.file := FuseFileHandle.visible_of_empty rfl ha
    refine sameReads_of_visible ⟨hr, ?_⟩ (FuseFileHandle.pendingInRange_of_empty rfl ha) hserved
      ⟨servedBy_of_written hw hserved.layout hserved.extents, by simp, by simp [ha]⟩ ?_
    · simp [FuseFileHandle.visibleAppendExtents, ha]
    · rw [hempty, hw.file_eq, FuseFileHandle.visible_of_extents ha]
  · intro he hvalid
    have hr : ∀ e ∈ h.pendingAppendExtents,
        h.layout.attrs.size.toNat + e.offset.toNat + e.length.toNat < 2 ^ 64 :=
      fun e hmem => (hvalid e hmem).2
    obtain ⟨hok, l', hw⟩ := MetaState.appendWrite_written clock (v := baseVersion)
      hlayout hd (fun e hmem => (hvalid e hmem).1) hr
    refine ⟨hok, l', hw.got, ?_⟩
    have hempty : ({ h with
        layout := l', pendingAppendExtents := [], pendingAppendLength := 0 } :
          FuseFileHandle).visible = l'.file := FuseFileHandle.visible_of_empty he rfl
    refine sameReads_of_visible ⟨by simp [he], FuseFileHandle.appends_inRange hr⟩
      (FuseFileHandle.pendingInRange_of_empty he rfl) hserved
      ⟨servedBy_of_written hw hserved.layout hserved.appends, by simp [he], by simp⟩ ?_
    rw [hempty, hw.file_eq, FuseFileHandle.visible_of_appends he hr]

/-- A file of ten bytes and the objects of a write over it and of an append to it. -/
def tenByteWorld : World :=
  { World.fresh 4096 with
    service := ⟨Transition.final (@MetaState.call .insertion)
      [⟨fun _ => 1, .createFile 1 (ascii "f") 0o644 0 0⟩,
        ⟨fun _ => 2, .commitWrite 2 1 [{ length := 10, objectKey := ascii "x" }]⟩]
      (.fresh 4096 0)⟩
    objects := fun k =>
      if k = (ascii "b", ascii "x") then some [0, 1, 2, 3, 4, 5, 6, 7, 8, 9]
      else if k = (ascii "b", ascii "y") then some [10, 11] else none }

def tenByteHandle : FuseFileHandle where
  inodeId := 2
  layout := match tenByteWorld.service.state.getLayout 2 with
    | .ok layout => layout
    | _ => {}

def queuedExtent : FileExtent := { offset := 4, length := 2, objectKey := ascii "y" }

theorem sameReads_after_tenByte :
    (∃ layout, (@MetaState.commitWrite tenByteWorld.service.state .insertion (fun _ => 3) 2 0
        [queuedExtent]).2.getLayout 2 = .ok layout ∧
      SameReads World.objectStore (ascii "b") (fun w => w.objects = tenByteWorld.objects)
        { tenByteHandle with pendingExtents := [queuedExtent] }
        { tenByteHandle with layout, pendingExtents := [] }) ∧
    ∃ layout, (@MetaState.appendWrite tenByteWorld.service.state .insertion (fun _ => 3) 2 0
        [queuedExtent]).2.getLayout 2 = .ok layout ∧
      SameReads World.objectStore (ascii "b") (fun w => w.objects = tenByteWorld.objects)
        { tenByteHandle with pendingAppendExtents := [queuedExtent] }
        { tenByteHandle with layout, pendingAppendExtents := [], pendingAppendLength := 0 } := by
  have hlayout : tenByteWorld.service.state.getLayout 2 = .ok tenByteHandle.layout := by decide
  have hext : tenByteHandle.layout.extents = [{ length := 10, objectKey := ascii "x" }] := by
    decide
  have hapart : (tenByteHandle.layout.extents.map FileExtent.patch).Pairwise Patch.Apart := by
    rw [hext]
    exact List.pairwise_singleton _ _
  have hserved : ∀ e ∈ tenByteHandle.layout.extents, World.objectStore.Serves (ascii "b")
      (tenByteWorld.byteAt (ascii "b")) (fun w => w.objects = tenByteWorld.objects) e := by
    rw [hext, List.forall_mem_singleton]
    exact World.Holds.serves ⟨[0, 1, 2, 3, 4, 5, 6, 7, 8, 9], by decide, by decide, by decide⟩
      fun _ hw => hw
  have hqueued : ∀ e ∈ [queuedExtent], World.objectStore.Serves (ascii "b")
      (tenByteWorld.byteAt (ascii "b")) (fun w => w.objects = tenByteWorld.objects) e := by
    rw [List.forall_mem_singleton]
    exact World.Holds.serves ⟨[10, 11], by decide, by decide, by decide⟩ fun _ hw => hw
  exact ⟨((@sameReads_after_commit World .insertion _ _ _ _ tenByteWorld.service.state
      { tenByteHandle with pendingExtents := [queuedExtent] } (fun _ => 3) 0 hlayout hapart
      ⟨hserved, hqueued, by simp [tenByteHandle]⟩).1 rfl (by decide)).2,
    ((@sameReads_after_commit World .insertion _ _ _ _ tenByteWorld.service.state
      { tenByteHandle with pendingAppendExtents := [queuedExtent] } (fun _ => 3) 0 hlayout hapart
      ⟨hserved, by simp [tenByteHandle], hqueued⟩).2 rfl (by decide)).2⟩

end Pulpfs
