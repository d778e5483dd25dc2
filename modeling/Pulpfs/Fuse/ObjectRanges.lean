import Pulpfs.Meta.Submitted
import Pulpfs.Fuse.Reads

/-! The requests a read makes of the object store, and that they stay inside the objects as long
as the extents that are written do. -/
namespace Pulpfs
open Transition

variable {σ : Type}

/-- The store with a record of what is asked of it. -/
def ObjectStore.recording (objectStore : ObjectStore σ) :
    ObjectStore (σ × List GetObjectRequest) where
  putObject request w :=
    let result := objectStore.putObject request w.1
    (result.1, (result.2, w.2))
  getObject request w :=
    let result := objectStore.getObject request w.1
    (result.1, (result.2, w.2 ++ [request]))

/-- The `GetObject` requests of a read. -/
def readRequests (objectStore : ObjectStore σ) (bucket : Bytes) (handle : FuseFileHandle)
    (size : UInt64) (off : Int64) (s : σ) : List GetObjectRequest :=
  (readFromHandle objectStore.recording bucket handle size off (s, [])).2.2

/-- The request asks for a part, not empty, of the object of an extent, by its size. -/
def GetObjectRequest.Inside (request : GetObjectRequest) (e : FileExtent) : Prop :=
  request.key = e.objectKey ∧ ∃ offset length : UInt64, request.offset = some offset ∧
    request.length = some length ∧ 0 < length.toNat ∧
    offset.toNat + length.toNat ≤ e.objectSize.toNat

section Recording

variable (objectStore : ObjectStore σ) (bucket : Bytes)

theorem readExtentsIntoBuffer_recording (readBegin readEnd : UInt64) (extents : List FileExtent)
    (output : Bytes) (w : σ × List GetObjectRequest) :
    let recorded := readExtentsIntoBuffer objectStore.recording bucket readBegin readEnd extents
      output w
    readExtentsIntoBuffer objectStore bucket readBegin readEnd extents output w.1 =
      (recorded.1, recorded.2.1) := by
  induction extents generalizing output w with
  | nil => rfl
  | cons e extents ih =>
    unfold readExtentsIntoBuffer
    dsimp only
    split
    next => exact ih output w
    next =>
      simp only [ObjectStore.recording]
      cases hget : objectStore.getObject _ w.1 with
      | mk result s =>
        cases result with
        | error e => rfl
        | ok object => exact ih _ (s, _)

theorem readLayers_recording (handle : FuseFileHandle) (readBegin readEnd : UInt64)
    (output : Bytes) (w : σ × List GetObjectRequest) :
    let recorded := readLayers objectStore.recording bucket handle readBegin readEnd output w
    readLayers objectStore bucket handle readBegin readEnd output w.1 =
      (recorded.1, recorded.2.1) := by
  have hlayer := readExtentsIntoBuffer_recording objectStore bucket readBegin readEnd
  simp only [readLayers, hlayer handle.layout.extents output w]
  cases readExtentsIntoBuffer objectStore.recording bucket readBegin readEnd
      handle.layout.extents output w with
  | mk result w =>
    cases result with
    | error e => rfl
    | ok output =>
      simp only [hlayer handle.pendingExtents output w]
      cases readExtentsIntoBuffer objectStore.recording bucket readBegin readEnd
          handle.pendingExtents output w with
      | mk result w =>
        cases result with
        | error e => rfl
        | ok output => exact hlayer handle.visibleAppendExtents output w

/-- Recording does not change what is read. -/
theorem readFromHandle_recording (handle : FuseFileHandle) (size : UInt64) (off : Int64)
    (w : σ × List GetObjectRequest) :
    let recorded := readFromHandle objectStore.recording bucket handle size off w
    readFromHandle objectStore bucket handle size off w.1 = (recorded.1, recorded.2.1) := by
  unfold readFromHandle
  dsimp only
  split
  next => rfl
  next =>
    split
    next => rfl
    next =>
      split
      next => rfl
      next => exact readLayers_recording objectStore bucket handle _ _ _ w

end Recording

/-- What is asked for where a read overlaps an extent lies in the object when the extent does. -/
theorem FileExtent.InObject.inside {e : FileExtent} (h : e.InObject) (bucket : Bytes)
    {readBegin readEnd : UInt64}
    (hover : ¬ max readBegin e.offset ≥ min readEnd (extentEnd e)) :
    GetObjectRequest.Inside
      ⟨bucket, e.objectKey, some (e.objectOffset + (max readBegin e.offset - e.offset)),
        some (min readEnd (extentEnd e) - max readBegin e.offset)⟩ e := by
  have hmax := UInt64.toNat_max readBegin e.offset
  have hmin := UInt64.toNat_min readEnd (extentEnd e)
  rw [ge_iff_le, UInt64.le_iff_toNat_le, hmax, hmin] at hover
  have hin : e.InRange := by
    by_contra hin
    have hwrap := extentEnd_le_of_not_inRange hin
    omega
  have hend := extentEnd_toNat hin
  have hskip : (max readBegin e.offset - e.offset).toNat =
      max readBegin.toNat e.offset.toNat - e.offset.toNat := by
    rw [sub_toNat (by rw [hmax]; omega), hmax]
  have hlen : (min readEnd (extentEnd e) - max readBegin e.offset).toNat =
      min readEnd.toNat (extentEnd e).toNat - max readBegin.toNat e.offset.toNat := by
    rw [sub_toNat (by rw [hmax, hmin]; omega), hmax, hmin]
  have hsize := e.objectSize.toNat_lt
  unfold InObject at h
  refine ⟨rfl, _, _, rfl, rfl, by omega, ?_⟩
  rw [UInt64.toNat_add, hskip, Nat.mod_eq_of_lt (by omega)]
  omega

section Requests

variable (objectStore : ObjectStore σ) (bucket : Bytes) (readBegin readEnd : UInt64)
  {P : GetObjectRequest → Prop}

theorem readExtentsIntoBuffer_requests {extents : List FileExtent}
    (h : ∀ e ∈ extents, e.InObject ∧ ∀ request : GetObjectRequest, request.Inside e → P request)
    (output : Bytes) {w : σ × List GetObjectRequest} (hw : ∀ request ∈ w.2, P request) :
    ∀ request ∈ (readExtentsIntoBuffer objectStore.recording bucket readBegin readEnd extents
      output w).2.2, P request := by
  induction extents generalizing output w with
  | nil => exact hw
  | cons e extents ih =>
    rw [List.forall_mem_cons] at h
    obtain ⟨⟨hobject, hP⟩, hrest⟩ := h
    unfold readExtentsIntoBuffer
    dsimp only
    split
    next => exact ih hrest output hw
    next hover =>
      have hlog : ∀ request ∈ w.2 ++ [_], P request :=
        List.forall_mem_append.mpr
          ⟨hw, List.forall_mem_singleton.mpr (hP _ (hobject.inside bucket hover))⟩
      simp only [ObjectStore.recording]
      cases hget : objectStore.getObject _ w.1 with
      | mk result s =>
        cases result with
        | error e => exact hlog
        | ok object => exact ih hrest _ hlog

theorem readLayers_requests {handle : FuseFileHandle}
    (h : ∀ e ∈ handle.layers, e.InObject ∧ ∀ request : GetObjectRequest, request.Inside e →
      P request) (output : Bytes) {w : σ × List GetObjectRequest}
    (hw : ∀ request ∈ w.2, P request) :
    ∀ request ∈ (readLayers objectStore.recording bucket handle readBegin readEnd output w).2.2,
      P request := by
  rw [FuseFileHandle.layers, List.forall_mem_append, List.forall_mem_append] at h
  obtain ⟨⟨hlayout, hextents⟩, happends⟩ := h
  have hlayer {extents : List FileExtent} := @readExtentsIntoBuffer_requests σ objectStore bucket
    readBegin readEnd P extents
  have hfirst := hlayer hlayout output hw
  unfold readLayers
  split
  next he =>
    rw [he] at hfirst
    exact hfirst
  next output w he =>
    rw [he] at hfirst
    have hsecond := hlayer hextents output hfirst
    split
    next he =>
      rw [he] at hsecond
      exact hsecond
    next output w he =>
      rw [he] at hsecond
      exact hlayer happends output hsecond

/-- Every request of a read is made for one of the extents of the handle. -/
theorem readFromHandle_requests {handle : FuseFileHandle} (h : ∀ e ∈ handle.layers, e.InObject)
    (size : UInt64) (off : Int64) (s : σ) :
    ∀ request ∈ readRequests objectStore bucket handle size off s,
      ∃ e ∈ handle.layers, request.Inside e := by
  have hmade : ∀ e ∈ handle.layers, e.InObject ∧ ∀ request : GetObjectRequest,
      request.Inside e → ∃ e ∈ handle.layers, request.Inside e :=
    fun e he => ⟨h e he, fun request hinside => ⟨e, he, hinside⟩⟩
  unfold readRequests readFromHandle
  dsimp only
  split
  next => simp
  next =>
    split
    next => simp
    next =>
      split
      next => simp
      next => exact readLayers_requests objectStore bucket _ _ hmade _ (by simp)

end Requests

/-- What `PulpfsWrite` makes of an upload is the whole of the object. -/
theorem World.putExtent_inObject {w w' : World} {bucket objectKey buf : Bytes}
    {writeOffset : UInt64} {e : FileExtent}
    (h : putExtent World.objectStore bucket objectKey buf writeOffset w = (.ok e, w')) :
    e.InObject := by
  simp only [putExtent, World.objectStore, World.putObject] at h
  split at h
  next => simp at h
  next put w'' hput =>
    simp only [Prod.mk.injEq, Except.ok.injEq] at h
    obtain ⟨rfl, -⟩ := h
    split at hput
    next =>
      simp only [Prod.mk.injEq, Except.ok.injEq] at hput
      obtain ⟨rfl, -⟩ := hput
      simp [FileExtent.InObject]
    next => simp at hput
    next => simp at hput

/-- In every run whose writes end where 64 bits reach and submit only extents that lie in their
objects, every stored extent is a slice of one submitted to its file and lies in its object; so
whatever is read through a handle with such a layout, and with pending extents that lie in their
objects, each request asks for a part of an object that is there, and not for nothing. -/
theorem ranges_of_run [OffsetSort] (chunkSize : UInt64) (nowNs : Int64) (calls : List Call)
    (hno : ∀ e ∈ trace MetaState.call calls (.fresh chunkSize nowNs), NoOverflowAt e)
    (hin : ∀ c ∈ calls, ∀ e ∈ c.command.extents, e.InObject)
    (f : UInt64) (layout : FileLayout)
    (hl : (final MetaState.call calls (.fresh chunkSize nowNs)).layouts[f]? = some layout) :
    (∀ p ∈ layout.extents, p.InObject ∧
      ∃ c ∈ (trace MetaState.call calls (.fresh chunkSize nowNs)).flatMap (submittedTo f),
        p.SliceOf c) ∧
    ∀ {σ : Type} (objectStore : ObjectStore σ) (bucket : Bytes) (handle : FuseFileHandle),
      handle.layout.extents = layout.extents →
      (∀ e ∈ handle.pendingExtents, e.InObject) →
      (∀ e ∈ handle.pendingAppendExtents, e.InObject) →
      ∀ (size : UInt64) (off : Int64) (s : σ),
        ∀ request ∈ readRequests objectStore bucket handle size off s,
          ∃ e ∈ handle.layers, request.Inside e := by
  have hnone : ((MetaState.fresh chunkSize nowNs).fileView f).SlicesOf [] := by
    rw [MetaState.fileView_fresh]
    exact nofun
  have hslices := MetaState.run_slicesOf (MetaState.laid_fresh chunkSize nowNs) hnone
    (fun e he => (hno e he).fits) hin layout.extents (by
      simp only [MetaState.fileView, hl, Option.map_some])
  have hobjects : ∀ p ∈ layout.extents, p.InObject := by
    intro p hp
    obtain ⟨c, -, hobject, hslice⟩ := hslices p hp
    exact hslice.inObject hobject
  constructor
  · intro p hp
    obtain ⟨c, hc, -, hslice⟩ := hslices p hp
    exact ⟨hobjects p hp, c, hc, hslice⟩
  · intro σ objectStore bucket handle hlayout hextents happends size off s
    apply readFromHandle_requests
    rw [FuseFileHandle.layers, List.forall_mem_append, List.forall_mem_append, hlayout,
      FuseFileHandle.visibleAppendExtents, List.forall_mem_map]
    exact ⟨⟨hobjects, hextents⟩, happends⟩

/-- A file is written over in the middle, appended to and cut through an extent. -/
def slicedCalls : List Call :=
  let e (offset length : UInt64) (key : String) : FileExtent :=
    { offset, length, objectKey := ascii key, objectSize := length }
  [⟨fun _ => 1, .createFile 1 (ascii "f") 0o644 0 0⟩,
    ⟨fun _ => 2, .commitWrite 2 1 [e 0 10 "a", e 4 2 "b"]⟩,
    ⟨fun _ => 3, .appendWrite 2 2 [e 1 6 "c"]⟩, ⟨fun _ => 4, .truncate 2 14⟩]

def slicedLayout : FileLayout where
  attrs :=
    { inodeId := 2, type := .file, mode := 0o644, size := 14, nlink := 1, version := 4,
      atimeNs := 1, mtimeNs := 4, ctimeNs := 4, chunkSize := 4096 }
  chunkSize := 4096
  extents :=
    let e (offset length : UInt64) (key : String) (objectSize objectOffset : UInt64) :
        FileExtent :=
      { offset, length, objectKey := ascii key, objectSize, objectOffset }
    [e 0 4 "a" 10 0, e 4 2 "b" 2 0, e 6 4 "a" 10 6, e 11 3 "c" 6 0]

def slicedWorld : World :=
  { World.fresh 4096 with
    objects := fun k =>
      if k = (ascii "b", ascii "a") then some (List.replicate 10 1)
      else if k = (ascii "b", ascii "b") then some (List.replicate 2 2)
      else some (List.replicate 6 3) }

theorem ranges_of_slicedCalls :
    (∀ p ∈ slicedLayout.extents, p.InObject ∧
      ∃ c ∈ (trace (@MetaState.call .insertion) slicedCalls (.fresh 4096 0)).flatMap
        (submittedTo 2), p.SliceOf c) ∧
    ∀ request ∈ readRequests World.objectStore (ascii "b") { layout := slicedLayout } 20 5
        slicedWorld,
      ∃ e ∈ slicedLayout.extents ++ [] ++ [], request.Inside e := by
  obtain ⟨hslices, hrequests⟩ := @ranges_of_run .insertion 4096 0 slicedCalls (by decide)
    (by decide) 2 slicedLayout (by decide)
  exact ⟨hslices, hrequests World.objectStore (ascii "b") { layout := slicedLayout } rfl
    (by simp) (by simp) 20 5 slicedWorld⟩

end Pulpfs
