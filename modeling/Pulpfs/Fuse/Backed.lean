import Pulpfs.Fuse.AllExtents

/-! No reference to data dangles. Whatever any mount does and whatever becomes of its calls, each
extent that a layout or a handle has lies in an object that is stored, so that reads find it. -/
namespace Pulpfs
open Function Transition

namespace World

variable {w w' : World} {bucket : Bytes}

/-- Nothing stored has been lost or replaced. -/
def ObjectsKept (w w' : World) : Prop :=
  ∀ k body, w.objects k = some body → w'.objects k = some body

theorem Holds.kept {e : FileExtent} (h : w.Holds bucket e) (hk : w.ObjectsKept w') :
    w'.Holds bucket e := by
  obtain ⟨body, hbody, hrange⟩ := h
  exact ⟨body, hk _ body hbody, hrange⟩

/-- Every extent of every layout lies in an object. -/
structure Backed (bucket : Bytes) (w : World) : Prop where
  laid : ∀ f, (w.service.state.fileView f).Laid
  held : ∀ f es, (w.service.state.fileView f).2 = some es → ∀ e ∈ es, w.Holds bucket e

/-- All a handle refers to lies in objects, and so do the layouts. -/
structure Backs (bucket : Bytes) (w : World) (h : FuseFileHandle) : Prop where
  world : w.Backed bucket
  layout : ∀ e ∈ h.layout.extents, w.Holds bucket e
  extents : ∀ e ∈ h.pendingExtents, w.Holds bucket e
  appends : ∀ e ∈ h.pendingAppendExtents, w.Holds bucket e

end World

section Handles

variable {w : World} {bucket : Bytes} {h : FuseFileHandle}

theorem World.Backs.held (hb : w.Backs bucket h) : ∀ e ∈ h.extents, w.Holds bucket e :=
  FuseFileHandle.forall_extents.mpr ⟨hb.layout, hb.extents, hb.appends⟩

theorem World.Backed.backs (hw : w.Backed bucket) (hh : ∀ e ∈ h.extents, w.Holds bucket e) :
    w.Backs bucket h := by
  obtain ⟨hlayout, hextents, happends⟩ := FuseFileHandle.forall_extents.mp hh
  exact ⟨hw, hlayout, hextents, happends⟩

end Handles

section Reads

variable {bucket : Bytes} {w : World}

/-- What a read asks for of an extent is in the object, also where the extent wraps around: of
such a one no read asks for anything. -/
theorem World.Holds.exists_getObject {e : FileExtent} (h : w.Holds bucket e)
    {readBegin readEnd : UInt64} (hover : ¬ max readBegin e.offset ≥ min readEnd (extentEnd e)) :
    ∃ object, World.objectStore.getObject ⟨bucket, e.objectKey,
      some (e.objectOffset + (max readBegin e.offset - e.offset)),
      some (min readEnd (extentEnd e) - max readBegin e.offset)⟩ w = (.ok object, w) := by
  obtain ⟨body, hbody, hlen, hrange⟩ := h
  have hmax := UInt64.toNat_max readBegin e.offset
  have hmin := UInt64.toNat_min readEnd (extentEnd e)
  have hend : (extentEnd e).toNat = (e.offset.toNat + e.length.toNat) % 2 ^ 64 :=
    UInt64.toNat_add _ _
  have hoffset := e.offset.toNat_lt
  rw [ge_iff_le, UInt64.le_iff_toNat_le, hmax, hmin, hend] at hover
  have hskip : (max readBegin e.offset - e.offset).toNat < e.length.toNat := by
    rw [sub_toNat (by rw [hmax]; omega), hmax]
    omega
  have hstart : (e.objectOffset + (max readBegin e.offset - e.offset)).toNat =
      e.objectOffset.toNat + (max readBegin e.offset - e.offset).toNat := by
    rw [UInt64.toNat_add, Nat.mod_eq_of_lt (by omega)]
  simp only [World.objectStore, World.getObject, hbody, hstart]
  rw [if_neg (by omega)]
  exact ⟨_, rfl⟩

theorem exists_readExtents (readBegin readEnd : UInt64) {extents : List FileExtent}
    (h : ∀ e ∈ extents, w.Holds bucket e) (output : Bytes) :
    ∃ data, readExtentsIntoBuffer World.objectStore bucket readBegin readEnd extents output w =
      (.ok data, w) := by
  induction extents generalizing output with
  | nil => exact ⟨output, rfl⟩
  | cons e extents ih =>
    rw [List.forall_mem_cons] at h
    unfold readExtentsIntoBuffer
    by_cases hover : max readBegin e.offset ≥ min readEnd (extentEnd e)
    · simp only [if_pos hover]
      exact ih h.2 output
    · obtain ⟨object, hget⟩ := h.1.exists_getObject hover
      simp only [if_neg hover, hget]
      exact ih h.2 _

/-- A read of what is stored does not fail. -/
theorem World.Backs.exists_read {h : FuseFileHandle} (hb : w.Backs bucket h) (size : UInt64)
    {off : Int64} (hoff : 0 ≤ off) :
    ∃ data, readFromHandle World.objectStore bucket h size off w = (.ok data, w) := by
  have happends : ∀ e ∈ h.visibleAppendExtents, w.Holds bucket e := by
    intro e he
    obtain ⟨d, hd, rfl⟩ := List.mem_map.mp he
    exact hb.appends d hd
  unfold readFromHandle
  simp only [if_neg (Int64.not_lt.mpr hoff)]
  split
  · exact ⟨_, rfl⟩
  · split
    · exact ⟨_, rfl⟩
    · unfold readLayers
      obtain ⟨first, hfirst⟩ := exists_readExtents off.toUInt64
        (min (off.toUInt64 + size) h.visibleSize) hb.layout
        (resize (List.replicate size.toNat 0)
          (min (off.toUInt64 + size) h.visibleSize - off.toUInt64).toNat)
      obtain ⟨second, hsecond⟩ := exists_readExtents off.toUInt64
        (min (off.toUInt64 + size) h.visibleSize) hb.extents first
      simp only [hfirst, hsecond]
      exact exists_readExtents _ _ happends second

end Reads

section Mounts

variable {bucket : Bytes} {m : Mount World}

/-- The object of a write is stored, of whatever length it is. -/
theorem IsWritten.stored {ino off : UInt64} {buf : Bytes} {extent : FileExtent}
    (h : IsWritten m ino off buf extent) :
    (m.world.store (m.upload ino off buf)).Holds m.server.config.bucket extent := by
  have hlength : extent.length.toNat ≤ buf.length := by
    rw [h.length, UInt64.toNat_ofNat']
    exact Nat.mod_le _ _
  have hlt := extent.length.toNat_lt
  refine ⟨buf, ?_, ?_, ?_⟩
  · rw [h.objectKey]
    exact update_self _ _ _
  · rw [h.objectOffset, UInt64.toNat_zero]
    omega
  · rw [h.objectOffset, UInt64.toNat_zero]
    omega

/-- A read through a handle that refers to objects returns what the handle shows. -/
theorem World.Backs.exists_buf [OffsetSort] {h : FuseFileHandle} {fi : FuseFileInfo}
    (hb : m.world.Backs m.server.config.bucket h)
    (hget : m.server.getFileHandle fi.fh = some h) (ino size : UInt64) {off : Int64}
    (hoff : 0 ≤ off) :
    ∃ data, (m.serve World.backend (.read ino size off fi)).1 = .buf data ∧
      (h.PendingInRange → size.toNat < 2 ^ 63 →
        data = ((h.visible.bytes (m.world.byteAt m.server.config.bucket) 0).drop
          off.toUInt64.toNat).take size.toNat) := by
  obtain ⟨data, hread⟩ := hb.exists_read size hoff
  have hserve : m.serve World.backend (.read ino size off fi) = (.buf data, m) := by
    simp only [Mount.serve, Mount.pulpfsRead, hget, World.backend, hread]
  refine ⟨data, congrArg Prod.fst hserve, fun hrange hsize => ?_⟩
  have hshown := pulpfsRead_held hget hrange hb.layout hb.extents hb.appends ino hsize hoff
  exact FuseReply.buf.inj (congrArg Prod.fst (hserve.symm.trans hshown))

/-- All that the layouts and the handles of a mount refer to lies in objects. -/
structure Mount.Backed (bucket : Bytes) (m : Mount World) : Prop where
  world : m.world.Backed bucket
  handles : ∀ id h, m.server.getFileHandle id = some h →
    ∀ e ∈ h.extents, m.world.Holds bucket e

namespace Mount.Backed

variable (hm : m.Backed bucket)
include hm

theorem backs {id : UInt64} {h : FuseFileHandle} (hget : m.server.getFileHandle id = some h) :
    m.world.Backs bucket h := hm.world.backs (hm.handles id h hget)

/-- The step lemma for one mount: what lay in objects still does, and so does what is new. -/
theorem serve [OffsetSort] (hbucket : m.server.config.bucket = bucket) (r : Request)
    (hkept : m.world.ObjectsKept (m.serve World.backend r).2.world) :
    (m.serve World.backend r).2.Backed bucket := by
  let P := (m.serve World.backend r).2.world.Holds bucket
  have hall : m.All P P :=
    ⟨⟨hm.world.laid, fun f es hes e he => (hm.world.held f es hes e he).kept hkept⟩,
      fun id h hget e he => (hm.handles id h hget e he).kept hkept⟩
  have hsent : ∀ e ∈ m.server.sent r, P e := by
    intro e he
    obtain ⟨id, h, hget, he⟩ := FuseServer.exists_of_mem_sent he
    exact hall.handles id h hget e he
  have hserved := hall.serve (fun _ hp => hp) (fun hp hc => hc.within hp) r hsent
    fun ino offset buf extent hext hstored => by
      show (m.serve World.backend r).2.world.Holds bucket extent
      rw [hstored, ← hbucket]
      exact hext.stored
  exact ⟨⟨hserved.world.laid, hserved.world.held⟩, hserved.handles⟩

end Mount.Backed

/-- No request changes the configuration. -/
theorem Mount.serve_config {σ : Type} (b : Backend σ) (m : Mount σ) (r : Request) :
    (m.serve b r).2.server.config = m.server.config := by
  have hcommit (id : UInt64) : (m.commit b id).2.server.config = m.server.config := by
    unfold Mount.commit
    split <;> rfl
  cases r with
  | create parent name mode uid gid fi =>
    simp only [serve, pulpfsCreate]
    split <;> rfl
  | «open» ino fi =>
    simp only [serve, pulpfsOpen]
    split <;> rfl
  | opendir ino fi =>
    simp only [serve, pulpfsOpenDir]
    split
    · rfl
    · split <;> rfl
  | read ino size off fi =>
    simp only [serve, pulpfsRead]
    split
    · rfl
    · split
      · rfl
      · split <;> rfl
  | write ino buf off fi =>
    simp only [serve, pulpfsWrite]
    split
    · rfl
    · split
      · rfl
      · split
        · rfl
        · split
          · rfl
          · split <;> rfl
  | flush ino fi => exact hcommit fi.fh
  | fsync ino datasync fi => exact hcommit fi.fh
  | release ino fi => exact hcommit fi.fh
  | releasedir ino fi => exact hcommit fi.fh

variable {ι : Type}

namespace Mounts

/-- A layout, or a handle of some mount, refers to the object. -/
def Refers (ms : Mounts ι) (key : Bytes) : Prop :=
  ms.world.service.state.References key ∨
    ∃ i id h, (ms.servers i).getFileHandle id = some h ∧ ∃ e ∈ h.extents, e.objectKey = key

variable [OffsetSort]

/-- What happens outside the mounts uploads nothing, deletes no object that is referred to, and has
the service called for anything but data. -/
def Harmless (bucket : Bytes) (ms : Mounts ι) : MountEvent ι → Prop
  | .request _ _ => True
  | .outside w => ms.PutsNothing (.outside w) ∧
      (∀ key body, ms.Refers key → ms.world.objects (bucket, key) = some body →
        w.objects (bucket, key) = some body) ∧
      ∃ calls : List Call, (∀ c ∈ calls, c.command.extents = []) ∧
        w.service.state = final MetaState.call calls ms.world.service.state

/-- Whatever is referred to is stored. -/
structure Backed (bucket : Bytes) (ms : Mounts ι) : Prop where
  world : ms.world.Backed bucket
  handles : ∀ i id h, (ms.servers i).getFileHandle id = some h →
    ∀ e ∈ h.extents, ms.world.Holds bucket e
  buckets : ∀ i, (ms.servers i).config.bucket = bucket

variable {ms : Mounts ι}

/-- Calls that commit no data leave no extents but parts of what was there. -/
theorem laid_of_calls {P : FileExtent → Prop} (hP : ∀ {p c : FileExtent}, p.Within c → P c → P p)
    {s : MetaState} (hlaid : ∀ f, (s.fileView f).Laid)
    (hs : ∀ f es, (s.fileView f).2 = some es → ∀ e ∈ es, P e) {calls : List Call}
    (hcalls : ∀ c ∈ calls, c.command.extents = []) :
    (∀ f, ((final MetaState.call calls s).fileView f).Laid) ∧
      ∀ f es, ((final MetaState.call calls s).fileView f).2 = some es → ∀ e ∈ es, P e := by
  induction calls generalizing s with
  | nil => exact ⟨hlaid, hs⟩
  | cons c calls ih =>
    rw [List.forall_mem_cons] at hcalls
    have hnone : ∀ e ∈ c.command.extents, P e := by simp [hcalls.1]
    exact ih (MetaState.execute_laid s c.clock c.command hlaid)
      (MetaState.forall_extents_of_call hP hlaid hs hnone) hcalls.2

theorem Backed.outside (hb : ms.Backed bucket) {w : World}
    (hharmless : ms.Harmless bucket (.outside w)) : Backed bucket { ms with world := w } := by
  obtain ⟨-, hkept, calls, hcalls, hstate⟩ := hharmless
  have hholds {e : FileExtent} (hr : ms.Refers e.objectKey) (h : ms.world.Holds bucket e) :
      w.Holds bucket e := by
    obtain ⟨body, hbody, hlen⟩ := h
    exact ⟨body, hkept _ body hr hbody, hlen⟩
  have hold : ∀ f es, (ms.world.service.state.fileView f).2 = some es →
      ∀ e ∈ es, w.Holds bucket e := by
    intro f es hes e he
    exact hholds (.inl (MetaState.references_iff.mpr ⟨f, es, hes, e, he, rfl⟩))
      (hb.world.held f es hes e he)
  obtain ⟨hlaid, hheld⟩ := laid_of_calls (fun hp hc => hc.within hp) hb.world.laid hold hcalls
  rw [← hstate] at hlaid hheld
  refine ⟨⟨hlaid, hheld⟩, ?_, hb.buckets⟩
  intro i id h hget e he
  exact hholds (.inr ⟨i, id, h, hget, e, he, rfl⟩) (hb.handles i id h hget e he)

theorem servers_self [DecidableEq ι] (i : ι) (r : Request) :
    (step (.request i r) ms).2.servers i =
      (Mount.serve World.backend ⟨ms.servers i, ms.world⟩ r).2.server := update_self ..

theorem servers_of_ne [DecidableEq ι] {i j : ι} (hj : j ≠ i) (r : Request) :
    (step (.request i r) ms).2.servers j = ms.servers j := update_of_ne hj ..

/-- The step lemma. -/
theorem Backed.step [DecidableEq ι] (hb : ms.Backed bucket) {event : MountEvent ι}
    (hharmless : ms.Harmless bucket event)
    (hkeeps : KeepsObjects ⟨ms, event, (step event ms).1, (step event ms).2⟩) :
    (step event ms).2.Backed bucket := by
  cases event with
  | outside w => exact hb.outside hharmless
  | request i r =>
    have hm : Mount.Backed bucket ⟨ms.servers i, ms.world⟩ := ⟨hb.world, hb.handles i⟩
    have hserved := hm.serve (hb.buckets i) r hkeeps
    refine ⟨hserved.world, fun j id h hget => ?_, fun j => ?_⟩
    · by_cases hj : j = i
      · rw [hj, servers_self] at hget
        exact hserved.handles id h hget
      · rw [servers_of_ne hj] at hget
        exact fun e he => (hb.handles j id h hget e he).kept hkeeps
    · by_cases hj : j = i
      · rw [hj, servers_self, Mount.serve_config]
        exact hb.buckets i
      · rw [servers_of_ne hj]
        exact hb.buckets j

section Start

variable {writerId : ι → Bytes} {config : ι → FuseServerConfig} {w : World}

omit [OffsetSort] in
/-- At first nothing is referred to. -/
theorem backed_start (hbucket : ∀ i, (config i).bucket = bucket) {chunkSize : UInt64}
    {nowNs : Int64} (hfresh : w.service.state = .fresh chunkSize nowNs) :
    Backed bucket ⟨fun i => .fresh (config i) (writerId i), w⟩ := by
  have hall : w.All (w.Holds bucket) := .of_fresh hfresh
  refine ⟨⟨hall.laid, hall.held⟩, ?_, hbucket⟩
  intro i id h hget
  have hnone := FuseServer.getFileHandle_fresh (config i) (writerId i) id
  rw [hnone] at hget
  contradiction

/-- Into a store that was empty no mount puts anything twice. -/
theorem keepsObjects_of_start [DecidableEq ι] (hdistinct : Injective writerId)
    (hslash : ∀ i, 47 ∉ writerId i) (hempty : w.objects = fun _ => none)
    {events : List (MountEvent ι)}
    (room : ∀ i, callsOn i (keyCalls
      (trace step events ⟨fun i => .fresh (config i) (writerId i), w⟩)) < 2 ^ 64)
    (hharmless : ∀ e ∈ trace step events ⟨fun i => .fresh (config i) (writerId i), w⟩,
      e.before.Harmless bucket e.input) :
    ∀ e ∈ trace step events ⟨fun i => .fresh (config i) (writerId i), w⟩, KeepsObjects e := by
  refine run_objects (fun e he => ?_) (fun b key _ => congrFun hempty _)
    (nodup_keysOf hdistinct hslash room)
  have hone := hharmless e he
  cases hinput : e.input with
  | request i r => trivial
  | outside w =>
    rw [hinput] at hone
    exact hone.1

end Start

end Mounts

end Mounts

/-- The reply to the first flush is lost. -/
def lossyWorld : World :=
  { World.fresh 4096 with
    deliveries := fun n => if n = 3 then .replyLost ⟨.unavailable, []⟩ else .answered }

/-- Two mounts of one bucket, with a store that is empty. -/
def lossyMounts : Mounts Bool := ⟨fun i => .fresh (twoMounts i) (twoWriters i), lossyWorld⟩

def lossyRequests : List (MountEvent Bool) :=
  [.request false (.create 1 (ascii "f") 0o644 0 0 ⟨oRdwr, 0, false⟩),
    .request false (.write 2 [1, 2] 0 ⟨oRdwr, 1, true⟩),
    .request true (.open 2 ⟨oRdwr, 0, false⟩), .request true (.write 2 [3] 0 ⟨oRdwr, 1, true⟩),
    .request false (.flush 2 ⟨oRdwr, 1, true⟩), .request true (.flush 2 ⟨oRdwr, 1, true⟩)]

/-- Then a third client makes a directory. -/
def lossyEvents : List (MountEvent Bool) :=
  let w := (final (@Mounts.step Bool _ .insertion) lossyRequests lossyMounts).world
  let call : Call := ⟨fun _ => 9, .mkdir 1 (ascii "d") 0o755 0 0⟩
  lossyRequests ++ [.outside
    { w with service := ⟨(@MetaState.call .insertion call w.service.state).2⟩ }]

end Pulpfs
