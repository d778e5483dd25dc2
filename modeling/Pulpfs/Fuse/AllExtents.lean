import Pulpfs.Fuse.ObjectKeys
import Pulpfs.Fuse.Stored
import Pulpfs.Meta.References

/-! What every extent of the layouts of a mount has, with every part of it, and what the extents of
its handles have: no request makes extents of anything else but of what it writes. -/
namespace Pulpfs
open Function Transition

/-- A merge cuts no extent beyond its object, not even where an offset wraps around. -/
theorem keptPieces_within {e c p : FileExtent} (hp : p ∈ keptPieces e c) : p.Within c := by
  have hend : (extentEnd c).toNat = (c.offset.toNat + c.length.toNat) % 2 ^ 64 :=
    UInt64.toNat_add _ _
  have hc := c.offset.toNat_lt
  have hl := c.length.toNat_lt
  unfold keptPieces at hp
  split at hp
  next => exact List.mem_singleton.mp hp ▸ .refl c
  next hover =>
    simp only [overlaps, Bool.not_eq_true', Bool.and_eq_false_iff, decide_eq_false_iff_not, not_or,
      not_not, UInt64.lt_iff_toNat_lt] at hover
    rcases List.mem_append.mp hp with hp | hp
    · split at hp
      next hlt =>
        rw [UInt64.lt_iff_toNat_lt] at hlt
        obtain rfl := List.mem_singleton.mp hp
        refine ⟨rfl, _, rfl, ?_⟩
        show (c.offset - c.offset).toNat + (e.offset - c.offset).toNat ≤ c.length.toNat
        rw [sub_toNat le_rfl, sub_toNat hlt.le]
        omega
      next => contradiction
    · split at hp
      next hlt =>
        rw [UInt64.lt_iff_toNat_lt] at hlt
        obtain rfl := List.mem_singleton.mp hp
        refine ⟨rfl, _, rfl, ?_⟩
        show (extentEnd e - c.offset).toNat + (extentEnd c - extentEnd e).toNat ≤ c.length.toNat
        rw [sub_toNat hover.1.le, sub_toNat hlt.le]
        omega
      next => contradiction

section Cut

variable {P : FileExtent → Prop} (hP : ∀ {p c : FileExtent}, p.Within c → P c → P p)
include hP

theorem forall_mergeAll_within [OffsetSort] {es extents : List FileExtent} (h : ∀ c ∈ es, P c)
    (he : ∀ e ∈ extents, P e) : ∀ p ∈ mergeAll es extents, P p := by
  induction extents generalizing es with
  | nil => exact h
  | cons e extents ih =>
    rw [List.forall_mem_cons] at he
    refine ih ?_ he.2
    intro p hp
    rw [(mergeExtent_perm es e).mem_iff, List.mem_append, List.mem_flatMap] at hp
    rcases hp with ⟨c, hc, hp⟩ | hp
    · exact hP (keptPieces_within hp) (h c hc)
    · exact List.mem_singleton.mp hp ▸ he.1

/-- What every part has of what it is a part of, the extents a call leaves have of those it found
and those it commits. -/
theorem MetaState.forall_extents_of_call [OffsetSort] {s : MetaState} {c : Call}
    (hlaid : ∀ f, (s.fileView f).Laid)
    (h : ∀ f es, (s.fileView f).2 = some es → ∀ e ∈ es, P e)
    (hc : ∀ e ∈ c.command.extents, P e) :
    ∀ f es, ((s.call c).2.fileView f).2 = some es → ∀ e ∈ es, P e := by
  intro f es hv
  by_cases hf : c.command.written = some f
  · rcases execute_writtenView (s := s) c.clock hf with hsame | ⟨size, stored, hview, hnew⟩
    · rw [call, hsame] at hv
      exact h f es hv
    · have hstored := h f stored (congrArg Prod.snd hview)
      obtain rfl := Option.some.inj ((congrArg Prod.snd hnew).symm.trans hv)
      rcases Command.of_written hf with ⟨v, extents, hcommand⟩ | ⟨v, extents, hcommand⟩ |
        ⟨n, hcommand⟩
      · rw [hcommand] at hc ⊢
        exact forall_mergeAll_within hP hstored fun e he => hc e (validPrefix_subset he)
      · rw [hcommand] at hc ⊢
        refine forall_mergeAll_within hP hstored fun e he => ?_
        obtain ⟨d, hd, rfl⟩ := List.mem_map.mp he
        exact hP (d.within_shift _) (hc d (validPrefix_subset hd))
      · rw [hcommand]
        exact forall_truncateExtents (fun hcut hPc => hP hcut.within hPc) hstored n
  · rcases (execute_view s c.clock c.command (hlaid _) hf).extents hv with hold | rfl
    · exact h f es hold
    · simp

end Cut

/-- All the extents a handle refers to. -/
def FuseFileHandle.extents (h : FuseFileHandle) : List FileExtent :=
  h.layout.extents ++ h.pendingExtents ++ h.pendingAppendExtents

/-- The extents a commit of a handle sends. -/
def FuseServer.queueOf (server : FuseServer) (id : UInt64) : List FileExtent :=
  match server.getFileHandle id with
  | none => []
  | some h => h.pendingExtents ++ h.pendingAppendExtents

/-- The extents a request sends. -/
def FuseServer.sent (server : FuseServer) : Request → List FileExtent
  | .flush _ fi => server.queueOf fi.fh
  | .fsync _ _ fi => server.queueOf fi.fh
  | .release _ fi => server.queueOf fi.fh
  | .releasedir _ fi => server.queueOf fi.fh
  | _ => []

/-- Every extent of every layout has the property. -/
structure World.All (P : FileExtent → Prop) (w : World) : Prop where
  laid : ∀ f, (w.service.state.fileView f).Laid
  held : ∀ f es, (w.service.state.fileView f).2 = some es → ∀ e ∈ es, P e

/-- Every extent of every layout has `P`, every extent of every handle has `Q`. -/
structure Mount.All (P Q : FileExtent → Prop) (m : Mount World) : Prop where
  world : m.world.All P
  handles : ∀ id h, m.server.getFileHandle id = some h → ∀ e ∈ h.extents, Q e

variable {P Q : FileExtent → Prop} {w : World} {h : FuseFileHandle}

theorem FuseFileHandle.forall_extents :
    (∀ e ∈ h.extents, P e) ↔ (∀ e ∈ h.layout.extents, P e) ∧
      (∀ e ∈ h.pendingExtents, P e) ∧ ∀ e ∈ h.pendingAppendExtents, P e := by
  simp only [extents, List.forall_mem_append, and_assoc]

theorem FuseServer.queueOf_of_get {server : FuseServer} {id : UInt64}
    (hget : server.getFileHandle id = some h) :
    server.queueOf id = h.pendingExtents ++ h.pendingAppendExtents := by
  unfold queueOf
  rw [hget]

/-- A server that was just started has no handles. -/
theorem FuseServer.getFileHandle_fresh (config : FuseServerConfig) (writerId : Bytes)
    (id : UInt64) : (FuseServer.fresh config writerId).getFileHandle id = none :=
  Std.ExtTreeMap.getElem?_empty

/-- What a request sends some handle refers to. -/
theorem FuseServer.exists_of_mem_sent {server : FuseServer} {r : Request} {e : FileExtent}
    (he : e ∈ server.sent r) :
    ∃ id h, server.getFileHandle id = some h ∧ e ∈ h.extents := by
  have hqueue {id : UInt64} (he : e ∈ server.queueOf id) :
      ∃ id h, server.getFileHandle id = some h ∧ e ∈ h.extents := by
    unfold queueOf at he
    split at he
    next => contradiction
    next h hget =>
      refine ⟨id, h, hget, ?_⟩
      rw [FuseFileHandle.extents, List.append_assoc]
      exact List.mem_append_right _ he
  cases r with
  | flush ino fi => exact hqueue he
  | fsync ino datasync fi => exact hqueue he
  | release ino fi => exact hqueue he
  | releasedir ino fi => exact hqueue he
  | _ => contradiction

namespace World.All

/-- A new service has no layouts. -/
theorem of_fresh {chunkSize : UInt64} {nowNs : Int64}
    (hfresh : w.service.state = .fresh chunkSize nowNs) : w.All P := by
  refine ⟨?_, ?_⟩
  · rw [hfresh]
    exact MetaState.laid_fresh chunkSize nowNs
  · rw [hfresh]
    intro f es hes
    rw [MetaState.fileView_fresh] at hes
    contradiction

theorem of_state {w' : World} (hw : w.All P) (hs : w'.service.state = w.service.state) :
    w'.All P := by
  refine ⟨?_, ?_⟩
  · rw [hs]
    exact hw.laid
  · rw [hs]
    exact hw.held

theorem getLayout (hw : w.All P) {i : UInt64} {layout : FileLayout}
    (hgot : w.service.state.getLayout i = .ok layout) : ∀ e ∈ layout.extents, P e := by
  obtain ⟨stored, hfile, hextents⟩ := MetaState.getLayout_ok hgot
  exact hextents ▸ hw.held i stored.extents (congrArg Prod.snd hfile.view)

theorem query {α : Type} (hw : w.All P) (read : MetaState → Outcome α) :
    (w.query read).2.All P := by
  rw [w.query_world read]
  exact hw.of_state rfl

/-- What a layout that the client gets has, and the world after it. -/
theorem client_getLayout [OffsetSort] (hw : w.All P) {i : UInt64}
    {result : Except Error FileLayout} {w' : World}
    (he : World.metaClient.getLayout i w = (result, w')) :
    w'.All P ∧ ∀ layout, result = .ok layout → ∀ e ∈ layout.extents, P e := by
  obtain rfl : w.count = w' :=
    (w.query_world fun s => s.getLayout i).symm.trans (congrArg Prod.snd he)
  refine ⟨hw.of_state rfl, fun layout hr => ?_⟩
  subst hr
  exact hw.getLayout (World.query_ok (congrArg Prod.fst he))

variable [OffsetSort] (hP : ∀ {p c : FileExtent}, p.Within c → P c → P p)
include hP

theorem applied (hw : w.All P) {c : Command} (hc : ∀ e ∈ c.extents, P e) :
    (w.applied c).All P := by
  have hstate := w.applied_state c
  refine ⟨?_, ?_⟩
  · rw [hstate]
    exact MetaState.execute_laid _ _ c hw.laid
  · rw [hstate]
    exact MetaState.forall_extents_of_call (c := ⟨w.clocks w.calls, c⟩) hP hw.laid hw.held hc

theorem propose {α : Type} (hw : w.All P) {c : Command} (hc : ∀ e ∈ c.extents, P e)
    (read : RaftCommandResponse → Except Error α) : (w.propose c read).2.All P := by
  cases hd : w.deliveries w.calls with
  | notApplied status =>
    rw [propose_notApplied hd]
    exact hw.of_state rfl
  | replyLost status =>
    rw [propose_replyLost hd]
    exact hw.applied hP hc
  | answered =>
    have happlied : (w.deliveries w.calls).isApplied = true := by
      rw [hd]
      rfl
    obtain ⟨result, hr⟩ : ∃ result, w.propose c read = (result, w.applied c) :=
      propose_applied happlied
    rw [hr]
    exact hw.applied hP hc

end World.All

section Handles

variable [OffsetSort]

/-- The first half of a commit leaves the appends to the second. -/
theorem commitExtents_appends (h : FuseFileHandle) (w : World) :
    (commitExtents World.metaClient h w).2.1.pendingAppendExtents = h.pendingAppendExtents := by
  have hrefresh (h : FuseFileHandle) (w : World) :
      (Pulpfs.refreshLayout World.metaClient h w).1.pendingAppendExtents =
        h.pendingAppendExtents := by
    unfold Pulpfs.refreshLayout
    split <;> rfl
  unfold commitExtents
  split
  · rfl
  · split
    · rfl
    · exact hrefresh _ _

/-- The layout of a file that is opened. -/
theorem World.All.openLayout (hP : ∀ {p c : FileExtent}, p.Within c → P c → P p)
    (hw : w.All P) (ino : UInt64) (flags : UInt32) :
    (openLayout World.metaClient ino flags w).2.All P ∧
      ∀ layout, (openLayout World.metaClient ino flags w).1 = .ok layout →
        ∀ e ∈ layout.extents, P e := by
  have hcut {w : World} (hw : w.All P) {r : Except Error InodeAttrs} {w' : World}
      (he : World.metaClient.truncate ino 0 w = (r, w')) : w'.All P := by
    have hcall : (World.metaClient.truncate ino 0 w).2.All P :=
      hw.propose hP (c := .truncate _ _) (by simp [Command.extents]) _
    rwa [he] at hcall
  unfold Pulpfs.openLayout
  split
  next e w₁ he => exact ⟨(hw.client_getLayout he).1, nofun⟩
  next layout w₁ he =>
    obtain ⟨hw₁, hgot⟩ := hw.client_getLayout he
    split
    · exact ⟨hw₁, nofun⟩
    · split
      · split
        next e w₂ he₂ => exact ⟨hcut hw₁ he₂, nofun⟩
        next a w₂ he₂ =>
          split
          next e w₃ he₃ => exact ⟨((hcut hw₁ he₂).client_getLayout he₃).1, nofun⟩
          next layout' w₃ he₃ =>
            obtain ⟨hw₃, hgot₃⟩ := (hcut hw₁ he₂).client_getLayout he₃
            exact ⟨hw₃, fun l hl => hgot₃ l (Except.ok.inj hl ▸ rfl)⟩
      · exact ⟨hw₁, fun l hl => hgot l (Except.ok.inj hl ▸ rfl)⟩

variable (hPQ : ∀ e, P e → Q e)
include hPQ

theorem World.All.refreshLayout (hw : w.All P) (hh : ∀ e ∈ h.extents, Q e) :
    (refreshLayout World.metaClient h w).2.All P ∧
      ∀ e ∈ (refreshLayout World.metaClient h w).1.extents, Q e := by
  obtain ⟨-, hextents, happends⟩ := FuseFileHandle.forall_extents.mp hh
  unfold Pulpfs.refreshLayout
  split
  next layout w' he =>
    obtain ⟨hw', hgot⟩ := hw.client_getLayout he
    exact ⟨hw', FuseFileHandle.forall_extents.mpr
      ⟨fun e he => hPQ e (hgot layout rfl e he), hextents, happends⟩⟩
  next e w' he => exact ⟨(hw.client_getLayout he).1, hh⟩

variable (hP : ∀ {p c : FileExtent}, p.Within c → P c → P p)
include hP

/-- What a commit has sent the handle refers to no more. -/
theorem World.All.commitExtents (hw : w.All P) (hh : ∀ e ∈ h.extents, Q e)
    (hsent : ∀ e ∈ h.pendingExtents, P e) :
    (commitExtents World.metaClient h w).2.2.All P ∧
      ∀ e ∈ (commitExtents World.metaClient h w).2.1.extents, Q e := by
  obtain ⟨hlayout, hextents, happends⟩ := FuseFileHandle.forall_extents.mp hh
  have hcall : (World.metaClient.commitWrite h.inodeId h.layout.attrs.version h.pendingExtents
      w).2.All P := hw.propose hP (c := .commitWrite _ _ _) hsent _
  unfold Pulpfs.commitExtents
  split
  · exact ⟨hw, hh⟩
  · split
    next e w' he =>
      rw [he] at hcall
      exact ⟨hcall, hh⟩
    next a w' he =>
      rw [he] at hcall
      exact hcall.refreshLayout hPQ
        (FuseFileHandle.forall_extents.mpr ⟨hlayout, by simp, happends⟩)

theorem World.All.commitAppends (hw : w.All P) (hh : ∀ e ∈ h.extents, Q e)
    (hsent : ∀ e ∈ h.pendingAppendExtents, P e) :
    (commitAppends World.metaClient h w).2.2.All P ∧
      ∀ e ∈ (commitAppends World.metaClient h w).2.1.extents, Q e := by
  obtain ⟨hlayout, hextents, happends⟩ := FuseFileHandle.forall_extents.mp hh
  have hcall : (World.metaClient.appendWrite h.inodeId h.layout.attrs.version
      h.pendingAppendExtents w).2.All P := hw.propose hP (c := .appendWrite _ _ _) hsent _
  unfold Pulpfs.commitAppends
  split
  · exact ⟨hw, hh⟩
  · split
    next e w' he =>
      rw [he] at hcall
      exact ⟨hcall, hh⟩
    next a w' he =>
      rw [he] at hcall
      exact hcall.refreshLayout hPQ
        (FuseFileHandle.forall_extents.mpr ⟨hlayout, hextents, by simp⟩)

theorem World.All.commitHandle (hw : w.All P) (hh : ∀ e ∈ h.extents, Q e)
    (hsent : ∀ e ∈ h.pendingExtents ++ h.pendingAppendExtents, P e) :
    (commitHandle World.metaClient h w).2.2.All P ∧
      ∀ e ∈ (commitHandle World.metaClient h w).2.1.extents, Q e := by
  rw [List.forall_mem_append, ← commitExtents_appends h w] at hsent
  have hfirst := hw.commitExtents hPQ hP hh hsent.1
  unfold Pulpfs.commitHandle
  split
  next e h' w' he =>
    rw [he] at hfirst
    exact hfirst
  next h' w' he =>
    rw [he] at hfirst hsent
    exact hfirst.1.commitAppends hPQ hP hfirst.2 hsent.2

end Handles

section Reads

variable (bucket : Bytes) (w : World)

theorem World.getObject_world (request : GetObjectRequest) : (w.getObject request).2 = w := by
  unfold getObject
  split
  · rfl
  · rfl
  · rfl
  · split
    · rfl
    · simp only
      split <;> rfl

theorem readExtents_world (readBegin readEnd : UInt64) (extents : List FileExtent)
    (output : Bytes) :
    (readExtentsIntoBuffer World.objectStore bucket readBegin readEnd extents output w).2 = w := by
  induction extents generalizing output with
  | nil => rfl
  | cons e extents ih =>
    unfold readExtentsIntoBuffer
    simp only
    split
    · exact ih output
    · split
      next he => exact (congrArg Prod.snd he).symm.trans (w.getObject_world _)
      next he =>
        obtain rfl := (congrArg Prod.snd he).symm.trans (w.getObject_world _)
        exact ih _

/-- Reading changes nothing. -/
theorem readFromHandle_world (h : FuseFileHandle) (size : UInt64) (off : Int64) :
    (readFromHandle World.objectStore bucket h size off w).2 = w := by
  have hread := readExtents_world bucket w
  unfold readFromHandle
  simp only
  split
  · rfl
  · split
    · rfl
    · split
      · rfl
      · unfold readLayers
        split
        next he => exact (congrArg Prod.snd he).symm.trans (hread _ _ _ _)
        next he =>
          obtain rfl := (congrArg Prod.snd he).symm.trans (hread _ _ _ _)
          split
          next he => exact (congrArg Prod.snd he).symm.trans (hread _ _ _ _)
          next he =>
            obtain rfl := (congrArg Prod.snd he).symm.trans (hread _ _ _ _)
            exact hread _ _ _ _

end Reads

section Requests

variable {m : Mount World} {server : FuseServer}

theorem FuseServer.getFileHandle_insert {id id' : UInt64} {h h' : FuseFileHandle}
    (hget : (server.setFileHandle id h).getFileHandle id' = some h') :
    h' = h ∨ server.getFileHandle id' = some h' := by
  by_cases hid : id' = id
  · rw [hid, getFileHandle_setFileHandle_self] at hget
    exact .inl (Option.some.inj hget).symm
  · rw [getFileHandle_setFileHandle h hid] at hget
    exact .inr hget

theorem FuseServer.getFileHandle_released {id id' : UInt64} {h : FuseFileHandle}
    (hget : (server.releaseFileHandle id).getFileHandle id' = some h) :
    server.getFileHandle id' = some h := by
  unfold getFileHandle releaseFileHandle at hget
  rw [Std.ExtTreeMap.getElem?_erase] at hget
  split at hget
  · contradiction
  · exact hget

theorem FuseFileHandle.mem_extents_queue {h : FuseFileHandle} {e extent : FileExtent}
    (he : e ∈ (h.queue extent).extents) : e ∈ h.extents ∨ e = extent := by
  unfold queue at he
  split at he
  · simp only [extents, List.mem_append, List.mem_singleton] at he ⊢
    tauto
  · simp only [extents, List.mem_append, List.mem_singleton] at he ⊢
    tauto

namespace Mount.All

variable (hm : m.All P Q)
include hm

/-- The server has the handles it had. -/
theorem waited (hw : w.All P) : Mount.All P Q ⟨m.server, w⟩ := ⟨hw, hm.handles⟩

/-- A handle has been put in the table. -/
theorem opened (hw : w.All P) (id : UInt64) (hh : ∀ e ∈ h.extents, Q e)
    (hserver : ∀ id', server.getFileHandle id' = (m.server.setFileHandle id h).getFileHandle id') :
    Mount.All P Q ⟨server, w⟩ := by
  refine ⟨hw, fun id' h' hget => ?_⟩
  rw [hserver] at hget
  rcases FuseServer.getFileHandle_insert hget with rfl | hold
  · exact hh
  · exact hm.handles id' h' hold

variable [OffsetSort]

theorem pulpfsOpenDir (ino : UInt64) (fi : FuseFileInfo) :
    (m.pulpfsOpenDir World.backend ino fi).2.All P Q := by
  have hcall : (World.metaClient.getAttr ino m.world).2.All P := hm.world.query _
  have hend {w : World} {r : Except Error InodeAttrs}
      (he : World.metaClient.getAttr ino m.world = (r, w)) : Mount.All P Q ⟨m.server, w⟩ := by
    rw [he] at hcall
    exact hm.waited hcall
  unfold Mount.pulpfsOpenDir
  split
  next e w he => exact hend he
  next attrs w he =>
    split
    · exact hend he
    · exact hend he

theorem pulpfsRead (ino size : UInt64) (off : Int64) (fi : FuseFileInfo) :
    (m.pulpfsRead World.backend ino size off fi).2.All P Q := by
  have hworld {w : World} (hw : w = m.world) : Mount.All P Q ⟨m.server, w⟩ := hw ▸ hm
  have hread := readFromHandle_world m.server.config.bucket m.world
  unfold Mount.pulpfsRead
  split
  · exact hm
  · simp only [World.backend]
    split
    next he => exact hworld ((congrArg Prod.snd he).symm.trans (hread _ _ _))
    next he => exact hworld ((congrArg Prod.snd he).symm.trans (hread _ _ _))

theorem pulpfsWrite (ino : UInt64) (buf : Bytes) (off : Int64) (fi : FuseFileInfo)
    (hnew : ∀ offset extent, IsWritten m ino offset buf extent →
      (m.pulpfsWrite World.backend ino buf off fi).2.world =
        m.world.store (m.upload ino offset buf) → Q extent) :
    (m.pulpfsWrite World.backend ino buf off fi).2.All P Q := by
  cases hget : m.server.getFileHandle fi.fh with
  | none =>
    unfold Mount.pulpfsWrite
    rw [hget]
    exact hm
  | some h =>
    rcases pulpfsWrite_cases hget ino buf off with ⟨errno, he⟩ | ⟨errno, w, he, hw⟩ |
      ⟨extent, hext, -, he⟩
    · rw [he]
      exact hm
    · rw [he]
      have hservice : w.service.state = m.world.service.state := by
        rcases hw with rfl | rfl
        · rfl
        · rfl
      exact ⟨hm.world.of_state hservice, hm.handles⟩
    · rw [he] at hnew ⊢
      refine hm.opened (hm.world.of_state rfl) fi.fh (h := h.queue extent) ?_ fun _ => rfl
      intro e hmem
      rcases FuseFileHandle.mem_extents_queue hmem with hold | rfl
      · exact hm.handles fi.fh h hget e hold
      · exact hnew _ _ hext rfl

variable (hPQ : ∀ e, P e → Q e) (hP : ∀ {p c : FileExtent}, p.Within c → P c → P p)
include hPQ hP

theorem commit (id : UInt64) (hsent : ∀ e ∈ m.server.queueOf id, P e) :
    (m.commit World.backend id).2.All P Q := by
  cases hget : m.server.getFileHandle id with
  | none =>
    unfold Mount.commit
    rw [hget]
    exact hm
  | some h =>
    rw [FuseServer.queueOf_of_get hget] at hsent
    obtain ⟨hw, hh⟩ := hm.world.commitHandle hPQ hP (hm.handles id h hget) hsent
    rw [Mount.commit_of_get hget]
    exact hm.opened hw id hh fun _ => rfl

theorem pulpfsCreate (parent : UInt64) (name : Bytes) (mode uid gid : UInt32)
    (fi : FuseFileInfo) :
    (m.pulpfsCreate World.backend parent name mode uid gid fi).2.All P Q := by
  have hcall : (World.metaClient.createFile parent name (mode &&& kModeMask) uid gid
      m.world).2.All P :=
    hm.world.propose hP (c := .createFile _ _ _ _ _) (by simp [Command.extents]) _
  unfold Mount.pulpfsCreate
  split
  next e w he =>
    have he' : World.metaClient.createFile parent name (mode &&& kModeMask) uid gid m.world = _ :=
      he
    rw [he'] at hcall
    exact hm.waited hcall
  next attrs w he =>
    have he' : World.metaClient.createFile parent name (mode &&& kModeMask) uid gid m.world = _ :=
      he
    rw [he'] at hcall
    let handle : FuseFileHandle :=
      { inodeId := attrs.inodeId, writable := isWritable fi.flags
        append := fi.flags &&& oAppend ≠ 0 }
    have hempty : ∀ e ∈ handle.extents, Q e := by simp [FuseFileHandle.extents, handle]
    obtain ⟨hw, hh⟩ := hcall.refreshLayout hPQ hempty
    exact hm.opened hw m.server.nextHandleId hh fun _ => rfl

theorem pulpfsOpen (ino : UInt64) (fi : FuseFileInfo) :
    (m.pulpfsOpen World.backend ino fi).2.All P Q := by
  obtain ⟨hcall, hlayout⟩ := World.All.openLayout hP hm.world ino fi.flags
  unfold Mount.pulpfsOpen
  split
  next errno w he =>
    have he' : openLayout World.metaClient ino fi.flags m.world = _ := he
    rw [he'] at hcall
    exact hm.waited hcall
  next layout w he =>
    have he' : openLayout World.metaClient ino fi.flags m.world = _ := he
    rw [he'] at hcall hlayout
    refine hm.opened hcall m.server.nextHandleId ?_ fun _ => rfl
    simpa [FuseFileHandle.extents] using fun e he => hPQ e (hlayout layout rfl e he)

/-- The step lemma for one mount. -/
theorem serve (r : Request) (hsent : ∀ e ∈ m.server.sent r, P e)
    (hnew : ∀ ino offset buf extent, IsWritten m ino offset buf extent →
      (m.serve World.backend r).2.world = m.world.store (m.upload ino offset buf) → Q extent) :
    (m.serve World.backend r).2.All P Q := by
  have hrelease (fi : FuseFileInfo) (hsent : ∀ e ∈ m.server.queueOf fi.fh, P e) :
      Mount.All P Q ⟨(m.commit World.backend fi.fh).2.server.releaseFileHandle fi.fh,
        (m.commit World.backend fi.fh).2.world⟩ := by
    have hcommit := hm.commit hPQ hP fi.fh hsent
    exact ⟨hcommit.world, fun id h hget =>
      hcommit.handles id h (FuseServer.getFileHandle_released hget)⟩
  cases r with
  | create parent name mode uid gid fi => exact hm.pulpfsCreate hPQ hP parent name mode uid gid fi
  | «open» ino fi => exact hm.pulpfsOpen hPQ hP ino fi
  | opendir ino fi => exact hm.pulpfsOpenDir ino fi
  | read ino size off fi => exact hm.pulpfsRead ino size off fi
  | write ino buf off fi => exact hm.pulpfsWrite ino buf off fi fun offset => hnew ino offset buf
  | flush ino fi => exact hm.commit hPQ hP fi.fh hsent
  | fsync ino datasync fi => exact hm.commit hPQ hP fi.fh hsent
  | release ino fi => exact hrelease fi hsent
  | releasedir ino fi => exact hrelease fi hsent

end Mount.All

end Requests

end Pulpfs
