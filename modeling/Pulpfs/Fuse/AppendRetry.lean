import Pulpfs.Fuse.OneFile
import Pulpfs.Meta.Represented

/-! Appends through a handle whose commits may be lost on the way there or back. The service
ignores the version the client had, so a batch sent again is appended again. -/
namespace Pulpfs
open Overlay Transition

/-- Where in the file the first byte of the object lies. -/
def FileExtent.origin (e : FileExtent) : UInt64 := e.offset - e.objectOffset

/-- An extent of the same object in the same place, as far as the two reach. -/
def FileExtent.Aligned (p c : FileExtent) : Prop :=
  p.objectKey = c.objectKey ∧ p.origin = c.origin

instance (p c : FileExtent) : Decidable (p.Aligned c) := inferInstanceAs (Decidable (_ ∧ _))

theorem FileExtent.Aligned.trans {p c d : FileExtent} (h : p.Aligned c) (h' : c.Aligned d) :
    p.Aligned d := ⟨h.1.trans h'.1, h.2.trans h'.2⟩

theorem sliceExtent_aligned (e : FileExtent) (offset length : UInt64) :
    (sliceExtent e offset length).Aligned e := by
  refine ⟨rfl, ?_⟩
  show offset - (e.objectOffset + (offset - e.offset)) = e.offset - e.objectOffset
  rw [sub_add_eq_sub_sub_swap, sub_sub_cancel]

theorem keptPieces_aligned {e c p : FileExtent} (hp : p ∈ keptPieces e c) : p.Aligned c := by
  unfold keptPieces at hp
  split at hp
  next =>
    rw [List.mem_singleton.mp hp]
    exact ⟨rfl, rfl⟩
  next =>
    rcases List.mem_append.mp hp with hp | hp
    · split at hp
      next =>
        rw [List.mem_singleton.mp hp]
        exact sliceExtent_aligned _ _ _
      next => simp at hp
    · split at hp
      next =>
        rw [List.mem_singleton.mp hp]
        exact sliceExtent_aligned _ _ _
      next => simp at hp

section Merge

variable [OffsetSort]

theorem mergeExtent_aligned {es : List FileExtent} {e p : FileExtent}
    (hp : p ∈ mergeExtent es e) : ∃ c ∈ es ++ [e], p.Aligned c := by
  rw [(mergeExtent_perm es e).mem_iff, List.mem_append, List.mem_flatMap] at hp
  rcases hp with ⟨c, hc, hp⟩ | hp
  · exact ⟨c, List.mem_append_left _ hc, keptPieces_aligned hp⟩
  · exact ⟨p, List.mem_append_right _ hp, rfl, rfl⟩

/-- Each stored extent comes from one that was stored or from one of the batch. -/
theorem mergeAll_aligned {es extents : List FileExtent} {p : FileExtent}
    (hp : p ∈ mergeAll es extents) : ∃ c ∈ es ++ extents, p.Aligned c := by
  induction extents generalizing es with
  | nil => exact ⟨p, List.mem_append_left _ hp, rfl, rfl⟩
  | cons e extents ih =>
    obtain ⟨c, hc, hpc⟩ := ih hp
    rcases List.mem_append.mp hc with hc | hc
    · obtain ⟨d, hd, hcd⟩ := mergeExtent_aligned hc
      refine ⟨d, ?_, hpc.trans hcd⟩
      rcases List.mem_append.mp hd with hd | hd
      · exact List.mem_append_left _ hd
      · rw [List.mem_singleton.mp hd]
        exact List.mem_append_right _ List.mem_cons_self
    · exact ⟨c, List.mem_append_right _ (List.mem_cons_of_mem _ hc), hpc⟩

end Merge

namespace MetaState

variable {s : MetaState} {i : UInt64}

/-- The byte of an object lies at position `x` of the file. -/
def LiesAt (s : MetaState) (f : UInt64) (b : ObjectByte) (x : ℕ) : Prop :=
  ∃ size extents, s.fileView f = (some (.file, size), some extents) ∧ x < size.toNat ∧
    ∃ e ∈ extents, e.patch.Covers x ∧ e.patch.value x = b

/-- Each byte of an object with one of the keys lies at one position of the file at most. -/
def AtMostOnce (s : MetaState) (f : UInt64) (keys : List Bytes) : Prop :=
  ∀ b x y, b.key ∈ keys → s.LiesAt f b x → s.LiesAt f b y → x = y

/-- Extents that each carry their object to one place. -/
def Placed (keys : List Bytes) (es : List FileExtent) : Prop :=
  ∀ p ∈ es, ∀ q ∈ es, p.objectKey = q.objectKey → p.objectKey ∈ keys → p.origin = q.origin

/-- Where the extents of each object agree on its place, no byte of it lies twice. -/
theorem AtMostOnce.of_placed {keys : List Bytes}
    (h : ∀ d extents, s.fileView i = (d, some extents) → Placed keys extents) :
    s.AtMostOnce i keys := by
  rintro b x y hb ⟨size, extents, hview, hx, p, hp, hpx, rfl⟩
    ⟨size', extents', hview', hy, q, hq, hqy, hval⟩
  rw [hview, Prod.mk.injEq, Option.some.injEq, Option.some.injEq] at hview'
  obtain ⟨hd, rfl⟩ := hview'
  obtain ⟨-, rfl⟩ := Prod.mk.inj hd
  obtain ⟨hkey, hpos⟩ := ObjectByte.mk.inj hval
  have horigin := h _ _ hview p hp q hq hkey.symm hb
  have hplace (e : FileExtent) {z : ℕ} (hz : e.patch.Covers z) :
      UInt64.ofNat z = e.origin + (e.objectOffset + UInt64.ofNat (z - e.offset.toNat)) := by
    have hle : e.offset.toNat ≤ z := hz.1
    have hsplit : UInt64.ofNat z = e.offset + UInt64.ofNat (z - e.offset.toNat) := by
      rw [← UInt64.ofNat_toNat (x := e.offset), ← UInt64.ofNat_add, UInt64.ofNat_toNat,
        Nat.add_sub_cancel' hle]
    rw [hsplit, FileExtent.origin, ← add_assoc, sub_add_cancel]
  have hsame : UInt64.ofNat x = UInt64.ofNat y := by
    rw [hplace p hpx, hplace q hqy, horigin, hpos]
  have hnat := congrArg UInt64.toNat hsame
  have hlt := size.toNat_lt
  rwa [UInt64.toNat_ofNat', UInt64.toNat_ofNat', Nat.mod_eq_of_lt (by omega),
    Nat.mod_eq_of_lt (by omega)] at hnat

end MetaState

/-- A use of the handle that writes to it or commits. -/
def Op.Writes : Op → Prop
  | .open _ => False
  | .read .. => False
  | _ => True

instance (op : Op) : Decidable op.Writes :=
  match op with
  | .open _ => .isFalse id
  | .read .. => .isFalse id
  | .write .. => .isTrue trivial
  | .flush => .isTrue trivial
  | .fsync _ => .isTrue trivial
  | .release => .isTrue trivial

/-- The key of the object a step acknowledges the write of. -/
def acknowledgedKey (ino : UInt64) (e : Step Client Op (Option FuseReply)) : Option Bytes :=
  match e.input, e.output with
  | .write _ off, some (.write _) =>
    e.before.handle.map fun h => e.before.mount.server.nextObjectKey ino (h.writeOffset off)
  | _, _ => none

/-- A service that takes the queued appends takes none whose object is in the file already,
except where it is. -/
def Client.SendsOnce (ino : UInt64) (c : Client) : Prop :=
  ∀ h ∈ c.handle, (c.mount.world.deliveries c.mount.world.calls).isApplied = true →
    ∀ d ∈ (c.state.fileView ino).1, ∀ extents ∈ (c.state.fileView ino).2,
      ∀ p ∈ extents, ∀ e ∈ h.pendingAppendExtents,
        p.objectKey = e.objectKey → p.Aligned (e.appendedTo d.2)

instance (ino : UInt64) (c : Client) : Decidable (c.SendsOnce ino) :=
  inferInstanceAs (Decidable (∀ h ∈ c.handle, _))

/-- The key of the next write is neither in the file nor queued. -/
def Client.FreshKey (ino : UInt64) (c : Client) (off : Int64) : Prop :=
  ∀ h ∈ c.handle,
    c.mount.server.nextObjectKey ino (h.writeOffset off) ∉
      h.pendingAppendExtents.map FileExtent.objectKey ∧
    ∀ extents ∈ (c.state.fileView ino).2,
      c.mount.server.nextObjectKey ino (h.writeOffset off) ∉ extents.map FileExtent.objectKey

instance (ino : UInt64) (c : Client) (off : Int64) : Decidable (c.FreshKey ino off) :=
  inferInstanceAs (Decidable (∀ h ∈ c.handle, _))

/-- The condition a step has to meet before it is taken. -/
def Client.Unrepeated (ino : UInt64) (c : Client) : Op → Prop
  | .write _ off => c.FreshKey ino off
  | _ => c.SendsOnce ino

instance (ino : UInt64) (c : Client) (op : Op) : Decidable (c.Unrepeated ino op) :=
  match op with
  | .write _ off => inferInstanceAs (Decidable (c.FreshKey ino off))
  | .open _ => inferInstanceAs (Decidable (c.SendsOnce ino))
  | .read .. => inferInstanceAs (Decidable (c.SendsOnce ino))
  | .flush => inferInstanceAs (Decidable (c.SendsOnce ino))
  | .fsync _ => inferInstanceAs (Decidable (c.SendsOnce ino))
  | .release => inferInstanceAs (Decidable (c.SendsOnce ino))

/-- Between two uses of the open. -/
structure Appending (ino : UInt64) (fi : FuseFileInfo) (keys : List Bytes) (m : Mount World)
    (h : FuseFileHandle) : Prop where
  handle : m.server.getFileHandle fi.fh = some h
  inodeId : h.inodeId = ino
  append : h.append = true
  extents : h.pendingExtents = []
  nodup : (h.pendingAppendExtents.map FileExtent.objectKey).Nodup
  placed : ∀ d extents, m.world.service.state.fileView ino = (d, some extents) →
    MetaState.Placed keys extents

section

variable [OffsetSort] {ino : UInt64} {fi : FuseFileInfo} {keys : List Bytes} {c : Client}
  {h : FuseFileHandle}

/-- An append of a batch with its objects in no other place keeps each object in one place. -/
theorem Appending.applied {m : Mount World} (ha : Appending ino fi keys m h)
    (halign : ∀ d ∈ (m.world.service.state.fileView ino).1,
      ∀ extents ∈ (m.world.service.state.fileView ino).2, ∀ p ∈ extents,
        ∀ e ∈ h.pendingAppendExtents, p.objectKey = e.objectKey → p.Aligned (e.appendedTo d.2)) :
    ∀ d extents, (m.world.applied h.appendCommand).service.state.fileView ino =
      (d, some extents) → MetaState.Placed keys extents := by
  have hstate : (m.world.applied h.appendCommand).service.state =
      (m.world.service.state.appendWrite (m.world.clocks m.world.calls) h.inodeId
        h.layout.attrs.version h.pendingAppendExtents).2 := World.applied_state _
  rw [hstate, ha.inodeId]
  intro d' extents' hview'
  rcases MetaState.appendWrite_writtenView (s := m.world.service.state) (i := ino)
    (m.world.clocks m.world.calls) h.layout.attrs.version h.pendingAppendExtents with
    hsame | ⟨size, extents, hview, hnew⟩
  · exact ha.placed _ _ (hsame.symm.trans hview')
  · rw [hnew, Prod.mk.injEq, Option.some.injEq] at hview'
    obtain ⟨-, rfl⟩ := hview'
    have hcond := halign (.file, size) (congrArg Prod.fst hview) extents (congrArg Prod.snd hview)
    have hold := ha.placed _ _ hview
    intro p hp q hq hpq hkey
    obtain ⟨c, hc, hpc⟩ := mergeAll_aligned hp
    obtain ⟨d, hd, hqd⟩ := mergeAll_aligned hq
    rw [hpc.2, hqd.2]
    have hcd : c.objectKey = d.objectKey := hpc.1.symm.trans (hpq.trans hqd.1)
    rcases List.mem_append.mp hc with hc | hc
    · rcases List.mem_append.mp hd with hd | hd
      · exact hold c hc d hd hcd (hpc.1 ▸ hkey)
      · obtain ⟨e, he, rfl⟩ := List.mem_map.mp hd
        exact (hcond c hc e (validPrefix_subset he) hcd).2
    · obtain ⟨e, he, rfl⟩ := List.mem_map.mp hc
      rcases List.mem_append.mp hd with hd | hd
      · exact (hcond d hd e (validPrefix_subset he) hcd.symm).2.symm
      · obtain ⟨e', he', rfl⟩ := List.mem_map.mp hd
        rw [List.inj_on_of_nodup_map ha.nodup (validPrefix_subset he) (validPrefix_subset he') hcd]

/-- The step lemma for `CommitHandle`. -/
theorem Appending.commit (hopened : c.opened = some fi) (ha : Appending ino fi keys c.mount h)
    (hsends : c.SendsOnce ino) :
    ∃ h', Appending ino fi keys (c.mount.commit World.backend fi.fh).2 h' := by
  have hhandle := Client.handle_of_get hopened ha.handle
  have hget (h' : FuseFileHandle) :
      (c.mount.server.setFileHandle fi.fh h').getFileHandle fi.fh = some h' :=
    FuseServer.getFileHandle_setFileHandle_self h'
  rcases commitHandle_appends (w := c.mount.world) ha.extents with
    ⟨r, he⟩ | ⟨e, he⟩ | ⟨hd, hcases⟩
  · rw [commit_eq ha.handle he]
    exact ⟨h, hget h, ha.inodeId, ha.append, ha.extents, ha.nodup, ha.placed⟩
  · rw [commit_eq ha.handle he]
    exact ⟨h, hget h, ha.inodeId, ha.append, ha.extents, ha.nodup, ha.placed⟩
  · have hplaced : ∀ d extents, (c.mount.world.applied h.appendCommand).service.state.fileView ino =
        (d, some extents) → MetaState.Placed keys extents := ha.applied (hsends h hhandle hd)
    rcases hcases with ⟨e, he⟩ | ⟨layout, he⟩
    · rw [commit_eq ha.handle he]
      exact ⟨h, hget h, ha.inodeId, ha.append, ha.extents, ha.nodup, hplaced⟩
    · rw [commit_eq ha.handle he]
      exact ⟨h.appended layout, hget _, ha.inodeId, ha.append, ha.extents, .nil, hplaced⟩

omit [OffsetSort] in
/-- A key of no extent changes nothing. -/
theorem Placed.concat {es : List FileExtent} (hp : MetaState.Placed keys es) {key : Bytes}
    (hkey : key ∉ es.map FileExtent.objectKey) : MetaState.Placed (keys ++ [key]) es := by
  intro p hmem q hq hpq hin
  rcases List.mem_append.mp hin with hin | hin
  · exact hp p hmem q hq hpq hin
  · rw [List.mem_singleton.mp hin |>.symm] at hkey
    exact absurd (List.mem_map_of_mem hmem) hkey

/-- The step lemma for a write. -/
theorem Appending.write (hopened : c.opened = some fi) (ha : Appending ino fi keys c.mount h)
    (buf : Bytes) {off : Int64} (hfresh : c.FreshKey ino off) :
    (∃ errno, (c.mount.pulpfsWrite World.backend ino buf off fi).1 = .err errno ∧
      ∃ h', Appending ino fi keys (c.mount.pulpfsWrite World.backend ino buf off fi).2 h') ∨
    ∃ size, (c.mount.pulpfsWrite World.backend ino buf off fi).1 = .write size ∧
      ∃ h', Appending ino fi
        (keys ++ [c.mount.server.nextObjectKey ino (h.writeOffset off)])
        (c.mount.pulpfsWrite World.backend ino buf off fi).2 h' := by
  have hhandle := Client.handle_of_get hopened ha.handle
  obtain ⟨hqueue, hfile⟩ := hfresh h hhandle
  rcases pulpfsWrite_cases ha.handle ino buf off with
    ⟨errno, he⟩ | ⟨errno, w', he, hw'⟩ | ⟨extent, hext, _, he⟩
  · rw [he]
    exact .inl ⟨errno, rfl, h, ha⟩
  · rw [he]
    refine .inl ⟨errno, rfl, h, ha.handle, ha.inodeId, ha.append, ha.extents, ha.nodup, ?_⟩
    rcases hw' with rfl | rfl
    · exact ha.placed
    · exact ha.placed
  · rw [he]
    have hq : h.queue extent = { h with
        pendingAppendLength := h.pendingAppendLength + extent.length
        pendingAppendExtents := h.pendingAppendExtents ++ [extent] } := by
      rw [FuseFileHandle.queue, ha.append, if_pos rfl]
    rw [hq]
    refine .inr ⟨extent.length, rfl, _, FuseServer.getFileHandle_setFileHandle_self _, ha.inodeId,
      ha.append, ha.extents, ?_, ?_⟩
    · rw [List.map_append, List.map_singleton, hext.objectKey]
      rw [← List.concat_eq_append]
      exact ha.nodup.concat hqueue
    · intro d extents hview
      exact Placed.concat (ha.placed d extents hview) (hfile extents (congrArg Prod.snd hview))

/-- A client whose open, as long as it has one, is `fi`. -/
def AppendsOnce (ino : UInt64) (fi : FuseFileInfo) (keys : List Bytes) (c : Client) : Prop :=
  (∀ d extents, c.state.fileView ino = (d, some extents) → MetaState.Placed keys extents) ∧
    (c.opened = none ∨ c.opened = some fi ∧ ∃ h, Appending ino fi keys c.mount h)

/-- The step lemma. -/
theorem AppendsOnce.step (hc : AppendsOnce ino fi keys c) {op : Op} (hop : op.Writes)
    (hcond : c.Unrepeated ino op) :
    AppendsOnce ino fi
      (keys ++ (acknowledgedKey ino ⟨c, op, (c.step ino op).1, (c.step ino op).2⟩).toList)
      (c.step ino op).2 := by
  obtain ⟨hplaced, hnone | ⟨hfi, h, ha⟩⟩ := hc
  · have hopen : ∀ flags, op ≠ .open flags := fun flags ho => by rw [ho] at hop; exact hop
    have hkey : acknowledgedKey ino ⟨c, op, none, c⟩ = none := by
      cases op <;> rfl
    rw [Client.step_of_none hnone hopen, hkey, Option.toList_none, List.append_nil]
    exact ⟨hplaced, .inl hnone⟩
  · have hhandle := Client.handle_of_get hfi ha.handle
    cases op with
    | «open» => exact hop.elim
    | read => exact hop.elim
    | write buf off =>
      rw [Client.step_write hfi]
      rcases ha.write hfi buf hcond with ⟨errno, hr, h', ha'⟩ | ⟨size, hr, h', ha'⟩
      · simp only [acknowledgedKey, hr, Option.toList_none, List.append_nil]
        exact ⟨ha'.placed, .inr ⟨rfl, h', ha'⟩⟩
      · simp only [acknowledgedKey, hr, hhandle, Option.map_some, Option.toList_some]
        exact ⟨ha'.placed, .inr ⟨rfl, h', ha'⟩⟩
    | flush =>
      obtain ⟨h', ha'⟩ := ha.commit hfi hcond
      rw [Client.step_flush hfi]
      simp only [acknowledgedKey, Option.toList_none, List.append_nil]
      exact ⟨ha'.placed, .inr ⟨rfl, h', ha'⟩⟩
    | fsync =>
      obtain ⟨h', ha'⟩ := ha.commit hfi hcond
      rw [Client.step_fsync hfi]
      simp only [acknowledgedKey, Option.toList_none, List.append_nil]
      exact ⟨ha'.placed, .inr ⟨rfl, h', ha'⟩⟩
    | release =>
      obtain ⟨h', ha'⟩ := ha.commit hfi hcond
      rw [Client.step_release hfi]
      simp only [acknowledgedKey, Option.toList_none, List.append_nil]
      exact ⟨ha'.placed, .inl rfl⟩

/-- The run lemma. -/
theorem AppendsOnce.run {ops : List Op} (hc : AppendsOnce ino fi keys c)
    (hops : ∀ e ∈ trace (Client.step ino) ops c,
      e.input.Writes ∧ e.before.Unrepeated ino e.input) :
    AppendsOnce ino fi (keys ++ (trace (Client.step ino) ops c).filterMap (acknowledgedKey ino))
      (final (Client.step ino) ops c) := by
  induction ops generalizing c keys with
  | nil =>
    rw [trace_nil, List.filterMap_nil, List.append_nil]
    exact hc
  | cons op ops ih =>
    rw [trace_cons, List.forall_mem_cons] at hops
    have hnext := ih (hc.step hops.1.1 hops.1.2) hops.2
    rw [trace_cons, final_cons, ← append_filterMap_cons]
    exact hnext

/-- In every run of writes and commits on an open with `O_APPEND` in which no batch is sent to a
service that has taken it before and no object key is used again, each byte of the object of an
acknowledged write lies at one position of the file at most. -/
theorem once_of_run (hopened : c.opened = some fi) (hhandle : c.handle = some h)
    (hinode : h.inodeId = ino) (happend : h.append = true) (hextents : h.pendingExtents = [])
    (happends : h.pendingAppendExtents = []) {ops : List Op}
    (hops : ∀ e ∈ trace (Client.step ino) ops c,
      e.input.Writes ∧ e.before.Unrepeated ino e.input) :
    (final (Client.step ino) ops c).state.AtMostOnce ino
      ((trace (Client.step ino) ops c).filterMap (acknowledgedKey ino)) := by
  have hplaced : ∀ d extents, c.state.fileView ino = (d, some extents) →
      MetaState.Placed [] extents := fun _ _ _ _ _ _ _ _ hkey => absurd hkey (by simp)
  have hget := Client.get_of_handle hopened hhandle
  have hnodup : (h.pendingAppendExtents.map FileExtent.objectKey).Nodup := by
    rw [happends]
    exact .nil
  have hc : AppendsOnce ino fi [] c := ⟨hplaced, .inr ⟨hopened, h, hget, hinode, happend,
    hextents, hnodup, hplaced⟩⟩
  exact MetaState.AtMostOnce.of_placed (hc.run hops).1

end

/-- A new file opened with `O_APPEND`. -/
def appendClient (deliveries : ℕ → Delivery) : Client where
  mount :=
    { server := (FuseServer.fresh ⟨ascii "b", []⟩ (ascii "w")).setFileHandle 1
        { inodeId := 2, writable := true, append := true }
      world :=
        { World.fresh 4096 with
          service := ⟨final (@MetaState.call .insertion)
            [⟨fun _ => 1, .createFile 1 (ascii "f") 0o644 0 0⟩] (.fresh 4096 0)⟩
          deliveries } }
  opened := some { flags := oWronly ||| oAppend, fh := 1 }

/-- A batch that was not taken grows by one write and is taken; the last reply is lost. -/
def unrepeatedOps : List Op :=
  [.write [1] 0, .flush, .write [2, 3] 0, .fsync 0, .write [4] 0, .release]

def unrepeatedDeliveries (n : ℕ) : Delivery :=
  if n = 0 then .notApplied ⟨.unavailable, []⟩
  else if n = 3 then .replyLost ⟨.deadlineExceeded, []⟩ else .answered

set_option maxRecDepth 8192 in
theorem once_of_unrepeatedOps :
    (final (@Client.step .insertion 2) unrepeatedOps
      (appendClient unrepeatedDeliveries)).state.AtMostOnce 2
      ((trace (@Client.step .insertion 2) unrepeatedOps
        (appendClient unrepeatedDeliveries)).filterMap (acknowledgedKey 2)) :=
  @once_of_run .insertion 2 _ (appendClient unrepeatedDeliveries) _ rfl
    (FuseServer.getFileHandle_setFileHandle_self _) rfl rfl rfl rfl unrepeatedOps (by decide)

/-- The reply to the commit of one byte is lost, and the next flush appends the byte again. -/
def repeatedOps : List Op := [.write [1] 0, .flush, .flush]

def repeatedDeliveries (n : ℕ) : Delivery :=
  if n = 0 then .replyLost ⟨.deadlineExceeded, []⟩ else .answered

set_option maxRecDepth 8192 in
theorem twice_after_lost_reply :
    (trace (@Client.step .insertion 2) repeatedOps (appendClient repeatedDeliveries)).map
        Step.output = [some (.write 1), some (.err .etimedout), some .ok] ∧
      ¬ (final (@Client.step .insertion 2) repeatedOps
        (appendClient repeatedDeliveries)).state.AtMostOnce 2
        ((trace (@Client.step .insertion 2) repeatedOps
          (appendClient repeatedDeliveries)).filterMap (acknowledgedKey 2)) := by
  refine ⟨by decide, ?_⟩
  intro honce
  have hview : (final (@Client.step .insertion 2) repeatedOps
      (appendClient repeatedDeliveries)).state.fileView 2 = (some (.file, 2),
        some [{ length := 1, objectKey := ascii "chunks/2/w/1/0", objectSize := 1 },
          { offset := 1, length := 1, objectKey := ascii "chunks/2/w/1/0", objectSize := 1 }]) := by
    decide
  have hkeys : (trace (@Client.step .insertion 2) repeatedOps
      (appendClient repeatedDeliveries)).filterMap (acknowledgedKey 2) =
        [ascii "chunks/2/w/1/0"] := by decide
  have h : (0 : ℕ) = 1 := honce ⟨ascii "chunks/2/w/1/0", 0⟩ 0 1 (by rw [hkeys]; decide)
    ⟨2, _, hview, by decide, _, List.mem_cons_self, by decide, rfl⟩
    ⟨2, _, hview, by decide, _, List.mem_cons_of_mem _ List.mem_cons_self, by decide, rfl⟩
  contradiction

end Pulpfs
