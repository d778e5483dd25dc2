import Pulpfs.Fuse.OneFile

/-! Positional writes through a handle whose commits may be lost on the way there or back. The
service always has the writes of the finished commits and, on top, an initial part of the queue. -/
namespace Pulpfs
open Overlay Transition

/-- A use of a handle for positional writes: none writes nothing or ends beyond the largest
64-bit value. -/
def Op.Positional : Op → Prop
  | .write buf off => buf ≠ [] ∧ off.toUInt64.toNat + buf.length < 2 ^ 64
  | .flush => True
  | .fsync _ => True
  | .release => True
  | .open _ => False
  | .read .. => False

instance (op : Op) : Decidable op.Positional :=
  match op with
  | .write _ _ => inferInstanceAs (Decidable (_ ∧ _))
  | .flush => .isTrue trivial
  | .fsync _ => .isTrue trivial
  | .release => .isTrue trivial
  | .open _ => .isFalse id
  | .read .. => .isFalse id

/-- The write a step acknowledges, as a patch of the object it uploaded. -/
def acknowledged (ino : UInt64) (e : Step Client Op (Option FuseReply)) :
    Option (Patch ObjectByte) :=
  match e.input, e.output with
  | .write buf off, some (.write _) =>
    some (writtenPatch (e.before.mount.server.nextObjectKey ino off.toUInt64)
      off.toUInt64.toNat buf.length)
  | _, _ => none

/-- Between two uses of the open: the queue is the last part of what has been acknowledged, and
the service has all before it with an initial part of the queue on top. -/
structure Queued (ino : UInt64) (fi : FuseFileInfo) (r : SparseFile ObjectByte)
    (acked : List (Patch ObjectByte)) (m : Mount World) (h : FuseFileHandle) : Prop where
  handle : m.server.getFileHandle fi.fh = some h
  inodeId : h.inodeId = ino
  append : h.append = false
  appends : h.pendingAppendExtents = []
  valid : ∀ e ∈ h.pendingExtents, e.isInvalid = false ∧ e.InRange
  file : ∃ done again, acked = done ++ h.pendingExtents.map FileExtent.patch ∧
    again <+: h.pendingExtents.map FileExtent.patch ∧
    MetaState.Holds (some ((r.write done).write again)) (m.world.service.state.fileView ino)

section

variable [OffsetSort] {ino : UInt64} {fi : FuseFileInfo} {r : SparseFile ObjectByte}
  {acked : List (Patch ObjectByte)} {m : Mount World} {h : FuseFileHandle}

/-- What a commit that is applied makes of the file. -/
theorem Queued.applied (hq : Queued ino fi r acked m h) :
    (m.world.service.state.commitWrite (m.world.clocks m.world.calls) h.inodeId
      h.layout.attrs.version h.pendingExtents).1.isOk = true ∧
    MetaState.Holds (some (r.write acked))
      ((m.world.applied h.commitCommand).service.state.fileView ino) := by
  obtain ⟨done, again, hacked, hpre, hfile⟩ := hq.file
  obtain ⟨a, l, hat, _⟩ := hfile.fileHolds
  have hok := MetaState.commitWrite_isOk (m.world.clocks m.world.calls)
    (v := h.layout.attrs.version) hat fun e he => (hq.valid e he).1
  rw [← hq.inodeId] at hok hfile ⊢
  refine ⟨hok, ?_⟩
  have hw := MetaState.execute_written (m.world.clocks m.world.calls)
    (c := h.commitCommand) rfl hfile (MetaState.isOk_map.trans hok) fun e he => (hq.valid e he).2
  rw [World.applied_state]
  have hretry : ((r.write done).write again).write (h.pendingExtents.map FileExtent.patch) =
      r.write acked := by
    rw [SparseFile.write_retry hpre, ← SparseFile.write_append, hacked]
  rw [← hretry]
  simpa only [Command.onReference, FuseFileHandle.commitCommand, if_true] using hw

/-- The step lemma for `CommitHandle`: what was acknowledged stays so, and once it succeeds the
file is as if each acknowledged write had been committed once. -/
theorem Queued.commit (hq : Queued ino fi r acked m h) :
    (∃ h', Queued ino fi r acked (m.commit World.backend fi.fh).2 h') ∧
      ((m.commit World.backend fi.fh).1 = .ok () →
        (m.commit World.backend fi.fh).2.world.service.state.FileHolds ino (r.write acked)) := by
  obtain ⟨done, again, hacked, hpre, hfile⟩ := hq.file
  have hget (h' : FuseFileHandle) :
      (m.server.setFileHandle fi.fh h').getFileHandle fi.fh = some h' :=
    FuseServer.getFileHandle_setFileHandle_self h'
  by_cases hempty : h.pendingExtents = []
  · have hsame : (r.write done).write again = r.write acked := by
      rw [hempty, List.map_nil] at hacked hpre
      rw [List.prefix_nil.mp hpre, hacked, List.append_nil]
      rfl
    rw [commit_eq hq.handle (commitHandle_idle hempty hq.appends _)]
    refine ⟨⟨h, hget h, hq.inodeId, hq.append, hq.appends, hq.valid, hq.file⟩, fun _ => ?_⟩
    exact (hsame ▸ hfile).fileHolds
  · obtain ⟨hok, hnew⟩ := hq.applied
    rcases commitHandle_extents hq.appends hempty hok with ⟨e, he⟩ | ⟨e, he⟩ | ⟨layout, he⟩
    · rw [commit_eq hq.handle he]
      exact ⟨⟨h, hget h, hq.inodeId, hq.append, hq.appends, hq.valid, hq.file⟩, by simp⟩
    · rw [commit_eq hq.handle he]
      -- the service has the whole queue now, and the handle keeps it
      refine ⟨⟨h, hget h, hq.inodeId, hq.append, hq.appends, hq.valid, ?_⟩, by simp⟩
      refine ⟨done, _, hacked, List.prefix_rfl, ?_⟩
      rw [← SparseFile.write_append, ← hacked]
      exact hnew
    · rw [commit_eq hq.handle he]
      refine ⟨⟨_, hget _, hq.inodeId, hq.append, hq.appends, by simp, ?_⟩, fun _ => hnew.fileHolds⟩
      exact ⟨acked, [], (List.append_nil acked).symm, List.prefix_rfl, hnew⟩

/-- The step lemma for a write: one that is acknowledged joins the end of the queue. -/
theorem Queued.write (hq : Queued ino fi r acked m h) {buf : Bytes} {off : Int64}
    (hne : buf ≠ []) (hrange : off.toUInt64.toNat + buf.length < 2 ^ 64) :
    (∃ errno, (m.pulpfsWrite World.backend ino buf off fi).1 = .err errno ∧
      ∃ h', Queued ino fi r acked (m.pulpfsWrite World.backend ino buf off fi).2 h') ∨
    ∃ size, (m.pulpfsWrite World.backend ino buf off fi).1 = .write size ∧
      ∃ h', Queued ino fi r
        (acked ++ [writtenPatch (m.server.nextObjectKey ino off.toUInt64) off.toUInt64.toNat
          buf.length])
        (m.pulpfsWrite World.backend ino buf off fi).2 h' := by
  have hoffset : h.writeOffset off = off.toUInt64 := by
    rw [FuseFileHandle.writeOffset, hq.append, if_neg Bool.false_ne_true]
  have hcases := pulpfsWrite_cases hq.handle ino buf off
  rw [hoffset] at hcases
  rcases hcases with ⟨errno, he⟩ | ⟨errno, w', he, hw'⟩ | ⟨extent, hext, _, he⟩
  · rw [he]
    exact .inl ⟨errno, rfl, h, hq⟩
  · rw [he]
    refine .inl ⟨errno, rfl, h, hq.handle, hq.inodeId, hq.append, hq.appends, hq.valid, ?_⟩
    rcases hw' with rfl | rfl
    · exact hq.file
    · exact hq.file
  · have hlen : buf.length < 2 ^ 64 := by omega
    have hpatch := hext.patch_eq hlen
    have hqueue : h.queue extent = { h with pendingExtents := h.pendingExtents ++ [extent] } := by
      rw [FuseFileHandle.queue, hq.append, if_neg Bool.false_ne_true]
    have hin : extent.InRange := by
      have hnat : extent.length.toNat = buf.length := by
        rw [hext.length, UInt64.toNat_ofNat', Nat.mod_eq_of_lt hlen]
      unfold FileExtent.InRange
      rw [hext.offset, hnat]
      exact hrange
    rw [he, hqueue]
    obtain ⟨done, again, hacked, hpre, hfile⟩ := hq.file
    refine .inr ⟨extent.length, rfl, _, FuseServer.getFileHandle_setFileHandle_self _, hq.inodeId,
      hq.append, hq.appends, ?_, done, again, ?_, ?_, hfile⟩
    · exact List.forall_mem_append.mpr
        ⟨hq.valid, List.forall_mem_singleton.mpr ⟨hext.valid hne hlen, hin⟩⟩
    · rw [List.map_append, List.map_singleton, hpatch, hacked, List.append_assoc]
    · rw [List.map_append]
      exact hpre.trans (List.prefix_append _ _)

/-- A client whose open, as long as it has one, is `fi`. -/
def Durable (ino : UInt64) (fi : FuseFileInfo) (r : SparseFile ObjectByte)
    (acked : List (Patch ObjectByte)) (c : Client) : Prop :=
  c.opened = none ∨ c.opened = some fi ∧ ∃ h, Queued ino fi r acked c.mount h

/-- The step lemma. -/
theorem Durable.step {c : Client} (hc : Durable ino fi r acked c) {op : Op} (hop : op.Positional) :
    Durable ino fi r
      (acked ++ (acknowledged ino ⟨c, op, (c.step ino op).1, (c.step ino op).2⟩).toList)
      (c.step ino op).2 ∧
    ((c.step ino op).1 = some .ok → (c.step ino op).2.state.FileHolds ino (r.write acked)) := by
  rcases hc with hnone | ⟨hfi, h, hq⟩
  · have hopen : ∀ flags, op ≠ .open flags := fun flags ho => by rw [ho] at hop; exact hop
    rw [Client.step_of_none hnone hopen]
    exact ⟨.inl hnone, nofun⟩
  · have hreply {server : FuseServer} {opened : Option FuseFileInfo}
        (hok : some (Mount.replyOf (c.mount.commit World.backend fi.fh).1) = some .ok) :
        (⟨⟨server, (c.mount.commit World.backend fi.fh).2.world⟩, opened⟩ :
          Client).state.FileHolds ino (r.write acked) :=
      hq.commit.2 (ok_of_replyOf (Option.some.inj hok))
    cases op with
    | «open» => exact hop.elim
    | read => exact hop.elim
    | write buf off =>
      obtain ⟨hne, hrange⟩ := hop
      rw [Client.step_write hfi]
      rcases hq.write hne hrange with ⟨errno, hr, hq'⟩ | ⟨size, hr, hq'⟩
      · simp only [acknowledged, hr, Option.toList_none, List.append_nil]
        exact ⟨.inr ⟨rfl, hq'⟩, nofun⟩
      · simp only [acknowledged, hr, Option.toList_some]
        exact ⟨.inr ⟨rfl, hq'⟩, nofun⟩
    | flush =>
      rw [Client.step_flush hfi]
      simp only [acknowledged, Option.toList_none, List.append_nil]
      exact ⟨.inr ⟨rfl, hq.commit.1⟩, hreply⟩
    | fsync =>
      rw [Client.step_fsync hfi]
      simp only [acknowledged, Option.toList_none, List.append_nil]
      exact ⟨.inr ⟨rfl, hq.commit.1⟩, hreply⟩
    | release =>
      rw [Client.step_release hfi]
      exact ⟨.inl rfl, hreply⟩

/-- The run lemma. -/
theorem Durable.run {c : Client} (hc : Durable ino fi r acked c) {ops : List Op}
    (hops : ∀ op ∈ ops, op.Positional) {before after : List (Step Client Op (Option FuseReply))}
    {e : Step Client Op (Option FuseReply)}
    (htrace : trace (Client.step ino) ops c = before ++ e :: after) (he : e.output = some .ok) :
    e.after.state.FileHolds ino (r.write (acked ++ before.filterMap (acknowledged ino))) := by
  induction ops generalizing c acked before with
  | nil => simp at htrace
  | cons op ops ih =>
    rw [List.forall_mem_cons] at hops
    obtain ⟨hnext, hdone⟩ := hc.step hops.1
    rw [trace_cons] at htrace
    cases before with
    | nil =>
      obtain ⟨rfl, -⟩ := List.cons.inj htrace
      rw [List.filterMap_nil, List.append_nil]
      exact hdone he
    | cons first before =>
      obtain ⟨rfl, hrest⟩ := List.cons.inj htrace
      rw [← append_filterMap_cons]
      exact ih hnext hops.2 hrest

/-- Whatever becomes of the calls: when a request on an open without `O_APPEND`, used for
positional writes only, succeeds as a flush does, the file is as if each write acknowledged
before had been committed once, in the order of the writes. -/
theorem durable_of_run {c : Client} (hopened : c.opened = some fi)
    (hhandle : c.mount.server.getFileHandle fi.fh = some h) (hinode : h.inodeId = ino)
    (happend : h.append = false) (hextents : h.pendingExtents = [])
    (happends : h.pendingAppendExtents = []) (hfile : c.state.FileHolds ino r) {ops : List Op}
    (hops : ∀ op ∈ ops, op.Positional) {before after : List (Step Client Op (Option FuseReply))}
    {e : Step Client Op (Option FuseReply)}
    (htrace : trace (Client.step ino) ops c = before ++ e :: after) (he : e.output = some .ok) :
    e.after.state.FileHolds ino (r.write (before.filterMap (acknowledged ino))) := by
  have hq : Queued ino fi r [] c.mount h := by
    refine ⟨hhandle, hinode, happend, happends, ?_, [], [], ?_, ?_, hfile.holds⟩
    · rw [hextents]
      exact nofun
    · rw [hextents]
      rfl
    · rw [hextents]
      exact List.prefix_rfl
  have hc : Durable ino fi r [] c := .inr ⟨hopened, h, hq⟩
  exact hc.run hops htrace he

end

/-- Three writes, the reply to the first commit and the second commit itself lost. -/
def lossyClient : Client where
  mount :=
    { server := (FuseServer.fresh ⟨ascii "b", []⟩ (ascii "w")).setFileHandle 1
        { inodeId := 2, writable := true }
      world :=
        { World.fresh 4096 with
          service := ⟨final (@MetaState.call .insertion)
            [⟨fun _ => 1, .createFile 1 (ascii "f") 0o644 0 0⟩] (.fresh 4096 0)⟩
          deliveries := fun n =>
            if n = 0 then .replyLost ⟨.deadlineExceeded, []⟩
            else if n = 1 then .notApplied ⟨.unavailable, []⟩ else .answered } }
  opened := some { flags := oWronly, fh := 1 }

def lossyOps : List Op :=
  [.write [1, 2, 3, 4] 0, .flush, .write [5, 6] 1, .fsync 0, .write [7] 9]

set_option maxRecDepth 8192 in
theorem durable_of_lossyOps :
    ∃ before e, trace (@Client.step .insertion 2) (lossyOps ++ [.flush]) lossyClient =
        before ++ [e] ∧
      (before ++ [e]).map Step.output =
        [some (.write 4), some (.err .etimedout), some (.write 2), some (.err .eagain),
          some (.write 1), some .ok] ∧
      e.after.state.FileHolds 2 (SparseFile.empty.write (before.filterMap (acknowledged 2))) := by
  have hview : lossyClient.state.fileView 2 = (some (.file, 0), some []) := by decide
  have hfile : lossyClient.state.FileHolds 2 .empty := by
    apply MetaState.Holds.fileHolds
    rw [hview]
    exact .file rfl .nil rfl
  have hrun : trace (@Client.step .insertion 2) (lossyOps ++ [.flush]) lossyClient = _ ++ _ :=
    trace_append _ _ _
  refine ⟨_, _, hrun, by decide, ?_⟩
  exact @durable_of_run .insertion 2 { flags := oWronly, fh := 1 } .empty _ lossyClient rfl
    (FuseServer.getFileHandle_setFileHandle_self _) rfl rfl rfl rfl hfile (lossyOps ++ [.flush])
    (by decide) _ [] _ hrun (by decide)

end Pulpfs
