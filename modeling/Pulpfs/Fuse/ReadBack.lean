import Pulpfs.Fuse.Stored

/-! Reading back through a handle what was written through it, whatever becomes of the calls of
its commits. -/
namespace Pulpfs
open Overlay Transition

/-- The bytes of a write at their place in the file. -/
def writtenBytes (off : ℕ) (buf : Bytes) : Patch UInt8 where
  start := off
  stop := off + buf.length
  value := fun x => buf.getD (x - off) 0

/-- The write a step acknowledges. -/
def acknowledgedBytes (e : Step Client Op (Option FuseReply)) : Option (Patch UInt8) :=
  match e.input, e.output with
  | .write buf off, some (.write _) => some (writtenBytes off.toUInt64.toNat buf)
  | _, _ => none

namespace Client

variable (ino : UInt64) (c : Client)

/-- After a `CommitWrite` that is answered the layout is got, too. -/
def Refreshes : Prop :=
  ∀ h ∈ c.handle, h.pendingExtents = [] ∨
    (c.mount.world.deliveries c.mount.world.calls = .answered →
      c.mount.world.deliveries (c.mount.world.calls + 1) = .answered)

instance : Decidable c.Refreshes := inferInstanceAs (Decidable (∀ h ∈ c.handle, _))

/-- The condition a step has to meet before it is taken. -/
def ReadsBack : Op → Prop
  | .write _ off => c.NewKey ino off
  | .flush => c.Refreshes
  | .fsync _ => c.Refreshes
  | _ => True

instance (op : Op) : Decidable (c.ReadsBack ino op) :=
  match op with
  | .write _ off => inferInstanceAs (Decidable (c.NewKey ino off))
  | .flush => inferInstanceAs (Decidable c.Refreshes)
  | .fsync _ => inferInstanceAs (Decidable c.Refreshes)
  | .open _ => .isTrue trivial
  | .read .. => .isTrue trivial
  | .release => .isTrue trivial

end Client

/-- Between two uses of the open: with the queue laid over it, both the cached layout and the one
of the service show what was acknowledged. -/
structure Backed (ino : UInt64) (fi : FuseFileInfo) (ps : List (Patch UInt8)) (m : Mount World)
    (h : FuseFileHandle) : Prop extends InPlace ino fi m h where
  layout : ∀ e ∈ h.layout.extents, m.world.Holds m.server.config.bucket e
  shown : (h.layout.file.write h.queued).Shows m.value ps
  stored : ∃ l, m.world.Stored m.server.config.bucket ino l ∧
    (l.file.write h.queued).Shows m.value ps

section

variable [OffsetSort] {ino : UInt64} {fi : FuseFileInfo} {ps : List (Patch UInt8)} {c : Client}
  {h : FuseFileHandle}

/-- A commit that does not end well leaves handle and objects alone; the service may have taken
the queue. -/
theorem Backed.unanswered {m : Mount World} (hb : Backed ino fi ps m h) {w' : World}
    (hw : w' = m.world.count ∨ w' = m.world.applied h.commitCommand) :
    Backed ino fi ps ⟨m.server.setFileHandle fi.fh h, w'⟩ h := by
  obtain ⟨l, hs, hshows⟩ := hb.stored
  have hget : (m.server.setFileHandle fi.fh h).getFileHandle fi.fh = some h :=
    FuseServer.getFileHandle_setFileHandle_self h
  rcases hw with rfl | rfl
  · exact ⟨⟨hget, hb.inodeId, hb.append, hb.appends, hb.valid, hb.held⟩, hb.layout, hb.shown, l,
      hs.count, hshows⟩
  · obtain ⟨-, l', hs', hfile⟩ := hb.toInPlace.applied hs
    refine ⟨⟨hget, hb.inodeId, hb.append, hb.appends, hb.valid, hb.held⟩, hb.layout, hb.shown, l',
      hs', ?_⟩
    rw [hfile, SparseFile.write_retry List.prefix_rfl]
    exact hshows

/-- The step lemma for `CommitHandle`. -/
theorem Backed.commit (hopened : c.opened = some fi) (hb : Backed ino fi ps c.mount h)
    (hrefreshes : c.Refreshes) :
    ∃ h', Backed ino fi ps (c.mount.commit World.backend fi.fh).2 h' := by
  have hhandle := Client.handle_of_get hopened hb.handle
  have hget (h' : FuseFileHandle) :
      (c.mount.server.setFileHandle fi.fh h').getFileHandle fi.fh = some h' :=
    FuseServer.getFileHandle_setFileHandle_self h'
  by_cases hempty : h.pendingExtents = []
  · rw [commit_eq hb.handle (commitHandle_idle hempty hb.appends _)]
    exact ⟨h, ⟨hget h, hb.inodeId, hb.append, hb.appends, hb.valid, hb.held⟩, hb.layout, hb.shown,
      hb.stored⟩
  · by_cases hd : c.mount.world.deliveries c.mount.world.calls = .answered
    · have hd' := (hrefreshes h hhandle).resolve_left hempty hd
      obtain ⟨l, hs, hshows⟩ := hb.stored
      obtain ⟨hok, l', hs', hfile⟩ := hb.toInPlace.applied hs
      have hgot := hs'.got
      rw [← hb.inodeId] at hgot
      rw [commit_eq hb.handle (commitHandle_refreshed hb.appends hempty hok hd hd' hgot)]
      -- the new layout is the old one of the service with the queue laid over it
      have hshown : (l'.file.write []).Shows c.mount.value ps := by
        rw [hfile]
        exact hshows
      exact ⟨_, ⟨hget _, hb.inodeId, hb.append, hb.appends, by simp, by simp⟩, hs'.held, hshown, l',
        hs'.count, hshown⟩
    · obtain ⟨e, w', he, hw⟩ := commitHandle_unanswered hempty hd
      rw [commit_eq hb.handle he]
      exact ⟨h, hb.unanswered hw⟩

/-- The step lemma for a write. -/
theorem Backed.write (hopened : c.opened = some fi) (hb : Backed ino fi ps c.mount h)
    {buf : Bytes} {off : Int64} (hne : buf ≠ [])
    (hrange : off.toUInt64.toNat + buf.length < 2 ^ 64) (hnew : c.NewKey ino off) :
    ∃ reply m', c.mount.pulpfsWrite World.backend ino buf off fi = (reply, m') ∧
      ((∃ errno, reply = .err errno) ∧ Backed ino fi ps m' h ∨
      ∃ size h', reply = .write size ∧
        Backed ino fi (ps ++ [writtenBytes off.toUInt64.toNat buf]) m' h') := by
  have hhandle := Client.handle_of_get hopened hb.handle
  obtain ⟨l, hs, hshows⟩ := hb.stored
  have hkeys := hnew h hhandle l.extents (congrArg Prod.snd (MetaState.view_of_getLayout hs.got))
  simp only [List.mem_append, or_imp, forall_and] at hkeys
  obtain ⟨⟨hlayout, hqueue⟩, hserver⟩ := hkeys
  obtain ⟨reply, m', he, hconfig, hsame, hcases⟩ := hb.toInPlace.write hne hrange hqueue
  have hbucket : m'.server.config.bucket = c.mount.server.config.bucket := by rw [hconfig]
  -- what both layouts show is not disturbed by the new object
  have hheld : ∀ e ∈ h.layout.extents, m'.world.Holds m'.server.config.bucket e := by
    rw [hbucket]
    exact fun e hmem => hsame.holds (hb.layout e hmem) (hlayout e hmem)
  have hstored : m'.world.Stored m'.server.config.bucket ino l := by
    rw [hbucket]
    exact hsame.stored hs hserver
  have hvalue {k : FileLayout}
      (hk : ∀ e ∈ k.extents, e.objectKey ≠ c.mount.server.nextObjectKey ino off.toUInt64)
      (hold : (k.file.write h.queued).Shows c.mount.value ps) :
      (k.file.write h.queued).Shows m'.value ps := by
    refine hold.congr ?_
    unfold Mount.value
    rw [hbucket]
    exact hsame.byteAt_of_content
      fun e hmem => (List.mem_append.mp hmem).elim (hk e) (hqueue e)
  refine ⟨reply, m', he, ?_⟩
  rcases hcases with ⟨herr, hin⟩ | ⟨size, extent, hreply, hin, hpatch, hbytes⟩
  · exact .inl ⟨herr, hin, hheld, hvalue hlayout hb.shown, l, hstored, hvalue hserver hshows⟩
  · have hgrown {k : FileLayout} (hold : (k.file.write h.queued).Shows m'.value ps) :
        (k.file.write ((h.pendingExtents ++ [extent]).map FileExtent.patch)).Shows m'.value
          (ps ++ [writtenBytes off.toUInt64.toNat buf]) := by
      rw [List.map_append, List.map_singleton, SparseFile.write_append]
      refine hold.write ?_ ?_ ?_
      · rw [hpatch]
        rfl
      · rw [hpatch]
        rfl
      · intro x hx
        refine hbytes x ?_
        rw [hpatch]
        exact hx
    exact .inr ⟨size, _, hreply, hin, hheld, hgrown (hvalue hlayout hb.shown), l, hstored,
      hgrown (hvalue hserver hshows)⟩

/-- The step lemma. -/
theorem Backed.step (hopened : c.opened = some fi) (hb : Backed ino fi ps c.mount h) {op : Op}
    (hop : op.InPlace) (hback : c.ReadsBack ino op) :
    (c.step ino op).2.opened = some fi ∧
      ∃ h', Backed ino fi
        (ps ++ (acknowledgedBytes ⟨c, op, (c.step ino op).1, (c.step ino op).2⟩).toList)
        (c.step ino op).2.mount h' := by
  cases op with
  | «open» => exact hop.elim
  | release => exact hop.elim
  | read size off =>
    rw [Client.step_read hopened, hb.toInPlace.read hb.layout hop.1 hop.2]
    simp only [acknowledgedBytes, Option.toList_none, List.append_nil]
    exact ⟨trivial, h, hb⟩
  | flush =>
    rw [Client.step_flush hopened]
    simp only [acknowledgedBytes, Option.toList_none, List.append_nil]
    exact ⟨trivial, hb.commit hopened hback⟩
  | fsync =>
    rw [Client.step_fsync hopened]
    simp only [acknowledgedBytes, Option.toList_none, List.append_nil]
    exact ⟨trivial, hb.commit hopened hback⟩
  | write buf off =>
    obtain ⟨reply, m', he, hcases⟩ := hb.write hopened hop.1 hop.2 hback
    rw [Client.step_write hopened, he]
    rcases hcases with ⟨⟨errno, rfl⟩, hb'⟩ | ⟨size, h', rfl, hb'⟩
    · simp only [acknowledgedBytes, Option.toList_none, List.append_nil]
      exact ⟨trivial, h, hb'⟩
    · simp only [acknowledgedBytes, Option.toList_some]
      exact ⟨trivial, h', hb'⟩

/-- The run lemma. -/
theorem Backed.run (hopened : c.opened = some fi) (hb : Backed ino fi ps c.mount h) {ops : List Op}
    (hops : ∀ op ∈ ops, op.InPlace)
    (hback : ∀ e ∈ trace (Client.step ino) ops c, e.before.ReadsBack ino e.input)
    {before after : List (Step Client Op (Option FuseReply))}
    {e : Step Client Op (Option FuseReply)}
    (htrace : trace (Client.step ino) ops c = before ++ e :: after) :
    e.before.opened = some fi ∧ e.input.InPlace ∧
      ∃ h', Backed ino fi (ps ++ before.filterMap acknowledgedBytes) e.before.mount h' := by
  induction ops generalizing c h ps before with
  | nil => simp at htrace
  | cons op ops ih =>
    rw [List.forall_mem_cons] at hops
    rw [trace_cons] at htrace hback
    rw [List.forall_mem_cons] at hback
    cases before with
    | nil =>
      obtain ⟨rfl, -⟩ := List.cons.inj htrace
      rw [List.filterMap_nil, List.append_nil]
      exact ⟨hopened, hops.1, h, hb⟩
    | cons first before =>
      obtain ⟨rfl, hrest⟩ := List.cons.inj htrace
      obtain ⟨hopened', h', hb'⟩ := hb.step hopened hops.1 hback.1
      rw [← append_filterMap_cons]
      exact ih hopened' hb' hops.2 hback.2 hrest

/-- Whatever calls fail: where the layout is got after each commit that was answered, a read that
succeeds returns at every position written before the byte of the latest acknowledged write. -/
theorem readBack_of_run (hopened : c.opened = some fi) (hhandle : c.handle = some h)
    (hinode : h.inodeId = ino) (happend : h.append = false) (hextents : h.pendingExtents = [])
    (happends : h.pendingAppendExtents = [])
    (hlayout : ∀ e ∈ h.layout.extents, c.mount.world.Holds c.mount.server.config.bucket e)
    {l : FileLayout} (hstored : c.mount.world.Stored c.mount.server.config.bucket ino l)
    {ops : List Op} (hops : ∀ op ∈ ops, op.InPlace)
    (hback : ∀ e ∈ trace (Client.step ino) ops c, e.before.ReadsBack ino e.input)
    {before after : List (Step Client Op (Option FuseReply))}
    {e : Step Client Op (Option FuseReply)}
    (htrace : trace (Client.step ino) ops c = before ++ e :: after) {size : UInt64} {off : Int64}
    (hinput : e.input = .read size off) {data : Bytes} (houtput : e.output = some (.buf data))
    {x : ℕ} (hlo : off.toUInt64.toNat ≤ x) (hhi : x < off.toUInt64.toNat + size.toNat) {b : UInt8}
    (hx : content (before.filterMap acknowledgedBytes) x = some b) :
    data[x - off.toUInt64.toNat]? = some b := by
  have hget := Client.get_of_handle hopened hhandle
  have hb : Backed ino fi [] c.mount h :=
    ⟨⟨hget, hinode, happend, happends, by simp [hextents], by simp [hextents]⟩, hlayout,
      SparseFile.shows_nil _ _, l, hstored, SparseFile.shows_nil _ _⟩
  obtain ⟨hopened', hop, h', hb'⟩ := hb.run hopened hops hback htrace
  have hmem : e ∈ trace (Client.step ino) ops c := by
    rw [htrace]
    exact List.mem_append_right _ List.mem_cons_self
  have hstep := congrArg Prod.fst (trace_step hmem)
  rw [hinput] at hop hstep
  rw [Client.step_read hopened', hb'.toInPlace.read hb'.layout hop.1 hop.2, houtput] at hstep
  obtain rfl := FuseReply.buf.inj (Option.some.inj hstep)
  exact hb'.shown.read 0 hx hlo hhi

end

/-- The reply to the first commit and the second commit itself are lost. -/
def lostDeliveries (n : ℕ) : Delivery :=
  if n = 0 then .replyLost ⟨.deadlineExceeded, []⟩
  else if n = 1 then .notApplied ⟨.unavailable, []⟩ else .answered

def lostOps : List Op :=
  [.write [1, 2, 3, 4] 0, .flush, .write [5, 6] 1, .fsync 0, .read 8 0, .flush]

set_option maxRecDepth 8192 in
theorem readBack_of_lostOps :
    ∃ before e, trace (@Client.step .insertion 2) (lostOps ++ [.read 8 0])
        (newFileClient lostDeliveries) = before ++ [e] ∧
      e.output = some (.buf [1, 5, 6, 4]) ∧ ([1, 5, 6, 4] : Bytes)[1]? = some 5 := by
  obtain ⟨l, hstored, -⟩ := newFileClient_stored lostDeliveries
  have hrun : trace (@Client.step .insertion 2) (lostOps ++ [.read 8 0])
      (newFileClient lostDeliveries) = _ ++ _ := trace_append _ _ _
  refine ⟨_, _, hrun, by decide, ?_⟩
  exact @readBack_of_run .insertion 2 { flags := oRdwr, fh := 1 } (newFileClient lostDeliveries) _
    rfl (FuseServer.getFileHandle_setFileHandle_self _) rfl rfl rfl rfl (by simp) l hstored
    (lostOps ++ [.read 8 0]) (by decide) (by decide) _ [] _ hrun 8 0 (by decide) _ (by decide) 1
    (by decide) (by decide) 5 (by decide)

/-- The commit is answered, and the layout is not got after it. -/
def failedRefresh (n : ℕ) : Delivery :=
  if n = 1 then .notApplied ⟨.unavailable, []⟩ else .answered

set_option maxRecDepth 8192 in
theorem unread_after_failedRefresh :
    (trace (@Client.step .insertion 2) [.write [1] 0, .flush, .read 1 0]
        (newFileClient failedRefresh)).map Step.output =
      [some (.write 1), some .ok, some (.buf [])] ∧
    content ((trace (@Client.step .insertion 2) [.write [1] 0, .flush, .read 1 0]
      (newFileClient failedRefresh)).filterMap acknowledgedBytes) 0 = some 1 := by
  refine ⟨by decide, by decide⟩

end Pulpfs
