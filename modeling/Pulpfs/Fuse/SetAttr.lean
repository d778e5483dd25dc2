import Pulpfs.Fuse.Stored

/-! `PulpfsGetAttr` and `PulpfsSetAttr`, and a file whose size is changed while a handle has writes
queued: the queue waits in the handle, the new size goes straight to the service. -/
namespace Pulpfs
open Overlay Transition

variable {σ : Type}

/-- The call of `MetaClient` that changing attributes adds. -/
structure AttrClient (σ : Type) extends MetaClient σ where
  setAttr : (request : SetAttrCommand) → σ → Except Error InodeAttrs × σ

def fuseSetAttrMode : UInt32 := 0x1
def fuseSetAttrUid : UInt32 := 0x2
def fuseSetAttrGid : UInt32 := 0x4
def fuseSetAttrSize : UInt32 := 0x8
def fuseSetAttrAtime : UInt32 := 0x10
def fuseSetAttrMtime : UInt32 := 0x20

def supportedAttrs : UInt32 :=
  fuseSetAttrMode ||| fuseSetAttrUid ||| fuseSetAttrGid ||| fuseSetAttrSize |||
    fuseSetAttrAtime ||| fuseSetAttrMtime

/-- The reply of both requests; `notSupported` is the error EOPNOTSUPP, which no other request ends
with. -/
inductive SetAttrReply where
  | notSupported
  | err (errno : Errno)
  | attr (st : Stat)
  deriving DecidableEq, Repr

def Mount.pulpfsGetAttr (client : MetaClient σ) (m : Mount σ) (ino : UInt64) :
    SetAttrReply × Mount σ :=
  match client.getAttr ino m.world with
  | (.error e, w) => (.err (toErrno e), { m with world := w })
  | (.ok attrs, w) => (.attr (statFromAttrs attrs), { m with world := w })

def nsFromTimespec (ts : Timespec) : Int64 := ts.tvSec * 1000000000 + ts.tvNsec

/-- The request `PulpfsSetAttr` fills in from the bits of `to_set`. -/
def setAttrRequest (ino : UInt64) (attr : Stat) (toSet : UInt32) : SetAttrCommand :=
  let sets (bit : UInt32) : Bool := toSet &&& bit ≠ 0
  { inodeId := ino
    setMode := sets fuseSetAttrMode
    mode := if sets fuseSetAttrMode then attr.mode &&& kModeMask else 0
    setUid := sets fuseSetAttrUid
    uid := if sets fuseSetAttrUid then attr.uid else 0
    setGid := sets fuseSetAttrGid
    gid := if sets fuseSetAttrGid then attr.gid else 0
    setAtime := sets fuseSetAttrAtime
    atimeNs := if sets fuseSetAttrAtime then nsFromTimespec attr.atim else 0
    setMtime := sets fuseSetAttrMtime
    mtimeNs := if sets fuseSetAttrMtime then nsFromTimespec attr.mtim else 0 }

/-- The calls `PulpfsSetAttr` makes. -/
def setAttrCalls (client : AttrClient σ) (ino : UInt64) (attr : Stat) (toSet : UInt32) (w : σ) :
    Except Error InodeAttrs × σ :=
  let got := client.getAttr ino w
  let sized :=
    if toSet &&& fuseSetAttrSize ≠ 0 then client.truncate ino attr.size.toUInt64 got.2 else got
  match sized with
  | (.error e, w) => (.error e, w)
  | (.ok attrs, w) =>
    if toSet &&& ~~~fuseSetAttrSize ≠ 0 then client.setAttr (setAttrRequest ino attr toSet) w
    else (.ok attrs, w)

def Mount.pulpfsSetAttr (client : AttrClient σ) (m : Mount σ) (ino : UInt64) (attr : Stat)
    (toSet : UInt32) : SetAttrReply × Mount σ :=
  if toSet &&& ~~~supportedAttrs ≠ 0 then (.notSupported, m)
  else
    match setAttrCalls client ino attr toSet m.world with
    | (.error e, w) => (.err (toErrno e), { m with world := w })
    | (.ok attrs, w) => (.attr (statFromAttrs attrs), { m with world := w })

def World.attrClient [OffsetSort] : AttrClient World where
  toMetaClient := World.metaClient
  setAttr request w := w.propose (.setAttr request) RaftCommandResponse.inodeResult

/-- A use of the open, or a change of attributes of the file by its name. -/
inductive FileOp where
  | use (op : Op)
  | setAttr (attr : Stat) (toSet : UInt32)
  deriving DecidableEq

inductive FileReply where
  | use (reply : Option FuseReply)
  | setAttr (reply : SetAttrReply)
  deriving DecidableEq

/-- The size is one of the attributes to set, and all of them are supported. -/
def Resizes (toSet : UInt32) : Prop :=
  toSet &&& ~~~supportedAttrs = 0 ∧ toSet &&& fuseSetAttrSize ≠ 0

instance (toSet : UInt32) : Decidable (Resizes toSet) := inferInstanceAs (Decidable (_ ∧ _))

/-- What a use does to a POSIX file. -/
def FileOp.onBytes (file : Bytes) : FileOp → Bytes
  | .use (.write buf off) => writeAt 0 file off.toUInt64.toNat buf
  | .use _ => file
  | .setAttr attr toSet =>
    if Resizes toSet then resize file attr.size.toUInt64.toNat else file

def FileOp.InPlace : FileOp → Prop
  | .use op => op.InPlace
  | .setAttr _ _ => True

instance (op : FileOp) : Decidable op.InPlace :=
  match op with
  | .use op => inferInstanceAs (Decidable op.InPlace)
  | .setAttr _ _ => .isTrue trivial

namespace Client

def fileStep [OffsetSort] (ino : UInt64) (op : FileOp) (c : Client) : FileReply × Client :=
  match op with
  | .use op =>
    let result := c.step ino op
    (.use result.1, result.2)
  | .setAttr attr toSet =>
    let result := c.mount.pulpfsSetAttr World.attrClient ino attr toSet
    (.setAttr result.1, { c with mount := result.2 })

variable (ino : UInt64) (c : Client)

/-- The service has the size and the extents of the cached layout. -/
def Current : Prop :=
  ∀ h ∈ c.handle, c.state.fileView ino = (some (.file, h.layout.attrs.size), some h.layout.extents)

instance : Decidable (c.Current ino) := inferInstanceAs (Decidable (∀ h ∈ c.handle, _))

/-- Every queued write ends at or before a size. -/
def QueueEndsBy (size : ℕ) : Prop :=
  ∀ h ∈ c.handle, ∀ e ∈ h.pendingExtents, e.offset.toNat + e.length.toNat ≤ size

instance (size : ℕ) : Decidable (c.QueueEndsBy size) :=
  inferInstanceAs (Decidable (∀ h ∈ c.handle, _))

/-- The condition a step has to meet before it is taken. -/
def InOrder : FileOp → Prop
  | .use (.write _ off) => c.NewKey ino off
  | .use (.read _ _) => c.Current ino
  | .use _ => True
  | .setAttr attr toSet => Resizes toSet → c.QueueEndsBy attr.size.toUInt64.toNat

instance (op : FileOp) : Decidable (c.InOrder ino op) :=
  match op with
  | .use (.write _ off) => inferInstanceAs (Decidable (c.NewKey ino off))
  | .use (.read _ _) => inferInstanceAs (Decidable (c.Current ino))
  | .use (.open _) => .isTrue trivial
  | .use .flush => .isTrue trivial
  | .use (.fsync _) => .isTrue trivial
  | .use .release => .isTrue trivial
  | .setAttr attr _ => inferInstanceAs (Decidable (_ → c.QueueEndsBy attr.size.toUInt64.toNat))

/-- The service has the file with these bytes. -/
def Commits (file : Bytes) : Prop :=
  ∃ l, c.state.getLayout ino = .ok l ∧ l.file.bytes c.mount.value 0 = file

end Client

section Calls

variable [OffsetSort] {w : World} {bucket : Bytes} {ino : UInt64} {l : FileLayout}

/-- What the calls of `PulpfsSetAttr` leave of a file that is stored, when all are answered. -/
theorem setAttrCalls_stored (answered : ∀ n, w.deliveries n = .answered)
    (hs : w.Stored bucket ino l) (attr : Stat) (toSet : UInt32) :
    ∃ result w' l', setAttrCalls World.attrClient ino attr toSet w = (result, w') ∧
      World.SameStore w w' ∧ w'.Stored bucket ino l' ∧
      l'.file = if toSet &&& fuseSetAttrSize ≠ 0 then l.file.truncate attr.size.toUInt64.toNat
        else l.file := by
  -- the last call leaves the file alone whatever it answers
  have hrest (w₁ : World) (l₁ : FileLayout) (hs₁ : w₁.Stored bucket ino l₁)
      (answered₁ : ∀ n, w₁.deliveries n = .answered) (a : InodeAttrs) :
      ∃ result w' l', (if toSet &&& ~~~fuseSetAttrSize ≠ 0 then
          World.attrClient.setAttr (setAttrRequest ino attr toSet) w₁ else (.ok a, w₁)) =
          (result, w') ∧
        World.SameStore w₁ w' ∧ w'.Stored bucket ino l' ∧ l'.file = l₁.file := by
    split
    · obtain ⟨result, hcall⟩ : ∃ result, World.attrClient.setAttr (setAttrRequest ino attr toSet) w₁
          = (result, w₁.applied (.setAttr (setAttrRequest ino attr toSet))) :=
        World.propose_applied (by rw [answered₁]; rfl)
      obtain ⟨l', hs', hfile⟩ := hs₁.setAttr (setAttrRequest ino attr toSet)
      exact ⟨result, _, l', hcall, World.sameStore_applied _ _, hs', hfile⟩
    · exact ⟨_, w₁, l₁, rfl, .refl w₁, hs₁, rfl⟩
  have hgot : (World.attrClient.getAttr ino w).2 = w.count := World.query_world w _
  unfold setAttrCalls
  by_cases hsize : toSet &&& fuseSetAttrSize ≠ 0
  · obtain ⟨hok, l₁, hs₁, hfile, -⟩ := hs.count.truncate attr.size.toUInt64
    obtain ⟨a, hcall⟩ := World.truncate_answered (w := w.count) (answered _) hok
    have htruncate : World.attrClient.truncate ino attr.size.toUInt64 w.count =
        (.ok a, w.count.applied (.truncate ino attr.size.toUInt64)) := hcall
    simp only [hsize, hgot, htruncate, if_true, not_false_eq_true, ne_eq]
    obtain ⟨result, w', l', he, hsame, hs', hfile'⟩ := hrest _ l₁ hs₁ answered a
    have hsame₁ := (World.sameStore_applied w.count _).trans hsame
    exact ⟨result, w', l', he, (World.sameStore_count w).trans hsame₁, hs', hfile'.trans hfile⟩
  · simp only [hsize, if_false]
    cases hr : (World.attrClient.getAttr ino w).1 with
    | error e =>
      have hpair : World.attrClient.getAttr ino w = (.error e, w.count) := Prod.ext hr hgot
      simp only [hpair]
      exact ⟨_, _, l, rfl, World.sameStore_count w, hs.count, rfl⟩
    | ok a =>
      have hpair : World.attrClient.getAttr ino w = (.ok a, w.count) := Prod.ext hr hgot
      simp only [hpair]
      obtain ⟨result, w', l', he, hsame, hs', hfile'⟩ := hrest _ l hs.count answered a
      exact ⟨result, w', l', he, (World.sameStore_count w).trans hsame, hs', hfile'⟩

end Calls

/-- Between two uses of the open: the file of the service with the queue laid over it has the
bytes of the POSIX file. The cached layout may be out of date. -/
structure Buffered (ino : UInt64) (fi : FuseFileInfo) (file : Bytes) (m : Mount World)
    (h : FuseFileHandle) : Prop extends InPlace ino fi m h where
  writable : h.writable = true
  bucket : m.server.config.bucket ≠ []
  answered : ∀ n, m.world.deliveries n = .answered
  uploaded : ∀ n, ∃ etag, m.world.uploads n = .done etag
  stored : ∃ l, m.world.Stored m.server.config.bucket ino l ∧ l.file.Confined ∧
    (l.file.write h.queued).bytes m.value 0 = file

section

variable [OffsetSort] {ino : UInt64} {fi : FuseFileInfo} {file : Bytes} {c : Client}
  {h : FuseFileHandle}

/-- The step lemma for `CommitHandle`: nothing stays queued. -/
theorem Buffered.commit {m : Mount World} (hb : Buffered ino fi file m h) :
    ∃ h', Buffered ino fi file (m.commit World.backend fi.fh).2 h' ∧ h'.pendingExtents = [] := by
  have hget (h' : FuseFileHandle) :
      (m.server.setFileHandle fi.fh h').getFileHandle fi.fh = some h' :=
    FuseServer.getFileHandle_setFileHandle_self h'
  by_cases hempty : h.pendingExtents = []
  · rw [commit_eq hb.handle (commitHandle_idle hempty hb.appends _)]
    exact ⟨h, ⟨⟨hget h, hb.inodeId, hb.append, hb.appends, hb.valid, hb.held⟩, hb.writable,
      hb.bucket, hb.answered, hb.uploaded, hb.stored⟩, hempty⟩
  · obtain ⟨l, hs, hconfined, hbytes⟩ := hb.stored
    obtain ⟨hok, l', hs', hfile⟩ := hb.toInPlace.applied hs
    have hgot := hs'.got
    rw [← hb.inodeId] at hgot
    rw [commit_eq hb.handle (commitHandle_refreshed hb.appends hempty hok (hb.answered _)
      (hb.answered _) hgot)]
    refine ⟨_, ⟨⟨hget _, hb.inodeId, hb.append, hb.appends, by simp, by simp⟩, hb.writable,
      hb.bucket, hb.answered, hb.uploaded, l', hs'.count, ?_, ?_⟩, rfl⟩
    · rw [hfile]
      exact hconfined.write _
    · show (l'.file.write []).bytes m.value 0 = file
      rw [hfile]
      exact hbytes

/-- The step lemma for a write. -/
theorem Buffered.write (hopened : c.opened = some fi) (hb : Buffered ino fi file c.mount h)
    {buf : Bytes} {off : Int64} (hne : buf ≠ [])
    (hrange : off.toUInt64.toNat + buf.length < 2 ^ 64) (hnew : c.NewKey ino off) :
    ∃ h', Buffered ino fi (writeAt 0 file off.toUInt64.toNat buf)
      (c.mount.pulpfsWrite World.backend ino buf off fi).2 h' := by
  have hhandle := Client.handle_of_get hopened hb.handle
  obtain ⟨l, hs, hconfined, hbytes⟩ := hb.stored
  have hkeys := hnew h hhandle l.extents (congrArg Prod.snd (MetaState.view_of_getLayout hs.got))
  simp only [List.mem_append, or_imp, forall_and] at hkeys
  obtain ⟨⟨-, hqueue⟩, hserver⟩ := hkeys
  obtain ⟨reply, m', he, hconfig, hsame, hcases⟩ := hb.toInPlace.write hne hrange hqueue
  have hbucket : m'.server.config.bucket = c.mount.server.config.bucket := by rw [hconfig]
  obtain ⟨size, hsize⟩ := pulpfsWrite_acknowledged hb.handle hb.writable hb.bucket (hb.uploaded _)
    ino buf off
  rw [he] at hsize ⊢
  rcases hcases with ⟨⟨errno, rfl⟩, -⟩ | ⟨_, extent, -, hin, hpatch, hvalue⟩
  · contradiction
  · refine ⟨_, hin, hb.writable, hbucket ▸ hb.bucket, hsame.deliveries ▸ hb.answered,
      hsame.uploads ▸ hb.uploaded, l, ?_, hconfined, ?_⟩
    · rw [hbucket]
      exact hsame.stored hs hserver
    · have hold : (l.file.write h.queued).bytes m'.value 0 = file := by
        rw [← hbytes]
        unfold Mount.value
        rw [hbucket]
        exact SparseFile.bytes_congr (hsame.byteAt_of_content
          fun e hmem => (List.mem_append.mp hmem).elim (hserver e) (hqueue e))
      have hqueued : FuseFileHandle.queued
          { h with pendingExtents := h.pendingExtents ++ [extent] } =
          h.queued ++ [extent.patch] := List.map_append
      have hstart : extent.patch.start = off.toUInt64.toNat := by rw [hpatch]; rfl
      have hstop : extent.patch.stop = extent.patch.start + buf.length := by rw [hpatch]; rfl
      rw [hqueued, SparseFile.write_append, ← hold, ← hstart]
      refine SparseFile.bytes_write m'.value 0 (hconfined.write h.queued) hne hstop ?_
      intro i hi
      rw [hvalue _ ⟨Nat.le_add_right _ _, by omega⟩, hstart, Nat.add_sub_cancel_left]
      exact (List.getElem_eq_getD 0).symm

/-- The step lemma for a change of attributes. The queue keeps to what lies before the new end, so
it does not matter that it comes to the service later. -/
theorem Buffered.setAttr (hopened : c.opened = some fi) (hb : Buffered ino fi file c.mount h)
    (attr : Stat) (toSet : UInt32)
    (hends : Resizes toSet → c.QueueEndsBy attr.size.toUInt64.toNat) :
    Buffered ino fi (FileOp.onBytes file (.setAttr attr toSet))
      (c.mount.pulpfsSetAttr World.attrClient ino attr toSet).2 h := by
  show Buffered ino fi (if Resizes toSet then resize file attr.size.toUInt64.toNat else file) _ h
  unfold Mount.pulpfsSetAttr
  by_cases hsup : toSet &&& ~~~supportedAttrs = 0
  · obtain ⟨l, hs, hconfined, hbytes⟩ := hb.stored
    obtain ⟨result, w', l', he, hsame, hs', hfile⟩ :=
      setAttrCalls_stored hb.answered hs attr toSet
    have hin : InPlace ino fi { c.mount with world := w' } h :=
      ⟨hb.handle, hb.inodeId, hb.append, hb.appends, hb.valid,
        fun e hmem => hsame.holds (hb.held e hmem)⟩
    have hvalue : Mount.value { c.mount with world := w' } = c.mount.value := hsame.byteAt _
    have hnew : Buffered ino fi
        (if Resizes toSet then resize file attr.size.toUInt64.toNat else file)
        { c.mount with world := w' } h := by
      refine ⟨hin, hb.writable, hb.bucket, hsame.deliveries ▸ hb.answered,
        hsame.uploads ▸ hb.uploaded, l', hs', ?_, ?_⟩
      · rw [hfile]
        split
        · exact SparseFile.confined_truncate _ _
        · exact hconfined
      · rw [hvalue, hfile]
        by_cases hsize : toSet &&& fuseSetAttrSize ≠ 0
        · have hresizes : Resizes toSet := ⟨hsup, hsize⟩
          have hhandle := Client.handle_of_get hopened hb.handle
          have hqueue : ∀ p ∈ h.queued, p.stop ≤ attr.size.toUInt64.toNat :=
            List.forall_mem_map.mpr (hends hresizes h hhandle)
          rw [if_pos hsize, if_pos hresizes, SparseFile.truncate_write _ hqueue,
            SparseFile.bytes_truncate _ _ (hconfined.write _), hbytes]
          rfl
        · have hresizes : ¬ Resizes toSet := fun hr => hsize hr.2
          rw [if_neg hsize, if_neg hresizes]
          exact hbytes
    rw [if_neg (not_not.mpr hsup), he]
    cases result with
    | error e => exact hnew
    | ok a => exact hnew
  · have hresizes : ¬ Resizes toSet := fun hr => hsup hr.1
    rw [if_pos hsup, if_neg hresizes]
    exact hb

/-- A read through a handle whose cached layout is up to date. -/
theorem Buffered.read (hopened : c.opened = some fi) (hb : Buffered ino fi file c.mount h)
    (hcurrent : c.Current ino) {size : UInt64} {off : Int64} (hsize : size.toNat < 2 ^ 63)
    (hoff : 0 ≤ off) :
    c.mount.pulpfsRead World.backend ino size off fi =
      (.buf ((file.drop off.toUInt64.toNat).take size.toNat), c.mount) := by
  have hhandle := Client.handle_of_get hopened hb.handle
  obtain ⟨l, hs, -, rfl⟩ := hb.stored
  have hview := (hcurrent h hhandle).symm.trans (MetaState.view_of_getLayout hs.got)
  simp only [Prod.mk.injEq, Option.some.injEq, true_and] at hview
  have hfile : h.layout.file = l.file := by rw [FileLayout.file, hview.1, hview.2, FileLayout.file]
  rw [hb.toInPlace.read (hview.2 ▸ hs.held) hsize hoff, hfile]

/-- The step lemma. -/
theorem Buffered.step (hopened : c.opened = some fi) (hb : Buffered ino fi file c.mount h)
    {op : FileOp} (hop : op.InPlace) (hin : c.InOrder ino op) :
    (c.fileStep ino op).2.opened = some fi ∧
      (∃ h', Buffered ino fi (op.onBytes file) (c.fileStep ino op).2.mount h') ∧
      ∀ size off, op = .use (.read size off) →
        (c.fileStep ino op).1 = .use (some (.buf ((file.drop off.toUInt64.toNat).take
          size.toNat))) := by
  unfold Client.fileStep
  cases op with
  | setAttr attr toSet => exact ⟨hopened, ⟨h, hb.setAttr hopened attr toSet hin⟩, nofun⟩
  | use op =>
    cases op with
    | «open» => exact hop.elim
    | release => exact hop.elim
    | read size off =>
      simp only [Client.step_read hopened, hb.read hopened hin hop.1 hop.2]
      refine ⟨trivial, ⟨h, hb⟩, ?_⟩
      rintro _ _ ⟨⟩
      rfl
    | write buf off =>
      simp only [Client.step_write hopened]
      exact ⟨trivial, hb.write hopened hop.1 hop.2 hin, nofun⟩
    | flush =>
      simp only [Client.step_flush hopened]
      obtain ⟨h', hb', -⟩ := hb.commit
      exact ⟨trivial, ⟨h', hb'⟩, nofun⟩
    | fsync =>
      simp only [Client.step_fsync hopened]
      obtain ⟨h', hb', -⟩ := hb.commit
      exact ⟨trivial, ⟨h', hb'⟩, nofun⟩

/-- The run lemma. -/
theorem Buffered.run (hopened : c.opened = some fi) (hb : Buffered ino fi file c.mount h)
    {ops : List FileOp} (hops : ∀ op ∈ ops, op.InPlace)
    (hin : ∀ e ∈ trace (Client.fileStep ino) ops c, e.before.InOrder ino e.input) :
    ((final (Client.fileStep ino) ops c).opened = some fi ∧
      ∃ h', Buffered ino fi (ops.foldl FileOp.onBytes file)
        (final (Client.fileStep ino) ops c).mount h') ∧
    ∀ before e after, trace (Client.fileStep ino) ops c = before ++ e :: after →
      ∀ size off, e.input = .use (.read size off) →
        e.output = .use (some (.buf ((((before.map Step.input).foldl FileOp.onBytes file).drop
          off.toUInt64.toNat).take size.toNat))) := by
  induction ops generalizing c h file with
  | nil => exact ⟨⟨hopened, h, hb⟩, by simp⟩
  | cons op ops ih =>
    rw [List.forall_mem_cons] at hops
    rw [trace_cons, List.forall_mem_cons] at hin
    obtain ⟨hopened', ⟨h', hb'⟩, hread⟩ := hb.step hopened hops.1 hin.1
    obtain ⟨hfinal, hreads⟩ := ih hopened' hb' hops.2 hin.2
    refine ⟨hfinal, ?_⟩
    intro before e after htrace size off hinput
    rw [trace_cons] at htrace
    cases before with
    | nil =>
      obtain ⟨rfl, -⟩ := List.cons.inj htrace
      exact hread size off hinput
    | cons first before =>
      obtain ⟨rfl, hrest⟩ := List.cons.inj htrace
      exact hreads before e after hrest size off hinput

/-- The last commit of a handle. -/
theorem Buffered.release (hopened : c.opened = some fi) (hb : Buffered ino fi file c.mount h) :
    (c.fileStep ino (.use .release)).2.Commits ino file := by
  simp only [Client.fileStep, Client.step_release hopened]
  obtain ⟨h', hb', hempty⟩ := hb.commit
  obtain ⟨l, hs, -, hbytes⟩ := hb'.stored
  rw [FuseFileHandle.queued, hempty] at hbytes
  exact ⟨l, hs.got, hbytes⟩

/-- Where no queued write reaches beyond a new size and the cached layout is up to date at each
read, all reads and what is committed in the end are those of a POSIX file. -/
theorem inOrder_of_run (hopened : c.opened = some fi) (hhandle : c.handle = some h)
    (hinode : h.inodeId = ino) (happend : h.append = false) (hwritable : h.writable = true)
    (hextents : h.pendingExtents = []) (happends : h.pendingAppendExtents = [])
    (hbucket : c.mount.server.config.bucket ≠ [])
    (hanswered : ∀ n, c.mount.world.deliveries n = .answered)
    (huploaded : ∀ n, ∃ etag, c.mount.world.uploads n = .done etag) {l : FileLayout}
    (hstored : c.mount.world.Stored c.mount.server.config.bucket ino l)
    (hconfined : l.file.Confined) {ops : List FileOp} (hops : ∀ op ∈ ops, op.InPlace)
    (hin : ∀ e ∈ trace (Client.fileStep ino) ops c, e.before.InOrder ino e.input) :
    (∀ before e after, trace (Client.fileStep ino) ops c = before ++ e :: after →
      ∀ size off, e.input = .use (.read size off) →
        e.output = .use (some (.buf ((((before.map Step.input).foldl FileOp.onBytes
          (l.file.bytes c.mount.value 0)).drop off.toUInt64.toNat).take size.toNat)))) ∧
    (final (Client.fileStep ino) (ops ++ [.use .release]) c).Commits ino
      (ops.foldl FileOp.onBytes (l.file.bytes c.mount.value 0)) := by
  have hget := Client.get_of_handle hopened hhandle
  have hqueued : h.queued = [] := by rw [FuseFileHandle.queued, hextents, List.map_nil]
  have hb : Buffered ino fi (l.file.bytes c.mount.value 0) c.mount h :=
    ⟨⟨hget, hinode, happend, happends, by simp [hextents], by simp [hextents]⟩, hwritable, hbucket,
      hanswered, huploaded, l, hstored, hconfined, by rw [hqueued]; rfl⟩
  obtain ⟨⟨hopened', h', hb'⟩, hreads⟩ := hb.run hopened hops hin
  refine ⟨hreads, ?_⟩
  rw [final_append]
  exact hb'.release hopened'

end

def sizeAttr (size : Int64) : Stat := { statFromAttrs {} with size }

/-- The file grows beyond what is queued, and it is cut when nothing is. -/
def resizedOps : List FileOp :=
  [.use (.write [1, 2, 3, 4] 0), .setAttr (sizeAttr 6) fuseSetAttrSize, .use .flush,
    .use (.read 8 0), .setAttr (sizeAttr 2) (fuseSetAttrSize ||| fuseSetAttrMtime),
    .use (.write [9] 4)]

set_option maxRecDepth 8192 in
theorem inOrder_of_resizedOps :
    (final (@Client.fileStep .insertion 2) (resizedOps ++ [.use .release])
      (newFileClient fun _ => .answered)).Commits 2 [1, 2, 0, 0, 9] := by
  obtain ⟨l, hstored, hfile⟩ := newFileClient_stored fun _ => .answered
  have hbytes : resizedOps.foldl FileOp.onBytes
      (l.file.bytes (newFileClient fun _ => .answered).mount.value 0) = [1, 2, 0, 0, 9] := by
    rw [hfile]
    decide
  rw [← hbytes]
  exact (@inOrder_of_run .insertion 2 { flags := oRdwr, fh := 1 }
    (newFileClient fun _ => .answered) _ rfl (FuseServer.getFileHandle_setFileHandle_self _) rfl
    rfl rfl rfl rfl (by decide) (fun _ => rfl) (fun _ => ⟨_, rfl⟩) l hstored
    (hfile ▸ SparseFile.confined_empty) resizedOps (by decide) (by decide)).2

/-- The new size overtakes the queued write. -/
def overtakenOps : List FileOp :=
  [.use (.write [1, 2, 3, 4] 0), .setAttr (sizeAttr 2) fuseSetAttrSize, .use (.read 8 0)]

set_option maxRecDepth 8192 in
theorem longer_after_overtakenOps :
    overtakenOps.foldl FileOp.onBytes [] = [1, 2] ∧
    ((trace (@Client.fileStep .insertion 2) overtakenOps
      (newFileClient fun _ => .answered)).map Step.output).getLast? =
        some (.use (some (.buf [1, 2, 3, 4]))) ∧
    ((final (@Client.fileStep .insertion 2) (overtakenOps ++ [.use .release])
      (newFileClient fun _ => .answered)).state.fileView 2).1 = some (.file, 4) := by
  refine ⟨by decide, by decide, by decide⟩

end Pulpfs
