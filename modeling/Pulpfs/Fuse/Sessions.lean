import Pulpfs.Fuse.SessionView

/-! All mounts of a bucket as clients of one file system of byte files. Whatever is lost on the
way, each request does to the files and to what is open what its reply says. -/
namespace Pulpfs
open Overlay Function Transition Sessions

/-- The file is cut when it is opened. -/
def cutsFile (flags : UInt32) : Bool := isWritable flags && flags &&& oTrunc ≠ 0

def isAppend (flags : UInt32) : Bool := flags &&& oAppend ≠ 0

section Events

variable {ι : Type} (i : ι)

/-- What a request and the reply to it say. -/
def sessionEvent : Request → FuseReply → Event ι UInt64 UInt64 UInt8
  | .create _ _ _ _ _ fi, .create entry fi' =>
    .created i fi'.fh entry.ino (isWritable fi.flags) (isAppend fi.flags)
  | .create .., _ => .notCreated
  | .open ino fi, .open fi' =>
    .opened i fi'.fh ino (isWritable fi.flags) (isAppend fi.flags) (cutsFile fi.flags)
  | .open ino fi, _ => .notOpened ino (cutsFile fi.flags)
  | .opendir .., _ => .refused
  | .read _ size off fi, .buf bytes => .read i fi.fh off.toUInt64.toNat size.toNat bytes
  | .read _ _ _ fi, _ => .notRead i fi.fh
  | .write _ buf off fi, .write _ => .wrote i fi.fh off.toUInt64.toNat buf
  | .write .., _ => .refused
  | .flush _ fi, reply => .committed i fi.fh (reply = .ok)
  | .fsync _ _ fi, reply => .committed i fi.fh (reply = .ok)
  | .release _ fi, reply => .released i fi.fh (reply = .ok)
  | .releasedir _ fi, reply => .released i fi.fh (reply = .ok)

variable {i}

theorem sessionEvent_client {j : ι} {r : Request} {reply : FuseReply} {id : UInt64}
    (h : (sessionEvent i r reply).Opens j id) : i = j := by
  cases r with
  | create parent name mode uid gid fi =>
    cases reply with
    | create entry fi' => exact h.1
    | _ => exact h.elim
  | «open» ino fi =>
    cases reply with
    | «open» fi' => exact h.1
    | _ => exact h.elim
  | opendir ino fi => exact h.elim
  | read ino size off fi =>
    cases reply with
    | _ => exact h.elim
  | write ino buf off fi =>
    cases reply with
    | _ => exact h.elim
  | _ => exact h.elim

/-- What is opened is given the next number, and nothing else takes it. -/
theorem Mount.serve_opens {σ : Type} (b : Backend σ) (m : Mount σ) (i : ι) (r : Request) :
    ((m.serve b r).2.server.nextHandleId = m.server.nextHandleId ∧
      ∀ id, ¬ (sessionEvent i r (m.serve b r).1).Opens i id) ∨
    (m.serve b r).2.server.nextHandleId = m.server.nextHandleId + 1 ∧
      ∀ id, (sessionEvent i r (m.serve b r).1).Opens i id → id = m.server.nextHandleId := by
  have hcommit (id : UInt64) : (m.commit b id).2.server.nextHandleId = m.server.nextHandleId := by
    unfold Mount.commit
    split
    · rfl
    · rfl
  cases r with
  | create parent name mode uid gid fi =>
    simp only [serve, pulpfsCreate]
    split
    · exact .inl ⟨rfl, fun _ h => h⟩
    · exact .inr ⟨rfl, fun _ h => h.2.symm⟩
  | «open» ino fi =>
    simp only [serve, pulpfsOpen]
    split
    · exact .inl ⟨rfl, fun _ h => h⟩
    · exact .inr ⟨rfl, fun _ h => h.2.symm⟩
  | opendir ino fi =>
    left
    simp only [serve, pulpfsOpenDir]
    split
    · exact ⟨rfl, fun _ h => h⟩
    · split
      · exact ⟨rfl, fun _ h => h⟩
      · exact ⟨rfl, fun _ h => h⟩
  | read ino size off fi =>
    have hserver : (m.pulpfsRead b ino size off fi).2.server = m.server := by
      unfold pulpfsRead
      split
      · rfl
      · split
        · rfl
        · split <;> rfl
    refine .inl ⟨congrArg FuseServer.nextHandleId hserver, fun id => ?_⟩
    simp only [serve]
    cases (m.pulpfsRead b ino size off fi).1 with
    | _ => exact fun h => h
  | write ino buf off fi =>
    have hnext : (m.pulpfsWrite b ino buf off fi).2.server.nextHandleId =
        m.server.nextHandleId := by
      unfold pulpfsWrite
      split
      · rfl
      · split
        · rfl
        · split
          · rfl
          · simp only
            split
            · rfl
            · split <;> rfl
    refine .inl ⟨hnext, fun id => ?_⟩
    simp only [serve]
    cases (m.pulpfsWrite b ino buf off fi).1 with
    | _ => exact fun h => h
  | flush ino fi => exact .inl ⟨hcommit fi.fh, fun _ h => h⟩
  | fsync ino datasync fi => exact .inl ⟨hcommit fi.fh, fun _ h => h⟩
  | release ino fi => exact .inl ⟨hcommit fi.fh, fun _ h => h⟩
  | releasedir ino fi => exact .inl ⟨hcommit fi.fh, fun _ h => h⟩

end Events

/-- What is open at a mount. -/
def Mount.sessions (bucket : Bytes) (m : Mount World) (id : UInt64) :
    Option (Opened UInt64 UInt8) := (m.server.getFileHandle id).map (m.world.session bucket)

variable {bucket : Bytes} {m : Mount World} {w : World} {server : FuseServer}

theorem Mount.Backed.sessions_set (hm : m.Backed bucket) (hk : m.world.ObjectsKept w)
    (id : UInt64) (o : Option FuseFileHandle)
    (hserver : ∀ id', server.getFileHandle id' = update m.server.getFileHandle id o id') :
    Mount.sessions bucket ⟨server, w⟩ =
      update (m.sessions bucket) id (o.map (w.session bucket)) := by
  funext id'
  unfold Mount.sessions
  rw [hserver]
  by_cases hid : id' = id
  · rw [hid, update_self, update_self]
  · rw [update_of_ne hid, update_of_ne hid]
    cases hget : m.server.getFileHandle id' with
    | none => rfl
    | some h => exact congrArg some ((hm.backs hget).session_kept hk)

theorem Mount.Backed.sessions_same (hm : m.Backed bucket) (hk : m.world.ObjectsKept w)
    (hserver : server.getFileHandle = m.server.getFileHandle) :
    Mount.sessions bucket ⟨server, w⟩ = m.sessions bucket := by
  funext id
  unfold Mount.sessions
  rw [hserver]
  cases hget : m.server.getFileHandle id with
  | none => rfl
  | some h => exact congrArg some ((hm.backs hget).session_kept hk)

theorem FuseServer.getFileHandle_set (server : FuseServer) (id : UInt64) (h : FuseFileHandle) :
    (server.setFileHandle id h).getFileHandle = update server.getFileHandle id (some h) := by
  funext id'
  by_cases hid : id' = id
  · rw [hid, getFileHandle_setFileHandle_self, update_self]
  · rw [getFileHandle_setFileHandle h hid, update_of_ne hid]

theorem FuseServer.getFileHandle_release (server : FuseServer) (id : UInt64) :
    (server.releaseFileHandle id).getFileHandle = update server.getFileHandle id none := by
  funext id'
  unfold getFileHandle releaseFileHandle
  rw [Std.ExtTreeMap.getElem?_erase]
  by_cases hid : id' = id
  · subst hid
    simp
  · rw [update_of_ne hid, if_neg]
    simpa using Ne.symm hid

section Opens

variable [OffsetSort]

/-- Only one file is cut. -/
theorem World.files_cut (hs : w.service.state.Consistent) {i : UInt64} {r : Bytes}
    (hr : w.files bucket i = some r) :
    (w.applied (.truncate i 0)).files bucket = update (w.files bucket) i (some []) := by
  have hc : (Command.truncate i 0).written = some i := rfl
  funext f
  by_cases hf : f = i
  · subst hf
    have hcontents := hs.contents_written (w.clocks w.calls) hc rfl trivial
    rw [← w.applied_state] at hcontents
    rw [update_self]
    unfold files at hr ⊢
    rw [hcontents]
    cases hbefore : w.service.state.contents f with
    | none =>
      rw [hbefore] at hr
      contradiction
    | some r =>
      simp only [Option.map_some, Command.onReference, if_true]
      rfl
  · have hview := (w.service.state.execute_wrote (w.clocks w.calls) hc).view hf
    rw [← w.applied_state] at hview
    rw [update_of_ne hf]
    exact congrArg (fun v => (FileView.contents v).map fun r => r.bytes (w.byteAt bucket) 0) hview

variable (bucket) in
/-- A creation is refused, or adds one empty file. -/
theorem World.files_created (hs : w.service.state.Consistent) (parent : UInt64) (name : Bytes)
    (mode uid gid : UInt32) :
    (∃ e, (w.service.state.execute (w.clocks w.calls)
        (.createFile parent name mode uid gid)).1 = .error e) ∧
        (w.applied (.createFile parent name mode uid gid)).files bucket = w.files bucket ∨
      ∃ attrs, (w.service.state.execute (w.clocks w.calls)
          (.createFile parent name mode uid gid)).1 = .ok (.attrs attrs) ∧
        w.files bucket attrs.inodeId = none ∧
        (w.applied (.createFile parent name mode uid gid)).files bucket =
          update (w.files bucket) attrs.inodeId (some []) := by
  have hstate := w.applied_state (.createFile parent name mode uid gid)
  rcases MetaState.createNode_names (w.clocks w.calls) parent name .file mode uid gid
    hs.coherent.names with ⟨e, hr⟩ | ⟨attrs, s', hr, -⟩
  · left
    have hfail : w.service.state.execute (w.clocks w.calls) (.createFile parent name mode uid gid)
        = (.error e, w.service.state) := by
      simp only [MetaState.execute, MetaState.createFile, hr, MetaState.Result.map, Outcome.map]
    rw [hfail] at hstate ⊢
    refine ⟨⟨e, rfl⟩, ?_⟩
    unfold files
    rw [hstate]
    rfl
  · right
    have hok : (w.service.state.execute (w.clocks w.calls)
        (.createFile parent name mode uid gid)).1 = .ok (.attrs attrs) := by
      simp only [MetaState.execute, MetaState.createFile, hr, MetaState.Result.map, Outcome.map]
    obtain ⟨hnone, hafter⟩ := hs.createFile (w.clocks w.calls) hok
    rw [← hstate] at hafter
    refine ⟨attrs, hok, congrArg (Option.map _) hnone, funext fun f => ?_⟩
    unfold files
    rw [hafter]
    by_cases hf : f = attrs.inodeId
    · subst hf
      rw [update_self, update_self]
      rfl
    · rw [update_of_ne hf, update_of_ne hf]
      rfl

theorem MetaState.Consistent.created (hs : w.service.state.Consistent)
    (hsmall : w.service.state.Small) (parent : UInt64) (name : Bytes) (mode uid gid : UInt32) :
    (w.applied (.createFile parent name mode uid gid)).service.state.Consistent := by
  rw [w.applied_state]
  exact hs.execute _ rfl (fun f hf => trivial) hsmall.room

theorem World.getLayout_cases (w : World) (i : UInt64) :
    (∃ e, World.metaClient.getLayout i w = (.error e, w.count)) ∨
      ∃ l, w.service.state.getLayout i = .ok l ∧
        World.metaClient.getLayout i w = (.ok l, w.count) := by
  have hworld : (World.metaClient.getLayout i w).2 = w.count := w.query_world _
  rcases he : World.metaClient.getLayout i w with ⟨r, w'⟩
  rw [he] at hworld
  obtain rfl := hworld
  cases r with
  | error e => exact .inl ⟨e, rfl⟩
  | ok l => exact .inr ⟨l, World.query_ok (congrArg Prod.fst he), rfl⟩

theorem MetaState.Consistent.truncated (hs : w.service.state.Consistent)
    (hsmall : w.service.state.Small) (i : UInt64) :
    (w.applied (.truncate i 0)).service.state.Consistent := by
  rw [w.applied_state]
  exact hs.execute _ rfl (fun f hf => trivial) hsmall.room

theorem World.propose_ends {α : Type} (w : World) (c : Command)
    (read : RaftCommandResponse → Except Error α) :
    (∃ e, w.propose c read = (.error e, w.count)) ∨
      ∃ result, w.propose c read = (result, w.applied c) := by
  cases hd : (w.deliveries w.calls).isApplied with
  | false =>
    obtain ⟨status, hstatus⟩ := World.exists_of_not_applied hd
    exact .inl ⟨_, World.propose_notApplied hstatus⟩
  | true => exact .inr (World.propose_applied hd)

/-- The worlds an open leaves, and the layout it starts from. -/
theorem World.openLayout_cases (w : World) (ino : UInt64) (flags : UInt32) :
    (∃ errno, openLayout World.metaClient ino flags w = (.error errno, w.count)) ∨
    ∃ l, w.service.state.getLayout ino = .ok l ∧
      (cutsFile flags = false ∧ openLayout World.metaClient ino flags w = (.ok l, w.count) ∨
      cutsFile flags = true ∧
        ((∃ errno, openLayout World.metaClient ino flags w = (.error errno, w.count.count)) ∨
        (∃ errno w', openLayout World.metaClient ino flags w = (.error errno, w') ∧
          (w' = w.count.applied (.truncate ino 0) ∨
            w' = (w.count.applied (.truncate ino 0)).count)) ∨
        ∃ l', (w.count.applied (.truncate ino 0)).service.state.getLayout ino = .ok l' ∧
          openLayout World.metaClient ino flags w =
            (.ok l', (w.count.applied (.truncate ino 0)).count))) := by
  rcases w.getLayout_cases ino with ⟨e, hget⟩ | ⟨l, hl, hget⟩
  · left
    simp only [openLayout, hget]
    exact ⟨_, rfl⟩
  by_cases htype : l.attrs.type ≠ .file
  · left
    simp only [openLayout, hget, if_pos htype]
    exact ⟨_, rfl⟩
  refine .inr ⟨l, hl, ?_⟩
  cases hcut : cutsFile flags with
  | false =>
    unfold cutsFile at hcut
    have hcut : ¬ (isWritable flags && decide (flags &&& oTrunc ≠ 0)) = true := by
      rw [hcut]
      exact Bool.false_ne_true
    simp only [openLayout, hget, if_neg htype, if_neg hcut]
    exact .inl ⟨trivial, trivial⟩
  | true =>
    unfold cutsFile at hcut
    refine .inr ⟨rfl, ?_⟩
    rcases w.count.propose_ends (.truncate ino 0) RaftCommandResponse.inodeResult with
      ⟨e, hcall⟩ | ⟨result, hcall⟩
    · left
      have hcall : World.metaClient.truncate ino 0 w.count = _ := hcall
      simp only [openLayout, hget, if_neg htype, if_pos hcut, hcall]
      exact ⟨_, rfl⟩
    · right
      have hcall : World.metaClient.truncate ino 0 w.count = _ := hcall
      cases result with
      | error e =>
        left
        simp only [openLayout, hget, if_neg htype, if_pos hcut, hcall]
        exact ⟨_, _, rfl, .inl rfl⟩
      | ok a =>
        rcases (w.count.applied (.truncate ino 0)).getLayout_cases ino with
          ⟨e, hagain⟩ | ⟨l', hl', hagain⟩
        · left
          simp only [openLayout, hget, if_neg htype, if_pos hcut, hcall, hagain]
          exact ⟨_, _, rfl, .inr rfl⟩
        · right
          simp only [openLayout, hget, if_neg htype, if_pos hcut, hcall, hagain]
          exact ⟨l', hl', rfl⟩

variable (bucket) in
/-- The handle on a new file, once its layout has been got or not. -/
theorem World.refreshLayout_created (hs : w.service.state.Consistent) {h : FuseFileHandle}
    (hlayout : h.layout = {}) (hidle : h.emptied = h)
    (hfile : w.files bucket h.inodeId = some []) :
    w.session bucket (refreshLayout World.metaClient h w).1 =
        { file := h.inodeId, writable := h.writable, append := h.append, seen := [] } ∧
      (refreshLayout World.metaClient h w).2 = w.count ∧
      (w.service.state.Small → (refreshLayout World.metaClient h w).1.Ready) := by
  have hextents : h.pendingExtents = [] := (congrArg FuseFileHandle.pendingExtents hidle).symm
  have happends : h.pendingAppendExtents = [] :=
    (congrArg FuseFileHandle.pendingAppendExtents hidle).symm
  have hlength : h.pendingAppendLength = 0 :=
    (congrArg FuseFileHandle.pendingAppendLength hidle).symm
  rcases w.refreshLayout_cases h with hkept | ⟨l, hl, hgot⟩
  · rw [hkept]
    refine ⟨?_, rfl, fun _ => ?_⟩
    · simp only [session, queue, hextents, happends, hlayout, List.map_nil, List.append_nil]
      rfl
    · refine FuseFileHandle.ready_of_empty ?_ ?_ hextents happends hlength
      · rw [hlayout]
        exact fun _ _ => rfl
      · rw [hlayout]
        decide
  · rw [hgot]
    refine ⟨?_, rfl, fun hsmall => ?_⟩
    · have hseen : some (l.file.bytes (w.byteAt bucket) 0) = some [] :=
        (congrArg (Option.map _) (hs.contents_of_getLayout hl).1).symm.trans hfile
      simp only [session, queue, hextents, happends, List.map_nil, List.append_nil,
        Option.some.inj hseen]
    · obtain ⟨-, hconfined, hsize⟩ := hs.getLayout_spec hsmall hl
      exact FuseFileHandle.ready_of_empty hconfined hsize hextents happends hlength

end Opens

/-- What a mount relies on: everything referred to is stored, the service is in a consistent state
and the handles can be committed. -/
structure Mount.Sound (bucket : Bytes) (m : Mount World) : Prop where
  bucket_eq : m.server.config.bucket = bucket
  backed : m.Backed bucket
  sound : m.world.service.state.Consistent
  small : m.world.service.state.Small
  ready : ∀ id h, m.server.getFileHandle id = some h → h.Ready

/-- Reads and writes lie where offsets of files can be, and a write has something to write. -/
def Mount.Fits (m : Mount World) : Request → Prop
  | .read _ size off _ => size.toNat < 2 ^ 63 ∧ 0 ≤ off
  | .write _ buf off fi => ∀ h, m.server.getFileHandle fi.fh = some h →
    buf ≠ [] ∧ (h.writeOffset off).toNat + buf.length < 2 ^ 63
  | _ => True

instance Mount.decidableFits (m : Mount World) (r : Request) : Decidable (m.Fits r) :=
  match r with
  | .read .. => inferInstanceAs (Decidable (_ ∧ _))
  | .write _ buf off fi =>
    @decidable_of_iff _ (∀ h ∈ m.server.getFileHandle fi.fh,
      buf ≠ [] ∧ (h.writeOffset off).toNat + buf.length < 2 ^ 63) Iff.rfl
      (Option.decidableForallMem _)
  | .create .. => .isTrue trivial
  | .open .. => .isTrue trivial
  | .opendir .. => .isTrue trivial
  | .flush .. => .isTrue trivial
  | .fsync .. => .isTrue trivial
  | .release .. => .isTrue trivial
  | .releasedir .. => .isTrue trivial

section Steps

variable {ι : Type} [DecidableEq ι] (bucket) (a : State ι UInt64 UInt64 UInt8) (i : ι)

/-- The state with what a mount has open and sees. -/
def Mount.within (m : Mount World) : State ι UInt64 UInt64 UInt8 :=
  ⟨m.world.files bucket, update a.sessions i (m.sessions bucket)⟩

/-- The mount `m'` is where the event leads. -/
structure Mount.Leads (event : Event ι UInt64 UInt64 UInt8) (m' : Mount World) : Prop where
  step : Step 0 a event (m'.within bucket a i)
  sound : m'.world.service.state.Consistent
  ready : m'.world.service.state.Small → ∀ id h, m'.server.getFileHandle id = some h → h.Ready

namespace Mount.Sound

variable {bucket a i} (hm : m.Sound bucket) (hfiles : a.files = m.world.files bucket)
  (hsessions : a.sessions i = m.sessions bucket)
include hm hsessions

theorem within_same (hserver : server.getFileHandle = m.server.getFileHandle)
    (hk : m.world.ObjectsKept w) :
    Mount.within bucket a i ⟨server, w⟩ = { a with files := w.files bucket } := by
  unfold Mount.within
  rw [hm.backed.sessions_same hk hserver, ← hsessions, update_eq_self]

theorem within_set (hk : m.world.ObjectsKept w) (id : UInt64) (o : Option FuseFileHandle)
    (hserver : ∀ id', server.getFileHandle id' = update m.server.getFileHandle id o id') :
    Mount.within bucket a i ⟨server, w⟩ =
      State.put { a with files := w.files bucket } i id (o.map (w.session bucket)) := by
  unfold Mount.within State.put
  rw [hm.backed.sessions_set hk id o hserver, hsessions]

/-- The handles are as they were. -/
theorem leads_same {event : Event ι UInt64 UInt64 UInt8}
    (hserver : server.getFileHandle = m.server.getFileHandle) (hk : m.world.ObjectsKept w)
    (hstep : Step 0 a event { a with files := w.files bucket })
    (hsound : w.service.state.Consistent) : Mount.Leads bucket a i event ⟨server, w⟩ := by
  refine ⟨?_, hsound, fun _ => ?_⟩
  · rw [hm.within_same hsessions hserver hk]
    exact hstep
  · rw [hserver]
    exact hm.ready

/-- A handle has been put in the table. -/
theorem leads_set {event : Event ι UInt64 UInt64 UInt8} (hk : m.world.ObjectsKept w) (id : UInt64)
    {h : FuseFileHandle}
    (hserver : ∀ id', server.getFileHandle id' = update m.server.getFileHandle id (some h) id')
    (hstep : Step 0 a event
      (State.put { a with files := w.files bucket } i id (some (w.session bucket h))))
    (hsound : w.service.state.Consistent) (hready : w.service.state.Small → h.Ready) :
    Mount.Leads bucket a i event ⟨server, w⟩ := by
  refine ⟨?_, hsound, fun hsmall id' h' hget => ?_⟩
  · rw [hm.within_set hsessions hk id (some h) hserver]
    exact hstep
  · rw [hserver] at hget
    by_cases hid : id' = id
    · rw [hid, update_self] at hget
      exact Option.some.inj hget ▸ hready hsmall
    · rw [update_of_ne hid] at hget
      exact hm.ready id' h' hget

section Requests

variable [OffsetSort]
include hfiles

theorem pulpfsCreate (parent : UInt64) (name : Bytes) (mode uid gid : UInt32)
    (fi : FuseFileInfo) :
    Mount.Leads bucket a i
      (sessionEvent i (.create parent name mode uid gid fi)
        (m.pulpfsCreate World.backend parent name mode uid gid fi).1)
      (m.pulpfsCreate World.backend parent name mode uid gid fi).2 := by
  have hcreated := World.files_created bucket hm.sound parent name (mode &&& kModeMask)
    uid gid
  have hsound := hm.sound.created hm.small parent name (mode &&& kModeMask) uid gid
  unfold Mount.pulpfsCreate
  rcases m.world.propose_ends (.createFile parent name (mode &&& kModeMask) uid gid)
    RaftCommandResponse.inodeResult with ⟨e, hcall⟩ | ⟨result, hcall⟩
  · have hcall : World.backend.metaClient.createFile parent name (mode &&& kModeMask) uid gid
        m.world = _ := hcall
    simp only [hcall]
    refine hm.leads_same hsessions rfl (fun _ _ hk => hk) ?_ hm.sound
    exact hfiles ▸ .notCreated
  · have hcall' : World.backend.metaClient.createFile parent name (mode &&& kModeMask) uid gid
        m.world = _ := hcall
    simp only [hcall']
    cases result with
    | error e =>
      refine hm.leads_same hsessions rfl (fun _ _ hk => hk) ?_ hsound
      rcases hcreated with ⟨-, hsame⟩ | ⟨attrs, -, hnone, hafter⟩
      · rw [hsame, ← hfiles]
        exact .notCreated
      · rw [hafter, ← hfiles]
        exact .halfCreated (hfiles ▸ hnone)
    | ok attrs =>
      have hexecuted := congrArg Prod.fst (World.propose_inodeResult_ok hcall)
      rcases hcreated with ⟨⟨e, he⟩, -⟩ | ⟨attrs', hattrs, hnone, hafter⟩
      · rw [he] at hexecuted
        contradiction
      · obtain rfl : attrs' = attrs := by simpa using hattrs.symm.trans hexecuted
        have hfile : (m.world.applied (.createFile parent name (mode &&& kModeMask) uid
            gid)).files bucket attrs'.inodeId = some [] := by rw [hafter, update_self]
        obtain ⟨hsession, hworld, hready⟩ := World.refreshLayout_created bucket hsound
          (h := { inodeId := attrs'.inodeId, writable := isWritable fi.flags
                  append := isAppend fi.flags }) rfl rfl hfile
        rcases hrefreshed : refreshLayout World.metaClient
          { inodeId := attrs'.inodeId, writable := isWritable fi.flags
            append := isAppend fi.flags }
          (m.world.applied (.createFile parent name (mode &&& kModeMask) uid gid)) with ⟨h, w'⟩
        rw [hrefreshed] at hsession hworld hready
        obtain rfl := hworld
        have hrefreshed' : refreshLayout World.backend.metaClient
          { inodeId := attrs'.inodeId, writable := isWritable fi.flags
            append := decide (fi.flags &&& oAppend ≠ 0) }
          (m.world.applied (.createFile parent name (mode &&& kModeMask) uid gid)) = _ := hrefreshed
        simp only [hrefreshed']
        refine hm.leads_set hsessions (fun _ _ hk => hk) m.server.nextHandleId (h := h)
          (fun id => congrFun (m.server.getFileHandle_set _ h) id) ?_ hsound hready
        have hsession' : (m.world.applied (.createFile parent name (mode &&& kModeMask) uid
          gid)).count.session bucket h = _ := hsession
        have hafter' : (m.world.applied (.createFile parent name (mode &&& kModeMask) uid
          gid)).count.files bucket = _ := hafter
        rw [hsession', hafter', ← hfiles]
        exact .created (hfiles ▸ hnone)

theorem pulpfsOpen (ino : UInt64) (fi : FuseFileInfo) :
    Mount.Leads bucket a i (sessionEvent i (.open ino fi) (m.pulpfsOpen World.backend ino fi).1)
      (m.pulpfsOpen World.backend ino fi).2 := by
  have hfailed {errno : Errno} {w : World}
      (he : openLayout World.metaClient ino fi.flags m.world = (.error errno, w))
      (hkept : m.world.ObjectsKept w)
      (hstep : Step 0 a (.notOpened ino (cutsFile fi.flags)) { a with files := w.files bucket })
      (hsound : w.service.state.Consistent) :
      Mount.Leads bucket a i (sessionEvent i (.open ino fi) (m.pulpfsOpen World.backend ino fi).1)
        (m.pulpfsOpen World.backend ino fi).2 := by
    have he : openLayout World.backend.metaClient ino fi.flags m.world = _ := he
    simp only [Mount.pulpfsOpen, he]
    exact hm.leads_same hsessions rfl hkept hstep hsound
  have hopened {l : FileLayout} {w : World} {r : Bytes}
      (he : openLayout World.metaClient ino fi.flags m.world = (.ok l, w))
      (hkept : m.world.ObjectsKept w) (hsound : w.service.state.Consistent)
      (hl : w.service.state.getLayout ino = .ok l) (hr : w.files bucket ino = some r)
      (hstep : Step 0 a (.opened i m.server.nextHandleId ino (isWritable fi.flags)
          (isAppend fi.flags) (cutsFile fi.flags))
        (State.put { a with files := w.files bucket } i m.server.nextHandleId
          (some ⟨ino, isWritable fi.flags, isAppend fi.flags, r, []⟩))) :
      Mount.Leads bucket a i (sessionEvent i (.open ino fi) (m.pulpfsOpen World.backend ino fi).1)
        (m.pulpfsOpen World.backend ino fi).2 := by
    have he : openLayout World.backend.metaClient ino fi.flags m.world = _ := he
    have hseen : l.file.bytes (w.byteAt bucket) 0 = r :=
      Option.some.inj ((congrArg (Option.map _) (hsound.contents_of_getLayout hl).1).symm.trans hr)
    simp only [Mount.pulpfsOpen, he]
    refine hm.leads_set hsessions hkept m.server.nextHandleId
      (fun id => congrFun (m.server.getFileHandle_set _ _) id) ?_ hsound fun hsmall => ?_
    · simp only [World.session, World.queue, hseen]
      exact hstep
    · obtain ⟨-, hconfined, hlt⟩ := hsound.getLayout_spec hsmall hl
      exact FuseFileHandle.ready_of_empty hconfined hlt rfl rfl rfl
  have hcut := hm.sound.truncated (w := m.world.count) hm.small ino
  rcases m.world.openLayout_cases ino fi.flags with ⟨errno, he⟩ | ⟨l, hl, hends⟩
  · exact hfailed he (fun _ _ hk => hk) (hfiles ▸ .notOpened) hm.sound
  obtain ⟨r, hr⟩ : ∃ r, m.world.files bucket ino = some r :=
    ⟨_, congrArg (Option.map _) (hm.sound.contents_of_getLayout hl).1⟩
  have hcutFiles := World.files_cut (w := m.world.count) hm.sound hr
  have hcutFile : (m.world.count.applied (.truncate ino 0)).files bucket ino = some [] := by
    rw [hcutFiles, update_self]
  rcases hends with ⟨hno, he⟩ | ⟨hyes, ⟨errno, he⟩ | ⟨errno, w, he, hw⟩ | ⟨l', hl', he⟩⟩
  · refine hopened he (fun _ _ hk => hk) hm.sound hl hr ?_
    rw [hno]
    exact hfiles ▸ .opened (hfiles ▸ hr)
  · exact hfailed he (fun _ _ hk => hk) (hfiles ▸ .notOpened) hm.sound
  · have hstep : Step 0 a (.notOpened ino (cutsFile fi.flags))
        { a with files := (m.world.count.applied (.truncate ino 0)).files bucket } := by
      have hsame : m.world.count.files bucket = a.files := hfiles.symm
      rw [hcutFiles, hyes, hsame]
      exact .halfOpened (hfiles ▸ hr)
    rcases hw with rfl | rfl
    · exact hfailed he (fun _ _ hk => hk) hstep hcut
    · exact hfailed he (fun _ _ hk => hk) hstep hcut
  · refine hopened he (fun _ _ hk => hk) hcut hl' hcutFile ?_
    have hsame : m.world.count.files bucket = a.files := hfiles.symm
    have hcutFiles' : (m.world.count.applied (.truncate ino 0)).count.files bucket = _ := hcutFiles
    rw [hcutFiles', hyes, hsame]
    exact .openedCut (hfiles ▸ hr)

theorem pulpfsOpenDir (ino : UInt64) (fi : FuseFileInfo) :
    Mount.Leads bucket a i
      (sessionEvent i (.opendir ino fi) (m.pulpfsOpenDir World.backend ino fi).1)
      (m.pulpfsOpenDir World.backend ino fi).2 := by
  have hworld : (World.backend.metaClient.getAttr ino m.world).2 = m.world.count :=
    m.world.query_world _
  have hcounted : Mount.Leads bucket a i (.refused) ⟨m.server, m.world.count⟩ :=
    hm.leads_same hsessions rfl (fun _ _ hk => hk) (hfiles ▸ .refused) hm.sound
  unfold Mount.pulpfsOpenDir
  rcases he : World.backend.metaClient.getAttr ino m.world with ⟨r, w⟩
  rw [he] at hworld
  obtain rfl := hworld
  cases r with
  | error e => exact hcounted
  | ok attrs =>
    dsimp only
    split
    · exact hcounted
    · exact hcounted

theorem pulpfsRead (ino : UInt64) {size : UInt64} {off : Int64} (fi : FuseFileInfo)
    (hsize : size.toNat < 2 ^ 63) (hoff : 0 ≤ off) :
    Mount.Leads bucket a i
      (sessionEvent i (.read ino size off fi) (m.pulpfsRead World.backend ino size off fi).1)
      (m.pulpfsRead World.backend ino size off fi).2 := by
  cases hget : m.server.getFileHandle fi.fh with
  | none =>
    have hnone : a.sessions i fi.fh = none := by
      rw [hsessions, Mount.sessions, hget]
      rfl
    unfold Mount.pulpfsRead
    rw [hget]
    exact hm.leads_same hsessions rfl (fun _ _ hk => hk) (hfiles ▸ .notRead hnone) hm.sound
  | some h =>
    have hready := hm.ready _ h hget
    have hbacks := hm.backed.backs hget
    rw [← hm.bucket_eq] at hbacks
    have hsome : a.sessions i fi.fh = some (m.world.session bucket h) := by
      rw [hsessions, Mount.sessions, hget]
      rfl
    rw [pulpfsRead_held hget hready.pendingInRange hbacks.layout hbacks.extents hbacks.appends ino
      hsize hoff, hm.bucket_eq, hready.bytes_visible]
    exact hm.leads_same hsessions rfl (fun _ _ hk => hk) (hfiles ▸ .read hsome) hm.sound

theorem pulpfsWrite (ino : UInt64) {buf : Bytes} {off : Int64} (fi : FuseFileInfo)
    (hkept : m.world.ObjectsKept (m.pulpfsWrite World.backend ino buf off fi).2.world)
    (hfits : ∀ h, m.server.getFileHandle fi.fh = some h →
      buf ≠ [] ∧ (h.writeOffset off).toNat + buf.length < 2 ^ 63) :
    Mount.Leads bucket a i
      (sessionEvent i (.write ino buf off fi) (m.pulpfsWrite World.backend ino buf off fi).1)
      (m.pulpfsWrite World.backend ino buf off fi).2 := by
  cases hget : m.server.getFileHandle fi.fh with
  | none =>
    unfold Mount.pulpfsWrite
    rw [hget]
    exact hm.leads_same hsessions rfl (fun _ _ hk => hk) (hfiles ▸ .refused) hm.sound
  | some h =>
    obtain ⟨hne, hlt⟩ := hfits h hget
    rcases pulpfsWrite_cases hget ino buf off with ⟨errno, he⟩ | ⟨errno, w, he, hw⟩ |
      ⟨extent, hext, hwritable, he⟩
    · rw [he]
      exact hm.leads_same hsessions rfl (fun _ _ hk => hk) (hfiles ▸ .refused) hm.sound
    · rw [he] at hkept ⊢
      have hservice : w.service = m.world.service := by
        rcases hw with rfl | rfl
        · rfl
        · rfl
      have hsame : w.files bucket = a.files := by
        rw [hfiles]
        exact funext fun f =>
          hm.backed.world.files_kept hkept (congrArg (fun s => s.state.contents f) hservice)
      refine hm.leads_same hsessions rfl hkept ?_ (hservice ▸ hm.sound)
      rw [hsame]
      exact .refused
    · rw [he] at hkept ⊢
      have hlen : buf.length < 2 ^ 64 := by omega
      have hbacks := hm.backed.backs hget
      have hready := hm.ready _ h hget
      rw [← hm.bucket_eq] at hbacks
      have hsome : a.sessions i fi.fh = some (m.world.session bucket h) := by
        rw [hsessions, Mount.sessions, hget]
        rfl
      have hsame : (m.world.store (m.upload ino (h.writeOffset off) buf)).files bucket =
          a.files := by
        rw [hfiles]
        exact funext fun f => hm.backed.world.files_kept hkept rfl
      refine hm.leads_set hsessions hkept fi.fh
        (fun id => congrFun (FuseServer.getFileHandle_set _ _ _) id) ?_ hm.sound
        fun _ => hready.queue hext hne hlt
      have hqueue := hready.session_queue hbacks hext hlen hkept
      rw [hm.bucket_eq] at hqueue
      rw [hqueue, hsame]
      exact .wrote hsome hwritable

omit [DecidableEq ι] in
/-- What a commit by handle number does. -/
theorem commit (id : UInt64) :
    (m.server.getFileHandle id = none ∧ m.commit World.backend id = (.ok (), m)) ∨
    ∃ h h' result w, m.server.getFileHandle id = some h ∧
      m.commit World.backend id = (result, ⟨m.server.setFileHandle id h', w⟩) ∧
      a.sessions i id = some (m.world.session bucket h) ∧
      Commits 0 (m.world.session bucket h) (a.files h.inodeId) result.isOk
        (w.files bucket h.inodeId) (w.session bucket h') ∧
      w.files bucket = update a.files h.inodeId (w.files bucket h.inodeId) ∧
      m.world.ObjectsKept w ∧ w.service.state.Consistent ∧ (w.service.state.Small → h'.Ready) := by
  cases hget : m.server.getFileHandle id with
  | none =>
    left
    unfold Mount.commit
    rw [hget]
    exact ⟨rfl, rfl⟩
  | some h =>
    right
    obtain ⟨hcommits, hother, hsound, hready⟩ := (hm.ready _ h hget).commits bucket
      hm.sound hm.small
    have hobjects := backend_moves.commitHandle h m.world
    refine ⟨h, _, _, _, rfl, Mount.commit_of_get hget, ?_, ?_, ?_, ?_, hsound, hready⟩
    · rw [hsessions, Mount.sessions, hget]
      rfl
    · rw [hfiles]
      exact hcommits
    · funext f
      by_cases hf : f = h.inodeId
      · rw [hf, update_self]
      · rw [update_of_ne hf, hfiles]
        exact hother f hf
    · exact fun k body hk => (congrFun hobjects k).trans hk

omit [OffsetSort] hm hfiles hsessions in
theorem isOk_replyOf (result : Except Error Unit) :
    decide (Mount.replyOf result = .ok) = result.isOk := by
  cases result with
  | ok u => rfl
  | error e => rfl

theorem pulpfsFlush (id : UInt64) :
    Mount.Leads bucket a i
      (.committed i id (Mount.replyOf (m.commit World.backend id).1 = .ok))
      (m.commit World.backend id).2 := by
  rw [isOk_replyOf]
  rcases hm.commit hfiles hsessions id with ⟨hnone, he⟩ | ⟨h, h', result, w, hget, he, hsome,
    hcommits, hafter, hk, hsound, hready⟩
  · rw [he]
    refine hm.leads_same hsessions rfl (fun _ _ hk => hk) (hfiles ▸ .notCommitted ?_) hm.sound
    rw [hsessions, Mount.sessions, hnone]
    rfl
  · rw [he]
    refine hm.leads_set hsessions hk id (fun _ => congrFun (m.server.getFileHandle_set _ _) _) ?_
      hsound hready
    rw [hafter]
    exact .committed hsome hcommits

theorem pulpfsRelease (id : UInt64) :
    Mount.Leads bucket a i
      (.released i id (Mount.replyOf (m.commit World.backend id).1 = .ok))
      ⟨(m.commit World.backend id).2.server.releaseFileHandle id,
        (m.commit World.backend id).2.world⟩ := by
  rw [isOk_replyOf]
  rcases hm.commit hfiles hsessions id with ⟨hnone, he⟩ | ⟨h, h', result, w, hget, he, hsome,
    hcommits, hafter, hk, hsound, hready⟩
  · rw [he]
    have hserver : (m.server.releaseFileHandle id).getFileHandle = m.server.getFileHandle := by
      rw [FuseServer.getFileHandle_release, ← hnone, update_eq_self]
    refine hm.leads_same hsessions hserver (fun _ _ hk => hk) (hfiles ▸ .notReleased ?_) hm.sound
    rw [hsessions, Mount.sessions, hnone]
    rfl
  · rw [he]
    have hserver : ((m.server.setFileHandle id h').releaseFileHandle id).getFileHandle =
        update m.server.getFileHandle id none := by
      rw [FuseServer.getFileHandle_release, FuseServer.getFileHandle_set, update_idem]
    refine ⟨?_, hsound, fun hsmall id' h'' hget' => ?_⟩
    · rw [hm.within_set hsessions hk id none (congrFun hserver), hafter]
      exact .released hsome hcommits
    · rw [hserver] at hget'
      by_cases hid : id' = id
      · rw [hid, update_self] at hget'
        contradiction
      · rw [update_of_ne hid] at hget'
        exact hm.ready id' h'' hget'

/-- The step lemma for one mount. -/
theorem serve {r : Request} (hfits : m.Fits r)
    (hkept : m.world.ObjectsKept (m.serve World.backend r).2.world) :
    Mount.Leads bucket a i (sessionEvent i r (m.serve World.backend r).1)
      (m.serve World.backend r).2 := by
  cases r with
  | create parent name mode uid gid fi =>
    exact hm.pulpfsCreate hfiles hsessions parent name mode uid gid fi
  | «open» ino fi => exact hm.pulpfsOpen hfiles hsessions ino fi
  | opendir ino fi => exact hm.pulpfsOpenDir hfiles hsessions ino fi
  | read ino size off fi => exact hm.pulpfsRead hfiles hsessions ino fi hfits.1 hfits.2
  | write ino buf off fi => exact hm.pulpfsWrite hfiles hsessions ino fi hkept hfits
  | flush ino fi => exact hm.pulpfsFlush hfiles hsessions fi.fh
  | fsync ino datasync fi => exact hm.pulpfsFlush hfiles hsessions fi.fh
  | release ino fi => exact hm.pulpfsRelease hfiles hsessions fi.fh
  | releasedir ino fi => exact hm.pulpfsRelease hfiles hsessions fi.fh

end Requests

end Mount.Sound

end Steps

end Pulpfs
