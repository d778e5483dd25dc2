import Pulpfs.Fuse.World
import Pulpfs.Foundations.TreeMap
import Pulpfs.Foundations.Transition

/-! How long a file handle lives. The kernel keeps what each open stored in `fi->fh`, sends it
back with every request on that open and releases the open once. -/
namespace Pulpfs
open Transition

variable {σ : Type}

theorem toErrno_ne_ebadf (e : Error) : toErrno e ≠ .ebadf := by
  obtain ⟨kind, message⟩ := e
  cases kind <;> nofun

namespace Mount

variable {b : Backend σ} {m : Mount σ} {id : UInt64} (h : FuseFileHandle)

/-- Another handle in the place of the one under `id`. -/
def withHandle (m : Mount σ) (id : UInt64) (h : FuseFileHandle) : Mount σ :=
  { m with server := m.server.setFileHandle id h }

theorem withHandle_self {h : FuseFileHandle} (hget : m.server.getFileHandle id = some h) :
    m.withHandle id h = m := by
  rw [withHandle, FuseServer.setFileHandle_self hget]

theorem commit_withHandle {id' : UInt64} (hne : id' ≠ id) :
    (m.withHandle id h).commit b id' =
      ((m.commit b id').1, (m.commit b id').2.withHandle id h) := by
  unfold commit
  simp only [withHandle, FuseServer.getFileHandle_setFileHandle h hne]
  cases m.server.getFileHandle id' with
  | none => rfl
  | some handle => simp only [FuseServer.setFileHandle_comm h _ hne]

@[simp] theorem withHandle_world : (m.withHandle id h).world = m.world := rfl

@[simp] theorem withHandle_config : (m.withHandle id h).server.config = m.server.config := rfl

@[simp] theorem withHandle_nextObjectKey (ino off : UInt64) :
    (m.withHandle id h).server.nextObjectKey ino off = m.server.nextObjectKey ino off := rfl

@[simp] theorem withHandle_countObjectKey (ino off : UInt64) :
    (m.withHandle id h).server.countObjectKey ino off =
      (m.server.countObjectKey ino off).setFileHandle id h := rfl

/-- Where a request can meet the handle under `id`. -/
def Meets (m : Mount σ) (id : UInt64) : Request → Prop
  | .create .. => m.server.nextHandleId = id
  | .open .. => m.server.nextHandleId = id
  | .opendir .. => False
  | .read _ _ _ fi => fi.fh = id
  | .write _ _ _ fi => fi.fh = id
  | .flush _ fi => fi.fh = id
  | .fsync _ _ fi => fi.fh = id
  | .release _ fi => fi.fh = id
  | .releasedir _ fi => fi.fh = id

theorem pulpfsCreate_withHandle (hne : m.server.nextHandleId ≠ id) (parent : UInt64)
    (name : Bytes) (mode uid gid : UInt32) (fi : FuseFileInfo) :
    (m.withHandle id h).pulpfsCreate b parent name mode uid gid fi =
      ((m.pulpfsCreate b parent name mode uid gid fi).1,
        (m.pulpfsCreate b parent name mode uid gid fi).2.withHandle id h) := by
  unfold pulpfsCreate
  rw [withHandle_world]
  rcases b.metaClient.createFile parent name (mode &&& kModeMask) uid gid m.world with ⟨r, w⟩
  cases r with
  | error e => rfl
  | ok attrs =>
    have hne' : (m.server.rememberParent attrs.inodeId parent).nextHandleId ≠ id := hne
    exact congrArg (fun a : UInt64 × FuseServer => (_, Mount.mk a.2 _))
      (FuseServer.allocateFileHandle_setFileHandle h _ hne')

theorem pulpfsOpen_withHandle (hne : m.server.nextHandleId ≠ id) (ino : UInt64)
    (fi : FuseFileInfo) :
    (m.withHandle id h).pulpfsOpen b ino fi =
      ((m.pulpfsOpen b ino fi).1, (m.pulpfsOpen b ino fi).2.withHandle id h) := by
  unfold pulpfsOpen
  rw [withHandle_world]
  rcases openLayout b.metaClient ino fi.flags m.world with ⟨r, w⟩
  cases r with
  | error e => rfl
  | ok layout =>
    exact congrArg (fun a : UInt64 × FuseServer => (_, Mount.mk a.2 _))
      (FuseServer.allocateFileHandle_setFileHandle h _ hne)

theorem pulpfsOpenDir_withHandle (ino : UInt64) (fi : FuseFileInfo) :
    (m.withHandle id h).pulpfsOpenDir b ino fi =
      ((m.pulpfsOpenDir b ino fi).1, (m.pulpfsOpenDir b ino fi).2.withHandle id h) := by
  unfold pulpfsOpenDir
  rw [withHandle_world]
  rcases b.metaClient.getAttr ino m.world with ⟨r, w⟩
  cases r with
  | error e => rfl
  | ok attrs =>
    by_cases ht : attrs.type ≠ .directory
    · simp only [if_pos ht]
      rfl
    · simp only [if_neg ht]
      rfl

theorem pulpfsRead_withHandle {fi : FuseFileInfo} (hne : fi.fh ≠ id) (ino size : UInt64)
    (off : Int64) :
    (m.withHandle id h).pulpfsRead b ino size off fi =
      ((m.pulpfsRead b ino size off fi).1, (m.pulpfsRead b ino size off fi).2.withHandle id h) := by
  have hget : (m.withHandle id h).server.getFileHandle fi.fh = m.server.getFileHandle fi.fh :=
    FuseServer.getFileHandle_setFileHandle h hne
  unfold pulpfsRead
  rw [hget]
  cases m.server.getFileHandle fi.fh with
  | none => rfl
  | some handle =>
    cases b.objectStore with
    | none => rfl
    | some objectStore =>
      have hbucket : (m.withHandle id h).server.config.bucket = m.server.config.bucket := rfl
      simp only [withHandle_world, hbucket]
      rcases readFromHandle objectStore m.server.config.bucket handle size off m.world with
        ⟨r, w⟩
      cases r with
      | error e => rfl
      | ok data => rfl

theorem pulpfsWrite_withHandle {fi : FuseFileInfo} (hne : fi.fh ≠ id) (ino : UInt64)
    (buf : Bytes) (off : Int64) :
    (m.withHandle id h).pulpfsWrite b ino buf off fi =
      ((m.pulpfsWrite b ino buf off fi).1,
        (m.pulpfsWrite b ino buf off fi).2.withHandle id h) := by
  have hget : (m.withHandle id h).server.getFileHandle fi.fh = m.server.getFileHandle fi.fh :=
    FuseServer.getFileHandle_setFileHandle h hne
  unfold pulpfsWrite
  rw [hget]
  cases m.server.getFileHandle fi.fh with
  | none => rfl
  | some handle =>
    by_cases hw : (!handle.writable) = true
    · simp only [if_pos hw]
    · simp only [if_neg hw]
      cases b.objectStore with
      | none => rfl
      | some objectStore =>
        by_cases hb : m.server.config.bucket.isEmpty = true
        · have hb' : (m.withHandle id h).server.config.bucket.isEmpty = true := hb
          simp only [if_pos hb, if_pos hb']
        · have hb' : ¬ (m.withHandle id h).server.config.bucket.isEmpty = true := hb
          simp only [if_neg hb, if_neg hb']
          simp only [withHandle_config, withHandle_nextObjectKey, withHandle_countObjectKey,
            withHandle_world]
          rcases putExtent objectStore m.server.config.bucket _ buf _ m.world with ⟨r, w⟩
          cases r with
          | error e => rfl
          | ok extent =>
            simp only [FuseServer.setFileHandle_comm h _ hne, withHandle]

theorem pulpfsRelease_withHandle {fi : FuseFileInfo} (hne : fi.fh ≠ id) (ino : UInt64) :
    (m.withHandle id h).pulpfsRelease b ino fi =
      ((m.pulpfsRelease b ino fi).1, (m.pulpfsRelease b ino fi).2.withHandle id h) := by
  unfold pulpfsRelease
  rw [commit_withHandle h hne]
  simp only [withHandle, FuseServer.releaseFileHandle_comm h hne]

/-- A request that does not meet a handle runs the same with any other handle in its place. -/
theorem serve_withHandle {r : Request} (hne : ¬ m.Meets id r) :
    (m.withHandle id h).serve b r = ((m.serve b r).1, (m.serve b r).2.withHandle id h) := by
  cases r with
  | create parent name mode uid gid fi =>
    exact pulpfsCreate_withHandle h hne parent name mode uid gid fi
  | «open» ino fi => exact pulpfsOpen_withHandle h hne ino fi
  | opendir ino fi => exact pulpfsOpenDir_withHandle h ino fi
  | read ino size off fi => exact pulpfsRead_withHandle h hne ino size off
  | write ino buf off fi => exact pulpfsWrite_withHandle h hne ino buf off
  | flush ino fi => simp only [serve, pulpfsFlush, commit_withHandle h hne]
  | fsync ino datasync fi => simp only [serve, pulpfsFsync, commit_withHandle h hne]
  | release ino fi => exact pulpfsRelease_withHandle h hne ino
  | releasedir ino fi => exact pulpfsRelease_withHandle h hne ino

/-- So the handle is the same after it. -/
theorem serve_getFileHandle {h : FuseFileHandle} {r : Request} (hne : ¬ m.Meets id r)
    (hget : m.server.getFileHandle id = some h) :
    (m.serve b r).2.server.getFileHandle id = some h := by
  have hsame := congrArg (fun p => p.2.server.getFileHandle id) (serve_withHandle (b := b) h hne)
  rw [withHandle_self hget] at hsame
  exact hsame.trans (FuseServer.getFileHandle_setFileHandle_self h)

end Mount

/-- The part of a handle that no request changes. -/
structure FuseFileHandle.SameFile (h h' : FuseFileHandle) : Prop where
  inodeId : h'.inodeId = h.inodeId
  writable : h'.writable = h.writable
  append : h'.append = h.append

namespace FuseFileHandle

theorem SameFile.refl (h : FuseFileHandle) : h.SameFile h := ⟨rfl, rfl, rfl⟩

theorem SameFile.trans {h h' h'' : FuseFileHandle} (a : h.SameFile h') (b : h'.SameFile h'') :
    h.SameFile h'' :=
  ⟨b.inodeId.trans a.inodeId, b.writable.trans a.writable, b.append.trans a.append⟩

variable (client : MetaClient σ) (h : FuseFileHandle) (w : σ)

variable {h} in
theorem SameFile.refreshLayout {h' : FuseFileHandle} (hs : h.SameFile h') (w : σ) :
    h.SameFile (refreshLayout client h' w).1 := by
  unfold Pulpfs.refreshLayout
  split
  · exact ⟨hs.inodeId, hs.writable, hs.append⟩
  · exact hs

theorem sameFile_commitExtents : h.SameFile (commitExtents client h w).2.1 := by
  unfold commitExtents
  split
  · exact .refl h
  · split
    · exact .refl h
    · refine SameFile.refreshLayout client ?_ _
      exact ⟨rfl, rfl, rfl⟩

theorem sameFile_commitAppends : h.SameFile (commitAppends client h w).2.1 := by
  unfold commitAppends
  split
  · exact .refl h
  · split
    · exact .refl h
    · refine SameFile.refreshLayout client ?_ _
      exact ⟨rfl, rfl, rfl⟩

theorem sameFile_commitHandle : h.SameFile (commitHandle client h w).2.1 := by
  have hext := sameFile_commitExtents client h w
  unfold commitHandle
  split
  next he => exact he ▸ hext
  next he =>
    rw [he] at hext
    exact hext.trans (sameFile_commitAppends client _ _)

theorem sameFile_queue (extent : FileExtent) : h.SameFile (h.queue extent) := by
  unfold queue
  split <;> exact ⟨rfl, rfl, rfl⟩

end FuseFileHandle

namespace Mount

variable {b : Backend σ} {m : Mount σ} {fi : FuseFileInfo} {h : FuseFileHandle}

theorem commit_sameFile (hget : m.server.getFileHandle fi.fh = some h) :
    ∃ h', (m.commit b fi.fh).2.server.getFileHandle fi.fh = some h' ∧ h.SameFile h' := by
  unfold commit
  rw [hget]
  exact ⟨_, FuseServer.getFileHandle_setFileHandle_self _,
    h.sameFile_commitHandle b.metaClient m.world⟩

/-- A read leaves the server as it is. -/
theorem pulpfsRead_server (ino size : UInt64) (off : Int64) :
    (m.pulpfsRead b ino size off fi).2.server = m.server := by
  unfold pulpfsRead
  split
  · rfl
  · split
    · rfl
    · split <;> rfl

theorem pulpfsRead_ne_ebadf (hget : m.server.getFileHandle fi.fh = some h) (ino size : UInt64)
    (off : Int64) : (m.pulpfsRead b ino size off fi).1 ≠ .err .ebadf := by
  unfold pulpfsRead
  simp only [hget]
  split
  · simp
  · split
    · simp [toErrno_ne_ebadf]
    · simp

/-- A write keeps the handle's file and, on a writable handle, finds it. -/
theorem pulpfsWrite_sameFile (hget : m.server.getFileHandle fi.fh = some h) (ino : UInt64)
    (buf : Bytes) (off : Int64) :
    (∃ h', (m.pulpfsWrite b ino buf off fi).2.server.getFileHandle fi.fh = some h' ∧
      h.SameFile h') ∧
    (h.writable = true → (m.pulpfsWrite b ino buf off fi).1 ≠ .err .ebadf) := by
  unfold pulpfsWrite
  simp only [hget]
  split
  next hw =>
    refine ⟨⟨h, hget, .refl h⟩, ?_⟩
    intro hwritable
    rw [hwritable] at hw
    contradiction
  next =>
    split
    · exact ⟨⟨h, hget, .refl h⟩, by simp⟩
    · split
      · exact ⟨⟨h, hget, .refl h⟩, by simp⟩
      · split
        · exact ⟨⟨h, hget, .refl h⟩, by simp [toErrno_ne_ebadf]⟩
        · exact ⟨⟨_, FuseServer.getFileHandle_setFileHandle_self _, h.sameFile_queue _⟩, by simp⟩

theorem replyOf_ne_ebadf (r : Except Error Unit) : replyOf r ≠ .err .ebadf := by
  cases r with
  | ok _ => nofun
  | error e => simp [replyOf, toErrno_ne_ebadf]

theorem pulpfsCreate_spec (fi : FuseFileInfo) (parent : UInt64) (name : Bytes)
    (mode uid gid : UInt32) :
    (∃ e, (m.pulpfsCreate b parent name mode uid gid fi).1 = .err (toErrno e)) ∨
    ∃ entry fi' h, (m.pulpfsCreate b parent name mode uid gid fi).1 = .create entry fi' ∧
      fi'.fh = m.server.nextHandleId ∧ h.inodeId = entry.ino ∧
      h.writable = isWritable fi'.flags ∧
      (m.pulpfsCreate b parent name mode uid gid fi).2.server.getFileHandle fi'.fh = some h := by
  unfold pulpfsCreate
  rcases b.metaClient.createFile parent name (mode &&& kModeMask) uid gid m.world with ⟨r, w⟩
  cases r with
  | error e => exact .inl ⟨e, rfl⟩
  | ok attrs =>
    have hsame := (FuseFileHandle.SameFile.refl
      { inodeId := attrs.inodeId, writable := isWritable fi.flags
        append := fi.flags &&& oAppend ≠ 0 }).refreshLayout b.metaClient w
    exact .inr ⟨_, _, _, rfl, rfl, hsame.inodeId, hsame.writable,
      FuseServer.getFileHandle_setFileHandle_self _⟩

theorem openLayout_ne_ebadf (client : MetaClient σ) (ino : UInt64) (flags : UInt32) (w : σ) :
    (openLayout client ino flags w).1 ≠ .error .ebadf := by
  unfold openLayout
  split
  · simp [toErrno_ne_ebadf]
  · split
    · simp
    · split
      · split
        · simp [toErrno_ne_ebadf]
        · split
          · simp [toErrno_ne_ebadf]
          · simp
      · simp

theorem pulpfsOpen_spec (fi : FuseFileInfo) (ino : UInt64) :
    (∃ errno, errno ≠ .ebadf ∧ (m.pulpfsOpen b ino fi).1 = .err errno) ∨
    ∃ fi' h, (m.pulpfsOpen b ino fi).1 = .open fi' ∧ fi'.fh = m.server.nextHandleId ∧
      h.inodeId = ino ∧ h.writable = isWritable fi'.flags ∧
      (m.pulpfsOpen b ino fi).2.server.getFileHandle fi'.fh = some h := by
  have hne := openLayout_ne_ebadf b.metaClient ino fi.flags m.world
  unfold pulpfsOpen
  revert hne
  rcases openLayout b.metaClient ino fi.flags m.world with ⟨r, w⟩
  intro hne
  cases r with
  | error errno => exact .inl ⟨errno, fun he => hne (congrArg Except.error he), rfl⟩
  | ok layout =>
    exact .inr ⟨_, _, rfl, rfl, rfl, rfl, FuseServer.getFileHandle_setFileHandle_self _⟩

theorem pulpfsOpenDir_spec (fi : FuseFileInfo) (ino : UInt64) :
    (∃ errno, errno ≠ .ebadf ∧ (m.pulpfsOpenDir b ino fi).1 = .err errno) ∨
    ∃ fi', (m.pulpfsOpenDir b ino fi).1 = .open fi' := by
  unfold pulpfsOpenDir
  split
  next e _ _ => exact .inl ⟨toErrno e, toErrno_ne_ebadf e, rfl⟩
  next attrs _ _ =>
    by_cases ht : attrs.type ≠ .directory
    · rw [if_pos ht]
      exact .inl ⟨.enotdir, nofun, rfl⟩
    · rw [if_neg ht]
      exact .inr ⟨_, rfl⟩

end Mount

/-- What the kernel knows of an open: `fi` as the reply to the open left it. -/
structure OpenFile where
  directory : Bool
  ino : UInt64
  fi : FuseFileInfo
  deriving DecidableEq

/-- A use of the mount; opens are numbered in the order in which they were made. -/
inductive Use where
  | create (parent : UInt64) (name : Bytes) (mode uid gid flags : UInt32)
  | open (ino : UInt64) (flags : UInt32)
  | opendir (ino : UInt64) (flags : UInt32)
  | read (n : ℕ) (size : UInt64) (off : Int64)
  | write (n : ℕ) (buf : Bytes) (off : Int64)
  | flush (n : ℕ)
  | fsync (n : ℕ) (datasync : Int32)
  | release (n : ℕ)
  deriving DecidableEq

/-- The open a use is made on. -/
def Use.on : Use → Option ℕ
  | .create .. => none
  | .open .. => none
  | .opendir .. => none
  | .read n _ _ => some n
  | .write n _ _ => some n
  | .flush n => some n
  | .fsync n _ => some n
  | .release n => some n

/-- A mount and the kernel's table of opens; a released open leaves `none`. -/
structure Session (σ : Type) where
  mount : Mount σ
  opens : List (Option OpenFile)

namespace Session

def fresh (config : FuseServerConfig) (writerId : Bytes) (world : σ) : Session σ :=
  ⟨⟨.fresh config writerId, world⟩, []⟩

variable (s : Session σ)

def openAt (n : ℕ) : Option OpenFile := s.opens[n]?.join

/-- An open of a regular file that has not been released. -/
def fileAt (n : ℕ) : Option OpenFile := (s.openAt n).filter fun o => !o.directory

/-- The request the kernel sends, if it sends one: only on an open that is there, and a write
only where the open asked for writing. -/
def request : Use → Option Request
  | .create parent name mode uid gid flags => some (.create parent name mode uid gid { flags })
  | .open ino flags => some (.open ino { flags })
  | .opendir ino flags => some (.opendir ino { flags })
  | .read n size off => (s.fileAt n).map fun o => .read o.ino size off o.fi
  | .write n buf off => ((s.fileAt n).filter fun o => isWritable o.fi.flags).map fun o =>
    .write o.ino buf off o.fi
  | .flush n => (s.fileAt n).map fun o => .flush o.ino o.fi
  | .fsync n datasync => (s.fileAt n).map fun o => .fsync o.ino datasync o.fi
  | .release n => (s.openAt n).map fun o =>
    if o.directory then .releasedir o.ino o.fi else .release o.ino o.fi

/-- The table after a reply. -/
def opensAfter : Use → FuseReply → List (Option OpenFile)
  | .create .., .create entry fi => s.opens ++ [some ⟨false, entry.ino, fi⟩]
  | .open ino _, .open fi => s.opens ++ [some ⟨false, ino, fi⟩]
  | .opendir ino _, .open fi => s.opens ++ [some ⟨true, ino, fi⟩]
  | .release n, _ => s.opens.set n none
  | _, _ => s.opens

def step (b : Backend σ) (u : Use) (s : Session σ) : Option FuseReply × Session σ :=
  match s.request u with
  | none => (none, s)
  | some r =>
    let result := s.mount.serve b r
    (some result.1, ⟨result.2, s.opensAfter u result.1⟩)

/-- Where the two uses of `fi->fh` stay apart: a directory released is not numbered like a
handle in `handles_`, and the next handle id is not in use. -/
def idsApart : Use → Bool
  | .create .. => !s.mount.server.handles.contains s.mount.server.nextHandleId
  | .open .. => !s.mount.server.handles.contains s.mount.server.nextHandleId
  | .release n => (s.openAt n).all fun o =>
    !o.directory || !s.mount.server.handles.contains o.fi.fh
  | _ => true

/-- Every file that is open has a handle of its own, bound to its inode. -/
structure Live (s : Session σ) : Prop where
  bound : ∀ n o, s.fileAt n = some o → ∃ h, s.mount.server.getFileHandle o.fi.fh = some h ∧
    h.inodeId = o.ino ∧ h.writable = isWritable o.fi.flags
  distinct : ∀ n n' o o', s.fileAt n = some o → s.fileAt n' = some o' →
    o.fi.fh = o'.fi.fh → n = n'

/-- What a step does to the open files it is not made on: they stay open, and it runs as it
would with any other handle in their place, which it leaves as it is. And no request is answered
with `EBADF`. -/
structure Kept (b : Backend σ) (e : Step (Session σ) Use (Option FuseReply)) : Prop where
  open_kept : ∀ n o, e.before.fileAt n = some o → e.input ≠ .release n → e.after.fileAt n = some o
  untouched : ∀ n o, e.before.fileAt n = some o → e.input.on ≠ some n → ∀ h,
    step b e.input ⟨e.before.mount.withHandle o.fi.fh h, e.before.opens⟩ =
      (e.output, ⟨e.after.mount.withHandle o.fi.fh h, e.after.opens⟩)
  found : e.output ≠ some (.err .ebadf)

section Table

variable (m m' : Mount σ) (opens : List (Option OpenFile))

theorem openAt_append (o : OpenFile) (n : ℕ) :
    openAt ⟨m, opens ++ [some o]⟩ n =
      if n = opens.length then some o else openAt ⟨m', opens⟩ n := by
  unfold openAt
  by_cases hn : n = opens.length
  · simp [hn]
  · rw [if_neg hn]
    by_cases hlt : n < opens.length
    · rw [List.getElem?_append_left hlt]
    · have hlen : (opens ++ [some o]).length ≤ n := by
        rw [List.length_append, List.length_singleton]
        omega
      rw [List.getElem?_eq_none hlen, List.getElem?_eq_none (Nat.not_lt.mp hlt)]

theorem openAt_set (k n : ℕ) :
    openAt ⟨m, opens.set k none⟩ n = if n = k then none else openAt ⟨m', opens⟩ n := by
  unfold openAt
  by_cases hn : n = k
  · rw [if_pos hn, hn, List.getElem?_set_self']
    cases opens[k]? <;> rfl
  · rw [if_neg hn, List.getElem?_set_ne (Ne.symm hn)]

theorem openAt_length : openAt ⟨m, opens⟩ opens.length = none := by
  simp [openAt]

end Table

section Step

variable {s : Session σ} {b : Backend σ} {u : Use} {n : ℕ} {o : OpenFile}

theorem openAt_of_fileAt (h : s.fileAt n = some o) : s.openAt n = some o ∧ o.directory = false := by
  obtain ⟨ho, hd⟩ := Option.filter_eq_some_iff.mp h
  exact ⟨ho, by simpa using hd⟩

theorem fileAt_of_openAt (h : s.openAt n = some o) (hd : o.directory = false) :
    s.fileAt n = some o := Option.filter_eq_some_iff.mpr ⟨h, by simp [hd]⟩

/-- A handle that is in use is not the one a request on something else meets. -/
theorem Live.not_meets (hl : s.Live) (hn : s.fileAt n = some o) (hu : u.on ≠ some n)
    (ha : s.idsApart u = true) {r : Request} (hr : s.request u = some r) :
    ¬ s.mount.Meets o.fi.fh r := by
  obtain ⟨h, hget, _⟩ := hl.bound n o hn
  have hmem : s.mount.server.handles.contains o.fi.fh = true := by
    rw [Std.ExtTreeMap.contains_eq_isSome_getElem?]
    exact Option.isSome_of_mem hget
  have hunused {id : UInt64} (hid : (!s.mount.server.handles.contains id) = true) :
      id ≠ o.fi.fh := by
    intro he
    rw [he, hmem] at hid
    contradiction
  have hfile {n' : ℕ} {o' : OpenFile} (hn' : s.fileAt n' = some o')
      (hne : some n' ≠ some n) : o'.fi.fh ≠ o.fi.fh :=
    fun he => hne (congrArg some (hl.distinct n' n o' o hn' hn he))
  cases u with
  | create parent name mode uid gid flags =>
    obtain rfl := Option.some.inj hr
    exact hunused ha
  | «open» ino flags =>
    obtain rfl := Option.some.inj hr
    exact hunused ha
  | opendir ino flags =>
    obtain rfl := Option.some.inj hr
    exact id
  | read n' size off =>
    obtain ⟨o', ho', rfl⟩ := Option.map_eq_some_iff.mp hr
    exact hfile ho' hu
  | write n' buf off =>
    obtain ⟨o', ho', rfl⟩ := Option.map_eq_some_iff.mp hr
    exact hfile (Option.filter_eq_some_iff.mp ho').1 hu
  | flush n' =>
    obtain ⟨o', ho', rfl⟩ := Option.map_eq_some_iff.mp hr
    exact hfile ho' hu
  | fsync n' datasync =>
    obtain ⟨o', ho', rfl⟩ := Option.map_eq_some_iff.mp hr
    exact hfile ho' hu
  | release n' =>
    obtain ⟨o', ho', rfl⟩ := Option.map_eq_some_iff.mp hr
    cases hd : o'.directory with
    | false =>
      simp only [Bool.false_eq_true, if_false]
      exact hfile (fileAt_of_openAt ho' hd) hu
    | true =>
      simp only [if_true]
      simp only [idsApart, ho', Option.all_some, hd, Bool.not_true, Bool.false_or] at ha
      exact hunused ha

/-- The step runs the same with any other handle in the place of one in use. -/
theorem Live.untouched (hl : s.Live) (hn : s.fileAt n = some o) (hu : u.on ≠ some n)
    (ha : s.idsApart u = true) (h : FuseFileHandle) :
    step b u ⟨s.mount.withHandle o.fi.fh h, s.opens⟩ =
      ((step b u s).1, ⟨(step b u s).2.mount.withHandle o.fi.fh h, (step b u s).2.opens⟩) := by
  have hreq : request ⟨s.mount.withHandle o.fi.fh h, s.opens⟩ u = s.request u := rfl
  unfold step
  rw [hreq]
  cases hr : s.request u with
  | none => rfl
  | some r =>
    simp only [Mount.serve_withHandle h (hl.not_meets hn hu ha hr)]
    rfl

/-- What the next handle id is good for when it is not in use. -/
theorem getFileHandle_next (ha : (!s.mount.server.handles.contains
    s.mount.server.nextHandleId) = true) :
    s.mount.server.getFileHandle s.mount.server.nextHandleId = none := by
  rw [Std.ExtTreeMap.contains_eq_isSome_getElem?] at ha
  simp only [Bool.not_eq_true', Option.isSome_eq_false_iff, Option.isNone_iff_eq_none] at ha
  exact ha

/-- An open that has just been given the next handle. -/
structure Opened (s s' : Session σ) (u : Use) (o : OpenFile) : Prop where
  fh_eq : o.fi.fh = s.mount.server.nextHandleId
  unused : s.idsApart u = true →
    s.mount.server.getFileHandle s.mount.server.nextHandleId = none
  bound : ∃ h, s'.mount.server.getFileHandle o.fi.fh = some h ∧ h.inodeId = o.ino ∧
    h.writable = isWritable o.fi.flags

/-- How a step changes the table: not at all, by a new entry, or by leaving one out. -/
theorem step_opens (b : Backend σ) (u : Use) (s : Session σ) :
    ((step b u s).2.opens = s.opens ∧ ∀ n, u = .release n → s.openAt n = none) ∨
    (∃ o, (step b u s).2.opens = s.opens ++ [some o] ∧ (∀ n, u ≠ .release n) ∧
      (o.directory = false → Opened s (step b u s).2 u o)) ∨
    ∃ n, u = .release n ∧ (step b u s).2.opens = s.opens.set n none := by
  unfold step
  cases u with
  | create parent name mode uid gid flags =>
    rcases Mount.pulpfsCreate_spec (b := b) (m := s.mount) { flags } parent name mode uid
      gid with ⟨e, he⟩ | ⟨entry, fi', h, he, hfh, hino, hw, hget⟩
    · refine .inl ⟨?_, nofun⟩
      simp only [request, Mount.serve, he, opensAfter]
    · refine .inr (.inl ⟨⟨false, entry.ino, fi'⟩, ?_, nofun, ?_⟩)
      · simp only [request, Mount.serve, he, opensAfter]
      · intro _
        exact ⟨hfh, getFileHandle_next, h, hget, hino, hw⟩
  | «open» ino flags =>
    rcases Mount.pulpfsOpen_spec (b := b) (m := s.mount) { flags } ino with
      ⟨e, _, he⟩ | ⟨fi', h, he, hfh, hino, hw, hget⟩
    · refine .inl ⟨?_, nofun⟩
      simp only [request, Mount.serve, he, opensAfter]
    · refine .inr (.inl ⟨⟨false, ino, fi'⟩, ?_, nofun, ?_⟩)
      · simp only [request, Mount.serve, he, opensAfter]
      · intro _
        exact ⟨hfh, getFileHandle_next, h, hget, hino, hw⟩
  | opendir ino flags =>
    rcases Mount.pulpfsOpenDir_spec (b := b) (m := s.mount) { flags } ino with
      ⟨e, _, he⟩ | ⟨fi', he⟩
    · refine .inl ⟨?_, nofun⟩
      simp only [request, Mount.serve, he, opensAfter]
    · refine .inr (.inl ⟨⟨true, ino, fi'⟩, ?_, nofun, nofun⟩)
      simp only [request, Mount.serve, he, opensAfter]
  | read n size off =>
    refine .inl ⟨?_, nofun⟩
    split <;> rfl
  | write n buf off =>
    refine .inl ⟨?_, nofun⟩
    split <;> rfl
  | flush n =>
    refine .inl ⟨?_, nofun⟩
    split <;> rfl
  | fsync n datasync =>
    refine .inl ⟨?_, nofun⟩
    split <;> rfl
  | release n =>
    cases ho : s.openAt n with
    | none =>
      refine .inl ⟨by simp only [request, ho, Option.map_none], ?_⟩
      intro n' he
      obtain rfl := Use.release.inj he
      exact ho
    | some o =>
      refine .inr (.inr ⟨n, rfl, ?_⟩)
      simp only [request, ho, Option.map_some, opensAfter]

theorem openAt_congr {s' : Session σ} (h : s'.opens = s.opens) (n : ℕ) :
    s'.openAt n = s.openAt n := by
  rw [openAt, openAt, h]

/-- An open file stays in the table until its release. -/
theorem fileAt_step (hn : s.fileAt n = some o) (hu : u ≠ .release n) :
    (step b u s).2.fileAt n = some o := by
  obtain ⟨ho, hd⟩ := openAt_of_fileAt hn
  refine fileAt_of_openAt ?_ hd
  rcases step_opens b u s with ⟨h, _⟩ | ⟨o', h, _, _⟩ | ⟨k, rfl, h⟩
  · rw [openAt_congr h, ho]
  · rw [openAt_congr (s := ⟨s.mount, s.opens ++ [some o']⟩) h, openAt_append _ s.mount, if_neg]
    · exact ho
    · intro he
      rw [he, openAt_length] at ho
      contradiction
  · rw [openAt_congr (s := ⟨s.mount, s.opens.set k none⟩) h, openAt_set _ s.mount, if_neg]
    · exact ho
    · intro he
      exact hu (by rw [he])

/-- An open file after a step was open before or has just been given the next handle. -/
theorem fileAt_of_step (hn : (step b u s).2.fileAt n = some o) :
    (s.fileAt n = some o ∧ u ≠ .release n) ∨
      (n = s.opens.length ∧ Opened s (step b u s).2 u o) := by
  obtain ⟨ho, hd⟩ := openAt_of_fileAt hn
  rcases step_opens b u s with ⟨h, hr⟩ | ⟨o', h, hr, hopened⟩ | ⟨k, rfl, h⟩
  · rw [openAt_congr h] at ho
    refine .inl ⟨fileAt_of_openAt ho hd, ?_⟩
    intro hu
    rw [hr n hu] at ho
    contradiction
  · rw [openAt_congr (s := ⟨s.mount, s.opens ++ [some o']⟩) h, openAt_append _ s.mount] at ho
    split at ho
    next hlen =>
      obtain rfl := Option.some.inj ho
      exact .inr ⟨hlen, hopened hd⟩
    next => exact .inl ⟨fileAt_of_openAt ho hd, hr n⟩
  · rw [openAt_congr (s := ⟨s.mount, s.opens.set k none⟩) h, openAt_set _ s.mount] at ho
    split at ho
    next => contradiction
    next hne =>
      refine .inl ⟨fileAt_of_openAt ho hd, ?_⟩
      intro hu
      exact hne (Use.release.inj hu).symm

/-- A request on an open file finds its handle, keeps it and is not answered with `EBADF`. -/
theorem Live.served (hl : s.Live) (hn : s.fileAt n = some o) (hon : u.on = some n)
    (hu : u ≠ .release n) :
    (∃ h, (step b u s).2.mount.server.getFileHandle o.fi.fh = some h ∧ h.inodeId = o.ino ∧
      h.writable = isWritable o.fi.flags) ∧ (step b u s).1 ≠ some (.err .ebadf) := by
  obtain ⟨h, hget, hino, hw⟩ := hl.bound n o hn
  have hsame {server : FuseServer}
      (hs : ∃ h', server.getFileHandle o.fi.fh = some h' ∧ h.SameFile h') :
      ∃ h', server.getFileHandle o.fi.fh = some h' ∧ h'.inodeId = o.ino ∧
        h'.writable = isWritable o.fi.flags := by
    obtain ⟨h', hget', hs⟩ := hs
    exact ⟨h', hget', hs.inodeId.trans hino, hs.writable.trans hw⟩
  have hcommit := hsame (Mount.commit_sameFile (b := b) hget)
  unfold step
  cases u with
  | create => contradiction
  | «open» => contradiction
  | opendir => contradiction
  | read n' size off =>
    obtain rfl := Option.some.inj hon
    simp only [request, hn, Option.map_some, Mount.serve, Mount.pulpfsRead_server]
    refine ⟨⟨h, hget, hino, hw⟩, ?_⟩
    exact fun he => Mount.pulpfsRead_ne_ebadf hget _ _ _ (Option.some.inj he)
  | write n' buf off =>
    obtain rfl := Option.some.inj hon
    obtain ⟨hkept, hfound⟩ := Mount.pulpfsWrite_sameFile (b := b) hget o.ino buf off
    by_cases hwr : isWritable o.fi.flags = true
    · simp only [request, hn, Option.filter_some, hwr, if_true, Option.map_some, Mount.serve]
      exact ⟨hwr ▸ hsame hkept, fun he => hfound (hw.trans hwr) (Option.some.inj he)⟩
    · simp only [request, hn, Option.filter_some, hwr]
      exact ⟨⟨h, hget, hino, by simpa [hwr] using hw⟩, nofun⟩
  | flush n' =>
    obtain rfl := Option.some.inj hon
    simp only [request, hn, Option.map_some, Mount.serve, Mount.pulpfsFlush]
    exact ⟨hcommit, fun he => Mount.replyOf_ne_ebadf _ (Option.some.inj he)⟩
  | fsync n' datasync =>
    obtain rfl := Option.some.inj hon
    simp only [request, hn, Option.map_some, Mount.serve, Mount.pulpfsFsync]
    exact ⟨hcommit, fun he => Mount.replyOf_ne_ebadf _ (Option.some.inj he)⟩
  | release n' =>
    obtain rfl := Option.some.inj hon
    contradiction

theorem Live.found (hl : s.Live) : (step b u s).1 ≠ some (.err .ebadf) := by
  have hon (n : ℕ) (h : u.on = some n) (hu : u ≠ .release n)
      (hnone : s.fileAt n = none → s.request u = none) :
      (step b u s).1 ≠ some (.err .ebadf) := by
    cases hn : s.fileAt n with
    | none =>
      rw [step, hnone hn]
      nofun
    | some o => exact (hl.served hn h hu).2
  cases u with
  | create parent name mode uid gid flags =>
    simp only [step, request, Mount.serve]
    rcases Mount.pulpfsCreate_spec (b := b) (m := s.mount) { flags } parent name mode uid
      gid with ⟨e, he⟩ | ⟨entry, fi', h, he, _⟩
    · simp [he, toErrno_ne_ebadf]
    · simp [he]
  | «open» ino flags =>
    simp only [step, request, Mount.serve]
    rcases Mount.pulpfsOpen_spec (b := b) (m := s.mount) { flags } ino with
      ⟨e, hne, he⟩ | ⟨fi', h, he, _⟩
    · simp [he, hne]
    · simp [he]
  | opendir ino flags =>
    simp only [step, request, Mount.serve]
    rcases Mount.pulpfsOpenDir_spec (b := b) (m := s.mount) { flags } ino with
      ⟨e, hne, he⟩ | ⟨fi', he⟩
    · simp [he, hne]
    · simp [he]
  | read n size off => exact hon n rfl nofun fun hn => by simp only [request, hn, Option.map_none]
  | write n buf off => exact hon n rfl nofun fun hn => by simp [request, hn]
  | flush n => exact hon n rfl nofun fun hn => by simp only [request, hn, Option.map_none]
  | fsync n datasync =>
    exact hon n rfl nofun fun hn => by simp only [request, hn, Option.map_none]
  | release n =>
    simp only [step, request]
    cases s.openAt n with
    | none => nofun
    | some o =>
      cases hd : o.directory with
      | false =>
        simp only [Option.map_some, hd, Bool.false_eq_true, if_false, Mount.serve,
          Mount.pulpfsRelease]
        exact fun he => Mount.replyOf_ne_ebadf _ (Option.some.inj he)
      | true =>
        simp only [Option.map_some, hd, if_true, Mount.serve, Mount.pulpfsRelease]
        exact fun he => Mount.replyOf_ne_ebadf _ (Option.some.inj he)

/-- The step lemma. -/
theorem Live.step (hl : s.Live) (ha : s.idsApart u = true) :
    (step b u s).2.Live ∧ Kept b ⟨s, u, (step b u s).1, (step b u s).2⟩ := by
  have hnew {n : ℕ} {o o' : OpenFile} (hn : s.fileAt n = some o)
      (ho : Opened s (Session.step b u s).2 u o') : o.fi.fh ≠ o'.fi.fh := by
    obtain ⟨h, hget, _⟩ := hl.bound n o hn
    intro he
    rw [he, ho.fh_eq, ho.unused ha] at hget
    contradiction
  refine ⟨⟨?_, ?_⟩, fun n o hn hu => fileAt_step hn hu,
    fun n o hn hu h => hl.untouched hn hu ha h, hl.found⟩
  · intro n o hn
    rcases fileAt_of_step hn with ⟨hold, hu⟩ | ⟨_, hopened⟩
    · by_cases hon : u.on = some n
      · exact (hl.served hold hon hu).1
      · obtain ⟨h, hget, hbound⟩ := hl.bound n o hold
        refine ⟨h, ?_, hbound⟩
        unfold Session.step
        cases hr : s.request u with
        | none => exact hget
        | some r => exact Mount.serve_getFileHandle (hl.not_meets hold hon ha hr) hget
    · exact hopened.bound
  · intro n n' o o' hn hn' he
    rcases fileAt_of_step hn with ⟨hold, _⟩ | ⟨hlen, hopened⟩
    · rcases fileAt_of_step hn' with ⟨hold', _⟩ | ⟨_, hopened'⟩
      · exact hl.distinct n n' o o' hold hold' he
      · exact absurd he (hnew hold hopened')
    · rcases fileAt_of_step hn' with ⟨hold', _⟩ | ⟨hlen', _⟩
      · exact absurd he.symm (hnew hold' hopened)
      · exact hlen.trans hlen'.symm

end Step

theorem live_fresh (config : FuseServerConfig) (writerId : Bytes) (world : σ) :
    (fresh config writerId world).Live := by
  have hnone (n : ℕ) : (fresh config writerId world).fileAt n = none := rfl
  constructor
  · intro n o hn
    rw [hnone] at hn
    contradiction
  · intro n n' o o' hn
    rw [hnone] at hn
    contradiction

end Session

/-- In every run whose steps keep the two uses of `fi->fh` apart an open file has its handle
until its own release, and no other use of the mount touches it. -/
theorem live_of_run (b : Backend σ) (config : FuseServerConfig) (writerId : Bytes) (world : σ)
    (uses : List Use)
    (hapart : ∀ e ∈ trace (Session.step b) uses (.fresh config writerId world),
      e.before.idsApart e.input = true) :
    ∀ e ∈ trace (Session.step b) uses (.fresh config writerId world),
      e.before.Live ∧ e.after.Live ∧ Session.Kept b e := by
  have hlive (e) (he : e ∈ trace (Session.step b) uses (.fresh config writerId world))
      (hl : e.before.Live) : e.after.Live := by
    have hstep := (hl.step (b := b) (hapart e he)).1
    rwa [trace_step he] at hstep
  have hrun := invariant (Session.live_fresh config writerId world) hlive
  intro e he
  obtain ⟨hb, ha⟩ := hrun.2 e he
  have hkept := (hb.step (b := b) (hapart e he)).2
  rw [trace_step he] at hkept
  exact ⟨hb, ha, hkept⟩

/-- A new mount on a new service. -/
def Session.new : Session World :=
  .fresh { bucket := ascii "b" } (ascii "w") (.fresh 4096)

/-- Two files and the root directory are opened; the directory gets the number of the handle
that the first file has given back. -/
def apartUses : List Use :=
  [.create 1 (ascii "f") 0o644 0 0 oRdwr, .create 1 (ascii "g") 0o644 0 0 oRdwr,
    .write 1 (ascii "x") 0, .release 0, .opendir 1 0, .release 2, .read 1 1 0, .release 1]

set_option maxRecDepth 8192 in
theorem live_of_apartUses :
    let run := trace (Session.step (@World.backend .insertion)) apartUses .new
    ∀ e ∈ run, e.before.Live ∧ e.after.Live ∧ Session.Kept (@World.backend .insertion) e :=
  live_of_run (@World.backend .insertion) { bucket := ascii "b" } (ascii "w") (.fresh 4096)
    apartUses (by decide)

/-- A file is written and the root directory opened and released, both with `fi->fh` 1. -/
def sharedIdUses : List Use :=
  [.create 1 (ascii "f") 0o644 0 0 oRdwr, .write 0 (ascii "x") 0, .opendir 1 0, .release 1,
    .read 0 1 0]

set_option maxRecDepth 8192 in
/-- Releasing the directory takes the handle of the file away. -/
theorem not_live_after_releasedir :
    ¬ ∀ e ∈ trace (Session.step (@World.backend .insertion)) sharedIdUses .new,
      e.before.Live ∧ e.after.Live ∧ Session.Kept (@World.backend .insertion) e := by
  intro h
  have hread : some (.err .ebadf) ∈
      (trace (Session.step (@World.backend .insertion)) sharedIdUses .new).map Step.output := by
    decide
  obtain ⟨e, he, hout⟩ := List.mem_map.mp hread
  exact (h e he).2.2.found hout

end Pulpfs
