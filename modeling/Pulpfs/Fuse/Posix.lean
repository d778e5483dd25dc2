import Pulpfs.Fuse.Mirrors

/-! One file used through one open at a time where every call is answered and every upload done:
what is read is what a POSIX file would give, as long as no object key comes twice. -/
namespace Pulpfs
open Overlay Transition

/-- A file of POSIX with the open in use, if there is one. -/
structure PosixFile where
  bytes : Bytes
  mode : Option OpenMode
  deriving DecidableEq

namespace PosixFile

/-- Where a write goes. -/
def place (p : PosixFile) (off : Int64) : ℕ :=
  if p.mode.any OpenMode.append then p.bytes.length else off.toUInt64.toNat

/-- A use of the file, with what a read returns. -/
def step (op : Op) (p : PosixFile) : Option Bytes × PosixFile :=
  match op, p.mode with
  | .open flags, none =>
    (none, ⟨if isWritable flags && flags &&& oTrunc ≠ 0 then [] else p.bytes, some (.of flags)⟩)
  | .read size off, some _ => (some ((p.bytes.drop off.toUInt64.toNat).take size.toNat), p)
  | .write buf off, some mode =>
    (none, if mode.writable then { p with bytes := writeAt 0 p.bytes (p.place off) buf } else p)
  | .release, some _ => (none, { p with mode := none })
  | _, _ => (none, p)

/-- Offset and size stay in the range of a file. -/
def InRange (p : PosixFile) : Op → Prop
  | .read size off => off.toUInt64.toNat + size.toNat < 2 ^ 63
  | .write buf off => buf ≠ [] ∧ p.place off + buf.length < 2 ^ 63
  | _ => True

instance (p : PosixFile) (op : Op) : Decidable (p.InRange op) :=
  match op with
  | .read size off => inferInstanceAs (Decidable (off.toUInt64.toNat + size.toNat < 2 ^ 63))
  | .write _ _ => inferInstanceAs (Decidable (_ ∧ _))
  | .open _ => .isTrue trivial
  | .flush => .isTrue trivial
  | .fsync _ => .isTrue trivial
  | .release => .isTrue trivial

end PosixFile

def Op.isWrite : Op → Bool
  | .write _ _ => true
  | _ => false

/-- The reply to a read. -/
def readReply (e : Step Client Op (Option FuseReply)) : Option FuseReply :=
  match e.input with
  | .read _ _ => e.output
  | _ => none

/-- Client and POSIX file between two uses, with `n` writes to come. -/
structure Agrees (ino : UInt64) (n : ℕ) (c : Client) (p : PosixFile) : Prop where
  healthy : c.mount.Healthy
  file : (c.opened = none ∧ p.mode = none ∧ ∃ l, Closed ino n p.bytes c.mount l) ∨
    ∃ fi mode h, c.opened = some fi ∧ p.mode = some mode ∧
      Mirrors ino fi n p.bytes mode c.mount h

namespace Agrees

variable {ino : UInt64} {n : ℕ} {c : Client} {p : PosixFile} {op : Op}

theorem mono (ha : Agrees ino (n + 1) c p) : Agrees ino n c p := by
  refine ⟨ha.healthy, ?_⟩
  rcases ha.file with ⟨hopened, hmode, l, hc⟩ | ⟨fi, mode, h, hopened, hmode, hm⟩
  · exact .inl ⟨hopened, hmode, l, hc.stored, hc.confined, hc.bytes,
      fun e he => (hc.missed e he).mono⟩
  · exact .inr ⟨fi, mode, h, hopened, hmode, hm.mono⟩

theorem skip (ha : Agrees ino (n + if op.isWrite then 1 else 0) c p) : Agrees ino n c p := by
  cases hw : op.isWrite with
  | false => simpa [hw] using ha
  | true =>
    rw [hw, if_pos rfl] at ha
    exact ha.mono

variable [OffsetSort]

/-- The step lemma while no open is in use. -/
theorem step_closed (ha : Agrees ino n c p) (hopened : c.opened = none) (hmode : p.mode = none)
    {l : FileLayout} (hc : Closed ino n p.bytes c.mount l) :
    readReply ⟨c, op, (c.step ino op).1, (c.step ino op).2⟩ = (p.step op).1.map FuseReply.buf ∧
      Agrees ino n (c.step ino op).2 (p.step op).2 := by
  by_cases hop : ∃ flags, op = .open flags
  · obtain ⟨flags, rfl⟩ := hop
    obtain ⟨fi, m', he, hhealthy, h, hm⟩ := hc.open ha.healthy flags
    rw [Client.step_open hopened, he]
    simp only [PosixFile.step, hmode]
    exact ⟨rfl, hhealthy, .inr ⟨fi, .of flags, h, rfl, rfl, hm⟩⟩
  · have hsame : p.step op = (none, p) := by
      cases op with
      | «open» flags => exact absurd ⟨flags, rfl⟩ hop
      | read => simp only [PosixFile.step, hmode]
      | write => simp only [PosixFile.step, hmode]
      | flush => rfl
      | fsync => rfl
      | release => simp only [PosixFile.step, hmode]
    rw [Client.step_of_none hopened fun flags ho => hop ⟨flags, ho⟩, hsame]
    refine ⟨?_, ha⟩
    cases op <;> rfl

/-- The step lemma for a write while an open is in use. -/
theorem step_write (ha : Agrees ino (n + 1) c p) {fi : FuseFileInfo} (hopened : c.opened = some fi)
    (hn : n < 2 ^ 64) {buf : Bytes} {off : Int64} (hop : p.InRange (.write buf off)) :
    readReply ⟨c, .write buf off, (c.step ino (.write buf off)).1,
        (c.step ino (.write buf off)).2⟩ = (p.step (.write buf off)).1.map FuseReply.buf ∧
      Agrees ino n (c.step ino (.write buf off)).2 (p.step (.write buf off)).2 := by
  rcases ha.file with ⟨hnone, -⟩ | ⟨fi', mode, h, hopened', hmode, hm⟩
  · rw [hopened] at hnone
    contradiction
  · obtain rfl := Option.some.inj (hopened.symm.trans hopened')
    have hplace : p.place off = if mode.append then p.bytes.length else off.toUInt64.toNat := by
      rw [PosixFile.place, hmode, Option.any_some]
    rw [Client.step_write hopened]
    simp only [PosixFile.step, hmode]
    refine ⟨rfl, ?_⟩
    cases hwritable : mode.writable with
    | true =>
      obtain ⟨hhealthy, h', hm'⟩ := hm.write ha.healthy hn hwritable hop.1 hplace hop.2
      exact ⟨hhealthy, .inr ⟨fi, mode, h', rfl, rfl, hm'⟩⟩
    | false =>
      rw [hm.write_refused hwritable]
      exact ⟨ha.healthy, .inr ⟨fi, mode, h, rfl, hmode, hm.mono⟩⟩

/-- The step lemma. -/
theorem step (ha : Agrees ino (n + if op.isWrite then 1 else 0) c p) (hop : p.InRange op)
    (hn : n + (if op.isWrite then 1 else 0) ≤ 2 ^ 64) :
    readReply ⟨c, op, (c.step ino op).1, (c.step ino op).2⟩ = (p.step op).1.map FuseReply.buf ∧
      Agrees ino n (c.step ino op).2 (p.step op).2 := by
  rcases ha.skip.file with ⟨hopened, hmode, l, hc⟩ | ⟨fi, mode, h, hopened, hmode, hm⟩
  · exact ha.skip.step_closed hopened hmode hc
  · cases op with
    | «open» flags =>
      rw [Client.step_open_of_some hopened]
      simp only [PosixFile.step, hmode]
      exact ⟨rfl, ha.skip⟩
    | read size off =>
      rw [Client.step_read hopened, hm.read hop]
      simp only [PosixFile.step, hmode]
      exact ⟨rfl, ha.healthy, .inr ⟨fi, mode, h, rfl, hmode, hm⟩⟩
    | write buf off => exact step_write ha hopened hn hop
    | flush =>
      obtain ⟨-, hhealthy, h', hm', -⟩ := hm.commit ha.healthy
      rw [Client.step_flush hopened]
      exact ⟨rfl, hhealthy, .inr ⟨fi, mode, h', rfl, hmode, hm'⟩⟩
    | fsync datasync =>
      obtain ⟨-, hhealthy, h', hm', -⟩ := hm.commit ha.healthy
      rw [Client.step_fsync hopened]
      exact ⟨rfl, hhealthy, .inr ⟨fi, mode, h', rfl, hmode, hm'⟩⟩
    | release =>
      obtain ⟨hhealthy, l, hc⟩ := hm.release ha.healthy
      rw [Client.step_release hopened]
      simp only [PosixFile.step, hmode]
      exact ⟨rfl, hhealthy, .inl ⟨rfl, rfl, l, hc⟩⟩

/-- The run lemma. -/
theorem run {ops : List Op} (ha : Agrees ino (ops.countP Op.isWrite) c p)
    (hops : ∀ e ∈ trace PosixFile.step ops p, e.before.InRange e.input)
    (hn : ops.countP Op.isWrite ≤ 2 ^ 64) :
    (trace (Client.step ino) ops c).map readReply =
      (trace PosixFile.step ops p).map fun e => e.output.map FuseReply.buf := by
  induction ops generalizing c p with
  | nil => rfl
  | cons op ops ih =>
    rw [List.countP_cons] at ha hn
    rw [trace_cons, List.forall_mem_cons] at hops
    obtain ⟨hreply, hnext⟩ := ha.step hops.1 hn
    rw [trace_cons, trace_cons, List.map_cons, List.map_cons, hreply,
      ih hnext hops.2 ((Nat.le_add_right _ _).trans hn)]

end Agrees

/-- Where every call is answered and every upload done, all reads of a file through opens one
after another are those of a POSIX file, in every run of at most 2^64 writes that begins with no
object of the file under a key that one of them gets. -/
theorem posix_of_run [OffsetSort] {ino : UInt64} {c : Client} (hopened : c.opened = none)
    (hbucket : c.mount.server.config.bucket ≠ [])
    (hanswered : ∀ n, c.mount.world.deliveries n = .answered)
    (huploaded : ∀ n, ∃ etag, c.mount.world.uploads n = .done etag) {l : FileLayout}
    (hstored : c.mount.world.Stored c.mount.server.config.bucket ino l)
    (hconfined : l.file.Confined) {ops : List Op}
    (hops : ∀ e ∈ trace PosixFile.step ops ⟨l.file.bytes c.mount.value 0, none⟩,
      e.before.InRange e.input)
    (hwrites : ops.countP Op.isWrite ≤ 2 ^ 64)
    (hkeys : ∀ e ∈ l.extents, c.mount.Misses ino (ops.countP Op.isWrite) e.objectKey) :
    (trace (Client.step ino) ops c).map readReply =
      (trace PosixFile.step ops ⟨l.file.bytes c.mount.value 0, none⟩).map
        fun e => e.output.map FuseReply.buf := by
  have ha : Agrees ino (ops.countP Op.isWrite) c ⟨l.file.bytes c.mount.value 0, none⟩ :=
    ⟨⟨hbucket, hanswered, huploaded⟩, .inl ⟨hopened, rfl, l, hstored, hconfined, rfl, hkeys⟩⟩
  exact ha.run hops hwrites

/-- A new file that has not been opened yet. -/
def newFile : Client :=
  ⟨⟨.fresh ⟨ascii "b", []⟩ (ascii "w"), (newFileClient fun _ => .answered).mount.world⟩, none⟩

/-- Writes with a gap and over one another are read before and after the flush; an open with
`O_APPEND` reads its appends, and one with `O_TRUNC` begins anew. -/
def reopenedOps : List Op :=
  [.open oRdwr, .write [1, 2] 0, .write [3] 4, .write [4] 1, .read 8 0, .flush, .read 8 1, .release,
    .open (oRdwr ||| oAppend), .write [5] 0, .write [6, 7] 0, .read 4 4, .fsync 0, .write [8] 0,
    .read 16 5, .release, .open 0, .write [9] 0, .read 16 0, .release, .open (oWronly ||| oTrunc),
    .read 1 0, .write [9] 1, .release, .open 0, .read 4 0]

theorem newFile_view : newFile.state.fileView 2 = (some (.file, 0), some []) := by
  show MetaState.fileView (final (@MetaState.call .insertion) _ _) 2 = _
  decide

set_option maxRecDepth 8192 in
theorem posix_of_reopenedOps :
    ((trace (@Client.step .insertion 2) reopenedOps newFile).map readReply).reduceOption =
      [.buf [1, 4, 0, 0, 3], .buf [4, 0, 0, 3], .buf [3, 5, 6, 7], .buf [5, 6, 7, 8],
        .buf [1, 4, 0, 0, 3, 5, 6, 7, 8], .buf [], .buf [0, 9]] := by
  obtain ⟨l, hstored, hfile⟩ := newFileClient_stored fun _ => .answered
  have hview := newFile_view.symm.trans (MetaState.view_of_getLayout hstored.got)
  simp only [Prod.mk.injEq, Option.some.injEq, true_and] at hview
  have hempty : l.extents = [] := hview.2.symm
  have hbytes : l.file.bytes newFile.mount.value 0 = [] := by
    rw [hfile]
    rfl
  rw [@posix_of_run .insertion 2 newFile rfl (by decide) (fun _ => rfl) (fun _ => ⟨_, rfl⟩) l
    hstored (hfile ▸ SparseFile.confined_empty) reopenedOps (by rw [hbytes]; decide) (by decide)
    (by simp [hempty]), hbytes]
  decide

/-- An open for writing in place, by the layout it works with and the next key. -/
structure WritesInPlace (fi : FuseFileInfo) (layout : FileLayout) (g : ObjectKeyGenerator)
    (c : Client) : Prop where
  opened : c.opened = some fi
  handle : ∃ h, c.mount.server.getFileHandle fi.fh = some h ∧ h.layout = layout ∧
    h.append = false ∧ h.writable = true
  config : c.mount.server.config = ⟨ascii "b", []⟩
  generator : c.mount.server.objectKeyGenerator = g
  uploaded : ∀ n, ∃ etag, c.mount.world.uploads n = .done etag

section

variable [OffsetSort] {ino : UInt64} {fi : FuseFileInfo} {layout : FileLayout}
  {g : ObjectKeyGenerator} {c : Client}

theorem WritesInPlace.write (hc : WritesInPlace fi layout g c) (buf : Bytes) (off : Int64) :
    WritesInPlace fi layout { g with nextSequence := g.nextSequence + 1 }
        (c.step ino (.write buf off)).2 ∧
      (c.step ino (.write buf off)).2.mount.world.objects
        (ascii "b", g.keyAt [] ino g.nextSequence off.toUInt64) = some buf := by
  obtain ⟨h, hget, hlayout, happend, hwritable⟩ := hc.handle
  have hoffset : h.writeOffset off = off.toUInt64 := by
    rw [FuseFileHandle.writeOffset, happend, if_neg Bool.false_ne_true]
  have hbucket : c.mount.server.config.bucket ≠ [] := by
    rw [hc.config]
    decide
  obtain ⟨size, hsize⟩ :=
    pulpfsWrite_acknowledged hget hwritable hbucket (hc.uploaded _) ino buf off
  rw [Client.step_write hc.opened]
  rcases pulpfsWrite_cases hget ino buf off with
    ⟨errno, he⟩ | ⟨errno, w', he, -⟩ | ⟨extent, -, -, he⟩
  · rw [he] at hsize
    contradiction
  · rw [he] at hsize
    contradiction
  · obtain ⟨-, hwritable', happend', hlayout'⟩ := h.queue_frame extent
    rw [he]
    refine ⟨⟨rfl, ⟨h.queue extent, FuseServer.getFileHandle_setFileHandle_self _,
      hlayout'.trans hlayout, happend'.trans happend, hwritable'.trans hwritable⟩, hc.config, ?_,
      hc.uploaded⟩, ?_⟩
    · show { c.mount.server.objectKeyGenerator with
        nextSequence := c.mount.server.objectKeyGenerator.nextSequence + 1 } = _
      rw [hc.generator]
    · have hkey : (ascii "b", g.keyAt [] ino g.nextSequence off.toUInt64) =
          (c.mount.server.config.bucket, c.mount.server.nextObjectKey ino (h.writeOffset off)) := by
        rw [FuseServer.nextObjectKey, ObjectKeyGenerator.makeObjectKey, hc.config, hc.generator,
          hoffset]
      rw [hkey]
      exact Function.update_self _ _ _

theorem WritesInPlace.replicate (hc : WritesInPlace fi layout g c) (n : ℕ) (buf : Bytes)
    (off : Int64) :
    WritesInPlace fi layout { g with nextSequence := g.nextSequence + UInt64.ofNat n }
      (final (Client.step ino) (List.replicate n (.write buf off)) c) := by
  induction n generalizing g c with
  | zero =>
    have hzero : g.nextSequence + UInt64.ofNat 0 = g.nextSequence := UInt64.add_zero _
    rw [hzero]
    exact hc
  | succ n ih =>
    have hsum : g.nextSequence + UInt64.ofNat (n + 1) = g.nextSequence + 1 + UInt64.ofNat n := by
      rw [UInt64.ofNat_add, UInt64.add_comm (UInt64.ofNat n), UInt64.add_assoc]
      rfl
    rw [List.replicate_succ, final_cons, hsum]
    exact ih (hc.write buf off).1

omit [OffsetSort] in
/-- The size a read sees is no smaller than that of the layout. -/
theorem FuseFileHandle.size_le_visibleSize (h : FuseFileHandle) :
    h.layout.attrs.size.toNat ≤ h.visibleSize.toNat := by
  have hmax (es : List FileExtent) (n : UInt64) :
      n.toNat ≤ (es.foldl (fun size extent => max size (extentEnd extent)) n).toNat := by
    induction es generalizing n with
    | nil => exact Nat.le_refl _
    | cons e es ih =>
      have hfirst := UInt64.toNat_max n (extentEnd e)
      have hrest := ih (max n (extentEnd e))
      rw [List.foldl_cons]
      omega
  exact (hmax _ _).trans (hmax _ _)

/-- A read of what a shorter object under the same key has taken the place of. -/
theorem WritesInPlace.read (hc : WritesInPlace fi layout g c) {key : Bytes}
    (hsize : layout.attrs.size = 2)
    (hextents : layout.extents = [{ length := 2, objectKey := key, objectSize := 2 }])
    (hobject : c.mount.world.objects (ascii "b", key) = some [9]) :
    (c.step ino (.read 1 1)).1 = some (.err .eagain) := by
  obtain ⟨h, hget, rfl, -, -⟩ := hc.handle
  have hvisible := h.size_le_visibleSize
  rw [hsize] at hvisible
  have htwo : (2 : UInt64).toNat = 2 := rfl
  have hone : (1 : Int64).toUInt64.toNat = 1 := by decide
  have hend : min ((1 : Int64).toUInt64 + 1) h.visibleSize = 2 := by
    apply UInt64.toNat_inj.mp
    rw [UInt64.toNat_min]
    show min 2 _ = 2
    omega
  have hstart : ¬ (1 : Int64).toUInt64 ≥ h.visibleSize := by
    rw [ge_iff_le, UInt64.le_iff_toNat_le, hone]
    omega
  have hmiss : World.objectStore.getObject ⟨ascii "b", key, some 1, some 1⟩ c.mount.world =
      (.error (c.mount.world.getFailure key 416), c.mount.world) := by
    simp only [World.objectStore, World.getObject, hobject]
    rfl
  have hloop : readExtentsIntoBuffer World.objectStore (ascii "b") (1 : Int64).toUInt64 2
      h.layout.extents (resize (List.replicate (1 : UInt64).toNat 0)
        (2 - (1 : Int64).toUInt64).toNat) c.mount.world =
      (.error (c.mount.world.getFailure key 416), c.mount.world) := by
    rw [hextents]
    have hover : ¬ max (1 : Int64).toUInt64 0 ≥ min 2 (0 + 2) := by decide
    have hfirst : (0 : UInt64) + (max (1 : Int64).toUInt64 0 - 0) = 1 := by decide
    have hlength : min 2 (0 + 2) - max (1 : Int64).toUInt64 0 = 1 := by decide
    simp only [readExtentsIntoBuffer, extentEnd, hover, if_false, hfirst, hlength, hmiss]
  rw [Client.step_read hc.opened]
  simp only [Mount.pulpfsRead, hget, World.backend, readFromHandle, hstart, hend, readLayers,
    hc.config, hloop]
  exact congrArg (fun errno => some (FuseReply.err errno)) (toErrno_errorFromS3Failure _ _ _)

end

/-- Two bytes are flushed, `n` writes go elsewhere, and one byte is written over the first. -/
def wrappedOps (n : ℕ) : List Op :=
  ([.open oRdwr, .write [1, 2] 0, .flush] ++ List.replicate n (.write [0] 5)) ++
    [.write [9] 0, .read 1 1]

/-- The bytes the POSIX file has while the writes go elsewhere. -/
def OverwrittenBytes (p : PosixFile) : Prop :=
  p = ⟨[1, 2], some ⟨true, false⟩⟩ ∨ p = ⟨[1, 2, 0, 0, 0, 0], some ⟨true, false⟩⟩

theorem wrappedOps_posix (n : ℕ) :
    (∀ e ∈ trace PosixFile.step (wrappedOps n) ⟨[], none⟩, e.before.InRange e.input) ∧
      ((trace PosixFile.step (wrappedOps n) ⟨[], none⟩).map Step.output).getLast? =
        some (some [2]) := by
  have hinput {p : PosixFile} : ∀ e ∈ trace PosixFile.step (List.replicate n (.write [0] 5)) p,
      e.input = .write [0] 5 := by
    intro e he
    have hmem := List.mem_map_of_mem (f := Step.input) he
    rw [trace_input] at hmem
    exact List.eq_of_mem_replicate hmem
  have hstep {p : PosixFile} : ∀ e ∈ trace PosixFile.step (List.replicate n (.write [0] 5)) p,
      OverwrittenBytes e.before → OverwrittenBytes e.after := by
    intro e he hb
    have hstep := trace_step he
    rw [hinput e he] at hstep
    rcases hb with hb | hb
    · rw [hb] at hstep
      exact .inr (congrArg Prod.snd hstep).symm
    · rw [hb] at hstep
      exact .inr (congrArg Prod.snd hstep).symm
  have hfirst : OverwrittenBytes (final PosixFile.step [.open oRdwr, .write [1, 2] 0, .flush]
      ⟨[], none⟩) := .inl (by decide)
  obtain ⟨hlast, hall⟩ := invariant hfirst hstep
  unfold wrappedOps
  simp only [trace_append, final_append, List.forall_mem_append, List.map_append]
  refine ⟨⟨⟨by decide, ?_⟩, ?_⟩, ?_⟩
  · intro e he
    rw [hinput e he]
    rcases (hall e he).1 with hb | hb
    · rw [hb]
      decide
    · rw [hb]
      decide
  · rcases hlast with hb | hb
    · rw [hb]
      decide
    · rw [hb]
      decide
  · rcases hlast with hb | hb
    · rw [hb, List.getLast?_append]
      rfl
    · rw [hb, List.getLast?_append]
      rfl

set_option maxRecDepth 8192 in
/-- The object of the flushed write comes from the first key. -/
theorem newFile_flushed : ∃ layout, WritesInPlace ⟨oRdwr, 1, true⟩ layout ⟨ascii "w", 2⟩
      (final (@Client.step .insertion 2) [.open oRdwr, .write [1, 2] 0, .flush] newFile) ∧
    layout.attrs.size = 2 ∧ layout.extents =
      [{ length := 2, objectKey := ascii "chunks/2/w/1/0", objectSize := 2 }] := by
  have hhandle : ((final (@Client.step .insertion 2) [.open oRdwr, .write [1, 2] 0, .flush]
      newFile).mount.server.getFileHandle 1).map (fun h =>
        (h.append, h.writable, h.layout.attrs.size, h.layout.extents)) = some (false, true, 2,
      [{ length := 2, objectKey := ascii "chunks/2/w/1/0", objectSize := 2 }]) := by decide
  obtain ⟨h, hget, hfields⟩ := Option.map_eq_some_iff.mp hhandle
  simp only [Prod.mk.injEq] at hfields
  obtain ⟨happend, hwritable, hsize, hextents⟩ := hfields
  exact ⟨h.layout, ⟨by decide, ⟨h, hget, rfl, happend, hwritable⟩, by decide, by decide,
    fun _ => ⟨[], rfl⟩⟩, hsize, hextents⟩

/-- The key sequence comes round to the first key. -/
theorem wrappedOps_replies {n : ℕ} (hn : 2 + UInt64.ofNat n = 1) :
    ((trace (@Client.step .insertion 2) (wrappedOps n) newFile).map readReply).getLast? =
      some (some (.err .eagain)) := by
  obtain ⟨layout, hc, hsize, hextents⟩ := newFile_flushed
  have hmany := @WritesInPlace.replicate .insertion 2 _ _ _ _ hc n [0] 5
  simp only [hn] at hmany
  obtain ⟨hover, hobject⟩ := @WritesInPlace.write .insertion 2 _ _ _ _ hmany [9] 0
  have hkey : ObjectKeyGenerator.keyAt ⟨ascii "w", 1⟩ [] 2 1 (0 : Int64).toUInt64 =
      ascii "chunks/2/w/1/0" := by decide
  rw [hkey] at hobject
  have hreply := @WritesInPlace.read .insertion 2 _ _ _ _ hover _ hsize hextents hobject
  unfold wrappedOps
  rw [trace_append, final_append, List.map_append, List.getLast?_append]
  exact congrArg some hreply

/-- With one write more than there are keys, an object is put over one that the file still refers
to, and a read fails that POSIX answers. -/
theorem unlike_posix_after_wrap :
    let ops := wrappedOps (2 ^ 64 - 1)
    (∀ e ∈ trace PosixFile.step ops ⟨[], none⟩, e.before.InRange e.input) ∧
      ((trace PosixFile.step ops ⟨[], none⟩).map Step.output).getLast? = some (some [2]) ∧
      ((trace (@Client.step .insertion 2) ops newFile).map readReply).getLast? =
        some (some (.err .eagain)) :=
  ⟨(wrappedOps_posix _).1, (wrappedOps_posix _).2, wrappedOps_replies (by decide)⟩

end Pulpfs
