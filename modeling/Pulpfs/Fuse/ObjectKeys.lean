import Pulpfs.Fuse.OneFile

/-! Object keys of any number of mounts. A key can be read from its end, where writer id and
number stand behind a prefix that may hold anything, and no mount overwrites an object. -/
namespace Pulpfs
open Function Transition

/-- A list is taken apart at the last place where `a` stands. -/
theorem append_cons_inj_of_notMem_right {α : Type*} {x₁ x₂ y₁ y₂ : List α} {a : α} (h₁ : a ∉ y₁)
    (h₂ : a ∉ y₂) (h : x₁ ++ a :: y₁ = x₂ ++ a :: y₂) : x₁ = x₂ ∧ y₁ = y₂ := by
  have hnone {c y y' : List α} (hy : a ∉ y) (hc : a :: y = c ++ a :: y') : c = [] := by
    cases c with
    | nil => rfl
    | cons d c =>
      obtain ⟨-, rfl⟩ := List.cons.inj hc
      exact absurd (List.mem_append_right _ List.mem_cons_self) hy
  rcases List.append_eq_append_iff.mp h with ⟨c, hx, hy⟩ | ⟨c, hx, hy⟩
  · obtain rfl := hnone h₁ hy
    exact ⟨(List.append_nil _).symm.trans hx.symm, (List.cons.inj hy).2⟩
  · obtain rfl := hnone h₂ hy
    exact ⟨hx.trans (List.append_nil _), (List.cons.inj hy).2.symm⟩

/-- The writer and the number of a key. -/
theorem keyAt_injective {g g' : ObjectKeyGenerator} (hg : 47 ∉ g.writerId)
    (hg' : 47 ∉ g'.writerId) {p p' : Bytes} {ino ino' n n' off off' : UInt64}
    (h : g.keyAt p ino n off = g'.keyAt p' ino' n' off') : g.writerId = g'.writerId ∧ n = n' := by
  have hslash (x y : Bytes) : x ++ ascii "/" ++ y = x ++ 47 :: y := List.append_assoc x [47] y
  unfold ObjectKeyGenerator.keyAt at h
  -- Offset, number and writer id are cut off one after the other.
  rw [hslash _ (toDecimal off), hslash _ (toDecimal off')] at h
  obtain ⟨h, -⟩ := append_cons_inj_of_notMem_right (slash_notMem_toDecimal _)
    (slash_notMem_toDecimal _) h
  rw [hslash _ (toDecimal n), hslash _ (toDecimal n')] at h
  obtain ⟨h, hn⟩ := append_cons_inj_of_notMem_right (slash_notMem_toDecimal _)
    (slash_notMem_toDecimal _) h
  rw [hslash _ g.writerId, hslash _ g'.writerId] at h
  exact ⟨(append_cons_inj_of_notMem_right hg hg' h).2, toDecimal_injective hn⟩

/-- `std::hex` under `setfill('0')` and `setw(16)`. -/
def toHex16 (n : UInt64) : Bytes :=
  let digits := (Nat.toDigits 16 n.toNat).map fun c => c.toUInt8
  List.replicate (16 - digits.length) 48 ++ digits

/-- `MakeWriterId` on its two random numbers and its reading of the clock. -/
def makeWriterId (randomHi randomLo now : UInt64) : Bytes :=
  toHex16 randomHi ++ toHex16 (randomLo ^^^ now)

theorem exists_digitChar_of_mem {n : ℕ} {c : Char} (h : c ∈ Nat.toDigits 16 n) :
    ∃ d < 16, c = Nat.digitChar d := by
  induction n using Nat.strong_induction_on with
  | _ n ih =>
    rw [Nat.toDigits_eq_if (by omega)] at h
    split at h
    next hlt => exact ⟨n, hlt, List.mem_singleton.mp h⟩
    next hge =>
      rcases List.mem_append.mp h with h | h
      · exact ih (n / 16) (by omega) h
      · exact ⟨n % 16, by omega, List.mem_singleton.mp h⟩

theorem exists_digit_of_mem_makeWriterId {randomHi randomLo now : UInt64} {b : UInt8}
    (h : b ∈ makeWriterId randomHi randomLo now) : ∃ d < 16, b = (Nat.digitChar d).toUInt8 := by
  have hhex {n : UInt64} (h : b ∈ toHex16 n) : ∃ d < 16, b = (Nat.digitChar d).toUInt8 := by
    rcases List.mem_append.mp h with h | h
    · exact ⟨0, by omega, (List.mem_replicate.mp h).2⟩
    · obtain ⟨c, hc, rfl⟩ := List.mem_map.mp h
      obtain ⟨d, hd, rfl⟩ := exists_digitChar_of_mem hc
      exact ⟨d, hd, rfl⟩
  exact (List.mem_append.mp h).elim hhex hhex

/-- A byte that is no hexadecimal digit is not in a writer id that a mount makes for itself. -/
theorem notMem_makeWriterId {b : UInt8} (hb : ∀ d < 16, (Nat.digitChar d).toUInt8 ≠ b)
    (randomHi randomLo now : UInt64) : b ∉ makeWriterId randomHi randomLo now := by
  intro h
  obtain ⟨d, hd, rfl⟩ := exists_digit_of_mem_makeWriterId h
  exact hb d hd rfl

theorem slash_notMem_makeWriterId (randomHi randomLo now : UInt64) :
    47 ∉ makeWriterId randomHi randomLo now := notMem_makeWriterId (by decide) _ _ _

/-- A call of `MakeObjectKey` on one of several generators. -/
structure KeyCall (ι : Type) where
  generator : ι
  objectPrefix : Bytes
  inodeId : UInt64
  offset : UInt64
  deriving DecidableEq

section Generators

variable {ι : Type} [DecidableEq ι]

def makeKey (c : KeyCall ι) (generators : ι → ObjectKeyGenerator) :
    Bytes × (ι → ObjectKeyGenerator) :=
  let made := (generators c.generator).makeObjectKey c.objectPrefix c.inodeId c.offset
  (made.1, update generators c.generator made.2)

/-- The keys a run of calls returns. -/
def keysOf (calls : List (KeyCall ι)) (generators : ι → ObjectKeyGenerator) : List Bytes :=
  (trace makeKey calls generators).map Step.output

@[simp] theorem keysOf_nil (generators : ι → ObjectKeyGenerator) : keysOf [] generators = [] := rfl

theorem keysOf_cons (c : KeyCall ι) (calls : List (KeyCall ι))
    (generators : ι → ObjectKeyGenerator) :
    keysOf (c :: calls) generators =
      (generators c.generator).keyAt c.objectPrefix c.inodeId
        (generators c.generator).nextSequence c.offset ::
      keysOf calls (makeKey c generators).2 := rfl

/-- How many keys a generator is asked for. -/
def callsOn (i : ι) (calls : List (KeyCall ι)) : ℕ := calls.countP fun c => c.generator = i

theorem callsOn_cons (i : ι) (c : KeyCall ι) (calls : List (KeyCall ι)) :
    callsOn i (c :: calls) = callsOn i calls + if c.generator = i then 1 else 0 := by
  simp [callsOn, List.countP_cons]

theorem makeKey_snd (c : KeyCall ι) (generators : ι → ObjectKeyGenerator) :
    (makeKey c generators).2 = update generators c.generator
      { generators c.generator with
        nextSequence := (generators c.generator).nextSequence + 1 } := rfl

theorem makeKey_writerId (c : KeyCall ι) (generators : ι → ObjectKeyGenerator) (i : ι) :
    ((makeKey c generators).2 i).writerId = (generators i).writerId := by
  rw [makeKey_snd]
  by_cases hi : i = c.generator
  · rw [hi, update_self]
  · rw [update_of_ne hi]

/-- A key of a run bears the writer id of a generator and one of the numbers it has to give. -/
theorem exists_of_mem_keysOf {calls : List (KeyCall ι)} {generators : ι → ObjectKeyGenerator}
    {key : Bytes} (h : key ∈ keysOf calls generators) :
    ∃ i, ∃ n < callsOn i calls, ∃ p ino off, key = (generators i).keyAt p ino
      ((generators i).nextSequence + UInt64.ofNat n) off := by
  induction calls generalizing generators with
  | nil => exact absurd h List.not_mem_nil
  | cons c calls ih =>
    rw [keysOf_cons, List.mem_cons] at h
    rcases h with rfl | h
    · refine ⟨c.generator, 0, ?_, c.objectPrefix, c.inodeId, c.offset, ?_⟩
      · rw [callsOn_cons, if_pos rfl]
        omega
      · exact congrArg (fun n => ObjectKeyGenerator.keyAt _ _ _ n _) (UInt64.add_zero _).symm
    · obtain ⟨i, n, hn, p, ino, off, rfl⟩ := ih h
      by_cases hi : i = c.generator
      · subst hi
        refine ⟨c.generator, n + 1, ?_, p, ino, off, ?_⟩
        · rw [callsOn_cons, if_pos rfl]
          omega
        · have hsum : (generators c.generator).nextSequence + UInt64.ofNat (n + 1) =
              (generators c.generator).nextSequence + 1 + UInt64.ofNat n := by
            rw [UInt64.ofNat_add, UInt64.add_comm (UInt64.ofNat n), UInt64.add_assoc]
            rfl
          rw [hsum, makeKey_snd, update_self]
          rfl
      · refine ⟨i, n, ?_, p, ino, off, ?_⟩
        · rw [callsOn_cons]
          omega
        · rw [makeKey_snd, update_of_ne hi]

/-- As long as no generator's numbers come round, no key comes twice. -/
theorem nodup_keysOf {calls : List (KeyCall ι)} {generators : ι → ObjectKeyGenerator}
    (hdistinct : Injective fun i => (generators i).writerId)
    (hslash : ∀ i, 47 ∉ (generators i).writerId) (room : ∀ i, callsOn i calls < 2 ^ 64) :
    (keysOf calls generators).Nodup := by
  induction calls generalizing generators with
  | nil => exact .nil
  | cons c calls ih =>
    have hwriter := makeKey_writerId c generators
    rw [keysOf_cons, List.nodup_cons]
    constructor
    · intro hmem
      obtain ⟨i, n, hn, p, ino, off, hkey⟩ := exists_of_mem_keysOf hmem
      obtain ⟨hw, hnumber⟩ := keyAt_injective (hslash _) (by rw [hwriter]; exact hslash i) hkey
      obtain rfl : c.generator = i := hdistinct (hw.trans (hwriter i))
      have hroom := room c.generator
      rw [callsOn_cons, if_pos rfl] at hroom
      rw [makeKey_snd, update_self] at hnumber
      have hnat := congrArg UInt64.toNat hnumber
      have hlt := (generators c.generator).nextSequence.toNat_lt
      simp only [UInt64.toNat_add, UInt64.toNat_ofNat',
        UInt64.toNat_one] at hnat
      omega
    · refine ih ?_ ?_ ?_
      · simpa only [hwriter] using hdistinct
      · simpa only [hwriter] using hslash
      · intro i
        have hroom := room i
        rw [callsOn_cons] at hroom
        omega

end Generators

/-- Every call of a backend but an upload takes the world along `R`. -/
structure Backend.Moves {σ : Type} (b : Backend σ) (R : σ → σ → Prop) : Prop where
  refl : ∀ w, R w w
  trans : ∀ {w w' w''}, R w w' → R w' w'' → R w w''
  createFile : ∀ p name mode uid gid w, R w (b.metaClient.createFile p name mode uid gid w).2
  getAttr : ∀ i w, R w (b.metaClient.getAttr i w).2
  getLayout : ∀ i w, R w (b.metaClient.getLayout i w).2
  commitWrite : ∀ i v es w, R w (b.metaClient.commitWrite i v es w).2
  appendWrite : ∀ i v es w, R w (b.metaClient.appendWrite i v es w).2
  truncate : ∀ i size w, R w (b.metaClient.truncate i size w).2
  getObject : ∀ store, b.objectStore = some store → ∀ request w, R w (store.getObject request w).2

namespace Backend.Moves

variable {σ : Type} {b : Backend σ} {R : σ → σ → Prop} (hb : b.Moves R)

omit hb in
/-- Where a call is known to end. -/
theorem land {α : Type} {r : α × σ} {a : α} {w w' : σ} (h : R w r.2) (he : r = (a, w')) :
    R w w' := by
  rw [he] at h
  exact h

omit hb in
theorem land_snd {α β : Type} {r : α × β × σ} {a : α} {c : β} {w w' : σ} (h : R w r.2.2)
    (he : r = (a, c, w')) : R w w' := by
  rw [he] at h
  exact h

include hb

theorem refreshLayout (h : FuseFileHandle) (w : σ) :
    R w (refreshLayout b.metaClient h w).2 := by
  have hcall := hb.getLayout h.inodeId w
  unfold Pulpfs.refreshLayout
  split
  next he => exact land hcall he
  next he => exact land hcall he

theorem commitExtents (h : FuseFileHandle) (w : σ) :
    R w (commitExtents b.metaClient h w).2.2 := by
  have hcall := hb.commitWrite h.inodeId h.layout.attrs.version h.pendingExtents w
  unfold Pulpfs.commitExtents
  split
  · exact hb.refl w
  · split
    next he => exact land hcall he
    next he => exact hb.trans (land hcall he) (hb.refreshLayout _ _)

theorem commitAppends (h : FuseFileHandle) (w : σ) :
    R w (commitAppends b.metaClient h w).2.2 := by
  have hcall := hb.appendWrite h.inodeId h.layout.attrs.version h.pendingAppendExtents w
  unfold Pulpfs.commitAppends
  split
  · exact hb.refl w
  · split
    next he => exact land hcall he
    next he => exact hb.trans (land hcall he) (hb.refreshLayout _ _)

theorem commitHandle (h : FuseFileHandle) (w : σ) :
    R w (commitHandle b.metaClient h w).2.2 := by
  have hcall := hb.commitExtents h w
  unfold Pulpfs.commitHandle
  split
  next he => exact land_snd hcall he
  next he => exact hb.trans (land_snd hcall he) (hb.commitAppends _ _)

theorem openLayout (ino : UInt64) (flags : UInt32) (w : σ) :
    R w (openLayout b.metaClient ino flags w).2 := by
  have hget := hb.getLayout ino
  have htruncate := hb.truncate ino 0
  unfold Pulpfs.openLayout
  split
  next he => exact land (hget w) he
  next w₁ he =>
    have hfirst : R w w₁ := land (hget w) he
    split
    · exact hfirst
    · split
      · split
        next he => exact hb.trans hfirst (land (htruncate _) he)
        next w₂ he =>
          have hsecond : R w w₂ := hb.trans hfirst (land (htruncate _) he)
          split
          next he => exact hb.trans hsecond (land (hget _) he)
          next he => exact hb.trans hsecond (land (hget _) he)
      · exact hfirst

theorem readExtents {store : ObjectStore σ} (hstore : b.objectStore = some store)
    (bucket : Bytes) (readBegin readEnd : UInt64) (extents : List FileExtent) (output : Bytes)
    (w : σ) :
    R w (readExtentsIntoBuffer store bucket readBegin readEnd extents output w).2 := by
  induction extents generalizing output w with
  | nil => exact hb.refl w
  | cons e extents ih =>
    unfold readExtentsIntoBuffer
    have hcall := hb.getObject store hstore
    simp only
    split
    · exact ih output w
    · split
      next he => exact land (hcall _ w) he
      next he => exact hb.trans (land (hcall _ w) he) (ih _ _)

theorem readFromHandle {store : ObjectStore σ} (hstore : b.objectStore = some store)
    (bucket : Bytes) (h : FuseFileHandle) (size : UInt64) (off : Int64) (w : σ) :
    R w (readFromHandle store bucket h size off w).2 := by
  have hread := hb.readExtents hstore bucket
  unfold Pulpfs.readFromHandle
  simp only
  split
  · exact hb.refl w
  · split
    · exact hb.refl w
    · split
      · exact hb.refl w
      · unfold readLayers
        split
        next he => exact land (hread _ _ _ _ _) he
        next he =>
          refine hb.trans (land (hread _ _ _ _ _) he) ?_
          split
          next he => exact land (hread _ _ _ _ _) he
          next he => exact hb.trans (land (hread _ _ _ _ _) he) (hread _ _ _ _ _)

end Backend.Moves

/-- The inode and offset a request has `MakeObjectKey` called with, if it comes to that. -/
def FuseServer.keyRequest (server : FuseServer) : Request → Option (UInt64 × UInt64)
  | .write ino _ off fi =>
    match server.getFileHandle fi.fh with
    | none => none
    | some handle =>
      if handle.writable && !server.config.bucket.isEmpty then some (ino, handle.writeOffset off)
      else none
  | _ => none

/-- A request that makes no key makes no upload either. -/
theorem serve_of_no_key {σ : Type} {b : Backend σ} {R : σ → σ → Prop} (hb : b.Moves R)
    {m : Mount σ} {r : Request} (h : m.server.keyRequest r = none) :
    R m.world (m.serve b r).2.world ∧
      (m.serve b r).2.server.objectKeyGenerator = m.server.objectKeyGenerator := by
  have hcommit (id : UInt64) : R m.world (m.commit b id).2.world ∧
      (m.commit b id).2.server.objectKeyGenerator = m.server.objectKeyGenerator := by
    unfold Mount.commit
    split
    · exact ⟨hb.refl _, rfl⟩
    · exact ⟨hb.commitHandle _ _, rfl⟩
  cases r with
  | create p name mode uid gid fi =>
    have hcall := hb.createFile p name (mode &&& kModeMask) uid gid m.world
    simp only [Mount.serve, Mount.pulpfsCreate]
    split
    next he => exact ⟨Backend.Moves.land hcall he, rfl⟩
    next he =>
      exact ⟨hb.trans (Backend.Moves.land hcall he) (hb.refreshLayout _ _), rfl⟩
  | «open» ino fi =>
    have hcall := hb.openLayout ino fi.flags m.world
    simp only [Mount.serve, Mount.pulpfsOpen]
    split
    next he => exact ⟨Backend.Moves.land hcall he, rfl⟩
    next he => exact ⟨Backend.Moves.land hcall he, rfl⟩
  | opendir ino fi =>
    have hcall := hb.getAttr ino m.world
    simp only [Mount.serve, Mount.pulpfsOpenDir]
    split
    next he => exact ⟨Backend.Moves.land hcall he, rfl⟩
    next he =>
      split
      · exact ⟨Backend.Moves.land hcall he, rfl⟩
      · exact ⟨Backend.Moves.land hcall he, rfl⟩
  | read ino size off fi =>
    simp only [Mount.serve, Mount.pulpfsRead]
    split
    · exact ⟨hb.refl _, rfl⟩
    · split
      · exact ⟨hb.refl _, rfl⟩
      next hstore =>
        have hcall := hb.readFromHandle hstore m.server.config.bucket
        split
        next he => exact ⟨Backend.Moves.land (hcall _ _ _ _) he, rfl⟩
        next he => exact ⟨Backend.Moves.land (hcall _ _ _ _) he, rfl⟩
  | write ino buf off fi =>
    simp only [FuseServer.keyRequest] at h
    simp only [Mount.serve, Mount.pulpfsWrite]
    split
    · exact ⟨hb.refl _, rfl⟩
    next handle hget =>
      simp only [hget, ite_eq_right_iff, reduceCtorEq, imp_false, Bool.and_eq_true,
        Bool.not_eq_true', not_and, Bool.not_eq_false] at h
      split
      · exact ⟨hb.refl _, rfl⟩
      next hw =>
        split
        · exact ⟨hb.refl _, rfl⟩
        · rw [if_pos (h (by simpa using hw))]
          exact ⟨hb.refl _, rfl⟩
  | flush ino fi => exact hcommit fi.fh
  | fsync ino datasync fi => exact hcommit fi.fh
  | release ino fi => exact hcommit fi.fh
  | releasedir ino fi => exact hcommit fi.fh

section World

variable [OffsetSort]

theorem World.propose_objects {α : Type} (w : World) (c : Command)
    (read : RaftCommandResponse → Except Error α) : (w.propose c read).2.objects = w.objects := by
  unfold propose
  simp only
  split
  · rfl
  · rfl
  · split <;> rfl

omit [OffsetSort] in
theorem World.query_objects {α : Type} (w : World) (read : MetaState → Outcome α) :
    (w.query read).2.objects = w.objects := by
  rw [w.query_world read]
  rfl

omit [OffsetSort] in
theorem World.getObject_objects (w : World) (request : GetObjectRequest) :
    (w.getObject request).2.objects = w.objects := by
  unfold getObject
  split
  · rfl
  · rfl
  · rfl
  · split
    · rfl
    · simp only
      split <;> rfl

/-- Nothing but an upload changes what is stored. -/
theorem backend_moves : World.backend.Moves fun w w' => w'.objects = w.objects where
  refl _ := rfl
  trans h h' := h'.trans h
  createFile _ _ _ _ _ w := w.propose_objects _ _
  getAttr _ w := w.query_objects _
  getLayout _ w := w.query_objects _
  commitWrite _ _ _ w := w.propose_objects _ _
  appendWrite _ _ _ w := w.propose_objects _ _
  truncate _ _ w := w.propose_objects _ _
  getObject store hstore request w := by
    obtain rfl := Option.some.inj hstore
    exact w.getObject_objects request

/-- A request that makes a key puts its object there or nowhere. -/
theorem serve_of_key {m : Mount World} {r : Request} {ino off : UInt64}
    (h : m.server.keyRequest r = some (ino, off)) :
    (m.serve World.backend r).2.server.objectKeyGenerator =
        (m.server.countObjectKey ino off).objectKeyGenerator ∧
      ((m.serve World.backend r).2.world.objects = m.world.objects ∨
        ∃ body, (m.serve World.backend r).2.world.objects = update m.world.objects
          (m.server.config.bucket, m.server.nextObjectKey ino off) (some body)) := by
  cases r with
  | write ino' buf off' fi =>
    simp only [FuseServer.keyRequest] at h
    split at h
    next => contradiction
    next handle hget =>
      split at h
      next hok =>
        obtain ⟨rfl, rfl⟩ := Prod.mk.inj (Option.some.inj h)
        rw [Bool.and_eq_true, Bool.not_eq_true'] at hok
        obtain ⟨hw, hbucket⟩ := hok
        have hput := World.putExtent_cases m.server.config.bucket
          (m.server.nextObjectKey ino' (handle.writeOffset off')) buf (handle.writeOffset off')
          m.world
        unfold FuseFileHandle.writeOffset at hput ⊢
        simp only [Mount.serve, Mount.pulpfsWrite, hget, World.backend, hw, hbucket, Bool.not_true,
          Bool.false_eq_true, if_false]
        rcases hput with ⟨e, w', hput, rfl | rfl⟩ | ⟨extent, hput, -⟩
        · rw [hput]
          exact ⟨rfl, .inr ⟨buf, rfl⟩⟩
        · rw [hput]
          exact ⟨rfl, .inl rfl⟩
        · rw [hput]
          exact ⟨rfl, .inr ⟨buf, rfl⟩⟩
      next => contradiction
  | _ => contradiction

end World

/-- Any number of mounts of one file system. -/
structure Mounts (ι : Type) where
  servers : ι → FuseServer
  world : World

/-- A mount serves a request, or something else happens to the world. -/
inductive MountEvent (ι : Type) where
  | request (mount : ι) (request : Request)
  | outside (world : World)

namespace Mounts

variable {ι : Type} [DecidableEq ι] [OffsetSort]

def step (event : MountEvent ι) (ms : Mounts ι) : Option FuseReply × Mounts ι :=
  match event with
  | .request i r =>
    let result := Mount.serve World.backend ⟨ms.servers i, ms.world⟩ r
    (some result.1, ⟨update ms.servers i result.2.server, result.2.world⟩)
  | .outside w => (none, { ms with world := w })

omit [DecidableEq ι] [OffsetSort] in
/-- The call of `MakeObjectKey` an event leads to. -/
def keyCall (ms : Mounts ι) : MountEvent ι → Option (KeyCall ι)
  | .request i r =>
    ((ms.servers i).keyRequest r).map fun c => ⟨i, (ms.servers i).config.objectPrefix, c.1, c.2⟩
  | .outside _ => none

omit [DecidableEq ι] [OffsetSort] in
def keyCalls (steps : List (Step (Mounts ι) (MountEvent ι) (Option FuseReply))) :
    List (KeyCall ι) := steps.filterMap fun e => e.before.keyCall e.input

omit [DecidableEq ι] [OffsetSort] in
def generators (ms : Mounts ι) : ι → ObjectKeyGenerator :=
  fun i => (ms.servers i).objectKeyGenerator

omit [DecidableEq ι] [OffsetSort] in
/-- No object has one of these keys. -/
def Free (ms : Mounts ι) (keys : List Bytes) : Prop :=
  ∀ bucket, ∀ key ∈ keys, ms.world.objects (bucket, key) = none

omit [DecidableEq ι] [OffsetSort] in
/-- An event outside all mounts uploads nothing; it may delete. -/
def PutsNothing (ms : Mounts ι) : MountEvent ι → Prop
  | .request _ _ => True
  | .outside w => ∀ k body, w.objects k = some body → ms.world.objects k = some body

omit [DecidableEq ι] [OffsetSort] in
/-- A request leaves every stored object as it is. -/
def KeepsObjects (e : Step (Mounts ι) (MountEvent ι) (Option FuseReply)) : Prop :=
  match e.input with
  | .request _ _ => ∀ k body, e.before.world.objects k = some body →
      e.after.world.objects k = some body
  | .outside _ => True

variable {ms : Mounts ι}

/-- An event makes the calls on the generators that it is said to make. -/
theorem generators_step (event : MountEvent ι) : (step event ms).2.generators =
    match ms.keyCall event with
    | none => ms.generators
    | some c => (makeKey c ms.generators).2 := by
  cases event with
  | outside w => rfl
  | request i r =>
    have hupdate (server : FuseServer) :
        (fun j => (update ms.servers i server j).objectKeyGenerator) =
          update ms.generators i server.objectKeyGenerator := by
      funext j
      by_cases hj : j = i
      · rw [hj, update_self, update_self]
      · rw [update_of_ne hj, update_of_ne hj]
        rfl
    refine (hupdate _).trans ?_
    cases hr : (ms.servers i).keyRequest r with
    | none =>
      simp only [keyCall, hr, Option.map_none]
      rw [(serve_of_no_key backend_moves (m := ⟨ms.servers i, ms.world⟩) hr).2]
      exact update_eq_self i ms.generators
    | some c =>
      simp only [keyCall, hr, Option.map_some]
      rw [(serve_of_key (m := ⟨ms.servers i, ms.world⟩) hr).1]
      rfl

/-- An event whose key is unused replaces nothing, and uses no key but that. -/
theorem step_objects {event : MountEvent ι} (hputs : ms.PutsNothing event) {keys : List Bytes}
    (hfree : ms.Free (keysOf (ms.keyCall event).toList ms.generators ++ keys))
    (hnew : ∀ key ∈ keysOf (ms.keyCall event).toList ms.generators, key ∉ keys) :
    KeepsObjects ⟨ms, event, (step event ms).1, (step event ms).2⟩ ∧
      (step event ms).2.Free keys := by
  have hlater : ms.Free keys :=
    fun bucket key hkey => hfree bucket key (List.mem_append_right _ hkey)
  cases event with
  | outside w =>
    refine ⟨trivial, ?_⟩
    intro bucket key hkey
    by_contra hsome
    obtain ⟨body, hbody⟩ := Option.ne_none_iff_exists'.mp hsome
    exact Option.some_ne_none _ ((hputs _ body hbody).symm.trans (hlater bucket key hkey))
  | request i r =>
    have hkept {w' : World} (h : w'.objects = ms.world.objects) :
        (∀ k body, ms.world.objects k = some body → w'.objects k = some body) ∧
          ∀ bucket, ∀ key ∈ keys, w'.objects (bucket, key) = none := by
      rw [h]
      exact ⟨fun _ _ hk => hk, hlater⟩
    cases hr : (ms.servers i).keyRequest r with
    | none => exact hkept (serve_of_no_key backend_moves (m := ⟨ms.servers i, ms.world⟩) hr).1
    | some c =>
      rcases (serve_of_key (m := ⟨ms.servers i, ms.world⟩) hr).2 with hsame | ⟨body, hput⟩
      · exact hkept hsame
      · have hmem : (ms.servers i).nextObjectKey c.1 c.2 ∈
            keysOf (ms.keyCall (.request i r)).toList ms.generators := by
          simp only [keyCall, hr, Option.map_some, Option.toList_some, keysOf_cons]
          exact List.mem_cons_self
        have hunused := hfree (ms.servers i).config.bucket _ (List.mem_append_left _ hmem)
        constructor
        · intro k body' hk
          show (Mount.serve World.backend ⟨ms.servers i, ms.world⟩ r).2.world.objects k = _
          rw [hput, update_of_ne]
          · exact hk
          · rintro rfl
            exact Option.some_ne_none _ (hk.symm.trans hunused)
        · intro bucket key hkey
          show (Mount.serve World.backend ⟨ms.servers i, ms.world⟩ r).2.world.objects _ = _
          rw [hput, update_of_ne]
          · exact hlater bucket key hkey
          · intro he
            exact hnew _ hmem ((Prod.mk.inj he).2 ▸ hkey)

/-- The run lemma. -/
theorem run_objects {events : List (MountEvent ι)}
    (hputs : ∀ e ∈ trace step events ms, e.before.PutsNothing e.input)
    (hfree : ms.Free (keysOf (keyCalls (trace step events ms)) ms.generators))
    (hnodup : (keysOf (keyCalls (trace step events ms)) ms.generators).Nodup) :
    ∀ e ∈ trace step events ms, KeepsObjects e := by
  induction events generalizing ms with
  | nil => exact fun _ he => absurd he List.not_mem_nil
  | cons event events ih =>
    have hsplit : keysOf (keyCalls (trace step (event :: events) ms)) ms.generators =
        keysOf (ms.keyCall event).toList ms.generators ++
          keysOf (keyCalls (trace step events (step event ms).2)) (step event ms).2.generators := by
      rw [generators_step, trace_cons, keyCalls, List.filterMap_cons]
      cases ms.keyCall event with
      | none => rfl
      | some c => rfl
    rw [trace_cons, List.forall_mem_cons] at hputs ⊢
    rw [hsplit] at hfree hnodup
    obtain ⟨-, hrest, hnew⟩ := List.nodup_append.mp hnodup
    obtain ⟨hkeep, hfree'⟩ := step_objects hputs.1 hfree
      fun key hkey hkey' => hnew key hkey key hkey' rfl
    exact ⟨hkeep, ih hputs.2 hfree' hrest⟩

end Mounts

/-- Generators with writer ids of their own and without slashes never return one key twice, and
no request to a mount replaces an object. -/
theorem objectKeys_distinct [OffsetSort] {ι : Type} [DecidableEq ι] {writerId : ι → Bytes}
    (hdistinct : Injective writerId) (hslash : ∀ i, 47 ∉ writerId i) :
    (∀ (sequence : ι → UInt64) (calls : List (KeyCall ι)), (∀ i, callsOn i calls < 2 ^ 64) →
      (keysOf calls fun i => ⟨writerId i, sequence i⟩).Nodup) ∧
    ∀ (config : ι → FuseServerConfig) (w : World) (events : List (MountEvent ι)),
      let steps := trace Mounts.step events ⟨fun i => .fresh (config i) (writerId i), w⟩
      w.objects = (fun _ => none) → (∀ e ∈ steps, e.before.PutsNothing e.input) →
      (∀ i, callsOn i (Mounts.keyCalls steps) < 2 ^ 64) →
      ∀ e ∈ steps, Mounts.KeepsObjects e := by
  have hnodup (sequence : ι → UInt64) (calls : List (KeyCall ι))
      (room : ∀ i, callsOn i calls < 2 ^ 64) :
      (keysOf calls fun i => ⟨writerId i, sequence i⟩).Nodup := nodup_keysOf hdistinct hslash room
  refine ⟨hnodup, ?_⟩
  intro config w events steps hempty hputs room
  refine Mounts.run_objects hputs ?_ (hnodup (fun _ => 1) _ room)
  intro bucket key _
  exact congrFun hempty _

/-- Two mounts write the same file at the same place, under prefixes that look like keys. -/
def twoMounts : Bool → FuseServerConfig
  | false => ⟨ascii "b", ascii "chunks/2/w/1/0"⟩
  | true => ⟨ascii "b", ascii "chunks/2"⟩

def twoWriters : Bool → Bytes
  | false => makeWriterId 0 1 2
  | true => makeWriterId 0 0 1

def twoMountsEvents : List (MountEvent Bool) :=
  [.request false (.create 1 (ascii "f") 0o644 0 0 ⟨oRdwr, 0, false⟩),
    .request false (.write 2 [1, 2] 0 ⟨oRdwr, 1, true⟩),
    .request true (.open 2 ⟨oRdwr, 0, false⟩), .request true (.write 2 [3] 0 ⟨oRdwr, 1, true⟩),
    .outside (.fresh 4096), .request false (.write 2 [4] 0 ⟨oRdwr, 1, true⟩),
    .request true (.flush 2 ⟨oRdwr, 1, true⟩)]

def twoMountsCalls : List (KeyCall Bool) :=
  [⟨false, ascii "p", 2, 0⟩, ⟨true, ascii "p", 2, 0⟩, ⟨false, [], 2, 0⟩]

theorem objectKeys_distinct_twoMounts :
    (@keysOf Bool _ twoMountsCalls fun i => ⟨twoWriters i, 2 ^ 64 - 1⟩).Nodup ∧
      ∀ e ∈ trace (@Mounts.step Bool _ .insertion) twoMountsEvents
        ⟨fun i => .fresh (twoMounts i) (twoWriters i), .fresh 4096⟩, Mounts.KeepsObjects e := by
  have hboth := @objectKeys_distinct .insertion Bool _ twoWriters (by decide)
    (fun i => by
      cases i with
      | false => exact slash_notMem_makeWriterId 0 1 2
      | true => exact slash_notMem_makeWriterId 0 0 1)
  refine ⟨hboth.1 _ _ ?_, hboth.2 _ _ _ rfl ?_ ?_⟩
  · intro i
    exact List.countP_le_length.trans_lt (by decide)
  · intro e he
    have hmem : e.input ∈ twoMountsEvents :=
      trace_input twoMountsEvents _ ▸ List.mem_map_of_mem he
    generalize e.input = event at hmem
    cases event with
    | request i r => trivial
    | outside w =>
      obtain rfl : w = .fresh 4096 := by simpa [twoMountsEvents] using hmem
      intro k body hbody
      cases hbody
  · intro i
    refine List.countP_le_length.trans_lt ((List.length_filterMap_le _ _).trans_lt ?_)
    rw [trace_length]
    decide

end Pulpfs
