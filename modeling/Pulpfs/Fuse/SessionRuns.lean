import Pulpfs.Fuse.Sessions

/-! Runs of all the mounts of a bucket, step for step runs of byte files that are open. -/
namespace Pulpfs
open Overlay Function Transition Sessions

namespace Mounts

variable {ι : Type} (bucket : Bytes)

/-- The files and what is open at each mount. -/
def sessions (ms : Mounts ι) : Sessions.State ι UInt64 UInt64 UInt8 where
  files := ms.world.files bucket
  sessions i := Mount.sessions bucket ⟨ms.servers i, ms.world⟩

def sessionEvent (e : Transition.Step (Mounts ι) (MountEvent ι) (Option FuseReply)) :
    Event ι UInt64 UInt64 UInt8 :=
  match e.input, e.output with
  | .request i r, some reply => Pulpfs.sessionEvent i r reply
  | _, _ => .outside

/-- What the mounts rely on. -/
structure Sound (bucket : Bytes) (ms : Mounts ι) : Prop where
  backed : ms.Backed bucket
  sound : ms.world.service.state.Consistent
  small : ms.world.service.state.Small
  ready : ∀ i id h, (ms.servers i).getFileHandle id = some h → h.Ready

variable [OffsetSort]

/-- A request fits; what else happens is a deletion of objects that nothing refers to, or a call of
the service that commits no data. -/
def Quiet (ms : Mounts ι) : MountEvent ι → Prop
  | .request i r => Mount.Fits ⟨ms.servers i, ms.world⟩ r
  | .outside w => ms.PutsNothing (.outside w) ∧
      (∀ key body, ms.Refers key → ms.world.objects (bucket, key) = some body →
        w.objects (bucket, key) = some body) ∧
      (w.service.state = ms.world.service.state ∨ ∃ c : Call, c.command.extents = [] ∧
        w.service.state = (ms.world.service.state.call c).2)

/-- What happens is a request, and it fits. -/
def FitsRequest (ms : Mounts ι) : MountEvent ι → Prop
  | .request i r => Mount.Fits ⟨ms.servers i, ms.world⟩ r
  | .outside _ => False

instance (ms : Mounts ι) (event : MountEvent ι) : Decidable (ms.FitsRequest event) :=
  match event with
  | .request _ _ => inferInstanceAs (Decidable (Mount.Fits _ _))
  | .outside _ => .isFalse id

variable {bucket} {ms : Mounts ι}

omit [OffsetSort] in
theorem Sound.mount (hs : ms.Sound bucket) (i : ι) :
    Mount.Sound bucket ⟨ms.servers i, ms.world⟩ where
  bucket_eq := hs.backed.buckets i
  backed := ⟨hs.backed.world, hs.backed.handles i⟩
  sound := hs.sound
  small := hs.small
  ready := hs.ready i

theorem Quiet.harmless {event : MountEvent ι} (h : ms.Quiet bucket event) :
    ms.Harmless bucket event := by
  cases event with
  | request i r => trivial
  | outside w =>
    obtain ⟨hputs, hkept, hstate | ⟨c, hc, hstate⟩⟩ := h
    · exact ⟨hputs, hkept, [], by simp, hstate⟩
    · exact ⟨hputs, hkept, [c], by simpa using hc, hstate⟩

/-- A request of one mount. -/
theorem Sound.request [DecidableEq ι] (hs : ms.Sound bucket) {i : ι} {r : Request}
    (hfits : Mount.Fits ⟨ms.servers i, ms.world⟩ r)
    (hkept : ms.world.ObjectsKept (step (.request i r) ms).2.world) :
    let m' := (Mount.serve World.backend ⟨ms.servers i, ms.world⟩ r).2
    Mount.Leads bucket (ms.sessions bucket) i
        (Pulpfs.sessionEvent i r (Mount.serve World.backend ⟨ms.servers i, ms.world⟩ r).1) m' ∧
      (step (.request i r) ms).2.sessions bucket = m'.within bucket (ms.sessions bucket) i := by
  intro m'
  refine ⟨(hs.mount i).serve rfl rfl hfits hkept, ?_⟩
  unfold Mount.within sessions
  congr 1
  funext j
  by_cases hj : j = i
  · subst hj
    rw [update_self, servers_self]
    rfl
  · rw [update_of_ne hj, servers_of_ne hj]
    exact (hs.mount j).backed.sessions_same hkept rfl

omit [OffsetSort] in
/-- A call that commits no data changes files as if nobody wrote to them. -/
theorem changes_of_contents (value : ObjectByte → UInt8) {s s' : MetaState} (hs : s.Consistent)
    {f : UInt64}
    (h : Untouched (s.contents f) (s'.contents f) ∨
      (s.contents f = none ∧ s'.contents f = some .empty) ∨
      ∃ r n, s.contents f = some r ∧ s'.contents f = some (r.truncate n)) :
    Changes 0 ((s.contents f).map fun r => r.bytes value 0)
      ((s'.contents f).map fun r => r.bytes value 0) := by
  rcases h with hu | ⟨hbefore, hafter⟩ | ⟨r, n, hbefore, hafter⟩
  · generalize s'.contents f = after at hu
    cases hu with
    | kept => exact .kept _
    | removed => exact .removed _
  · rw [hbefore, hafter]
    exact .created
  · rw [hbefore, hafter]
    simp only [Option.map_some, SparseFile.bytes_truncate value 0 (hs.confined f r hbefore)]
    exact .resized _ n

theorem Sound.outside (hs : ms.Sound bucket) {w : World} (hquiet : ms.Quiet bucket (.outside w)) :
    (∀ f, Changes 0 (ms.world.files bucket f) (w.files bucket f)) ∧
      ((Mounts.mk ms.servers w).sessions bucket).sessions = (ms.sessions bucket).sessions ∧
      w.service.state.Consistent := by
  have hbacked := hs.backed.outside hquiet.harmless
  obtain ⟨hputs, -, hstate⟩ := hquiet
  -- nothing that is still referred to has changed, so each world shows it alike
  have hkept : w.ObjectsKept { w with objects := ms.world.objects } := hputs
  have hfiles (f : UInt64) : w.files bucket f =
      (w.service.state.contents f).map fun r => r.bytes (ms.world.byteAt bucket) 0 :=
    (hbacked.world.files_kept hkept rfl).symm
  refine ⟨fun f => ?_, ?_, ?_⟩
  · rw [hfiles]
    rcases hstate with hsame | ⟨c, hc, hstate⟩
    · rw [hsame]
      exact .kept _
    · refine changes_of_contents _ hs.sound ?_
      rw [hstate]
      exact hs.sound.contents_of_none c.clock hc f
  · funext i id
    show ((ms.servers i).getFileHandle id).map (w.session bucket) =
      ((ms.servers i).getFileHandle id).map (ms.world.session bucket)
    cases hget : (ms.servers i).getFileHandle id with
    | none => rfl
    | some h =>
      have hbacks : w.Backs bucket h := hbacked.world.backs (hbacked.handles i id h hget)
      have hback : w.ObjectsKept ms.world := hputs
      exact congrArg some (hbacks.session_kept hback).symm
  · rcases hstate with hsame | ⟨c, hc, hstate⟩
    · rw [hsame]
      exact hs.sound
    · rw [hstate]
      exact hs.sound.execute c.clock (MetaState.accepted_of_none hc)
        (fun f _ => MetaState.noOverflow_of_none hc _) hs.small.room

variable [DecidableEq ι]

/-- The step lemma. -/
theorem Sound.step (hs : ms.Sound bucket) {event : MountEvent ι}
    (hquiet : ms.Quiet bucket event)
    (hkeeps : KeepsObjects ⟨ms, event, (step event ms).1, (step event ms).2⟩)
    (hsmall : (step event ms).2.world.service.state.Small) :
    Sessions.Step 0 (ms.sessions bucket)
        (sessionEvent ⟨ms, event, (step event ms).1, (step event ms).2⟩)
        ((step event ms).2.sessions bucket) ∧ (step event ms).2.Sound bucket := by
  have hbacked := hs.backed.step hquiet.harmless hkeeps
  cases event with
  | outside w =>
    obtain ⟨hchanges, hsessions, hsound⟩ := hs.outside hquiet
    exact ⟨.outside hchanges hsessions, hbacked, hsound, hsmall, hs.ready⟩
  | request i r =>
    obtain ⟨hleads, hwithin⟩ := hs.request hquiet hkeeps
    refine ⟨?_, hbacked, hleads.sound, hsmall, fun j id h hget => ?_⟩
    · rw [hwithin]
      exact hleads.step
    · by_cases hj : j = i
      · rw [hj, servers_self] at hget
        exact hleads.ready hsmall id h hget
      · rw [servers_of_ne hj] at hget
        exact hs.ready j id h hget

/-- An open is given the next number. -/
theorem step_opens (event : MountEvent ι) (ms : Mounts ι) (j : ι) :
    (((step event ms).2.servers j).nextHandleId = (ms.servers j).nextHandleId ∧
      ∀ id, ¬ (sessionEvent ⟨ms, event, (step event ms).1, (step event ms).2⟩).Opens j id) ∨
    ((step event ms).2.servers j).nextHandleId = (ms.servers j).nextHandleId + 1 ∧
      ∀ id, (sessionEvent ⟨ms, event, (step event ms).1, (step event ms).2⟩).Opens j id →
        id = (ms.servers j).nextHandleId := by
  cases event with
  | outside w => exact .inl ⟨rfl, fun _ => id⟩
  | request i r =>
    by_cases hj : j = i
    · subst hj
      rw [servers_self]
      exact Mount.serve_opens World.backend ⟨ms.servers j, ms.world⟩ j r
    · rw [servers_of_ne hj]
      exact .inl ⟨rfl, fun id hopens => hj (sessionEvent_client hopens).symm⟩

/-- No number is given twice in fewer than `2 ^ 64` steps. -/
theorem run_opens {events : List (MountEvent ι)} {ms : Mounts ι} {j : ι} {id : UInt64} {k : ℕ}
    (hpos : 0 < k) (hlt : k + events.length < 2 ^ 64)
    (hnext : (ms.servers j).nextHandleId = id + UInt64.ofNat k) :
    ∀ e ∈ trace step events ms, ¬ (sessionEvent e).Opens j id := by
  induction events generalizing ms k with
  | nil => simp
  | cons event events ih =>
    rw [List.length_cons] at hlt
    rw [trace_cons, List.forall_mem_cons]
    rcases step_opens event ms j with ⟨hsame, hnone⟩ | ⟨hsucc, hgiven⟩
    · exact ⟨hnone id, ih hpos (by omega) (hsame.trans hnext)⟩
    · refine ⟨fun hopens => ?_, ih (k := k + 1) (by omega) (by omega) ?_⟩
      · have hzero := congrArg UInt64.toNat ((hgiven id hopens).trans hnext)
        rw [UInt64.toNat_add, UInt64.toNat_ofNat'] at hzero
        have hid := id.toNat_lt
        omega
      · rw [hsucc, hnext, UInt64.ofNat_add, UInt64.add_assoc]
        rfl

/-- Steps that meet a condition make a run that does. -/
theorem run_of_steps {P : Sessions.State ι UInt64 UInt64 UInt8 → Event ι UInt64 UInt64 UInt8 →
      Sessions.State ι UInt64 UInt64 UInt8 → Prop}
    {events : List (MountEvent ι)} {ms : Mounts ι}
    (hsteps : ∀ e ∈ trace step events ms, Sessions.Step 0 (e.before.sessions bucket)
      (sessionEvent e) (e.after.sessions bucket))
    (hP : ∀ e ∈ trace step events ms, P (e.before.sessions bucket) (sessionEvent e)
      (e.after.sessions bucket)) :
    Run 0 P (ms.sessions bucket) ((trace step events ms).map sessionEvent)
      ((final step events ms).sessions bucket) := by
  induction events generalizing ms with
  | nil => exact .nil _
  | cons event events ih =>
    rw [trace_cons, List.forall_mem_cons] at hsteps hP
    exact .cons hsteps.1 hP.1 (ih hsteps.2 hP.2)

section Start

variable {writerId : ι → Bytes} {config : ι → FuseServerConfig} {w : World} {chunkSize : UInt64}
  {nowNs : Int64} (hfresh : w.service.state = .fresh chunkSize nowNs)
include hfresh

omit [OffsetSort] [DecidableEq ι] in
theorem sound_start (hbucket : ∀ i, (config i).bucket = bucket) :
    Sound bucket ⟨fun i => .fresh (config i) (writerId i), w⟩ := by
  refine ⟨backed_start hbucket hfresh, ?_, ?_, fun i id h hget => ?_⟩
  · show w.service.state.Consistent
    rw [hfresh]
    exact MetaState.consistent_fresh chunkSize nowNs
  · show w.service.state.Small
    rw [hfresh]
    exact MetaState.small_fresh chunkSize nowNs
  · have hnone := FuseServer.getFileHandle_fresh (config i) (writerId i) id
    rw [hnone] at hget
    contradiction

omit [OffsetSort] [DecidableEq ι] in
theorem sessions_start (bucket : Bytes) :
    sessions bucket ⟨fun i => .fresh (config i) (writerId i), w⟩ =
      ⟨fun _ => none, fun _ _ => none⟩ := by
  have hfiles : w.files bucket = fun _ => none := by
    funext f
    unfold World.files
    rw [hfresh]
    exact congrArg (Option.map _) (MetaState.holds_fresh chunkSize nowNs f).contents_eq
  have hsessions (i : ι) : Mount.sessions bucket ⟨.fresh (config i) (writerId i), w⟩ =
      fun _ => none := by
    funext id
    unfold Mount.sessions
    rw [FuseServer.getFileHandle_fresh]
    rfl
  unfold sessions
  rw [hfiles]
  exact congrArg (Sessions.State.mk _) (funext hsessions)

/-- The run lemma. -/
theorem sessions_steps (hdistinct : Injective writerId) (hslash : ∀ i, 47 ∉ writerId i)
    (hbucket : ∀ i, (config i).bucket = bucket) (hempty : w.objects = fun _ => none)
    {events : List (MountEvent ι)} :
    let steps := trace step events ⟨fun i => .fresh (config i) (writerId i), w⟩
    (∀ i, callsOn i (keyCalls steps) < 2 ^ 64) →
    (∀ e ∈ steps, e.before.Quiet bucket e.input ∧ e.after.world.service.state.Small) →
    ∀ e ∈ steps, Sessions.Step 0 (e.before.sessions bucket) (sessionEvent e)
      (e.after.sessions bucket) := by
  intro steps room hquiet
  have hkeeps : ∀ e ∈ steps, KeepsObjects e :=
    keepsObjects_of_start hdistinct hslash hempty room fun e he => (hquiet e he).1.harmless
  have hstep (e) (he : e ∈ steps) (hb : e.before.Sound bucket) :
      Sessions.Step 0 (e.before.sessions bucket) (sessionEvent e) (e.after.sessions bucket) ∧
        e.after.Sound bucket := by
    obtain ⟨hquiet, hsmall⟩ := hquiet e he
    have hone := hb.step hquiet
    rw [trace_step he] at hone
    exact hone (hkeeps e he) hsmall
  have hsound := (invariant (sound_start hfresh hbucket) fun e he hb => (hstep e he hb).2).2
  exact fun e he => (hstep e he (hsound e he).1).1

end Start

end Mounts

def sharedRead : MountEvent Bool := .request true (.read 2 9 0 ⟨oRdwr ||| oAppend, 1, true⟩)

/-- Two mounts of one file, one of which opens it to append once the other has flushed it. -/
def sharedRequests : List (MountEvent Bool) :=
  [.request false (.create 1 (ascii "f") 0o644 0 0 ⟨oRdwr, 0, false⟩),
    .request false (.write 2 [1, 2] 0 ⟨oRdwr, 1, true⟩),
    .request false (.flush 2 ⟨oRdwr, 1, true⟩),
    .request false (.write 2 [4] 5 ⟨oRdwr, 1, true⟩),
    .request true (.open 2 ⟨oRdwr ||| oAppend, 0, false⟩),
    .request true (.write 2 [3] 0 ⟨oRdwr ||| oAppend, 1, true⟩),
    .request false (.release 2 ⟨oRdwr, 1, true⟩),
    sharedRead]

/-- Then a third client cuts it. -/
def sharedEvents : List (MountEvent Bool) :=
  let w := (final (@Mounts.step Bool _ .insertion) sharedRequests lossyMounts).world
  let call : Call := ⟨fun _ => 9, .truncate 2 1⟩
  sharedRequests ++ [.outside
    { w with service := ⟨(@MetaState.call .insertion call w.service.state).2⟩ }]

theorem quiet_sharedRequests :
    ∀ e ∈ trace (@Mounts.step Bool _ .insertion) sharedRequests lossyMounts,
      @Mounts.Quiet Bool (ascii "b") .insertion e.before e.input ∧
        e.after.world.service.state.Small := by
  have hall : ∀ e ∈ trace (@Mounts.step Bool _ .insertion) sharedRequests lossyMounts,
      e.before.FitsRequest e.input ∧ e.after.world.service.state.nextInodeId.toNat + 1 < 2 ^ 64 ∧
        ∀ p ∈ e.after.world.service.state.inodes.toList, p.2.size.toNat < 2 ^ 63 := by
    decide +kernel
  intro e he
  obtain ⟨hfits, room, hsizes⟩ := hall e he
  refine ⟨?_, MetaState.small_of_inodes room hsizes⟩
  generalize e.input = event at hfits
  cases event with
  | request i r => exact hfits
  | outside w => exact hfits.elim

theorem twoWriters_slash (i : Bool) : 47 ∉ twoWriters i := by
  cases i with
  | false => exact slash_notMem_makeWriterId 0 1 2
  | true => exact slash_notMem_makeWriterId 0 0 1

end Pulpfs
