import Pulpfs.Gc.Interleaving
import Pulpfs.Fuse.FileIo

/-! Open files beside the collector. A handle reads from its copy of a layout, of which the
collector knows nothing: it goes by what the metadata referred to and by the age of objects. -/
namespace Pulpfs
open Transition

/-- An open file and when it was opened. -/
structure OpenHandle where
  openedMs : Int64
  inodeId : UInt64
  layout : FileLayout

/-- What `PulpfsRead` finds under the handle as long as nothing was written through it. -/
def OpenHandle.file (h : OpenHandle) : FuseFileHandle :=
  { inodeId := h.inodeId, layout := h.layout }

/-- `clockMs` remembers the time from which the run of the collector computed its cutoff. -/
structure ReadersWorld where
  shared : GcWorld
  handles : List OpenHandle
  clockMs : Int64

/-- The metadata when the run of the collector was given the live objects. -/
def ReadersWorld.listed (w : ReadersWorld) : MetaState := w.shared.listed

inductive ReadersEvent where
  | shared (event : GcEvent)
  /-- An open that truncates is a call of `Truncate` before. -/
  | open (ino : UInt64)

/-- The store as a read finds it: an object is there or it is not. -/
def GcWorld.objectStore (absent : Error) (present : GetObjectRequest → GetObjectResult) :
    ObjectStore GcWorld where
  putObject request w := (.ok ⟨[], UInt64.ofNat request.body.length⟩, w.put request.key)
  getObject request w :=
    match w.lastModifiedMs request.key with
    | none => (.error absent, w)
    | some _ => (.ok (present request), w)

namespace ReadersWorld

def fresh (chunkSize : UInt64) (nowNs nowMs : Int64) : ReadersWorld where
  shared := .fresh chunkSize nowNs nowMs
  handles := []
  clockMs := nowMs

/-- What the collector sees in a step. -/
def observe (event : GcEvent) (w : ReadersWorld) : ReadersWorld :=
  match event, w.shared.stage with
  | .readClock, .readClock _ => { w with clockMs := w.shared.nowMs }
  | _, _ => w

/-- One step, with the key of the object it deletes. -/
def step [OffsetSort] (config : GcServiceConfig) :
    ReadersEvent → ReadersWorld → Option Bytes × ReadersWorld
  | .shared event, w =>
    let result := w.shared.step config event
    (result.1, { w.observe event with shared := result.2 })
  | .open ino, w =>
    match w.shared.metadata.getLayout ino with
    | .ok layout =>
      if layout.attrs.type ≠ .file then (none, w)
      else (none, { w with handles := ⟨w.shared.nowMs, ino, layout⟩ :: w.handles })
    | _ => (none, w)

end ReadersWorld

/-- Every upload has a key of its own, and the object store lists objects that it has. -/
def ReadersEvent.Faithful (config : GcServiceConfig) (w : ReadersWorld) : ReadersEvent → Prop
  | .shared (.upload key) => w.shared.uploaded key = none
  | .shared (.listPage (.ok page)) => ∀ object ∈ page.objects,
      chunkPrefix config.objectPrefix <+: object.key ∧
        w.shared.lastModifiedMs object.key = some object.lastModifiedMs
  | _ => True

instance (config : GcServiceConfig) (w : ReadersWorld) (event : ReadersEvent) :
    Decidable (event.Faithful config w) := by
  unfold ReadersEvent.Faithful
  split <;> infer_instance

namespace ReadersWorld

variable {config : GcServiceConfig} {w : ReadersWorld}

/-- The invariant: what the collector works with is what it saw, and the page has the upload times
of the objects that are left on it. -/
structure Sound (config : GcServiceConfig) (w : ReadersWorld) : Prop where
  fetched : ∀ live ∈ w.shared.stage.fetched, live = w.listed.listLiveObjects
  observed : ∀ live cutoff, w.shared.stage.observed = some (live, cutoff) →
    live = w.listed.listLiveObjects ∧ cutoff = GcService.cutoffMs config w.clockMs
  stamped : ∀ key t, w.shared.lastModifiedMs key = some t → w.shared.uploaded key = some t
  pending : ∀ object ∈ w.shared.stage.pending, chunkPrefix config.objectPrefix <+: object.key ∧
    w.shared.uploaded object.key = some object.lastModifiedMs

theorem observe_shared (event : GcEvent) (w : ReadersWorld) :
    (w.observe event).shared = w.shared := by
  unfold observe
  split <;> rfl

/-- What the collector sees anew it did not work with before. -/
theorem Sound.observe (h : w.Sound config) (event : GcEvent) :
    (w.observe event).Sound config := by
  unfold ReadersWorld.observe
  split
  next live hstage =>
    refine ⟨h.fetched, ?_, h.stamped, h.pending⟩
    simp only [hstage]
    exact nofun
  next => exact h

/-- An object on the page has its upload time already, so the new one is another. -/
theorem Sound.put (h : w.Sound config) {key : Bytes} (hnew : w.shared.uploaded key = none) :
    Sound config { w with shared := w.shared.put key } := by
  refine ⟨h.fetched, h.observed, ?_, ?_⟩
  · intro k t ht
    by_cases hk : k = key
    · simp only [GcWorld.put, hk, Function.update_self] at ht ⊢
      exact ht
    · simp only [GcWorld.put, Function.update_of_ne hk] at ht ⊢
      exact h.stamped k t ht
  · intro object hobject
    obtain ⟨hpre, ht⟩ := h.pending object hobject
    have hk : object.key ≠ key := by
      rintro rfl
      rw [hnew] at ht
      contradiction
    simp only [GcWorld.put, Function.update_of_ne hk]
    exact ⟨hpre, ht⟩

/-- Deleting takes upload times away and adds none. -/
theorem Sound.delete (h : w.Sound config) (request : DeleteObjectRequest) :
    Sound config { w with shared := w.shared.delete request } := by
  refine ⟨h.fetched, h.observed, ?_, h.pending⟩
  intro k t ht
  by_cases hk : k = request.key
  · simp only [GcWorld.delete, hk, Function.update_self] at ht
    contradiction
  · simp only [GcWorld.delete, Function.update_of_ne hk] at ht
    exact h.stamped k t ht

/-- On within a page, or to the next one. -/
theorem Sound.proceed (h : w.Sound config) {scan : GcService.Scan} {page : ListObjectsResult}
    (hscan : w.shared.stage.observed = some (scan.liveObjects, scan.cutoffMs))
    {scan' : GcService.Scan} (hlive : scan'.liveObjects = scan.liveObjects)
    (hcutoff : scan'.cutoffMs = scan.cutoffMs)
    (hpage : ∀ object ∈ page.objects, chunkPrefix config.objectPrefix <+: object.key ∧
      w.shared.uploaded object.key = some object.lastModifiedMs) :
    Sound config { w with shared := { w.shared with stage := GcService.proceed scan' page } } := by
  refine ⟨?_, ?_, h.stamped, ?_⟩
  · rw [GcService.proceed_fetched]
    exact nofun
  · intro live cutoff ho
    obtain ⟨rfl, rfl⟩ := Prod.mk.inj (GcService.proceed_observed ho)
    rw [hlive, hcutoff]
    exact h.observed _ _ hscan
  · intro object hobject
    rw [GcService.proceed_pending] at hobject
    exact hpage object hobject

theorem Sound.collect (h : w.Sound config) {scan : GcService.Scan} {page : ListObjectsResult}
    (hstage : w.shared.stage = .inPage scan page) (taken answered : Bool) :
    Sound config { w with shared := (w.shared.collect config scan page taken answered).2 } := by
  have hscan : w.shared.stage.observed = some (scan.liveObjects, scan.cutoffMs) := by
    rw [hstage]
    rfl
  have hpending := h.pending
  rw [hstage] at hpending
  obtain ⟨objects, token⟩ := page
  cases objects with
  | nil => exact h
  | cons object objects =>
    have hrest : ∀ o ∈ objects, chunkPrefix config.objectPrefix <+: o.key ∧
        w.shared.uploaded o.key = some o.lastModifiedMs :=
      fun o ho => hpending o (List.mem_cons_of_mem _ ho)
    unfold GcWorld.collect
    simp only
    split
    next => exact h.proceed hscan rfl rfl hrest
    next request hrequest =>
      cases taken with
      | false => exact h.proceed hscan rfl rfl hrest
      | true => exact (h.delete request).proceed hscan rfl rfl hrest

/-- The step lemma. -/
theorem Sound.step [OffsetSort] (h : w.Sound config) {event : ReadersEvent}
    (ha : event.Faithful config w) : (ReadersWorld.step config event w).2.Sound config := by
  cases event with
  | «open» ino =>
    unfold ReadersWorld.step
    dsimp only
    split
    next =>
      split
      next => exact h
      next => exact ⟨h.fetched, h.observed, h.stamped, h.pending⟩
    next => exact h
  | shared event =>
    have hidle : Sound config { w.observe event with shared := w.shared } := by
      rw [← observe_shared event w]
      exact h.observe event
    unfold ReadersWorld.step GcWorld.step
    dsimp only
    split
    next nowMs => exact ⟨h.fetched, h.observed, h.stamped, h.pending⟩
    next key => exact h.put ha
    next c => exact ⟨h.fetched, h.observed, h.stamped, h.pending⟩
    next =>
      refine ⟨?_, ?_, h.stamped, ?_⟩
      all_goals
        unfold GcService.runOnce
        split
        next => exact nofun
        next => split <;> exact nofun
    next answered hstage =>
      cases answered with
      | false => exact ⟨nofun, nofun, h.stamped, nofun⟩
      | true =>
        refine ⟨?_, nofun, h.stamped, nofun⟩
        intro live hlive
        exact (Option.some.inj hlive).symm
    next live hstage =>
      have hseen : w.observe .readClock = { w with clockMs := w.shared.nowMs } := by
        simp only [ReadersWorld.observe, hstage]
      rw [hseen]
      refine ⟨nofun, ?_, h.stamped, nofun⟩
      intro live' cutoff ho
      obtain ⟨rfl, rfl⟩ := Prod.mk.inj (Option.some.inj ho)
      exact ⟨h.fetched live (by rw [hstage]; rfl), rfl⟩
    next result scan hstage =>
      cases result with
      | error e => exact ⟨nofun, nofun, h.stamped, nofun⟩
      | ok page =>
        have hscan : w.shared.stage.observed = some (scan.liveObjects, scan.cutoffMs) := by
          rw [hstage]
          rfl
        refine h.proceed hscan rfl rfl ?_
        intro object hobject
        obtain ⟨hpre, ht⟩ := ha object hobject
        exact ⟨hpre, h.stamped _ _ ht⟩
    next taken answered scan page hstage => exact h.collect hstage taken answered
    next => exact hidle

/-- The store is about to be asked for a delete of this key, if the collector finds that it
should, and will take it. -/
def Meets (w : ReadersWorld) (event : ReadersEvent) (key : Bytes) : Prop :=
  ∃ scan object objects token answered,
    w.shared.stage = .inPage scan ⟨object :: objects, token⟩ ∧ object.key = key ∧
      event = .shared (.nextObject true answered)

end ReadersWorld

theorem GcWorld.collect_output {config : GcServiceConfig} {w : GcWorld} {scan : GcService.Scan}
    {page : ListObjectsResult} {taken answered : Bool} {key : Bytes} :
    (w.collect config scan page taken answered).1 = some key ↔
      ∃ object objects, page.objects = object :: objects ∧ taken = true ∧ object.key = key ∧
        config.dryRun = false ∧ key ∉ scan.liveObjects ∧
        object.lastModifiedMs.toInt ≤ scan.cutoffMs.toInt := by
  obtain ⟨objects, token⟩ := page
  cases objects with
  | nil => simp [collect]
  | cons object objects =>
    unfold collect
    simp only
    split
    next hnone =>
      refine ⟨nofun, ?_⟩
      rintro ⟨_, _, heq, -, rfl, hdry, hlive, hold⟩
      obtain ⟨rfl, rfl⟩ := List.cons.inj heq
      have hsome := GcService.deleteRequest_eq_some.mpr ⟨rfl, hdry, hlive, hold⟩
      rw [hnone] at hsome
      contradiction
    next request hrequest =>
      obtain ⟨rfl, hdry, hlive, hold⟩ := GcService.deleteRequest_eq_some.mp hrequest
      cases taken with
      | false => exact ⟨nofun, nofun⟩
      | true =>
        constructor
        · intro hk
          obtain rfl := Option.some.inj hk
          exact ⟨object, objects, rfl, rfl, rfl, hdry, hlive, hold⟩
        · rintro ⟨_, _, heq, -, rfl, -⟩
          obtain ⟨rfl, rfl⟩ := List.cons.inj heq
          rfl

/-- Only the collector at an object deletes. -/
theorem GcWorld.step_output [OffsetSort] {config : GcServiceConfig} {w : GcWorld}
    {event : GcEvent} {key : Bytes} (h : (w.step config event).1 = some key) :
    ∃ taken answered scan page, event = .nextObject taken answered ∧
      w.stage = .inPage scan page ∧ (w.collect config scan page taken answered).1 = some key := by
  unfold GcWorld.step at h
  split at h
  next => contradiction
  next => contradiction
  next => contradiction
  next => contradiction
  next => contradiction
  next => contradiction
  next => contradiction
  next taken answered scan page hstage =>
    exact ⟨taken, answered, scan, page, rfl, hstage, h⟩
  next => contradiction

namespace ReadersWorld

variable {config : GcServiceConfig} {w : ReadersWorld}

/-- What a step deletes. -/
theorem Sound.output_eq_some [OffsetSort] (h : w.Sound config) {event : ReadersEvent}
    {key : Bytes} : (ReadersWorld.step config event w).1 = some key ↔
      w.Meets event key ∧ config.dryRun = false ∧ ¬ w.listed.References key ∧
        ∃ t ∈ w.shared.uploaded key,
          t.toInt ≤ (GcService.cutoffMs config w.clockMs).toInt := by
  constructor
  · intro hk
    cases event with
    | «open» ino =>
      unfold ReadersWorld.step at hk
      dsimp only at hk
      split at hk
      next => split at hk <;> contradiction
      next => contradiction
    | shared event =>
      obtain ⟨taken, answered, scan, page, rfl, hstage, hcollect⟩ := GcWorld.step_output hk
      obtain ⟨object, objects, hpage, rfl, rfl, hdry, hlive, hold⟩ :=
        GcWorld.collect_output.mp hcollect
      obtain ⟨_, token⟩ := page
      subst hpage
      have hpending := h.pending object (by rw [hstage]; exact List.mem_cons_self)
      obtain ⟨hlisted, hcutoff⟩ := h.observed _ _ (by rw [hstage]; rfl)
      rw [hlisted, MetaState.mem_listLiveObjects_iff (ne_nil_of_chunkPrefix hpending.1)] at hlive
      exact ⟨⟨scan, object, objects, token, answered, hstage, rfl, rfl⟩, hdry, hlive, _,
        hpending.2, hcutoff ▸ hold⟩
  · rintro ⟨⟨scan, object, objects, token, answered, hstage, rfl, rfl⟩, hdry, hlive, t, ht, hold⟩
    have hpending := h.pending object (by rw [hstage]; exact List.mem_cons_self)
    obtain ⟨hlisted, hcutoff⟩ := h.observed _ _ (by rw [hstage]; rfl)
    obtain rfl := Option.some.inj (ht.symm.trans hpending.2)
    show (w.shared.step config (.nextObject true answered)).1 = _
    unfold GcWorld.step
    simp only [hstage]
    refine GcWorld.collect_output.mpr ⟨object, objects, rfl, rfl, rfl, hdry, ?_, ?_⟩
    · rw [hlisted, MetaState.mem_listLiveObjects_iff (ne_nil_of_chunkPrefix hpending.1)]
      exact hlive
    · rw [hcutoff]
      exact hold

end ReadersWorld

section Read

variable {absent : Error} {present : GetObjectRequest → GetObjectResult} {w : GcWorld}

/-- The loop fails where it needs an object that is not there. -/
theorem GcWorld.readExtentsIntoBuffer_eq_error (bucket : Bytes) (readBegin readEnd : UInt64)
    (extents : List FileExtent) (output : Bytes) :
    readExtentsIntoBuffer (GcWorld.objectStore absent present) bucket readBegin readEnd
        extents output w = (.error absent, w) ↔
      ∃ e ∈ extents, max readBegin e.offset < min readEnd (extentEnd e) ∧
        w.lastModifiedMs e.objectKey = none := by
  induction extents generalizing output with
  | nil => simp [readExtentsIntoBuffer]
  | cons e extents ih =>
    rw [List.exists_mem_cons_iff]
    unfold readExtentsIntoBuffer
    dsimp only
    split
    next hapart =>
      have hnot := UInt64.not_lt.mpr hapart
      simp only [ih, hnot, false_and, false_or]
    next hover =>
      rw [ge_iff_le, UInt64.not_le] at hover
      simp only [hover, true_and, GcWorld.objectStore]
      cases w.lastModifiedMs e.objectKey with
      | none => simp
      | some t => simpa [GcWorld.objectStore] using ih _

/-- A read asks for bytes of an extent. -/
def OpenHandle.Needs (h : OpenHandle) (size : UInt64) (off : Int64) (e : FileExtent) : Prop :=
  max off.toUInt64 e.offset < min (min (off.toUInt64 + size) h.layout.attrs.size) (extentEnd e)

theorem OpenHandle.Needs.toNat {h : OpenHandle} {size : UInt64} {off : Int64} {e : FileExtent}
    (hn : h.Needs size off e) : off.toUInt64.toNat < (off.toUInt64 + size).toNat ∧
      off.toUInt64.toNat < h.layout.attrs.size.toNat := by
  rw [Needs, UInt64.lt_iff_toNat_lt, UInt64.toNat_max, UInt64.toNat_min, UInt64.toNat_min] at hn
  omega

/-- Nothing is pending on the handle, so only the first of the three loops does anything. -/
theorem OpenHandle.readLayers_file {σ : Type} (h : OpenHandle) (objectStore : ObjectStore σ)
    (bucket : Bytes) (readBegin readEnd : UInt64) (output : Bytes) (s : σ) :
    readLayers objectStore bucket h.file readBegin readEnd output s =
      readExtentsIntoBuffer objectStore bucket readBegin readEnd h.layout.extents output s := by
  unfold readLayers
  simp only [OpenHandle.file]
  cases readExtentsIntoBuffer objectStore bucket readBegin readEnd h.layout.extents output s with
  | mk result s =>
    cases result with
    | error e => rfl
    | ok output => rfl

theorem OpenHandle.read_eq_error (h : OpenHandle) (bucket : Bytes) (size : UInt64) {off : Int64}
    (hoff : 0 ≤ off) :
    readFromHandle (GcWorld.objectStore absent present) bucket h.file size off w =
        (.error absent, w) ↔
      ∃ e ∈ h.layout.extents, h.Needs size off e ∧ w.lastModifiedMs e.objectKey = none := by
  unfold readFromHandle
  dsimp only
  split
  next hsize =>
    refine ⟨nofun, ?_⟩
    rintro ⟨e, -, hneeds, -⟩
    have := hneeds.toNat.1
    rw [hsize, UInt64.add_zero] at this
    omega
  next hsize =>
    rw [if_neg (Int64.not_lt.mpr hoff)]
    split
    next hpast =>
      refine ⟨nofun, ?_⟩
      rintro ⟨e, -, hneeds, -⟩
      have := hneeds.toNat.2
      have hpast : h.layout.attrs.size ≤ off.toUInt64 := hpast
      rw [UInt64.le_iff_toNat_le] at hpast
      omega
    next hin =>
      rw [h.readLayers_file]
      exact GcWorld.readExtentsIntoBuffer_eq_error ..

end Read

/-- What a step deletes is not there after it. -/
theorem GcWorld.collect_gone {config : GcServiceConfig} {w : GcWorld} {scan : GcService.Scan}
    {page : ListObjectsResult} {taken answered : Bool} {key : Bytes}
    (h : (w.collect config scan page taken answered).1 = some key) :
    (w.collect config scan page taken answered).2.lastModifiedMs key = none := by
  unfold collect at h ⊢
  split at h
  next => contradiction
  next =>
    dsimp only at h ⊢
    split at h
    next => contradiction
    next request hrequest =>
      cases taken with
      | false => contradiction
      | true =>
        obtain rfl := Option.some.inj h
        exact Function.update_self request.key none w.lastModifiedMs

theorem GcWorld.step_gone [OffsetSort] {config : GcServiceConfig} {w : GcWorld}
    {event : GcEvent} {key : Bytes} (h : (w.step config event).1 = some key) :
    (w.step config event).2.lastModifiedMs key = none := by
  obtain ⟨taken, answered, scan, page, rfl, hstage, hcollect⟩ := step_output h
  unfold GcWorld.step
  simp only [hstage]
  exact collect_gone hcollect

namespace ReadersWorld

theorem sound_fresh (config : GcServiceConfig) (chunkSize : UInt64) (nowNs nowMs : Int64) :
    (fresh chunkSize nowNs nowMs).Sound config := ⟨nofun, nofun, nofun, nofun⟩

/-- The run lemma. -/
theorem Sound.run [OffsetSort] {config : GcServiceConfig} {w : ReadersWorld}
    (h : w.Sound config) {events : List ReadersEvent}
    (hfaithful : ∀ e ∈ trace (ReadersWorld.step config) events w,
      e.input.Faithful config e.before) :
    ∀ e ∈ trace (ReadersWorld.step config) events w, e.before.Sound config := by
  have hstep : ∀ e ∈ trace (ReadersWorld.step config) events w,
      e.before.Sound config → e.after.Sound config := by
    intro e he hb
    have hafter := hb.step (hfaithful e he)
    rwa [trace_step he] at hafter
  exact fun e he => ((invariant h hstep).2 e he).1

end ReadersWorld

/-- The file is opened, unlinked, and its object collected within the grace period. -/
def readerEvents : List ReadersEvent :=
  [.shared (.call ⟨fun _ => 5, .createFile 1 (ascii "f") 0o644 0 0⟩),
    .shared (.upload (ascii "chunks/k")), .shared (.call (commitOf "chunks/k")),
    .shared (.tick 5000), .open 2, .shared (.call ⟨fun _ => 9, .unlink 1 (ascii "f")⟩),
    .shared (.tick 5500), .shared .runOnce, .shared (.listLiveObjects true), .shared .readClock,
    .shared (.listPage (.ok ⟨[⟨ascii "chunks/k", 1, 0⟩], []⟩)), .shared (.nextObject true true)]

/-- A handle was opened less than the grace period before the cutoff was computed. -/
def OpenHandle.Recent (config : GcServiceConfig) (w : ReadersWorld) (h : OpenHandle) : Prop :=
  h.openedMs.toInt ≤ w.clockMs.toInt ∧
    w.clockMs.toInt < h.openedMs.toInt + config.graceSeconds.toNat * 1000

instance (config : GcServiceConfig) (w : ReadersWorld) (h : OpenHandle) :
    Decidable (h.Recent config w) := inferInstanceAs (Decidable (_ ∧ _))

end Pulpfs
