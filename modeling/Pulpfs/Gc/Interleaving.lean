import Pulpfs.Gc.Service
import Pulpfs.Meta.LiveObjects
import Pulpfs.Meta.References

/-! Garbage collection beside the writers: uploads, calls of the metadata service and the steps of
`RunOnce` in any order, on one clock. -/
namespace Pulpfs
open Transition

/-- What a collector and any number of writers share. `uploaded` remembers when an object was put
under a key, also after it was deleted, and `listed` the metadata at the time the collector last
asked for the live objects. -/
structure GcWorld where
  nowMs : Int64
  metadata : MetaState
  listed : MetaState
  lastModifiedMs : Bytes → Option Int64
  uploaded : Bytes → Option Int64
  stage : GcService.Stage

/-- What can happen next. A step of the collector at another stage than its own does nothing. -/
inductive GcEvent where
  | tick (nowMs : Int64)
  | upload (key : Bytes)
  | call (c : Call)
  | runOnce
  | listLiveObjects (answered : Bool)
  | readClock
  | listPage (result : Except Error ListObjectsResult)
  /-- The object store may take a delete and not answer it. -/
  | nextObject (taken answered : Bool)

namespace GcWorld

def fresh (chunkSize : UInt64) (nowNs nowMs : Int64) : GcWorld where
  nowMs := nowMs
  metadata := .fresh chunkSize nowNs
  listed := .fresh chunkSize nowNs
  lastModifiedMs := fun _ => none
  uploaded := fun _ => none
  stage := .returned 0

variable (config : GcServiceConfig) (w : GcWorld)

def put (key : Bytes) : GcWorld :=
  { w with
    lastModifiedMs := Function.update w.lastModifiedMs key (some w.nowMs)
    uploaded := Function.update w.uploaded key (some w.nowMs) }

def delete (request : DeleteObjectRequest) : GcWorld :=
  { w with lastModifiedMs := Function.update w.lastModifiedMs request.key none }

/-- The collector at the next object of a page, with the key it deleted. -/
def collect (scan : GcService.Scan) (page : ListObjectsResult) (taken answered : Bool) :
    Option Bytes × GcWorld :=
  match page.objects with
  | [] => (none, w)
  | object :: objects =>
    let stage :=
      GcService.onObject config scan object { page with objects } (taken && answered)
    match GcService.deleteRequest config scan object with
    | none => (none, { w with stage })
    | some request =>
      if taken then (some request.key, { w.delete request with stage })
      else (none, { w with stage })

/-- One step, with the key of the object it deletes. -/
def step [OffsetSort] (event : GcEvent) (w : GcWorld) : Option Bytes × GcWorld :=
  match event, w.stage with
  | .tick nowMs, _ => (none, { w with nowMs })
  | .upload key, _ => (none, w.put key)
  | .call c, _ => (none, { w with metadata := (w.metadata.call c).2 })
  | .runOnce, .returned _ => (none, { w with stage := GcService.runOnce config })
  | .listLiveObjects answered, .listLiveObjects =>
    let result := if answered then .ok w.metadata.listLiveObjects
      else .error (makeError .unavailable "")
    (none, { w with listed := w.metadata, stage := GcService.onLiveObjects result })
  | .readClock, .readClock liveObjects =>
    (none, { w with stage := GcService.onClock config liveObjects w.nowMs })
  | .listPage result, .listPage scan => (none, { w with stage := GcService.onPage scan result })
  | .nextObject taken answered, .inPage scan page => w.collect config scan page taken answered
  | _, _ => (none, w)

end GcWorld

/-- A run has fetched its list and reads the clock next. -/
def GcService.Stage.readsClock : GcService.Stage → Bool
  | .readClock _ => true
  | _ => false

section

variable (config : GcServiceConfig) (w : GcWorld)

/-- Time does not run back, every upload has a key of its own, every commit comes less than the
grace period after the uploads it refers to, and the object store lists objects that it has. -/
def GcEvent.Allowed : GcEvent → Prop
  | .tick nowMs => w.nowMs.toInt ≤ nowMs.toInt
  | .upload key => w.uploaded key = none
  | .call c => ∀ e ∈ c.command.extents, ∃ t ∈ w.uploaded e.objectKey,
      w.nowMs.toInt < t.toInt + config.graceSeconds.toNat * 1000
  | .listPage (.ok page) => ∀ object ∈ page.objects,
      chunkPrefix config.objectPrefix <+: object.key ∧
        w.lastModifiedMs object.key = some object.lastModifiedMs
  | _ => True

/-- When a run reads the clock, what files refer to and did not when it asked for the live objects
is younger than the cutoff. -/
def GcEvent.Timely : GcEvent → Prop
  | .readClock => w.stage.readsClock = true → config.dryRun = false →
      ∀ key ∈ w.metadata.objectKeys, chunkPrefix config.objectPrefix <+: key →
        key ∉ w.listed.objectKeys → ∀ t ∈ w.uploaded key,
          (GcService.cutoffMs config w.nowMs).toInt < t.toInt
  | _ => True

instance (event : GcEvent) : Decidable (event.Allowed config w) := by
  unfold GcEvent.Allowed
  split <;> infer_instance

instance (event : GcEvent) : Decidable (event.Timely config w) := by
  -- The times of an option are decided by looking into it, not by going through all of them.
  haveI (key : Bytes) : Decidable (∀ t ∈ w.uploaded key,
      (GcService.cutoffMs config w.nowMs).toInt < t.toInt) := Option.decidableForallMem _
  unfold GcEvent.Timely
  split <;> infer_instance

end

/-- The list a run has fetched when it is about to read the clock. -/
def GcService.Stage.fetched : GcService.Stage → Option (List Bytes)
  | .readClock liveObjects => some liveObjects
  | _ => none

/-- What a stage still works with: the live objects and the cutoff. -/
def GcService.Stage.observed : GcService.Stage → Option (List Bytes × Int64)
  | .listPage scan => some (scan.liveObjects, scan.cutoffMs)
  | .inPage scan _ => some (scan.liveObjects, scan.cutoffMs)
  | _ => none

def GcService.Stage.pending : GcService.Stage → List ObjectInfo
  | .inPage _ page => page.objects
  | _ => []

theorem GcService.proceed_observed {scan : Scan} {page : ListObjectsResult}
    {o : List Bytes × Int64} (h : (proceed scan page).observed = some o) :
    o = (scan.liveObjects, scan.cutoffMs) := by
  unfold proceed at h
  split at h
  next =>
    split at h
    next => contradiction
    next => exact (Option.some.inj h).symm
  next => exact (Option.some.inj h).symm

theorem GcService.proceed_fetched (scan : Scan) (page : ListObjectsResult) :
    (proceed scan page).fetched = none := by
  unfold proceed
  split
  next => split <;> rfl
  next => rfl

theorem GcService.proceed_pending (scan : Scan) (page : ListObjectsResult) :
    (proceed scan page).pending = page.objects := by
  unfold proceed
  split
  next hempty =>
    rw [List.isEmpty_iff.mp hempty]
    split
    next => rfl
    next => rfl
  next => rfl

theorem MetaState.mem_listLiveObjects_iff {s : MetaState} {key : Bytes} (hkey : key ≠ []) :
    key ∈ s.listLiveObjects ↔ s.References key := by
  rw [mem_listLiveObjects]
  constructor
  · rintro ⟨f, layout, hl, e, he, hk, _⟩
    exact ⟨f, layout, hl, e, he, hk⟩
  · rintro ⟨f, layout, hl, e, he, hk⟩
    exact ⟨f, layout, hl, e, he, hk, hkey⟩

theorem ne_nil_of_chunkPrefix {objectPrefix key : Bytes} (h : chunkPrefix objectPrefix <+: key) :
    key ≠ [] := by
  rintro rfl
  have hnil := List.prefix_nil.mp h
  unfold chunkPrefix at hnil
  split at hnil
  next => contradiction
  next => exact absurd (List.append_eq_nil_iff.mp hnil).2 (by decide)

namespace GcWorld

variable {config : GcServiceConfig} {w : GcWorld}

/-- What a scan with this cutoff must not delete it does not delete. -/
structure Spares (config : GcServiceConfig) (w : GcWorld) (liveObjects : List Bytes)
    (cutoffMs : Int64) : Prop where
  old : cutoffMs.toInt + config.graceSeconds.toNat * 1000 ≤ w.nowMs.toInt
  young : config.dryRun = false → ∀ key t, w.metadata.References key →
    chunkPrefix config.objectPrefix <+: key → w.uploaded key = some t → key ∉ liveObjects →
    cutoffMs.toInt < t.toInt

/-- The invariant. Objects a file refers to are there, and so are those that may be committed
still. -/
structure Safe (config : GcServiceConfig) (w : GcWorld) : Prop where
  clock : 0 ≤ w.nowMs.toInt
  laid : ∀ f, (w.metadata.fileView f).Laid
  held : ∀ key, w.metadata.References key →
    ∃ t, w.uploaded key = some t ∧ w.lastModifiedMs key = some t
  young : ∀ key t, w.uploaded key = some t →
    w.nowMs.toInt < t.toInt + config.graceSeconds.toNat * 1000 → w.lastModifiedMs key = some t
  stamped : ∀ key t, w.lastModifiedMs key = some t → w.uploaded key = some t
  fetched : ∀ liveObjects ∈ w.stage.fetched, liveObjects = w.listed.listLiveObjects
  spares : ∀ liveObjects cutoffMs, w.stage.observed = some (liveObjects, cutoffMs) →
    Spares config w liveObjects cutoffMs
  pending : ∀ object ∈ w.stage.pending, chunkPrefix config.objectPrefix <+: object.key ∧
    w.uploaded object.key = some object.lastModifiedMs

theorem Safe.tick (h : w.Safe config) {nowMs : Int64} (hle : w.nowMs.toInt ≤ nowMs.toInt) :
    Safe config { w with nowMs } where
  clock := h.clock.trans hle
  laid := h.laid
  held := h.held
  young key t ht hlt := h.young key t ht (hle.trans_lt hlt)
  stamped := h.stamped
  fetched := h.fetched
  spares live cutoff ho :=
    have hs := h.spares live cutoff ho
    ⟨hs.old.trans hle, hs.young⟩
  pending := h.pending

theorem Safe.put (h : w.Safe config) {key : Bytes} (hnew : w.uploaded key = none) :
    (w.put key).Safe config := by
  have hother {k : Bytes} {t : Int64} (hk : w.uploaded k = some t) : k ≠ key := by
    rintro rfl
    rw [hnew] at hk
    contradiction
  have hreferred {k : Bytes} (hk : w.metadata.References k) : k ≠ key := by
    obtain ⟨t, ht, _⟩ := h.held k hk
    exact hother ht
  have hkept {k : Bytes} (hk : k ≠ key) : (w.put key).uploaded k = w.uploaded k ∧
      (w.put key).lastModifiedMs k = w.lastModifiedMs k :=
    ⟨Function.update_of_ne hk _ _, Function.update_of_ne hk _ _⟩
  have hself : (w.put key).uploaded key = some w.nowMs ∧
      (w.put key).lastModifiedMs key = some w.nowMs :=
    ⟨Function.update_self .., Function.update_self ..⟩
  refine ⟨h.clock, h.laid, ?_, ?_, ?_, h.fetched, ?_, ?_⟩
  · intro k hk
    rw [(hkept (hreferred hk)).1, (hkept (hreferred hk)).2]
    exact h.held k hk
  · intro k t ht hlt
    by_cases hk : k = key
    · rw [hk, hself.1] at ht
      rw [hk, hself.2, ht]
    · rw [(hkept hk).1] at ht
      rw [(hkept hk).2]
      exact h.young k t ht hlt
  · intro k t ht
    by_cases hk : k = key
    · rw [hk, hself.2] at ht
      rw [hk, hself.1, ht]
    · rw [(hkept hk).2] at ht
      rw [(hkept hk).1]
      exact h.stamped k t ht
  · intro live cutoff ho
    have hs := h.spares live cutoff ho
    refine ⟨hs.old, ?_⟩
    intro hdry k t hk hpre ht
    rw [(hkept (hreferred hk)).1] at ht
    exact hs.young hdry k t hk hpre ht
  · intro object hobject
    obtain ⟨hpre, ht⟩ := h.pending object hobject
    refine ⟨hpre, ?_⟩
    rw [(hkept (hother ht)).1]
    exact ht

theorem Safe.call [OffsetSort] (h : w.Safe config) {c : Call}
    (hc : GcEvent.Allowed config w (.call c)) :
    Safe config { w with metadata := (w.metadata.call c).2 } := by
  have hkeys {key : Bytes} (hk : (w.metadata.call c).2.References key) :
      w.metadata.References key ∨ ∃ t, w.uploaded key = some t ∧
        w.nowMs.toInt < t.toInt + config.graceSeconds.toNat * 1000 := by
    rcases MetaState.references_of_call h.laid hk with hold | ⟨e, he, rfl⟩
    · exact .inl hold
    · exact .inr (hc e he)
  refine ⟨h.clock, MetaState.execute_laid w.metadata c.clock c.command h.laid, ?_, h.young,
    h.stamped, h.fetched, ?_, h.pending⟩
  · intro key hk
    rcases hkeys hk with hold | ⟨t, ht, hlt⟩
    · exact h.held key hold
    · exact ⟨t, ht, h.young key t ht hlt⟩
  · intro live cutoff ho
    have hs := h.spares live cutoff ho
    refine ⟨hs.old, ?_⟩
    intro hdry key t hk hpre ht hlive
    rcases hkeys hk with hold | ⟨t', ht', hlt⟩
    · exact hs.young hdry key t hold hpre ht hlive
    · -- what may be committed now was uploaded after the cutoff
      obtain rfl := Option.some.inj (ht.symm.trans ht')
      have := hs.old
      omega

/-- The collector asks for the live objects. -/
theorem Safe.list (h : w.Safe config) (hstage : w.stage.fetched = none) :
    Safe config { w with listed := w.metadata } where
  clock := h.clock
  laid := h.laid
  held := h.held
  young := h.young
  stamped := h.stamped
  fetched := by
    rw [hstage]
    exact nofun
  spares live cutoff ho := ⟨(h.spares live cutoff ho).old, (h.spares live cutoff ho).young⟩
  pending := h.pending

/-- A step of the collector that deletes nothing. -/
theorem Safe.move (h : w.Safe config) {stage : GcService.Stage}
    (hf : ∀ live ∈ stage.fetched, live = w.listed.listLiveObjects)
    (hs : ∀ live cutoff, stage.observed = some (live, cutoff) → Spares config w live cutoff)
    (hp : ∀ object ∈ stage.pending, chunkPrefix config.objectPrefix <+: object.key ∧
      w.uploaded object.key = some object.lastModifiedMs) : Safe config { w with stage } where
  clock := h.clock
  laid := h.laid
  held := h.held
  young := h.young
  stamped := h.stamped
  fetched := hf
  spares live cutoff ho := ⟨(hs live cutoff ho).old, (hs live cutoff ho).young⟩
  pending := hp

/-- The collector goes to the next object, or asks for the next page. -/
theorem Safe.proceed (h : w.Safe config) {scan : GcService.Scan} {page : ListObjectsResult}
    (hs : Spares config w scan.liveObjects scan.cutoffMs)
    (hpage : ∀ object ∈ page.objects, chunkPrefix config.objectPrefix <+: object.key ∧
      w.uploaded object.key = some object.lastModifiedMs) :
    Safe config { w with stage := GcService.proceed scan page } := by
  refine h.move ?_ ?_ ?_
  · rw [GcService.proceed_fetched]
    exact nofun
  · intro live cutoff ho
    obtain ⟨rfl, rfl⟩ := Prod.mk.inj (GcService.proceed_observed ho)
    exact hs
  · rw [GcService.proceed_pending]
    exact hpage

/-- What the collector deletes no file refers to, and nothing may commit it any more. -/
theorem Safe.delete (h : w.Safe config) {live : List Bytes} {cutoff : Int64}
    {request : DeleteObjectRequest} {t : Int64} (hs : Spares config w live cutoff)
    (ht : w.uploaded request.key = some t) (hold : t.toInt ≤ cutoff.toInt)
    (hnot : ¬ w.metadata.References request.key) : (w.delete request).Safe config := by
  have hkept {k : Bytes} (hk : k ≠ request.key) :
      (w.delete request).lastModifiedMs k = w.lastModifiedMs k := Function.update_of_ne hk _ _
  refine ⟨h.clock, h.laid, ?_, ?_, ?_, h.fetched, ?_, h.pending⟩
  · intro key hk
    have hne : key ≠ request.key := by
      rintro rfl
      exact hnot hk
    rw [hkept hne]
    exact h.held key hk
  · intro key t' ht' hlt
    by_cases hk : key = request.key
    · rw [hk] at ht'
      obtain rfl := Option.some.inj (ht.symm.trans ht')
      have := hs.old
      have hlt : w.nowMs.toInt < t.toInt + config.graceSeconds.toNat * 1000 := hlt
      omega
    · rw [hkept hk]
      exact h.young key t' ht' hlt
  · intro key t' ht'
    by_cases hk : key = request.key
    · rw [hk] at ht'
      have hnone : (w.delete request).lastModifiedMs request.key = none :=
        Function.update_self ..
      rw [hnone] at ht'
      contradiction
    · rw [hkept hk] at ht'
      exact h.stamped key t' ht'
  · intro live cutoff ho
    have hs := h.spares live cutoff ho
    exact ⟨hs.old, hs.young⟩

/-- The object was there and was deleted. -/
def Gone (w : GcWorld) (key : Bytes) : Prop :=
  (∃ t, w.uploaded key = some t) ∧ w.lastModifiedMs key = none

/-- The collector at an object of a page. -/
theorem Safe.collect (h : w.Safe config) {scan : GcService.Scan} {page : ListObjectsResult}
    (hstage : w.stage = .inPage scan page) (taken answered : Bool) :
    (w.collect config scan page taken answered).2.Safe config ∧
      ∀ key, (w.collect config scan page taken answered).1 = some key →
        ¬ w.metadata.References key ∧
          (w.collect config scan page taken answered).2.Gone key := by
  have hspares : Spares config w scan.liveObjects scan.cutoffMs :=
    h.spares _ _ (by rw [hstage]; rfl)
  have hpending := h.pending
  rw [hstage] at hpending
  obtain ⟨objects, token⟩ := page
  cases objects with
  | nil => exact ⟨h, nofun⟩
  | cons object objects =>
    obtain ⟨hobject, hrest⟩ := List.forall_mem_cons.mp hpending
    unfold GcWorld.collect
    simp only
    cases hrequest : GcService.deleteRequest config scan object with
    | none => exact ⟨h.proceed hspares hrest, nofun⟩
    | some request =>
      obtain ⟨rfl, hdry, hlive, hold⟩ := GcService.deleteRequest_eq_some.mp hrequest
      have hnot : ¬ w.metadata.References object.key := by
        intro hk
        have hyoung := hspares.young hdry object.key object.lastModifiedMs hk hobject.1 hobject.2
          hlive
        omega
      cases taken with
      | false => exact ⟨h.proceed hspares hrest, nofun⟩
      | true =>
        have hdeleted : (w.delete ⟨config.bucket, object.key⟩).Safe config :=
          h.delete hspares hobject.2 hold hnot
        refine ⟨hdeleted.proceed ⟨hspares.old, hspares.young⟩ hrest, ?_⟩
        intro key hk
        obtain rfl := Option.some.inj hk
        exact ⟨hnot, ⟨_, hobject.2⟩, Function.update_self ..⟩

/-- The step lemma. -/
theorem Safe.step [OffsetSort] (hgrace : config.graceSeconds.toNat * 1000 < 2 ^ 63)
    (h : w.Safe config) {event : GcEvent} (ha : event.Allowed config w)
    (ht : event.Timely config w) :
    (GcWorld.step config event w).2.Safe config ∧
      ∀ key, (GcWorld.step config event w).1 = some key →
        ¬ w.metadata.References key ∧ (GcWorld.step config event w).2.Gone key := by
  unfold GcWorld.step
  split
  next nowMs => exact ⟨h.tick ha, nofun⟩
  next key => exact ⟨h.put ha, nofun⟩
  next c => exact ⟨h.call ha, nofun⟩
  next =>
    refine ⟨h.move ?_ ?_ ?_, nofun⟩
    all_goals
      unfold GcService.runOnce
      split
      · exact nofun
      · split <;> exact nofun
  next answered hstage =>
    have hlisted := h.list (by rw [hstage]; rfl)
    cases answered with
    | true => exact ⟨hlisted.move (fun _ hlive => (Option.some.inj hlive).symm) nofun nofun, nofun⟩
    | false => exact ⟨hlisted.move nofun nofun nofun, nofun⟩
  next live hstage =>
    have hfetched : live = w.listed.listLiveObjects := h.fetched live (by rw [hstage]; rfl)
    refine ⟨h.move nofun ?_ nofun, nofun⟩
    intro live' cutoff ho
    obtain ⟨rfl, rfl⟩ := Prod.mk.inj (Option.some.inj ho)
    constructor
    · show (GcService.cutoffMs config w.nowMs).toInt + _ ≤ _
      rw [GcService.cutoffMs_toInt h.clock hgrace]
      omega
    · intro hdry key t hk hpre hup hlive
      have hunlisted : key ∉ w.listed.objectKeys := by
        rw [MetaState.mem_objectKeys,
          ← MetaState.mem_listLiveObjects_iff (ne_nil_of_chunkPrefix hpre), ← hfetched]
        exact hlive
      exact ht (by rw [hstage]; rfl) hdry key (MetaState.mem_objectKeys.mpr hk) hpre hunlisted
        t hup
  next result scan hstage =>
    have hspares : Spares config w scan.liveObjects scan.cutoffMs :=
      h.spares _ _ (by rw [hstage]; rfl)
    cases result with
    | error e => exact ⟨h.move nofun nofun nofun, nofun⟩
    | ok page =>
      refine ⟨h.proceed hspares ?_, nofun⟩
      intro object hobject
      obtain ⟨hpre, hlisted⟩ := ha object hobject
      exact ⟨hpre, h.stamped _ _ hlisted⟩
  next taken answered scan page hstage => exact h.collect hstage taken answered
  next => exact ⟨h, nofun⟩

/-- A deleted object stays deleted, since no key is used for two uploads. -/
theorem Gone.step [OffsetSort] {key : Bytes} (h : w.Gone key) {event : GcEvent}
    (ha : event.Allowed config w) : (GcWorld.step config event w).2.Gone key := by
  obtain ⟨hup, hgone⟩ := h
  unfold GcWorld.step
  split
  next => exact ⟨hup, hgone⟩
  next k =>
    have hne : key ≠ k := by
      rintro rfl
      obtain ⟨t, ht⟩ := hup
      have hnone : w.uploaded key = none := ha
      rw [hnone] at ht
      contradiction
    simp only [Gone, GcWorld.put, Function.update_of_ne hne]
    exact ⟨hup, hgone⟩
  next => exact ⟨hup, hgone⟩
  next => exact ⟨hup, hgone⟩
  next => exact ⟨hup, hgone⟩
  next => exact ⟨hup, hgone⟩
  next => exact ⟨hup, hgone⟩
  next taken answered scan page hstage =>
    unfold GcWorld.collect
    split
    next => exact ⟨hup, hgone⟩
    next =>
      simp only
      split
      next => exact ⟨hup, hgone⟩
      next request hrequest =>
        split
        next =>
          refine ⟨hup, ?_⟩
          simp only [GcWorld.delete]
          by_cases hk : key = request.key
          · rw [hk, Function.update_self]
          · rw [Function.update_of_ne hk, hgone]
        next => exact ⟨hup, hgone⟩
  next => exact ⟨hup, hgone⟩

/-- The run lemma. -/
theorem Safe.run [OffsetSort] (hgrace : config.graceSeconds.toNat * 1000 < 2 ^ 63)
    {events : List GcEvent} (h : w.Safe config)
    (hevents : ∀ e ∈ trace (GcWorld.step config) events w,
      e.input.Allowed config e.before ∧ e.input.Timely config e.before) :
    (final (GcWorld.step config) events w).Safe config ∧
      (∀ key, w.Gone key → (final (GcWorld.step config) events w).Gone key) ∧
      ∀ e ∈ trace (GcWorld.step config) events w, ∀ key, e.output = some key →
        ¬ e.before.metadata.References key ∧ (final (GcWorld.step config) events w).Gone key := by
  induction events generalizing w with
  | nil => exact ⟨h, fun _ hgone => hgone, by simp⟩
  | cons event events ih =>
    rw [trace_cons, List.forall_mem_cons] at hevents
    obtain ⟨⟨ha, ht⟩, hrest⟩ := hevents
    obtain ⟨hnext, hdeleted⟩ := h.step hgrace ha ht
    obtain ⟨hfinal, hgone, hall⟩ := ih hnext hrest
    refine ⟨hfinal, fun key hk => hgone key (hk.step ha), ?_⟩
    rw [trace_cons, List.forall_mem_cons]
    refine ⟨?_, hall⟩
    intro key hk
    exact ⟨(hdeleted key hk).1, hgone key (hdeleted key hk).2⟩

theorem Safe.not_gone (h : w.Safe config) {key : Bytes} (hk : w.metadata.References key) :
    ¬ w.Gone key := by
  rintro ⟨_, hnone⟩
  obtain ⟨t, _, ht⟩ := h.held key hk
  rw [hnone] at ht
  contradiction

theorem safe_fresh (config : GcServiceConfig) (chunkSize : UInt64) (nowNs : Int64) {nowMs : Int64}
    (hnow : 0 ≤ nowMs.toInt) : (fresh chunkSize nowNs nowMs).Safe config where
  clock := hnow
  laid := MetaState.laid_fresh chunkSize nowNs
  held := by
    rintro key ⟨f, layout, hl, _⟩
    have hnone : (fresh chunkSize nowNs nowMs).metadata.layouts[f]? = none := by
      simp [fresh, MetaState.fresh]
    rw [hnone] at hl
    contradiction
  young := nofun
  stamped := nofun
  fetched := nofun
  spares := nofun
  pending := nofun

end GcWorld

/-- In every interleaving in which each reading of the clock finds what files refer to, but did not
when the live objects were listed, younger than the cutoff, every object a file refers to is there,
and no object is deleted that a file refers to then or later. -/
theorem collected_of_run [OffsetSort] (config : GcServiceConfig) (chunkSize : UInt64)
    (nowNs nowMs : Int64) (events : List GcEvent)
    (hgrace : config.graceSeconds.toNat * 1000 < 2 ^ 63) (hnow : 0 ≤ nowMs.toInt)
    (hallowed : ∀ e ∈ trace (GcWorld.step config) events (.fresh chunkSize nowNs nowMs),
      e.input.Allowed config e.before)
    (htimely : ∀ e ∈ trace (GcWorld.step config) events (.fresh chunkSize nowNs nowMs),
      e.input.Timely config e.before) :
    let last := final (GcWorld.step config) events (.fresh chunkSize nowNs nowMs)
    (∀ key, last.metadata.References key → ∃ t, last.lastModifiedMs key = some t) ∧
      ∀ e ∈ trace (GcWorld.step config) events (.fresh chunkSize nowNs nowMs), ∀ key,
        e.output = some key →
        ¬ e.before.metadata.References key ∧ ¬ last.metadata.References key := by
  intro last
  obtain ⟨hsafe, -, hdeleted⟩ := (GcWorld.safe_fresh config chunkSize nowNs hnow).run hgrace
    fun e he => ⟨hallowed e he, htimely e he⟩
  constructor
  · intro key hk
    obtain ⟨t, _, ht⟩ := hsafe.held key hk
    exact ⟨t, ht⟩
  · intro e he key hk
    obtain ⟨hnot, hgone⟩ := hdeleted e he key hk
    exact ⟨hnot, fun hlater => hsafe.not_gone hlater hgone⟩

def graceConfig : GcServiceConfig :=
  { bucket := ascii "b", objectPrefix := [], s3Endpoint := ascii "s", graceSeconds := 1 }

def commitOf (key : String) : Call :=
  ⟨fun _ => 7, .commitWrite 2 0 [{ length := 1, objectKey := ascii key }]⟩

/-- One object is never committed, the other one between the fetch and the reading of the
clock. -/
def timelyEvents : List GcEvent :=
  [.upload (ascii "chunks/o"), .call ⟨fun _ => 5, .createFile 1 (ascii "f") 0o644 0 0⟩,
    .tick 1000, .upload (ascii "chunks/k"), .runOnce, .listLiveObjects true,
    .call (commitOf "chunks/k"), .tick 1500, .readClock,
    .listPage (.ok ⟨[⟨ascii "chunks/k", 1, 1000⟩, ⟨ascii "chunks/o", 1, 0⟩], []⟩),
    .nextObject true true, .nextObject true true]

set_option maxRecDepth 8192 in
theorem collected_of_timelyEvents :
    let step := @GcWorld.step graceConfig .insertion
    let last := final step timelyEvents (.fresh 4096 0 0)
    (∀ key, last.metadata.References key → ∃ t, last.lastModifiedMs key = some t) ∧
      ∀ e ∈ trace step timelyEvents (.fresh 4096 0 0), ∀ key, e.output = some key →
        ¬ e.before.metadata.References key ∧ ¬ last.metadata.References key :=
  @collected_of_run .insertion graceConfig 4096 0 0 timelyEvents (by decide) (by decide)
    (by decide +kernel) (by decide +kernel)

/-- The commit comes after the fetch and in time, and then the clock is read a grace period after
the upload. -/
def lateEvents : List GcEvent :=
  [.call ⟨fun _ => 5, .createFile 1 (ascii "f") 0o644 0 0⟩, .upload (ascii "chunks/k"), .runOnce,
    .listLiveObjects true, .tick 500, .call (commitOf "chunks/k"), .tick 1000, .readClock,
    .listPage (.ok ⟨[⟨ascii "chunks/k", 1, 0⟩], []⟩), .nextObject true true]

set_option maxRecDepth 8192 in
theorem deleted_after_late_clock :
    let step := @GcWorld.step graceConfig .insertion
    let last := final step lateEvents (.fresh 4096 0 0)
    (∀ e ∈ trace step lateEvents (.fresh 4096 0 0), e.input.Allowed graceConfig e.before) ∧
      last.metadata.References (ascii "chunks/k") ∧
      last.lastModifiedMs (ascii "chunks/k") = none ∧
      (trace step lateEvents (.fresh 4096 0 0)).map Step.output =
        List.replicate 9 none ++ [some (ascii "chunks/k")] := by
  refine ⟨by decide +kernel, MetaState.mem_objectKeys.mp (by decide +kernel), by decide +kernel,
    by decide +kernel⟩

end Pulpfs
