import Pulpfs.Fuse.SessionRuns
import Pulpfs.Gc.Deployment

/-! The mounts of a bucket with a collector in it, step for step runs of byte files that are open.
As long as what the handles refer to is in use or young, no mount can tell that there is one. -/
namespace Pulpfs
open Function Transition

/-- Only going to the next object deletes, and it takes no time. -/
theorem GcWorld.step_deletes [OffsetSort] {config : GcServiceConfig} {w : GcWorld}
    {event : GcEvent} {key : Bytes} (h : (step config event w).1 = some key) :
    (∃ taken answered, event = .nextObject taken answered) ∧
      (step config event w).2.nowMs = w.nowMs := by
  unfold step at h ⊢
  split at h
  next => contradiction
  next => contradiction
  next => contradiction
  next => contradiction
  next => contradiction
  next => contradiction
  next => contradiction
  next taken answered scan page hstage =>
    refine ⟨⟨taken, answered, rfl⟩, ?_⟩
    unfold collect
    split
    next => rfl
    next =>
      simp only
      split
      next => rfl
      next => split <;> rfl
  next => contradiction

namespace Deployment

variable {ι : Type}

/-- What a step of the deployment is to its mounts. -/
def mountEvent (e : Transition.Step (Deployment ι) (DeploymentEvent ι) (Option FuseReply)) :
    MountEvent ι :=
  match e.input with
  | .request i r => .request i r
  | .shared _ => .outside e.after.mounts.world

def mountStep (e : Transition.Step (Deployment ι) (DeploymentEvent ι) (Option FuseReply)) :
    Transition.Step (Mounts ι) (MountEvent ι) (Option FuseReply) :=
  ⟨e.before.mounts, mountEvent e, e.output, e.after.mounts⟩

/-- Requests fit, and when the collector may delete, all that handles refer to is in some layout or
younger than the grace period. -/
def Current (config : GcServiceConfig) (d : Deployment ι) : DeploymentEvent ι → Prop
  | .request i r => Mount.Fits ⟨d.mounts.servers i, d.mounts.world⟩ r
  | .shared (.nextObject _ _) => ∀ i id h, (d.mounts.servers i).getFileHandle id = some h →
      ∀ e ∈ h.extents, d.mounts.world.service.state.References e.objectKey ∨
        ∃ t ∈ d.uploaded e.objectKey,
          d.nowMs.toInt < t.toInt + config.graceSeconds.toNat * 1000
  | _ => True

instance decidableCurrent [Fintype ι] (config : GcServiceConfig) (d : Deployment ι)
    (event : DeploymentEvent ι) : Decidable (d.Current config event) :=
  match event with
  | .request _ _ => inferInstanceAs (Decidable (Mount.Fits _ _))
  | .shared (.nextObject _ _) =>
    @decidable_of_iff _ (∀ i, ∀ p ∈ (d.mounts.servers i).handles.toList, ∀ e ∈ p.2.extents,
        e.objectKey ∈ d.mounts.world.service.state.objectKeys ∨
          ∃ t ∈ d.uploaded e.objectKey,
            d.nowMs.toInt < t.toInt + config.graceSeconds.toNat * 1000)
      (by
        simp only [Current, MetaState.mem_objectKeys, Prod.forall,
          Std.ExtTreeMap.mem_toList_iff_getElem?_eq_some]
        rfl)
      inferInstance
  | .shared (.tick _) => .isTrue trivial
  | .shared (.upload _) => .isTrue trivial
  | .shared (.call _) => .isTrue trivial
  | .shared .runOnce => .isTrue trivial
  | .shared (.listLiveObjects _) => .isTrue trivial
  | .shared .readClock => .isTrue trivial
  | .shared (.listPage _) => .isTrue trivial

variable {d : Deployment ι} {config : GcServiceConfig} {writerId : ι → Bytes}

section Steps

variable [OffsetSort]

/-- What happens beside the mounts is nothing they can tell. -/
theorem Sound.quiet [DecidableEq ι] (hgrace : config.graceSeconds.toNat * 1000 < 2 ^ 63)
    (hs : d.Sound writerId config) {event : DeploymentEvent ι} (ht : d.Timely config event)
    (hc : d.Current config event) :
    d.mounts.Quiet config.bucket
      (mountEvent ⟨d, event, (Deployment.step config event d).1,
        (Deployment.step config event d).2⟩) := by
  cases event with
  | request i r => exact hc
  | shared event =>
    obtain ⟨hno, hallowed⟩ := ht.allowed
    obtain ⟨hup, -, hmetadata⟩ := @GcWorld.step_frame config d.shared _ event hno
    obtain ⟨hsafe, hdeleted⟩ := hs.safe.step hgrace hallowed.1 hallowed.2
    refine ⟨fun k body hb => world_objects hb, fun key body hr hb => ?_, ?_⟩
    · show (d.world config.bucket (GcWorld.step config event d.shared).1
        (GcWorld.step config event d.shared).2.metadata).objects (config.bucket, key) = some body
      unfold world
      cases hout : (GcWorld.step config event d.shared).1 with
      | none => exact hb
      | some deleted =>
        obtain ⟨hunused, -, hgone⟩ := hdeleted deleted hout
        obtain ⟨⟨taken, answered, rfl⟩, hnow⟩ := GcWorld.step_deletes hout
        show update d.mounts.world.objects (config.bucket, deleted) none (config.bucket, key) = _
        rw [update_of_ne]
        · exact hb
        · intro hsame
          obtain rfl := (Prod.mk.inj hsame).2
          rcases hr with hreferred | ⟨i, id, h, hget, e, he, rfl⟩
          · exact hunused hreferred
          · -- a handle refers to it, which no layout does, so that it is too young
            rcases hc i id h hget e he with hreferred | ⟨t, ht, hyoung⟩
            · exact hunused hreferred
            · have hthere := hsafe.young e.objectKey t ((congrFun hup _).trans ht)
                (hnow ▸ hyoung)
              exact Option.some_ne_none t (hthere.symm.trans hgone)
    · by_cases hcall : ∃ c, event = .call c
      · obtain ⟨c, rfl⟩ := hcall
        exact .inr ⟨c, ht, rfl⟩
      · exact .inl (hmetadata fun c hc => hcall ⟨c, hc⟩)

variable [DecidableEq ι]

theorem mounts_step (event : DeploymentEvent ι) (d : Deployment ι) :
    Mounts.step (mountEvent ⟨d, event, (step config event d).1, (step config event d).2⟩)
        d.mounts =
      ((step config event d).1, (step config event d).2.mounts) := by
  cases event with
  | request i r => rfl
  | shared event => rfl

/-- No mount replaces an object. -/
theorem Sound.keepsObjects (hdistinct : Injective writerId) (hslash : ∀ i, 47 ∉ writerId i)
    (hs : d.Sound writerId config) (event : DeploymentEvent ι) :
    Mounts.KeepsObjects (mountStep
      ⟨d, event, (Deployment.step config event d).1, (Deployment.step config event d).2⟩) := by
  cases event with
  | shared event => trivial
  | request i r =>
    intro k body hk
    show (Mount.serve World.backend ⟨d.mounts.servers i, d.mounts.world⟩ r).2.world.objects k = _
    rcases hs.putsOne hdistinct hslash i r with hsame | ⟨key, body', hnew, hput⟩
    · rw [hsame]
      exact hk
    · rw [hput, update_of_ne]
      · exact hk
      · rintro rfl
        exact Option.some_ne_none body (hk.symm.trans (hs.absent hnew))

/-- The step lemma. -/
theorem Sound.sessions_step (hdistinct : Injective writerId) (hslash : ∀ i, 47 ∉ writerId i)
    (hgrace : config.graceSeconds.toNat * 1000 < 2 ^ 63) (hs : d.Sound writerId config)
    (hm : d.mounts.Sound config.bucket) {event : DeploymentEvent ι} (ht : d.Timely config event)
    (hc : d.Current config event)
    (hsmall : (Deployment.step config event d).2.mounts.world.service.state.Small) :
    Sessions.Step 0 (d.mounts.sessions config.bucket)
        (Mounts.sessionEvent (mountStep ⟨d, event, (Deployment.step config event d).1,
          (Deployment.step config event d).2⟩))
        ((Deployment.step config event d).2.mounts.sessions config.bucket) ∧
      (Deployment.step config event d).2.mounts.Sound config.bucket := by
  have hstep := @mounts_step ι config _ _ event d
  have hone := hm.step (hs.quiet hgrace ht hc)
  rw [hstep] at hone
  exact hone (hs.keepsObjects hdistinct hslash event) hsmall

end Steps

end Deployment

end Pulpfs
