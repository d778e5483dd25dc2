import Pulpfs.Fuse.Backed
import Pulpfs.Gc.Interleaving

/-! Mounts of one bucket and the collector that goes through it, on one clock. What the metadata
refers to is stored, whatever becomes of calls, uploads and deletes. -/
namespace Pulpfs
open Function Transition

namespace GcWorld

variable {config : GcServiceConfig} {w : GcWorld} {key : Bytes}

/-- The object is there, and the scan going on leaves it. -/
def Spared (config : GcServiceConfig) (w : GcWorld) (key : Bytes) : Prop :=
  (∃ t, w.uploaded key = some t ∧ w.lastModifiedMs key = some t) ∧
    ∀ liveObjects cutoffMs, w.stage.observed = some (liveObjects, cutoffMs) →
      config.dryRun = false → chunkPrefix config.objectPrefix <+: key →
      ∀ t, w.uploaded key = some t → key ∉ liveObjects → cutoffMs.toInt < t.toInt

theorem Safe.spared (h : w.Safe config) (hk : w.metadata.References key) :
    w.Spared config key :=
  ⟨h.held key hk, fun live cutoff ho hdry hpre t ht hlive =>
    (h.spares live cutoff ho).young hdry key t hk hpre ht hlive⟩

/-- What may be committed still is not deleted. -/
theorem Safe.spared_of_young (h : w.Safe config) {t : Int64} (ht : w.uploaded key = some t)
    (hlt : w.nowMs.toInt < t.toInt + config.graceSeconds.toNat * 1000) : w.Spared config key := by
  refine ⟨⟨t, ht, h.young key t ht hlt⟩, ?_⟩
  intro live cutoff ho _ _ t' ht' _
  obtain rfl := Option.some.inj (ht.symm.trans ht')
  have hold := (h.spares live cutoff ho).old
  omega

/-- The metadata has changed; what it refers to now is spared. -/
theorem Safe.changed (h : w.Safe config) {s : MetaState} (hlaid : ∀ f, (s.fileView f).Laid)
    (hs : ∀ key, s.References key → w.Spared config key) :
    Safe config { w with metadata := s } where
  clock := h.clock
  laid := hlaid
  held key hk := (hs key hk).1
  young := h.young
  stamped := h.stamped
  fetched := h.fetched
  spares live cutoff ho :=
    ⟨(h.spares live cutoff ho).old, fun hdry key t hk hpre ht hlive =>
      (hs key hk).2 live cutoff ho hdry hpre t ht hlive⟩
  pending := h.pending

/-- What a step leaves as it is, if it is no upload. -/
theorem step_frame [OffsetSort] {event : GcEvent} (hno : ∀ key, event ≠ .upload key) :
    (step config event w).2.uploaded = w.uploaded ∧
      (step config event w).2.lastModifiedMs =
        (match (step config event w).1 with
        | none => w.lastModifiedMs
        | some key => update w.lastModifiedMs key none) ∧
      ((∀ c, event ≠ .call c) → (step config event w).2.metadata = w.metadata) := by
  unfold step
  split
  next => exact ⟨rfl, rfl, fun _ => rfl⟩
  next key => exact absurd rfl (hno key)
  next c => exact ⟨rfl, rfl, fun h => absurd rfl (h c)⟩
  next => exact ⟨rfl, rfl, fun _ => rfl⟩
  next => exact ⟨rfl, rfl, fun _ => rfl⟩
  next => exact ⟨rfl, rfl, fun _ => rfl⟩
  next => exact ⟨rfl, rfl, fun _ => rfl⟩
  next taken answered scan page _ =>
    unfold collect
    split
    next => exact ⟨rfl, rfl, fun _ => rfl⟩
    next =>
      simp only
      split
      next => exact ⟨rfl, rfl, fun _ => rfl⟩
      next =>
        split
        next => exact ⟨rfl, rfl, fun _ => rfl⟩
        next => exact ⟨rfl, rfl, fun _ => rfl⟩
  next => exact ⟨rfl, rfl, fun _ => rfl⟩

end GcWorld

/-- Mounts beside a collector, with what `GcWorld` remembers. -/
structure Deployment (ι : Type) where
  mounts : Mounts ι
  nowMs : Int64
  listed : MetaState
  lastModifiedMs : Bytes → Option Int64
  uploaded : Bytes → Option Int64
  stage : GcService.Stage

/-- A mount serves a request; or time goes on, another client calls the service or the collector
takes a step. -/
inductive DeploymentEvent (ι : Type) where
  | request (mount : ι) (request : Request)
  | shared (event : GcEvent)

namespace Deployment

variable {ι : Type}

/-- What the collector shares with the mounts. -/
def shared (d : Deployment ι) : GcWorld where
  nowMs := d.nowMs
  metadata := d.mounts.world.service.state
  listed := d.listed
  lastModifiedMs := d.lastModifiedMs
  uploaded := d.uploaded
  stage := d.stage

/-- What was put gets the time of now. No request puts what was there already. -/
def stamp (d : Deployment ι) (bucket : Bytes) (w : World) (times : Bytes → Option Int64) :
    Bytes → Option Int64 := fun key =>
  if w.objects (bucket, key) = d.mounts.world.objects (bucket, key) then times key
  else some d.nowMs

/-- The mounts have served a request. -/
def served (d : Deployment ι) (bucket : Bytes) (ms : Mounts ι) : Deployment ι :=
  { d with
    mounts := ms
    lastModifiedMs := d.stamp bucket ms.world d.lastModifiedMs
    uploaded := d.stamp bucket ms.world d.uploaded }

/-- The world of the mounts after a step of another, with the object it deleted. -/
def world (d : Deployment ι) (bucket : Bytes) (deleted : Option Bytes) (s : MetaState) : World :=
  { d.mounts.world with
    service := ⟨s⟩
    objects :=
      match deleted with
      | none => d.mounts.world.objects
      | some key => update d.mounts.world.objects (bucket, key) none }

def step [DecidableEq ι] [OffsetSort] (config : GcServiceConfig) (event : DeploymentEvent ι)
    (d : Deployment ι) : Option FuseReply × Deployment ι :=
  match event with
  | .request i r =>
    let result := Mounts.step (.request i r) d.mounts
    (result.1, d.served config.bucket result.2)
  | .shared event =>
    let result := GcWorld.step config event d.shared
    (none,
      { mounts := { d.mounts with world := d.world config.bucket result.1 result.2.metadata }
        nowMs := result.2.nowMs
        listed := result.2.listed
        lastModifiedMs := result.2.lastModifiedMs
        uploaded := result.2.uploaded
        stage := result.2.stage })

/-- No mount runs out of numbers for its keys, and each commit comes less than the grace period
after the uploads it sends. Only mounts upload and commit data; for the rest time, listings and
the reading of the clock are as `GcEvent` has them. -/
def Timely (config : GcServiceConfig) (d : Deployment ι) : DeploymentEvent ι → Prop
  | .request i r =>
    (d.mounts.servers i).objectKeyGenerator.nextSequence.toNat + 1 < 2 ^ 64 ∧
      ∀ e ∈ (d.mounts.servers i).sent r, ∀ t ∈ d.uploaded e.objectKey,
        d.nowMs.toInt < t.toInt + config.graceSeconds.toNat * 1000
  | .shared (.upload _) => False
  | .shared (.call c) => c.command.extents = []
  | .shared event => event.Allowed config d.shared ∧ event.Timely config d.shared

instance decidableTimely (config : GcServiceConfig) (d : Deployment ι)
    (event : DeploymentEvent ι) : Decidable (d.Timely config event) := by
  -- The times of an option are decided by looking into it, not by going through all of them.
  haveI (key : Bytes) : Decidable (∀ t ∈ d.uploaded key,
      d.nowMs.toInt < t.toInt + config.graceSeconds.toNat * 1000) := Option.decidableForallMem _
  unfold Timely
  split <;> infer_instance

/-- The object of the extent was uploaded, and the extent lies in it as long as it is there. -/
def Recorded (bucket : Bytes) (d : Deployment ι) (e : FileExtent) : Prop :=
  (∃ t, d.uploaded e.objectKey = some t) ∧
    ∀ body, d.mounts.world.objects (bucket, e.objectKey) = some body →
      d.mounts.world.Holds bucket e

/-- The key bears a number that a mount has given. -/
def Given (ms : Mounts ι) (key : Bytes) : Prop :=
  ∃ i p ino n off, key = (ms.generators i).keyAt p ino n off ∧
    n.toNat < (ms.generators i).nextSequence.toNat

/-- The invariant. -/
structure Sound (writerId : ι → Bytes) (config : GcServiceConfig) (d : Deployment ι) : Prop where
  safe : d.shared.Safe config
  layouts : d.mounts.world.All (d.Recorded config.bucket)
  handles : ∀ i id h, (d.mounts.servers i).getFileHandle id = some h →
    ∀ e ∈ h.extents, d.Recorded config.bucket e
  there : ∀ key, (d.lastModifiedMs key).isSome =
    (d.mounts.world.objects (config.bucket, key)).isSome
  buckets : ∀ i, (d.mounts.servers i).config.bucket = config.bucket
  writers : ∀ i, (d.mounts.generators i).writerId = writerId i
  given : ∀ key t, d.uploaded key = some t → Given d.mounts key

variable {d d' : Deployment ι} {bucket key : Bytes} {e : FileExtent} {config : GcServiceConfig}
  {writerId : ι → Bytes}

theorem Recorded.within {p c : FileExtent} (hp : p.Within c) (hc : d.Recorded bucket c) :
    d.Recorded bucket p := by
  obtain ⟨⟨t, ht⟩, hbody⟩ := hc
  have hkey : p.objectKey = c.objectKey := hp.1
  refine ⟨⟨t, hkey ▸ ht⟩, fun body hp' => ?_⟩
  rw [hkey] at hp'
  exact (hbody body hp').within hp

/-- An object may go, but none comes for another. -/
theorem Recorded.kept (h : d.Recorded bucket e)
    (hup : d'.uploaded e.objectKey = d.uploaded e.objectKey)
    (hback : ∀ body, d'.mounts.world.objects (bucket, e.objectKey) = some body →
      d.mounts.world.objects (bucket, e.objectKey) = some body) : d'.Recorded bucket e := by
  obtain ⟨huploaded, hbody⟩ := h
  refine ⟨hup ▸ huploaded, fun body hb => ?_⟩
  obtain ⟨body', hb', hrange⟩ := hbody body (hback body hb)
  obtain rfl := Option.some.inj (hb'.symm.trans (hback body hb))
  exact ⟨body', hb, hrange⟩

/-- What was never uploaded is not there. -/
theorem Sound.absent (hs : d.Sound writerId config) (hk : d.uploaded key = none) :
    d.mounts.world.objects (config.bucket, key) = none := by
  have hthere := hs.there key
  cases htime : d.lastModifiedMs key with
  | none =>
    rw [htime] at hthere
    exact Option.not_isSome_iff_eq_none.mp (by rw [← hthere]; exact Bool.false_ne_true)
  | some t =>
    have hup : d.uploaded key = some t := hs.safe.stamped key t htime
    rw [hk] at hup
    contradiction

/-- A mount's next key was never used. -/
theorem Sound.unused (hs : d.Sound writerId config) (hdistinct : Injective writerId)
    (hslash : ∀ i, 47 ∉ writerId i) (i : ι) (ino off : UInt64) :
    d.uploaded ((d.mounts.servers i).nextObjectKey ino off) = none := by
  have hno (j : ι) : 47 ∉ (d.mounts.generators j).writerId := by
    rw [hs.writers j]
    exact hslash j
  by_contra hsome
  obtain ⟨t, ht⟩ := Option.ne_none_iff_exists'.mp hsome
  obtain ⟨j, p, ino', n, off', hkey, hn⟩ := hs.given _ t ht
  obtain ⟨hw, hnumber⟩ := keyAt_injective (g := d.mounts.generators i) (hno i) (hno j) hkey
  rw [hs.writers i, hs.writers j] at hw
  obtain rfl := hdistinct hw
  rw [← hnumber] at hn
  exact lt_irrefl _ hn

/-- What a request may do to the store. -/
def PutsOne (d : Deployment ι) (bucket : Bytes) (w : World) : Prop :=
  w.objects = d.mounts.world.objects ∨ ∃ key body, d.uploaded key = none ∧
    w.objects = update d.mounts.world.objects (bucket, key) (some body)

section Stamp

variable {w : World}

theorem stamp_same (h : w.objects = d.mounts.world.objects) (times : Bytes → Option Int64) :
    d.stamp bucket w times = times := by
  funext k
  exact if_pos (congrFun h _)

theorem stamp_put (hnone : d.mounts.world.objects (bucket, key) = none) {body : Bytes}
    (h : w.objects = update d.mounts.world.objects (bucket, key) (some body))
    (times : Bytes → Option Int64) :
    d.stamp bucket w times = update times key (some d.nowMs) := by
  funext k
  unfold stamp
  rw [h]
  by_cases hk : k = key
  · rw [hk, update_self, update_self, hnone]
    exact if_neg (Option.some_ne_none _)
  · rw [update_of_ne hk, update_of_ne fun he => hk (Prod.mk.inj he).2]
    exact if_pos rfl

/-- The store after a request, as the collector sees it. -/
theorem Sound.stamped (hs : d.Sound writerId config) (hputs : d.PutsOne config.bucket w) :
    GcWorld.Safe config
        { d.shared with
          lastModifiedMs := d.stamp config.bucket w d.lastModifiedMs
          uploaded := d.stamp config.bucket w d.uploaded } ∧
      (∀ key t, d.uploaded key = some t → d.stamp config.bucket w d.uploaded key = some t ∧
        w.objects (config.bucket, key) = d.mounts.world.objects (config.bucket, key)) ∧
      ∀ key, (d.stamp config.bucket w d.lastModifiedMs key).isSome =
        (w.objects (config.bucket, key)).isSome := by
  rcases hputs with hsame | ⟨new, body, hnew, hput⟩
  · rw [stamp_same hsame, stamp_same hsame, hsame]
    exact ⟨hs.safe, fun key t ht => ⟨ht, rfl⟩, hs.there⟩
  · have hnone := hs.absent hnew
    rw [stamp_put hnone hput, stamp_put hnone hput, hput]
    refine ⟨hs.safe.put hnew, fun key t ht => ?_, fun key => ?_⟩
    · have hne : key ≠ new := by
        rintro rfl
        exact Option.some_ne_none t (ht.symm.trans hnew)
      rw [update_of_ne hne, update_of_ne fun he => hne (Prod.mk.inj he).2]
      exact ⟨ht, rfl⟩
    · by_cases hk : key = new
      · rw [hk, update_self, update_self]
        rfl
      · rw [update_of_ne hk, update_of_ne fun he => hk (Prod.mk.inj he).2]
        exact hs.there key

end Stamp

/-- The key of a request bears the next number, which is given once. -/
theorem serve_numbers [OffsetSort] (m : Mount World) (r : Request) :
    (m.serve World.backend r).2.world.objects = m.world.objects ∧
        (m.serve World.backend r).2.server.objectKeyGenerator = m.server.objectKeyGenerator ∨
      (m.serve World.backend r).2.server.objectKeyGenerator =
          { m.server.objectKeyGenerator with
            nextSequence := m.server.objectKeyGenerator.nextSequence + 1 } ∧
        ((m.serve World.backend r).2.world.objects = m.world.objects ∨
          ∃ ino off body, (m.serve World.backend r).2.world.objects =
            update m.world.objects
              (m.server.config.bucket, m.server.nextObjectKey ino off) (some body)) := by
  cases hr : m.server.keyRequest r with
  | none => exact .inl (serve_of_no_key backend_moves hr)
  | some c =>
    have hmade : m.server.keyRequest r = some (c.1, c.2) := hr
    obtain ⟨hgenerator, hobjects⟩ := serve_of_key hmade
    refine .inr ⟨hgenerator, hobjects.imp id ?_⟩
    rintro ⟨body, hput⟩
    exact ⟨c.1, c.2, body, hput⟩

theorem Sound.putsOne [OffsetSort] (hdistinct : Injective writerId)
    (hslash : ∀ i, 47 ∉ writerId i) (hs : d.Sound writerId config) (i : ι) (r : Request) :
    d.PutsOne config.bucket
      (Mount.serve World.backend ⟨d.mounts.servers i, d.mounts.world⟩ r).2.world := by
  rcases serve_numbers ⟨d.mounts.servers i, d.mounts.world⟩ r with
    ⟨hsame, -⟩ | ⟨-, hsame | ⟨ino, off, body, hput⟩⟩
  · exact .inl hsame
  · exact .inl hsame
  · refine .inr ⟨_, body, hs.unused hdistinct hslash i ino off, ?_⟩
    rw [hput, hs.buckets i]

theorem generators_served [DecidableEq ι] (server : FuseServer) (w : World) (i j : ι) :
    (d.served bucket ⟨update d.mounts.servers i server, w⟩).mounts.generators j =
      if j = i then server.objectKeyGenerator else d.mounts.generators j := by
  show (update d.mounts.servers i server j).objectKeyGenerator = _
  by_cases hj : j = i
  · rw [hj, update_self, if_pos rfl]
  · rw [update_of_ne hj, if_neg hj]
    rfl

theorem Timely.allowed {event : GcEvent} (ht : d.Timely config (.shared event)) :
    (∀ key, event ≠ .upload key) ∧ event.Allowed config d.shared ∧
      event.Timely config d.shared := by
  refine ⟨?_, ?_⟩
  · rintro key rfl
    exact ht
  · cases event with
    | upload key => exact ht.elim
    | call c =>
      have hnone : c.command.extents = [] := ht
      refine ⟨?_, trivial⟩
      show ∀ e ∈ c.command.extents, _
      simp [hnone]
    | _ => exact ht

/-- A step of another puts nothing into the store. -/
theorem world_objects {s : MetaState} {deleted : Option Bytes} {k : Bytes × Bytes} {body : Bytes}
    (h : (d.world bucket deleted s).objects k = some body) :
    d.mounts.world.objects k = some body := by
  cases deleted with
  | none => exact h
  | some key =>
    have h : update d.mounts.world.objects (bucket, key) none k = some body := h
    by_cases hk : k = (bucket, key)
    · rw [hk, update_self] at h
      contradiction
    · rwa [update_of_ne hk] at h

section Steps

variable [DecidableEq ι] [OffsetSort]

/-- The keys used after a request bear numbers given by then. -/
theorem Sound.given_request (hs : d.Sound writerId config) {i : ι} (r : Request)
    (hroom : (d.mounts.generators i).nextSequence.toNat + 1 < 2 ^ 64) :
    let d' := (step config (.request i r) d).2
    (∀ j, (d'.mounts.generators j).writerId = writerId j) ∧
    ∀ key t, d'.uploaded key = some t → Given d'.mounts key := by
  intro d'
  let m : Mount World := ⟨d.mounts.servers i, d.mounts.world⟩
  have hgenerators (j : ι) : d'.mounts.generators j =
      if j = i then (m.serve World.backend r).2.server.objectKeyGenerator
      else d.mounts.generators j := generators_served _ _ i j
  have hnext : (d.mounts.generators i).nextSequence.toNat + 1 =
      ((d.mounts.generators i).nextSequence + 1).toNat := by
    rw [UInt64.toNat_add, UInt64.toNat_one, Nat.mod_eq_of_lt hroom]
  -- The writer stays, and the numbers given stay given.
  have hgiven (j : ι) : (d'.mounts.generators j).writerId = (d.mounts.generators j).writerId ∧
      (d.mounts.generators j).nextSequence.toNat ≤
        (d'.mounts.generators j).nextSequence.toNat := by
    rw [hgenerators]
    split
    next hj =>
      subst hj
      rcases serve_numbers m r with ⟨-, hsame⟩ | ⟨hcount, -⟩
      · rw [hsame]
        exact ⟨rfl, le_rfl⟩
      · rw [hcount]
        exact ⟨rfl, (Nat.le_succ _).trans hnext.le⟩
    next => exact ⟨rfl, le_rfl⟩
  refine ⟨fun j => (hgiven j).1.trans (hs.writers j), fun key t ht => ?_⟩
  have hold (hup : d.uploaded key = some t) : Given d'.mounts key := by
    obtain ⟨j, p, ino, n, off, hkey, hn⟩ := hs.given key t hup
    refine ⟨j, p, ino, n, off, ?_, hn.trans_le (hgiven j).2⟩
    rw [hkey]
    unfold ObjectKeyGenerator.keyAt
    rw [(hgiven j).1]
  have hstamp : d.stamp config.bucket (m.serve World.backend r).2.world d.uploaded key = some t :=
    ht
  unfold stamp at hstamp
  split at hstamp
  next => exact hold hstamp
  next hchanged =>
    rcases serve_numbers m r with ⟨hsame, -⟩ | ⟨hcount, hsame | ⟨ino, off, body, hput⟩⟩
    · exact absurd (congrFun hsame _) hchanged
    · exact absurd (congrFun hsame _) hchanged
    · have hkey : key = m.server.nextObjectKey ino off := by
        by_contra hne
        rw [hput, update_of_ne fun he => hne (Prod.mk.inj he).2] at hchanged
        exact hchanged rfl
      refine ⟨i, m.server.config.objectPrefix, ino, (d.mounts.generators i).nextSequence, off,
        ?_, ?_⟩
      · rw [hkey, hgenerators, if_pos rfl, hcount]
        rfl
      · rw [hgenerators, if_pos rfl, hcount]
        exact (Nat.lt_succ_self _).trans_le hnext.le

/-- The step lemma for a request. -/
theorem Sound.request (hdistinct : Injective writerId) (hslash : ∀ i, 47 ∉ writerId i)
    (hs : d.Sound writerId config) {i : ι} {r : Request} (ht : d.Timely config (.request i r)) :
    (step config (.request i r) d).2.Sound writerId config := by
  obtain ⟨hroom, hyoung⟩ := ht
  let m : Mount World := ⟨d.mounts.servers i, d.mounts.world⟩
  let w := (m.serve World.backend r).2.world
  let d' := (step config (.request i r) d).2
  obtain ⟨hsafe, hkept, hthere⟩ := hs.stamped (hs.putsOne hdistinct hslash i r)
  let g : GcWorld :=
    { d.shared with
      lastModifiedMs := d.stamp config.bucket w d.lastModifiedMs
      uploaded := d.stamp config.bucket w d.uploaded }
  have hrecorded {e : FileExtent} (he : d.Recorded config.bucket e) :
      d'.Recorded config.bucket e := by
    obtain ⟨t, hup⟩ := he.1
    obtain ⟨hup', hobjects⟩ := hkept _ t hup
    exact he.kept (hup'.trans hup.symm) fun body hb => hobjects.symm.trans hb
  -- What the layouts refer to is recorded and spared, what the handles refer to is recorded.
  let P (e : FileExtent) : Prop := d'.Recorded config.bucket e ∧ g.Spared config e.objectKey
  have hall : m.All P (d'.Recorded config.bucket) := by
    refine ⟨⟨hs.layouts.laid, fun f es hes e he => ⟨?_, ?_⟩⟩, fun id h hget e he => ?_⟩
    · exact hrecorded (hs.layouts.held f es hes e he)
    · exact hsafe.spared (MetaState.references_iff.mpr ⟨f, es, hes, e, he, rfl⟩)
    · exact hrecorded (hs.handles i id h hget e he)
  have hsent : ∀ e ∈ m.server.sent r, P e := by
    intro e he
    obtain ⟨id, h, hget, hmem⟩ := FuseServer.exists_of_mem_sent he
    have hold := hs.handles i id h hget e hmem
    obtain ⟨t, hup⟩ := hold.1
    exact ⟨hrecorded hold, hsafe.spared_of_young (hkept _ t hup).1 (hyoung e he t hup)⟩
  have hserved := hall.serve (fun e he => he.1)
    (fun hp hc => ⟨Recorded.within hp hc.1, hp.1 ▸ hc.2⟩) r hsent
    fun ino offset buf extent hext hstored => by
      have hholds : w.Holds config.bucket extent := by
        show (m.serve World.backend r).2.world.Holds config.bucket extent
        rw [hstored, ← hs.buckets i]
        exact hext.stored
      refine ⟨?_, fun body hb => hholds⟩
      obtain ⟨body, hbody, -⟩ := hholds
      have htime := hthere extent.objectKey
      rw [hbody] at htime
      obtain ⟨t, ht⟩ := Option.isSome_iff_exists.mp htime
      exact ⟨t, hsafe.stamped _ t ht⟩
  obtain ⟨hwriters, hkeys⟩ := hs.given_request r hroom
  refine ⟨?_, ⟨hserved.world.laid, fun f es hes e he => (hserved.world.held f es hes e he).1⟩, ?_,
    hthere, ?_, hwriters, hkeys⟩
  · refine hsafe.changed hserved.world.laid ?_
    intro key hk
    obtain ⟨f, es, hes, e, he, rfl⟩ := MetaState.references_iff.mp hk
    exact (hserved.world.held f es hes e he).2
  · intro j id h hget e he
    by_cases hj : j = i
    · subst hj
      have hget' : (m.serve World.backend r).2.server.getFileHandle id = some h := by
        rwa [← Mounts.servers_self]
      exact hserved.handles id h hget' e he
    · have hget' : (d.mounts.servers j).getFileHandle id = some h := by
        rwa [← Mounts.servers_of_ne hj]
      exact hrecorded (hs.handles j id h hget' e he)
  · intro j
    by_cases hj : j = i
    · subst hj
      have hconfig := Mount.serve_config World.backend m r
      rw [← Mounts.servers_self] at hconfig
      exact (congrArg FuseServerConfig.bucket hconfig).trans (hs.buckets j)
    · have hserver : (Mounts.step (.request i r) d.mounts).2.servers j = d.mounts.servers j :=
        Mounts.servers_of_ne hj r
      exact (congrArg (fun s => s.config.bucket) hserver).trans (hs.buckets j)

/-- The step lemma for everything else. -/
theorem Sound.shared_step (hgrace : config.graceSeconds.toNat * 1000 < 2 ^ 63)
    (hs : d.Sound writerId config) {event : GcEvent} (ht : d.Timely config (.shared event)) :
    (step config (.shared event) d).2.Sound writerId config := by
  obtain ⟨hno, hallowed⟩ := ht.allowed
  obtain ⟨hup, htimes, hmetadata⟩ := @GcWorld.step_frame config d.shared _ event hno
  obtain ⟨hsafe, -⟩ := hs.safe.step hgrace hallowed.1 hallowed.2
  have hrecorded {e : FileExtent} (he : d.Recorded config.bucket e) :
      (step config (.shared event) d).2.Recorded config.bucket e :=
    he.kept (congrFun hup _) fun body hb => world_objects hb
  refine ⟨hsafe, ⟨hsafe.laid, ?_⟩, fun i id h hget e he => hrecorded (hs.handles i id h hget e he),
    ?_, hs.buckets, hs.writers, fun key t hk => hs.given key t ?_⟩
  · -- The layouts are as they were, or cut by a call that commits nothing.
    have hheld : ∀ f es, ((GcWorld.step config event d.shared).2.metadata.fileView f).2 =
        some es → ∀ e ∈ es, d.Recorded config.bucket e := by
      by_cases hcall : ∃ c, event = .call c
      · obtain ⟨c, rfl⟩ := hcall
        have hnone : c.command.extents = [] := ht
        exact MetaState.forall_extents_of_call (c := c) Recorded.within hs.layouts.laid
          hs.layouts.held (by simp [hnone])
      · rw [hmetadata fun c hc => hcall ⟨c, hc⟩]
        exact hs.layouts.held
    exact fun f es hes e he => hrecorded (hheld f es hes e he)
  · intro key
    show ((GcWorld.step config event d.shared).2.lastModifiedMs key).isSome =
      ((d.world config.bucket (GcWorld.step config event d.shared).1
        (GcWorld.step config event d.shared).2.metadata).objects (config.bucket, key)).isSome
    rw [htimes]
    cases (GcWorld.step config event d.shared).1 with
    | none => exact hs.there key
    | some deleted =>
      show (update d.lastModifiedMs deleted none key).isSome =
        (update d.mounts.world.objects (config.bucket, deleted) none (config.bucket, key)).isSome
      by_cases hk : key = deleted
      · rw [hk, update_self, update_self]
        rfl
      · rw [update_of_ne hk, update_of_ne fun he => hk (Prod.mk.inj he).2]
        exact hs.there key
  · rw [← hk]
    exact (congrFun hup key).symm

theorem Sound.step (hdistinct : Injective writerId) (hslash : ∀ i, 47 ∉ writerId i)
    (hgrace : config.graceSeconds.toNat * 1000 < 2 ^ 63) (hs : d.Sound writerId config)
    {event : DeploymentEvent ι} (ht : d.Timely config event) :
    (step config event d).2.Sound writerId config := by
  cases event with
  | request i r => exact hs.request hdistinct hslash ht
  | shared event => exact hs.shared_step hgrace ht

end Steps

/-- What is spared is there, so that a read finds it. -/
theorem Sound.holds (hs : d.Sound writerId config) (he : d.Recorded config.bucket e)
    (hspared : d.shared.Spared config e.objectKey) : d.mounts.world.Holds config.bucket e := by
  obtain ⟨⟨t, -, htime⟩, -⟩ := hspared
  have hthere := hs.there e.objectKey
  have htime : d.lastModifiedMs e.objectKey = some t := htime
  rw [htime] at hthere
  obtain ⟨body, hbody⟩ := Option.isSome_iff_exists.mp hthere.symm
  exact he.2 body hbody

theorem Sound.backed (hs : d.Sound writerId config) : d.mounts.world.Backed config.bucket :=
  ⟨hs.layouts.laid, fun f es hes e he => hs.holds (hs.layouts.held f es hes e he)
    (hs.safe.spared (MetaState.references_iff.mpr ⟨f, es, hes, e, he, rfl⟩))⟩

/-- Mounts that were just started, with a store that is empty and a collector that is idle. -/
def start (mounted : ι → FuseServerConfig) (writerId : ι → Bytes) (w : World) (nowMs : Int64) :
    Deployment ι where
  mounts := ⟨fun i => .fresh (mounted i) (writerId i), w⟩
  nowMs := nowMs
  listed := w.service.state
  lastModifiedMs := fun _ => none
  uploaded := fun _ => none
  stage := .returned 0

theorem sound_start {mounted : ι → FuseServerConfig}
    (hbucket : ∀ i, (mounted i).bucket = config.bucket) {w : World}
    (hempty : w.objects = fun _ => none) {chunkSize : UInt64} {nowNs : Int64}
    (hfresh : w.service.state = .fresh chunkSize nowNs) {nowMs : Int64}
    (hnow : 0 ≤ nowMs.toInt) : (start mounted writerId w nowMs).Sound writerId config := by
  have hshared : (start mounted writerId w nowMs).shared = .fresh chunkSize nowNs nowMs := by
    unfold shared start GcWorld.fresh
    rw [hfresh]
  have hsafe : (start mounted writerId w nowMs).shared.Safe config :=
    hshared ▸ GcWorld.safe_fresh config chunkSize nowNs hnow
  refine ⟨hsafe, .of_fresh hfresh, ?_, ?_, hbucket, fun i => rfl, nofun⟩
  · intro i id h hget
    have hsome : (FuseServer.fresh (mounted i) (writerId i)).getFileHandle id = some h := hget
    rw [FuseServer.getFileHandle_fresh] at hsome
    contradiction
  · intro key
    show false = (w.objects (config.bucket, key)).isSome
    rw [hempty]
    rfl

end Deployment

/-- The keys one mount gives its first two objects. -/
def rewrittenKey (sequence : UInt64) : Bytes :=
  (ObjectKeyGenerator.mk (twoWriters false) 1).keyAt [] 2 sequence 0

/-- A file is written again by one mount; then the collector runs and another mount opens it. -/
def rewrittenEvents : List (DeploymentEvent Bool) :=
  [.request false (.create 1 (ascii "f") 0o644 0 0 ⟨oRdwr, 0, false⟩),
    .request false (.write 2 [1, 2] 0 ⟨oRdwr, 1, true⟩),
    .request false (.flush 2 ⟨oRdwr, 1, true⟩), .shared (.tick 2000),
    .request false (.write 2 [9, 8] 0 ⟨oRdwr, 1, true⟩),
    .request false (.flush 2 ⟨oRdwr, 1, true⟩), .shared (.tick 2500), .shared .runOnce,
    .shared (.listLiveObjects true), .shared .readClock,
    .shared (.listPage (.ok ⟨[⟨rewrittenKey 1, 2, 0⟩, ⟨rewrittenKey 2, 2, 2000⟩], []⟩)),
    .shared (.nextObject true true), .shared (.nextObject true true),
    .request true (.open 2 ⟨oRdwr, 0, false⟩)]

def rewrittenStart : Deployment Bool :=
  .start (fun _ => ⟨ascii "b", []⟩) twoWriters (.fresh 4096) 0

end Pulpfs
