import Pulpfs.Fuse.SetAttr
import Pulpfs.Meta.Success

/-! Times on their way into the service and back. A `timespec` is stored as one number of
nanoseconds, which is taken apart with division towards zero. -/
namespace Pulpfs

namespace Timespec

/-- A `timespec` as it should be, whose nanoseconds fit the stored value. -/
structure Representable (ts : Timespec) : Prop where
  nsec : 0 ≤ ts.tvNsec.toInt ∧ ts.tvNsec.toInt < 1000000000
  fits : -2 ^ 63 ≤ ts.tvSec.toInt * 1000000000 + ts.tvNsec.toInt ∧
    ts.tvSec.toInt * 1000000000 + ts.tvNsec.toInt < 2 ^ 63

/-- Not before 1970, or on a second. -/
def Survives (ts : Timespec) : Prop := 0 ≤ ts.tvSec.toInt ∨ ts.tvNsec = 0

/-- Within the second. -/
def InSecond (ts : Timespec) : Prop := 0 ≤ ts.tvNsec.toInt ∧ ts.tvNsec.toInt < 1000000000

end Timespec

theorem nsFromTimespec_toInt {ts : Timespec} (h : ts.Representable) :
    (nsFromTimespec ts).toInt = ts.tvSec.toInt * 1000000000 + ts.tvNsec.toInt := by
  have hbillion : (1000000000 : Int64).toInt = 1000000000 := by decide
  obtain ⟨hlow, hhigh⟩ := h.fits
  rw [nsFromTimespec, Int64.toInt_add, Int64.toInt_mul, hbillion, Int.bmod_add_bmod]
  exact Int.bmod_eq_of_le (by omega) (by omega)

/-- The parts of a number of nanoseconds, and how far they are from those of the calendar. -/
theorem timespecFromNs_toInt (ns : Int64) :
    (timespecFromNs ns).tvSec.toInt * 1000000000 + (timespecFromNs ns).tvNsec.toInt = ns.toInt ∧
      (0 ≤ ns.toInt → 0 ≤ (timespecFromNs ns).tvNsec.toInt ∧
        (timespecFromNs ns).tvNsec.toInt < 1000000000) ∧
      (ns.toInt < 0 → -1000000000 < (timespecFromNs ns).tvNsec.toInt ∧
        (timespecFromNs ns).tvNsec.toInt ≤ 0) := by
  have hbillion : (1000000000 : Int64).toInt = 1000000000 := by decide
  have hsec : (timespecFromNs ns).tvSec.toInt = ns.toInt.tdiv 1000000000 := by
    rw [← hbillion]
    exact Int64.toInt_div_of_ne_right _ _ (by decide)
  have hnsec : (timespecFromNs ns).tvNsec.toInt = ns.toInt.tmod 1000000000 := by
    rw [← hbillion]
    exact Int64.toInt_mod _ _
  rw [hsec, hnsec]
  refine ⟨?_, fun hpos => ⟨?_, ?_⟩, fun hneg => ⟨?_, ?_⟩⟩
  · rw [Int.mul_comm]
    exact Int.mul_tdiv_add_tmod ns.toInt 1000000000
  · exact Int.tmod_nonneg _ hpos
  · exact Int.tmod_lt_of_pos _ (by decide)
  · exact Int.lt_tmod_of_pos _ (by decide)
  · have hneg := Int.tmod_nonneg (a := -ns.toInt) 1000000000 (by omega)
    rw [Int.neg_tmod] at hneg
    omega

theorem timespecFromNs_inSecond_iff (ns : Int64) :
    (timespecFromNs ns).InSecond ↔ 0 ≤ ns.toInt ∨ ns.toInt % 1000000000 = 0 := by
  obtain ⟨hsum, hpos, hneg⟩ := timespecFromNs_toInt ns
  unfold Timespec.InSecond
  omega

/-- What becomes of a `timespec` that is stored. -/
theorem timespecFromNs_nsFromTimespec_iff {ts : Timespec} (h : ts.Representable) :
    timespecFromNs (nsFromTimespec ts) = ts ↔ ts.Survives := by
  obtain ⟨hsum, hpos, hneg⟩ := timespecFromNs_toInt (nsFromTimespec ts)
  rw [nsFromTimespec_toInt h] at hsum hpos hneg
  obtain ⟨hlow, hhigh⟩ := h.nsec
  have hzero : ts.tvNsec = 0 ↔ ts.tvNsec.toInt = 0 := Int64.toInt_inj.symm
  have hequal : timespecFromNs (nsFromTimespec ts) = ts ↔
      (timespecFromNs (nsFromTimespec ts)).tvSec.toInt = ts.tvSec.toInt ∧
        (timespecFromNs (nsFromTimespec ts)).tvNsec.toInt = ts.tvNsec.toInt := by
    rw [Int64.toInt_inj, Int64.toInt_inj]
    constructor
    · intro he
      rw [he]
      exact ⟨rfl, rfl⟩
    · rintro ⟨hs, hn⟩
      cases ts
      exact congrArg₂ Timespec.mk hs hn
  rw [hequal, Timespec.Survives, hzero]
  omega

/-- What `SetAttr` stores is what it returns, with the times of the request. -/
theorem MetaState.setAttr_stored {s s' : MetaState} {clock : Clock} {command : SetAttrCommand}
    {a : InodeAttrs} (h : s.setAttr clock command = (.ok a, s')) :
    s'.inodes[command.inodeId]? = some a ∧
      (command.setAtime = true → a.atimeNs = command.atimeNs) ∧
      (command.setMtime = true → a.mtimeNs = command.mtimeNs) := by
  unfold MetaState.setAttr at h
  split at h
  next => cases h
  next b hb =>
    obtain ⟨ha, rfl⟩ := Prod.mk.inj h
    obtain rfl := Outcome.ok.inj ha
    refine ⟨?_, fun hset => if_pos hset, fun hset => if_pos hset⟩
    exact (congrFun (TreeMap.get_insert s.inodes _ _) _).trans (Function.update_self ..)

section Requests

variable [OffsetSort] {m m' : Mount World} {ino : UInt64} {attr st : Stat} {toSet : UInt32}

/-- What a request for the attributes shows is stored. -/
theorem pulpfsGetAttr_stored (h : m.pulpfsGetAttr World.metaClient ino = (.attr st, m')) :
    ∃ a, m.world.service.state.inodes[ino]? = some a ∧ st = statFromAttrs a := by
  unfold Mount.pulpfsGetAttr at h
  split at h
  next => cases h
  next a w hcall =>
    have hread : m.world.service.state.getAttr ino = .ok a :=
      World.query_ok (congrArg Prod.fst hcall)
    refine ⟨a, ?_, (SetAttrReply.attr.inj (congrArg Prod.fst h)).symm⟩
    unfold MetaState.getAttr at hread
    split at hread
    next => contradiction
    next b hb => exact Outcome.ok.inj hread ▸ hb

/-- A request that sets a time and is answered was carried out by `SetAttr`. -/
theorem pulpfsSetAttr_stored
    (h : m.pulpfsSetAttr World.attrClient ino attr toSet = (.attr st, m'))
    (hset : toSet &&& ~~~fuseSetAttrSize ≠ 0) :
    ∃ a, m'.world.service.state.inodes[ino]? = some a ∧ st = statFromAttrs a ∧
      (toSet &&& fuseSetAttrAtime ≠ 0 → a.atimeNs = nsFromTimespec attr.atim) ∧
      (toSet &&& fuseSetAttrMtime ≠ 0 → a.mtimeNs = nsFromTimespec attr.mtim) := by
  unfold Mount.pulpfsSetAttr at h
  split at h
  next => cases h
  next =>
    split at h
    next => cases h
    next a w hcalls =>
      obtain ⟨hst, rfl⟩ := Prod.mk.inj h
      unfold setAttrCalls at hcalls
      dsimp only at hcalls
      split at hcalls
      next => cases hcalls
      next b w₁ _ =>
        rw [if_pos hset] at hcalls
        obtain ⟨b, hb, hreply⟩ := MetaState.Result.map_eq_ok (World.propose_inodeResult_ok hcalls)
        obtain rfl := Reply.attrs.inj hreply
        obtain ⟨hstored, hatime, hmtime⟩ := MetaState.setAttr_stored hb
        refine ⟨b, hstored, (SetAttrReply.attr.inj hst).symm, fun hbit => ?_, fun hbit => ?_⟩
        · exact (hatime (decide_eq_true hbit)).trans (if_pos (decide_eq_true hbit))
        · exact (hmtime (decide_eq_true hbit)).trans (if_pos (decide_eq_true hbit))

omit [OffsetSort] in
theorem sets_more_than_size {bit : UInt32} (hbit : ~~~fuseSetAttrSize &&& bit = bit)
    (h : toSet &&& bit ≠ 0) : toSet &&& ~~~fuseSetAttrSize ≠ 0 := by
  intro hnone
  rw [← hbit, ← UInt32.and_assoc, hnone, UInt32.zero_and] at h
  exact h rfl

end Requests

/-- A time that is set by a request that is answered comes back as it was set, in the answer and
from a request for the attributes, exactly when it is not before 1970 or on a second; and a stored
time is reported within the second exactly when it is not negative or on a second. -/
theorem timestamps_survive_iff [OffsetSort] (m m' : Mount World) (ino : UInt64) (attr st : Stat)
    (toSet : UInt32) (h : m.pulpfsSetAttr World.attrClient ino attr toSet = (.attr st, m')) :
    (toSet &&& fuseSetAttrAtime ≠ 0 → attr.atim.Representable →
      ∃ a, m'.world.service.state.inodes[ino]? = some a ∧ st = statFromAttrs a ∧
        (∀ got m'', m'.pulpfsGetAttr World.metaClient ino = (.attr got, m'') → got = st) ∧
        ((statFromAttrs a).atim = attr.atim ↔ attr.atim.Survives)) ∧
    (toSet &&& fuseSetAttrMtime ≠ 0 → attr.mtim.Representable →
      ∃ a, m'.world.service.state.inodes[ino]? = some a ∧ st = statFromAttrs a ∧
        (∀ got m'', m'.pulpfsGetAttr World.metaClient ino = (.attr got, m'') → got = st) ∧
        ((statFromAttrs a).mtim = attr.mtim ↔ attr.mtim.Survives)) ∧
    ∀ ns : Int64, (timespecFromNs ns).InSecond ↔ 0 ≤ ns.toInt ∨ ns.toInt % 1000000000 = 0 := by
  have hgot {a : InodeAttrs} (ha : m'.world.service.state.inodes[ino]? = some a)
      (hst : st = statFromAttrs a) (got : Stat) (m'' : Mount World)
      (hget : m'.pulpfsGetAttr World.metaClient ino = (.attr got, m'')) : got = st := by
    obtain ⟨b, hb, hshown⟩ := pulpfsGetAttr_stored hget
    rw [hshown, hst, Option.some.inj (hb.symm.trans ha)]
  refine ⟨fun hbit hts => ?_, fun hbit hts => ?_, timespecFromNs_inSecond_iff⟩
  · obtain ⟨a, ha, hst, hatime, -⟩ :=
      pulpfsSetAttr_stored h (sets_more_than_size (by decide) hbit)
    refine ⟨a, ha, hst, hgot ha hst, ?_⟩
    show timespecFromNs a.atimeNs = attr.atim ↔ _
    rw [hatime hbit]
    exact timespecFromNs_nsFromTimespec_iff hts
  · obtain ⟨a, ha, hst, -, hmtime⟩ :=
      pulpfsSetAttr_stored h (sets_more_than_size (by decide) hbit)
    refine ⟨a, ha, hst, hgot ha hst, ?_⟩
    show timespecFromNs a.mtimeNs = attr.mtim ↔ _
    rw [hmtime hbit]
    exact timespecFromNs_nsFromTimespec_iff hts

/-- Times to set on the root. -/
def timesAttr (atim mtim : Timespec) : Stat := { statFromAttrs {} with atim, mtim }

/-- The root with its times, once they are set. -/
def rootAttrs (atimeNs mtimeNs : Int64) : InodeAttrs :=
  { inodeId := kRootInodeId, type := .directory, mode := 0o755, nlink := 2, version := 2,
    atimeNs, mtimeNs, ctimeNs := 1 }

def setRootTimes (atim mtim : Timespec) : SetAttrReply × Mount World :=
  Mount.pulpfsSetAttr (@World.attrClient .insertion)
    ⟨.fresh ⟨[], []⟩ [], World.fresh 4096⟩ kRootInodeId (timesAttr atim mtim)
    (fuseSetAttrAtime ||| fuseSetAttrMtime)

theorem timestamps_of_setRootTimes :
    let request := setRootTimes ⟨1700000000, 999999999⟩ ⟨-2, 0⟩
    ∃ a, request.2.world.service.state.inodes[kRootInodeId]? = some a ∧
      request.1 = .attr (statFromAttrs a) ∧
      (statFromAttrs a).atim = ⟨1700000000, 999999999⟩ := by
  intro request
  have hreply : request.1 =
      .attr (statFromAttrs (rootAttrs 1700000000999999999 (-2000000000))) := by decide +kernel
  obtain ⟨hatime, -, -⟩ := @timestamps_survive_iff .insertion
    ⟨.fresh ⟨[], []⟩ [], World.fresh 4096⟩ request.2 kRootInodeId
    (timesAttr ⟨1700000000, 999999999⟩ ⟨-2, 0⟩) _ (fuseSetAttrAtime ||| fuseSetAttrMtime)
    (Prod.ext hreply rfl)
  obtain ⟨a, ha, hst, -, hback⟩ := hatime (by decide) ⟨by decide, by decide⟩
  exact ⟨a, ha, hst ▸ hreply, hback.mpr (.inl (by decide))⟩

/-- Half a second before 1970 comes back as half a second less than nothing. -/
theorem half_second_lost :
    Timespec.Representable ⟨-1, 500000000⟩ ∧
      ∃ st, (setRootTimes ⟨-1, 500000000⟩ ⟨0, 0⟩).1 = .attr st ∧
        st.atim = ⟨0, -500000000⟩ ∧ ¬ st.atim.InSecond := by
  refine ⟨⟨by decide, by decide⟩, statFromAttrs (rootAttrs (-500000000) 0), by decide +kernel,
    by decide, ?_⟩
  exact fun h => absurd h.1 (by decide)

end Pulpfs
