import Pulpfs.Gc.Service
import Mathlib.Tactic.Push

/-! The grace period for every value it can be given. Its milliseconds are multiplied out in an
unsigned word, which is then read as signed and subtracted from the clock. -/
namespace Pulpfs

namespace GcService

/-- What a run that reads the clock at `nowMs` goes by. -/
def scanAt (config : GcServiceConfig) (liveObjects : List Bytes) (nowMs : Int64) : Scan :=
  { liveObjects, cutoffMs := cutoffMs config nowMs }

theorem onClock_eq (config : GcServiceConfig) (liveObjects : List Bytes) (nowMs : Int64) :
    onClock config liveObjects nowMs = .listPage (scanAt config liveObjects nowMs) := rfl

/-- The times a clock or an object store can report. -/
def InTime (ms : Int64) : Prop := 0 ≤ ms.toInt ∧ ms.toInt < 2 ^ 62

instance decidableInTime (ms : Int64) : Decidable (InTime ms) :=
  inferInstanceAs (Decidable (_ ∧ _))

/-- Only what is as old as the grace period is deletable. -/
def HonoursGrace (config : GcServiceConfig) : Prop :=
  ∀ (liveObjects : List Bytes) (nowMs : Int64) (object : ObjectInfo), InTime nowMs →
    InTime object.lastModifiedMs → (scanAt config liveObjects nowMs).verdict object = .orphan →
      (config.graceSeconds.toNat * 1000 : ℤ) ≤ nowMs.toInt - object.lastModifiedMs.toInt

/-- Nothing is deletable that would not be with a shorter grace period. -/
def GraceOnlyDelays (config : GcServiceConfig) : Prop :=
  ∀ (shorter : UInt64) (liveObjects : List Bytes) (nowMs : Int64) (object : ObjectInfo),
    shorter ≤ config.graceSeconds → InTime nowMs → InTime object.lastModifiedMs →
      (scanAt config liveObjects nowMs).verdict object = .orphan →
        (scanAt { config with graceSeconds := shorter } liveObjects nowMs).verdict object = .orphan

/-- What the unsigned word holds of the milliseconds of the grace period. -/
def graceMs (config : GcServiceConfig) : ℕ := config.graceSeconds.toNat * 1000 % 2 ^ 64

/-- The milliseconds fit the signed value, or they wrap to one that lies before every object. -/
def GraceFits (config : GcServiceConfig) : Prop :=
  config.graceSeconds.toNat * 1000 < 2 ^ 63 ∨ 2 ^ 62 ≤ graceMs config ∧ graceMs config ≤ 2 ^ 63

variable {config : GcServiceConfig} {liveObjects : List Bytes} {nowMs : Int64}
  {object : ObjectInfo}

theorem graceMs_toInt64 (config : GcServiceConfig) :
    (graceMs config < 2 ^ 63 ∧ (config.graceSeconds * 1000).toInt64.toInt = graceMs config) ∨
      2 ^ 63 ≤ graceMs config ∧
        (config.graceSeconds * 1000).toInt64.toInt = graceMs config - 2 ^ 64 := by
  have hms : (config.graceSeconds * 1000).toBitVec.toNat = graceMs config :=
    UInt64.toNat_mul config.graceSeconds 1000
  have hint : (config.graceSeconds * 1000).toInt64.toInt =
      (config.graceSeconds * 1000).toBitVec.toInt := rfl
  rw [hint, BitVec.toInt_eq_toNat_cond, hms]
  split
  next h => exact .inl ⟨by omega, rfl⟩
  next h => exact .inr ⟨by omega, rfl⟩

/-- A word below the middle is subtracted, one above it adds what it lacks to `2 ^ 64`, and the
difference wraps where it does not fit. -/
theorem cutoffMs_cases (config : GcServiceConfig) (hnow : InTime nowMs) :
    (graceMs config < 2 ^ 63 ∧
      (cutoffMs config nowMs).toInt = nowMs.toInt - graceMs config) ∨
    (2 ^ 63 ≤ graceMs config ∧ nowMs.toInt + (2 ^ 64 - graceMs config) < 2 ^ 63 ∧
      (cutoffMs config nowMs).toInt = nowMs.toInt + (2 ^ 64 - graceMs config)) ∨
    2 ^ 63 ≤ graceMs config ∧ 2 ^ 63 ≤ nowMs.toInt + (2 ^ 64 - graceMs config) ∧
      (cutoffMs config nowMs).toInt = nowMs.toInt - graceMs config := by
  obtain ⟨hpos, hlt⟩ := hnow
  have hword : graceMs config < 2 ^ 64 := Nat.mod_lt _ (by decide)
  rw [cutoffMs, Int64.toInt_sub]
  rcases graceMs_toInt64 config with ⟨hms, hint⟩ | ⟨hms, hint⟩
  · rw [hint]
    exact .inl ⟨hms, Int.bmod_eq_of_le (by omega) (by omega)⟩
  · rw [hint]
    by_cases hfits : nowMs.toInt + (2 ^ 64 - graceMs config) < 2 ^ 63
    · refine .inr (.inl ⟨hms, hfits, ?_⟩)
      rw [Int.bmod_eq_of_le (by omega) (by omega)]
      omega
    · refine .inr (.inr ⟨hms, by omega, ?_⟩)
      have hwrap : nowMs.toInt - (graceMs config - 2 ^ 64) =
          nowMs.toInt - graceMs config + (2 ^ 64 : ℕ) := by omega
      rw [hwrap, Int.add_bmod_right]
      exact Int.bmod_eq_of_le (by omega) (by omega)

theorem deletable_iff : (scanAt config liveObjects nowMs).verdict object = .orphan ↔
    object.key ∉ liveObjects ∧
      object.lastModifiedMs.toInt ≤ (cutoffMs config nowMs).toInt := Scan.verdict_eq_orphan

/-- Where the milliseconds fit, exactly what is old enough is deletable. -/
theorem GraceFits.deletable_iff (h : GraceFits config) (hnow : InTime nowMs)
    (hobject : InTime object.lastModifiedMs) :
    (scanAt config liveObjects nowMs).verdict object = .orphan ↔ object.key ∉ liveObjects ∧
      (config.graceSeconds.toNat * 1000 : ℤ) ≤ nowMs.toInt - object.lastModifiedMs.toInt := by
  rw [GcService.deletable_iff]
  refine and_congr_right fun _ => ?_
  have hcutoff := cutoffMs_cases config hnow
  obtain ⟨hpos, hlt⟩ := hobject
  obtain ⟨hnowPos, hnowLt⟩ := hnow
  rcases h with hfits | ⟨hlow, hhigh⟩
  · have hms : graceMs config = config.graceSeconds.toNat * 1000 := Nat.mod_eq_of_lt (by omega)
    omega
  · have hle : graceMs config ≤ config.graceSeconds.toNat * 1000 := Nat.mod_le _ _
    omega

theorem GraceFits.honoursGrace (h : GraceFits config) : HonoursGrace config :=
  fun _ _ _ hnow hobject horphan => ((h.deletable_iff hnow hobject).mp horphan).2

theorem GraceFits.graceOnlyDelays (h : GraceFits config) : GraceOnlyDelays config := by
  intro shorter liveObjects nowMs object hle hnow hobject horphan
  obtain ⟨hlive, hold⟩ := (h.deletable_iff hnow hobject).mp horphan
  have hle := UInt64.le_iff_toNat_le.mp hle
  have hpos := hobject.1
  have hlt := hnow.2
  have hfits : GraceFits { config with graceSeconds := shorter } :=
    .inl (by show shorter.toNat * 1000 < 2 ^ 63; omega)
  refine (hfits.deletable_iff hnow hobject).mpr ⟨hlive, ?_⟩
  show (shorter.toNat * 1000 : ℤ) ≤ _
  omega

/-- Where they do not, something is deletable that is younger than `2 ^ 62` milliseconds. -/
theorem exists_young_of_not_graceFits (h : ¬ GraceFits config) :
    ∃ (nowMs : Int64) (object : ObjectInfo), InTime nowMs ∧ InTime object.lastModifiedMs ∧
      (scanAt config [] nowMs).verdict object = .orphan := by
  simp only [GraceFits, not_or, not_and_or, not_le, not_lt] at h
  obtain ⟨hlong, hlow | hhigh⟩ := h
  · have hnow : InTime 4611686018427387903 := by decide
    refine ⟨4611686018427387903, {key := []}, hnow, by decide, ?_⟩
    rw [deletable_iff]
    refine ⟨by simp, ?_⟩
    have hcutoff := cutoffMs_cases config hnow
    have hvalue : (4611686018427387903 : Int64).toInt = 2 ^ 62 - 1 := by decide
    rw [hvalue] at hcutoff
    show 0 ≤ _
    omega
  · have hnow : InTime 0 := by decide
    refine ⟨0, {key := []}, hnow, by decide, ?_⟩
    rw [deletable_iff]
    refine ⟨by simp, ?_⟩
    have hcutoff := cutoffMs_cases config hnow
    have hword : graceMs config < 2 ^ 64 := Nat.mod_lt _ (by decide)
    have hvalue : (0 : Int64).toInt = 0 := rfl
    rw [hvalue] at hcutoff
    show 0 ≤ _
    omega

end GcService

open GcService

/-- The grace period is honoured exactly for the values whose milliseconds fit, and exactly for
these no longer one makes an object deletable that a shorter one would keep. -/
theorem grace_honoured_iff (config : GcServiceConfig) :
    (HonoursGrace config ↔ GraceFits config) ∧ (GraceOnlyDelays config ↔ GraceFits config) := by
  refine ⟨⟨fun h => ?_, GraceFits.honoursGrace⟩, ⟨fun h => ?_, GraceFits.graceOnlyDelays⟩⟩
  · by_contra hfits
    obtain ⟨nowMs, object, hnow, hobject, horphan⟩ := exists_young_of_not_graceFits hfits
    have hold := h [] nowMs object hnow hobject horphan
    have hlong := (not_or.mp hfits).1
    have hpos := hobject.1
    have hlt := hnow.2
    omega
  · by_contra hfits
    obtain ⟨nowMs, object, hnow, hobject, horphan⟩ := exists_young_of_not_graceFits hfits
    have hlong := (not_or.mp hfits).1
    have hpos := hobject.1
    have hlt := hnow.2
    -- a grace period that is longer than any object can be old
    have hvalue : (4611686018427388 : UInt64).toNat = 4611686018427388 := rfl
    have hshorter : (4611686018427388 : UInt64) ≤ config.graceSeconds := by
      rw [UInt64.le_iff_toNat_le, hvalue]
      omega
    have hkept := h 4611686018427388 [] nowMs object hshorter hnow hobject horphan
    have hbound : GraceFits { config with graceSeconds := 4611686018427388 } :=
      .inl (by show (4611686018427388 : UInt64).toNat * 1000 < 2 ^ 63; omega)
    have hold := ((hbound.deletable_iff hnow hobject).mp hkept).2
    change ((4611686018427388 : UInt64).toNat * 1000 : ℤ) ≤ _ at hold
    omega

/-- The longest grace period there is deletes what was just put; a day would keep it. -/
theorem longest_grace_deletes_new :
    let config : GcServiceConfig := { graceSeconds := 18446744073709551615 }
    let nowMs : Int64 := 1700000000000
    let object : ObjectInfo := { key := ascii "pulpfs/chunks/x", lastModifiedMs := 1700000000000 }
    InTime nowMs ∧ InTime object.lastModifiedMs ∧
      (scanAt config [] nowMs).verdict object = .orphan ∧
      ¬ (config.graceSeconds.toNat * 1000 : ℤ) ≤
        nowMs.toInt - object.lastModifiedMs.toInt ∧
      (scanAt { config with graceSeconds := 86400 } [] nowMs).verdict object = .young := by
  decide

end Pulpfs
