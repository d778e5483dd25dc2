import Pulpfs.Errors
import Mathlib.Data.UInt
import Mathlib.Order.Basic
import Mathlib.Tactic.ByCases

/-! `GcService::RunOnce` of `gc_service.cc`, cut where it waits for the metadata service, the
clock or the object store. Each function says how it goes on with what it was told. -/
namespace Pulpfs

/-- The fields `RunOnce` looks at itself. -/
structure GcServiceConfig where
  bucket : Bytes := []
  objectPrefix : Bytes := ascii "pulpfs"
  s3Endpoint : Bytes := []
  graceSeconds : UInt64 := 86400
  dryRun : Bool := false

structure DeleteObjectRequest where
  bucket : Bytes
  key : Bytes
  deriving DecidableEq

structure ListObjectsRequest where
  bucket : Bytes
  keyPrefix : Bytes
  continuationToken : Bytes
  deriving DecidableEq

structure ObjectInfo where
  key : Bytes
  size : UInt64 := 0
  lastModifiedMs : Int64 := 0
  deriving DecidableEq

structure ListObjectsResult where
  objects : List ObjectInfo
  nextContinuationToken : Bytes := []
  deriving DecidableEq

def chunkPrefix (objectPrefix : Bytes) : Bytes :=
  if objectPrefix.isEmpty then ascii "chunks/" else objectPrefix ++ ascii "/chunks/"

namespace GcService

/-- The unsigned product is cast to a signed value. -/
def cutoffMs (config : GcServiceConfig) (nowMs : Int64) : Int64 :=
  nowMs - (config.graceSeconds * 1000).toInt64

structure Counters where
  scanned : UInt64 := 0
  live : UInt64 := 0
  skippedYoung : UInt64 := 0
  deleted : UInt64 := 0
  deleteFailed : UInt64 := 0
  deriving DecidableEq

/-- The variables of the loops. -/
structure Scan where
  liveObjects : List Bytes
  cutoffMs : Int64
  counters : Counters := {}
  continuationToken : Bytes := []
  deriving DecidableEq

/-- Where `RunOnce` waits, or what it returned. In `inPage` the objects of the page are those
still to come. -/
inductive Stage where
  | listLiveObjects
  | readClock (liveObjects : List Bytes)
  | listPage (scan : Scan)
  | inPage (scan : Scan) (page : ListObjectsResult)
  | returned (code : Int32)
  deriving DecidableEq

/-- What the body of the loop finds out about a listed object. -/
inductive Verdict where
  | live
  | young
  | orphan
  deriving DecidableEq

def Scan.verdict (scan : Scan) (object : ObjectInfo) : Verdict :=
  if object.key ∈ scan.liveObjects then .live
  else if object.lastModifiedMs > scan.cutoffMs then .young
  else .orphan

/-- `RunOnce` up to its first request. -/
def runOnce (config : GcServiceConfig) : Stage :=
  if config.bucket.isEmpty then .returned (-1)
  else if config.s3Endpoint.isEmpty then .returned (-1)
  else .listLiveObjects

def onLiveObjects : Except Error (List Bytes) → Stage
  | .error _ => .returned (-1)
  | .ok liveObjects => .readClock liveObjects

def onClock (config : GcServiceConfig) (liveObjects : List Bytes) (nowMs : Int64) : Stage :=
  .listPage { liveObjects, cutoffMs := cutoffMs config nowMs }

def listRequest (config : GcServiceConfig) (scan : Scan) : ListObjectsRequest :=
  { bucket := config.bucket, keyPrefix := chunkPrefix config.objectPrefix,
    continuationToken := scan.continuationToken }

/-- On to the next object of the page, the next page or the end. -/
def proceed (scan : Scan) (page : ListObjectsResult) : Stage :=
  if page.objects.isEmpty then
    if page.nextContinuationToken.isEmpty then
      .returned (if scan.counters.deleteFailed = 0 then 0 else -1)
    else .listPage { scan with continuationToken := page.nextContinuationToken }
  else .inPage scan page

def onPage (scan : Scan) : Except Error ListObjectsResult → Stage
  | .error _ => .returned (-1)
  | .ok page => proceed scan page

/-- The request made for an object, if one is made. -/
def deleteRequest (config : GcServiceConfig) (scan : Scan) (object : ObjectInfo) :
    Option DeleteObjectRequest :=
  if scan.verdict object = .orphan ∧ config.dryRun = false then
    some { bucket := config.bucket, key := object.key }
  else none

/-- The counters after an object; `deleted` is whether `DeleteObject` succeeded, where it is
called. -/
def Scan.count (config : GcServiceConfig) (scan : Scan) (object : ObjectInfo) (deleted : Bool) :
    Counters :=
  let counters := { scan.counters with scanned := scan.counters.scanned + 1 }
  match scan.verdict object with
  | .live => { counters with live := counters.live + 1 }
  | .young => { counters with skippedYoung := counters.skippedYoung + 1 }
  | .orphan =>
    if config.dryRun || deleted then { counters with deleted := counters.deleted + 1 }
    else { counters with deleteFailed := counters.deleteFailed + 1 }

/-- The body of the loop on the first object of what is left of the page. -/
def onObject (config : GcServiceConfig) (scan : Scan) (object : ObjectInfo)
    (page : ListObjectsResult) (deleted : Bool) : Stage :=
  proceed { scan with counters := scan.count config object deleted } page

/-- Small grace periods make the cutoff exact. -/
theorem cutoffMs_toInt {config : GcServiceConfig} {nowMs : Int64} (hnow : 0 ≤ nowMs.toInt)
    (hgrace : config.graceSeconds.toNat * 1000 < 2 ^ 63) :
    (cutoffMs config nowMs).toInt = nowMs.toInt - config.graceSeconds.toNat * 1000 := by
  have hms : (config.graceSeconds * 1000).toInt64.toInt = config.graceSeconds.toNat * 1000 := by
    have hmul : (config.graceSeconds * 1000).toNat = config.graceSeconds.toNat * 1000 := by
      rw [UInt64.toNat_mul]
      exact Nat.mod_eq_of_lt (by show config.graceSeconds.toNat * 1000 < 2 ^ 64; omega)
    show (config.graceSeconds * 1000).toBitVec.toInt = _
    rw [BitVec.toInt_eq_toNat_of_lt]
    · exact congrArg Int.ofNat hmul
    · show 2 * (config.graceSeconds * 1000).toNat < 2 ^ 64
      omega
  have hlt := nowMs.toInt_lt
  rw [cutoffMs, Int64.toInt_sub, hms]
  refine Int.bmod_eq_of_le ?_ ?_
  · omega
  · omega

theorem Scan.verdict_eq_orphan {scan : Scan} {object : ObjectInfo} :
    scan.verdict object = .orphan ↔ object.key ∉ scan.liveObjects ∧
      object.lastModifiedMs.toInt ≤ scan.cutoffMs.toInt := by
  rw [← not_lt, ← Int64.lt_iff_toInt_lt]
  unfold Scan.verdict
  split
  next hlive => simp [hlive]
  next hlive =>
    split
    next hyoung => simp [hyoung]
    next hyoung => simpa [hlive] using hyoung

/-- Deleted is what is not live and not young, unless the run only looks. -/
theorem deleteRequest_eq_some {config : GcServiceConfig} {scan : Scan} {object : ObjectInfo}
    {request : DeleteObjectRequest} : deleteRequest config scan object = some request ↔
      request = ⟨config.bucket, object.key⟩ ∧ config.dryRun = false ∧
        object.key ∉ scan.liveObjects ∧
        object.lastModifiedMs.toInt ≤ scan.cutoffMs.toInt := by
  unfold deleteRequest
  rw [← Scan.verdict_eq_orphan]
  split
  next h =>
    constructor
    · intro hr
      exact ⟨(Option.some.inj hr).symm, h.2, h.1⟩
    · rintro ⟨rfl, -, -⟩
      rfl
  next h =>
    constructor
    · intro hr
      contradiction
    · rintro ⟨-, hdry, hverdict⟩
      exact absurd ⟨hverdict, hdry⟩ h

end GcService

end Pulpfs
