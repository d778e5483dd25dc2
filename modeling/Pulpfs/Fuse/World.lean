import Pulpfs.Fuse.Server
import Pulpfs.Meta.Rpc

/-! An environment for a mount: the metadata service behind a network that may lose calls and
replies, and an object store that returns what was last put under a key. -/
namespace Pulpfs
open Overlay

/-- What becomes of a metadata call. A status is what the client's stub ends with instead of
the server's answer. -/
inductive Delivery where
  | answered
  | notApplied (status : GrpcStatus)
  | replyLost (status : GrpcStatus)
  deriving DecidableEq

/-- The service takes the call. -/
def Delivery.isApplied : Delivery → Bool
  | .notApplied _ => false
  | _ => true

/-- What `ErrorFromS3Failure` asks of an error of the S3 client. -/
structure S3Error where
  responseCode : Int32
  exceptionName : Bytes
  message : Bytes

/-- 404 is `NOT_FOUND`. -/
def errorFromS3Failure (operation key : Bytes) (error : S3Error) : Error :=
  let message := operation ++ ascii " failed for object " ++ key ++ ascii ": " ++
    error.exceptionName ++ ascii ": " ++ error.message
  if error.responseCode = 404 then ⟨.notFound key, message⟩ else ⟨.unavailable, message⟩

theorem toErrno_errorFromS3Failure (operation key : Bytes) (error : S3Error) :
    toErrno (errorFromS3Failure operation key error) =
      if error.responseCode = 404 then .enoent else .eagain := by
  unfold errorFromS3Failure
  dsimp only
  split
  next => rfl
  next => rfl

/-- What becomes of an upload; a failed one may have stored the object all the same. -/
inductive Upload where
  | done (etag : Bytes)
  | failed (stored : Bool) (error : Error)
  deriving DecidableEq

/-- `clocks`, `deliveries` and `uploads` say what will happen to the calls to come, by number, and
`memory` what will be in the place of the text of a status once that is gone. -/
structure World where
  service : MetaService
  objects : Bytes × Bytes → Option Bytes
  calls : ℕ
  puts : ℕ
  clocks : ℕ → Clock
  deliveries : ℕ → Delivery
  uploads : ℕ → Upload
  memory : ℕ → ℕ → UInt8
  /-- The name and the message of the exception the S3 client makes of a response code. -/
  exceptions : Int32 → Bytes × Bytes

namespace World

variable {α : Type} (w : World)

def count : World := { w with calls := w.calls + 1 }

/-- The client's view of a server that throws or does not return. -/
def noReply : Error := fromGrpcStatus (w.memory w.calls) ⟨.unavailable, []⟩

/-- A command proposed through raft, `read` being the handler's reading of the response. -/
def propose [OffsetSort] (command : Command) (read : RaftCommandResponse → Except Error α) :
    Except Error α × World :=
  let result := w.service.applyCommand (w.clocks w.calls) ⟨some command⟩
  let applied := { w.count with service := result.2 }
  match w.deliveries w.calls with
  | .notApplied status => (.error (fromGrpcStatus (w.memory w.calls) status), w.count)
  | .replyLost status => (.error (fromGrpcStatus (w.memory w.calls) status), applied)
  | .answered =>
    match result.1 with
    | .ok response => (overGrpc (w.memory w.calls) (read response), applied)
    | _ => (.error w.noReply, applied)

/-- A linearizable read. -/
def query (read : MetaState → Outcome α) : Except Error α × World :=
  match w.deliveries w.calls with
  | .notApplied status => (.error (fromGrpcStatus (w.memory w.calls) status), w.count)
  | .replyLost status => (.error (fromGrpcStatus (w.memory w.calls) status), w.count)
  | .answered =>
    match read w.service.state with
    | .ok a => (.ok a, w.count)
    | .error e => (overGrpc (w.memory w.calls) (.error e), w.count)
    | _ => (.error w.noReply, w.count)

/-- The object of a request has been stored. -/
def store (request : PutObjectRequest) : World :=
  { w with
    puts := w.puts + 1
    objects := Function.update w.objects (request.bucket, request.key) (some request.body) }

def putObject (request : PutObjectRequest) : Except Error PutObjectResult × World :=
  match w.uploads w.puts with
  | .done etag => (.ok ⟨etag, UInt64.ofNat request.body.length⟩, w.store request)
  | .failed true e => (.error e, w.store request)
  | .failed false e => (.error e, { w with puts := w.puts + 1 })

/-- The error `GetObject` of the S3 store ends with when the client gets a response code. -/
def getFailure (key : Bytes) (responseCode : Int32) : Error :=
  errorFromS3Failure (ascii "get object") key
    ⟨responseCode, (w.exceptions responseCode).1, (w.exceptions responseCode).2⟩

/-- `GetObject`: a range runs to the end of the object when it has no length. There is a 404 for a
key nothing was put under, and a 416 for a range that starts past the end. -/
def getObject (request : GetObjectRequest) : Except Error GetObjectResult × World :=
  match w.objects (request.bucket, request.key), request.offset, request.length with
  | _, none, some _ =>
    (.error (makeError .invalidArgument "object range length requires offset"), w)
  | none, _, _ => (.error (w.getFailure request.key 404), w)
  | some body, none, none => (.ok ⟨body⟩, w)
  | some body, some offset, length =>
    if body.length ≤ offset.toNat then (.error (w.getFailure request.key 416), w)
    else
      let rest := body.drop offset.toNat
      match length with
      | none => (.ok ⟨rest⟩, w)
      | some length => (.ok ⟨if length = 0 then rest else rest.take length.toNat⟩, w)

def objectStore : ObjectStore World where
  putObject request w := w.putObject request
  getObject request w := w.getObject request

def metaClient [OffsetSort] : MetaClient World where
  createFile parentInodeId name mode uid gid w :=
    w.propose (.createFile parentInodeId name mode uid gid) RaftCommandResponse.inodeResult
  getAttr inodeId w := w.query fun s => s.getAttr inodeId
  getLayout inodeId w := w.query fun s => s.getLayout inodeId
  commitWrite inodeId baseVersion extents w :=
    w.propose (.commitWrite inodeId baseVersion extents) RaftCommandResponse.inodeResult
  appendWrite inodeId baseVersion extents w :=
    w.propose (.appendWrite inodeId baseVersion extents) RaftCommandResponse.appendResult
  truncate inodeId size w :=
    w.propose (.truncate inodeId size) RaftCommandResponse.inodeResult

def backend [OffsetSort] : Backend World := ⟨metaClient, some objectStore⟩

/-- A new service and an empty store, every call answered and every upload done. -/
def fresh (defaultChunkSize : UInt64) : World where
  service := ⟨.fresh defaultChunkSize 0⟩
  objects := fun _ => none
  calls := 0
  puts := 0
  clocks := fun n _ => Int64.ofNat n
  deliveries := fun _ => .answered
  uploads := fun _ => .done []
  memory := fun _ _ => 0
  exceptions := fun _ => ([], [])

/-- The byte the store has at a place in an object. -/
def byteAt (bucket : Bytes) (b : ObjectByte) : UInt8 :=
  ((w.objects (bucket, b.key)).getD []).getD b.position.toNat 0

/-- The object range of an extent lies inside the object. -/
def Holds (bucket : Bytes) (e : FileExtent) : Prop :=
  ∃ body, w.objects (bucket, e.objectKey) = some body ∧
    e.objectOffset.toNat + e.length.toNat ≤ body.length ∧
    e.objectOffset.toNat + e.length.toNat < 2 ^ 64

variable {w}

/-- The store serves what it holds in any states with these objects. -/
theorem Holds.serves {bucket : Bytes} {e : FileExtent} (h : w.Holds bucket e) {I : World → Prop}
    (hI : ∀ w', I w' → w'.objects = w.objects) :
    objectStore.Serves bucket (w.byteAt bucket) I e := by
  obtain ⟨body, hbody, hlen, hrange⟩ := h
  intro w' hw' skip length hpos hle
  refine ⟨w', hw', ?_⟩
  replace hw' := hI w' hw'
  have hsum : (e.objectOffset + skip).toNat = e.objectOffset.toNat + skip.toNat := by
    rw [UInt64.toNat_add]
    omega
  have hne : length ≠ 0 := by
    intro h0
    rw [h0] at hpos
    contradiction
  simp only [objectStore, getObject, hw', hbody, hsum, if_neg hne]
  rw [if_neg (by omega)]
  congr 3
  apply List.ext_getElem
  · rw [List.length_take, List.length_drop, length_window]
    omega
  · intro i hi hi'
    rw [length_window] at hi'
    have hpos' : (e.objectOffset + skip + UInt64.ofNat i).toNat =
        e.objectOffset.toNat + skip.toNat + i := by
      rw [UInt64.toNat_add, hsum, UInt64.toNat_ofNat']
      omega
    rw [List.getElem_take, List.getElem_drop, getElem_window, Nat.zero_add, byteAt, hbody,
      Option.getD_some, hpos', ← List.getElem_eq_getD 0]

/-- Nothing but the count of calls is changed by a read of the service. -/
theorem query_world (w : World) (read : MetaState → Outcome α) : (w.query read).2 = w.count := by
  unfold query
  split
  · rfl
  · rfl
  · split <;> rfl

theorem query_answered (h : w.deliveries w.calls = .answered) {read : MetaState → Outcome α}
    {a : α} (hok : read w.service.state = .ok a) : w.query read = (.ok a, w.count) := by
  simp only [query, h, hok]

theorem query_refused (h : w.deliveries w.calls = .answered) {read : MetaState → Outcome α}
    {e : Error} (herr : read w.service.state = .error e) :
    w.query read = (overGrpc (w.memory w.calls) (.error e), w.count) := by
  simp only [query, h, herr]

theorem query_ok {read : MetaState → Outcome α} {a : α} (h : (w.query read).1 = .ok a) :
    read w.service.state = .ok a := by
  unfold query at h
  split at h
  · contradiction
  · contradiction
  · split at h
    next hread => exact Except.ok.inj h ▸ hread
    next => contradiction
    next => contradiction

section Commands

variable [OffsetSort]

/-- The world once a command has been applied. -/
def applied (w : World) (command : Command) : World :=
  { w.count with
    service := (w.service.applyCommand (w.clocks w.calls) ⟨some command⟩).2 }

theorem propose_notApplied {status : GrpcStatus} {c : Command}
    {read : RaftCommandResponse → Except Error α}
    (h : w.deliveries w.calls = .notApplied status) :
    w.propose c read = (.error (fromGrpcStatus (w.memory w.calls) status), w.count) := by
  simp only [propose, h]

theorem propose_replyLost {status : GrpcStatus} {c : Command}
    {read : RaftCommandResponse → Except Error α}
    (h : w.deliveries w.calls = .replyLost status) :
    w.propose c read = (.error (fromGrpcStatus (w.memory w.calls) status), w.applied c) := by
  simp only [propose, h, applied]

theorem applied_state (c : Command) :
    (w.applied c).service.state = (w.service.state.execute (w.clocks w.calls) c).2 := by
  show (w.service.applyCommand (w.clocks w.calls) ⟨some c⟩).2.state = _
  unfold MetaService.applyCommand
  dsimp only
  rcases w.service.state.execute (w.clocks w.calls) c with ⟨o, s⟩
  cases o with
  | ok => rfl
  | error => rfl
  | outOfRange => rfl
  | diverged => rfl

theorem propose_answered {c : Command} {read : RaftCommandResponse → Except Error α}
    (h : w.deliveries w.calls = .answered) {reply : Reply}
    (hok : (w.service.state.execute (w.clocks w.calls) c).1 = .ok reply) :
    w.propose c read = (overGrpc (w.memory w.calls) (read reply.response), w.applied c) := by
  have happly : (w.service.applyCommand (w.clocks w.calls) ⟨some c⟩).1 = .ok reply.response := by
    unfold MetaService.applyCommand
    dsimp only
    revert hok
    rcases w.service.state.execute (w.clocks w.calls) c with ⟨o, s⟩
    intro hok
    obtain rfl : o = .ok reply := hok
    rfl
  simp only [propose, h, happly, applied]

theorem propose_refused {c : Command} {read : RaftCommandResponse → Except Error α}
    (h : w.deliveries w.calls = .answered) {e : Error}
    (herr : (w.service.state.execute (w.clocks w.calls) c).1 = .error e) :
    w.propose c read =
      (overGrpc (w.memory w.calls) (read (makeErrorResponse e)), w.applied c) := by
  have happly : (w.service.applyCommand (w.clocks w.calls) ⟨some c⟩).1 =
      .ok (makeErrorResponse e) := by
    unfold MetaService.applyCommand
    dsimp only
    revert herr
    rcases w.service.state.execute (w.clocks w.calls) c with ⟨o, s⟩
    intro herr
    obtain rfl : o = .error e := herr
    rfl
  simp only [propose, h, happly, applied]

omit [OffsetSort] in
theorem exists_of_not_applied {d : Delivery} (h : d.isApplied = false) :
    ∃ status, d = .notApplied status := by
  cases d with
  | notApplied status => exact ⟨status, rfl⟩
  | answered => contradiction
  | replyLost => contradiction

theorem propose_applied {c : Command} {read : RaftCommandResponse → Except Error α}
    (h : (w.deliveries w.calls).isApplied = true) :
    ∃ result, w.propose c read = (result, w.applied c) := by
  unfold propose applied
  cases hd : w.deliveries w.calls with
  | notApplied status =>
    rw [hd] at h
    contradiction
  | replyLost status => exact ⟨_, rfl⟩
  | answered =>
    dsimp only
    split
    · exact ⟨_, rfl⟩
    · exact ⟨_, rfl⟩

/-- A command that is answered with attributes was carried out with these. -/
theorem propose_inodeResult_ok {c : Command} {a : InodeAttrs} {w' : World}
    (h : w.propose c RaftCommandResponse.inodeResult = (.ok a, w')) :
    w.service.state.execute (w.clocks w.calls) c = (.ok (.attrs a), w'.service.state) := by
  unfold propose MetaService.applyCommand at h
  dsimp only at h
  cases hd : w.deliveries w.calls with
  | notApplied status =>
    rw [hd] at h
    cases h
  | replyLost status =>
    rw [hd] at h
    cases h
  | answered =>
    rw [hd] at h
    rcases he : w.service.state.execute (w.clocks w.calls) c with ⟨o, s⟩
    rw [he] at h
    cases o with
    | ok reply =>
      obtain ⟨hread, rfl⟩ := Prod.mk.inj h
      cases reply with
      | attrs b => rw [show b = a from Except.ok.inj hread]
      | appended r => cases hread
    | error e => cases h
    | outOfRange => cases h
    | diverged => cases h

end Commands

end World

/-- The layout a handle holds is the only thing a refresh can change in it. -/
theorem refreshLayout_eq [OffsetSort] (h : FuseFileHandle) (w : World) :
    ∃ layout, refreshLayout World.metaClient h w = ({ h with layout }, w.count) := by
  unfold refreshLayout
  have hw : (World.metaClient.getLayout h.inodeId w).2 = w.count := World.query_world _ _
  split
  next layout w' he => exact ⟨layout, by rw [he] at hw; rw [← hw]⟩
  next e w' he => exact ⟨h.layout, by rw [he] at hw; rw [← hw]⟩

end Pulpfs
