import Pulpfs.Meta.Snapshot

/-! The state machine side of `meta_service.cc`: `Apply`, which turns a log entry into a call of
the state machine and its result into a response, and the two ends of a snapshot. -/
namespace Pulpfs

def errorKindName : ErrorKind → Bytes
  | .invalidArgument => ascii "InvalidArgument"
  | .notFound _ => ascii "NotFound"
  | .alreadyExists _ => ascii "AlreadyExists"
  | .notDirectory _ => ascii "NotDirectory"
  | .isDirectory _ => ascii "IsDirectory"
  | .directoryNotEmpty _ => ascii "DirectoryNotEmpty"
  | .notLeader _ => ascii "NotLeader"
  | .unavailable => ascii "Unavailable"
  | .timeout _ => ascii "Timeout"
  | .internal => ascii "Internal"
  | .raftFailure => ascii "RaftFailure"

/-- The path of the kinds that have one. -/
def errorPath : ErrorKind → Bytes
  | .notFound path => path
  | .alreadyExists path => path
  | .notDirectory path => path
  | .isDirectory path => path
  | .directoryNotEmpty path => path
  | _ => []

def makeErrorResponse (error : Error) : RaftCommandResponse where
  response := some (.error
    { kind := errorKindName error.kind, message := error.message, path := errorPath error.kind })

/-- The response built from the value of a call. -/
def Reply.response : Reply → RaftCommandResponse
  | .attrs a => { response := some (.attrs a) }
  | .appended result =>
    { response := some (.appendWrite
        { attrs := result.attrs, appendStart := result.appendStart,
          committedExtents := result.committedExtents }) }

/-- The `MetaService` without its connection to raft: the state machine it guards. -/
structure MetaService where
  state : MetaState

/-- What raft gets back for an entry. -/
inductive ApplyResult where
  | response (data : Bytes)
  | proposalDropped
  deriving DecidableEq

namespace MetaService

variable [OffsetSort]

/-- `Apply` between parsing the command and serializing the response. -/
def applyCommand (clock : Clock) (service : MetaService) (command : RaftCommand) :
    Outcome RaftCommandResponse × MetaService :=
  match command.command with
  | none =>
    (.ok (makeErrorResponse (makeError .invalidArgument "unknown raft command")), service)
  | some command =>
    match service.state.execute clock command with
    | (.ok reply, state) => (.ok reply.response, ⟨state⟩)
    | (.error e, state) => (.ok (makeErrorResponse e), ⟨state⟩)
    | (.outOfRange, state) => (.outOfRange, ⟨state⟩)
    | (.diverged, state) => (.diverged, ⟨state⟩)

def apply (commands : Codec RaftCommand) (responses : Codec RaftCommandResponse) (clock : Clock)
    (service : MetaService) (data : Bytes) : Outcome ApplyResult × MetaService :=
  if data.isEmpty then (.ok (.response []), service)
  else
    match commands.parse data with
    | none => (.ok .proposalDropped, service)
    | some command =>
      let result := service.applyCommand clock command
      (result.1.map fun response => .response (responses.serialize response), result.2)

omit [OffsetSort] in
/-- The bytes `TakeSnapshot` hands to the writer. -/
def takeSnapshot (codec : Codec MetaSnapshot) (service : MetaService) : Bytes :=
  service.state.serializeSnapshot codec

/-- One result of the snapshot reader: at most the buffer's 4096 bytes, or a failure. -/
inductive ReadResult where
  | piece (data : Bytes)
  | failed

omit [OffsetSort] in
/-- The loop of `RestoreSnapshot` over the successive results of the reader; an empty piece is
the end, and a failure ends it without data. -/
def readSnapshot : List ReadResult → Option Bytes
  | [] => some []
  | .failed :: _ => none
  | .piece data :: results =>
    if data.isEmpty then some [] else (readSnapshot results).map fun rest => data ++ rest

/-- How `RestoreSnapshot` ends. -/
inductive RestoreResult where
  | restored
  | readFailed
  | snapshotError (e : Error)
  deriving DecidableEq

omit [OffsetSort] in
def restoreSnapshot (codec : Codec MetaSnapshot) (service : MetaService)
    (results : List ReadResult) : Outcome RestoreResult × MetaService :=
  match readSnapshot results with
  | none => (.ok .readFailed, service)
  | some data =>
    match service.state.restoreSnapshot codec data with
    | (.ok _, state) => (.ok .restored, ⟨state⟩)
    | (.error e, state) => (.ok (.snapshotError e), ⟨state⟩)
    | (.outOfRange, state) => (.outOfRange, ⟨state⟩)
    | (.diverged, state) => (.diverged, ⟨state⟩)

end MetaService

end Pulpfs
