import Pulpfs.Meta.Rpc

/-! The request handlers of `meta_service.cc` with the calls of `meta_client.cc` that reach them,
and the metadata store they make of the state machine. -/
namespace Pulpfs

/-- The codes `FromRaftError` asks for. -/
inductive RaftErrorCode where
  | timeout
  | lostLeadership
  | shuttingDown
  | other
  deriving DecidableEq

/-- An error of raft and what its `ToString` gives. -/
structure RaftError where
  code : RaftErrorCode
  text : Bytes
  deriving DecidableEq

def fromRaftError (error : RaftError) : Error :=
  match error.code with
  | .timeout => ⟨.timeout (ascii "raft proposal"), error.text⟩
  | .lostLeadership => ⟨.notLeader 0, error.text⟩
  | .shuttingDown => ⟨.unavailable, error.text⟩
  | .other => ⟨.raftFailure, error.text⟩

/-- The requests of the service, each with the fields of its message. -/
inductive MetaRequest where
  | mkdir (parentInodeId : UInt64) (name : Bytes) (mode uid gid : UInt32)
  | createFile (parentInodeId : UInt64) (name : Bytes) (mode uid gid : UInt32)
  | lookup (parentInodeId : UInt64) (name : Bytes)
  | getAttr (inodeId : UInt64)
  | setAttr (request : SetAttrCommand)
  | readDir (inodeId : UInt64)
  | unlink (parentInodeId : UInt64) (name : Bytes)
  | rmdir (parentInodeId : UInt64) (name : Bytes)
  | rename (oldParentInodeId : UInt64) (oldName : Bytes) (newParentInodeId : UInt64)
      (newName : Bytes)
  | getLayout (inodeId : UInt64)
  | listLiveObjects
  | commitWrite (inodeId baseVersion : UInt64) (extents : List FileExtent)
  | appendWrite (inodeId baseVersion : UInt64) (extents : List FileExtent)
  | truncate (inodeId size : UInt64)
  deriving DecidableEq

/-- The replies of the service and what a client call returns; `done` is that of the calls that
return nothing. -/
inductive MetaReply where
  | attrs (attrs : InodeAttrs)
  | entries (entries : List DirectoryEntry)
  | layout (layout : FileLayout)
  | objectKeys (objectKeys : List Bytes)
  | appendWrite (reply : AppendWriteReply)
  | done
  deriving DecidableEq

/-- The command a handler proposes, field by field; none for the handlers that read. -/
def MetaRequest.command : MetaRequest → Option Command
  | .mkdir parentInodeId name mode uid gid => some (.mkdir parentInodeId name mode uid gid)
  | .createFile parentInodeId name mode uid gid =>
    some (.createFile parentInodeId name mode uid gid)
  | .setAttr request => some (.setAttr
      { inodeId := request.inodeId
        setMode := request.setMode, mode := request.mode
        setUid := request.setUid, uid := request.uid
        setGid := request.setGid, gid := request.gid
        setAtime := request.setAtime, atimeNs := request.atimeNs
        setMtime := request.setMtime, mtimeNs := request.mtimeNs })
  | .unlink parentInodeId name => some (.unlink parentInodeId name)
  | .rmdir parentInodeId name => some (.rmdir parentInodeId name)
  | .rename oldParentInodeId oldName newParentInodeId newName =>
    some (.rename oldParentInodeId oldName newParentInodeId newName)
  | .commitWrite inodeId baseVersion extents => some (.commitWrite inodeId baseVersion extents)
  | .appendWrite inodeId baseVersion extents => some (.appendWrite inodeId baseVersion extents)
  | .truncate inodeId size => some (.truncate inodeId size)
  | .lookup _ _ => none
  | .getAttr _ => none
  | .readDir _ => none
  | .getLayout _ => none
  | .listLiveObjects => none

/-- What the handlers that read ask of the state under their lock; the others do not get here. -/
def MetaState.answer (s : MetaState) : MetaRequest → Outcome MetaReply
  | .lookup parentInodeId name => (s.lookup parentInodeId name).map .attrs
  | .getAttr inodeId => (s.getAttr inodeId).map .attrs
  | .readDir inodeId => (s.readDir inodeId).map .entries
  | .getLayout inodeId => (s.getLayout inodeId).map .layout
  | .listLiveObjects => .ok (.objectKeys s.listLiveObjects)
  | _ => .ok .done

/-- The context a handler that reads gives to `LinearizableRead`. -/
def MetaRequest.context : MetaRequest → Bytes
  | .lookup _ _ => ascii "lookup"
  | .getAttr _ => ascii "getattr"
  | .readDir _ => ascii "readdir"
  | .getLayout _ => ascii "getlayout"
  | .listLiveObjects => ascii "list-live-objects"
  | _ => []

/-- `ProposeSync` and `ReadIndexSync`. -/
structure Raftor where
  proposeSync : Bytes → Except RaftError Bytes
  readIndexSync : Bytes → Except RaftError Unit

def linearizableRead (raftor : Option Raftor) (context : Bytes) : Except Error Unit :=
  match raftor with
  | none => .error (makeError .internal "raftor is not initialized")
  | some raftor => (raftor.readIndexSync context).mapError fromRaftError

/-- The two `Propose` functions from the point where raft has come back. -/
def onProposal {α : Type} (responses : Codec RaftCommandResponse)
    (read : RaftCommandResponse → Except Error α) : Except RaftError Bytes → Except Error α
  | .error e => .error (fromRaftError e)
  | .ok data =>
    match responses.parse data with
    | none => .error (makeError .internal "failed to parse raft command response")
    | some response => read response

section Propose

variable (commands : Codec RaftCommand) (responses : Codec RaftCommandResponse)
  (raftor : Option Raftor)

/-- The common body of the two functions. -/
def propose {α : Type} (read : RaftCommandResponse → Except Error α) (command : RaftCommand) :
    Except Error α :=
  match raftor with
  | none => .error (makeError .internal "raftor is not initialized")
  | some raftor => onProposal responses read (raftor.proposeSync (commands.serialize command))

def proposeInodeCommand (command : RaftCommand) : Except Error InodeAttrs :=
  propose commands responses raftor RaftCommandResponse.inodeResult command

def proposeAppendWriteCommand (command : RaftCommand) : Except Error AppendWriteReply :=
  propose commands responses raftor RaftCommandResponse.appendResult command

/-- How the handler of a request reads the response to its command. -/
def MetaRequest.result (request : MetaRequest) (response : RaftCommandResponse) :
    Except Error MetaReply :=
  match request with
  | .appendWrite _ _ _ => response.appendResult.map .appendWrite
  | _ => response.inodeResult.map .attrs

/-- A handler. A read that throws has no status. -/
def MetaService.handle (service : MetaService) (request : MetaRequest) :
    Outcome (Except GrpcStatus MetaReply) :=
  match request.command with
  | some command =>
    let result : Except Error MetaReply :=
      match request with
      | .appendWrite _ _ _ =>
        (proposeAppendWriteCommand commands responses raftor ⟨some command⟩).map .appendWrite
      | _ => (proposeInodeCommand commands responses raftor ⟨some command⟩).map .attrs
    .ok (result.mapError toGrpcStatus)
  | none =>
    match linearizableRead raftor request.context with
    | .error e => .ok (.error (toGrpcStatus e))
    | .ok () =>
      match service.state.answer request with
      | .ok reply => .ok (.ok reply)
      | .error e => .ok (.error (toGrpcStatus e))
      | .outOfRange => .outOfRange
      | .diverged => .diverged

end Propose

/-- What the client call of a request returns of a reply. -/
def MetaRequest.returned (request : MetaRequest) (reply : MetaReply) : MetaReply :=
  match request with
  | .unlink _ _ => .done
  | .rmdir _ _ => .done
  | .rename _ _ _ _ => .done
  | _ => reply

/-- The client call of a request, the handler's status having come through. -/
def MetaRequest.call (request : MetaRequest) (memory : ℕ → UInt8)
    (result : Except GrpcStatus MetaReply) : Except Error MetaReply :=
  (result.mapError (fromGrpcStatus memory)).map request.returned

section Serve

variable [OffsetSort]

/-- The value of a command as the reply of its handler. -/
def Reply.metaReply : Reply → MetaReply
  | .attrs a => .attrs a
  | .appended r => .appendWrite
      { attrs := r.attrs, appendStart := r.appendStart, committedExtents := r.committedExtents }

/-- The state machine as a metadata store without raft: a request is one call. -/
def MetaState.serve (clock : Clock) (s : MetaState) (request : MetaRequest) :
    Outcome MetaReply × MetaState :=
  match request.command with
  | some command =>
    let result := s.execute clock command
    (result.1.map Reply.metaReply, result.2)
  | none => (s.answer request, s)

/-- What a client is told of an outcome; nothing when the call threw. -/
def MetaRequest.told (request : MetaRequest) (memory : ℕ → UInt8) :
    Outcome MetaReply → Option (Except Error MetaReply)
  | .ok reply => some (.ok (request.returned reply))
  | .error e => some (.error (fromGrpcStatus memory (toGrpcStatus e)))
  | .outOfRange => none
  | .diverged => none

end Serve

section Handle

variable {commands : Codec RaftCommand} {responses : Codec RaftCommandResponse} {raftor : Raftor}
  {service : MetaService} {request : MetaRequest}

/-- A handler that changes something ends as its reading of what `ProposeSync` came back with. -/
theorem MetaService.handle_proposed {command : Command} (h : request.command = some command) :
    service.handle commands responses (some raftor) request =
      .ok ((onProposal responses request.result
        (raftor.proposeSync (commands.serialize ⟨some command⟩))).mapError toGrpcStatus) := by
  have hmap {α : Type} (f : α → MetaReply) (read : RaftCommandResponse → Except Error α)
      (result : Except RaftError Bytes) :
      (onProposal responses read result).map f =
        onProposal responses (fun r => (read r).map f) result := by
    unfold onProposal
    split
    next => rfl
    next => split <;> rfl
  unfold handle
  rw [h]
  cases request with
  | appendWrite i v es => exact congrArg (fun r => Outcome.ok (Except.mapError _ r)) (hmap _ _ _)
  | _ => exact congrArg (fun r => Outcome.ok (Except.mapError _ r)) (hmap _ _ _)

/-- A handler that reads asks the state once `ReadIndexSync` has come back. -/
theorem MetaService.handle_read (h : request.command = none)
    (hread : raftor.readIndexSync request.context = .ok ()) :
    service.handle commands responses (some raftor) request =
      match service.state.answer request with
      | .ok reply => .ok (.ok reply)
      | .error e => .ok (.error (toGrpcStatus e))
      | .outOfRange => .outOfRange
      | .diverged => .diverged := by
  unfold handle linearizableRead
  rw [h]
  simp only [hread, Except.mapError]

end Handle

end Pulpfs
