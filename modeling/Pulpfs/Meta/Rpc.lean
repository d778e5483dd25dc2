import Pulpfs.Meta.Service

/-! A metadata call from the request handler of `meta_service.cc` to the status the server
answers with, and the error `meta_client.cc` makes of a status. Raft is taken to hand an
accepted command to `Apply` and the response back to the handler. -/
namespace Pulpfs

inductive StatusCode where
  | invalidArgument
  | notFound
  | alreadyExists
  | failedPrecondition
  | unavailable
  | deadlineExceeded
  | internal
  | other (code : Int32)
  deriving DecidableEq, Repr

/-- A `grpc::Status` other than OK. -/
structure GrpcStatus where
  code : StatusCode
  message : Bytes
  deriving DecidableEq, Repr

/-- `KindName` of `error.cc` gives the names `ErrorKindName` gives. -/
def kindName (kind : ErrorKind) : Bytes := errorKindName kind

/-- `ToString`. -/
def Error.toText (error : Error) : Bytes :=
  if error.message.isEmpty then kindName error.kind
  else kindName error.kind ++ ascii ": " ++ error.message

def toGrpcStatusCode : ErrorKind → StatusCode
  | .invalidArgument => .invalidArgument
  | .notFound _ => .notFound
  | .alreadyExists _ => .alreadyExists
  | .notDirectory _ => .failedPrecondition
  | .isDirectory _ => .failedPrecondition
  | .directoryNotEmpty _ => .failedPrecondition
  | .notLeader _ => .failedPrecondition
  | .unavailable => .unavailable
  | .timeout _ => .deadlineExceeded
  | .internal => .internal
  | .raftFailure => .unavailable

def toGrpcStatus (error : Error) : GrpcStatus := ⟨toGrpcStatusCode error.kind, error.toText⟩

/-- What a `std::string_view` of a text shows when the text is gone: bytes in its number, those that
are found in its place. -/
def shown (memory : ℕ → UInt8) (text : Bytes) : Bytes := (List.range text.length).map memory

/-- The client's reading of a status. `error_message` returns its string by value, and `message` is
a view of this temporary, so that the prefixes are looked for in what `memory` has in its place. -/
def fromGrpcStatus (memory : ℕ → UInt8) (status : GrpcStatus) : Error :=
  let message := shown memory status.message
  if ascii "NotDirectory:" <+: message then ⟨.notDirectory [], status.message⟩
  else if ascii "IsDirectory:" <+: message then ⟨.isDirectory [], status.message⟩
  else if ascii "DirectoryNotEmpty:" <+: message then ⟨.directoryNotEmpty [], status.message⟩
  else
    match status.code with
    | .invalidArgument => ⟨.invalidArgument, status.message⟩
    | .notFound => ⟨.notFound [], status.message⟩
    | .alreadyExists => ⟨.alreadyExists [], status.message⟩
    | .failedPrecondition => ⟨.invalidArgument, status.message⟩
    | .unavailable => ⟨.unavailable, status.message⟩
    | .deadlineExceeded => ⟨.timeout (ascii "metadata rpc"), status.message⟩
    | .internal => ⟨.internal, status.message⟩
    | .other _ => ⟨.internal, status.message⟩

def errorFromResponse (response : ErrorResponse) : Error :=
  if response.kind = ascii "InvalidArgument" then ⟨.invalidArgument, response.message⟩
  else if response.kind = ascii "NotFound" then ⟨.notFound response.path, response.message⟩
  else if response.kind = ascii "AlreadyExists" then
    ⟨.alreadyExists response.path, response.message⟩
  else if response.kind = ascii "NotDirectory" then
    ⟨.notDirectory response.path, response.message⟩
  else if response.kind = ascii "IsDirectory" then ⟨.isDirectory response.path, response.message⟩
  else if response.kind = ascii "DirectoryNotEmpty" then
    ⟨.directoryNotEmpty response.path, response.message⟩
  else ⟨.internal, response.message⟩

/-- What `ProposeInodeCommand` makes of the response of the state machine. -/
def RaftCommandResponse.inodeResult (response : RaftCommandResponse) : Except Error InodeAttrs :=
  match response.response with
  | some (.error e) => .error (errorFromResponse e)
  | some (.attrs a) => .ok a
  | _ => .error (makeError .internal "raft command returned no inode attrs")

/-- What `ProposeAppendWriteCommand` makes of it. -/
def RaftCommandResponse.appendResult (response : RaftCommandResponse) :
    Except Error AppendWriteReply :=
  match response.response with
  | some (.error e) => .error (errorFromResponse e)
  | some (.appendWrite reply) => .ok reply
  | _ => .error (makeError .internal "raft command returned no append write result")

/-- A handler's result as the client sees it. -/
def overGrpc {α : Type} (memory : ℕ → UInt8) (result : Except Error α) : Except Error α :=
  result.mapError fun e => fromGrpcStatus memory (toGrpcStatus e)

end Pulpfs
