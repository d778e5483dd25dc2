import Pulpfs.Foundations.ReplicatedLog
import Pulpfs.Meta.Handlers
import Pulpfs.Meta.Sendable
import Pulpfs.Meta.CatchUp
import Pulpfs.Meta.Returns
import Pulpfs.Fuse.Errnos

/-! The metadata service on several nodes. Raft is what the library says of a replicated log; the
state machine, its snapshots and the handlers on both ends are those of the service. -/
namespace Pulpfs
open Transition ReplicatedLog

def MetaReply.untimed : MetaReply → MetaReply
  | .attrs a => .attrs a.untimed
  | .entries es => .entries (es.map DirectoryEntry.untimed)
  | .layout l => .layout l.untimed
  | .objectKeys keys => .objectKeys keys
  | .appendWrite r => .appendWrite { r with attrs := r.attrs.untimed }
  | .done => .done

/-- The codecs of the messages that go through raft. -/
structure Codecs where
  commands : Codec RaftCommand
  responses : Codec RaftCommandResponse
  snapshots : Codec MetaSnapshot

/-- What `ByteSizeLong` gives for these messages. -/
structure Sizes where
  commands : RaftCommand → ℕ
  responses : RaftCommandResponse → ℕ
  snapshots : MetaSnapshot → ℕ

/-- What protobuf promises of its codecs: a message whose texts are UTF-8 and which is smaller than
2 GiB is parsed as what was serialized, and no bytes are a message without fields. -/
structure Codecs.Protobuf (codecs : Codecs) (sizes : Sizes) : Prop where
  commands : ∀ m : RaftCommand, m.Sendable → sizes.commands m < 2 ^ 31 → codecs.commands.Keeps m
  responses : ∀ m : RaftCommandResponse, m.Sendable → sizes.responses m < 2 ^ 31 →
    codecs.responses.Keeps m
  snapshots : ∀ m : MetaSnapshot, m.Sendable → sizes.snapshots m < 2 ^ 31 →
    codecs.snapshots.Keeps m
  empty : codecs.commands.parse [] = some {}

namespace MetaService

variable [OffsetSort] (codecs : Codecs) (chunkSize : UInt64)

/-- A node of the service as raft drives it. A snapshot is read in any pieces, or reading it
fails. -/
def machine : Machine MetaService Clock Bytes (Outcome ApplyResult) MetaRequest
    (Outcome MetaReply) Bytes (List ReadResult) where
  start clock := ⟨.fresh chunkSize (clock 0)⟩
  apply clock data service := service.apply codecs.commands codecs.responses clock data
  answer request service := service.state.answer request
  save service := service.takeSnapshot codecs.snapshots
  load results data service :=
    if readSnapshot results = some data ∨ readSnapshot results = none then
      let result := service.restoreSnapshot codecs.snapshots results
      (result.1 = .ok .restored, result.2)
    else (false, service)
  noop := []

/-- The command that an entry holds. -/
def commandOf (data : Bytes) : Option RaftCommand :=
  if data.isEmpty then none else codecs.commands.parse data

/-- There is a number for every entry, and the snapshots of the states on the way can be read
back. -/
structure Fits (log : List Bytes) : Prop where
  room : log.length < 2 ^ 64 - 2
  snapshots : ∀ n s, Reaches (machine codecs chunkSize) (log.take n) s →
    codecs.snapshots.Keeps s.state.snapshotMessage

/-- Both applications fail alike, or both give a response, and the responses are equal up to
times. -/
def SameOutput (o o' : Outcome ApplyResult) : Prop :=
  o = o' ∨ ∃ r r' : RaftCommandResponse, r.untimed = r'.untimed ∧
    o = .ok (.response (codecs.responses.serialize r)) ∧
    o' = .ok (.response (codecs.responses.serialize r'))

variable {codecs chunkSize} {service service' : MetaService}

theorem apply_empty (clock : Clock) (service : MetaService) :
    service.apply codecs.commands codecs.responses clock [] = (.ok (.response []), service) := rfl

theorem apply_parsed {data : Bytes} (hne : data ≠ []) {command : RaftCommand}
    (hparse : codecs.commands.parse data = some command) (clock : Clock) (service : MetaService) :
    service.apply codecs.commands codecs.responses clock data =
      ((service.applyCommand clock command).1.map fun r =>
        .response (codecs.responses.serialize r), (service.applyCommand clock command).2) := by
  unfold apply
  rw [if_neg (by rw [List.isEmpty_iff]; exact hne), hparse]

theorem apply_dropped {data : Bytes} (hne : data ≠ []) (hparse : codecs.commands.parse data = none)
    (clock : Clock) (service : MetaService) :
    service.apply codecs.commands codecs.responses clock data =
      (.ok .proposalDropped, service) := by
  unfold apply
  rw [if_neg (by rw [List.isEmpty_iff]; exact hne), hparse]

/-- What an entry does to a node is what its command does, if it holds one. -/
theorem apply_state (clock : Clock) (data : Bytes) (service : MetaService) :
    (service.apply codecs.commands codecs.responses clock data).2 =
      final applyEntry ((commandOf codecs data).toList.map fun c => ⟨clock, c⟩) service := by
  by_cases hne : data = []
  · subst hne
    rfl
  · rw [commandOf, if_neg (by rw [List.isEmpty_iff]; exact hne)]
    cases hparse : codecs.commands.parse data with
    | none => rw [apply_dropped hne hparse]; rfl
    | some command => rw [apply_parsed hne hparse]; rfl

theorem apply_congr (clock clock' : Clock) (data : Bytes)
    (hs : service.untimed = service'.untimed) :
    SameOutput codecs (service.apply codecs.commands codecs.responses clock data).1
        (service'.apply codecs.commands codecs.responses clock' data).1 ∧
      (service.apply codecs.commands codecs.responses clock data).2.untimed =
        (service'.apply codecs.commands codecs.responses clock' data).2.untimed := by
  by_cases hne : data = []
  · subst hne
    exact ⟨.inl rfl, hs⟩
  · cases hparse : codecs.commands.parse data with
    | none =>
      rw [apply_dropped hne hparse, apply_dropped hne hparse]
      exact ⟨.inl rfl, hs⟩
    | some command =>
      rw [apply_parsed hne hparse, apply_parsed hne hparse]
      have hsame : (⟨clock, command⟩ : LogEntry).command = (⟨clock', command⟩ : LogEntry).command :=
        rfl
      obtain ⟨ho, hstate⟩ := applyEntry_congr hs hsame
      refine ⟨?_, hstate⟩
      dsimp only [applyEntry] at ho ⊢
      cases h : (service.applyCommand clock command).1 <;>
        cases h' : (service'.applyCommand clock' command).1 <;>
        rw [h, h'] at ho <;>
        simp only [Outcome.map, Outcome.ok.injEq, Outcome.error.injEq, reduceCtorEq] at ho
      · exact .inr ⟨_, _, ho, rfl, rfl⟩
      · exact .inl (congrArg Outcome.error ho)
      · exact .inl rfl
      · exact .inl rfl

omit [OffsetSort] in
theorem answer_congr (request : MetaRequest) (hs : service.untimed = service'.untimed) :
    (service.state.answer request).map MetaReply.untimed =
      (service'.state.answer request).map MetaReply.untimed := by
  have h := MetaState.SameAnswers.of_untimed (congrArg MetaService.state hs)
  have hmap {α : Type} {f : α → MetaReply} {g : α → α} {o o' : Outcome α}
      (hfg : ∀ a, (f a).untimed = f (g a)) (ho : o.map g = o'.map g) :
      (o.map f).map MetaReply.untimed = (o'.map f).map MetaReply.untimed := by
    have hcomp : MetaReply.untimed ∘ f = f ∘ g := funext hfg
    rw [Outcome.map_map, Outcome.map_map, hcomp, ← Outcome.map_map, ho, Outcome.map_map]
  cases request with
  | lookup p n => exact hmap (fun _ => rfl) (h.lookup p n)
  | getAttr i => exact hmap (fun _ => rfl) (h.getAttr i)
  | readDir i => exact hmap (fun _ => rfl) (h.readDir i)
  | getLayout i => exact hmap (fun _ => rfl) (h.getLayout i)
  | listLiveObjects =>
    exact congrArg (fun keys => Outcome.ok (MetaReply.objectKeys keys)) h.listLiveObjects
  | _ => rfl

/-- A state that a log leads to is that of a run of its commands. -/
theorem exists_entries {log : List Bytes} (h : Reaches (machine codecs chunkSize) log service) :
    ∃ nowNs entries, entries.map LogEntry.command = log.filterMap (commandOf codecs) ∧
      service = final applyEntry entries ⟨.fresh chunkSize nowNs⟩ := by
  induction h with
  | start clock => exact ⟨clock 0, [], rfl, rfl⟩
  | @apply log service clock data _ ih =>
    obtain ⟨nowNs, entries, hcommands, rfl⟩ := ih
    refine ⟨nowNs, entries ++ (commandOf codecs data).toList.map fun c => ⟨clock, c⟩, ?_, ?_⟩
    · rw [List.map_append, hcommands, List.filterMap_append, List.map_map]
      cases hdata : commandOf codecs data with
      | none => simp [hdata]
      | some c => simp [hdata]
    · rw [final_append]
      exact apply_state clock data _

/-- It is that of a run of calls, which hands out no more numbers than there are entries. -/
theorem exists_calls {log : List Bytes} (h : Reaches (machine codecs chunkSize) log service) :
    ∃ nowNs calls, service.state = final MetaState.call calls (.fresh chunkSize nowNs) ∧
      (MetaState.createdIds calls (.fresh chunkSize nowNs)).length ≤ log.length := by
  obtain ⟨nowNs, entries, hcommands, rfl⟩ := exists_entries h
  refine ⟨nowNs, LogEntry.calls entries, final_state entries _, ?_⟩
  have hlength : entries.length ≤ log.length := by
    rw [← List.length_map LogEntry.command, hcommands]
    exact List.length_filterMap_le _ _
  have hcalls : (LogEntry.calls entries).length ≤ entries.length := List.length_filterMap_le _ _
  have hids : (MetaState.createdIds (LogEntry.calls entries)
      (.fresh chunkSize nowNs)).length ≤ (LogEntry.calls entries).length := by
    exact (List.length_filterMap_le _ _).trans_eq (trace_length _ _)
  omega

theorem coherent_of_holds {log : List (Entry Bytes)} {n : ℕ} (hroom : log.length < 2 ^ 64 - 2)
    (h : Holds (machine codecs chunkSize) log n service) : service.state.Coherent := by
  obtain ⟨nowNs, calls, hstate, hids⟩ := exists_calls h.2
  rw [hstate]
  refine MetaState.coherent_run chunkSize nowNs calls ?_
  have hlength := List.length_take_le' n (log.map Entry.data)
  rw [List.length_map] at hlength
  omega

theorem lawful : Lawful (machine codecs chunkSize)
    (fun service service' => service.untimed = service'.untimed) (SameOutput codecs)
    (fun a a' => a.map MetaReply.untimed = a'.map MetaReply.untimed) (Fits codecs chunkSize) where
  start clock clock' := congrArg MetaService.mk (fresh_untimed chunkSize _ _)
  apply clock clock' data hs := apply_congr clock clock' data hs
  answer request hs := answer_congr request hs
  load {log service} hfits h results held := by
    obtain ⟨nowNs, calls, hstate, hids⟩ := exists_calls h
    have hs : service.state.Sound := by
      rw [hstate]
      exact MetaState.sound_run chunkSize nowNs calls (hids.trans_lt hfits.room)
    have hkeeps : codecs.snapshots.Keeps service.state.snapshotMessage :=
      hfits.snapshots log.length service (by rw [List.take_length]; exact h)
    dsimp only [machine]
    split
    next hread =>
      rcases hread with hread | hread
      · rw [restoreSnapshot_takeSnapshot held hs hkeeps hread]
        exact .inl rfl
      · right
        unfold restoreSnapshot
        rw [hread]
        rfl
    next => exact .inr rfl
  fits {log log'} hle h := by
    refine ⟨hle.length_le.trans_lt h.room, fun n service hs => ?_⟩
    rw [List.prefix_iff_eq_take.mp hle, List.take_take] at hs
    exact h.snapshots _ service hs

end MetaService

section Told

variable {request : MetaRequest} {memory : ℕ → UInt8}

/-- What a client is told depends on times only where the reply does. -/
theorem MetaRequest.told_untimed (request : MetaRequest) (outcome : Outcome MetaReply) :
    (request.told memory outcome).map (Except.map MetaReply.untimed) =
      request.told memory (outcome.map MetaReply.untimed) := by
  cases outcome with
  | ok reply => cases request <;> rfl
  | error e => rfl
  | outOfRange => rfl
  | diverged => rfl

theorem MetaRequest.told_of_returns {outcome : Outcome MetaReply} (h : outcome.Returns) :
    ∃ result, request.told memory outcome = some result := by
  cases outcome with
  | ok reply => exact ⟨_, rfl⟩
  | error e => exact ⟨_, rfl⟩
  | outOfRange => exact h.elim
  | diverged => exact h.elim

/-- No read throws in a state whose entries lead to inodes. -/
theorem MetaState.Linked.answer_returns {s : MetaState} (h : s.Linked) (request : MetaRequest) :
    (s.answer request).Returns := by
  cases request with
  | lookup p n => exact (h.lookup_returns p n).map _
  | getAttr i => exact (s.getAttr_returns i).map _
  | readDir i => exact (h.readDir_returns i).map _
  | getLayout i => exact (s.getLayout_returns i).map _
  | _ => trivial

/-- A handler that returns attributes passes on the outcome of the call. -/
theorem MetaRequest.told_attrs {outcome : Outcome InodeAttrs} (hrefuses : outcome.Refuses)
    (hresult : ∀ response, request.result response = response.inodeResult.map .attrs)
    {response : RaftCommandResponse}
    (hresponse : (∃ a, outcome = .ok a ∧ response = (Reply.attrs a).response) ∨
      ∃ e, outcome = .error e ∧ response = makeErrorResponse e) :
    request.told memory (outcome.map .attrs) =
      some (request.call memory ((request.result response).mapError toGrpcStatus)) := by
  rw [hresult]
  rcases hresponse with ⟨a, rfl, rfl⟩ | ⟨e, rfl, rfl⟩
  · rfl
  · have hback := errorFromResponse_of_isNamed hrefuses.1
    simp only [told, Outcome.map, call, makeErrorResponse, RaftCommandResponse.inodeResult, hback,
      Except.map, Except.mapError]

end Told

theorem MetaState.serve_congr [OffsetSort] {s t : MetaState} (hs : s.untimed = t.untimed)
    (clock clock' : Clock) (request : MetaRequest) :
    (s.serve clock request).1.map MetaReply.untimed =
      (t.serve clock' request).1.map MetaReply.untimed := by
  unfold serve
  split
  next command _ =>
    have h := congrArg Prod.fst (s.untimed_execute clock command)
    rw [hs, ← congrArg Prod.fst (t.untimed_execute clock' command)] at h
    have hcomp : MetaReply.untimed ∘ Reply.metaReply = Reply.metaReply ∘ Reply.untimed :=
      funext fun reply => by cases reply <;> rfl
    have h' := congrArg (Outcome.map Reply.metaReply) h
    rw [Result.untimed, Result.untimed, Outcome.map_map, Outcome.map_map, ← hcomp,
      ← Outcome.map_map, ← Outcome.map_map] at h'
    exact h'
  next =>
    have hservice : (MetaService.mk s).untimed = (MetaService.mk t).untimed :=
      congrArg MetaService.mk hs
    exact MetaService.answer_congr request hservice

namespace MetaService

variable [OffsetSort] {request : MetaRequest} {command : Command} {memory : ℕ → UInt8}

/-- What `Apply` makes of the outcome of a call. -/
theorem applyCommand_eq (service : MetaService) (clock : Clock) (command : Command) :
    (service.applyCommand clock ⟨some command⟩).2.state =
        (service.state.execute clock command).2 ∧
      ∀ response, (service.applyCommand clock ⟨some command⟩).1 = .ok response ↔
        (∃ reply, (service.state.execute clock command).1 = .ok reply ∧
          response = reply.response) ∨
        ∃ e, (service.state.execute clock command).1 = .error e ∧
          response = makeErrorResponse e := by
  unfold applyCommand
  dsimp only
  rcases service.state.execute clock command with ⟨o, s⟩
  cases o with
  | ok reply => exact ⟨rfl, fun response => by simp [eq_comm]⟩
  | error e => exact ⟨rfl, fun response => by simp [eq_comm]⟩
  | outOfRange => exact ⟨rfl, fun response => by simp⟩
  | diverged => exact ⟨rfl, fun response => by simp⟩

/-- A command that comes back is answered. -/
theorem exists_response {service : MetaService} {clock : Clock}
    (h : (service.state.execute clock command).1.Returns) :
    ∃ response, (service.applyCommand clock ⟨some command⟩).1 = .ok response := by
  simp only [(applyCommand_eq service clock command).2]
  cases ho : (service.state.execute clock command).1 with
  | ok reply => exact ⟨_, .inl ⟨reply, rfl, rfl⟩⟩
  | error e => exact ⟨_, .inr ⟨e, rfl, rfl⟩⟩
  | outOfRange => rw [ho] at h; exact h.elim
  | diverged => rw [ho] at h; exact h.elim

/-- The response of `Apply` tells the client the outcome of the call. -/
theorem told_of_apply (h : request.command = some command) {service : MetaService} {clock : Clock}
    {response : RaftCommandResponse}
    (hresponse : (service.applyCommand clock ⟨some command⟩).1 = .ok response) :
    request.told memory (service.state.serve clock request).1 =
      some (request.call memory ((request.result response).mapError toGrpcStatus)) := by
  rw [(applyCommand_eq service clock command).2] at hresponse
  have hrefuses := service.state.execute_refuses clock command
  have hattrs (r : MetaState.Result InodeAttrs)
      (hexecute : service.state.execute clock command = r.map .attrs)
      (hresult : ∀ response, request.result response = response.inodeResult.map .attrs) :
      request.told memory (service.state.serve clock request).1 =
        some (request.call memory ((request.result response).mapError toGrpcStatus)) := by
    unfold MetaState.serve
    rw [h]
    simp only [hexecute, MetaState.Result.map] at hresponse hrefuses ⊢
    rw [Outcome.map_map]
    obtain ⟨o, s⟩ := r
    cases o with
    | ok a =>
      have hok : response = (Reply.attrs a).response := by simpa [Outcome.map] using hresponse
      have hvalue : (Outcome.ok a).Refuses := trivial
      exact MetaRequest.told_attrs hvalue hresult (.inl ⟨a, rfl, hok⟩)
    | error e =>
      have herror : response = makeErrorResponse e := by simpa [Outcome.map] using hresponse
      exact MetaRequest.told_attrs hrefuses hresult (.inr ⟨e, rfl, herror⟩)
    | outOfRange => simp [Outcome.map] at hresponse
    | diverged => simp [Outcome.map] at hresponse
  cases request with
  | mkdir p n mode uid gid => cases h; exact hattrs _ rfl fun _ => rfl
  | createFile p n mode uid gid => cases h; exact hattrs _ rfl fun _ => rfl
  | setAttr a => cases h; exact hattrs _ rfl fun _ => rfl
  | unlink p n => cases h; exact hattrs _ rfl fun _ => rfl
  | rmdir p n => cases h; exact hattrs _ rfl fun _ => rfl
  | rename p n q m => cases h; exact hattrs _ rfl fun _ => rfl
  | commitWrite i v es => cases h; exact hattrs _ rfl fun _ => rfl
  | truncate i size => cases h; exact hattrs _ rfl fun _ => rfl
  | appendWrite i v es =>
    cases h
    unfold MetaState.serve
    dsimp only [MetaRequest.command] at hresponse hrefuses ⊢
    rcases hresponse with ⟨reply, ho, rfl⟩ | ⟨e, ho, rfl⟩
    · rw [ho]
      obtain ⟨r, rfl⟩ : ∃ r, reply = .appended r := by
        obtain ⟨r, _, hr⟩ := Outcome.map_eq_ok ho
        exact ⟨r, hr.symm⟩
      rfl
    · rw [ho] at hrefuses ⊢
      have hback := errorFromResponse_of_isNamed hrefuses.1
      simp only [MetaRequest.told, Outcome.map, MetaRequest.call, MetaRequest.result,
        makeErrorResponse, RaftCommandResponse.appendResult, hback, Except.map, Except.mapError]
  | _ => contradiction

section Calls

variable {ι : Type} (codecs : Codecs) (chunkSize : UInt64)

omit [OffsetSort] in
/-- What a handler does about a request through raft. -/
def invocation (request : MetaRequest) : ReplicatedLog.Request Bytes MetaRequest :=
  match request.command with
  | some command => .write (codecs.commands.serialize ⟨some command⟩)
  | none => .read request

/-- What the client of a call is told once raft has come back with a response or let the handler
read; nothing when raft failed the call or the handler threw. -/
def clientResult (request : MetaRequest) (memory : ℕ → UInt8) :
    Stage (Outcome ApplyResult) (Outcome MetaReply) → Option (Except Error MetaReply)
  | .applied (.ok (.response data)) _ =>
    some (request.call memory
      ((onProposal codecs.responses request.result (.ok data)).mapError toGrpcStatus))
  | .answered answer _ => request.told memory answer
  | _ => none

omit [OffsetSort] in
/-- The handler of a request that changes something, given what `Apply` answered. -/
theorem clientResult_proposed {codecs : Codecs} (h : request.command = some command)
    {raftor : Raftor} {data : Bytes}
    (hraft : raftor.proposeSync (codecs.commands.serialize ⟨some command⟩) = .ok data)
    (service : MetaService) (upto : ℕ) :
    ∃ result, service.handle codecs.commands codecs.responses (some raftor) request = .ok result ∧
      clientResult codecs request memory (.applied (.ok (.response data)) upto) =
        some (request.call memory result) := by
  rw [handle_proposed h, hraft]
  exact ⟨_, rfl, rfl⟩

omit [OffsetSort] in
/-- The handler of a request that reads, raft having let it. -/
theorem clientResult_read {codecs : Codecs} (h : request.command = none) {raftor : Raftor}
    (hread : raftor.readIndexSync request.context = .ok ()) (service : MetaService) (upto : ℕ) :
    clientResult codecs request memory (.answered (service.state.answer request) upto) =
      match service.handle codecs.commands codecs.responses (some raftor) request with
      | .ok result => some (request.call memory result)
      | _ => none := by
  rw [handle_read h hread]
  cases ha : service.state.answer request with
  | ok reply => simp [clientResult, MetaRequest.told, MetaRequest.call, Except.map, Except.mapError]
  | error e => simp [clientResult, MetaRequest.told, MetaRequest.call, Except.map, Except.mapError]
  | outOfRange => simp [clientResult, MetaRequest.told]
  | diverged => simp [clientResult, MetaRequest.told]

/-- The length the log had when raft came back. -/
def cameBackAt : Stage (Outcome ApplyResult) (Outcome MetaReply) → Option ℕ
  | .applied _ upto => some upto
  | .answered _ upto => some upto
  | _ => none

/-- A cluster of the service. -/
abbrev ServiceCluster (ι : Type) :=
  Cluster ι MetaService Bytes MetaRequest (Outcome ApplyResult) (Outcome MetaReply) Bytes

/-- One state machine that applied the first `n` entries of the log, its clock standing still. -/
def sequential (c : ServiceCluster ι) (n : ℕ) : MetaState :=
  (replay (machine codecs chunkSize) .still (c.datas.take n)).state

/-- The messages of a run come out of their codecs as they went in, and no command is written as
no bytes. -/
structure KeepsMessages (requests : ℕ → MetaRequest) (c : ServiceCluster ι) : Prop where
  commands : ∀ id command, (requests id).command = some command →
    codecs.commands.Keeps ⟨some command⟩ ∧ codecs.commands.serialize ⟨some command⟩ ≠ []
  responses : ∀ n data service clock command response,
    Reaches (machine codecs chunkSize) (c.datas.take n) service → c.datas[n]? = some data →
    codecs.commands.parse data = some command →
    (service.applyCommand clock command).1 = .ok response → codecs.responses.Keeps response
  snapshots : ∀ n service, Reaches (machine codecs chunkSize) (c.datas.take n) service →
    codecs.snapshots.Keeps service.state.snapshotMessage

variable {codecs chunkSize} {requests : ℕ → MetaRequest} {c : ServiceCluster ι}

/-- The state after one more entry. -/
theorem sequential_succ {n : ℕ} {command : Command}
    (hget : c.datas[n]? = some (codecs.commands.serialize ⟨some command⟩))
    (hkeeps : codecs.commands.Keeps ⟨some command⟩)
    (hne : codecs.commands.serialize ⟨some command⟩ ≠ []) :
    sequential codecs chunkSize c (n + 1) =
      ((sequential codecs chunkSize c n).execute .still command).2 := by
  obtain ⟨hn, hdata⟩ := List.getElem?_eq_some_iff.mp hget
  unfold sequential replay
  rw [← List.take_append_getElem hn, List.foldl_append, hdata]
  show (apply codecs.commands codecs.responses _ _ _).2.state = _
  rw [apply_parsed hne hkeeps]
  exact (applyCommand_eq _ _ _).1

/-- A state of the cluster and the sequential one at the same place give a client the same. -/
theorem told_sequential {n : ℕ} {service : MetaService}
    (hs : Reaches (machine codecs chunkSize) (c.datas.take n) service) (clock : Clock)
    (request : MetaRequest) :
    (request.told memory (service.state.serve clock request).1).map
        (Except.map MetaReply.untimed) =
      (request.told memory ((sequential codecs chunkSize c n).serve .still request).1).map
        (Except.map MetaReply.untimed) := by
  have hrelated := lawful.related hs (reaches_replay (machine codecs chunkSize) .still _)
  rw [MetaRequest.told_untimed, MetaRequest.told_untimed]
  exact congrArg _ (MetaState.serve_congr (congrArg MetaService.state hrelated) _ _ request)

/-- How a call that came back took place. -/
structure TookPlace (codecs : Codecs) (chunkSize : UInt64) (c : ServiceCluster ι) (id n : ℕ)
    (request : MetaRequest) (memory : ℕ → UInt8) (result : Except Error MetaReply) : Prop where
  /-- The client was told what the sequential state machine would have told it. -/
  told : (request.told memory ((sequential codecs chunkSize c n).serve .still request).1).map
    (Except.map MetaReply.untimed) = some (result.map MetaReply.untimed)
  /-- A request that changes something is the entry there, and the next state is that after it. -/
  changed : request.command.isSome → (c.log[n]?).map Entry.call = some (some id) ∧
    sequential codecs chunkSize c (n + 1) =
      ((sequential codecs chunkSize c n).serve .still request).2

theorem tookPlace_of_write (h : c.Sound (machine codecs chunkSize))
    (hkeeps : KeepsMessages codecs chunkSize requests c) (hroom : c.log.length < 2 ^ 64 - 2)
    {id : ℕ}
    {call : ReplicatedLog.Call ι Bytes MetaRequest (Outcome ApplyResult) (Outcome MetaReply)}
    (hcall : c.calls id = some call) {command : Command}
    (hrequest : call.request = invocation codecs (requests id))
    (hcommand : (requests id).command = some command) {output : Outcome ApplyResult} {upto : ℕ}
    (hstage : call.stage = .applied output upto) :
    ∃ result n, clientResult codecs (requests id) memory call.stage = some result ∧
      call.since ≤ n ∧ n < upto ∧ upto ≤ c.log.length ∧
      TookPlace codecs chunkSize c id n (requests id) memory result := by
  obtain ⟨hcodec, hne⟩ := hkeeps.commands id command hcommand
  obtain ⟨_, hsound⟩ := h.calls id call hcall
  rw [hstage, hrequest] at hsound
  unfold invocation at hsound
  rw [hcommand] at hsound
  obtain ⟨n, hsince, hlt, hupto, hget, service, clock, hs, houtput⟩ := hsound
  have hdata : c.datas[n]? = some (codecs.commands.serialize ⟨some command⟩) := by
    rw [Cluster.datas, List.getElem?_map, hget]
    rfl
  have hnames := (coherent_of_holds hroom hs).names
  obtain ⟨response, hresponse⟩ :=
    exists_response (MetaState.execute_returns hnames clock command)
  have hback := hkeeps.responses n _ service clock _ response hs.2 hdata hcodec hresponse
  have happly : output = .ok (.response (codecs.responses.serialize response)) := by
    rw [houtput]
    show (service.apply codecs.commands codecs.responses clock _).1 = _
    rw [apply_parsed hne hcodec, hresponse]
    rfl
  refine ⟨(requests id).call memory (((requests id).result response).mapError toGrpcStatus), n,
    ?_, hsince, hlt, hupto, ?_, ?_⟩
  · rw [hstage, happly]
    simp only [clientResult, onProposal, show codecs.responses.parse _ = some response from hback]
  · rw [← told_sequential hs.2 clock (requests id), told_of_apply hcommand hresponse]
    rfl
  · intro _
    rw [hget, sequential_succ hdata hcodec hne, MetaState.serve, hcommand]
    exact ⟨rfl, rfl⟩

theorem tookPlace_of_read (h : c.Sound (machine codecs chunkSize))
    (hroom : c.log.length < 2 ^ 64 - 2) {id : ℕ}
    {call : ReplicatedLog.Call ι Bytes MetaRequest (Outcome ApplyResult) (Outcome MetaReply)}
    (hcall : c.calls id = some call) {request : MetaRequest}
    (hrequest : call.request = invocation codecs request)
    (hcommand : request.command = none) {answer : Outcome MetaReply} {upto : ℕ}
    (hstage : call.stage = .answered answer upto) :
    ∃ result n, clientResult codecs request memory call.stage = some result ∧ call.since ≤ n ∧
      n ≤ upto ∧ upto ≤ c.log.length ∧
      TookPlace codecs chunkSize c id n request memory result := by
  obtain ⟨_, hsound⟩ := h.calls id call hcall
  rw [hstage, hrequest] at hsound
  unfold invocation at hsound
  rw [hcommand] at hsound
  obtain ⟨n, hsince, hle, hupto, service, hs, hanswer⟩ := hsound
  have hserve : answer = (service.state.serve .still request).1 := by
    rw [hanswer, MetaState.serve, hcommand]
    rfl
  obtain ⟨result, hresult⟩ : ∃ result, request.told memory answer = some result := by
    apply MetaRequest.told_of_returns
    rw [hanswer]
    exact (coherent_of_holds hroom hs).linked.answer_returns request
  refine ⟨result, n, by rw [hstage]; exact hresult, hsince, hle, hupto, ?_, ?_⟩
  · rw [← told_sequential hs.2 .still request, ← hserve, hresult]
    rfl
  · rw [hcommand]
    simp

section Wire

variable {sizes : Sizes} {log : List Bytes} {service : MetaService}

/-- No message of a run reaches 2 GiB. -/
structure SmallMessages (codecs : Codecs) (sizes : Sizes) (chunkSize : UInt64)
    (requests : ℕ → MetaRequest) (c : ServiceCluster ι) : Prop where
  commands : ∀ id command, (requests id).command = some command →
    sizes.commands ⟨some command⟩ < 2 ^ 31
  responses : ∀ n data service clock command response,
    Reaches (machine codecs chunkSize) (c.datas.take n) service → c.datas[n]? = some data →
    codecs.commands.parse data = some command →
    (service.applyCommand clock command).1 = .ok response → sizes.responses response < 2 ^ 31
  snapshots : ∀ n service, Reaches (machine codecs chunkSize) (c.datas.take n) service →
    sizes.snapshots service.state.snapshotMessage < 2 ^ 31

/-- The entry of a new leader, or a command that can be sent and comes back. -/
def Carried (codecs : Codecs) (data : Bytes) : Prop :=
  data = [] ∨ ∃ command : RaftCommand, command.Sendable ∧ codecs.commands.Keeps command ∧
    data = codecs.commands.serialize command

omit [OffsetSort] in
/-- What the state machine reads of an entry can be sent as well. -/
theorem Carried.parse (hempty : codecs.commands.parse [] = some {}) {data : Bytes}
    (h : Carried codecs data) {command : RaftCommand}
    (hparse : codecs.commands.parse data = some command) : command.Sendable := by
  rcases h with rfl | ⟨command', hsend, hback, rfl⟩
  · rw [← Option.some.inj (hempty.symm.trans hparse)]
    nofun
  · exact Option.some.inj (hback.symm.trans hparse) ▸ hsend

theorem sendable_of_reaches (hempty : codecs.commands.parse [] = some {})
    (h : Reaches (machine codecs chunkSize) log service)
    (hlog : ∀ data ∈ log, Carried codecs data) : service.state.Sendable := by
  induction h with
  | start clock => exact MetaState.sendable_fresh chunkSize _
  | @apply log service clock data _ ih =>
    have hservice := ih fun data hdata => hlog data (List.mem_append_left _ hdata)
    show (service.apply codecs.commands codecs.responses clock data).2.state.Sendable
    by_cases hne : data = []
    · rw [hne, apply_empty]
      exact hservice
    · cases hparse : codecs.commands.parse data with
      | none => rw [apply_dropped hne hparse]; exact hservice
      | some command =>
        rw [apply_parsed hne hparse]
        exact (applyCommand_sendable hservice clock ((hlog data (by simp)).parse hempty hparse)).1

/-- The calls ask for the requests, all of which can be sent. -/
theorem keepsMessages_of_asks (hcodecs : codecs.Protobuf sizes)
    (h : c.Asks (machine codecs chunkSize) fun id r => r = invocation codecs (requests id))
    (hsend : ∀ id command, (requests id).command = some command → command.Sendable)
    (hsmall : SmallMessages codecs sizes chunkSize requests c) :
    KeepsMessages codecs chunkSize requests c := by
  have hsend' (id command) (hcommand : (requests id).command = some command) :
      RaftCommand.Sendable ⟨some command⟩ :=
    fun _ h => Option.some.inj h ▸ hsend id command hcommand
  have hback (id command) (hcommand : (requests id).command = some command) :
      codecs.commands.Keeps ⟨some command⟩ :=
    hcodecs.commands _ (hsend' id command hcommand) (hsmall.commands id command hcommand)
  have hcarried : ∀ data ∈ c.datas, Carried codecs data := by
    intro data hdata
    obtain ⟨e, he, rfl⟩ := List.mem_map.mp hdata
    rcases h.entries e he with hnoop | ⟨id, hwrite⟩
    · exact .inl hnoop
    · unfold invocation at hwrite
      split at hwrite
      next command hcommand =>
        exact .inr ⟨_, hsend' id command hcommand, hback id command hcommand,
          ReplicatedLog.Request.write.inj hwrite⟩
      next => contradiction
  have hreaches {n service} (hs : Reaches (machine codecs chunkSize) (c.datas.take n) service) :
      service.state.Sendable :=
    sendable_of_reaches hcodecs.empty hs
      fun data hdata => hcarried data (List.mem_of_mem_take hdata)
  refine ⟨?_, ?_, ?_⟩
  · intro id command hcommand
    have hkeeps := hback id command hcommand
    refine ⟨hkeeps, fun hempty => ?_⟩
    rw [Codec.Keeps, hempty, hcodecs.empty] at hkeeps
    simp at hkeeps
  · intro n data service clock command response hs hdata hparse hresponse
    have hcommand := (hcarried data (List.mem_of_getElem? hdata)).parse hcodecs.empty hparse
    exact hcodecs.responses _
      ((applyCommand_sendable (hreaches hs) clock hcommand).2 response hresponse)
      (hsmall.responses n data service clock command response hs hdata hparse hresponse)
  · intro n service hs
    exact hcodecs.snapshots _ (hreaches hs).snapshotMessage (hsmall.snapshots n service hs)

/-- Codecs that are as protobuf promises. -/
def wireCodecs : Codecs where
  commands := Wire.codec RaftCommand.schema {}
  responses := Wire.codec RaftCommandResponse.schema {}
  snapshots := Wire.codec MetaSnapshot.schema {}

def wireSizes : Sizes where
  commands := Wire.byteSize RaftCommand.schema
  responses := Wire.byteSize RaftCommandResponse.schema
  snapshots := Wire.byteSize MetaSnapshot.schema

omit [OffsetSort] in
theorem wireCodecs_protobuf : wireCodecs.Protobuf wireSizes where
  commands _ h := Wire.codec_keeps (RaftCommand.mergeFrom_serialize h)
  responses _ h := Wire.codec_keeps (RaftCommandResponse.mergeFrom_serialize h)
  snapshots _ h := Wire.codec_keeps (MetaSnapshot.mergeFrom_serialize h)
  empty := rfl

end Wire

section Run

variable [DecidableEq ι]

/-- The service after a run of events. -/
def run (codecs : Codecs) (chunkSize : UInt64) (readings : ι → Clock)
    (events : List (Event ι Clock Bytes MetaRequest (List ReadResult))) : ServiceCluster ι :=
  final (Cluster.act (machine codecs chunkSize)) events
    (Cluster.fresh (machine codecs chunkSize) readings)

/-- A cluster serves requests as one state machine would. -/
structure Linearizable (codecs : Codecs) (chunkSize : UInt64) (requests : ℕ → MetaRequest)
    (c : ServiceCluster ι) : Prop where
  /-- A call that raft came back from took place after it began and before it was answered,
  whatever the client's view of a status shows. -/
  calls : ∀ id call upto memory, c.calls id = some call → cameBackAt call.stage = some upto →
    ∃ result n, clientResult codecs (requests id) memory call.stage = some result ∧
      call.since ≤ n ∧ n ≤ upto ∧ ((requests id).command.isSome → n < upto) ∧
      upto ≤ c.log.length ∧ TookPlace codecs chunkSize c id n (requests id) memory result
  /-- Up to times, a node is in a state the one machine went through. -/
  replicas : ∀ node, (c.replicas node).applied ≤ c.log.length ∧
    (c.replicas node).state.state.untimed =
      (sequential codecs chunkSize c (c.replicas node).applied).untimed
  /-- No request is in the log twice, and there is nothing else in it. -/
  once : (c.log.filterMap Entry.call).Nodup
  entries : ∀ entry ∈ c.log, entry.Sound (machine codecs chunkSize) c.calls

/-- A directory is made through one node and looked up at another, which failed to read a snapshot
before. -/
def lookedUpRequests : ℕ → MetaRequest
  | 0 => .mkdir 1 (ascii "a") 493 0 0
  | _ => .lookup 1 (ascii "a")

def lookedUpEvents : List (Event Bool Clock Bytes MetaRequest (List ReadResult)) :=
  [.elect, .invoke 0 true (invocation wireCodecs (lookedUpRequests 0)), .place 0,
    .apply true .still, .apply true .still, .save true, .load false 0 [.failed],
    .invoke 1 false (invocation wireCodecs (lookedUpRequests 1)), .confirm 1,
    .apply false .still, .apply false .still, .catchUp 1, .answer 1, .restart true .still]

omit [OffsetSort] in
theorem lookedUp_asked (id : ℕ) (node : Bool) (r : ReplicatedLog.Request Bytes MetaRequest)
    (h : .invoke id node r ∈ lookedUpEvents) : r = invocation wireCodecs (lookedUpRequests id) := by
  simp only [lookedUpEvents, List.mem_cons, reduceCtorEq, Event.invoke.injEq, false_or,
    List.not_mem_nil, or_false] at h
  rcases h with ⟨rfl, _, rfl⟩ | ⟨rfl, _, rfl⟩
  · rfl
  · rfl

omit [OffsetSort] in
theorem lookedUp_sendable (id : ℕ) (command : Command)
    (h : (lookedUpRequests id).command = some command) : command.Sendable := by
  cases id with
  | zero =>
    obtain rfl := Option.some.inj h
    exact isText_ascii "a"
  | succ id => contradiction

/-- The command of the first request, and its entry. -/
def madeDirectory : RaftCommand := ⟨some (.mkdir 1 (ascii "a") 493 0 0)⟩

def lookedUpDatas : List Bytes := [[], wireCodecs.commands.serialize madeDirectory]

omit [OffsetSort] in
theorem lookedUp_datas :
    (@run .insertion Bool _ wireCodecs 4096 (fun _ => .still) lookedUpEvents).datas =
      lookedUpDatas := by
  decide +kernel

theorem lookedUp_states {n : ℕ}
    (h : Reaches (machine wireCodecs 4096) (lookedUpDatas.take n) service) :
    (∃ nowNs, service = ⟨.fresh 4096 nowNs⟩) ∨
      2 ≤ n ∧ ∃ nowNs clock,
        service = ((MetaService.mk (.fresh 4096 nowNs)).applyCommand clock madeDirectory).2 := by
  obtain ⟨nowNs, entries, hcommands, hservice⟩ := exists_entries h
  have hmade : commandOf wireCodecs (wireCodecs.commands.serialize madeDirectory) =
      some madeDirectory := by rfl
  match n with
  | 0 =>
    rw [List.map_eq_nil_iff.mp hcommands] at hservice
    exact .inl ⟨nowNs, hservice⟩
  | 1 =>
    rw [List.map_eq_nil_iff.mp hcommands] at hservice
    exact .inl ⟨nowNs, hservice⟩
  | n + 2 =>
    refine .inr ⟨by omega, ?_⟩
    have hone : entries.map LogEntry.command = [madeDirectory] := by
      rw [hcommands, lookedUpDatas, List.take_of_length_le (by simp)]
      simp only [List.filterMap_cons, hmade, List.filterMap_nil]
      rfl
    obtain ⟨entry, rfl, hentry⟩ := List.map_eq_singleton_iff.mp hone
    obtain ⟨clock, command⟩ := entry
    obtain rfl : command = madeDirectory := hentry
    exact ⟨nowNs, clock, hservice⟩

/-- The directory is made: its attributes are the answer, and there are two inodes and one entry. -/
theorem applyCommand_madeDirectory (nowNs : Int64) (clock : Clock) :
    let result := (MetaService.mk (.fresh 4096 nowNs)).applyCommand clock madeDirectory
    (∃ a, result.1 = .ok ⟨some (.attrs a)⟩) ∧
      ∃ n root made, result.2.state.snapshotMessage =
        ⟨n, 4096, [root, made], [⟨1, ascii "a", 2⟩], []⟩ :=
  ⟨⟨_, rfl⟩, _, _, _, rfl⟩

theorem lookedUp_small :
    SmallMessages wireCodecs wireSizes 4096 lookedUpRequests
      (@run .insertion Bool _ wireCodecs 4096 (fun _ => .still) lookedUpEvents) := by
  constructor
  · intro id command hcommand
    cases id with
    | zero =>
      obtain rfl := Option.some.inj hcommand
      decide
    | succ id => contradiction
  · intro n data service clock command response hs hdata hparse hresponse
    rw [lookedUp_datas] at hs hdata
    have hfresh (hn : n < 2) : ∃ nowNs, service = ⟨.fresh 4096 nowNs⟩ := by
      rcases lookedUp_states hs with h | ⟨hle, -⟩
      · exact h
      · omega
    match n with
    | 0 =>
      obtain rfl := Option.some.inj hdata
      obtain rfl := Option.some.inj (wireCodecs_protobuf.empty.symm.trans hparse)
      obtain rfl := Outcome.ok.inj hresponse
      decide
    | 1 =>
      obtain rfl := Option.some.inj hdata
      obtain rfl : madeDirectory = command := Option.some.inj hparse
      obtain ⟨nowNs, rfl⟩ := hfresh (by omega)
      obtain ⟨⟨a, hmade⟩, -⟩ := applyCommand_madeDirectory nowNs clock
      obtain rfl := Outcome.ok.inj (hmade.symm.trans hresponse)
      exact RaftCommandResponse.byteSize_attrs_le a
    | n + 2 => contradiction
  · intro n service hs
    rw [lookedUp_datas] at hs
    rcases lookedUp_states hs with ⟨nowNs, rfl⟩ | ⟨-, nowNs, clock, rfl⟩
    · obtain ⟨m, root, hsnapshot⟩ : ∃ m root,
          (MetaState.fresh 4096 nowNs).snapshotMessage = ⟨m, 4096, [root], [], []⟩ := ⟨_, _, rfl⟩
      show Wire.byteSize _ _ < _
      rw [hsnapshot]
      exact MetaSnapshot.byteSize_le (by simp) (by simp) nofun rfl
    · obtain ⟨-, m, root, made, hsnapshot⟩ := applyCommand_madeDirectory nowNs clock
      show Wire.byteSize _ _ < _
      rw [hsnapshot]
      exact MetaSnapshot.byteSize_le (by simp) (by simp) (by simp; decide) rfl

omit [OffsetSort] in
theorem lookedUp_keeps :
    @KeepsMessages .insertion Bool wireCodecs 4096 lookedUpRequests
      (@run .insertion Bool _ wireCodecs 4096 (fun _ => .still) lookedUpEvents) :=
  letI : OffsetSort := .insertion
  keepsMessages_of_asks wireCodecs_protobuf (Cluster.asks_run _ _ lookedUp_asked) lookedUp_sendable
    lookedUp_small

/-- Whatever happens to the cluster, every message that goes through raft comes out of its codec as
it went in, as long as the texts of the requests are UTF-8 and no message reaches 2 GiB. -/
theorem keepsMessages_of_run {sizes : Sizes} (hcodecs : codecs.Protobuf sizes)
    (readings : ι → Clock) (events : List (Event ι Clock Bytes MetaRequest (List ReadResult)))
    (hasked : ∀ id node r, .invoke id node r ∈ events → r = invocation codecs (requests id))
    (hsend : ∀ id command, (requests id).command = some command → command.Sendable)
    (hsmall : SmallMessages codecs sizes chunkSize requests
      (run codecs chunkSize readings events)) :
    KeepsMessages codecs chunkSize requests (run codecs chunkSize readings events) :=
  keepsMessages_of_asks hcodecs (Cluster.asks_run readings events hasked) hsend hsmall

omit [OffsetSort] in
theorem keepsMessages_lookedUp :
    @KeepsMessages .insertion Bool wireCodecs 4096 lookedUpRequests
      (@run .insertion Bool _ wireCodecs 4096 (fun _ => .still) lookedUpEvents) :=
  letI : OffsetSort := .insertion
  keepsMessages_of_run wireCodecs_protobuf (fun _ => .still) lookedUpEvents lookedUp_asked
    lookedUp_sendable lookedUp_small

end Run

end Calls

end MetaService

end Pulpfs
