import Pulpfs.Meta.Replay
import Pulpfs.Meta.TreeInvariant
import Pulpfs.Meta.Content

/-! A node that restores a snapshot of another one holds that node's state, and from there on
answers the rest of the log as a node that applied all of it, the times apart. -/
namespace Pulpfs
open Transition

namespace MetaState

variable {s : MetaState}

theorem emplaceInodes_toList (h : s.names.WellFormed) :
    emplaceInodes (s.inodes.toList.map fun e => e.2) = s.inodes := by
  unfold emplaceInodes
  rw [List.foldl_map]
  refine (List.foldl_ext _ (fun m e => m.insertIfNew e.1 e.2) _ ?_).trans
    (TreeMap.foldl_insertIfNew_toList s.inodes)
  intro m e he
  have hget := Std.ExtTreeMap.mem_toList_iff_getElem?_eq_some.mp
    (show (e.1, e.2) ∈ s.inodes.toList from he)
  have hid : e.2.inodeId = e.1 :=
    h.stored e.1 (e.2.inodeId, e.2.type) (by simp only [names, hget, Option.map_some])
  rw [hid]

theorem emplaceDentries_toList (s : MetaState) :
    emplaceDentries (s.dentries.toList.map fun e =>
      { parentInodeId := e.1.1, name := e.1.2, childInodeId := e.2 }) = s.dentries := by
  unfold emplaceDentries
  rw [List.foldl_map]
  exact TreeMap.foldl_insertIfNew_toList s.dentries

theorem emplaceLayouts_toList (s : MetaState) :
    emplaceLayouts (s.layouts.toList.map fun e => { inodeId := e.1, layout := e.2 }) =
      s.layouts := by
  unfold emplaceLayouts
  rw [List.foldl_map]
  exact TreeMap.foldl_insertIfNew_toList s.layouts

/-- The snapshot of a reachable state is accepted by every state and restores that state. -/
theorem restoreMessage_snapshotMessage (h : s.names.WellFormed)
    (hl : ∀ i, (s.fileView i).Laid) (t : MetaState) :
    t.restoreMessage s.snapshotMessage = (.ok (), s) := by
  have hinodes := emplaceInodes_toList h
  have hroot : kRootInodeId ∈ s.inodes := mem_inodes.mpr h.tree.root_node
  have hdentries : (s.snapshotMessage.dentries.any fun d =>
      d.parentInodeId ∉ s.inodes ∨ d.childInodeId ∉ s.inodes) = false := by
    rw [List.any_eq_false]
    simp only [snapshotMessage, List.forall_mem_map]
    intro e he
    have hk := s.mem_dentries_toList.mp (show (e.1, e.2) ∈ s.dentries.toList from he)
    have hp := mem_inodes.mpr (h.tree.dir_node (h.tree.parent_dir hk))
    have hc := mem_inodes.mpr (h.tree.child_node hk)
    simp [hp, hc]
  have hlayouts : (s.snapshotMessage.layouts.any fun l => l.inodeId ∉ s.inodes) = false := by
    rw [List.any_eq_false]
    simp only [snapshotMessage, List.forall_mem_map]
    intro e he
    have hget := Std.ExtTreeMap.mem_toList_iff_getElem?_eq_some.mp
      (show (e.1, e.2) ∈ s.layouts.toList from he)
    have hmem : e.1 ∈ s.inodes := by
      rw [Std.ExtTreeMap.mem_iff_isSome_getElem?, Option.isSome_iff_ne_none]
      intro hnone
      have hview := (hl e.1).stored (by simp only [fileView, hnone, Option.map_none])
      simp [fileView, hget] at hview
    simp [hmem]
  unfold restoreMessage
  rw [show emplaceInodes s.snapshotMessage.inodes = s.inodes from hinodes]
  simp only [hroot, not_true, if_false, hdentries, hlayouts, Bool.false_eq_true]
  rw [show emplaceDentries s.snapshotMessage.dentries = s.dentries from emplaceDentries_toList s,
    show emplaceLayouts s.snapshotMessage.layouts = s.layouts from emplaceLayouts_toList s]
  rfl

/-- A state of a run from a fresh one, as far as a snapshot depends on it. -/
structure Sound (s : MetaState) : Prop where
  wellFormed : s.names.WellFormed
  laid : ∀ i, (s.fileView i).Laid

theorem sound_run [OffsetSort] (chunkSize : UInt64) (nowNs : Int64) (calls : List Call)
    (room : (createdIds calls (.fresh chunkSize nowNs)).length < 2 ^ 64 - 2) :
    (final call calls (.fresh chunkSize nowNs)).Sound := by
  exact ⟨wellFormed_run chunkSize nowNs calls room, laid_run calls (laid_fresh chunkSize nowNs)⟩

/-- Which numbers a command hands out does not depend on times. -/
theorem handedOut_untimed (c : Command) (o : Outcome Reply) :
    handedOut c.untimed (o.map Reply.untimed) = handedOut c o := by
  cases o with
  | ok r => cases r <;> cases c <;> rfl
  | error e => cases c <;> rfl
  | outOfRange => cases c <;> rfl
  | diverged => cases c <;> rfl

def stillCall (c : Call) : Call := ⟨.still, c.command.untimed⟩

theorem createdIds_untimed [OffsetSort] (calls : List Call) (s : MetaState) :
    createdIds (calls.map stillCall) s.untimed = createdIds calls s := by
  induction calls generalizing s with
  | nil => rfl
  | cons c calls ih =>
    obtain ⟨hout, hstate⟩ := Prod.mk.inj (s.untimed_execute c.clock c.command)
    rw [List.map_cons, createdIds_cons, createdIds_cons]
    have ho : (call (stillCall c) s.untimed).1 = (call c s).1.map Reply.untimed := hout.symm
    have hs : (call (stillCall c) s.untimed).2 = (call c s).2.untimed := hstate.symm
    rw [ho, hs, ih]
    exact congrArg (fun x => x.toList ++ _) (handedOut_untimed c.command _)

theorem createdIds_append [OffsetSort] (calls calls' : List Call) (s : MetaState) :
    createdIds (calls ++ calls') s =
      createdIds calls s ++ createdIds calls' (final call calls s) := by
  unfold createdIds
  rw [trace_append, List.filterMap_append]

end MetaState

/-- The calls of the state machine a log leads to. -/
def LogEntry.calls (entries : List LogEntry) : List Call :=
  entries.filterMap fun e => e.command.command.map fun c => ⟨e.clock, c⟩

namespace MetaService

/-- Applying a log runs its calls. -/
theorem final_state [OffsetSort] (entries : List LogEntry) (service : MetaService) :
    (final applyEntry entries service).state =
      final MetaState.call (LogEntry.calls entries) service.state := by
  induction entries generalizing service with
  | nil => rfl
  | cons e entries ih =>
    rw [final_cons, ih]
    unfold LogEntry.calls
    rw [List.filterMap_cons]
    obtain ⟨clock, ⟨command⟩⟩ := e
    cases command with
    | none => rfl
    | some c =>
      have hstate : (applyEntry ⟨clock, ⟨some c⟩⟩ service).2.state =
          (service.state.execute clock c).2 := by
        simp only [applyEntry, applyCommand]
        obtain ⟨o, s⟩ := service.state.execute clock c
        cases o with
        | ok => rfl
        | error => rfl
        | outOfRange => rfl
        | diverged => rfl
      rw [hstate]
      rfl

theorem calls_congr {entries entries' : List LogEntry}
    (h : List.Forall₂ (fun e e' : LogEntry => e.command = e'.command) entries entries') :
    (LogEntry.calls entries).map MetaState.stillCall =
      (LogEntry.calls entries').map MetaState.stillCall := by
  induction h with
  | nil => rfl
  | @cons e e' entries entries' he _ ih =>
    unfold LogEntry.calls at ih ⊢
    rw [List.filterMap_cons, List.filterMap_cons, he]
    cases e'.command.command with
    | none => exact ih
    | some c => exact congrArg (MetaState.stillCall ⟨e.clock, c⟩ :: ·) ih

theorem stamp_append (clocks : ℕ → Clock) (log log' : List RaftCommand) :
    LogEntry.stamp clocks (log ++ log') =
      LogEntry.stamp clocks log ++ LogEntry.stamp (fun i => clocks (i + log.length)) log' :=
  List.mapIdx_append

/-- How many numbers a prefix of a log hands out is the same on every node, and no more than the
whole log. -/
theorem createdIds_prefix [OffsetSort] (chunkSize : UInt64) (nowNs nowNs' : Int64)
    (clocks clocks' : ℕ → Clock) (log log' : List RaftCommand) :
    (MetaState.createdIds (LogEntry.calls (LogEntry.stamp clocks' log))
        (.fresh chunkSize nowNs')).length ≤
      (MetaState.createdIds (LogEntry.calls (LogEntry.stamp clocks (log ++ log')))
        (.fresh chunkSize nowNs)).length := by
  have hsame : MetaState.createdIds (LogEntry.calls (LogEntry.stamp clocks' log))
      (.fresh chunkSize nowNs') =
      MetaState.createdIds (LogEntry.calls (LogEntry.stamp clocks log))
        (.fresh chunkSize nowNs) := by
    rw [← MetaState.createdIds_untimed (LogEntry.calls (LogEntry.stamp clocks' log)),
      calls_congr (stamp_forall₂ clocks' clocks log), fresh_untimed chunkSize nowNs' nowNs,
      MetaState.createdIds_untimed]
  have hsplit : LogEntry.calls (LogEntry.stamp clocks (log ++ log')) =
      LogEntry.calls (LogEntry.stamp clocks log) ++
        LogEntry.calls (LogEntry.stamp (fun i => clocks (i + log.length)) log') := by
    rw [stamp_append]
    exact List.filterMap_append
  rw [hsame, hsplit, MetaState.createdIds_append, List.length_append]
  omega

/-- A reader that hands out the bytes in non-empty pieces; what it would say after its end is
not asked for. -/
theorem readSnapshot_pieces {pieces : List Bytes} {rest : List ReadResult}
    (h : ∀ p ∈ pieces, p ≠ []) (hrest : readSnapshot rest = some []) :
    readSnapshot (pieces.map ReadResult.piece ++ rest) = some pieces.flatten := by
  induction pieces with
  | nil => exact hrest
  | cons p pieces ih =>
    rw [List.forall_mem_cons] at h
    have hp : p.isEmpty = false := by
      rw [List.isEmpty_eq_false_iff]
      exact h.1
    simp only [List.map_cons, List.cons_append, readSnapshot, hp, Bool.false_eq_true, if_false,
      ih h.2, Option.map_some, List.flatten_cons]

/-- Restoring what another node took leaves that node's state, whatever was held before. -/
theorem restoreSnapshot_takeSnapshot {codec : Codec MetaSnapshot} {service : MetaService}
    (held : MetaService) (hs : service.state.Sound)
    (hcodec : codec.parse (codec.serialize service.state.snapshotMessage) =
      some service.state.snapshotMessage)
    {results : List ReadResult} (hread : readSnapshot results = some (service.takeSnapshot codec)) :
    held.restoreSnapshot codec results = (.ok .restored, service) := by
  have hrestore : held.state.restoreSnapshot codec (service.takeSnapshot codec) =
      (.ok (), service.state) := by
    unfold MetaState.restoreSnapshot takeSnapshot MetaState.serializeSnapshot
    rw [hcodec]
    exact MetaState.restoreMessage_snapshotMessage hs.wellFormed hs.laid held.state
  unfold restoreSnapshot
  simp only [hread, hrestore]

end MetaService

/-- Node A applies a log, node C a prefix of it and takes a snapshot, node B restores that over
whatever it held and applies the rest. B answers the rest of the log as A does and ends in the
same state, the times apart. -/
theorem catchUp_agrees [OffsetSort] (codec : Codec MetaSnapshot) (chunkSize : UInt64)
    (log log' : List RaftCommand) (nowA nowC : Int64) (clocksA clocksB clocksC : ℕ → Clock)
    (held : MetaService) (pieces : List Bytes)
    (room : (MetaState.createdIds (LogEntry.calls (LogEntry.stamp clocksA (log ++ log')))
      (.fresh chunkSize nowA)).length < 2 ^ 64 - 2)
    (hcodec : codec.parse ((final MetaService.applyEntry (LogEntry.stamp clocksC log)
        ⟨.fresh chunkSize nowC⟩).takeSnapshot codec) =
      some (final MetaService.applyEntry (LogEntry.stamp clocksC log)
        ⟨.fresh chunkSize nowC⟩).state.snapshotMessage)
    (hne : ∀ p ∈ pieces, p ≠ [])
    (hflat : pieces.flatten = (final MetaService.applyEntry (LogEntry.stamp clocksC log)
      ⟨.fresh chunkSize nowC⟩).takeSnapshot codec) :
    let entries := LogEntry.stamp clocksA (log ++ log')
    let entries' := LogEntry.stamp clocksB log'
    let runA := trace MetaService.applyEntry entries ⟨.fresh chunkSize nowA⟩
    let nodeA := final MetaService.applyEntry entries ⟨.fresh chunkSize nowA⟩
    let restored := held.restoreSnapshot codec (pieces.map .piece)
    let runB := trace MetaService.applyEntry entries' restored.2
    let nodeB := final MetaService.applyEntry entries' restored.2
    restored.1 = .ok .restored ∧
      runB.map (fun e => e.output.map RaftCommandResponse.untimed) =
        (runA.drop log.length).map (fun e => e.output.map RaftCommandResponse.untimed) ∧
      nodeB.untimed = nodeA.untimed := by
  intro entries entries' runA nodeA restored runB nodeB
  let startA : MetaService := ⟨.fresh chunkSize nowA⟩
  let startC : MetaService := ⟨.fresh chunkSize nowC⟩
  let nodeC := final MetaService.applyEntry (LogEntry.stamp clocksC log) startC
  let entriesA := LogEntry.stamp (fun i => clocksA (i + log.length)) log'
  have hsound : nodeC.state.Sound := by
    rw [MetaService.final_state]
    exact MetaState.sound_run chunkSize nowC _
      ((MetaService.createdIds_prefix chunkSize nowA nowC clocksA clocksC log log').trans_lt room)
  have hread : MetaService.readSnapshot (pieces.map .piece) = some (nodeC.takeSnapshot codec) := by
    rw [← List.append_nil (pieces.map _), MetaService.readSnapshot_pieces hne rfl, hflat]
  have hrestored : restored = (.ok .restored, nodeC) :=
    MetaService.restoreSnapshot_takeSnapshot held hsound hcodec hread
  have hstart : startC.untimed = startA.untimed :=
    congrArg MetaService.mk (MetaService.fresh_untimed chunkSize nowC nowA)
  obtain ⟨_, hcut⟩ :=
    MetaService.run_congr hstart (MetaService.stamp_forall₂ clocksC clocksA log)
  obtain ⟨hout, hstate⟩ :=
    MetaService.run_congr hcut (MetaService.stamp_forall₂ clocksB
      (fun i => clocksA (i + log.length)) log')
  have hentries : entries = LogEntry.stamp clocksA log ++ entriesA :=
    MetaService.stamp_append clocksA log log'
  have hlength : (trace MetaService.applyEntry (LogEntry.stamp clocksA log) startA).length =
      log.length := by
    rw [trace_length]
    exact List.length_mapIdx
  have hdrop : runA.drop log.length = trace MetaService.applyEntry entriesA
      (final MetaService.applyEntry (LogEntry.stamp clocksA log) startA) := by
    simp only [runA, hentries, trace_append]
    exact List.drop_left' hlength
  refine ⟨congrArg Prod.fst hrestored, ?_, ?_⟩
  · rw [hdrop, ← List.forall₂_eq_eq_eq, List.forall₂_map_left_iff, List.forall₂_map_right_iff]
    rw [List.forall₂_map_left_iff, List.forall₂_map_right_iff] at hout
    simp only [runB, hrestored]
    exact hout
  · simp only [nodeA, nodeB, hrestored, hentries, final_append]
    exact hstate

/-- The commands before and after a snapshot: a file made and written, then moved over another
one and appended to. -/
def logBefore : List RaftCommand :=
  [⟨some (.mkdir 1 (ascii "a") 0o755 0 0)⟩, ⟨some (.createFile 2 (ascii "f") 0o644 7 7)⟩,
    ⟨some (.commitWrite 3 1 [{ length := 4, objectKey := ascii "k" }])⟩]

def logAfter : List RaftCommand :=
  [⟨some (.createFile 1 (ascii "g") 0o644 7 7)⟩, ⟨none⟩,
    ⟨some (.rename 2 (ascii "f") 1 (ascii "g"))⟩,
    ⟨some (.appendWrite 3 0 [{ length := 2, objectKey := ascii "l" }])⟩]

/-- The node that takes the snapshot. -/
def snapshotNode : MetaService :=
  final (@MetaService.applyEntry .insertion) (LogEntry.stamp (fun _ _ => 8) logBefore)
    ⟨.fresh 4096 7⟩

def snapshotBytes : Bytes := Wire.metaSnapshot snapshotNode.state.snapshotMessage

set_option maxRecDepth 8192 in
theorem catchUp_agrees_after_rename :
    let codec := Wire.codecOf snapshotNode.state.snapshotMessage
    let apply := @MetaService.applyEntry .insertion
    let entries := LogEntry.stamp (fun _ _ => 5) (logBefore ++ logAfter)
    let entries' := LogEntry.stamp (fun _ _ => 6) logAfter
    let restored := (MetaService.mk (.fresh 1 9)).restoreSnapshot codec
      ([snapshotBytes.take 40, snapshotBytes.drop 40].map .piece)
    restored.1 = .ok .restored ∧
      (trace apply entries' restored.2).map
          (fun e => e.output.map RaftCommandResponse.untimed) =
        ((trace apply entries ⟨.fresh 4096 4⟩).drop logBefore.length).map
          (fun e => e.output.map RaftCommandResponse.untimed) ∧
      (final apply entries' restored.2).untimed =
        (final apply entries ⟨.fresh 4096 4⟩).untimed :=
  @catchUp_agrees .insertion (Wire.codecOf snapshotNode.state.snapshotMessage) 4096 logBefore
    logAfter 4 7 (fun _ _ => 5) (fun _ _ => 6) (fun _ _ => 8) ⟨.fresh 1 9⟩
    [snapshotBytes.take 40, snapshotBytes.drop 40] (by decide)
    (Wire.parse_codecOf snapshotNode.state.snapshotMessage) (by decide)
    (by rw [List.flatten_cons, List.flatten_cons, List.flatten_nil, List.append_nil,
      List.take_append_drop]; rfl)

end Pulpfs
