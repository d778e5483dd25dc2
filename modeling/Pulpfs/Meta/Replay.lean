import Pulpfs.Meta.Untimed

/-! Replaying a log. The responses and the state a log leads to are determined by the commands
in it, the times apart. -/
namespace Pulpfs
open Transition

def RaftCommand.untimed (c : RaftCommand) : RaftCommand := ⟨c.command.map Command.untimed⟩

def MetaService.untimed (service : MetaService) : MetaService := ⟨service.state.untimed⟩

namespace MetaState

variable {α β γ δ : Type}

theorem Result.untimed_map {f : α → β} {g : β → γ} {h : α → δ} {f' : δ → γ} {r : Result α}
    {r' : Result δ} (hr : r.untimed h = r') (hf : ∀ a, g (f a) = f' (h a)) :
    (r.map f).untimed g = r'.map f' := by
  subst hr
  obtain ⟨o, s⟩ := r
  cases o with
  | ok a => exact congrArg (fun x => (Outcome.ok x, s.untimed)) (hf a)
  | error e => rfl
  | outOfRange => rfl
  | diverged => rfl

/-- Erasing the times commutes with executing a command. -/
theorem untimed_execute [OffsetSort] (s : MetaState) (clock : Clock) (c : Command) :
    (s.execute clock c).untimed Reply.untimed = s.untimed.execute .still c.untimed := by
  cases c with
  | mkdir p n mode uid gid =>
    exact Result.untimed_map (s.untimed_createNode clock p n _ mode uid gid) fun _ => rfl
  | createFile p n mode uid gid =>
    exact Result.untimed_map (s.untimed_createNode clock p n _ mode uid gid) fun _ => rfl
  | setAttr a => exact Result.untimed_map (s.untimed_setAttr clock a) fun _ => rfl
  | commitWrite i v es =>
    exact Result.untimed_map (s.untimed_commitWrite clock i v es) fun _ => rfl
  | appendWrite i v es =>
    exact Result.untimed_map (s.untimed_appendWrite clock i v es) fun _ => rfl
  | truncate i size => exact Result.untimed_map (s.untimed_truncate clock i size) fun _ => rfl
  | unlink p n => exact Result.untimed_map (s.untimed_unlink clock p n) fun _ => rfl
  | rmdir p n => exact Result.untimed_map (s.untimed_rmdir clock p n) fun _ => rfl
  | rename p n q m => exact Result.untimed_map (s.untimed_rename clock p n q m) fun _ => rfl

variable (s : MetaState)

theorem untimed_lookup (p : UInt64) (n : Bytes) :
    (s.lookup p n).map InodeAttrs.untimed = s.untimed.lookup p n := by
  unfold lookup
  rw [untimed_validateParent, untimed_dentries]
  cases s.validateParent p n with
  | error e => rfl
  | ok _ =>
    cases s.dentries[(p, n)]? with
    | none => rfl
    | some i => exact congrArg Prod.fst (s.untimed_inodeAt i)

theorem untimed_getAttr (i : UInt64) :
    (s.getAttr i).map InodeAttrs.untimed = s.untimed.getAttr i := by
  unfold getAttr
  rw [untimed_inodes]
  cases s.inodes[i]? with
  | none => rfl
  | some a => rfl

theorem untimed_readEntries (i : UInt64) (entries : List (DentryKey × UInt64)) :
    (s.readEntries i entries).map (List.map DirectoryEntry.untimed) =
      s.untimed.readEntries i entries := by
  induction entries with
  | nil => rfl
  | cons e entries ih =>
    obtain ⟨key, c⟩ := e
    simp only [readEntries, untimed_inodes, ← ih]
    split
    · rfl
    · cases s.inodes[c]? with
      | none => rfl
      | some a =>
        simp only [Option.map_some, Outcome.map_map]
        rfl

theorem untimed_readDir (i : UInt64) :
    (s.readDir i).map (List.map DirectoryEntry.untimed) = s.untimed.readDir i := by
  unfold readDir
  rw [untimed_inodes, untimed_dentries, ← untimed_readEntries]
  cases s.inodes[i]? with
  | none => rfl
  | some a =>
    simp only [Option.map_some, InodeAttrs.untimed_type]
    exact apply_ite (Outcome.map (List.map DirectoryEntry.untimed)) _ _ _

theorem untimed_getLayout (i : UInt64) :
    (s.getLayout i).map FileLayout.untimed = s.untimed.getLayout i := by
  unfold getLayout
  rw [untimed_validateRegularFile, untimed_layouts]
  cases s.validateRegularFile i with
  | error e => rfl
  | ok _ =>
    cases s.layouts[i]? with
    | none => rfl
    | some l =>
      have hi := congrArg Prod.fst (s.untimed_inodeAt i)
      simp only [Option.map_some, ← hi, Result.untimed, Outcome.map_map]
      rfl

theorem untimed_listLiveObjects : s.untimed.listLiveObjects = s.listLiveObjects := by
  simp only [listLiveObjects, untimed, Std.ExtTreeMap.toList_map, List.flatMap_map,
    FileLayout.untimed_extents]

/-- Every question about the state gets the same answer from both, the times apart. -/
structure SameAnswers (s t : MetaState) : Prop where
  lookup : ∀ p n, (s.lookup p n).map InodeAttrs.untimed = (t.lookup p n).map InodeAttrs.untimed
  getAttr : ∀ i, (s.getAttr i).map InodeAttrs.untimed = (t.getAttr i).map InodeAttrs.untimed
  readDir : ∀ i, (s.readDir i).map (List.map DirectoryEntry.untimed) =
    (t.readDir i).map (List.map DirectoryEntry.untimed)
  getLayout : ∀ i, (s.getLayout i).map FileLayout.untimed = (t.getLayout i).map FileLayout.untimed
  listLiveObjects : s.listLiveObjects = t.listLiveObjects

theorem SameAnswers.of_untimed {s t : MetaState} (h : s.untimed = t.untimed) :
    s.SameAnswers t where
  lookup p n := by rw [untimed_lookup, untimed_lookup, h]
  getAttr i := by rw [untimed_getAttr, untimed_getAttr, h]
  readDir i := by rw [untimed_readDir, untimed_readDir, h]
  getLayout i := by rw [untimed_getLayout, untimed_getLayout, h]
  listLiveObjects := by rw [← untimed_listLiveObjects, ← untimed_listLiveObjects t, h]

end MetaState

/-- A command of the log and the clock its application reads. -/
structure LogEntry where
  clock : Clock
  command : RaftCommand

/-- The log as one node applies it; the `i`-th command is applied under the `i`-th clock. -/
def LogEntry.stamp (clocks : ℕ → Clock) (log : List RaftCommand) : List LogEntry :=
  log.mapIdx fun i command => ⟨clocks i, command⟩

namespace MetaService

variable [OffsetSort]

def applyEntry (e : LogEntry) (service : MetaService) :
    Outcome RaftCommandResponse × MetaService :=
  service.applyCommand e.clock e.command

/-- Erasing the times commutes with applying a command. -/
theorem untimed_applyCommand (service : MetaService) (clock : Clock) (c : RaftCommand) :
    ((service.applyCommand clock c).1.map RaftCommandResponse.untimed,
      (service.applyCommand clock c).2.untimed) =
    service.untimed.applyCommand .still c.untimed := by
  obtain ⟨command⟩ := c
  cases command with
  | none => rfl
  | some command =>
    have h := service.state.untimed_execute clock command
    simp only [applyCommand, MetaService.untimed, RaftCommand.untimed, Option.map_some, ← h]
    obtain ⟨o, s⟩ := service.state.execute clock command
    cases o with
    | ok reply =>
      cases reply with
      | attrs a => rfl
      | appended r => rfl
    | error e => rfl
    | outOfRange => rfl
    | diverged => rfl

/-- Two services equal up to times answer a command alike and stay equal up to times. -/
theorem applyEntry_congr {service service' : MetaService} {e e' : LogEntry}
    (hs : service.untimed = service'.untimed) (he : e.command = e'.command) :
    (applyEntry e service).1.map RaftCommandResponse.untimed =
        (applyEntry e' service').1.map RaftCommandResponse.untimed ∧
      (applyEntry e service).2.untimed = (applyEntry e' service').2.untimed := by
  have h := service.untimed_applyCommand e.clock e.command
  have h' := service'.untimed_applyCommand e'.clock e'.command
  rw [hs, he, ← h'] at h
  unfold applyEntry
  rw [he]
  exact Prod.mk.inj h

/-- The run lemma: two runs of one list of commands from services equal up to times. -/
theorem run_congr {service service' : MetaService} {entries entries' : List LogEntry}
    (hs : service.untimed = service'.untimed)
    (he : List.Forall₂ (fun e e' : LogEntry => e.command = e'.command) entries entries') :
    List.Forall₂ (fun o o' => Outcome.map RaftCommandResponse.untimed o =
        Outcome.map RaftCommandResponse.untimed o')
      ((trace applyEntry entries service).map Step.output)
      ((trace applyEntry entries' service').map Step.output) ∧
    (final applyEntry entries service).untimed = (final applyEntry entries' service').untimed :=
  simulation (R := fun service service' : MetaService => service.untimed = service'.untimed)
    (fun hs he => applyEntry_congr hs he) he hs

omit [OffsetSort] in
/-- Stamping with other clocks leaves the commands as they are. -/
theorem stamp_forall₂ (clocks clocks' : ℕ → Clock) (log : List RaftCommand) :
    List.Forall₂ (fun e e' : LogEntry => e.command = e'.command)
      (LogEntry.stamp clocks log) (LogEntry.stamp clocks' log) := by
  unfold LogEntry.stamp
  induction log generalizing clocks clocks' with
  | nil => exact .nil
  | cons c log ih =>
    rw [List.mapIdx_cons, List.mapIdx_cons]
    exact .cons rfl (ih (fun i => clocks (i + 1)) fun i => clocks' (i + 1))

omit [OffsetSort] in
theorem fresh_untimed (chunkSize : UInt64) (nowNs nowNs' : Int64) :
    (MetaState.fresh chunkSize nowNs).untimed = (MetaState.fresh chunkSize nowNs').untimed := by
  simp only [MetaState.fresh, MetaState.untimed, TreeMap.map_insertIfNew]
  rfl

end MetaService

/-- Two replays of a log, under any two histories of clock readings, give the same responses and
lead to states that give the same answers, the times apart. -/
theorem replay_agrees [OffsetSort] (chunkSize : UInt64) (nowNs nowNs' : Int64)
    (log : List RaftCommand) (clocks clocks' : ℕ → Clock) :
    let run := trace MetaService.applyEntry (LogEntry.stamp clocks log) ⟨.fresh chunkSize nowNs⟩
    let run' :=
      trace MetaService.applyEntry (LogEntry.stamp clocks' log) ⟨.fresh chunkSize nowNs'⟩
    let last :=
      final MetaService.applyEntry (LogEntry.stamp clocks log) ⟨.fresh chunkSize nowNs⟩
    let last' :=
      final MetaService.applyEntry (LogEntry.stamp clocks' log) ⟨.fresh chunkSize nowNs'⟩
    run.map (fun e => e.output.map RaftCommandResponse.untimed) =
        run'.map (fun e => e.output.map RaftCommandResponse.untimed) ∧
      last.state.SameAnswers last'.state := by
  have hfresh : (MetaService.mk (.fresh chunkSize nowNs)).untimed =
      (MetaService.mk (.fresh chunkSize nowNs')).untimed :=
    congrArg MetaService.mk (MetaService.fresh_untimed chunkSize nowNs nowNs')
  obtain ⟨hout, hstate⟩ :=
    MetaService.run_congr hfresh (MetaService.stamp_forall₂ clocks clocks' log)
  refine ⟨?_, .of_untimed (congrArg MetaService.state hstate)⟩
  rw [List.forall₂_map_left_iff, List.forall₂_map_right_iff] at hout
  have hmap := List.forall₂_map_left_iff.mpr (List.forall₂_map_right_iff.mpr hout)
  rw [List.forall₂_eq_eq_eq] at hmap
  exact hmap

/-- A directory made by two replays whose clocks differ carries different times, in the response
and in the answer to `GetAttr`. -/
theorem replay_times_differ :
    let log : List RaftCommand := [⟨some (.mkdir 1 (ascii "a") 0o755 0 0)⟩]
    let apply := @MetaService.applyEntry .insertion
    let entries := LogEntry.stamp (fun _ _ => 5) log
    let entries' := LogEntry.stamp (fun _ _ => 6) log
    (trace apply entries ⟨.fresh 4096 0⟩).map Step.output ≠
        (trace apply entries' ⟨.fresh 4096 0⟩).map Step.output ∧
      (final apply entries ⟨.fresh 4096 0⟩).state.getAttr 2 ≠
        (final apply entries' ⟨.fresh 4096 0⟩).state.getAttr 2 := by
  decide

end Pulpfs
