import Pulpfs.Foundations.Transition
import Mathlib.Data.List.Infix
import Mathlib.Data.List.Nodup
import Mathlib.Logic.Function.Basic

/-! A state machine replicated by means of a log. Every replica applies the one log at its own
pace and under readings of its own, restarts, and loads snapshots of the others. A write is
answered by the replica it was sent to when this one applies its entry, a read when this one has
caught up with a length the log had after the read began. -/
namespace ReplicatedLog
open Transition

variable {ι σ ε κ ο ρ α π τ : Type*}

/-- `ε` is what one application reads of its environment, `π` a snapshot and `τ` one way of
reading it. -/
structure Machine (σ ε κ ο ρ α π τ : Type*) where
  start : ε → σ
  apply : ε → κ → σ → ο × σ
  answer : ρ → σ → α
  save : σ → π
  /-- Whether the snapshot was loaded, and the state after. -/
  load : τ → π → σ → Bool × σ
  /-- The entry that a new leader adds. -/
  noop : κ

/-- The states that applying a log leads to, under whatever readings. -/
inductive Reaches (m : Machine σ ε κ ο ρ α π τ) : List κ → σ → Prop
  | start (e : ε) : Reaches m [] (m.start e)
  | apply {log : List κ} {s : σ} (e : ε) (k : κ) (h : Reaches m log s) :
    Reaches m (log ++ [k]) (m.apply e k s).2

/-- The state after a log that is applied under one reading throughout. -/
def replay (m : Machine σ ε κ ο ρ α π τ) (e : ε) (log : List κ) : σ :=
  log.foldl (fun s k => (m.apply e k s).2) (m.start e)

theorem reaches_replay (m : Machine σ ε κ ο ρ α π τ) (e : ε) (log : List κ) :
    Reaches m log (replay m e log) := by
  induction log using List.reverseRecOn with
  | nil => exact .start e
  | append_singleton log k ih =>
    have h := Reaches.apply e k ih
    simp only [replay, List.foldl_append, List.foldl_cons, List.foldl_nil]
    exact h

/-- States that `S` relates are answered alike, readings do not matter, and loading the snapshot
of a state reached by a log that fits leaves that state, or fails and changes nothing. -/
structure Lawful (m : Machine σ ε κ ο ρ α π τ) (S : σ → σ → Prop) (O : ο → ο → Prop)
    (A : α → α → Prop) (Fits : List κ → Prop) : Prop where
  start : ∀ e e', S (m.start e) (m.start e')
  apply : ∀ {s t} e e' k, S s t →
    O (m.apply e k s).1 (m.apply e' k t).1 ∧ S (m.apply e k s).2 (m.apply e' k t).2
  answer : ∀ {s t} q, S s t → A (m.answer q s) (m.answer q t)
  load : ∀ {log s}, Fits log → Reaches m log s → ∀ x t,
    m.load x (m.save s) t = (true, s) ∨ m.load x (m.save s) t = (false, t)
  fits : ∀ {log log'}, log <+: log' → Fits log' → Fits log

section Machine

variable {m : Machine σ ε κ ο ρ α π τ} {S : σ → σ → Prop} {O : ο → ο → Prop} {A : α → α → Prop}
  {Fits : List κ → Prop}

/-- Two states that one log leads to are related. -/
theorem Lawful.related (hm : Lawful m S O A Fits) {log : List κ} {s t : σ}
    (hs : Reaches m log s) (ht : Reaches m log t) : S s t := by
  induction hs generalizing t with
  | start e =>
    generalize hlog : ([] : List κ) = log at ht
    cases ht with
    | start e' => exact hm.start e e'
    | apply => simp at hlog
  | @apply log s e k _ ih =>
    generalize hlog : log ++ [k] = log' at ht
    cases ht with
    | start => simp at hlog
    | @apply log' t e' k' ht =>
      obtain ⟨rfl, hk⟩ := List.append_inj' hlog rfl
      obtain rfl : k = k' := List.singleton_inj.mp hk
      exact (hm.apply e e' k (ih ht)).2

end Machine

/-- A place of the log. -/
structure Entry (κ : Type*) where
  call : Option ℕ
  data : κ

structure Replica (σ : Type*) where
  state : σ
  /-- How many entries have been applied. -/
  applied : ℕ

inductive Request (κ ρ : Type*) where
  | write (data : κ)
  | read (question : ρ)

/-- How far a call has come. The lengths that answers carry are those of the log at the time. -/
inductive Stage (ο α : Type*) where
  | pending
  | placed (position : ℕ)
  | confirmed (index : ℕ)
  | caughtUp
  | applied (output : ο) (upto : ℕ)
  | answered (answer : α) (upto : ℕ)
  | failed

/-- `since` is the length of the log at the beginning of the call. -/
structure Call (ι κ ρ ο α : Type*) where
  node : ι
  request : Request κ ρ
  since : ℕ
  stage : Stage ο α

structure Cluster (ι σ κ ρ ο α π : Type*) where
  log : List (Entry κ)
  replicas : ι → Replica σ
  calls : ℕ → Option (Call ι κ ρ ο α)
  snapshots : List (ℕ × π)

inductive Event (ι ε κ ρ τ : Type*) where
  | invoke (id : ℕ) (node : ι) (request : Request κ ρ)
  | place (id : ℕ)
  | elect
  | apply (node : ι) (reading : ε)
  | confirm (id : ℕ)
  | catchUp (id : ℕ)
  | answer (id : ℕ)
  | fail (id : ℕ)
  | save (node : ι)
  | load (node : ι) (snapshot : ℕ) (way : τ)
  | restart (node : ι) (reading : ε)

/-- The call waits for an answer. -/
def Stage.isOpen : Stage ο α → Bool
  | .applied _ _ => false
  | .answered _ _ => false
  | .failed => false
  | _ => true

/-- The stage once the write is in the log. -/
def Stage.place (position : ℕ) : Stage ο α → Stage ο α
  | .pending => .placed position
  | stage => stage

namespace Cluster

variable (c : Cluster ι σ κ ρ ο α π)

/-- What the log says, whoever proposed it. -/
def datas : List κ := c.log.map Entry.data

def fresh (m : Machine σ ε κ ο ρ α π τ) (readings : ι → ε) : Cluster ι σ κ ρ ο α π where
  log := []
  replicas node := ⟨m.start (readings node), 0⟩
  calls := fun _ => none
  snapshots := []

def setCall (id : ℕ) (call : Call ι κ ρ ο α) : Cluster ι σ κ ρ ο α π :=
  { c with calls := Function.update c.calls id (some call) }

variable [DecidableEq ι]

def setReplica (node : ι) (r : Replica σ) : Cluster ι σ κ ρ ο α π :=
  { c with replicas := Function.update c.replicas node r }

/-- The replica that applied an entry answers the call that proposed it, if this was its own. -/
def respond (node : ι) (position : ℕ) (call : Option ℕ) (output : ο) : Cluster ι σ κ ρ ο α π :=
  match call with
  | none => c
  | some id =>
    match c.calls id with
    | none => c
    | some call =>
      match call.stage with
      | .placed p =>
        if call.node = node ∧ p = position then
          c.setCall id { call with stage := .applied output c.log.length }
        else c
      | _ => c

/-- The calls a replica was to answer fail with it. -/
def dropCalls (node : ι) : Cluster ι σ κ ρ ο α π :=
  { c with
    calls := fun id => (c.calls id).map fun call =>
      if call.node = node ∧ call.stage.isOpen then { call with stage := .failed } else call }

/-- An event that cannot take place changes nothing. -/
def step (m : Machine σ ε κ ο ρ α π τ) (event : Event ι ε κ ρ τ) : Cluster ι σ κ ρ ο α π :=
  match event with
  | .invoke id node request =>
    match c.calls id with
    | some _ => c
    | none => c.setCall id ⟨node, request, c.log.length, .pending⟩
  | .place id =>
    match c.calls id with
    | some ⟨node, .write data, since, stage⟩ =>
      -- a proposal may get into the log after its call has failed
      if c.log.any fun e => e.call = some id then c
      else
        { c with
          log := c.log ++ [⟨some id, data⟩]
          calls := Function.update c.calls id
            (some ⟨node, .write data, since, stage.place c.log.length⟩) }
    | _ => c
  | .elect => { c with log := c.log ++ [⟨none, m.noop⟩] }
  | .apply node reading =>
    let r := c.replicas node
    match c.log[r.applied]? with
    | none => c
    | some entry =>
      let result := m.apply reading entry.data r.state
      (c.respond node r.applied entry.call result.1).setReplica node ⟨result.2, r.applied + 1⟩
  | .confirm id =>
    match c.calls id with
    | some ⟨node, .read question, since, .pending⟩ =>
      c.setCall id ⟨node, .read question, since, .confirmed c.log.length⟩
    | _ => c
  | .catchUp id =>
    match c.calls id with
    | some ⟨node, .read question, since, .confirmed index⟩ =>
      if index ≤ (c.replicas node).applied then
        c.setCall id ⟨node, .read question, since, .caughtUp⟩
      else c
    | _ => c
  | .answer id =>
    match c.calls id with
    | some ⟨node, .read question, since, .caughtUp⟩ =>
      let answer := m.answer question (c.replicas node).state
      c.setCall id ⟨node, .read question, since, .answered answer c.log.length⟩
    | _ => c
  | .fail id =>
    match c.calls id with
    | some call => if call.stage.isOpen then c.setCall id { call with stage := .failed } else c
    | none => c
  | .save node =>
    let r := c.replicas node
    { c with snapshots := c.snapshots ++ [(r.applied, m.save r.state)] }
  | .load node snapshot way =>
    let r := c.replicas node
    match c.snapshots[snapshot]? with
    | none => c
    | some (index, data) =>
      -- only a snapshot that is ahead of the replica is given to it
      if r.applied < index then
        let result := m.load way data r.state
        c.setReplica node ⟨result.2, if result.1 then index else r.applied⟩
      else c
  | .restart node reading => (c.dropCalls node).setReplica node ⟨m.start reading, 0⟩

end Cluster

/-- The state is one that the first `n` entries lead to. -/
def Holds (m : Machine σ ε κ ο ρ α π τ) (log : List (Entry κ)) (n : ℕ) (s : σ) : Prop :=
  n ≤ log.length ∧ Reaches m ((log.map Entry.data).take n) s

/-- A write took place at `position`, after the call began and before it was answered. -/
def AppliedAt (m : Machine σ ε κ ο ρ α π τ) (log : List (Entry κ)) (id since upto : ℕ) (data : κ)
    (output : ο) (position : ℕ) : Prop :=
  since ≤ position ∧ position < upto ∧ upto ≤ log.length ∧
    log[position]? = some ⟨some id, data⟩ ∧
    ∃ s e, Holds m log position s ∧ output = (m.apply e data s).1

/-- A read saw the state at `position`, which the log reached while the call was under way. -/
def AnsweredAt (m : Machine σ ε κ ο ρ α π τ) (log : List (Entry κ)) (since upto : ℕ) (question : ρ)
    (answer : α) (position : ℕ) : Prop :=
  since ≤ position ∧ position ≤ upto ∧ upto ≤ log.length ∧
    ∃ s, Holds m log position s ∧ answer = m.answer question s

/-- What the stage of a call says about the log and the replica of the call. -/
def Stage.Sound (m : Machine σ ε κ ο ρ α π τ) (log : List (Entry κ)) (applied id since : ℕ) :
    Request κ ρ → Stage ο α → Prop
  | _, .pending => ∀ e ∈ log, e.call ≠ some id
  | .write data, .placed position => since ≤ position ∧ log[position]? = some ⟨some id, data⟩
  | .read _, .confirmed index => since ≤ index ∧ index ≤ log.length
  | .read _, .caughtUp => since ≤ applied
  | .write data, .applied output upto => ∃ n, AppliedAt m log id since upto data output n
  | .read question, .answered answer upto => ∃ n, AnsweredAt m log since upto question answer n
  | _, .failed => True
  | _, _ => False

/-- An entry is the write of a call or that of a new leader. -/
def Entry.Sound (m : Machine σ ε κ ο ρ α π τ) (calls : ℕ → Option (Call ι κ ρ ο α))
    (entry : Entry κ) : Prop :=
  match entry.call with
  | some id => ∃ call, calls id = some call ∧ call.request = .write entry.data
  | none => entry.data = m.noop

/-- The invariant of a cluster. -/
structure Cluster.Sound (m : Machine σ ε κ ο ρ α π τ) (c : Cluster ι σ κ ρ ο α π) : Prop where
  replicas : ∀ i, Holds m c.log (c.replicas i).applied (c.replicas i).state
  snapshots : ∀ x ∈ c.snapshots, ∃ s, Holds m c.log x.1 s ∧ x.2 = m.save s
  calls : ∀ id call, c.calls id = some call → call.since ≤ c.log.length ∧
    Stage.Sound m c.log (c.replicas call.node).applied id call.since call.request call.stage
  entries : ∀ e ∈ c.log, e.Sound m c.calls
  once : (c.log.filterMap Entry.call).Nodup

theorem Cluster.Sound.unclaimed {m : Machine σ ε κ ο ρ α π τ} {c : Cluster ι σ κ ρ ο α π}
    (h : c.Sound m) {id : ℕ} (hnone : c.calls id = none) : ∀ e ∈ c.log, e.call ≠ some id := by
  intro e he hcall
  have hentry := h.entries e he
  rw [Entry.Sound, hcall] at hentry
  obtain ⟨call, hsome, _⟩ := hentry
  rw [hnone] at hsome
  contradiction

/-- An entry keeps its call when calls only move on. -/
theorem Entry.Sound.calls {m : Machine σ ε κ ο ρ α π τ} {calls calls' : ℕ → Option (Call ι κ ρ ο α)}
    {entry : Entry κ} (h : entry.Sound m calls)
    (hcalls : ∀ id call, calls id = some call →
      ∃ call', calls' id = some call' ∧ call'.request = call.request) : entry.Sound m calls' := by
  unfold Entry.Sound at h ⊢
  split
  next id hid =>
    rw [hid] at h
    obtain ⟨call, hcall, hrequest⟩ := h
    obtain ⟨call', hcall', hsame⟩ := hcalls id call hcall
    exact ⟨call', hcall', hsame.trans hrequest⟩
  next hid =>
    rw [hid] at h
    exact h

section Growth

variable {m : Machine σ ε κ ο ρ α π τ} {log : List (Entry κ)}

theorem Holds.append {n : ℕ} {s : σ} (h : Holds m log n s) (entry : Entry κ) :
    Holds m (log ++ [entry]) n s := by
  refine ⟨h.1.trans (by rw [List.length_append]; omega), ?_⟩
  rw [List.map_append, List.take_append_of_le_length (by rw [List.length_map]; exact h.1)]
  exact h.2

/-- What the next entry makes of a state. -/
theorem Holds.apply {n : ℕ} {s : σ} (h : Holds m log n s) {entry : Entry κ}
    (he : log[n]? = some entry) (e : ε) : Holds m log (n + 1) (m.apply e entry.data s).2 := by
  obtain ⟨hn, rfl⟩ := List.getElem?_eq_some_iff.mp he
  refine ⟨hn, ?_⟩
  have hmap : n < (log.map Entry.data).length := by rw [List.length_map]; exact hn
  rw [← List.take_append_getElem hmap, List.getElem_map]
  exact .apply e _ h.2

theorem getElem?_append_old {n : ℕ} {entry : Entry κ} (h : log[n]? = some entry)
    (entry' : Entry κ) : (log ++ [entry'])[n]? = some entry := by
  rw [List.getElem?_append_left (List.getElem?_eq_some_iff.mp h).1]
  exact h

/-- A stage stays sound when the log grows, if it does not wait for the entry. -/
theorem Stage.Sound.append {applied id since : ℕ} {request : Request κ ρ} {stage : Stage ο α}
    (h : Stage.Sound m log applied id since request stage) {entry : Entry κ}
    (hne : stage = .pending → entry.call ≠ some id) :
    Stage.Sound m (log ++ [entry]) applied id since request stage := by
  have hlength : log.length ≤ (log ++ [entry]).length := by rw [List.length_append]; omega
  cases stage with
  | pending =>
    intro e he
    rcases List.mem_append.mp he with he | he
    · exact h e he
    · rw [List.mem_singleton.mp he]
      exact hne rfl
  | placed p =>
    cases request with
    | write data => exact ⟨h.1, getElem?_append_old h.2 entry⟩
    | read q => exact h.elim
  | confirmed index =>
    cases request with
    | write data => exact h.elim
    | read q => exact ⟨h.1, h.2.trans hlength⟩
  | caughtUp =>
    cases request with
    | write data => exact h.elim
    | read q => exact h
  | applied output upto =>
    cases request with
    | write data =>
      obtain ⟨n, hsince, hlt, hupto, hget, s, e, hs, ho⟩ := h
      exact ⟨n, hsince, hlt, hupto.trans hlength, getElem?_append_old hget entry, s, e,
        hs.append entry, ho⟩
    | read q => exact h.elim
  | answered answer upto =>
    cases request with
    | write data => exact h.elim
    | read q =>
      obtain ⟨n, hsince, hle, hupto, s, hs, ha⟩ := h
      exact ⟨n, hsince, hle, hupto.trans hlength, s, hs.append entry, ha⟩
  | failed => cases request <;> trivial

/-- A stage stays sound when its replica gets ahead, and a stage of a closed call whatever becomes
of it. -/
theorem Stage.Sound.replica {applied applied' id since : ℕ} {request : Request κ ρ}
    {stage : Stage ο α} (h : Stage.Sound m log applied id since request stage)
    (hle : applied ≤ applied' ∨ stage.isOpen = false) :
    Stage.Sound m log applied' id since request stage := by
  cases stage with
  | caughtUp =>
    cases request with
    | write data => exact h.elim
    | read q =>
      rcases hle with hle | hclosed
      · exact le_trans h hle
      · contradiction
  | _ => cases request <;> exact h

end Growth

namespace Cluster

variable {m : Machine σ ε κ ο ρ α π τ} {c : Cluster ι σ κ ρ ο α π}

theorem Sound.fresh (m : Machine σ ε κ ο ρ α π τ) (readings : ι → ε) :
    (Cluster.fresh m readings : Cluster ι σ κ ρ ο α π).Sound m where
  replicas i := ⟨le_rfl, .start (readings i)⟩
  snapshots := by simp [Cluster.fresh]
  calls := by simp [Cluster.fresh]
  entries := by simp [Cluster.fresh]
  once := List.nodup_nil

theorem Sound.setCall (h : c.Sound m) {id : ℕ} {call : Call ι κ ρ ο α}
    (hsince : call.since ≤ c.log.length)
    (hstage : Stage.Sound m c.log (c.replicas call.node).applied id call.since call.request
      call.stage)
    (hrequest : ∀ call', c.calls id = some call' → call.request = call'.request) :
    (c.setCall id call).Sound m where
  replicas := h.replicas
  snapshots := h.snapshots
  calls := by
    intro id' call' hcall
    by_cases hid : id' = id
    · subst hid
      obtain rfl : call = call' := by simpa [Cluster.setCall] using hcall
      exact ⟨hsince, hstage⟩
    · exact h.calls id' call' (by simpa [Cluster.setCall, hid] using hcall)
  entries e he := by
    refine (h.entries e he).calls fun id' call' hcall => ?_
    by_cases hid : id' = id
    · subst hid
      exact ⟨call, by simp [Cluster.setCall], hrequest call' hcall⟩
    · exact ⟨call', by simpa [Cluster.setCall, hid] using hcall, rfl⟩
  once := h.once

/-- A call gets on. -/
theorem Sound.setStage (h : c.Sound m) {id : ℕ} {call : Call ι κ ρ ο α} {stage : Stage ο α}
    (hcall : c.calls id = some call)
    (hstage : Stage.Sound m c.log (c.replicas call.node).applied id call.since call.request stage) :
    (c.setCall id { call with stage }).Sound m :=
  h.setCall (h.calls id call hcall).1 hstage fun _ hcall' => by
    rw [Option.some.inj (hcall.symm.trans hcall')]

/-- An entry of no call is added. -/
theorem Sound.elect (h : c.Sound m) :
    ({ c with log := c.log ++ [⟨none, m.noop⟩] } : Cluster ι σ κ ρ ο α π).Sound m where
  replicas i := (h.replicas i).append _
  snapshots x hx := by
    obtain ⟨s, hs, hdata⟩ := h.snapshots x hx
    exact ⟨s, hs.append _, hdata⟩
  calls id call hcall := by
    obtain ⟨hsince, hstage⟩ := h.calls id call hcall
    refine ⟨?_, hstage.append fun _ => nofun⟩
    rw [List.length_append]
    omega
  entries e he := by
    rcases List.mem_append.mp he with he | he
    · exact h.entries e he
    · rw [List.mem_singleton.mp he]
      rfl
  once := by
    rw [List.filterMap_append]
    simpa using h.once

/-- The entry of a write is added. -/
theorem Sound.place (h : c.Sound m) {id : ℕ} {node : ι} {data : κ} {since : ℕ} {stage : Stage ο α}
    (hcall : c.calls id = some ⟨node, .write data, since, stage⟩)
    (hnew : ∀ e ∈ c.log, e.call ≠ some id) :
    ({ c with
      log := c.log ++ [⟨some id, data⟩]
      calls := Function.update c.calls id
        (some ⟨node, .write data, since, stage.place c.log.length⟩)
      } : Cluster ι σ κ ρ ο α π).Sound m := by
  obtain ⟨hsince, hstage⟩ := h.calls id _ hcall
  refine ⟨fun i => (h.replicas i).append _, ?_, ?_, ?_, ?_⟩
  · intro x hx
    obtain ⟨s, hs, hdata⟩ := h.snapshots x hx
    exact ⟨s, hs.append _, hdata⟩
  · intro id' call' hcall'
    by_cases hid : id' = id
    · subst hid
      obtain rfl := Option.some.inj (by simpa using hcall')
      refine ⟨?_, ?_⟩
      · rw [List.length_append]
        exact hsince.trans (by omega)
      · cases stage with
        | pending => exact ⟨hsince, by simp⟩
        | _ => exact hstage.append nofun
    · obtain ⟨hsince', hstage'⟩ := h.calls id' call' (by simpa [hid] using hcall')
      refine ⟨?_, hstage'.append fun _ heq => hid (Option.some.inj heq).symm⟩
      rw [List.length_append]
      omega
  · intro e he
    rcases List.mem_append.mp he with he | he
    · refine (h.entries e he).calls fun id' call' hcall' => ?_
      by_cases hid : id' = id
      · subst hid
        obtain rfl := Option.some.inj (hcall'.symm.trans hcall)
        exact ⟨_, Function.update_self .., rfl⟩
      · exact ⟨call', by simpa [hid] using hcall', rfl⟩
    · rw [List.mem_singleton.mp he]
      exact ⟨_, Function.update_self .., rfl⟩
  · rw [List.filterMap_append]
    refine List.nodup_append.mpr ⟨h.once, by simp, ?_⟩
    rintro x hx y hy rfl
    obtain ⟨e, he, hx⟩ := List.mem_filterMap.mp hx
    obtain rfl : x = id := by simpa using hy
    exact hnew e he hx

variable [DecidableEq ι]

/-- A replica has moved on, or its open calls are gone. -/
theorem Sound.setReplica (h : c.Sound m) {node : ι} {r : Replica σ}
    (hr : Holds m c.log r.applied r.state)
    (hcalls : (c.replicas node).applied ≤ r.applied ∨
      ∀ id call, c.calls id = some call → call.node = node → call.stage.isOpen = false) :
    (c.setReplica node r).Sound m where
  replicas i := by
    by_cases hi : i = node
    · subst hi
      simpa [Cluster.setReplica] using hr
    · simpa [Cluster.setReplica, hi] using h.replicas i
  snapshots := h.snapshots
  calls id call hcall := by
    obtain ⟨hsince, hstage⟩ := h.calls id call hcall
    refine ⟨hsince, ?_⟩
    by_cases hi : call.node = node
    · have hclosed := hcalls.imp_right fun hclosed => hclosed id call hcall hi
      subst hi
      simpa [Cluster.setReplica] using hstage.replica hclosed
    · simpa [Cluster.setReplica, hi] using hstage
  entries := h.entries
  once := h.once

theorem Sound.dropCalls (h : c.Sound m) (node : ι) : (c.dropCalls node).Sound m where
  replicas := h.replicas
  snapshots := h.snapshots
  calls id call hcall := by
    obtain ⟨call', hcall', rfl⟩ := Option.map_eq_some_iff.mp hcall
    obtain ⟨hsince, hstage⟩ := h.calls id call' hcall'
    split
    · refine ⟨hsince, ?_⟩
      cases call'.request <;> trivial
    · exact ⟨hsince, hstage⟩
  entries e he := (h.entries e he).calls fun id call hcall => by
    refine ⟨_, Option.map_eq_some_iff.mpr ⟨call, hcall, rfl⟩, ?_⟩
    split <;> rfl
  once := h.once

theorem dropCalls_closed {node : ι} {id : ℕ} {call : Call ι κ ρ ο α}
    (hcall : (c.dropCalls node).calls id = some call) (hnode : call.node = node) :
    call.stage.isOpen = false := by
  obtain ⟨call', _, rfl⟩ := Option.map_eq_some_iff.mp hcall
  split
  next => rfl
  next hopen =>
    rw [if_neg hopen] at hnode
    simpa [hnode] using hopen

/-- The replica answers with what its state gives for the entry. -/
theorem Sound.respond (h : c.Sound m) {node : ι} {position : ℕ} {entry : Entry κ} {s : σ} {e : ε}
    (hs : Holds m c.log position s) (hget : c.log[position]? = some entry) :
    (c.respond node position entry.call (m.apply e entry.data s).1).Sound m := by
  unfold Cluster.respond
  split
  next => exact h
  next id hid =>
    split
    next => exact h
    next call hcall =>
      split
      next p hplaced =>
        split
        next hown =>
          obtain ⟨hnode, rfl⟩ := hown
          obtain ⟨_, hstage⟩ := h.calls id call hcall
          refine h.setStage hcall ?_
          rw [hplaced] at hstage
          cases hrequest : call.request with
          | read q => rw [hrequest] at hstage; exact hstage.elim
          | write data =>
            rw [hrequest] at hstage
            obtain rfl : entry = ⟨some id, data⟩ := Option.some.inj (hget.symm.trans hstage.2)
            have hlt : p < c.log.length := (List.getElem?_eq_some_iff.mp hget).1
            exact ⟨p, hstage.1, hlt, le_rfl, hget, s, e, hs, rfl⟩
        next => exact h
      next => exact h

theorem respond_log (c : Cluster ι σ κ ρ ο α π) (node : ι) (position : ℕ) (call : Option ℕ)
    (output : ο) : (c.respond node position call output).log = c.log ∧
      (c.respond node position call output).replicas = c.replicas := by
  unfold Cluster.respond
  split
  next => exact ⟨rfl, rfl⟩
  next =>
    split
    next => exact ⟨rfl, rfl⟩
    next =>
      split
      next =>
        split
        next => exact ⟨rfl, rfl⟩
        next => exact ⟨rfl, rfl⟩
      next => exact ⟨rfl, rfl⟩

/-- An entry is added to the log, or none. -/
theorem step_log (c : Cluster ι σ κ ρ ο α π) (event : Event ι ε κ ρ τ) :
    (c.step m event).log = c.log ∨ ∃ entry, (c.step m event).log = c.log ++ [entry] := by
  have hsame : c.log = c.log ∨ ∃ entry, c.log = c.log ++ [entry] := .inl rfl
  unfold Cluster.step
  cases event with
  | place id =>
    dsimp only
    split
    next =>
      split
      next => exact hsame
      next => exact .inr ⟨_, rfl⟩
    next => exact hsame
  | elect => exact .inr ⟨_, rfl⟩
  | apply node reading =>
    dsimp only
    split
    next => exact hsame
    next =>
      simp only [Cluster.setReplica, (respond_log c _ _ _ _).1]
      exact .inl trivial
  | catchUp id =>
    dsimp only
    split
    next => split <;> exact hsame
    next => exact hsame
  | fail id =>
    dsimp only
    split
    next => split <;> exact hsame
    next => exact hsame
  | load node snapshot way =>
    dsimp only
    split
    next => exact hsame
    next => split <;> exact hsame
  | invoke id node request => dsimp only; split <;> exact hsame
  | confirm id => dsimp only; split <;> exact hsame
  | answer id => dsimp only; split <;> exact hsame
  | save node => exact hsame
  | restart node reading => exact hsame

/-- The log only grows. -/
theorem step_extends (c : Cluster ι σ κ ρ ο α π) (event : Event ι ε κ ρ τ) :
    c.log <+: (c.step m event).log := by
  rcases c.step_log (m := m) event with h | ⟨entry, h⟩
  · rw [h]
  · rw [h]
    exact List.prefix_append _ _

variable {S : σ → σ → Prop} {O : ο → ο → Prop} {A : α → α → Prop} {Fits : List κ → Prop}

/-- The step lemma. -/
theorem Sound.step (hm : Lawful m S O A Fits) (h : c.Sound m) (event : Event ι ε κ ρ τ)
    (hfits : Fits c.datas) : (c.step m event).Sound m := by
  cases event with
  | invoke id node request =>
    unfold Cluster.step
    dsimp only
    split
    next => exact h
    next hnone =>
      refine h.setCall le_rfl (by cases request <;> exact h.unclaimed hnone) fun call' hcall' => ?_
      rw [hnone] at hcall'
      contradiction
  | place id =>
    unfold Cluster.step
    dsimp only
    split
    next node data since stage hcall =>
      split
      next => exact h
      next hnew => exact h.place hcall (by simpa using hnew)
    next => exact h
  | elect => exact h.elect
  | apply node reading =>
    unfold Cluster.step
    dsimp only
    split
    next => exact h
    next entry hget =>
      have hlog := respond_log c node (c.replicas node).applied entry.call
        (m.apply reading entry.data (c.replicas node).state).1
      refine (h.respond (h.replicas node) hget).setReplica ?_ (.inl ?_)
      · rw [hlog.1]
        exact (h.replicas node).apply hget reading
      · rw [hlog.2]
        exact Nat.le_succ _
  | confirm id =>
    unfold Cluster.step
    dsimp only
    split
    next node question since hcall =>
      exact h.setStage hcall ⟨(h.calls id _ hcall).1, le_rfl⟩
    next => exact h
  | catchUp id =>
    unfold Cluster.step
    dsimp only
    split
    next node question since index hcall =>
      split
      next hle =>
        exact h.setStage hcall (le_trans (h.calls id _ hcall).2.1 hle)
      next => exact h
    next => exact h
  | answer id =>
    unfold Cluster.step
    dsimp only
    split
    next node question since hcall =>
      have hr := h.replicas node
      exact h.setStage hcall ⟨_, (h.calls id _ hcall).2, hr.1, le_rfl, _, hr, rfl⟩
    next => exact h
  | fail id =>
    unfold Cluster.step
    dsimp only
    split
    next call hcall =>
      split
      next => exact h.setStage hcall (by cases call.request <;> trivial)
      next => exact h
    next => exact h
  | save node =>
    refine ⟨h.replicas, ?_, h.calls, h.entries, h.once⟩
    intro x hx
    rcases List.mem_append.mp hx with hx | hx
    · exact h.snapshots x hx
    · rw [List.mem_singleton.mp hx]
      exact ⟨_, h.replicas node, rfl⟩
  | load node snapshot way =>
    unfold Cluster.step
    dsimp only
    split
    next => exact h
    next index data hget =>
      split
      next hlt =>
        obtain ⟨s, hs, rfl⟩ := h.snapshots _ (List.mem_of_getElem? hget)
        have hcut : Fits (c.datas.take index) := hm.fits (List.take_prefix _ _) hfits
        rcases hm.load hcut hs.2 way (c.replicas node).state with hload | hload
        · rw [hload]
          exact h.setReplica hs (.inl hlt.le)
        · rw [hload]
          exact h.setReplica (h.replicas node) (.inl le_rfl)
      next => exact h
  | restart node reading =>
    refine (h.dropCalls node).setReplica ⟨Nat.zero_le _, .start reading⟩ (.inr ?_)
    exact fun id call hcall hnode => dropCalls_closed hcall hnode

/-- A step as one of a run; nothing is put out but what the calls record. -/
def act (m : Machine σ ε κ ο ρ α π τ) (event : Event ι ε κ ρ τ) (c : Cluster ι σ κ ρ ο α π) :
    Unit × Cluster ι σ κ ρ ο α π := ((), c.step m event)

/-- The run lemma. -/
theorem sound_run (hm : Lawful m S O A Fits) (readings : ι → ε) (events : List (Event ι ε κ ρ τ))
    (hfits : Fits (final (act m) events (Cluster.fresh m readings)).datas) :
    (final (act m) events (Cluster.fresh m readings)).Sound m := by
  induction events using List.reverseRecOn with
  | nil => exact .fresh m readings
  | append_singleton events event ih =>
    rw [final_append] at hfits ⊢
    have hbefore := hm.fits ((step_extends _ event).map Entry.data) hfits
    exact (ih hbefore).step hm event hbefore

/-- All requests have a property, those in the log with them. -/
structure Asks (m : Machine σ ε κ ο ρ α π τ) (P : ℕ → Request κ ρ → Prop)
    (c : Cluster ι σ κ ρ ο α π) : Prop where
  calls : ∀ id call, c.calls id = some call → P id call.request
  entries : ∀ e ∈ c.log, e.data = m.noop ∨ ∃ id, P id (.write e.data)

section Asks

variable {P : ℕ → Request κ ρ → Prop}

omit [DecidableEq ι] in
theorem Asks.setCall (h : c.Asks m P) {id : ℕ} {call : Call ι κ ρ ο α} (hcall : P id call.request) :
    (c.setCall id call).Asks m P := by
  refine ⟨fun id' call' hcall' => ?_, h.entries⟩
  by_cases hid : id' = id
  · subst hid
    obtain rfl : call = call' := by simpa [Cluster.setCall] using hcall'
    exact hcall
  · exact h.calls id' call' (by simpa [Cluster.setCall, hid] using hcall')

omit [DecidableEq ι] in
theorem Asks.entry (h : c.Asks m P) {entry : Entry κ}
    (hentry : entry.data = m.noop ∨ ∃ id, P id (.write entry.data)) :
    ({ c with log := c.log ++ [entry] } : Cluster ι σ κ ρ ο α π).Asks m P := by
  refine ⟨h.calls, fun e he => ?_⟩
  rcases List.mem_append.mp he with he | he
  · exact h.entries e he
  · rwa [List.mem_singleton.mp he]

omit [DecidableEq ι] in
theorem Asks.replicas (h : c.Asks m P) (replicas : ι → Replica σ) (snapshots : List (ℕ × π)) :
    ({ c with replicas, snapshots } : Cluster ι σ κ ρ ο α π).Asks m P := ⟨h.calls, h.entries⟩

theorem Asks.respond (h : c.Asks m P) (node : ι) (position : ℕ) (call : Option ℕ) (output : ο) :
    (c.respond node position call output).Asks m P := by
  unfold Cluster.respond
  split
  next => exact h
  next =>
    split
    next => exact h
    next call hcall =>
      split
      next =>
        split
        next => exact h.setCall (h.calls _ call hcall)
        next => exact h
      next => exact h

theorem Asks.dropCalls (h : c.Asks m P) (node : ι) : (c.dropCalls node).Asks m P := by
  refine ⟨fun id call hcall => ?_, h.entries⟩
  obtain ⟨call', hcall', rfl⟩ := Option.map_eq_some_iff.mp hcall
  split
  · exact h.calls id call' hcall'
  · exact h.calls id call' hcall'

theorem Asks.step (h : c.Asks m P) {event : Event ι ε κ ρ τ}
    (hevent : ∀ id node request, event = .invoke id node request → P id request) :
    (c.step m event).Asks m P := by
  cases event with
  | invoke id node request =>
    unfold Cluster.step
    dsimp only
    split
    next => exact h
    next => exact h.setCall (hevent id node request rfl)
  | place id =>
    unfold Cluster.step
    dsimp only
    split
    next node data since stage hcall =>
      split
      next => exact h
      next =>
        have hrequest := h.calls id _ hcall
        refine (h.setCall ?_).entry ?_
        · exact hrequest
        · exact .inr ⟨id, hrequest⟩
    next => exact h
  | elect => exact h.entry (.inl rfl)
  | apply node reading =>
    unfold Cluster.step
    dsimp only
    split
    next => exact h
    next => exact (h.respond _ _ _ _).replicas _ _
  | confirm id =>
    unfold Cluster.step
    dsimp only
    split
    next hcall =>
      have hrequest := h.calls id _ hcall
      exact h.setCall hrequest
    next => exact h
  | catchUp id =>
    unfold Cluster.step
    dsimp only
    split
    next hcall =>
      have hrequest := h.calls id _ hcall
      split
      next => exact h.setCall hrequest
      next => exact h
    next => exact h
  | answer id =>
    unfold Cluster.step
    dsimp only
    split
    next hcall =>
      have hrequest := h.calls id _ hcall
      exact h.setCall hrequest
    next => exact h
  | fail id =>
    unfold Cluster.step
    dsimp only
    split
    next call hcall =>
      split
      next => exact h.setCall (h.calls id call hcall)
      next => exact h
    next => exact h
  | save node => exact h.replicas _ _
  | load node snapshot way =>
    unfold Cluster.step
    dsimp only
    split
    next => exact h
    next =>
      split
      next => exact h.replicas _ _
      next => exact h
  | restart node reading => exact (h.dropCalls node).replicas _ _

theorem asks_run (readings : ι → ε) (events : List (Event ι ε κ ρ τ))
    (hevents : ∀ id node request, .invoke id node request ∈ events → P id request) :
    (final (act m) events (Cluster.fresh m readings)).Asks m P := by
  induction events using List.reverseRecOn with
  | nil => exact ⟨by simp [Cluster.fresh], by simp [Cluster.fresh]⟩
  | append_singleton events event ih =>
    rw [final_append]
    refine (ih fun id node request h => hevents id node request (List.mem_append_left _ h)).step ?_
    rintro id node request rfl
    exact hevents id node request (by simp)

end Asks

/-- An event adds at most one entry. -/
theorem log_length_run (readings : ι → ε) (events : List (Event ι ε κ ρ τ)) :
    (final (act m) events (Cluster.fresh m readings)).log.length ≤ events.length := by
  induction events using List.reverseRecOn with
  | nil => exact Nat.zero_le _
  | append_singleton events event ih =>
    rw [final_append, List.length_append, List.length_singleton]
    show ((final (act m) events (Cluster.fresh m readings)).step m event).log.length ≤ _
    rcases step_log (m := m) (final (act m) events (Cluster.fresh m readings)) event with h | ⟨_, h⟩
    · rw [h]
      omega
    · rw [h, List.length_append, List.length_singleton]
      omega

end Cluster

end ReplicatedLog
