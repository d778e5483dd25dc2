import Pulpfs.Meta.Tree
import Pulpfs.Foundations.Transition

/-! Over every run of calls from a fresh state the entries form a tree and no inode number is
handed out twice. So the walk of `IsAncestor` comes to the root before it has seen more inodes
than there are. -/
namespace Pulpfs
open RootedTree Relation Transition

/-- The entries form a tree over the stored inodes, read directly off the maps. -/
structure TreeInvariant (s : MetaState) : Prop where
  root : ∃ a, s.inodes[kRootInodeId]? = some a ∧ a.type = .directory
  root_unnamed : ∀ k : DentryKey, s.dentries[k]? ≠ some kRootInodeId
  parent : ∀ (k : DentryKey) c, s.dentries[k]? = some c →
    ∃ a, s.inodes[k.1]? = some a ∧ a.type = .directory
  child : ∀ (k : DentryKey) c, s.dentries[k]? = some c → ∃ a, s.inodes[c]? = some a
  one_entry : ∀ i (a : InodeAttrs), s.inodes[i]? = some a → i ≠ kRootInodeId →
    ∃! k : DentryKey, s.dentries[k]? = some i
  reaches : ∀ i (a : InodeAttrs), s.inodes[i]? = some a →
    ReflTransGen (fun c p => ∃ n : Bytes, s.dentries[(p, n)]? = some c) i kRootInodeId
  stored : ∀ i (a : InodeAttrs), s.inodes[i]? = some a → a.inodeId = i
  below : ∀ i (a : InodeAttrs), s.inodes[i]? = some a → i < s.nextInodeId

/-- The number a command handed out, if it created a node. -/
def handedOut : Command → Outcome Reply → Option UInt64
  | .mkdir _ _ _ _ _, .ok (.attrs a) => some a.inodeId
  | .createFile _ _ _ _ _, .ok (.attrs a) => some a.inodeId
  | _, _ => none

namespace MetaState

/-- The numbers a run of calls hands out, in order. -/
def createdIds [OffsetSort] (calls : List Call) (s : MetaState) : List UInt64 :=
  (trace call calls s).filterMap fun e => handedOut e.input.command e.output

@[simp] theorem createdIds_nil [OffsetSort] (s : MetaState) : createdIds [] s = [] := rfl

theorem createdIds_cons [OffsetSort] (c : Call) (calls : List Call) (s : MetaState) :
    createdIds (c :: calls) s =
      (handedOut c.command (call c s).1).toList ++ createdIds calls (call c s).2 := by
  unfold createdIds
  rw [trace_cons, List.filterMap_cons]
  cases h : handedOut c.command (call c s).1 with
  | none => simp only [Option.toList_none, List.nil_append]
  | some i => simp only [Option.toList_some, List.singleton_append]

theorem fresh_names (chunkSize : UInt64) (nowNs : Int64) :
    (fresh chunkSize nowNs).names = .initial := by
  have hnone : (∅ : Std.ExtTreeMap UInt64 InodeAttrs)[kRootInodeId]? = none := by simp
  simp only [fresh, names, Namespace.initial, Namespace.mk.injEq, true_and]
  constructor
  · funext i
    rw [congrFun (TreeMap.get_insertIfNew _ hnone) i]
    by_cases hi : i = kRootInodeId
    · simp [hi]
    · simp [hi]
  · funext k
    simp

theorem fresh_wellFormed (chunkSize : UInt64) (nowNs : Int64) :
    (fresh chunkSize nowNs).names.WellFormed :=
  fresh_names chunkSize nowNs ▸ Namespace.initial_wellFormed

/-- A run from a fresh state that creates fewer than `2 ^ 64 - 2` nodes has numbers to spare. -/
theorem fresh_room [OffsetSort] {chunkSize : UInt64} {nowNs : Int64} {calls : List Call}
    (room : (createdIds calls (.fresh chunkSize nowNs)).length < 2 ^ 64 - 2) :
    (fresh chunkSize nowNs).nextInodeId.toNat +
      (createdIds calls (.fresh chunkSize nowNs)).length < 2 ^ 64 := by
  have hstart : (fresh chunkSize nowNs).nextInodeId.toNat = 2 := rfl
  omega

/-- The walk takes no more rounds than there are inodes. -/
theorem ancestorLoop_size {s : MetaState} (h : s.names.WellFormed) (a : UInt64) {i : UInt64}
    (hi : i ∈ s.inodes) :
    ∃ l, Ascent s.names.entry kRootInodeId i l ∧
      s.ancestorLoop a s.inodes.size i = some (decide (a = i ∨ a ∈ l)) := by
  have hnode := mem_inodes.mp hi
  obtain ⟨l, hl⟩ := h.tree.exists_ascent hnode
  have hlen : l.length < s.inodes.keys.length :=
    h.tree.ascent_length_lt hl hnode fun j hj => Std.ExtTreeMap.mem_keys.mpr (mem_inodes.mpr hj)
  rw [Std.ExtTreeMap.length_keys] at hlen
  exact ⟨l, hl, ancestorLoop_ascent h a hl hlen⟩

theorem treeInvariant_of_wellFormed {s : MetaState} (h : s.names.WellFormed) :
    TreeInvariant s where
  root := names_isDir.mp h.tree.root_dir
  root_unnamed := h.tree.root_unnamed
  parent _ _ hk := names_isDir.mp (h.tree.parent_dir hk)
  child _ _ hk := names_isNode.mp (h.tree.child_node hk)
  one_entry i a hi hr := h.tree.existsUnique_entry (names_isNode.mpr ⟨a, hi⟩) hr
  reaches i a hi := h.tree.reaches (names_isNode.mpr ⟨a, hi⟩)
  stored i a hi := h.stored i (a.inodeId, a.type) (by simp only [names, hi, Option.map_some])
  below i a hi := UInt64.lt_iff_toNat_lt.mpr (h.below i (names_isNode.mpr ⟨a, hi⟩))

section Run

variable [OffsetSort] {s : MetaState}

/-- A call returned after steps of the machine of names, and handed out the next number or
none. -/
def NamesStep (s : MetaState) (c : Command) (r : Result Reply) : Prop :=
  r.1.Returns ∧ ReflTransGen Namespace.Step s.names r.2.names ∧
    (handedOut c r.1 = none ∧ r.2.nextInodeId = s.nextInodeId ∨
      handedOut c r.1 = some s.nextInodeId ∧ r.2.nextInodeId = s.nextInodeId + 1)

omit [OffsetSort] in
/-- A call that leaves the names alone. -/
theorem NamesStep.quiet {c : Command} {o : Outcome Reply} {s' : MetaState} (ho : o.Returns)
    (hn : s'.names = s.names) (hc : handedOut c o = none) : NamesStep s c (o, s') :=
  ⟨ho, hn ▸ .refl, .inl ⟨hc, congrArg Namespace.next hn⟩⟩

omit [OffsetSort] in
theorem createNode_step {clock : Clock} {p : UInt64} {n : Bytes} {type : InodeType}
    {mode uid gid : UInt32} {c : Command} (h : s.names.WellFormed)
    (hc : ∀ a, handedOut c (.ok (.attrs a)) = some a.inodeId)
    (he : ∀ e, handedOut c (.error e) = none)
    (room : handedOut c ((s.createNode clock p n type mode uid gid).map .attrs).1 ≠ none →
      s.nextInodeId.toNat + 1 < 2 ^ 64) :
    NamesStep s c ((s.createNode clock p n type mode uid gid).map .attrs) := by
  rcases createNode_names clock p n type mode uid gid h with
    ⟨e, hr⟩ | ⟨a, s', hr, hid, hdir, free, hn⟩
  · rw [hr]
    exact .quiet trivial rfl (he e)
  · rw [hr] at room ⊢
    have hroom := room (by
      show handedOut c (.ok (.attrs a)) ≠ none
      rw [hc a]
      exact Option.some_ne_none _)
    refine ⟨trivial, ?_, .inr ⟨(hc a).trans (congrArg some hid), congrArg Namespace.next hn⟩⟩
    show ReflTransGen Namespace.Step s.names s'.names
    rw [hn]
    exact .single (.create type hdir free hroom)

omit [OffsetSort] in
theorem remove_step {r : Result InodeAttrs} {c : Command} {p : UInt64} {n : Bytes}
    (hc : ∀ o, handedOut c o = none)
    (h : (∃ e, r = (.error e, s)) ∨ ∃ a s' id, r = (.ok a, s') ∧
      s.names.entry (p, n) = some id ∧ (∀ m, s.names.entry (id, m) = none) ∧
      s'.names = s.names.remove (p, n) id) : NamesStep s c (r.map .attrs) := by
  rcases h with ⟨e, rfl⟩ | ⟨a, s', id, rfl, hk, leaf, hn⟩
  · exact .quiet trivial rfl (hc _)
  · refine ⟨trivial, ?_, .inl ⟨hc _, congrArg Namespace.next hn⟩⟩
    show ReflTransGen Namespace.Step s.names s'.names
    rw [hn]
    exact .single (.remove hk leaf)

theorem execute_names (clock : Clock) (c : Command) (h : s.names.WellFormed)
    (room : handedOut c (s.execute clock c).1 ≠ none → s.nextInodeId.toNat + 1 < 2 ^ 64) :
    NamesStep s c (s.execute clock c) := by
  cases c with
  | mkdir p n mode uid gid => exact createNode_step h (fun _ => rfl) (fun _ => rfl) room
  | createFile p n mode uid gid => exact createNode_step h (fun _ => rfl) (fun _ => rfl) room
  | unlink p n => exact remove_step (fun _ => rfl) (unlink_names clock p n h)
  | rmdir p n => exact remove_step (fun _ => rfl) (rmdir_names clock p n h)
  | rename p n q m =>
    rcases rename_names clock p n q m h with ⟨e, hr⟩ | ⟨a, s', hr, hnext, hsteps⟩
    · simp only [execute, hr]
      exact .quiet trivial rfl rfl
    · simp only [execute, hr]
      exact ⟨trivial, hsteps, .inl ⟨rfl, hnext⟩⟩
  | setAttr a =>
    obtain ⟨o, s', hr, ho, hn⟩ := setAttr_names (s := s) clock a
    simp only [execute, hr]
    exact .quiet (ho.map _) hn rfl
  | commitWrite i v es =>
    obtain ⟨o, s', hr, ho, hn⟩ := (s.commitWrite_wrote clock i v es).names
    simp only [execute, hr]
    exact .quiet (ho.map _) hn rfl
  | appendWrite i v es =>
    obtain ⟨o, s', hr, ho, hn⟩ := (s.appendWrite_wrote clock i v es).names
    simp only [execute, hr]
    exact .quiet (ho.map _) hn rfl
  | truncate i size =>
    obtain ⟨o, s', hr, ho, hn⟩ := (s.truncate_wrote clock i size).names
    simp only [execute, hr]
    exact .quiet (ho.map _) hn rfl

/-- One call of a run that does not run out of numbers. -/
theorem call_names {c : Call} {calls : List Call} (h : s.names.WellFormed)
    (room : s.nextInodeId.toNat + (createdIds (c :: calls) s).length < 2 ^ 64) :
    NamesStep s c.command (s.call c) ∧ (s.call c).2.names.WellFormed ∧
      (s.call c).2.nextInodeId.toNat + (createdIds calls (s.call c).2).length =
        s.nextInodeId.toNat + (createdIds (c :: calls) s).length := by
  rw [createdIds_cons] at room ⊢
  unfold call at room ⊢
  have hcall := execute_names c.clock c.command h (by
    intro hne
    obtain ⟨i, hi⟩ := Option.ne_none_iff_exists'.mp hne
    simp only [hi, Option.toList_some, List.length_append, List.length_singleton] at room
    omega)
  refine ⟨hcall, h.steps hcall.2.1, ?_⟩
  rcases hcall.2.2 with ⟨hnone, hnext⟩ | ⟨hsome, hnext⟩
  · rw [hnone, hnext]
    rfl
  · rw [hsome, Option.toList_some, List.length_append, List.length_singleton] at room ⊢
    rw [hnext, UInt64.toNat_add, Nat.mod_eq_of_lt (by
      show s.nextInodeId.toNat + 1 < 2 ^ 64
      omega)]
    show s.nextInodeId.toNat + 1 + _ = _
    omega

/-- The run lemma, from any tree, with a property `J` that each call from a tree to a tree
keeps. -/
theorem run_names_and {J : MetaState → Prop}
    (hstep : ∀ (s : MetaState) (c : Call), s.names.WellFormed → NamesStep s c.command (s.call c) →
      (s.call c).2.names.WellFormed → J s → J (s.call c).2) (calls : List Call)
    (h : s.names.WellFormed) (hs : J s)
    (room : s.nextInodeId.toNat + (createdIds calls s).length < 2 ^ 64) :
    (final call calls s).names.WellFormed ∧ J (final call calls s) ∧
      (createdIds calls s).map UInt64.toNat =
        List.range' s.nextInodeId.toNat (createdIds calls s).length ∧
      ∀ e ∈ trace call calls s, e.output.Returns := by
  induction calls generalizing s with
  | nil =>
    exact ⟨h, hs, rfl, by simp only [trace_nil, List.not_mem_nil, false_implies, implies_true]⟩
  | cons c calls ih =>
    obtain ⟨hnames, hw, hroom⟩ := call_names h room
    obtain ⟨hf, hj, hr, ho⟩ := ih hw (hstep s c h hnames hw hs) (hroom ▸ room)
    obtain ⟨hret, -, hnext⟩ := hnames
    rw [final_cons, trace_cons, List.forall_mem_cons]
    refine ⟨hf, hj, ?_, hret, ho⟩
    rw [createdIds_cons] at hroom ⊢
    rcases hnext with ⟨hnone, hnext⟩ | ⟨hsome, hnext⟩
    · rw [hnone, Option.toList_none, List.nil_append, hr, hnext]
    · rw [hsome, Option.toList_some, List.length_append, List.length_singleton] at hroom
      have hval : (s.call c).2.nextInodeId.toNat = s.nextInodeId.toNat + 1 := by omega
      rw [hsome, Option.toList_some, List.map_append, hr, hval, List.length_append,
        List.length_singleton, Nat.add_comm 1, List.range'_succ]
      rfl

/-- The run lemma for the names alone. -/
theorem run_names (calls : List Call) (h : s.names.WellFormed)
    (room : s.nextInodeId.toNat + (createdIds calls s).length < 2 ^ 64) :
    (final call calls s).names.WellFormed ∧
      (createdIds calls s).map UInt64.toNat =
        List.range' s.nextInodeId.toNat (createdIds calls s).length ∧
      ∀ e ∈ trace call calls s, e.output.Returns := by
  obtain ⟨hf, -, hr, ho⟩ := run_names_and (J := fun _ => True) (fun _ _ _ _ _ _ => trivial) calls h
    trivial room
  exact ⟨hf, hr, ho⟩

theorem wellFormed_run (chunkSize : UInt64) (nowNs : Int64) (calls : List Call)
    (room : (createdIds calls (.fresh chunkSize nowNs)).length < 2 ^ 64 - 2) :
    (final call calls (.fresh chunkSize nowNs)).names.WellFormed :=
  (run_names calls (fresh_wellFormed chunkSize nowNs) (fresh_room room)).1

end Run

end MetaState

/-- In every run from a fresh state that creates fewer than `2 ^ 64 - 2` nodes the entries form
a tree and the numbers handed out, with that of the root, are distinct. -/
theorem treeInvariant_of_run [OffsetSort] (chunkSize : UInt64) (nowNs : Int64)
    (calls : List Call)
    (room : (MetaState.createdIds calls (.fresh chunkSize nowNs)).length < 2 ^ 64 - 2) :
    TreeInvariant (final MetaState.call calls (.fresh chunkSize nowNs)) ∧
      (kRootInodeId :: MetaState.createdIds calls (.fresh chunkSize nowNs)).Nodup ∧
      ∀ e ∈ trace MetaState.call calls (.fresh chunkSize nowNs), e.output.Returns := by
  obtain ⟨hw, hids, hret⟩ := MetaState.run_names calls
    (MetaState.fresh_wellFormed chunkSize nowNs) (MetaState.fresh_room room)
  refine ⟨MetaState.treeInvariant_of_wellFormed hw, ?_, hret⟩
  rw [show (MetaState.fresh chunkSize nowNs).nextInodeId.toNat = 2 from rfl] at hids
  have hnodup : (kRootInodeId.toNat ::
      (MetaState.createdIds calls (.fresh chunkSize nowNs)).map UInt64.toNat).Nodup := by
    rw [hids, List.nodup_cons]
    refine ⟨?_, List.nodup_range'⟩
    intro hmem
    have hle := (List.mem_range'_1.mp hmem).1
    exact absurd hle (by decide)
  exact List.Nodup.of_map UInt64.toNat hnodup

/-- Two directories, one moved into the other; moving the other one back below it is refused. -/
def moveCalls : List Call :=
  [⟨fun _ => 5, .mkdir 1 (ascii "a") 0o755 0 0⟩, ⟨fun _ => 6, .mkdir 1 (ascii "b") 0o755 0 0⟩,
    ⟨fun _ => 7, .rename 1 (ascii "b") 2 (ascii "c")⟩,
    ⟨fun _ => 8, .rename 1 (ascii "a") 3 (ascii "d")⟩]

theorem treeInvariant_of_moveCalls :
    let run := final (@MetaState.call .insertion) moveCalls (.fresh 4096 0)
    let ids := @MetaState.createdIds .insertion moveCalls (.fresh 4096 0)
    TreeInvariant run ∧ (kRootInodeId :: ids).Nodup ∧
      ∀ e ∈ trace (@MetaState.call .insertion) moveCalls (.fresh 4096 0), e.output.Returns :=
  @treeInvariant_of_run .insertion 4096 0 moveCalls (by decide)

/-- In every state of such a run the loop of `IsAncestor` returns within as many rounds as there
are inodes, and says whether the one inode is the other or stands on the chain of parents from
there up to the root. -/
theorem ancestorWalk_of_run [OffsetSort] (chunkSize : UInt64) (nowNs : Int64) (calls : List Call)
    (room : (MetaState.createdIds calls (.fresh chunkSize nowNs)).length < 2 ^ 64 - 2)
    (ancestor inode : UInt64)
    (hi : inode ∈ (final MetaState.call calls (.fresh chunkSize nowNs)).inodes) :
    let s := final MetaState.call calls (.fresh chunkSize nowNs)
    ∃ chain b, Ascent s.names.entry kRootInodeId inode chain ∧
      s.ancestorLoop ancestor s.inodes.size inode = some b ∧
      s.isAncestor ancestor inode = some b ∧
      (b = true ↔ ancestor = inode ∨ ancestor ∈ chain) := by
  have hw := MetaState.wellFormed_run chunkSize nowNs calls room
  obtain ⟨chain, hchain, hloop⟩ := MetaState.ancestorLoop_size hw ancestor hi
  exact ⟨chain, _, hchain, hloop, MetaState.isAncestor_of_ancestorLoop _ hloop,
    decide_eq_true_iff⟩

theorem ancestorWalk_of_moveCalls :
    let s := final (@MetaState.call .insertion) moveCalls (.fresh 4096 0)
    ∃ chain b, Ascent s.names.entry kRootInodeId 3 chain ∧
      s.ancestorLoop 2 s.inodes.size 3 = some b ∧ s.isAncestor 2 3 = some b ∧
      (b = true ↔ (2 : UInt64) = 3 ∨ (2 : UInt64) ∈ chain) :=
  @ancestorWalk_of_run .insertion 4096 0 moveCalls (by decide) 2 3 (by decide)

end Pulpfs
