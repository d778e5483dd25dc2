import Pulpfs.Meta.CatchUp
import Pulpfs.Meta.Returns
import Mathlib.Data.FinEnum

/-! What `RestoreSnapshot` promises. An accepted message leads to a state without dangling
references; the rest of the structure the other calls rely on comes from the node that took the
snapshot, and a snapshot of a reachable state restores that very state. -/
namespace Pulpfs
open RootedTree Relation Transition

namespace MetaState

variable {s : MetaState}

/-- The structure of the tree and of the layouts, beyond the absence of dangling references. -/
structure Structured (s : MetaState) : Prop where
  root : ∃ a, s.inodes[kRootInodeId]? = some a ∧ a.type = .directory
  root_unnamed : ∀ k : DentryKey, s.dentries[k]? ≠ some kRootInodeId
  parent : ∀ (k : DentryKey) c, s.dentries[k]? = some c →
    ∃ a, s.inodes[k.1]? = some a ∧ a.type = .directory
  one_entry : ∀ (i : UInt64) (a : InodeAttrs), s.inodes[i]? = some a → i ≠ kRootInodeId →
    ∃! k : DentryKey, s.dentries[k]? = some i
  acyclic : ∀ i, ¬ TransGen (fun c p : UInt64 => ∃ n : Bytes, s.dentries[(p, n)]? = some c) i i
  below : ∀ (i : UInt64) (a : InodeAttrs), s.inodes[i]? = some a → i < s.nextInodeId
  layout : ∀ i : UInt64, (∃ l, s.layouts[i]? = some l) ↔
    ∃ a, s.inodes[i]? = some a ∧ a.type = .file

/-- Without dangling references the rest of the structure makes a tree. -/
theorem Linked.coherent (h : s.Linked) (hs : s.Structured) : s.Coherent := by
  refine ⟨⟨?_, ?_, ?_⟩, fun f => (s.exact_iff f).mpr (hs.layout f)⟩
  · refine ⟨names_isDir.mpr hs.root, ?_, hs.root_unnamed, ?_, ?_, ?_, ?_⟩
    · intro i hi
      obtain ⟨a, ha, _⟩ := names_isDir.mp hi
      exact names_isNode.mpr ⟨a, ha⟩
    · exact fun hk => names_isDir.mpr (hs.parent _ _ hk)
    · exact fun hk => names_isNode.mpr (h.child _ _ hk)
    · intro k l c hk hl
      obtain ⟨a, ha⟩ := h.child k c hk
      have hroot : c ≠ kRootInodeId := by
        rintro rfl
        exact hs.root_unnamed k hk
      exact (hs.one_entry c a ha hroot).unique hk hl
    · intro i hi
      change s.names.IsNode i at hi
      refine IsTree.reaches_of_acyclic hs.acyclic ?_ hi
      intro j hj hroot
      obtain ⟨a, ha⟩ := names_isNode.mp hj
      obtain ⟨k, hk, _⟩ := hs.one_entry j a ha hroot
      exact ⟨k.1, ⟨k.2, hk⟩, names_isNode.mpr (h.parent k j hk)⟩
  · intro i d hd
    obtain ⟨a, ha, rfl⟩ := Option.map_eq_some_iff.mp hd
    exact h.stored i a ha
  · intro i hi
    obtain ⟨a, ha⟩ := names_isNode.mp hi
    exact UInt64.lt_iff_toNat_lt.mp (hs.below i a ha)

theorem Coherent.structured (h : s.Coherent) : s.Structured :=
  have ht := treeInvariant_of_wellFormed h.names
  { root := ht.root
    root_unnamed := ht.root_unnamed
    parent := ht.parent
    one_entry := ht.one_entry
    acyclic := h.names.tree.acyclic
    below := ht.below
    layout := fun i => (s.exact_iff i).mp (h.exact i) }

/-- An inode is entered under the number in it. -/
theorem emplaceInodes_stored {inodes : List InodeAttrs} {i : UInt64} {a : InodeAttrs}
    (h : (emplaceInodes inodes)[i]? = some a) : a.inodeId = i := by
  obtain ⟨b, _, hi, rfl⟩ := TreeMap.mem_of_getElem?_foldl_insertIfNew InodeAttrs.inodeId id h
  exact hi

theorem exists_of_mem_inodes {inodes : Std.ExtTreeMap UInt64 InodeAttrs} {i : UInt64}
    (h : i ∈ inodes) : ∃ a, inodes[i]? = some a :=
  Option.isSome_iff_exists.mp (Std.ExtTreeMap.mem_iff_isSome_getElem?.mp h)

/-- The checks of `RestoreSnapshot` leave no dangling reference. -/
theorem restoreMessage_linked {snapshot : MetaSnapshot}
    (h : (s.restoreMessage snapshot).1 = .ok ()) : (s.restoreMessage snapshot).2.Linked := by
  unfold restoreMessage at h ⊢
  simp only at h ⊢
  split at h
  next => contradiction
  next hroot =>
    split at h
    next => contradiction
    next hdentries =>
      split at h
      next => contradiction
      next hlayouts =>
        rw [if_neg hroot, if_neg hdentries, if_neg hlayouts]
        simp only [List.any_eq_true, decide_eq_true_eq, not_exists, not_and, not_or,
          not_not] at hroot hdentries hlayouts
        constructor
        · exact exists_of_mem_inodes hroot
        · intro k c hk
          obtain ⟨d, hd, hp, _⟩ := TreeMap.mem_of_getElem?_foldl_insertIfNew
            (fun d : SnapshotDentry => (d.parentInodeId, d.name)) SnapshotDentry.childInodeId hk
          rw [← hp]
          exact exists_of_mem_inodes (hdentries d hd).1
        · intro k c hk
          obtain ⟨d, hd, _, hc⟩ := TreeMap.mem_of_getElem?_foldl_insertIfNew
            (fun d : SnapshotDentry => (d.parentInodeId, d.name)) SnapshotDentry.childInodeId hk
          rw [← hc]
          exact exists_of_mem_inodes (hdentries d hd).2
        · intro i l hl
          obtain ⟨e, he, hi, _⟩ := TreeMap.mem_of_getElem?_foldl_insertIfNew
            SnapshotLayout.inodeId SnapshotLayout.layout hl
          rw [← hi]
          exact exists_of_mem_inodes (hlayouts e he)
        · intro i a ha
          exact emplaceInodes_stored ha

theorem restoreSnapshot_linked {codec : Codec MetaSnapshot} {data : Bytes}
    (h : (s.restoreSnapshot codec data).1 = .ok ()) :
    (s.restoreSnapshot codec data).2.Linked := by
  unfold restoreSnapshot at h ⊢
  cases hp : codec.parse data with
  | none =>
    rw [hp] at h
    contradiction
  | some snapshot =>
    rw [hp] at h
    exact restoreMessage_linked h

end MetaState

/-- Every accepted snapshot leads to a state without dangling references, in which the reads come
back. If the state has the rest of the structure too, every later run of calls keeps it, every
call of the run comes back, and the numbers handed out are new. -/
theorem restored_of_accepted [OffsetSort] (s : MetaState) (codec : Codec MetaSnapshot)
    (data : Bytes) (h : (s.restoreSnapshot codec data).1 = .ok ()) :
    let restored := (s.restoreSnapshot codec data).2
    restored.Linked ∧ restored.ReadsReturn ∧
      (restored.Structured → ∀ calls,
        restored.nextInodeId.toNat + (MetaState.createdIds calls restored).length < 2 ^ 64 →
        (final MetaState.call calls restored).Structured ∧
        (∀ e ∈ trace MetaState.call calls restored, e.output.Returns) ∧
        (MetaState.createdIds calls restored).Nodup ∧
        ∀ (i : UInt64) (a : InodeAttrs), restored.inodes[i]? = some a →
          i ∉ MetaState.createdIds calls restored) := by
  intro restored
  have hlinked : restored.Linked := MetaState.restoreSnapshot_linked h
  refine ⟨hlinked, hlinked.readsReturn, ?_⟩
  intro hs calls room
  obtain ⟨hfinal, hids, hret⟩ := (hlinked.coherent hs).run calls room
  refine ⟨hfinal.structured, hret, ?_, ?_⟩
  · apply List.Nodup.of_map UInt64.toNat
    rw [hids]
    exact List.nodup_range'
  · intro i a ha hmem
    have hi : i.toNat < restored.nextInodeId.toNat :=
      UInt64.lt_iff_toNat_lt.mp (hs.below i a ha)
    have hmap := List.mem_map_of_mem (f := UInt64.toNat) hmem
    rw [hids] at hmap
    have hle := (List.mem_range'_1.mp hmap).1
    omega

/-- The state after `moveCalls` as another node restores it from its bytes, and a call there. -/
def movedState : MetaState := final (@MetaState.call .insertion) moveCalls (.fresh 4096 0)

def nextCalls : List Call := [⟨fun _ => 9, .createFile 2 (ascii "f") 0o644 0 0⟩]

theorem restored_movedState :
    (MetaState.fresh 1 9).restoreSnapshot (Wire.codecOf movedState.snapshotMessage)
      (Wire.metaSnapshot movedState.snapshotMessage) = (.ok (), movedState) := by
  have hs : movedState.Coherent := @MetaState.coherent_run .insertion 4096 0 moveCalls (by decide)
  unfold MetaState.restoreSnapshot
  rw [Wire.parse_codecOf]
  exact MetaState.restoreMessage_snapshotMessage hs.names (fun f => (hs.exact f).laid) _

theorem restored_of_accepted_movedState :
    let restored := ((MetaState.fresh 1 9).restoreSnapshot
      (Wire.codecOf movedState.snapshotMessage) (Wire.metaSnapshot movedState.snapshotMessage)).2
    let call := @MetaState.call .insertion
    restored.Linked ∧ restored.ReadsReturn ∧ (final call nextCalls restored).Structured ∧
      (∀ e ∈ trace call nextCalls restored, e.output.Returns) ∧
      (@MetaState.createdIds .insertion nextCalls restored).Nodup ∧
      ∀ (i : UInt64) (a : InodeAttrs), restored.inodes[i]? = some a →
        i ∉ @MetaState.createdIds .insertion nextCalls restored := by
  intro restored call
  have hrestored : restored = movedState := congrArg Prod.snd restored_movedState
  obtain ⟨hlinked, hreads, hrun⟩ := @restored_of_accepted .insertion (.fresh 1 9)
    (Wire.codecOf movedState.snapshotMessage) (Wire.metaSnapshot movedState.snapshotMessage)
    (congrArg Prod.fst restored_movedState)
  have hs : movedState.Coherent := @MetaState.coherent_run .insertion 4096 0 moveCalls (by decide)
  have hroom : restored.nextInodeId.toNat +
      (@MetaState.createdIds .insertion nextCalls restored).length < 2 ^ 64 := by
    rw [hrestored]
    decide
  have hstructured : restored.Structured := by
    rw [hrestored]
    exact hs.structured
  exact ⟨hlinked, hreads, hrun hstructured nextCalls hroom⟩

def directoryInode (inodeId : UInt64) : InodeAttrs := { inodeId, type := .directory, nlink := 2 }

/-- Two directories that are entries of each other. -/
def cyclicSnapshot : MetaSnapshot where
  nextInodeId := 5
  inodes := [directoryInode 1, directoryInode 2, directoryInode 3, directoryInode 4]
  dentries := [⟨2, ascii "a", 3⟩, ⟨3, ascii "b", 2⟩, ⟨1, ascii "c", 4⟩]

/-- One file below two names. -/
def sharedSnapshot : MetaSnapshot where
  nextInodeId := 3
  inodes := [directoryInode 1, { inodeId := 2, type := .file }]
  dentries := [⟨1, ascii "a", 2⟩, ⟨1, ascii "b", 2⟩]
  layouts := [⟨2, {}⟩]

/-- The counter is missing, so it reads as 0. -/
def uncountedSnapshot : MetaSnapshot where
  inodes := [directoryInode 0, directoryInode 1]
  dentries := [⟨1, ascii "a", 0⟩]

def MetaState.restored (snapshot : MetaSnapshot) : MetaState.Result Unit :=
  (MetaState.fresh 4096 0).restoreSnapshot (Wire.codecOf snapshot) (Wire.metaSnapshot snapshot)

/-- All three are accepted. Moving a directory below the cycle never ends, a lookup of the second
name misses once the first one is unlinked, and a new file gets a number that is in use. -/
theorem accepted_not_structured :
    let cyclic := MetaState.restored cyclicSnapshot
    let shared := MetaState.restored sharedSnapshot
    let uncounted := MetaState.restored uncountedSnapshot
    (cyclic.1 = .ok () ∧ ¬ cyclic.2.Structured ∧
      (cyclic.2.rename (fun _ => 1) 1 (ascii "c") 2 (ascii "d")).1 = .diverged) ∧
    (shared.1 = .ok () ∧ ¬ shared.2.Structured ∧
      (shared.2.unlink (fun _ => 1) 1 (ascii "a")).2.lookup 1 (ascii "b") = .outOfRange) ∧
    uncounted.1 = .ok () ∧ ¬ uncounted.2.Structured ∧
      uncounted.2.getAttr 0 = .ok (directoryInode 0) ∧
      ((uncounted.2.createFile (fun _ => 1) 1 (ascii "f") 0 0 0).1.map InodeAttrs.inodeId) =
        .ok 0 := by
  refine ⟨⟨by decide, ?_, by decide⟩, ⟨by decide, ?_, by decide⟩, by decide, ?_, by decide,
    by decide⟩
  · intro h
    refine h.acyclic 2 (.tail (b := 3) (.single ⟨ascii "b", ?_⟩) ⟨ascii "a", ?_⟩)
    · decide
    · decide
  · intro h
    obtain ⟨k, _, hk⟩ := h.one_entry 2 { inodeId := 2, type := .file } (by decide) (by decide)
    have hnames := (hk (1, ascii "a") (by decide)).trans (hk (1, ascii "b") (by decide)).symm
    exact absurd hnames (by decide)
  · intro h
    have hbelow := h.below 0 (directoryInode 0) (by decide)
    exact absurd hbelow (by decide)

/-- Every state of a run survives the round trip through a snapshot into any other node, however
the reader divides the bytes; after the empty piece the reader is not asked again. -/
theorem restoreSnapshot_of_run [OffsetSort] (codec : Codec MetaSnapshot) (chunkSize : UInt64)
    (nowNs : Int64) (calls : List Call) (held : MetaService) (pieces : List Bytes)
    (unread : List MetaService.ReadResult)
    (room : (MetaState.createdIds calls (.fresh chunkSize nowNs)).length < 2 ^ 64 - 2)
    (hcodec : codec.parse (codec.serialize
        (final MetaState.call calls (.fresh chunkSize nowNs)).snapshotMessage) =
      some (final MetaState.call calls (.fresh chunkSize nowNs)).snapshotMessage)
    (hne : ∀ p ∈ pieces, p ≠ [])
    (hflat : pieces.flatten =
      (final MetaState.call calls (.fresh chunkSize nowNs)).serializeSnapshot codec) :
    held.restoreSnapshot codec (pieces.map .piece ++ .piece [] :: unread) =
      (.ok .restored, ⟨final MetaState.call calls (.fresh chunkSize nowNs)⟩) := by
  have hs : (MetaService.mk (final MetaState.call calls (.fresh chunkSize nowNs))).state.Sound :=
    MetaState.sound_run chunkSize nowNs calls room
  refine MetaService.restoreSnapshot_takeSnapshot held hs hcodec ?_
  rw [MetaService.readSnapshot_pieces hne rfl, hflat]
  rfl

theorem restoreSnapshot_of_moveCalls :
    (MetaService.mk (.fresh 1 9)).restoreSnapshot (Wire.codecOf movedState.snapshotMessage)
      ([(Wire.metaSnapshot movedState.snapshotMessage).take 40,
        (Wire.metaSnapshot movedState.snapshotMessage).drop 40].map .piece ++
          .piece [] :: [.failed]) = (.ok .restored, ⟨movedState⟩) :=
  @restoreSnapshot_of_run .insertion (Wire.codecOf movedState.snapshotMessage) 4096 0 moveCalls
    ⟨.fresh 1 9⟩ [(Wire.metaSnapshot movedState.snapshotMessage).take 40,
      (Wire.metaSnapshot movedState.snapshotMessage).drop 40] [.failed] (by decide)
    (Wire.parse_codecOf movedState.snapshotMessage) (by decide)
    (by rw [List.flatten_cons, List.flatten_cons, List.flatten_nil, List.append_nil,
      List.take_append_drop]; rfl)

end Pulpfs
