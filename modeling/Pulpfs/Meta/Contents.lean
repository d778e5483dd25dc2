import Pulpfs.Meta.HierarchyMoves
import Pulpfs.Foundations.ByteFile

/-! What all files of a state contain, by their numbers, and what any call makes of it. -/
namespace Pulpfs
open Overlay Transition

/-- What is stored of a regular file. -/
def FileView.contents : FileView → Option (SparseFile ObjectByte)
  | (some (type, size), some extents) =>
    if type = .file then some ⟨size.toNat, contentOf extents⟩ else none
  | _ => none

theorem MetaState.Holds.contents_eq {ref : Option (SparseFile ObjectByte)} {v : FileView}
    (h : MetaState.Holds ref v) : v.contents = ref := by
  cases h with
  | file hsize _ hc => simp [FileView.contents, hsize, hc]
  | absent hn =>
    obtain ⟨d, es⟩ := v
    cases d with
    | none => rfl
    | some d =>
      cases es with
      | none => rfl
      | some es => exact if_neg (hn d rfl)

/-- How a call changes what a file contains that it does not write. -/
inductive Untouched : Option (SparseFile ObjectByte) → Option (SparseFile ObjectByte) → Prop
  | kept (r : Option (SparseFile ObjectByte)) : Untouched r r
  | removed (r : Option (SparseFile ObjectByte)) : Untouched r none

namespace MetaState

variable {s : MetaState} {f : UInt64}

def contents (s : MetaState) (f : UInt64) : Option (SparseFile ObjectByte) :=
  (s.fileView f).contents

theorem Holds.contents {ref : Option (SparseFile ObjectByte)} (h : Holds ref (s.fileView f)) :
    Holds (s.contents f) (s.fileView f) := by
  unfold MetaState.contents
  rw [h.contents_eq]
  exact h

/-- A coherent state whose files have extents apart, and none beyond their ends. -/
structure Consistent (s : MetaState) : Prop where
  coherent : s.Coherent
  holds : ∀ f, Holds (s.contents f) (s.fileView f)
  confined : ∀ f r, s.contents f = some r → r.Confined

theorem consistent_fresh (chunkSize : UInt64) (nowNs : Int64) :
    (fresh chunkSize nowNs).Consistent := by
  have hnone (f : UInt64) : (fresh chunkSize nowNs).contents f = none :=
    (holds_fresh chunkSize nowNs f).contents_eq
  refine ⟨coherent_fresh chunkSize nowNs, fun f => ?_, fun f r hr => ?_⟩
  · rw [hnone]
    exact holds_fresh chunkSize nowNs f
  · rw [hnone] at hr
    contradiction

/-- The layout that is got of a file, and what it contains. -/
theorem Consistent.contents_of_getLayout (h : s.Consistent) {l : FileLayout}
    (hl : s.getLayout f = .ok l) : s.contents f = some l.file ∧ Disjoint (reachable l.extents) := by
  have hview := view_of_getLayout hl
  have hholds := h.holds f
  have hcontents : s.contents f = some ⟨l.attrs.size.toNat, contentOf l.extents⟩ := by
    unfold contents
    rw [hview]
    rfl
  rw [hcontents, hview] at hholds
  cases hholds with
  | file _ hd _ =>
    have hreach : reachable l.extents = l.extents := reachable_of_inRange hd.inRange
    unfold FileLayout.file
    rw [hreach]
    exact ⟨hcontents, hd⟩

theorem Consistent.isFile (h : s.Consistent) (f : UInt64) : s.isFile f = (s.contents f).isSome :=
  (h.holds f).isFile

theorem Consistent.sizeOf_eq (h : s.Consistent) {r : SparseFile ObjectByte}
    (hr : s.contents f = some r) : s.sizeOf f = r.size := by
  have hholds := h.holds f
  rw [hr] at hholds
  obtain ⟨a, l, hat, hsize, -⟩ := hholds.fileHolds
  rw [sizeOf_fileAt hat, hsize]

section Calls

variable [OffsetSort] (clock : Clock) {c : Command}

/-- A write to what is no file is refused. -/
theorem execute_refused (hc : c.written = some f) (h : s.isFile f = false) :
    ∃ e, s.execute clock c = (.error e, s) := by
  have hv : ∃ e, s.validateRegularFile f = .error e := by
    cases hv : s.validateRegularFile f with
    | error e => exact ⟨e, rfl⟩
    | ok _ =>
      obtain ⟨a, ha, ht⟩ := validateRegularFile_inode hv
      simp [isFile, ha, ht] at h
  obtain ⟨e, hv⟩ := hv
  refine ⟨e, ?_⟩
  rcases Command.of_written hc with ⟨v, es, rfl⟩ | ⟨v, es, rfl⟩ | ⟨size, rfl⟩
  · simp only [execute, commitWrite, hv, Result.map, Outcome.map]
  · simp only [execute, appendWrite, hv, Result.map, Outcome.map]
  · simp only [execute, truncate, hv, Result.map, Outcome.map]

/-- A write of valid extents to a file is made, and to nothing else. -/
theorem Consistent.execute_written (h : s.Consistent) (hc : c.written = some f)
    (hvalid : accepted c.extents = true) (hno : c.NoOverflow (s.sizeOf f)) :
    (∃ e, s.contents f = none ∧ s.execute clock c = (.error e, s)) ∨
      ∃ r reply, s.contents f = some r ∧ (s.execute clock c).1 = .ok reply ∧
        Holds (some (c.onReference f r)) ((s.execute clock c).2.fileView f) := by
  have hholds := h.holds f
  cases hr : s.contents f with
  | none =>
    have hfile : s.isFile f = false := by
      rw [h.isFile, hr]
      rfl
    obtain ⟨e, he⟩ := execute_refused clock hc hfile
    exact .inl ⟨e, rfl, he⟩
  | some r =>
    rw [hr] at hholds
    obtain ⟨a, l, hat, -⟩ := hholds.fileHolds
    have hok := execute_isOk clock hat hc hvalid
    obtain ⟨reply, hreply⟩ := Outcome.exists_of_isOk hok
    exact .inr ⟨r, reply, rfl, hreply, MetaState.execute_written clock hc hholds hok hno⟩

theorem Consistent.contents_written (h : s.Consistent) (hc : c.written = some f)
    (hvalid : accepted c.extents = true) (hno : c.NoOverflow (s.sizeOf f)) :
    (s.execute clock c).2.contents f = (s.contents f).map (c.onReference f) := by
  rcases h.execute_written clock hc hvalid hno with ⟨e, hr, he⟩ | ⟨r, reply, hr, -, hafter⟩
  · rw [he, hr, Option.map_none]
  · rw [hr]
    exact hafter.contents_eq

/-- What else a file contains after a call: the next number may stand for a new file. -/
theorem Consistent.contents_other (h : s.Consistent) (hc : c.written ≠ some f) :
    Untouched (s.contents f) ((s.execute clock c).2.contents f) ∨
      f = s.nextInodeId ∧ s.contents f = none ∧
        (s.execute clock c).2.contents f = some .empty := by
  by_cases hf : f = s.nextInodeId
  · subst hf
    have hfree : s.fileView s.nextInodeId = (none, none) := h.coherent.next_free
    have hnone : s.contents s.nextInodeId = none := by
      unfold contents
      rw [hfree]
      rfl
    have hstep := execute_view s clock c (h.coherent.exact _).laid hc
    unfold contents at hnone ⊢
    rw [hfree] at hstep hnone ⊢
    generalize (s.execute clock c).2.fileView s.nextInodeId = w at hstep
    cases hstep with
    | kept => exact .inl (.kept _)
    | removed => exact .inl (.kept _)
    | created type =>
      by_cases ht : type = .file
      · subst ht
        exact .inr ⟨rfl, rfl, rfl⟩
      · simp only [ht, if_false]
        exact .inl (.kept _)
  · left
    rcases h.coherent.execute_keeps clock hf hc with hk | hk
    · unfold contents
      rw [hk]
      exact .kept _
    · unfold contents
      rw [hk]
      exact .removed _

omit [OffsetSort] in
theorem accepted_of_none (hc : c.extents = []) : accepted c.extents = true := by
  rw [hc]
  rfl

omit [OffsetSort] in
theorem noOverflow_of_none (hc : c.extents = []) (n : ℕ) : c.NoOverflow n := by
  cases c with
  | commitWrite i v es =>
    obtain rfl : es = [] := hc
    simp [Command.NoOverflow]
  | appendWrite i v es =>
    obtain rfl : es = [] := hc
    simp [Command.NoOverflow]
  | _ => trivial

/-- A call that commits no extents leaves each file alone, or removes, makes or cuts it. -/
theorem Consistent.contents_of_none (h : s.Consistent) (hc : c.extents = []) (f : UInt64) :
    Untouched (s.contents f) ((s.execute clock c).2.contents f) ∨
      (s.contents f = none ∧ (s.execute clock c).2.contents f = some .empty) ∨
      ∃ r n, s.contents f = some r ∧ (s.execute clock c).2.contents f = some (r.truncate n) := by
  by_cases hw : c.written = some f
  · have hcontents := h.contents_written clock hw (accepted_of_none hc) (noOverflow_of_none hc _)
    rw [hcontents]
    cases hr : s.contents f with
    | none => exact .inl (.kept none)
    | some r =>
      rcases Command.of_written hw with ⟨v, es, rfl⟩ | ⟨v, es, rfl⟩ | ⟨size, rfl⟩
      · obtain rfl : es = [] := hc
        simp only [Option.map_some, Command.onReference, if_true]
        exact .inl (.kept _)
      · obtain rfl : es = [] := hc
        simp only [Option.map_some, Command.onReference, if_true]
        exact .inl (.kept _)
      · simp only [Option.map_some, Command.onReference, if_true]
        exact .inr (.inr ⟨r, _, rfl, rfl⟩)
  · rcases h.contents_other clock hw with hu | ⟨-, hnone, hempty⟩
    · exact .inl hu
    · exact .inr (.inl ⟨hnone, hempty⟩)

/-- A call that commits valid extents only leaves a consistent state. -/
theorem Consistent.execute (h : s.Consistent) (hvalid : accepted c.extents = true)
    (hno : ∀ f, c.written = some f → c.NoOverflow (s.sizeOf f))
    (room : s.nextInodeId.toNat + 1 < 2 ^ 64) : (s.execute clock c).2.Consistent := by
  have hids : s.nextInodeId.toNat + (createdIds [⟨clock, c⟩] s).length < 2 ^ 64 := by
    have hle : (createdIds [⟨clock, c⟩] s).length ≤ 1 := List.length_filterMap_le _ _
    omega
  have hcoherent : (s.execute clock c).2.Coherent := (h.coherent.run [⟨clock, c⟩] hids).1
  have hlaid (f : UInt64) : ((s.execute clock c).2.fileView f).Laid := (hcoherent.exact f).laid
  refine ⟨hcoherent, fun f => ?_, fun f r hr => ?_⟩
  · by_cases hc : c.written = some f
    · rcases h.execute_written clock hc hvalid (hno f hc) with ⟨e, -, he⟩ | ⟨r, reply, -, -, ha⟩
      · rw [he]
        exact h.holds f
      · exact ha.contents
    · rcases (h.holds f).frame (execute_view s clock c (h.coherent.exact _).laid hc) with hn | ha
      · have ha : Holds none ((s.execute clock c).2.fileView f) := .absent hn
        exact ha.contents
      · exact ha.contents
  · by_cases hc : c.written = some f
    · rw [h.contents_written clock hc hvalid (hno f hc)] at hr
      obtain ⟨q, hq, rfl⟩ := Option.map_eq_some_iff.mp hr
      have hconfined := h.confined f q hq
      rcases Command.of_written hc with ⟨v, es, rfl⟩ | ⟨v, es, rfl⟩ | ⟨size, rfl⟩
      · simp only [Command.onReference, if_true]
        exact hconfined.write _
      · simp only [Command.onReference, if_true]
        exact hconfined.write _
      · simp only [Command.onReference, if_true]
        exact SparseFile.confined_truncate _ _
    · rcases h.contents_other clock hc with hu | ⟨-, -, he⟩
      · generalize (s.execute clock c).2.contents f = r' at hr hu
        cases hu with
        | kept => exact h.confined f r hr
        | removed => contradiction
      · rw [he] at hr
        exact Option.some.inj hr ▸ SparseFile.confined_empty

end Calls

/-- A file that is created is new and empty, and no other changes. -/
theorem Consistent.createFile (h : s.Consistent) [OffsetSort] (clock : Clock) {p : UInt64}
    {n : Bytes} {mode uid gid : UInt32} {a : InodeAttrs}
    (hok : (s.execute clock (.createFile p n mode uid gid)).1 = .ok (.attrs a)) :
    s.contents a.inodeId = none ∧
      (s.execute clock (.createFile p n mode uid gid)).2.contents =
        Function.update s.contents a.inodeId (some .empty) := by
  rcases createNode_names clock p n .file mode uid gid h.coherent.names with
    ⟨e, hr⟩ | ⟨b, s', hr, hid, -, -, hnames⟩
  · have hfail : s.execute clock (.createFile p n mode uid gid) = (.error e, s) := by
      simp only [MetaState.execute, MetaState.createFile, hr, Result.map, Outcome.map]
    rw [hfail] at hok
    contradiction
  · have hdone : s.execute clock (.createFile p n mode uid gid) = (.ok (.attrs b), s') := by
      simp only [MetaState.execute, MetaState.createFile, hr, Result.map, Outcome.map]
    rw [hdone] at hok ⊢
    obtain rfl : b = a := by simpa using hok
    have hnode (f : UInt64) : s'.names.node f =
        Function.update s.names.node s.nextInodeId (some (s.nextInodeId, .file)) f := by
      rw [hnames]
      rfl
    have hnone : s.contents s.nextInodeId = none := by
      unfold contents
      rw [h.coherent.next_free]
      rfl
    rw [hid]
    refine ⟨hnone, funext fun f => ?_⟩
    by_cases hf : f = s.nextInodeId
    · subst hf
      have hstep := createNode_view s clock p n .file mode uid gid
        (h.coherent.exact s.nextInodeId).laid (f := s.nextInodeId)
      rw [h.coherent.next_free, hr] at hstep
      rw [Function.update_self]
      obtain ⟨b, hb, hbt⟩ := Option.map_eq_some_iff.mp
        ((hnode s.nextInodeId).trans (Function.update_self ..))
      have hfile : (s'.fileView s.nextInodeId).1 = some (.file, b.size) := by
        simp only [fileView, hb, Option.map_some, (Prod.mk.inj hbt).2]
      unfold contents
      generalize s'.fileView s.nextInodeId = w at hstep hfile
      cases hstep with
      | kept => contradiction
      | removed => contradiction
      | created type =>
        obtain ⟨rfl, -⟩ := Prod.mk.inj (Option.some.inj hfile)
        rfl
    · rw [Function.update_of_ne hf]
      have hkeeps := createNode_keeps clock p n .file mode uid gid hf h.coherent.next_free
      rw [hr] at hkeeps
      rcases hkeeps with hk | hk
      · unfold contents
        rw [hk]
      · -- what is gone had not been there: the new node is the only change of the inodes
        have hgone : s'.inodes[f]? = none := Option.map_eq_none_iff.mp (congrArg Prod.fst hk)
        have hbefore : s.names.node f = none := by
          rw [← Function.update_of_ne hf (some (s.nextInodeId, .file)) s.names.node, ← hnode]
          exact Option.map_eq_none_iff.mpr hgone
        have hinode : s.inodes[f]? = none := Option.map_eq_none_iff.mp hbefore
        unfold contents
        rw [hk]
        simp [fileView, hinode, FileView.contents]

end MetaState

end Pulpfs
