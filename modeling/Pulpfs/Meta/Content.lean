import Pulpfs.Meta.Batches
import Pulpfs.Meta.Frame
import Pulpfs.Foundations.Transition

/-! What a file holds. The stored extents of a file and its size are those of a sparse file on
which every write of the run is laid in order. -/
namespace Pulpfs
open Overlay Transition

section Batches

variable [OffsetSort]

/-- The loop of `CommitWrite` lays the extents over the content in order. -/
theorem mergeCommitted_spec {stored extents : List FileExtent} (h : Disjoint stored)
    (hr : ∀ e ∈ extents, e.InRange) (hok : (mergeCommitted stored extents).1 = true) :
    Disjoint (mergeCommitted stored extents).2 ∧
      contentOf (mergeCommitted stored extents).2 =
        overlayAll (contentOf stored) (extents.map FileExtent.patch) := by
  rw [mergeCommitted_eq] at hok ⊢
  rw [validPrefix_eq_self.mpr (accepted_iff.mp hok)]
  exact h.mergeAll hr

/-- The loop of `AppendWrite` does the same with every extent moved to the end of the file. -/
theorem mergeAppended_spec {start : UInt64} (acc : AppendState) {extents : List FileExtent}
    (h : Disjoint acc.storedExtents)
    (hr : ∀ e ∈ extents, start.toNat + e.offset.toNat + e.length.toNat < 2 ^ 64)
    (hok : (mergeAppended start acc extents).1 = true) :
    Disjoint (mergeAppended start acc extents).2.storedExtents ∧
      contentOf (mergeAppended start acc extents).2.storedExtents =
        overlayAll (contentOf acc.storedExtents)
          ((extents.map FileExtent.patch).map (Patch.shift start.toNat)) ∧
      (mergeAppended start acc extents).2.appendLength.toNat =
        extent acc.appendLength.toNat (extents.map FileExtent.patch) ∧
      (mergeAppended start acc extents).2.committedExtents =
        acc.committedExtents ++ extents.map fun e => { e with offset := start + e.offset } := by
  rw [mergeAppended_eq] at hok ⊢
  rw [validPrefix_eq_self.mpr (accepted_iff.mp hok)]
  obtain ⟨hin, hpatches⟩ := appendedTo_patches hr
  obtain ⟨hd, hc⟩ := h.mergeAll hin
  exact ⟨hd, hpatches ▸ hc, foldl_extentEnd (inRange_of_append hr) _, rfl⟩

end Batches

namespace MetaState

variable {s : MetaState} {clock : Clock} {i : UInt64}

/-- The two maps at a regular file. -/
structure FileAt (s : MetaState) (i : UInt64) (inode : InodeAttrs) (layout : FileLayout) :
    Prop where
  inode_eq : s.inodes[i]? = some inode
  type_eq : inode.type = .file
  layout_eq : s.layouts[i]? = some layout

theorem FileAt.view {inode : InodeAttrs} {layout : FileLayout} (h : s.FileAt i inode layout) :
    s.fileView i = (some (.file, inode.size), some layout.extents) := by
  simp only [fileView, h.inode_eq, h.layout_eq, Option.map_some, h.type_eq]

/-- A write stores new extents and a new size under the file. -/
theorem fileView_written {inode inode' : InodeAttrs} {layout : FileLayout}
    {extents : List FileExtent} (h : s.FileAt i inode layout) (ht : inode'.type = inode.type) :
    (((s.setLayoutExtents i extents).storeInode i inode').setLayoutAttrs i inode').fileView i =
      (some (.file, inode'.size), some extents) := by
  rw [fileView_setLayoutAttrs]
  simp only [fileView, storeInode, setLayoutExtents]
  have hl := congrFun (TreeMap.get_modify s.layouts i
    fun layout => { layout with extents := extents }) i
  simp only [Function.update_self, h.layout_eq, Option.map_some] at hl
  rw [hl]
  simp [ht, h.type_eq]

section Writes

variable [OffsetSort]

/-- What a successful `CommitWrite` found and what it stored. -/
theorem commitWrite_ok {v : UInt64} {es : List FileExtent}
    (h : (s.commitWrite clock i v es).1.isOk = true) :
    ∃ inode layout, s.FileAt i inode layout ∧ (mergeCommitted layout.extents es).1 = true ∧
      (s.commitWrite clock i v es).2.fileView i =
        (some (.file, es.foldl (fun size e => max size (extentEnd e)) inode.size),
          some (mergeCommitted layout.extents es).2) := by
  unfold commitWrite at h ⊢
  cases hv : s.validateRegularFile i with
  | error e =>
    rw [hv] at h
    contradiction
  | ok _ =>
    obtain ⟨a, ha, ht⟩ := validateRegularFile_inode hv
    cases hl : s.layouts[i]? with
    | none =>
      rw [hv, hl] at h
      contradiction
    | some l =>
      have hfile : s.FileAt i a l := ⟨ha, ht, hl⟩
      have hstill (es' : List FileExtent) : (s.setLayoutExtents i es').inodes[i]? = some a := ha
      simp only [hv, hl] at h ⊢
      cases hm : (mergeCommitted l.extents es).1 with
      | false =>
        simp only [hm, Bool.not_false, if_true] at h
        contradiction
      | true =>
        refine ⟨a, l, hfile, hm, ?_⟩
        simp only [Bool.not_true, Bool.false_eq_true, if_false, inodeAt_of_some (hstill _),
          andThen_ok]
        exact fileView_written hfile rfl

/-- What a successful `AppendWrite` found and what it stored. -/
theorem appendWrite_ok {v : UInt64} {es : List FileExtent}
    (h : (s.appendWrite clock i v es).1.isOk = true) :
    ∃ inode layout, s.FileAt i inode layout ∧
      (mergeAppended inode.size ⟨0, [], layout.extents⟩ es).1 = true ∧
      (s.appendWrite clock i v es).2.fileView i =
        (some (.file, inode.size +
            (mergeAppended inode.size ⟨0, [], layout.extents⟩ es).2.appendLength),
          some (mergeAppended inode.size ⟨0, [], layout.extents⟩ es).2.storedExtents) := by
  unfold appendWrite at h ⊢
  cases hv : s.validateRegularFile i with
  | error e =>
    rw [hv] at h
    contradiction
  | ok _ =>
    obtain ⟨a, ha, ht⟩ := validateRegularFile_inode hv
    cases hl : s.layouts[i]? with
    | none =>
      rw [hv, hl] at h
      contradiction
    | some l =>
      have hfile : s.FileAt i a l := ⟨ha, ht, hl⟩
      simp only [hv, hl, inodeAt_of_some ha, andThen_ok] at h ⊢
      cases hm : (mergeAppended a.size ⟨0, [], l.extents⟩ es).1 with
      | false =>
        simp only [hm, Bool.not_false, if_true] at h
        contradiction
      | true =>
        refine ⟨a, l, hfile, hm, ?_⟩
        simp only [Bool.not_true, Bool.false_eq_true, if_false]
        exact fileView_written hfile rfl

end Writes

/-- What a successful `Truncate` found and what it stored. -/
theorem truncate_ok {size : UInt64} (h : (s.truncate clock i size).1.isOk = true) :
    ∃ inode layout, s.FileAt i inode layout ∧
      (s.truncate clock i size).2.fileView i =
        (some (.file, size), some (truncateExtents size layout.extents)) := by
  unfold truncate at h ⊢
  cases hv : s.validateRegularFile i with
  | error e =>
    rw [hv] at h
    contradiction
  | ok _ =>
    obtain ⟨a, ha, ht⟩ := validateRegularFile_inode hv
    cases hl : s.layouts[i]? with
    | none =>
      rw [hv, hl] at h
      contradiction
    | some l =>
      have hfile : s.FileAt i a l := ⟨ha, ht, hl⟩
      have hstill (es' : List FileExtent) : (s.setLayoutExtents i es').inodes[i]? = some a := ha
      refine ⟨a, l, hfile, ?_⟩
      simp only [inodeAt_of_some (hstill _), andThen_ok]
      exact fileView_written hfile rfl

end MetaState

/-- No end of an extent the command writes exceeds the largest 64-bit value, in a file of the
given size. -/
def Command.NoOverflow (size : ℕ) : Command → Prop
  | .commitWrite _ _ extents => ∀ e ∈ extents, e.InRange
  | .appendWrite _ _ extents =>
    ∀ e ∈ extents, size + e.offset.toNat + e.length.toNat < 2 ^ 64
  | _ => True

instance (size : ℕ) (c : Command) : Decidable (c.NoOverflow size) :=
  match c with
  | .commitWrite _ _ extents => inferInstanceAs (Decidable (∀ e ∈ extents, e.InRange))
  | .appendWrite _ _ extents => inferInstanceAs
    (Decidable (∀ e ∈ extents, size + e.offset.toNat + e.length.toNat < 2 ^ 64))
  | .mkdir .. => .isTrue trivial
  | .createFile .. => .isTrue trivial
  | .truncate .. => .isTrue trivial
  | .unlink .. => .isTrue trivial
  | .rmdir .. => .isTrue trivial
  | .rename .. => .isTrue trivial
  | .setAttr .. => .isTrue trivial

/-- What a command does to the reference of file `f`. -/
def Command.onReference (f : UInt64) (c : Command) (r : SparseFile ObjectByte) :
    SparseFile ObjectByte :=
  match c with
  | .commitWrite i _ extents => if i = f then r.write (extents.map FileExtent.patch) else r
  | .appendWrite i _ extents => if i = f then r.append (extents.map FileExtent.patch) else r
  | .truncate i size => if i = f then r.truncate size.toNat else r
  | _ => r

namespace MetaState

def isFile (s : MetaState) (f : UInt64) : Bool := s.inodes[f]?.any fun a => a.type = .file

def sizeOf (s : MetaState) (f : UInt64) : ℕ := (s.inodes[f]?.map fun a => a.size.toNat).getD 0

/-- The reference of file `f` after a step: there is one while `f` is a regular file, and it
starts out empty. -/
def referenceAfter (f : UInt64) (ref : Option (SparseFile ObjectByte))
    (e : Step MetaState Call (Outcome Reply)) : Option (SparseFile ObjectByte) :=
  if e.after.isFile f then
    some ((ref.map (e.input.command.onReference f)).getD .empty)
  else none

/-- The reference of file `f` after a run. -/
def reference (f : UInt64) (steps : List (Step MetaState Call (Outcome Reply))) :
    Option (SparseFile ObjectByte) :=
  steps.foldl (referenceAfter f) none

/-- File `f` has the size of the reference, its extents lie apart, and the extent covering a
position maps it to the byte the reference has there. -/
def FileHolds (s : MetaState) (f : UInt64) (r : SparseFile ObjectByte) : Prop :=
  ∃ inode layout, s.FileAt f inode layout ∧ inode.size.toNat = r.size ∧
    Disjoint layout.extents ∧
    ∀ x b, (∃ e ∈ layout.extents, e.patch.Covers x ∧ b = e.patch.value x) ↔
      r.content x = some b

/-- The same, said of the view. -/
inductive Holds : Option (SparseFile ObjectByte) → FileView → Prop
  | file {r : SparseFile ObjectByte} {size : UInt64} {extents : List FileExtent} :
      size.toNat = r.size → Disjoint extents → contentOf extents = r.content →
      Holds (some r) (some (.file, size), some extents)
  | absent {v : FileView} : (∀ d, v.1 = some d → d.1 ≠ .file) → Holds none v

variable {s : MetaState} {f : UInt64}

theorem isFile_view : s.isFile f = true ↔ ∃ d, (s.fileView f).1 = some d ∧ d.1 = .file := by
  unfold isFile fileView
  cases s.inodes[f]? with
  | none => simp
  | some a => simp

theorem sizeOf_fileAt {inode : InodeAttrs} {layout : FileLayout} (h : s.FileAt f inode layout) :
    s.sizeOf f = inode.size.toNat := by
  simp only [sizeOf, h.inode_eq, Option.map_some, Option.getD_some]

theorem Holds.fileHolds {r : SparseFile ObjectByte} (h : Holds (some r) (s.fileView f)) :
    s.FileHolds f r := by
  generalize hv : s.fileView f = v at h
  cases h with
  | @file _ size extents hsize hd hc =>
    unfold fileView at hv
    obtain ⟨hi, hl⟩ := Prod.mk.inj hv
    obtain ⟨a, ha, had⟩ := Option.map_eq_some_iff.mp hi
    obtain ⟨l, hl, hle⟩ := Option.map_eq_some_iff.mp hl
    obtain ⟨ht, hs⟩ := Prod.mk.inj had
    refine ⟨a, l, ⟨ha, ht, hl⟩, hs ▸ hsize, hle ▸ hd, ?_⟩
    intro x b
    rw [← hc, ← hle]
    exact (Disjoint.contentOf_eq_some (hle ▸ hd)).symm

theorem FileHolds.holds {r : SparseFile ObjectByte} (h : s.FileHolds f r) :
    Holds (some r) (s.fileView f) := by
  obtain ⟨inode, layout, hf, hsize, hd, hcont⟩ := h
  rw [hf.view]
  refine .file hsize hd ?_
  funext x
  apply Option.ext
  intro b
  rw [hd.contentOf_eq_some]
  exact hcont x b

theorem Holds.isFile {ref : Option (SparseFile ObjectByte)} (h : Holds ref (s.fileView f)) :
    s.isFile f = ref.isSome := by
  generalize hv : s.fileView f = v at h
  cases h with
  | file hsize hd hc =>
    rw [Option.isSome_some, isFile_view]
    exact ⟨_, congrArg Prod.fst hv, rfl⟩
  | absent hn =>
    rw [Option.isSome_none, Bool.eq_false_iff, Ne, isFile_view]
    intro hd
    obtain ⟨d, hd, ht⟩ := hd
    exact hn d (hv ▸ hd) ht

theorem Holds.fileAt {r : SparseFile ObjectByte} {inode : InodeAttrs} {layout : FileLayout}
    (h : Holds (some r) (s.fileView f)) (hf : s.FileAt f inode layout) :
    inode.size.toNat = r.size ∧ Disjoint layout.extents ∧
      contentOf layout.extents = r.content := by
  rw [hf.view] at h
  cases h with
  | file hsize hd hc => exact ⟨hsize, hd, hc⟩

/-- A write to a file that is not there fails and changes nothing. -/
theorem execute_absent [OffsetSort] (clock : Clock) {c : Command} (hc : c.written = some f)
    (h : s.isFile f = false) : (s.execute clock c).2 = s := by
  have hv : ∃ e, s.validateRegularFile f = .error e := by
    cases hv : s.validateRegularFile f with
    | error e => exact ⟨e, rfl⟩
    | ok _ =>
      obtain ⟨a, ha, ht⟩ := validateRegularFile_inode hv
      simp [isFile, ha, ht] at h
  obtain ⟨e, hv⟩ := hv
  rcases Command.of_written hc with ⟨v, es, rfl⟩ | ⟨v, es, rfl⟩ | ⟨size, rfl⟩
  · simp only [execute, commitWrite, hv, Result.map]
  · simp only [execute, appendWrite, hv, Result.map]
  · simp only [execute, truncate, hv, Result.map]

theorem isOk_map {α β : Type} {r : Result α} {g : α → β} : (r.map g).1.isOk = r.1.isOk := by
  obtain ⟨o, s⟩ := r
  cases o with
  | ok => rfl
  | error => rfl
  | outOfRange => rfl
  | diverged => rfl

/-- A successful write does to the file what it does to the reference. -/
theorem execute_written [OffsetSort] (clock : Clock) {c : Command} (hc : c.written = some f)
    {r : SparseFile ObjectByte} (h : Holds (some r) (s.fileView f))
    (hok : (s.execute clock c).1.isOk = true) (hno : c.NoOverflow (s.sizeOf f)) :
    Holds (some (c.onReference f r)) ((s.execute clock c).2.fileView f) := by
  rcases Command.of_written hc with ⟨v, es, rfl⟩ | ⟨v, es, rfl⟩ | ⟨size, rfl⟩
  · obtain ⟨a, l, hf, hm, hview⟩ := commitWrite_ok (isOk_map.symm.trans hok)
    obtain ⟨hsize, hd, hcont⟩ := h.fileAt hf
    obtain ⟨hd', hcont'⟩ := mergeCommitted_spec hd hno hm
    show Holds _ ((s.commitWrite clock f v es).2.fileView f)
    rw [hview]
    simp only [Command.onReference, if_true]
    refine .file ?_ hd' ?_
    · rw [foldl_extentEnd hno, hsize]
      rfl
    · rw [hcont', hcont]
      rfl
  · obtain ⟨a, l, hf, hm, hview⟩ := appendWrite_ok (isOk_map.symm.trans hok)
    obtain ⟨hsize, hd, hcont⟩ := h.fileAt hf
    rw [sizeOf_fileAt hf] at hno
    obtain ⟨hd', hcont', hlen, _⟩ := mergeAppended_spec ⟨0, [], l.extents⟩ hd hno hm
    show Holds _ ((s.appendWrite clock f v es).2.fileView f)
    rw [hview]
    simp only [Command.onReference, if_true]
    refine .file ?_ hd' ?_
    · rw [UInt64.toNat_add, hlen, Nat.mod_eq_of_lt (extent_append_lt hno), hsize]
      exact (extent_shift r.size 0 _).symm
    · rw [hcont', hcont, hsize]
      rfl
  · obtain ⟨a, l, hf, hview⟩ := truncate_ok (isOk_map.symm.trans hok)
    obtain ⟨hsize, hd, hcont⟩ := h.fileAt hf
    show Holds _ ((s.truncate clock f size).2.fileView f)
    rw [hview]
    simp only [Command.onReference, if_true]
    refine .file rfl (hd.truncateExtents size) ?_
    rw [contentOf_truncateExtents hd, hcont]
    rfl

/-- A frame step takes the file away, leaves it, or creates it empty. -/
theorem Holds.frame {ref : Option (SparseFile ObjectByte)} {v w : FileView} (h : Holds ref v)
    (hs : FileView.Step v w) :
    (∀ d, w.1 = some d → d.1 ≠ .file) ∨ Holds (some (ref.getD .empty)) w := by
  cases hs with
  | kept =>
    cases h with
    | file hsize hd hc => exact .inr (.file hsize hd hc)
    | absent hn => exact .inl hn
  | removed => exact .inl nofun
  | created type =>
    cases h with
    | absent =>
      by_cases ht : type = .file
      · right
        simp only [ht, if_true]
        exact .file rfl .nil rfl
      · left
        intro d hd
        obtain rfl := Option.some.inj hd
        exact ht
  | laid d hd =>
    left
    intro d' hd'
    obtain rfl := Option.some.inj hd'
    exact hd

theorem onReference_of_not_written {c : Command} (h : c.written ≠ some f)
    (r : SparseFile ObjectByte) : c.onReference f r = r := by
  have hne {i : UInt64} (h : some i ≠ some f) : i ≠ f := fun he => h (congrArg some he)
  unfold Command.onReference
  split
  next => exact if_neg (hne h)
  next => exact if_neg (hne h)
  next => exact if_neg (hne h)
  next => rfl

/-- A call that succeeds without overflow, if it writes to file `f` at all. -/
def CallOk (f : UInt64) (e : Step MetaState Call (Outcome Reply)) : Prop :=
  e.before.isFile f = true → e.input.command.written = some f →
    e.output.isOk = true ∧ e.input.command.NoOverflow (e.before.sizeOf f)

instance (f : UInt64) (e : Step MetaState Call (Outcome Reply)) : Decidable (CallOk f e) :=
  inferInstanceAs (Decidable (_ → _ → _ ∧ _))

/-- The step lemma. -/
theorem Holds.step [OffsetSort] {ref : Option (SparseFile ObjectByte)} {c : Call}
    (h : Holds ref (s.fileView f)) (hv : ∀ i, (s.fileView i).Laid)
    (hok : CallOk f ⟨s, c, (s.call c).1, (s.call c).2⟩) :
    Holds (referenceAfter f ref ⟨s, c, (s.call c).1, (s.call c).2⟩)
      ((s.call c).2.fileView f) := by
  have habsent (hn : ∀ d, ((s.call c).2.fileView f).1 = some d → d.1 ≠ .file) :
      Holds (referenceAfter f ref ⟨s, c, (s.call c).1, (s.call c).2⟩)
        ((s.call c).2.fileView f) := by
    have hnot : (s.call c).2.isFile f = false := (Holds.absent hn).isFile
    simp only [referenceAfter, hnot]
    exact .absent hn
  have hpresent {r : SparseFile ObjectByte} (hr : Holds (some r) ((s.call c).2.fileView f)) :
      referenceAfter f ref ⟨s, c, (s.call c).1, (s.call c).2⟩ =
        some ((ref.map (c.command.onReference f)).getD .empty) := by
    simp only [referenceAfter, hr.isFile, Option.isSome_some, if_true]
  by_cases hc : c.command.written = some f
  · cases ref with
    | none =>
      have hsame : (s.call c).2 = s := execute_absent c.clock hc h.isFile
      apply habsent
      rw [hsame]
      cases h with
      | absent hn => exact hn
    | some r =>
      obtain ⟨hout, hno⟩ := hok h.isFile hc
      have hnew := execute_written c.clock hc h hout hno
      rw [hpresent hnew]
      exact hnew
  · rcases h.frame (execute_view s c.clock c.command (hv _) hc) with hn | hr
    · exact habsent hn
    · have hid : ref.map (c.command.onReference f) = ref := by
        cases ref with
        | none => rfl
        | some r => exact congrArg some (onReference_of_not_written hc r)
      rw [hpresent hr, hid]
      exact hr

/-- The run lemma. -/
theorem Holds.run [OffsetSort] {ref : Option (SparseFile ObjectByte)} (calls : List Call)
    (h : Holds ref (s.fileView f)) (hv : ∀ i, (s.fileView i).Laid)
    (hok : ∀ e ∈ trace call calls s, CallOk f e) :
    Holds ((trace call calls s).foldl (referenceAfter f) ref)
      ((final call calls s).fileView f) := by
  induction calls generalizing s ref with
  | nil => exact h
  | cons c calls ih =>
    rw [trace_cons, List.forall_mem_cons] at hok
    rw [trace_cons, List.foldl_cons, final_cons]
    exact ih (h.step hv hok.1) (execute_laid s c.clock c.command hv) hok.2

theorem fileView_fresh (chunkSize : UInt64) (nowNs : Int64) (f : UInt64) :
    (fresh chunkSize nowNs).fileView f =
      (if f = kRootInodeId then some (.directory, 0) else none, none) := by
  have hnone : (∅ : Std.ExtTreeMap UInt64 InodeAttrs)[kRootInodeId]? = none := by simp
  unfold fileView fresh
  rw [congrFun (TreeMap.get_insertIfNew _ hnone) f]
  by_cases hf : f = kRootInodeId
  · simp [hf]
  · simp [hf]

theorem laid_fresh (chunkSize : UInt64) (nowNs : Int64) (f : UInt64) :
    ((fresh chunkSize nowNs).fileView f).Laid := by
  rw [fileView_fresh]
  refine ⟨fun _ => rfl, ?_⟩
  intro d hd ht
  split at hd
  next =>
    obtain rfl := Option.some.inj hd
    contradiction
  next => contradiction

theorem laid_run [OffsetSort] {s : MetaState} (calls : List Call)
    (h : ∀ i, (s.fileView i).Laid) : ∀ i, ((final call calls s).fileView i).Laid :=
  invariant_final (I := fun s => ∀ i, (s.fileView i).Laid)
    (fun c s hs => execute_laid s c.clock c.command hs) h calls

theorem holds_fresh (chunkSize : UInt64) (nowNs : Int64) (f : UInt64) :
    Holds none ((fresh chunkSize nowNs).fileView f) := by
  rw [fileView_fresh]
  refine .absent ?_
  intro d hd
  split at hd
  next =>
    obtain rfl := Option.some.inj hd
    nofun
  next => contradiction

end MetaState

/-- In every run whose writes to file `f` succeed without overflow the file holds what its
reference holds, and it is there exactly while the reference is. -/
theorem fileHolds_of_run [OffsetSort] (chunkSize : UInt64) (nowNs : Int64) (calls : List Call)
    (f : UInt64)
    (hok : ∀ e ∈ trace MetaState.call calls (.fresh chunkSize nowNs), MetaState.CallOk f e) :
    match MetaState.reference f (trace MetaState.call calls (.fresh chunkSize nowNs)) with
    | none => (final MetaState.call calls (.fresh chunkSize nowNs)).isFile f = false
    | some r => (final MetaState.call calls (.fresh chunkSize nowNs)).FileHolds f r := by
  have h := (MetaState.holds_fresh chunkSize nowNs f).run calls
    (MetaState.laid_fresh chunkSize nowNs) hok
  unfold MetaState.reference
  split
  next hr =>
    rw [hr] at h
    exact h.isFile
  next r hr =>
    rw [hr] at h
    exact h.fileHolds

/-- A file is written over, appended to, cut and made longer again. -/
def writeCalls : List Call :=
  let e (offset length : UInt64) (key : String) : FileExtent :=
    { offset, length, objectKey := ascii key }
  [⟨fun _ => 1, .createFile 1 (ascii "f") 0o644 0 0⟩,
    ⟨fun _ => 2, .commitWrite 2 1 [e 0 10 "a", e 4 2 "b"]⟩,
    ⟨fun _ => 3, .rename 1 (ascii "f") 1 (ascii "g")⟩,
    ⟨fun _ => 4, .appendWrite 2 2 [e 0 3 "c", e 2 3 "d"]⟩,
    ⟨fun _ => 5, .truncate 2 5⟩, ⟨fun _ => 6, .truncate 2 20⟩]

theorem fileHolds_of_writeCalls :
    match MetaState.reference 2 (trace (@MetaState.call .insertion) writeCalls
      (.fresh 4096 0)) with
    | none => (final (@MetaState.call .insertion) writeCalls (.fresh 4096 0)).isFile 2 = false
    | some r => (final (@MetaState.call .insertion) writeCalls (.fresh 4096 0)).FileHolds 2 r :=
  @fileHolds_of_run .insertion 4096 0 writeCalls 2 (by decide)

end Pulpfs
