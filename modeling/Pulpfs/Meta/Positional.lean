import Pulpfs.Meta.Commits

/-! `AppendWrite` as `CommitWrite` at the end of the file. The two calls have a merge loop and a
size of their own; a batch shifted by the size of the file takes both to the same state. -/
namespace Pulpfs

theorem accepted_appendedTo (start : UInt64) (b : List FileExtent) :
    accepted (b.map (·.appendedTo start)) = accepted b := by
  rw [accepted, List.all_map]
  rfl

theorem validPrefix_appendedTo (start : UInt64) (b : List FileExtent) :
    validPrefix (b.map (·.appendedTo start)) = (validPrefix b).map (·.appendedTo start) := by
  rw [validPrefix, List.takeWhile_map]
  rfl

/-- The largest absolute end is the size with the largest relative end. -/
theorem grown_appendedTo {start : UInt64} {b : List FileExtent}
    (hno : ∀ e ∈ b, start.toNat + e.offset.toNat + e.length.toNat < 2 ^ 64) :
    grown start (b.map (·.appendedTo start)) =
      start + b.foldl (fun n e => max n (extentEnd e)) 0 := by
  obtain ⟨hr, hpatches⟩ := appendedTo_patches hno
  apply UInt64.toNat_inj.mp
  have hshift := Overlay.extent_shift start.toNat 0 (b.map FileExtent.patch)
  rw [Nat.add_zero] at hshift
  rw [grown, foldl_extentEnd hr, appendedSize_toNat hno, hpatches, hshift]
  rfl

/-- How an append ends where the commit of the shifted batch ends in the second way. -/
def AppendsAs (start : UInt64) (b : List FileExtent) :
    Outcome AppendWriteStateResult → Outcome InodeAttrs → Prop
  | .ok r, .ok a => r.attrs.untimed = a.untimed ∧ r.appendStart = start ∧
      r.committedExtents = b.map (·.appendedTo start)
  | .error _, .error _ => True
  | _, _ => False

theorem AppendsAs.of_untimed {start : UInt64} {b : List FileExtent}
    {o : Outcome AppendWriteStateResult} {o' : Outcome InodeAttrs}
    (h : AppendsAs start b (o.map AppendWriteStateResult.untimed) (o'.map InodeAttrs.untimed)) :
    AppendsAs start b o o' := by
  cases o with
  | ok r =>
    cases o' with
    | ok a => exact h
    | error e => exact h
    | outOfRange => exact h
    | diverged => exact h
  | error e =>
    cases o' with
    | ok a => exact h
    | error e => exact h
    | outOfRange => exact h
    | diverged => exact h
  | outOfRange => exact h.elim
  | diverged => exact h.elim

namespace MetaState

variable [OffsetSort] {s : MetaState} {i : UInt64} {a : InodeAttrs} {b : List FileExtent}

/-- At one reading of the clock the two calls leave one state. -/
theorem appendWrite_commitWrite (clock : Clock) (v v' : UInt64) (hi : s.inodes[i]? = some a)
    (hno : ∀ e ∈ b, a.size.toNat + e.offset.toNat + e.length.toNat < 2 ^ 64) :
    AppendsAs a.size b (s.appendWrite clock i v b).1
        (s.commitWrite clock i v' (b.map (·.appendedTo a.size))).1 ∧
      (s.appendWrite clock i v b).2 =
        (s.commitWrite clock i v' (b.map (·.appendedTo a.size))).2 := by
  unfold appendWrite commitWrite
  cases s.validateRegularFile i with
  | error e => exact ⟨trivial, rfl⟩
  | ok _ =>
    cases s.layouts[i]? with
    | none => exact ⟨trivial, rfl⟩
    | some l =>
      have hstill (es : List FileExtent) : (s.setLayoutExtents i es).inodes[i]? = some a := hi
      simp only [inodeAt_of_some hi, andThen_ok, mergeAppended_eq, mergeCommitted_eq,
        accepted_appendedTo, validPrefix_appendedTo]
      cases hb : accepted b with
      | false => exact ⟨trivial, rfl⟩
      | true =>
        have hsize := grown_appendedTo hno
        unfold grown at hsize
        simp only [Bool.not_true, Bool.false_eq_true, if_false, inodeAt_of_some (hstill _),
          andThen_ok, validPrefix_eq_self.mpr (accepted_iff.mp hb), hsize, List.nil_append,
          and_true]
        exact ⟨rfl, rfl, rfl⟩

end MetaState

/-- An append of any batch that ends where 64 bits reach and the commit of the batch shifted by
the size of the file both fail or both succeed, whenever they are made, and the states they leave
differ in times alone: the extents, the size and the version are the same. What an append returns
is the size it found and the shifted batch. -/
theorem append_as_commit [OffsetSort] (s : MetaState) (i : UInt64) (a : InodeAttrs)
    (hi : s.inodes[i]? = some a) (b : List FileExtent)
    (hno : ∀ e ∈ b, a.size.toNat + e.offset.toNat + e.length.toNat < 2 ^ 64)
    (k k' : Clock) (v v' : UInt64) :
    let appended := s.appendWrite k i v b
    let committed := s.commitWrite k' i v' (b.map (·.appendedTo a.size))
    AppendsAs a.size b appended.1 committed.1 ∧
      appended.2.untimed = committed.2.untimed ∧
      (appended.2.layouts[i]?.map fun l => l.extents) =
        committed.2.layouts[i]?.map (fun l => l.extents) ∧
      (appended.2.inodes[i]?.map fun a => (a.size, a.version)) =
        committed.2.inodes[i]?.map fun a => (a.size, a.version) := by
  intro appended committed
  have ha : s.untimed.inodes[i]? = some a.untimed := by
    rw [MetaState.untimed_inodes, hi, Option.map_some]
  have hstill := MetaState.appendWrite_commitWrite .still v v' ha hno
  rw [InodeAttrs.untimed_size, ← MetaState.untimed_appendWrite s k,
    ← MetaState.untimed_commitWrite s k'] at hstill
  obtain ⟨hout, hstate⟩ := hstill
  have hstate : appended.2.untimed = committed.2.untimed := hstate
  refine ⟨hout.of_untimed, hstate, ?_, ?_⟩
  · have hl := congrArg (fun s : MetaState => s.layouts[i]?.map fun l => l.extents) hstate
    simp only [MetaState.untimed_layouts, Option.map_map] at hl
    exact hl
  · have hl := congrArg (fun s : MetaState => s.inodes[i]?.map fun a => (a.size, a.version)) hstate
    simp only [MetaState.untimed_inodes, Option.map_map] at hl
    exact hl

/-- Two appended extents, apart from each other, behind ten bytes; a third one is refused. -/
theorem append_as_commit_over_oneExtent :
    let e (offset length : UInt64) (key : String) : FileExtent :=
      { offset, length, objectKey := ascii key }
    let b := [e 3 2 "b", e 7 1 "c", e 1 0 "d"]
    (oneExtentState.inodes[(2 : UInt64)]?.map fun a => a.size) = some 10 ∧
      (@MetaState.appendWrite oneExtentState .insertion (fun _ => 8) 2 0 b).2.untimed =
        (@MetaState.commitWrite oneExtentState .insertion (fun _ => 9) 2 5
          [e 13 2 "b", e 17 1 "c", e 11 0 "d"]).2.untimed := by
  refine ⟨by decide, ?_⟩
  exact (@append_as_commit .insertion oneExtentState 2
    ((oneExtentState.inodes[(2 : UInt64)]?).getD {}) (by decide) _ (by decide) (fun _ => 8)
    (fun _ => 9) 0 5).2.1

end Pulpfs
