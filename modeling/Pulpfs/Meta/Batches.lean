import Pulpfs.Meta.State
import Mathlib.Data.List.TakeWhile

/-! The loops of `CommitWrite` and `AppendWrite` over the extents of a batch: both merge the valid
extents at the front of the batch one after the other and report whether that was all of it. -/
namespace Pulpfs
open Overlay

/-- The part of a batch that is merged. -/
def validPrefix (extents : List FileExtent) : List FileExtent :=
  extents.takeWhile fun e => !e.isInvalid

/-- Where `AppendWrite` puts an extent. -/
def FileExtent.appendedTo (e : FileExtent) (start : UInt64) : FileExtent :=
  { e with offset := start + e.offset }

theorem validPrefix_subset {extents : List FileExtent} {e : FileExtent}
    (h : e ∈ validPrefix extents) : e ∈ extents := (List.takeWhile_sublist _).subset h

theorem validPrefix_valid {extents : List FileExtent} {e : FileExtent}
    (h : e ∈ validPrefix extents) : e.isInvalid = false := by
  have hv := List.mem_takeWhile_imp h
  simpa using hv

theorem validPrefix_eq_self {extents : List FileExtent} :
    validPrefix extents = extents ↔ ∀ e ∈ extents, e.isInvalid = false := by
  rw [validPrefix, List.takeWhile_eq_self_iff]
  simp

/-- No extent of the batch is invalid. -/
def accepted (extents : List FileExtent) : Bool := extents.all fun e => !e.isInvalid

theorem accepted_iff {extents : List FileExtent} :
    accepted extents = true ↔ ∀ e ∈ extents, e.isInvalid = false := by
  simp [accepted]

section Appended

variable {start : UInt64} {extents : List FileExtent}

theorem inRange_of_append
    (hr : ∀ e ∈ extents, start.toNat + e.offset.toNat + e.length.toNat < 2 ^ 64) :
    ∀ e ∈ extents, e.InRange := by
  intro e he
  have h := hr e he
  unfold FileExtent.InRange
  omega

/-- A batch appended without overflow stays in range and stands for the patches moved to the
end. -/
theorem appendedTo_patches
    (hr : ∀ e ∈ extents, start.toNat + e.offset.toNat + e.length.toNat < 2 ^ 64) :
    (∀ e ∈ extents.map (·.appendedTo start), e.InRange) ∧
      (extents.map (·.appendedTo start)).map FileExtent.patch =
        (extents.map FileExtent.patch).map (Patch.shift start.toNat) := by
  constructor
  · rw [List.forall_mem_map]
    exact fun e he => (patch_shift (hr e he)).1
  · rw [List.map_map, List.map_map]
    exact List.map_congr_left fun e he => (patch_shift (hr e he)).2

/-- The end of a batch appended without overflow is in range. -/
theorem extent_append_lt
    (hr : ∀ e ∈ extents, start.toNat + e.offset.toNat + e.length.toNat < 2 ^ 64) :
    start.toNat + extent (0 : UInt64).toNat (extents.map FileExtent.patch) < 2 ^ 64 := by
  have hstart := start.toNat_lt
  have hle : extent (0 : UInt64).toNat (extents.map FileExtent.patch) ≤
      2 ^ 64 - 1 - start.toNat := by
    rw [extent_le]
    refine ⟨Nat.zero_le _, ?_⟩
    simp only [List.forall_mem_map]
    intro e he
    have h := hr e he
    show e.offset.toNat + e.length.toNat ≤ 2 ^ 64 - 1 - start.toNat
    omega
  omega

/-- The size `AppendWrite` stores. -/
theorem appendedSize_toNat
    (hr : ∀ e ∈ extents, start.toNat + e.offset.toNat + e.length.toNat < 2 ^ 64) :
    (start + extents.foldl (fun n e => max n (extentEnd e)) 0).toNat =
      start.toNat + extent (0 : UInt64).toNat (extents.map FileExtent.patch) := by
  rw [UInt64.toNat_add, foldl_extentEnd (inRange_of_append hr)]
  exact Nat.mod_eq_of_lt (extent_append_lt hr)

end Appended

section Batches

variable [OffsetSort]

/-- Merge extents into a layout one after the other. -/
def mergeAll (stored extents : List FileExtent) : List FileExtent :=
  extents.foldl mergeExtent stored

theorem mergeAll_append (stored extents more : List FileExtent) :
    mergeAll stored (extents ++ more) = mergeAll (mergeAll stored extents) more :=
  List.foldl_append

theorem mergeCommitted_eq (stored extents : List FileExtent) :
    mergeCommitted stored extents =
      (accepted extents, mergeAll stored (validPrefix extents)) := by
  induction extents generalizing stored with
  | nil => rfl
  | cons e es ih =>
    unfold mergeCommitted
    cases he : e.isInvalid with
    | true => simp [accepted, validPrefix, mergeAll, he]
    | false =>
      simp only [Bool.false_eq_true, if_false, ih]
      simp [accepted, validPrefix, mergeAll, he]

/-- Merging a batch keeps a layout disjoint and lays the batch over its content. -/
theorem Disjoint.mergeAll {es extents : List FileExtent} (h : Disjoint es)
    (hr : ∀ e ∈ extents, e.InRange) :
    Disjoint (mergeAll es extents) ∧
      contentOf (mergeAll es extents) =
        overlayAll (contentOf es) (extents.map FileExtent.patch) := by
  induction extents generalizing es with
  | nil => exact ⟨h, rfl⟩
  | cons e extents ih =>
    rw [List.forall_mem_cons] at hr
    obtain ⟨hd, hcont⟩ := ih (h.mergeExtent hr.1) hr.2
    refine ⟨hd, hcont.trans ?_⟩
    rw [contentOf_mergeExtent h hr.1]
    rfl

theorem mergeAppended_eq (start : UInt64) (acc : AppendState) (extents : List FileExtent) :
    mergeAppended start acc extents =
      (accepted extents,
        { appendLength := (validPrefix extents).foldl (fun n e => max n (extentEnd e))
            acc.appendLength
          committedExtents := acc.committedExtents ++
            (validPrefix extents).map (·.appendedTo start)
          storedExtents := mergeAll acc.storedExtents
            ((validPrefix extents).map (·.appendedTo start)) }) := by
  induction extents generalizing acc with
  | nil => simp [mergeAppended, accepted, validPrefix, mergeAll]
  | cons e es ih =>
    unfold mergeAppended
    cases he : e.isInvalid with
    | true => simp [accepted, validPrefix, mergeAll, he]
    | false =>
      simp only [Bool.false_eq_true, if_false, ih]
      simp [accepted, validPrefix, mergeAll, he, FileExtent.appendedTo]

end Batches

end Pulpfs
