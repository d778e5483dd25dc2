import Pulpfs.Meta.State

/-! The ways in which a call that writes to a file ends. What such a call keeps is read off
these. -/
namespace Pulpfs

/-- The attributes a write leaves. -/
def InodeAttrs.rewritten (a : InodeAttrs) (size : UInt64) (nowNs : Int64) : InodeAttrs :=
  { a with size, version := a.version + 1, mtimeNs := nowNs, ctimeNs := nowNs }

namespace MetaState

variable {α : Type}

/-- A call that writes to a file is refused, or fails at an extent with those before it stored,
or stores its extents and the attributes that go with them. -/
inductive Wrote (s : MetaState) (i : UInt64) (r : Result α) : Prop
  | refused (e : Error) : r = (.error e, s) → Wrote s i r
  | midway (e : Error) (es : List FileExtent) :
      r = (.error e, s.setLayoutExtents i es) → Wrote s i r
  | written (x : α) (a : InodeAttrs) (size : UInt64) (nowNs : Int64) (es : List FileExtent) :
      s.inodes[i]? = some a →
      r = (.ok x, ((s.setLayoutExtents i es).storeInode i (a.rewritten size nowNs)).setLayoutAttrs i
        (a.rewritten size nowNs)) → Wrote s i r

/-- The reply of a write is made of what the state machine returned. -/
theorem Wrote.map {β : Type} {s : MetaState} {i : UInt64} {r : Result α} (h : s.Wrote i r)
    (g : α → β) : s.Wrote i (r.map g) := by
  cases h with
  | refused e hr => exact .refused e (by rw [hr]; rfl)
  | midway e es hr => exact .midway e es (by rw [hr]; rfl)
  | written x a size nowNs es ha hr => exact .written (g x) a size nowNs es ha (by rw [hr]; rfl)

variable (s : MetaState) (clock : Clock)

section Writes

variable [OffsetSort]

theorem commitWrite_wrote (i v : UInt64) (es : List FileExtent) :
    s.Wrote i (s.commitWrite clock i v es) := by
  unfold commitWrite
  cases hv : s.validateRegularFile i with
  | error e => exact .refused e rfl
  | ok _ =>
    obtain ⟨a, ha, -⟩ := validateRegularFile_inode hv
    cases s.layouts[i]? with
    | none => exact .refused _ rfl
    | some l =>
      have hstill (es' : List FileExtent) : (s.setLayoutExtents i es').inodes[i]? = some a := ha
      simp only
      split
      · exact .midway _ _ rfl
      · simp only [inodeAt_of_some (hstill _), andThen_ok]
        exact .written _ a _ (clock 0) _ ha rfl

theorem appendWrite_wrote (i v : UInt64) (es : List FileExtent) :
    s.Wrote i (s.appendWrite clock i v es) := by
  unfold appendWrite
  cases hv : s.validateRegularFile i with
  | error e => exact .refused e rfl
  | ok _ =>
    obtain ⟨a, ha, -⟩ := validateRegularFile_inode hv
    cases s.layouts[i]? with
    | none => exact .refused _ rfl
    | some l =>
      simp only [inodeAt_of_some ha, andThen_ok]
      split
      · exact .midway _ _ rfl
      · exact .written _ a _ (clock 0) _ ha rfl

end Writes

theorem truncate_wrote (i size : UInt64) : s.Wrote i (s.truncate clock i size) := by
  unfold truncate
  cases hv : s.validateRegularFile i with
  | error e => exact .refused e rfl
  | ok _ =>
    obtain ⟨a, ha, -⟩ := validateRegularFile_inode hv
    cases s.layouts[i]? with
    | none => exact .refused _ rfl
    | some l =>
      have hstill (es' : List FileExtent) : (s.setLayoutExtents i es').inodes[i]? = some a := ha
      simp only [inodeAt_of_some (hstill _), andThen_ok]
      exact .written _ a _ (clock 0) _ ha rfl

end MetaState

end Pulpfs
