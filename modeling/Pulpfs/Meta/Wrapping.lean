import Pulpfs.Meta.Appends

/-! The ends of extents as exact numbers. The calls that write check the length and the key of an
extent and take the sum of its offset and length as it comes; as long as no sum that is merged
wraps, the stored extents and the size are exact. -/
namespace Pulpfs
open Overlay Transition

theorem offset_lt_extentEnd {e : FileExtent} (hr : e.InRange) (hv : e.isInvalid = false) :
    e.offset < extentEnd e := by
  have hpos := FileExtent.length_pos hv
  rw [UInt64.lt_iff_toNat_lt, extentEnd_toNat hr]
  omega

/-- A batch laid down from `start` on ends where 64 bits reach, is inside the new size, and has
left no extent whose end wraps. -/
structure ExactAt (start : ℕ) (batch : List FileExtent) (f : UInt64) (s s' : MetaState) : Prop where
  fits : ∀ e ∈ batch, start + e.offset.toNat + e.length.toNat ≤ 2 ^ 64 - 1
  inside : ∀ e ∈ batch, start + e.offset.toNat + e.length.toNat ≤ s'.sizeOf f
  stored : ∀ layout, s'.layouts[f]? = some layout → ∀ e ∈ layout.extents, e.offset < extentEnd e
  grown : s.sizeOf f ≤ s'.sizeOf f

/-- A call that writes is refused, or its arithmetic is exact. -/
def NoWrapAt (e : Step MetaState Call (Outcome Reply)) : Prop :=
  (∀ f v batch, e.input.command = .commitWrite f v batch → e.output.isOk = true →
    ExactAt 0 batch f e.before e.after) ∧
  ∀ f v batch result, e.input.command = .appendWrite f v batch →
    e.output = .ok (.appended result) →
    ExactAt result.appendStart.toNat batch f e.before e.after

/-- The batch has no invalid extent. -/
def Command.isAccepted : Command → Bool
  | .commitWrite _ _ batch => accepted batch
  | .appendWrite _ _ batch => accepted batch
  | _ => true

namespace MetaState

variable [OffsetSort] {s : MetaState} {f : UInt64}

omit [OffsetSort] in
/-- A size that is large enough and stored extents of the right form. -/
theorem exactAt_of_view {s' : MetaState} {size size' : UInt64}
    {stored stored' batch : List FileExtent} {start : ℕ}
    (hview : s.fileView f = (some (.file, size), some stored))
    (hview' : s'.fileView f = (some (.file, size'), some stored')) (hrep : Represented stored')
    (hinside : ∀ e ∈ batch, start + e.offset.toNat + e.length.toNat ≤ size'.toNat)
    (hgrown : size.toNat ≤ size'.toNat) : ExactAt start batch f s s' := by
  have hsize := sizeOf_of_view hview'
  refine ⟨?_, ?_, ?_, ?_⟩
  · intro e he
    have := hinside e he
    have := size'.toNat_lt
    omega
  · rw [hsize]
    exact hinside
  · intro layout hl e he
    have hextents := congrArg Prod.snd hview'
    simp only [fileView, hl, Option.map_some, Option.some.injEq] at hextents
    subst hextents
    exact offset_lt_extentEnd (hrep.disjoint.inRange e he) (hrep.valid e he)
  · rw [hsize, sizeOf_of_view hview]
    exact hgrown

theorem commitWrite_exact {clock : Clock} {v : UInt64} {batch : List FileExtent}
    (hok : (s.commitWrite clock f v batch).1.isOk = true) (hrep : (s.fileView f).Represented)
    (hfits : ∀ e ∈ validPrefix batch, e.InRange) :
    ExactAt 0 batch f s (s.commitWrite clock f v batch).2 := by
  obtain ⟨a, l, hfile, hmerged, hview⟩ := commitWrite_ok hok
  rw [mergeCommitted_eq] at hmerged hview
  have hvalid := accepted_iff.mp hmerged
  rw [validPrefix_eq_self.mpr hvalid] at hfits hview
  have hsize := foldl_extentEnd hfits a.size
  have hstored := (hrep l.extents (congrArg Prod.snd hfile.view)).mergeAll hfits hvalid
  refine exactAt_of_view hfile.view hview hstored ?_ ?_
  · intro e he
    rw [hsize, Nat.zero_add]
    show e.patch.stop ≤ _
    exact stop_le_extent (List.mem_map_of_mem he)
  · rw [hsize]
    exact le_extent _ _

theorem appendWrite_exact {clock : Clock} {v size : UInt64} {stored batch : List FileExtent}
    {result : AppendWriteStateResult} {s' : MetaState}
    (hok : s.appendWrite clock f v batch = (.ok result, s'))
    (hview : s.fileView f = (some (.file, size), some stored)) (hrep : Represented stored)
    (hfits : ∀ e ∈ validPrefix batch, size.toNat + e.offset.toNat + e.length.toNat < 2 ^ 64) :
    ExactAt result.appendStart.toNat batch f s s' := by
  have hisOk : (s.appendWrite clock f v batch).1.isOk = true := by
    rw [hok]
    rfl
  obtain ⟨_, _, _, hmerged, _⟩ := appendWrite_ok hisOk
  rw [mergeAppended_eq] at hmerged
  have hvalid := accepted_iff.mp hmerged
  rw [validPrefix_eq_self.mpr hvalid] at hfits
  obtain ⟨hstart, -, hview'⟩ := appendWrite_reply hok hview
  have hsize := appendedSize_toNat hfits
  have hmoved : ∀ e ∈ batch.map (·.appendedTo size), e.isInvalid = false :=
    List.forall_mem_map.mpr hvalid
  have hstored := hrep.mergeAll (appendedTo_patches hfits).1 hmoved
  rw [hstart]
  refine exactAt_of_view hview hview' hstored ?_ ?_
  · intro e he
    rw [hsize, Nat.add_assoc, Nat.add_le_add_iff_left]
    show e.patch.stop ≤ _
    exact stop_le_extent (List.mem_map_of_mem he)
  · rw [hsize]
    exact Nat.le_add_right _ _

theorem appendWrite_of_call {c : Call} {v : UInt64} {batch : List FileExtent}
    {result : AppendWriteStateResult} (hc : c.command = .appendWrite f v batch)
    (ho : (s.call c).1 = .ok (.appended result)) :
    s.appendWrite c.clock f v batch = (.ok result, (s.call c).2) := by
  obtain ⟨clock, command⟩ := c
  obtain rfl : command = _ := hc
  show s.appendWrite clock f v batch = (.ok result, (s.appendWrite clock f v batch).2)
  have ho : ((s.appendWrite clock f v batch).1.map Reply.appended) = .ok (.appended result) := ho
  refine Prod.ext ?_ rfl
  cases hr : (s.appendWrite clock f v batch).1 with
  | ok r =>
    rw [hr] at ho
    obtain rfl : r = result := Reply.appended.inj (Outcome.ok.inj ho)
    rfl
  | error e =>
    rw [hr] at ho
    contradiction
  | outOfRange =>
    rw [hr] at ho
    contradiction
  | diverged =>
    rw [hr] at ho
    contradiction

/-- The step lemma. -/
theorem call_noWrap {c : Call} (hrep : ∀ f, (s.fileView f).Represented)
    (hfits : FitsAt ⟨s, c, (s.call c).1, (s.call c).2⟩) :
    NoWrapAt ⟨s, c, (s.call c).1, (s.call c).2⟩ := by
  constructor
  · intro f v batch hc hok
    obtain ⟨clock, command⟩ := c
    obtain rfl : command = _ := hc
    have hok : (s.commitWrite clock f v batch).1.isOk = true := isOk_map.symm.trans hok
    obtain ⟨a, l, hfile, -, -⟩ := commitWrite_ok hok
    exact commitWrite_exact hok (hrep f) (hfits f rfl (isFile_of_view hfile.view))
  · intro f v batch result hc ho
    have hok := appendWrite_of_call hc ho
    have hisOk : (s.appendWrite c.clock f v batch).1.isOk = true := by
      rw [hok]
      rfl
    obtain ⟨a, l, hfile, -, -⟩ := appendWrite_ok hisOk
    have hmerged := hfits f (by rw [hc]; rfl) (isFile_of_view hfile.view)
    rw [hc, sizeOf_of_view hfile.view] at hmerged
    exact appendWrite_exact hok hfile.view (hrep f _ (congrArg Prod.snd hfile.view)) hmerged

/-- A call with a good batch whose arithmetic is exact fits. -/
theorem fits_of_noWrap {c : Call} (hlaid : ∀ f, (s.fileView f).Laid)
    (hc : c.command.isAccepted = true)
    (h : NoWrapAt ⟨s, c, (s.call c).1, (s.call c).2⟩) :
    FitsAt ⟨s, c, (s.call c).1, (s.call c).2⟩ := by
  intro f hf hfile
  obtain ⟨size, stored, hview⟩ := view_of_isFile (hlaid f) hfile
  obtain ⟨a, l, hat, rfl, -⟩ := fileAt_of_view hview
  obtain ⟨clock, command⟩ := c
  cases command with
  | commitWrite i v batch =>
    obtain rfl := Option.some.inj hf
    have hok := commitWrite_isOk clock (v := v) hat (accepted_iff.mp hc)
    have hexact := h.1 i v batch rfl (isOk_map.trans hok)
    intro e he
    have := hexact.fits e (validPrefix_subset he)
    unfold FileExtent.InRange
    omega
  | appendWrite i v batch =>
    obtain rfl := Option.some.inj hf
    have hok := appendWrite_isOk clock (v := v) hat (accepted_iff.mp hc)
    obtain ⟨result, hresult⟩ : ∃ result, (s.appendWrite clock i v batch).1 = .ok result :=
      Outcome.exists_of_isOk hok
    have hreply := appendWrite_reply (Prod.ext hresult rfl) hat.view
    have hexact := h.2 i v batch result rfl (congrArg (Outcome.map Reply.appended) hresult)
    intro e he
    have := hexact.fits e (validPrefix_subset he)
    rw [hreply.1] at this
    rw [sizeOf_of_view hview]
    show a.size.toNat + _ + _ < _
    omega
  | truncate => trivial
  | mkdir => contradiction
  | createFile => contradiction
  | unlink => contradiction
  | rmdir => contradiction
  | rename => contradiction
  | setAttr => contradiction

/-- A batch with an invalid extent is refused. -/
theorem noWrap_of_refused {c : Call} (hc : c.command.isAccepted = false) :
    NoWrapAt ⟨s, c, (s.call c).1, (s.call c).2⟩ := by
  obtain ⟨clock, command⟩ := c
  constructor
  · intro f v batch hbatch hok
    obtain rfl : command = _ := hbatch
    obtain ⟨_, _, _, hmerged, _⟩ := commitWrite_ok (isOk_map.symm.trans hok)
    rw [mergeCommitted_eq] at hmerged
    exact absurd (hc.symm.trans hmerged) Bool.false_ne_true
  · intro f v batch result hbatch ho
    have hok := appendWrite_of_call hbatch ho
    obtain rfl : command = _ := hbatch
    have hisOk : (s.appendWrite clock f v batch).1.isOk = true := by
      rw [hok]
      rfl
    obtain ⟨_, _, _, hmerged, _⟩ := appendWrite_ok hisOk
    rw [mergeAppended_eq] at hmerged
    exact absurd (hc.symm.trans hmerged) Bool.false_ne_true

/-- The invariant: every file has its layout, and its extents have the stored form. -/
def WellStored (s : MetaState) : Prop := ∀ f, (s.fileView f).Laid ∧ (s.fileView f).Represented

theorem wellStored_run {calls : List Call} (h : s.WellStored)
    (hfits : ∀ e ∈ trace call calls s, FitsAt e) :
    (final call calls s).WellStored ∧
      ∀ e ∈ trace call calls s, e.before.WellStored ∧ e.after.WellStored := by
  refine invariant h ?_
  intro e he hb f
  have hafter : e.after = (e.before.call e.input).2 := congrArg Prod.snd (trace_step he).symm
  have hfit : FitsAt ⟨e.before, e.input, (e.before.call e.input).1, (e.before.call e.input).2⟩ :=
    hfits e he
  rw [hafter]
  exact ⟨execute_laid e.before e.input.clock e.input.command (fun f => (hb f).1) f,
    call_represented (fun f => (hb f).1) (hb f).2 fun _ => hfit⟩

end MetaState

/-- In every run in which nothing that is merged ends beyond 64 bits, every call that writes is
refused or exact. Of the next call this is so exactly when its batch is refused for an invalid
extent or does not end beyond 64 bits either. -/
theorem noWrap_of_run [OffsetSort] (chunkSize : UInt64) (nowNs : Int64) (calls : List Call)
    (hfits : ∀ e ∈ trace MetaState.call calls (.fresh chunkSize nowNs), FitsAt e) :
    (∀ e ∈ trace MetaState.call calls (.fresh chunkSize nowNs), NoWrapAt e) ∧
      ∀ c : Call,
        let s := final MetaState.call calls (.fresh chunkSize nowNs)
        let e : Step MetaState Call (Outcome Reply) := ⟨s, c, (s.call c).1, (s.call c).2⟩
        NoWrapAt e ↔ (c.command.isAccepted = true → FitsAt e) := by
  have hfresh : (MetaState.fresh chunkSize nowNs).WellStored := fun f =>
    ⟨MetaState.laid_fresh chunkSize nowNs f, MetaState.represented_fresh chunkSize nowNs f⟩
  obtain ⟨hlast, hall⟩ := MetaState.wellStored_run hfresh hfits
  constructor
  · intro e he
    have hstep : (e.before.call e.input) = (e.output, e.after) := trace_step he
    have hexact := MetaState.call_noWrap (fun f => ((hall e he).1 f).2) (c := e.input) (hfits e he)
    rwa [hstep] at hexact
  · intro c s e
    constructor
    · intro h hc
      exact MetaState.fits_of_noWrap (fun f => (hlast f).1) hc h
    · intro h
      cases hc : c.command.isAccepted with
      | false => exact MetaState.noWrap_of_refused hc
      | true => exact MetaState.call_noWrap (fun f => (hlast f).2) (h hc)

/-- Writes up to the last byte there can be, a batch refused before an extent beyond it, and an
append. -/
def limitCalls : List Call :=
  let e (offset length : UInt64) (key : String) : FileExtent :=
    { offset, length, objectKey := ascii key }
  [⟨fun _ => 1, .createFile 1 (ascii "f") 0o644 0 0⟩,
    ⟨fun _ => 2, .commitWrite 2 1 [e 0 8 "a", e 2 1 "b"]⟩,
    ⟨fun _ => 3, .appendWrite 2 2 [e 1 4 "c"]⟩,
    ⟨fun _ => 4, .commitWrite 2 3 [e 4 2 "d", e 8 0 "e", e 0xffffffffffffffff 2 "f"]⟩,
    ⟨fun _ => 5, .commitWrite 2 3 [e 0xfffffffffffffff0 15 "g"]⟩]

theorem noWrap_of_limitCalls :
    let last := final (@MetaState.call .insertion) limitCalls (.fresh 4096 0)
    (∀ e ∈ trace (@MetaState.call .insertion) limitCalls (.fresh 4096 0), NoWrapAt e) ∧
      ∀ c : Call,
        let e : Step MetaState Call (Outcome Reply) :=
          ⟨last, c, (@MetaState.call .insertion c last).1, (@MetaState.call .insertion c last).2⟩
        NoWrapAt e ↔ (c.command.isAccepted = true → FitsAt e) :=
  @noWrap_of_run .insertion 4096 0 limitCalls (by decide)

/-- Two bytes from the last position on are stored as an extent that ends before it starts, and an
append to a file of the largest size makes it small. -/
theorem wraps_beyond_limit :
    let e (offset length : UInt64) : FileExtent := { offset, length, objectKey := ascii "k" }
    let run (calls : List Call) := final (@MetaState.call .insertion)
      (⟨fun _ => 1, .createFile 1 (ascii "f") 0o644 0 0⟩ :: calls) (.fresh 4096 0)
    let step (s : MetaState) (c : Call) : Step MetaState Call (Outcome Reply) :=
      ⟨s, c, (@MetaState.call .insertion c s).1, (@MetaState.call .insertion c s).2⟩
    let committed := step (run []) ⟨fun _ => 2, .commitWrite 2 1 [e 0xffffffffffffffff 2]⟩
    let full := run [⟨fun _ => 2, .truncate 2 0xffffffffffffffff⟩]
    let appended := step full ⟨fun _ => 3, .appendWrite 2 2 [e 0 2]⟩
    committed.output.isOk = true ∧ committed.after.sizeOf 2 = 1 ∧ ¬ NoWrapAt committed ∧
      appended.output.isOk = true ∧ appended.after.sizeOf 2 = 1 ∧ ¬ NoWrapAt appended := by
  intro e run step committed full appended
  refine ⟨by decide, by decide, ?_, by decide, by decide, ?_⟩
  · intro h
    have hexact := h.1 2 1 _ rfl (by decide)
    exact absurd (hexact.fits _ List.mem_cons_self) (by decide)
  · intro h
    have hexact := h.2 2 2 _ _ rfl rfl
    exact absurd hexact.grown (by decide)

end Pulpfs
