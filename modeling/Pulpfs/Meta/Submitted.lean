import Pulpfs.Meta.References

/-! Where the extents of a layout come from. However often an extent is cut, what is stored is a
slice of one that was submitted, and its place in the object has followed its place in the
file. -/
namespace Pulpfs
open Transition

namespace FileExtent

/-- `p` is a part of `c`, as far from its start in the object as in the file. -/
def SliceOf (p c : FileExtent) : Prop :=
  ∃ skip : ℕ, p.offset.toNat = c.offset.toNat + skip ∧
    p.objectOffset.toNat = c.objectOffset.toNat + skip ∧
    skip + p.length.toNat ≤ c.length.toNat ∧
    p.objectKey = c.objectKey ∧ p.etag = c.etag ∧ p.checksum = c.checksum ∧
    p.objectSize = c.objectSize

/-- The bytes the extent refers to lie in its object. -/
def InObject (e : FileExtent) : Prop :=
  e.objectOffset.toNat + e.length.toNat ≤ e.objectSize.toNat

instance (e : FileExtent) : Decidable e.InObject := inferInstanceAs (Decidable (_ ≤ _))

theorem SliceOf.refl (e : FileExtent) : e.SliceOf e :=
  ⟨0, rfl, rfl, by omega, rfl, rfl, rfl, rfl⟩

theorem SliceOf.trans {p c d : FileExtent} (h : p.SliceOf c) (h' : c.SliceOf d) : p.SliceOf d := by
  obtain ⟨skip, ho, hb, hl, hkey, htag, hsum, hsize⟩ := h
  obtain ⟨skip', ho', hb', hl', hkey', htag', hsum', hsize'⟩ := h'
  exact ⟨skip' + skip, by omega, by omega, by omega, hkey.trans hkey', htag.trans htag',
    hsum.trans hsum', hsize.trans hsize'⟩

theorem SliceOf.inObject {p c : FileExtent} (h : p.SliceOf c) (hc : c.InObject) : p.InObject := by
  obtain ⟨skip, -, hb, hl, -, -, -, hsize⟩ := h
  unfold InObject at hc ⊢
  rw [hsize]
  omega

/-- What is cut out of an extent that lies in its object is a slice of it. -/
theorem CutFrom.sliceOf {p c : FileExtent} (h : p.CutFrom c) (hc : c.InObject) : p.SliceOf c := by
  rcases h with rfl | ⟨offset, length, rfl, hlo, hhi⟩
  · exact .refl p
  · have hskip := sub_toNat hlo
    have hsize := c.objectSize.toNat_lt
    unfold InObject at hc
    refine ⟨offset.toNat - c.offset.toNat, ?_, ?_, ?_, rfl, rfl, rfl, rfl⟩
    · show offset.toNat = _
      omega
    · show (c.objectOffset + (offset - c.offset)).toNat = _
      rw [UInt64.toNat_add, hskip, Nat.mod_eq_of_lt (by omega)]
    · show _ + length.toNat ≤ _
      omega

end FileExtent

/-- The extents a command submits to a file of the given size, where it puts them. -/
def Command.submitted (size : UInt64) (c : Command) : List FileExtent :=
  match c with
  | .appendWrite _ _ extents => extents.map (·.appendedTo size)
  | c => c.extents

/-- What a step submits to file `f`, whether or not it succeeds. -/
def submittedTo (f : UInt64) (e : Step MetaState Call (Outcome Reply)) : List FileExtent :=
  if e.input.command.written = some f then
    e.input.command.submitted (UInt64.ofNat (e.before.sizeOf f))
  else []

theorem Command.merged_submitted {c : Command} {size : UInt64} {e : FileExtent}
    (he : e ∈ c.merged size) : e ∈ c.submitted size := by
  unfold Command.merged at he
  split at he
  next => exact validPrefix_subset he
  next =>
    obtain ⟨d, hd, rfl⟩ := List.mem_map.mp he
    exact List.mem_map_of_mem (validPrefix_subset hd)
  next => contradiction

/-- Shifting an extent in the file leaves it in its object. -/
theorem Command.submitted_inObject {c : Command} (hc : ∀ e ∈ c.extents, e.InObject)
    (size : UInt64) : ∀ e ∈ c.submitted size, e.InObject := by
  unfold Command.submitted
  split
  next =>
    intro e he
    obtain ⟨d, hd, rfl⟩ := List.mem_map.mp he
    exact hc d hd
  next => exact hc

/-- Every extent stored for the file is a slice of one of these, which lies in its object. -/
def FileView.SlicesOf (sources : List FileExtent) (v : FileView) : Prop :=
  ∀ es, v.2 = some es → ∀ p ∈ es, ∃ c ∈ sources, c.InObject ∧ p.SliceOf c

theorem FileView.SlicesOf.mono {sources more : List FileExtent} {v : FileView}
    (h : v.SlicesOf sources) (hsub : sources ⊆ more) : v.SlicesOf more := by
  intro es hes p hp
  obtain ⟨c, hc, hsource⟩ := h es hes p hp
  exact ⟨c, hsub hc, hsource⟩

theorem FileView.SlicesOf.step {sources : List FileExtent} {v w : FileView}
    (h : v.SlicesOf sources) (hs : FileView.Step v w) : w.SlicesOf sources := by
  have hnil {es : List FileExtent} (he : some [] = some es) :
      ∀ p ∈ es, ∃ c ∈ sources, c.InObject ∧ p.SliceOf c := by
    obtain rfl := Option.some.inj he
    simp
  cases hs with
  | kept => exact h
  | removed => exact nofun
  | created type =>
    intro es hes
    dsimp only at hes
    split at hes
    next => exact hnil hes
    next => contradiction
  | laid => exact fun es hes => hnil hes

namespace MetaState

variable [OffsetSort] {s : MetaState}

/-- The step lemma. -/
theorem call_slicesOf {c : Call} {f : UInt64} {sources : List FileExtent}
    (hlaid : ∀ f, (s.fileView f).Laid) (h : (s.fileView f).SlicesOf sources)
    (hfits : FitsAt ⟨s, c, (s.call c).1, (s.call c).2⟩)
    (hin : ∀ e ∈ c.command.extents, e.InObject) :
    ((s.call c).2.fileView f).SlicesOf
      (sources ++ submittedTo f ⟨s, c, (s.call c).1, (s.call c).2⟩) := by
  by_cases hc : c.command.written = some f
  · rcases execute_writtenView (s := s) c.clock hc with hsame | ⟨size, stored, hview, hnew⟩
    · have hkept : (s.call c).2.fileView f = s.fileView f := hsame
      rw [hkept]
      exact h.mono (List.subset_append_left _ _)
    · have hmerged := hfits f hc (isFile_of_view hview)
      have hsubmitted : submittedTo f ⟨s, c, (s.call c).1, (s.call c).2⟩ =
          c.command.submitted size := by
        rw [submittedTo, if_pos hc, sizeOf_of_view hview, UInt64.ofNat_toNat]
      rw [sizeOf_of_view hview] at hmerged
      rw [hsubmitted]
      intro es hes
      obtain rfl := Option.some.inj ((congrArg Prod.snd hnew).symm.trans hes)
      have hcut {p d : FileExtent} (hpd : p.CutFrom d)
          (hd : ∃ e ∈ sources ++ c.command.submitted size, e.InObject ∧ d.SliceOf e) :
          ∃ e ∈ sources ++ c.command.submitted size, e.InObject ∧ p.SliceOf e := by
        obtain ⟨e, he, hobject, hde⟩ := hd
        exact ⟨e, he, hobject, (hpd.sliceOf (hde.inObject hobject)).trans hde⟩
      have hstored := (h.mono (List.subset_append_left _ (c.command.submitted size))) stored
        (congrArg Prod.snd hview)
      have hnewly : ∀ e ∈ c.command.merged size,
          ∃ d ∈ sources ++ c.command.submitted size, d.InObject ∧ e.SliceOf d := by
        intro e he
        have hmem := Command.merged_submitted he
        exact ⟨e, List.mem_append_right _ hmem, Command.submitted_inObject hin size e hmem,
          .refl e⟩
      have hmerge := forall_mergeAll hcut hstored
        (fun e he => (Command.merged_spec hmerged e he).1) hnewly
      unfold Command.extentsAfter
      split
      next => exact forall_truncateExtents hcut hstored _
      next => exact hmerge
  · exact (h.step (execute_view s c.clock c.command (hlaid _) hc)).mono
      (List.subset_append_left _ _)

/-- The run lemma. -/
theorem run_slicesOf {calls : List Call} {f : UInt64} {sources : List FileExtent}
    (hlaid : ∀ f, (s.fileView f).Laid) (h : (s.fileView f).SlicesOf sources)
    (hfits : ∀ e ∈ trace call calls s, FitsAt e)
    (hin : ∀ c ∈ calls, ∀ e ∈ c.command.extents, e.InObject) :
    ((final call calls s).fileView f).SlicesOf
      (sources ++ (trace call calls s).flatMap (submittedTo f)) := by
  induction calls generalizing s sources with
  | nil => exact h.mono (List.subset_append_left _ _)
  | cons c calls ih =>
    rw [trace_cons, List.forall_mem_cons] at hfits
    rw [List.forall_mem_cons] at hin
    have hstep := call_slicesOf hlaid h hfits.1 hin.1
    have hrest := ih (execute_laid s c.clock c.command hlaid) hstep hfits.2 hin.2
    rwa [trace_cons, List.flatMap_cons, ← List.append_assoc]

end MetaState

end Pulpfs
