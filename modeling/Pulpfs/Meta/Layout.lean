import Pulpfs.Meta.Content

/-! What a client can read off a file: the layout `GetLayout` returns as a sparse file, and what
the writes do to it. A client may hold a layout with an extent whose end overflows; such an
extent is kept or dropped as a whole and no read reaches it. -/
namespace Pulpfs
open Overlay

/-- The extents a read can reach. One whose end overflows is passed over. -/
def reachable (extents : List FileExtent) : List FileExtent :=
  extents.filter fun e => decide e.InRange

theorem reachable_cons_of_inRange {e : FileExtent} (h : e.InRange) (es : List FileExtent) :
    reachable (e :: es) = e :: reachable es := List.filter_cons_of_pos (decide_eq_true h)

theorem reachable_cons_of_not_inRange {e : FileExtent} (h : ¬ e.InRange) (es : List FileExtent) :
    reachable (e :: es) = reachable es := List.filter_cons_of_neg (by simpa using h)

theorem reachable_append (es es' : List FileExtent) :
    reachable (es ++ es') = reachable es ++ reachable es' := List.filter_append ..

theorem mem_reachable {e : FileExtent} {es : List FileExtent} :
    e ∈ reachable es ↔ e ∈ es ∧ e.InRange := by
  rw [reachable, List.mem_filter, decide_eq_true_iff]

theorem reachable_of_inRange {es : List FileExtent} (h : ∀ e ∈ es, e.InRange) :
    reachable es = es :=
  List.filter_eq_self.mpr fun e he => decide_eq_true (h e he)

theorem reachable_of_not_inRange {es : List FileExtent} (h : ∀ e ∈ es, ¬ e.InRange) :
    reachable es = [] :=
  List.filter_eq_nil_iff.mpr fun e he => by simpa using h e he

/-- Extents that lie apart are disjoint once those out of reach are left out. -/
theorem disjoint_reachable {es : List FileExtent}
    (h : (es.map FileExtent.patch).Pairwise Patch.Apart) : Disjoint (reachable es) := by
  refine ⟨fun e he => (mem_reachable.mp he).2, ?_⟩
  exact h.sublist (List.filter_sublist.map _)

/-- The end of an extent out of range has wrapped around to before its offset. -/
theorem extentEnd_le_of_not_inRange {e : FileExtent} (h : ¬ e.InRange) :
    (extentEnd e).toNat ≤ e.offset.toNat := by
  unfold FileExtent.InRange at h
  have h1 := e.offset.toNat_lt
  have h2 := e.length.toNat_lt
  rw [extentEnd, UInt64.toNat_add]
  omega

/-- An existing extent out of range is kept as it is or dropped. -/
theorem keptPieces_of_not_inRange {e c p : FileExtent} (he : e.InRange) (hc : ¬ c.InRange)
    (hp : p ∈ keptPieces e c) : p = c := by
  have hend := extentEnd_toNat he
  have hwrap := extentEnd_le_of_not_inRange hc
  unfold keptPieces at hp
  by_cases ho : overlaps c e = true
  · simp only [overlaps, Bool.and_eq_true, decide_eq_true_eq, UInt64.lt_iff_toNat_lt] at ho
    have hleft : ¬ c.offset < e.offset := by
      rw [UInt64.lt_iff_toNat_lt]
      omega
    have hright : ¬ extentEnd e < extentEnd c := by
      rw [UInt64.lt_iff_toNat_lt]
      omega
    simp only [hleft, hright, if_false, List.append_nil] at hp
    split at hp
    next => exact List.mem_singleton.mp hp
    next => simp at hp
  · simp only [Bool.not_eq_true] at ho
    simp only [ho, Bool.not_false, if_true, List.mem_singleton] at hp
    exact hp

/-- So it is by a truncation. -/
theorem keptBelow_of_not_inRange {size : UInt64} {c p : FileExtent} (hc : ¬ c.InRange)
    (hp : keptBelow size c = some p) : p = c := by
  have hwrap := extentEnd_le_of_not_inRange hc
  unfold keptBelow at hp
  split at hp
  next => contradiction
  next hge =>
    rw [ge_iff_le, UInt64.le_iff_toNat_le] at hge
    rw [if_neg (by rw [gt_iff_lt, UInt64.lt_iff_toNat_lt]; omega)] at hp
    exact (Option.some.inj hp).symm

theorem reachable_truncateExtents (size : UInt64) (es : List FileExtent) :
    reachable (truncateExtents size es) = truncateExtents size (reachable es) := by
  unfold truncateExtents
  induction es with
  | nil => rfl
  | cons c es ih =>
    by_cases hc : c.InRange
    · rw [reachable_cons_of_inRange hc, List.filterMap_cons, List.filterMap_cons]
      cases hk : keptBelow size c with
      | none => exact ih
      | some p =>
        dsimp only
        rw [reachable_cons_of_inRange ((keptBelow_spec hc).1 p hk).1, ih]
    · rw [reachable_cons_of_not_inRange hc, List.filterMap_cons]
      cases hk : keptBelow size c with
      | none => exact ih
      | some p =>
        dsimp only
        rw [keptBelow_of_not_inRange hc hk, reachable_cons_of_not_inRange hc, ih]

section Reach

/-- Leaving out what no read reaches commutes with keeping the pieces of a merge. -/
theorem reachable_flatMap_keptPieces {e : FileExtent} (he : e.InRange) (es : List FileExtent) :
    reachable (es.flatMap (keptPieces e)) = (reachable es).flatMap (keptPieces e) := by
  induction es with
  | nil => rfl
  | cons c es ih =>
    rw [List.flatMap_cons, reachable_append, ih]
    by_cases hc : c.InRange
    · rw [reachable_cons_of_inRange hc, List.flatMap_cons,
        reachable_of_inRange fun p hp => (keptPieces_spec he hc hp).1]
    · rw [reachable_cons_of_not_inRange hc, reachable_of_not_inRange, List.nil_append]
      intro p hp
      rw [keptPieces_of_not_inRange he hc hp]
      exact hc

variable [OffsetSort]

/-- A merge does to the reachable extents what it does to a layout of these alone. -/
theorem reachable_mergeExtent {es es' : List FileExtent} (h : (reachable es).Perm es')
    {e : FileExtent} (he : e.InRange) :
    (reachable (mergeExtent es e)).Perm (mergeExtent es' e) := by
  calc (reachable (mergeExtent es e)).Perm (reachable (es.flatMap (keptPieces e) ++ [e])) :=
        (mergeExtent_perm es e).filter _
    _ = (reachable es).flatMap (keptPieces e) ++ [e] := by
        rw [reachable_append, reachable_flatMap_keptPieces he, reachable_cons_of_inRange he]
        rfl
    _ |>.Perm (es'.flatMap (keptPieces e) ++ [e]) := (h.flatMap_right _).append_right _
    _ |>.Perm (mergeExtent es' e) := (mergeExtent_perm es' e).symm

theorem reachable_mergeAll {es es' extents : List FileExtent} (h : (reachable es).Perm es')
    (hr : ∀ e ∈ extents, e.InRange) :
    (reachable (mergeAll es extents)).Perm (mergeAll es' extents) := by
  induction extents generalizing es es' with
  | nil => exact h
  | cons e extents ih =>
    rw [List.forall_mem_cons] at hr
    exact ih (reachable_mergeExtent h hr.1) hr.2

theorem reachable_mergeCommitted {es es' extents : List FileExtent}
    (h : (reachable es).Perm es') (hr : ∀ e ∈ extents, e.InRange) :
    (mergeCommitted es extents).1 = (mergeCommitted es' extents).1 ∧
      (reachable (mergeCommitted es extents).2).Perm (mergeCommitted es' extents).2 := by
  rw [mergeCommitted_eq, mergeCommitted_eq]
  exact ⟨rfl, reachable_mergeAll h fun e he => hr e (validPrefix_subset he)⟩

theorem reachable_mergeAppended {start : UInt64} (acc acc' : AppendState)
    {extents : List FileExtent} (h : (reachable acc.storedExtents).Perm acc'.storedExtents)
    (hl : acc.appendLength = acc'.appendLength)
    (hr : ∀ e ∈ extents, start.toNat + e.offset.toNat + e.length.toNat < 2 ^ 64) :
    (mergeAppended start acc extents).1 = (mergeAppended start acc' extents).1 ∧
      (reachable (mergeAppended start acc extents).2.storedExtents).Perm
        (mergeAppended start acc' extents).2.storedExtents ∧
      (mergeAppended start acc extents).2.appendLength =
        (mergeAppended start acc' extents).2.appendLength := by
  have hmoved := appendedTo_patches fun e he => hr e (validPrefix_subset he)
  rw [mergeAppended_eq, mergeAppended_eq, hl]
  exact ⟨rfl, reachable_mergeAll h hmoved.1, rfl⟩

end Reach

namespace FileExtent

/-- The object range of `p` is part of the one of `c`. -/
def Within (p c : FileExtent) : Prop :=
  p.objectKey = c.objectKey ∧ ∃ skip : UInt64, p.objectOffset = c.objectOffset + skip ∧
    skip.toNat + p.length.toNat ≤ c.length.toNat

theorem Within.refl (e : FileExtent) : e.Within e := ⟨rfl, 0, by simp, by simp⟩

theorem Within.trans {p c d : FileExtent} (h : p.Within c) (h' : c.Within d) : p.Within d := by
  obtain ⟨hkey, skip, hoff, hle⟩ := h
  obtain ⟨hkey', skip', hoff', hle'⟩ := h'
  have hd := d.length.toNat_lt
  refine ⟨hkey.trans hkey', skip' + skip, ?_, ?_⟩
  · rw [hoff, hoff', UInt64.add_assoc]
  · rw [UInt64.toNat_add]
    omega

/-- Where in the file an extent lies does not matter for the object range. -/
theorem within_shift (e : FileExtent) (offset : UInt64) :
    ({ e with offset } : FileExtent).Within e := Within.refl e

end FileExtent

/-- `p` is `c` or a slice inside `c`. -/
def FileExtent.CutFrom (p c : FileExtent) : Prop :=
  p = c ∨ ∃ offset length : UInt64, p = sliceExtent c offset length ∧
    c.offset.toNat ≤ offset.toNat ∧
    offset.toNat + length.toNat ≤ c.offset.toNat + c.length.toNat

theorem FileExtent.CutFrom.within {p c : FileExtent} (h : p.CutFrom c) : p.Within c := by
  rcases h with rfl | ⟨offset, length, rfl, hlo, hhi⟩
  · exact .refl p
  · refine ⟨rfl, offset - c.offset, rfl, ?_⟩
    show (offset - c.offset).toNat + length.toNat ≤ c.length.toNat
    rw [sub_toNat hlo]
    omega

theorem keptPieces_cutFrom {e c p : FileExtent} (he : e.InRange) (hp : p ∈ keptPieces e c) :
    p.CutFrom c := by
  by_cases hc : c.InRange
  · have hend := extentEnd_toNat he
    have hcend := extentEnd_toNat hc
    unfold keptPieces at hp
    by_cases ho : overlaps c e = true
    · rw [overlaps_iff hc he] at ho
      simp only [(overlaps_iff hc he).mpr ho, Bool.not_true, Bool.false_eq_true, if_false,
        List.mem_append] at hp
      rcases hp with hp | hp
      · split at hp
        next hlt =>
          rw [UInt64.lt_iff_toNat_lt] at hlt
          refine .inr ⟨_, _, List.mem_singleton.mp hp, le_rfl, ?_⟩
          rw [sub_toNat hlt.le]
          omega
        next => simp at hp
      · split at hp
        next hlt =>
          rw [UInt64.lt_iff_toNat_lt] at hlt
          refine .inr ⟨_, _, List.mem_singleton.mp hp, by omega, ?_⟩
          rw [sub_toNat hlt.le]
          omega
        next => simp at hp
    · simp only [Bool.not_eq_true] at ho
      simp only [ho, Bool.not_false, if_true, List.mem_singleton] at hp
      exact .inl hp
  · exact .inl (keptPieces_of_not_inRange he hc hp)

theorem keptBelow_cutFrom {size : UInt64} {c p : FileExtent} (hp : keptBelow size c = some p) :
    p.CutFrom c := by
  by_cases hc : c.InRange
  · have hend := extentEnd_toNat hc
    unfold keptBelow at hp
    split at hp
    next => contradiction
    next hge =>
      rw [ge_iff_le, UInt64.le_iff_toNat_le] at hge
      split at hp
      next hgt =>
        rw [gt_iff_lt, UInt64.lt_iff_toNat_lt] at hgt
        refine .inr ⟨_, _, (Option.some.inj hp).symm, le_rfl, ?_⟩
        rw [sub_toNat (by omega)]
        omega
      next => exact .inl (Option.some.inj hp).symm
  · exact .inl (keptBelow_of_not_inRange hc hp)

section Cut

variable {P : FileExtent → Prop} (hcut : ∀ {p c : FileExtent}, p.CutFrom c → P c → P p)
include hcut

theorem forall_truncateExtents {es : List FileExtent} (h : ∀ c ∈ es, P c) (size : UInt64) :
    ∀ p ∈ truncateExtents size es, P p := by
  intro p hp
  obtain ⟨c, hc, hp⟩ := List.mem_filterMap.mp hp
  exact hcut (keptBelow_cutFrom hp) (h c hc)

variable [OffsetSort]

/-- What every slice has of what it is cut from, a merge keeps. -/
theorem forall_mergeExtent {es : List FileExtent} {e : FileExtent} (h : ∀ c ∈ es, P c)
    (he : e.InRange) (hPe : P e) : ∀ p ∈ mergeExtent es e, P p := by
  intro p hp
  rw [(mergeExtent_perm es e).mem_iff, List.mem_append, List.mem_flatMap] at hp
  rcases hp with ⟨c, hc, hp⟩ | hp
  · exact hcut (keptPieces_cutFrom he hp) (h c hc)
  · exact List.mem_singleton.mp hp ▸ hPe

theorem forall_mergeAll {es extents : List FileExtent} (h : ∀ c ∈ es, P c)
    (hr : ∀ e ∈ extents, e.InRange) (hP : ∀ e ∈ extents, P e) :
    ∀ p ∈ mergeAll es extents, P p := by
  induction extents generalizing es with
  | nil => exact h
  | cons e extents ih =>
    rw [List.forall_mem_cons] at hr hP
    exact ih (forall_mergeExtent hcut h hr.1 hP.1) hr.2 hP.2

end Cut

section Within

variable [OffsetSort]

/-- What is stored after a merge was stored before or belongs to the batch. -/
theorem mergeAll_within {es extents : List FileExtent} (hr : ∀ e ∈ extents, e.InRange)
    {p : FileExtent} (hp : p ∈ mergeAll es extents) : ∃ c ∈ es ++ extents, p.Within c := by
  refine forall_mergeAll (P := fun p => ∃ c ∈ es ++ extents, p.Within c) ?_ ?_ hr ?_ p hp
  · rintro p c hpc ⟨d, hd, hcd⟩
    exact ⟨d, hd, hpc.within.trans hcd⟩
  · exact fun c hc => ⟨c, List.mem_append_left _ hc, .refl c⟩
  · exact fun e he => ⟨e, List.mem_append_right _ he, .refl e⟩

theorem mergeCommitted_within {es extents : List FileExtent} (hr : ∀ e ∈ extents, e.InRange)
    {p : FileExtent} (hp : p ∈ (mergeCommitted es extents).2) :
    ∃ c ∈ es ++ extents, p.Within c := by
  rw [mergeCommitted_eq] at hp
  obtain ⟨c, hc, hpc⟩ := mergeAll_within (fun e he => hr e (validPrefix_subset he)) hp
  rcases List.mem_append.mp hc with hc | hc
  · exact ⟨c, List.mem_append_left _ hc, hpc⟩
  · exact ⟨c, List.mem_append_right _ (validPrefix_subset hc), hpc⟩

theorem mergeAppended_within {start : UInt64} (acc : AppendState) {extents : List FileExtent}
    (hr : ∀ e ∈ extents, start.toNat + e.offset.toNat + e.length.toNat < 2 ^ 64)
    {p : FileExtent} (hp : p ∈ (mergeAppended start acc extents).2.storedExtents) :
    ∃ c ∈ acc.storedExtents ++ extents, p.Within c := by
  rw [mergeAppended_eq] at hp
  obtain ⟨c, hc, hpc⟩ :=
    mergeAll_within (appendedTo_patches fun e he => hr e (validPrefix_subset he)).1 hp
  rcases List.mem_append.mp hc with hc | hc
  · exact ⟨c, List.mem_append_left _ hc, hpc⟩
  · obtain ⟨e, he, rfl⟩ := List.mem_map.mp hc
    exact ⟨e, List.mem_append_right _ (validPrefix_subset he), hpc.trans (e.within_shift _)⟩

end Within

/-- The file a client sees in a layout it was given. -/
def FileLayout.file (layout : FileLayout) : SparseFile ObjectByte :=
  ⟨layout.attrs.size.toNat, contentOf (reachable layout.extents)⟩

namespace MetaState

variable {s : MetaState} {i : UInt64} {l : FileLayout} {clock : Clock}

/-- A layout that was got is the one of a regular file, with the attributes of its inode. -/
theorem getLayout_ok (h : s.getLayout i = .ok l) :
    ∃ stored, s.FileAt i l.attrs stored ∧ stored.extents = l.extents := by
  unfold getLayout at h
  cases hv : s.validateRegularFile i with
  | error e =>
    rw [hv] at h
    contradiction
  | ok _ =>
    obtain ⟨a, ha, ht⟩ := validateRegularFile_inode hv
    cases hl : s.layouts[i]? with
    | none =>
      rw [hv, hl] at h
      contradiction
    | some stored =>
      simp only [hv, hl, inodeAt_of_some ha, Outcome.map, Outcome.ok.injEq] at h
      subst h
      exact ⟨stored, ⟨ha, ht, hl⟩, rfl⟩

theorem view_of_getLayout (h : s.getLayout i = .ok l) :
    s.fileView i = (some (.file, l.attrs.size), some l.extents) := by
  obtain ⟨stored, hf, hext⟩ := getLayout_ok h
  rw [hf.view, hext]

theorem FileAt.validate {a : InodeAttrs} (h : s.FileAt i a l) :
    s.validateRegularFile i = .ok () := by
  simp only [validateRegularFile, h.inode_eq, h.type_eq]
  rfl

theorem FileAt.getLayout {a : InodeAttrs} (h : s.FileAt i a l) :
    s.getLayout i = .ok { l with attrs := a } := by
  simp only [MetaState.getLayout, h.validate, h.layout_eq, inodeAt_of_some h.inode_eq]
  rfl

theorem fileAt_of_view {size : UInt64} {extents : List FileExtent}
    (h : s.fileView i = (some (.file, size), some extents)) :
    ∃ a l, s.FileAt i a l ∧ a.size = size ∧ l.extents = extents := by
  obtain ⟨hi, hl⟩ := Prod.mk.inj h
  obtain ⟨a, ha, had⟩ := Option.map_eq_some_iff.mp hi
  obtain ⟨l, hl, hle⟩ := Option.map_eq_some_iff.mp hl
  obtain ⟨ht, hs⟩ := Prod.mk.inj had
  exact ⟨a, l, ⟨ha, ht, hl⟩, hs, hle⟩

/-- A file seen by its type, size and extents has a layout to get. -/
theorem getLayout_of_view {size : UInt64} {extents : List FileExtent}
    (h : s.fileView i = (some (.file, size), some extents)) :
    ∃ l, s.getLayout i = .ok l ∧ l.attrs.size = size ∧ l.extents = extents := by
  obtain ⟨a, l, hf, hs, hle⟩ := fileAt_of_view h
  exact ⟨_, hf.getLayout, hs, hle⟩

variable [OffsetSort] {v : UInt64} {es : List FileExtent} (clock)

theorem commitWrite_isOk {a : InodeAttrs} (h : s.FileAt i a l)
    (hv : ∀ e ∈ es, e.isInvalid = false) : (s.commitWrite clock i v es).1.isOk = true := by
  have hstill (es' : List FileExtent) : (s.setLayoutExtents i es').inodes[i]? = some a :=
    h.inode_eq
  simp only [commitWrite, h.validate, h.layout_eq, mergeCommitted_eq, accepted_iff.mpr hv,
    Bool.not_true, Bool.false_eq_true, if_false, inodeAt_of_some (hstill _)]
  rfl

theorem appendWrite_isOk {a : InodeAttrs} (h : s.FileAt i a l)
    (hv : ∀ e ∈ es, e.isInvalid = false) : (s.appendWrite clock i v es).1.isOk = true := by
  simp only [appendWrite, h.validate, h.layout_eq, inodeAt_of_some h.inode_eq, andThen_ok,
    mergeAppended_eq, accepted_iff.mpr hv, Bool.not_true, Bool.false_eq_true, if_false]
  rfl

omit [OffsetSort] in
theorem truncate_isOk {a : InodeAttrs} (h : s.FileAt i a l) (size : UInt64) :
    (s.truncate clock i size).1.isOk = true := by
  have hstill (es' : List FileExtent) : (s.setLayoutExtents i es').inodes[i]? = some a :=
    h.inode_eq
  simp only [truncate, h.validate, h.layout_eq, inodeAt_of_some (hstill _)]
  rfl

/-- What the client gets of a file once the server has applied a write to it. -/
structure Written (s : MetaState) (i : UInt64) (l : FileLayout) (es : List FileExtent)
    (r : SparseFile ObjectByte) (l' : FileLayout) : Prop where
  got : s.getLayout i = .ok l'
  disjoint : Disjoint (reachable l'.extents)
  file_eq : l'.file = r
  within : ∀ p ∈ l'.extents, ∃ c ∈ l.extents ++ es, p.Within c

/-- Committing extents lays them over the file. -/
theorem commitWrite_written (hl : s.getLayout i = .ok l)
    (hd : Disjoint (reachable l.extents)) (hv : ∀ e ∈ es, e.isInvalid = false)
    (hr : ∀ e ∈ es, e.InRange) :
    (s.commitWrite clock i v es).1.isOk = true ∧
      ∃ l', Written (s.commitWrite clock i v es).2 i l es
        (l.file.write (es.map FileExtent.patch)) l' := by
  obtain ⟨stored, hf, hext⟩ := getLayout_ok hl
  have hok := commitWrite_isOk clock (v := v) hf hv
  refine ⟨hok, ?_⟩
  obtain ⟨a, l₀, hf₀, hm, hview⟩ := commitWrite_ok hok
  obtain ⟨l', hgot, hsize, hext'⟩ := getLayout_of_view hview
  obtain rfl := Option.some.inj (hf₀.inode_eq.symm.trans hf.inode_eq)
  obtain rfl := Option.some.inj (hf₀.layout_eq.symm.trans hf.layout_eq)
  rw [hext] at hm hext'
  obtain ⟨hflag, hperm⟩ := reachable_mergeCommitted (List.Perm.refl (reachable l.extents)) hr
  obtain ⟨hd', hc'⟩ := mergeCommitted_spec hd hr (hflag.symm.trans hm)
  refine ⟨l', hgot, ?_, ?_, ?_⟩
  · rw [hext']
    exact hd'.perm hperm.symm
  · rw [FileLayout.file, hsize, hext', foldl_extentEnd hr]
    have hcont : contentOf (reachable (mergeCommitted l.extents es).2) =
        contentOf (mergeCommitted (reachable l.extents) es).2 :=
      overlayAll_perm (hperm.map _) (hd'.perm hperm.symm).apart
    rw [hcont, hc']
    rfl
  · intro p hp
    rw [hext'] at hp
    exact mergeCommitted_within hr hp

/-- Appending extents lays them over the file from its end on. -/
theorem appendWrite_written (hl : s.getLayout i = .ok l)
    (hd : Disjoint (reachable l.extents)) (hv : ∀ e ∈ es, e.isInvalid = false)
    (hr : ∀ e ∈ es, l.attrs.size.toNat + e.offset.toNat + e.length.toNat < 2 ^ 64) :
    (s.appendWrite clock i v es).1.isOk = true ∧
      ∃ l', Written (s.appendWrite clock i v es).2 i l es
        (l.file.append (es.map FileExtent.patch)) l' := by
  obtain ⟨stored, hf, hext⟩ := getLayout_ok hl
  have hok := appendWrite_isOk clock (v := v) hf hv
  refine ⟨hok, ?_⟩
  obtain ⟨a, l₀, hf₀, hm, hview⟩ := appendWrite_ok hok
  obtain ⟨l', hgot, hsize, hext'⟩ := getLayout_of_view hview
  obtain rfl := Option.some.inj (hf₀.inode_eq.symm.trans hf.inode_eq)
  obtain rfl := Option.some.inj (hf₀.layout_eq.symm.trans hf.layout_eq)
  rw [hext] at hm hext' hsize
  obtain ⟨hflag, hperm, hlen⟩ := reachable_mergeAppended ⟨0, [], l.extents⟩
    ⟨0, [], reachable l.extents⟩ (List.Perm.refl (reachable l.extents)) rfl hr
  obtain ⟨hd', hc', hlen', _⟩ := mergeAppended_spec ⟨0, [], reachable l.extents⟩ hd hr
    (hflag.symm.trans hm)
  refine ⟨l', hgot, ?_, ?_, ?_⟩
  · rw [hext']
    exact hd'.perm hperm.symm
  · have hcont := (overlayAll_perm (f := fun _ => none) (hperm.map FileExtent.patch)
      (hd'.perm hperm.symm).apart).trans hc'
    rw [FileLayout.file, hsize, hext', hlen, UInt64.toNat_add, hlen',
      Nat.mod_eq_of_lt (extent_append_lt hr), contentOf, content, hcont,
      ← extent_shift l.attrs.size.toNat]
    rfl
  · intro p hp
    rw [hext'] at hp
    exact mergeAppended_within ⟨0, [], l.extents⟩ hr hp

omit [OffsetSort] in
/-- Truncating forgets what lies from the new size on. -/
theorem truncate_written (hl : s.getLayout i = .ok l) (hd : Disjoint (reachable l.extents))
    (size : UInt64) : (s.truncate clock i size).1.isOk = true ∧
      ∃ l', Written (s.truncate clock i size).2 i l [] (l.file.truncate size.toNat) l' := by
  obtain ⟨stored, hf, hext⟩ := getLayout_ok hl
  have hok := truncate_isOk clock hf size
  refine ⟨hok, ?_⟩
  obtain ⟨a, l₀, hf₀, hview⟩ := truncate_ok hok
  obtain ⟨l', hgot, hsize, hext'⟩ := getLayout_of_view hview
  obtain rfl := Option.some.inj (hf₀.layout_eq.symm.trans hf.layout_eq)
  rw [hext] at hext'
  refine ⟨l', hgot, ?_, ?_, ?_⟩
  · rw [hext', reachable_truncateExtents]
    exact hd.truncateExtents size
  · rw [FileLayout.file, hsize, hext', reachable_truncateExtents,
      contentOf_truncateExtents hd size]
    rfl
  · intro p hp
    rw [hext'] at hp
    obtain ⟨c, hc, hp⟩ := List.mem_filterMap.mp hp
    exact ⟨c, List.mem_append_left _ hc, (keptBelow_cutFrom hp).within⟩

end MetaState

end Pulpfs
