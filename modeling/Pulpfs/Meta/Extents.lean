import Pulpfs.Messages
import Pulpfs.Foundations.Overlay
import Mathlib.Data.UInt
import Mathlib.Data.List.Sort

/-! Extent arithmetic of `meta_state.cc`: slicing, merging and truncating the extents of a
file, and what these do to the map from file positions to object bytes. -/
namespace Pulpfs
open Overlay

/-- `std::sort` by offset as the standard describes it: some permutation in non-decreasing
order. It may place extents of equal offset either way round. -/
class OffsetSort where
  sort : List FileExtent → List FileExtent
  perm : ∀ l, (sort l).Perm l
  sorted : ∀ l, (sort l).Pairwise fun a b => a.offset ≤ b.offset

/-- One such sort, to run the model with. -/
@[reducible] def OffsetSort.insertion : OffsetSort where
  sort := List.insertionSort fun a b => a.offset ≤ b.offset
  perm := List.perm_insertionSort _
  sorted := List.pairwise_insertionSort _

def extentEnd (extent : FileExtent) : UInt64 := extent.offset + extent.length

def overlaps (lhs rhs : FileExtent) : Bool :=
  decide (lhs.offset < extentEnd rhs) && decide (rhs.offset < extentEnd lhs)

def sliceExtent (extent : FileExtent) (offset length : UInt64) : FileExtent :=
  let delta := offset - extent.offset
  { extent with offset, length, objectOffset := extent.objectOffset + delta }

/-- What the loop of `MergeExtent` keeps of one existing extent. -/
def keptPieces (extent existing : FileExtent) : List FileExtent :=
  if !overlaps existing extent then
    [existing]
  else
    (if existing.offset < extent.offset then
      [sliceExtent existing existing.offset (extent.offset - existing.offset)] else []) ++
    (if extentEnd extent < extentEnd existing then
      [sliceExtent existing (extentEnd extent) (extentEnd existing - extentEnd extent)] else [])

def mergeExtent [OffsetSort] (storedExtents : List FileExtent) (extent : FileExtent) :
    List FileExtent :=
  OffsetSort.sort (storedExtents.flatMap (keptPieces extent) ++ [extent])

/-- The loop of `Truncate` on one extent. -/
def keptBelow (size : UInt64) (extent : FileExtent) : Option FileExtent :=
  if extent.offset ≥ size then none
  else if extentEnd extent > size then
    some (sliceExtent extent extent.offset (size - extent.offset))
  else some extent

def truncateExtents (size : UInt64) (extents : List FileExtent) : List FileExtent :=
  extents.filterMap (keptBelow size)

/-- A byte of an object of the object store. -/
structure ObjectByte where
  key : Bytes
  position : UInt64
  deriving DecidableEq

namespace FileExtent

/-- The end of the extent does not exceed the largest 64-bit value. -/
def InRange (e : FileExtent) : Prop := e.offset.toNat + e.length.toNat < 2 ^ 64

instance (e : FileExtent) : Decidable e.InRange := inferInstanceAs (Decidable (_ < _))

/-- The extent as a map from file positions to object bytes. -/
def patch (e : FileExtent) : Patch ObjectByte where
  start := e.offset.toNat
  stop := e.offset.toNat + e.length.toNat
  value := fun x => ⟨e.objectKey, e.objectOffset + UInt64.ofNat (x - e.offset.toNat)⟩

theorem patch_covers {e : FileExtent} {x : ℕ} :
    e.patch.Covers x ↔ e.offset.toNat ≤ x ∧ x < e.offset.toNat + e.length.toNat := Iff.rfl

end FileExtent

theorem extentEnd_toNat {e : FileExtent} (h : e.InRange) :
    (extentEnd e).toNat = e.offset.toNat + e.length.toNat := by
  unfold FileExtent.InRange at h
  rw [extentEnd, UInt64.toNat_add]
  omega

theorem sub_toNat {a b : UInt64} (h : a.toNat ≤ b.toNat) : (b - a).toNat = b.toNat - a.toNat :=
  UInt64.toNat_sub_of_le b a (UInt64.le_iff_toNat_le.mpr h)

theorem overlaps_iff {a b : FileExtent} (ha : a.InRange) (hb : b.InRange) :
    overlaps a b = true ↔ a.offset.toNat < b.offset.toNat + b.length.toNat ∧
      b.offset.toNat < a.offset.toNat + a.length.toNat := by
  simp only [overlaps, Bool.and_eq_true, decide_eq_true_eq, UInt64.lt_iff_toNat_lt,
    extentEnd_toNat ha, extentEnd_toNat hb]

/-- A slice inside an extent stays in range, lies inside it and maps to the same bytes. -/
theorem sliceExtent_spec {e : FileExtent} (offset length : UInt64) (he : e.InRange)
    (hlo : e.offset.toNat ≤ offset.toNat)
    (hhi : offset.toNat + length.toNat ≤ e.offset.toNat + e.length.toNat) :
    (sliceExtent e offset length).InRange ∧
      ∀ x, (sliceExtent e offset length).patch.Covers x →
        e.patch.Covers x ∧ (sliceExtent e offset length).patch.value x = e.patch.value x := by
  unfold FileExtent.InRange at he
  constructor
  · show offset.toNat + length.toNat < 2 ^ 64
    omega
  · intro x hx
    obtain ⟨h1, h2⟩ := hx
    simp only [FileExtent.patch, sliceExtent] at h1 h2
    constructor
    · rw [FileExtent.patch_covers]
      omega
    · have hdelta : offset - e.offset = UInt64.ofNat (offset.toNat - e.offset.toNat) := by
        apply UInt64.toNat_inj.mp
        rw [sub_toNat hlo, UInt64.toNat_ofNat']
        omega
      have hsum : x - e.offset.toNat =
          (offset.toNat - e.offset.toNat) + (x - offset.toNat) := by omega
      simp only [FileExtent.patch, sliceExtent]
      rw [hsum, UInt64.ofNat_add, hdelta, UInt64.add_assoc]

/-- Everything the two parts left of an existing extent can cover: what it covered itself,
outside the new extent, by the same bytes. -/
theorem keptPieces_spec {e c p : FileExtent} (he : e.InRange) (hc : c.InRange)
    (hp : p ∈ keptPieces e c) :
    p.InRange ∧ ∀ x, p.patch.Covers x →
      c.patch.Covers x ∧ ¬ e.patch.Covers x ∧ p.patch.value x = c.patch.value x := by
  unfold keptPieces at hp
  by_cases ho : overlaps c e = true
  · rw [overlaps_iff hc he] at ho
    simp only [(overlaps_iff hc he).mpr ho, Bool.not_true, Bool.false_eq_true, if_false,
      List.mem_append] at hp
    rcases hp with hp | hp
    · split at hp
      next hlt =>
        rw [UInt64.lt_iff_toNat_lt] at hlt
        have hp := List.mem_singleton.mp hp
        subst hp
        have hlen := sub_toNat hlt.le
        obtain ⟨hr, hv⟩ := sliceExtent_spec c.offset (e.offset - c.offset) hc le_rfl
          (by rw [hlen]; omega)
        refine ⟨hr, fun x hx => ⟨(hv x hx).1, ?_, (hv x hx).2⟩⟩
        intro hex
        have h2 := hx.2
        have h1 := hex.1
        simp only [FileExtent.patch, sliceExtent] at h1 h2
        omega
      next => simp at hp
    · split at hp
      next hlt =>
        rw [UInt64.lt_iff_toNat_lt, extentEnd_toNat he, extentEnd_toNat hc] at hlt
        have hp := List.mem_singleton.mp hp
        subst hp
        have hend := extentEnd_toNat he
        have hlen : (extentEnd c - extentEnd e).toNat =
            c.offset.toNat + c.length.toNat - (e.offset.toNat + e.length.toNat) := by
          rw [sub_toNat (by rw [hend, extentEnd_toNat hc]; omega), hend, extentEnd_toNat hc]
        obtain ⟨hr, hv⟩ := sliceExtent_spec (extentEnd e) (extentEnd c - extentEnd e) hc
          (by rw [hend]; omega) (by rw [hend, hlen]; omega)
        refine ⟨hr, fun x hx => ⟨(hv x hx).1, ?_, (hv x hx).2⟩⟩
        intro hex
        have h1 := hx.1
        have h2 := hex.2
        simp only [FileExtent.patch, sliceExtent] at h1 h2
        omega
      next => simp at hp
  · have hoff := ho
    simp only [Bool.not_eq_true] at ho
    simp only [ho, Bool.not_false, if_true, List.mem_singleton] at hp
    subst hp
    refine ⟨hc, fun x hx => ⟨hx, ?_, rfl⟩⟩
    intro hex
    apply hoff
    rw [overlaps_iff hc he]
    have h1 := hx
    rw [FileExtent.patch_covers] at h1 hex
    omega

/-- Outside the new extent the kept parts cover all that the existing extent covered. -/
theorem keptPieces_complete {e c : FileExtent} (he : e.InRange) (hc : c.InRange) {x : ℕ}
    (hx : c.patch.Covers x) (hn : ¬ e.patch.Covers x) :
    ∃ p ∈ keptPieces e c, p.patch.Covers x := by
  unfold keptPieces
  have hend := extentEnd_toNat he
  have hcend := extentEnd_toNat hc
  rw [FileExtent.patch_covers] at hx hn
  by_cases ho : overlaps c e = true
  · have hov := (overlaps_iff hc he).mp ho
    simp only [ho, Bool.not_true, Bool.false_eq_true, if_false, List.mem_append]
    by_cases hleft : x < e.offset.toNat
    · have hlt : c.offset < e.offset := by
        rw [UInt64.lt_iff_toNat_lt]
        omega
      refine ⟨_, .inl (by rw [if_pos hlt]; exact List.mem_singleton_self _), ?_⟩
      have hlen : (e.offset - c.offset).toNat = e.offset.toNat - c.offset.toNat :=
        sub_toNat (by omega)
      simp only [FileExtent.patch_covers, sliceExtent, hlen]
      omega
    · have hlt : extentEnd e < extentEnd c := by
        rw [UInt64.lt_iff_toNat_lt]
        omega
      refine ⟨_, .inr (by rw [if_pos hlt]; exact List.mem_singleton_self _), ?_⟩
      have hlen : (extentEnd c - extentEnd e).toNat =
          (extentEnd c).toNat - (extentEnd e).toNat := sub_toNat (by omega)
      simp only [FileExtent.patch_covers, sliceExtent, hlen]
      omega
  · simp only [Bool.not_eq_true] at ho
    simp only [ho, Bool.not_false, if_true]
    exact ⟨c, List.mem_singleton_self _, hx⟩

/-- The two parts of one existing extent do not meet. -/
theorem keptPieces_apart {e c : FileExtent} (he : e.InRange) :
    ((keptPieces e c).map FileExtent.patch).Pairwise Patch.Apart := by
  unfold keptPieces
  by_cases ho : overlaps c e = true
  · simp only [ho, Bool.not_true, Bool.false_eq_true, if_false]
    by_cases hlt : c.offset < e.offset
    · rw [if_pos hlt]
      split
      next =>
        rw [UInt64.lt_iff_toNat_lt] at hlt
        have hlen := sub_toNat hlt.le
        have hend := extentEnd_toNat he
        simp only [List.map_cons, List.map_nil, List.cons_append,
          List.nil_append, List.pairwise_cons, List.mem_singleton, forall_eq]
        refine ⟨?_, by simp⟩
        intro x hx hy
        simp only [FileExtent.patch_covers, sliceExtent] at hx hy
        omega
      next => simp
    · rw [if_neg hlt]
      split <;> simp
  · simp only [Bool.not_eq_true] at ho
    simp [ho]

/-- The size loop of `CommitWrite`. -/
theorem foldl_extentEnd {extents : List FileExtent} (hr : ∀ e ∈ extents, e.InRange)
    (size : UInt64) :
    (extents.foldl (fun size e => max size (extentEnd e)) size).toNat =
      extent size.toNat (extents.map FileExtent.patch) := by
  induction extents generalizing size with
  | nil => rfl
  | cons e es ih =>
    rw [List.forall_mem_cons] at hr
    rw [List.foldl_cons, ih hr.2, UInt64.toNat_max, extentEnd_toNat hr.1]
    rfl

/-- An extent moved by `d` stands for the patch moved by `d`. -/
theorem patch_shift {d : UInt64} {e : FileExtent}
    (h : d.toNat + e.offset.toNat + e.length.toNat < 2 ^ 64) :
    ({ e with offset := d + e.offset } : FileExtent).InRange ∧
      ({ e with offset := d + e.offset } : FileExtent).patch = e.patch.shift d.toNat := by
  have hsum : (d + e.offset).toNat = d.toNat + e.offset.toNat := by
    rw [UInt64.toNat_add]
    omega
  constructor
  · unfold FileExtent.InRange
    rw [hsum]
    exact h
  · simp only [FileExtent.patch, Patch.shift, hsum, Patch.mk.injEq, true_and]
    constructor
    · omega
    · funext x
      rw [Nat.sub_add_eq]

/-- What a stored layout keeps up as long as no offset overflows: every extent in range,
no file position covered twice. -/
structure Disjoint (extents : List FileExtent) : Prop where
  inRange : ∀ e ∈ extents, e.InRange
  apart : (extents.map FileExtent.patch).Pairwise Patch.Apart

/-- The partial map a list of extents stands for. -/
def contentOf (extents : List FileExtent) : ℕ → Option ObjectByte :=
  content (extents.map FileExtent.patch)

theorem Disjoint.nil : Disjoint [] := ⟨by simp, by simp⟩

theorem Disjoint.tail {e : FileExtent} {es : List FileExtent} (h : Disjoint (e :: es)) :
    Disjoint es :=
  ⟨fun c hc => h.inRange c (List.mem_cons_of_mem _ hc), (List.pairwise_cons.mp h.apart).2⟩

theorem Disjoint.perm {es es' : List FileExtent} (hp : es.Perm es') (h : Disjoint es) :
    Disjoint es' :=
  ⟨fun c hc => h.inRange c (hp.mem_iff.mpr hc),
    (hp.map FileExtent.patch).pairwise h.apart fun hab => hab.symm⟩

/-- In a disjoint list the map sends a position to the byte of the one extent there. -/
theorem Disjoint.contentOf_eq_some {es : List FileExtent} (h : Disjoint es) {x : ℕ}
    {b : ObjectByte} : contentOf es x = some b ↔
      ∃ e ∈ es, e.patch.Covers x ∧ b = e.patch.value x := by
  constructor
  · intro hb
    obtain ⟨p, hp, hc⟩ := exists_of_content hb
    obtain ⟨e, he, rfl⟩ := List.mem_map.mp hp
    exact ⟨e, he, hc⟩
  · intro hb
    obtain ⟨e, he, hc, rfl⟩ := hb
    exact overlayAll_apart h.apart (List.mem_map_of_mem he) hc

/-- The pieces `MergeExtent` keeps stay disjoint and avoid the new extent. -/
theorem Disjoint.flatMap_keptPieces {es : List FileExtent} (h : Disjoint es) {e : FileExtent}
    (he : e.InRange) : Disjoint (es.flatMap (keptPieces e)) := by
  induction es with
  | nil => exact .nil
  | cons c es ih =>
    have hc := h.inRange c List.mem_cons_self
    have ht := ih h.tail
    constructor
    · intro p hp
      rw [List.flatMap_cons, List.mem_append] at hp
      rcases hp with hp | hp
      · exact (keptPieces_spec he hc hp).1
      · exact ht.inRange p hp
    · rw [List.flatMap_cons, List.map_append, List.pairwise_append]
      refine ⟨keptPieces_apart he, ht.apart, ?_⟩
      simp only [List.forall_mem_map]
      intro p hp q hq x hpx hqx
      obtain ⟨d, hd, hq⟩ := List.mem_flatMap.mp hq
      have hcx := ((keptPieces_spec he hc hp).2 x hpx).1
      have hdx := ((keptPieces_spec he (h.tail.inRange d hd) hq).2 x hqx).1
      exact (List.pairwise_cons.mp h.apart).1 _ (List.mem_map_of_mem hd) x hcx hdx

theorem Disjoint.merged {es : List FileExtent} (h : Disjoint es) {e : FileExtent}
    (he : e.InRange) : Disjoint (es.flatMap (keptPieces e) ++ [e]) := by
  have hk := h.flatMap_keptPieces he
  constructor
  · intro p hp
    rcases List.mem_append.mp hp with hp | hp
    · exact hk.inRange p hp
    · exact List.mem_singleton.mp hp ▸ he
  · rw [List.map_append, List.pairwise_append]
    refine ⟨hk.apart, by simp, ?_⟩
    simp only [List.forall_mem_map]
    intro p hp q hq x hpx hqx
    obtain ⟨c, hc, hp⟩ := List.mem_flatMap.mp hp
    have hq := List.mem_singleton.mp hq
    subst hq
    exact ((keptPieces_spec he (h.inRange c hc) hp).2 x hpx).2.1 hqx

section Merge

variable [OffsetSort]

theorem mergeExtent_perm (es : List FileExtent) (e : FileExtent) :
    (mergeExtent es e).Perm (es.flatMap (keptPieces e) ++ [e]) := OffsetSort.perm _

/-- Merging an extent keeps the layout disjoint. -/
theorem Disjoint.mergeExtent {es : List FileExtent} (h : Disjoint es) {e : FileExtent}
    (he : e.InRange) : Disjoint (mergeExtent es e) :=
  (h.merged he).perm (mergeExtent_perm es e).symm

/-- Merging an extent lays it over the content. -/
theorem contentOf_mergeExtent {es : List FileExtent} (h : Disjoint es) {e : FileExtent}
    (he : e.InRange) : contentOf (mergeExtent es e) = overlay (contentOf es) e.patch := by
  have hperm : contentOf (mergeExtent es e) = contentOf (es.flatMap (keptPieces e) ++ [e]) :=
    overlayAll_perm ((mergeExtent_perm es e).map _) (h.mergeExtent he).apart
  have hk := h.flatMap_keptPieces he
  rw [hperm, contentOf, List.map_append, List.map_singleton, content, overlayAll_concat]
  funext x
  by_cases hx : e.patch.Covers x
  · rw [overlay_covered hx, overlay_covered hx]
  · rw [overlay_not_covered hx, overlay_not_covered hx]
    apply Option.ext
    intro b
    have hl := hk.contentOf_eq_some (x := x) (b := b)
    rw [contentOf, content] at hl
    rw [hl, h.contentOf_eq_some]
    constructor
    · intro hp
      obtain ⟨p, hp, hpx, hb⟩ := hp
      obtain ⟨c, hc, hp⟩ := List.mem_flatMap.mp hp
      obtain ⟨hcx, _, hv⟩ := (keptPieces_spec he (h.inRange c hc) hp).2 x hpx
      exact ⟨c, hc, hcx, hb.trans hv⟩
    · intro hc
      obtain ⟨c, hc, hcx, hb⟩ := hc
      obtain ⟨p, hp, hpx⟩ := keptPieces_complete he (h.inRange c hc) hcx hx
      obtain ⟨_, _, hv⟩ := (keptPieces_spec he (h.inRange c hc) hp).2 x hpx
      exact ⟨p, List.mem_flatMap.mpr ⟨c, hc, hp⟩, hpx, hb.trans hv.symm⟩

end Merge

/-- What `Truncate` keeps of one extent is what it covered below the new size. -/
theorem keptBelow_spec {size : UInt64} {c : FileExtent} (hc : c.InRange) :
    (∀ p, keptBelow size c = some p → p.InRange ∧ ∀ x, p.patch.Covers x →
      c.patch.Covers x ∧ x < size.toNat ∧ p.patch.value x = c.patch.value x) ∧
    ∀ x, c.patch.Covers x → x < size.toNat →
      ∃ p, keptBelow size c = some p ∧ p.patch.Covers x := by
  unfold keptBelow
  have hend := extentEnd_toNat hc
  split
  next hge =>
    rw [ge_iff_le, UInt64.le_iff_toNat_le] at hge
    refine ⟨by simp, fun x hx hs => ?_⟩
    rw [FileExtent.patch_covers] at hx
    omega
  next hge =>
    rw [ge_iff_le, UInt64.le_iff_toNat_le] at hge
    split
    next hgt =>
      rw [gt_iff_lt, UInt64.lt_iff_toNat_lt] at hgt
      have hlen : (size - c.offset).toNat = size.toNat - c.offset.toNat := sub_toNat (by omega)
      obtain ⟨hr, hv⟩ := sliceExtent_spec c.offset (size - c.offset) hc le_rfl
        (by rw [hlen]; omega)
      constructor
      · intro p hp
        have hp := Option.some.inj hp
        subst hp
        refine ⟨hr, fun x hx => ⟨(hv x hx).1, ?_, (hv x hx).2⟩⟩
        have h2 := hx.2
        simp only [FileExtent.patch, sliceExtent, hlen] at h2
        omega
      · intro x hx hs
        refine ⟨_, rfl, ?_⟩
        rw [FileExtent.patch_covers] at hx
        simp only [FileExtent.patch_covers, sliceExtent, hlen]
        omega
    next hgt =>
      rw [gt_iff_lt, UInt64.lt_iff_toNat_lt] at hgt
      constructor
      · intro p hp
        have hp := Option.some.inj hp
        subst hp
        refine ⟨hc, fun x hx => ⟨hx, ?_, rfl⟩⟩
        rw [FileExtent.patch_covers] at hx
        omega
      · exact fun x hx _ => ⟨c, rfl, hx⟩

theorem Disjoint.truncateExtents {es : List FileExtent} (h : Disjoint es) (size : UInt64) :
    Disjoint (truncateExtents size es) := by
  unfold Pulpfs.truncateExtents
  constructor
  · intro p hp
    obtain ⟨c, hc, hp⟩ := List.mem_filterMap.mp hp
    exact ((keptBelow_spec (h.inRange c hc)).1 p hp).1
  · rw [List.pairwise_map, List.pairwise_filterMap]
    have hpw := List.pairwise_map.mp h.apart
    refine hpw.imp_of_mem ?_
    intro c d hc hd hcd p hp q hq x hpx hqx
    have hcx := (((keptBelow_spec (h.inRange c hc)).1 p hp).2 x hpx).1
    have hdx := (((keptBelow_spec (h.inRange d hd)).1 q hq).2 x hqx).1
    exact hcd x hcx hdx

/-- Truncating forgets the content from the new size on. -/
theorem contentOf_truncateExtents {es : List FileExtent} (h : Disjoint es) (size : UInt64) :
    contentOf (truncateExtents size es) = cut size.toNat (contentOf es) := by
  funext x
  apply Option.ext
  intro b
  rw [(h.truncateExtents size).contentOf_eq_some]
  constructor
  · intro hp
    obtain ⟨p, hp, hpx, hb⟩ := hp
    obtain ⟨c, hc, hp⟩ := List.mem_filterMap.mp hp
    obtain ⟨hcx, hlt, hv⟩ := ((keptBelow_spec (h.inRange c hc)).1 p hp).2 x hpx
    rw [cut, if_pos hlt]
    exact h.contentOf_eq_some.mpr ⟨c, hc, hcx, hb.trans hv⟩
  · intro hb
    unfold cut at hb
    split at hb
    next hlt =>
      obtain ⟨c, hc, hcx, hb⟩ := h.contentOf_eq_some.mp hb
      obtain ⟨p, hp, hpx⟩ := (keptBelow_spec (h.inRange c hc)).2 x hcx hlt
      obtain ⟨_, _, hv⟩ := ((keptBelow_spec (h.inRange c hc)).1 p hp).2 x hpx
      exact ⟨p, List.mem_filterMap.mpr ⟨c, hc, hp⟩, hpx, hb.trans hv.symm⟩
    next => contradiction

end Pulpfs
