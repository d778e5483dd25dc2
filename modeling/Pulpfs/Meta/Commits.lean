import Pulpfs.Meta.Represented
import Pulpfs.Meta.Untimed
import Pulpfs.Foundations.Slices
import Mathlib.Order.Std

/-! Commits against each other. `CommitWrite` ignores the version its client read: what protects
two clients is that batches apart from each other can be merged in either order, and what
protects a client that commits again is that a batch merged twice leaves no trace of it. -/
namespace Pulpfs
open Slices Transition
open scoped List

local instance linearOrder : LinearOrder UInt64 :=
  .ofStd UInt64
    { lawfulOrderLeftLeaningMax :=
      { max_eq_left := fun a b h => by
          show (if a ≤ b then b else a) = a
          split
          next h' => exact UInt64.le_antisymm h h'
          next => rfl
        max_eq_right := fun a b h => if_pos ((UInt64.le_total a b).resolve_right h) } }

theorem extentEnd_sliceExtent (e : FileExtent) (x y : UInt64) :
    extentEnd (sliceExtent e x (y - x)) = y := by
  show x + (y - x) = y
  simp

theorem sliceExtent_sliceExtent (e : FileExtent) (x y x' y' : UInt64) :
    sliceExtent (sliceExtent e x (y - x)) x' (y' - x') = sliceExtent e x' (y' - x') := by
  have hshift : e.objectOffset + (x - e.offset) + (x' - x) = e.objectOffset + (x' - e.offset) := by
    grind
  simp only [sliceExtent, hshift]

theorem sliceExtent_self (e : FileExtent) :
    sliceExtent e e.offset (extentEnd e - e.offset) = e := by
  have hlength : extentEnd e - e.offset = e.length := by
    unfold extentEnd
    grind
  have hshift : e.objectOffset + (e.offset - e.offset) = e.objectOffset := by simp
  simp only [sliceExtent, hlength, hshift]

/-- `SliceExtent` cuts an extent to two ends. -/
instance : Sliceable FileExtent UInt64 where
  start e := e.offset
  stop := extentEnd
  slice e x y := sliceExtent e x (y - x)
  start_slice _ _ _ := rfl
  stop_slice := extentEnd_sliceExtent
  slice_slice := sliceExtent_sliceExtent
  slice_self := sliceExtent_self

theorem proper_iff {e : FileExtent} : Proper e ↔ e.InRange ∧ e.length ≠ 0 := by
  have hpos : e.length ≠ 0 ↔ 0 < e.length.toNat := by
    rw [Nat.pos_iff_ne_zero, ne_eq, ne_eq, ← UInt64.toNat_inj]
    rfl
  show e.offset < e.offset + e.length ↔ _
  rw [UInt64.lt_iff_toNat_lt, UInt64.toNat_add, hpos, FileExtent.InRange]
  have ho := e.offset.toNat_lt
  have hl := e.length.toNat_lt
  omega

theorem proper_of_valid {b : List FileExtent} (hb : ∀ e ∈ b, e.isInvalid = false ∧ e.InRange) :
    ∀ e ∈ b, Proper e :=
  fun e he => proper_iff.mpr ⟨(hb e he).2, FileExtent.length_ne_zero (hb e he).1⟩

theorem apart_iff {c e : FileExtent} : Apart c e ↔ overlaps c e = false := by
  show extentEnd c ≤ e.offset ∨ extentEnd e ≤ c.offset ↔ _
  rw [overlaps, Bool.and_eq_false_iff, decide_eq_false_iff_not, decide_eq_false_iff_not,
    UInt64.not_lt, UInt64.not_lt, or_comm]

/-- The loop of `MergeExtent` cuts one existing extent. -/
theorem keptPieces_eq_cut {e c : FileExtent} (he : Proper e) (hc : Proper c) :
    keptPieces e c = cut e c := by
  unfold keptPieces
  cases ho : overlaps c e with
  | false =>
    rw [cut_of_apart hc he (apart_iff.mpr ho)]
    rfl
  | true =>
    simp only [overlaps, Bool.and_eq_true, decide_eq_true_eq] at ho
    have hbelow : below (Sliceable.start e) c = sliceExtent c c.offset (e.offset - c.offset) := by
      show sliceExtent c c.offset (min (extentEnd c) e.offset - c.offset) = _
      rw [min_eq_right ho.2.le]
    have habove : above (Sliceable.stop e) c =
        sliceExtent c (extentEnd e) (extentEnd c - extentEnd e) := by
      show sliceExtent c (max c.offset (extentEnd e)) (extentEnd c - max c.offset (extentEnd e)) = _
      rw [max_eq_right ho.1.le]
    have hleft : Proper (sliceExtent c c.offset (e.offset - c.offset)) ↔ c.offset < e.offset :=
      hbelow ▸ proper_below.trans (and_iff_right hc)
    have hright : Proper (sliceExtent c (extentEnd e) (extentEnd c - extentEnd e)) ↔
        extentEnd e < extentEnd c := habove ▸ proper_above.trans (and_iff_right hc)
    rw [cut, hbelow, habove]
    simp only [Bool.not_true, Bool.false_eq_true, if_false, List.filter_cons, List.filter_nil,
      decide_eq_true_eq, hleft, hright]
    by_cases hl : c.offset < e.offset
    · simp only [hl, if_true, List.singleton_append]
    · simp only [hl, if_false, List.nil_append]

/-- A sorted, disjoint layout. An empty extent, which no call stores, would have no place of its own
in the order. -/
structure Ordered (extents : List FileExtent) : Prop where
  sorted : extents.Pairwise fun a b => a.offset ≤ b.offset
  disjoint : Disjoint extents
  nonempty : ∀ e ∈ extents, e.length ≠ 0

namespace Ordered

variable {es : List FileExtent}

theorem nil : Ordered [] := ⟨.nil, .nil, by simp⟩

theorem proper (h : Ordered es) : ∀ e ∈ es, Proper e :=
  fun e he => proper_iff.mpr ⟨h.disjoint.inRange e he, h.nonempty e he⟩

/-- Such a layout is determined by the extents in it. -/
theorem eq_of_perm {fs : List FileExtent} (h : Ordered es) (h' : Ordered fs) (hp : es.Perm fs) :
    es = fs := by
  have hs := pairwise_lt_of_disjoint h.disjoint h.nonempty h.sorted
  have hs' := pairwise_lt_of_disjoint h'.disjoint h'.nonempty h'.sorted
  refine hp.eq_of_pairwise ?_ hs hs'
  intro a b _ _ hab hba
  exact absurd hab (lt_asymm hba)

variable [OffsetSort]

theorem mergeExtent_perm (h : Ordered es) {e : FileExtent} (he : Proper e) :
    (mergeExtent es e).Perm (es.flatMap (cut e) ++ [e]) := by
  have hpieces : es.flatMap (keptPieces e) = es.flatMap (cut e) :=
    List.flatMap_congr fun c hc => keptPieces_eq_cut he (h.proper c hc)
  rw [← hpieces]
  exact Pulpfs.mergeExtent_perm es e

theorem mergeExtent (h : Ordered es) {e : FileExtent} (he : Proper e) :
    Ordered (mergeExtent es e) := by
  constructor
  case sorted => exact OffsetSort.sorted _
  case disjoint => exact h.disjoint.mergeExtent (proper_iff.mp he).1
  case nonempty =>
    intro p hp
    rw [(h.mergeExtent_perm he).mem_iff, List.mem_append, List.mem_flatMap] at hp
    rcases hp with ⟨c, _, hp⟩ | hp
    · exact (proper_iff.mp (mem_cut hp).1).2
    · rw [List.mem_singleton.mp hp]
      exact (proper_iff.mp he).2

/-- Merging a batch is putting its extents over the layout and sorting. -/
theorem mergeAll {b : List FileExtent} (h : Ordered es) (hb : ∀ e ∈ b, Proper e) :
    Ordered (mergeAll es b) ∧ (mergeAll es b).Perm (putAll es b) := by
  induction b generalizing es with
  | nil => exact ⟨h, .refl es⟩
  | cons e b ih =>
    rw [List.forall_mem_cons] at hb
    obtain ⟨hordered, hperm⟩ := ih (h.mergeExtent hb.1) hb.2
    exact ⟨hordered, hperm.trans (putAll_perm (h.mergeExtent_perm hb.1) b)⟩

/-- Batches apart from each other leave the same extents in either order. -/
theorem mergeAll_comm {b c : List FileExtent} (h : Ordered es) (hb : ∀ e ∈ b, Proper e)
    (hc : ∀ f ∈ c, Proper f) (apart : ∀ e ∈ b, ∀ f ∈ c, overlaps e f = false) :
    Pulpfs.mergeAll (Pulpfs.mergeAll es b) c = Pulpfs.mergeAll (Pulpfs.mergeAll es c) b := by
  obtain ⟨hob, hpb⟩ := h.mergeAll hb
  obtain ⟨hoc, hpc⟩ := h.mergeAll hc
  obtain ⟨hobc, hpbc⟩ := hob.mergeAll hc
  obtain ⟨hocb, hpcb⟩ := hoc.mergeAll hb
  apply hobc.eq_of_perm hocb
  calc Pulpfs.mergeAll (Pulpfs.mergeAll es b) c
      ~ putAll (Pulpfs.mergeAll es b) c := hpbc
    _ ~ putAll (putAll es b) c := putAll_perm hpb c
    _ ~ putAll (putAll es c) b :=
      putAll_comm hb hc (fun e he f hf => apart_iff.mpr (apart e he f hf)) es
    _ ~ putAll (Pulpfs.mergeAll es c) b := putAll_perm hpc.symm b
    _ ~ Pulpfs.mergeAll (Pulpfs.mergeAll es c) b := hpcb.symm

/-- A batch that is merged again at the front of a longer one leaves no trace. -/
theorem mergeAll_retry {b : List FileExtent} (h : Ordered es) (hb : ∀ e ∈ b, Proper e)
    (c : List FileExtent) :
    Pulpfs.mergeAll (Pulpfs.mergeAll es b) (b ++ c) = Pulpfs.mergeAll es (b ++ c) := by
  obtain ⟨hob, hpb⟩ := h.mergeAll hb
  obtain ⟨hobb, hpbb⟩ := hob.mergeAll hb
  have htwice : Pulpfs.mergeAll (Pulpfs.mergeAll es b) b = Pulpfs.mergeAll es b := by
    apply hobb.eq_of_perm hob
    calc Pulpfs.mergeAll (Pulpfs.mergeAll es b) b
        ~ putAll (Pulpfs.mergeAll es b) b := hpbb
      _ ~ putAll (putAll es b) b := putAll_perm hpb b
      _ ~ putAll es b := by rw [putAll_self h.proper hb]
      _ ~ Pulpfs.mergeAll es b := hpb.symm
  rw [mergeAll_append, htwice, mergeAll_append]

end Ordered

/-- The size loop of `CommitWrite`. -/
def grown (size : UInt64) (extents : List FileExtent) : UInt64 :=
  extents.foldl (fun size extent => max size (extentEnd extent)) size

theorem grown_comm (size : UInt64) (b c : List FileExtent) :
    grown (grown size b) c = grown (grown size c) b := by
  unfold grown
  rw [← List.foldl_append, ← List.foldl_append]
  apply List.perm_append_comm.foldl_eq'
  intro x _ y _ z
  exact max_right_comm z _ _

theorem grown_retry {b : List FileExtent} (size : UInt64) (hb : ∀ e ∈ b, e.InRange)
    {c : List FileExtent} (hc : ∀ e ∈ c, e.InRange) :
    grown (grown size b) (b ++ c) = grown size (b ++ c) := by
  have hboth : ∀ e ∈ b ++ c, e.InRange := List.forall_mem_append.mpr ⟨hb, hc⟩
  have hprefix : b.map FileExtent.patch <+: (b ++ c).map FileExtent.patch :=
    (List.prefix_append b c).map _
  apply UInt64.toNat_inj.mp
  unfold grown
  rw [foldl_extentEnd hboth, foldl_extentEnd hb, foldl_extentEnd hboth,
    Overlay.extent_retry hprefix]

/-- The attributes `CommitWrite` stores. -/
def InodeAttrs.committed (a : InodeAttrs) (extents : List FileExtent) (nowNs : Int64) :
    InodeAttrs :=
  { a with
    size := grown a.size extents, version := a.version + 1, mtimeNs := nowNs, ctimeNs := nowNs }

/-- The order of two commits does not matter for the attributes, the times apart. -/
theorem InodeAttrs.committed_comm (a : InodeAttrs) (b c : List FileExtent) (t₁ t₂ t₃ t₄ : Int64) :
    ((a.committed b t₁).committed c t₂).untimed = ((a.committed c t₃).committed b t₄).untimed := by
  simp only [committed, untimed, grown_comm a.size b c]

namespace MetaState

variable {s : MetaState} {i : UInt64} {a a' : InodeAttrs} {l l' : FileLayout}

/-- The state with other attributes and another layout of one file. -/
def putFile (s : MetaState) (i : UInt64) (a : InodeAttrs) (l : FileLayout) : MetaState :=
  { s with inodes := s.inodes.insert i a, layouts := s.layouts.insert i l }

theorem putFile_putFile : (s.putFile i a l).putFile i a' l' = s.putFile i a' l' := by
  simp only [putFile, TreeMap.insert_insert]

theorem putFile_fileAt (ht : a.type = .file) : (s.putFile i a l).FileAt i a l := by
  constructor
  · simp [putFile]
  · exact ht
  · simp [putFile]

theorem putFile_getLayout (ht : a.type = .file) (hl : l.attrs = a) :
    (s.putFile i a l).getLayout i = .ok l := by
  subst hl
  exact (putFile_fileAt ht).getLayout

theorem untimed_putFile :
    (s.putFile i a l).untimed = s.untimed.putFile i a.untimed l.untimed := by
  simp only [putFile, untimed, TreeMap.map_insert]

theorem putFile_of_written (h : s.layouts[i]? = some l) (es : List FileExtent) :
    ((s.setLayoutExtents i es).storeInode i a).setLayoutAttrs i a =
      s.putFile i a { l with attrs := a, extents := es } := by
  have hinner := TreeMap.modify_of_some (fun layout => { layout with extents := es }) h
  have hget : (s.layouts.insert i { l with extents := es })[i]? =
      some { l with extents := es } := by simp
  have houter := TreeMap.modify_of_some (fun layout => { layout with attrs := a }) hget
  simp only [setLayoutAttrs, storeInode, setLayoutExtents, putFile, hinner, houter,
    TreeMap.insert_insert]

/-- The two states differ at most in the version and the times of one file. -/
def SameButVersion (s s' : MetaState) (i : UInt64) : Prop :=
  ∃ a a' l, s.FileAt i a l ∧ l.attrs = a ∧ s' = s.putFile i a' { l with attrs := a' } ∧
    a' = { a with version := a'.version, mtimeNs := a'.mtimeNs, ctimeNs := a'.ctimeNs }

theorem SameButVersion.layouts {s' : MetaState} (h : s.SameButVersion s' i) :
    ∃ l₁ l₂, s'.getLayout i = .ok l₁ ∧ s.getLayout i = .ok l₂ ∧ l₁.extents = l₂.extents ∧
      l₁.attrs.size = l₂.attrs.size := by
  obtain ⟨a, a', l, hfile, -, rfl, ha⟩ := h
  have ht : a'.type = .file := by
    rw [ha]
    exact hfile.type_eq
  refine ⟨_, _, putFile_getLayout ht rfl, hfile.getLayout, rfl, ?_⟩
  show a'.size = a.size
  rw [ha]

variable [OffsetSort]

theorem commitWrite_putFile (clock : Clock) (v : UInt64) {b : List FileExtent}
    (h : s.FileAt i a l) (hb : ∀ e ∈ b, e.isInvalid = false) :
    s.commitWrite clock i v b = (.ok (a.committed b (clock 0)),
      s.putFile i (a.committed b (clock 0))
        { l with attrs := a.committed b (clock 0), extents := mergeAll l.extents b }) := by
  have hstill (es : List FileExtent) : (s.setLayoutExtents i es).inodes[i]? = some a := h.inode_eq
  simp only [commitWrite, h.validate, h.layout_eq, mergeCommitted_eq, accepted_iff.mpr hb,
    validPrefix_eq_self.mpr hb, Bool.not_true, Bool.false_eq_true, if_false,
    inodeAt_of_some (hstill _), andThen_ok]
  exact Prod.ext rfl (putFile_of_written h.layout_eq _)

/-- A commit of valid extents succeeds and replaces the attributes and the layout of its file. -/
theorem call_commit {k : Clock} {v : UInt64} {b : List FileExtent} (h : s.FileAt i a l)
    (hb : ∀ e ∈ b, e.isInvalid = false) :
    MetaState.call ⟨k, .commitWrite i v b⟩ s = (.ok (.attrs (a.committed b (k 0))),
      s.putFile i (a.committed b (k 0))
        { l with attrs := a.committed b (k 0), extents := mergeAll l.extents b }) := by
  show (s.commitWrite k i v b).map Reply.attrs = _
  rw [commitWrite_putFile k v h hb]
  rfl

theorem run_commit (k : Clock) (v : UInt64) {b : List FileExtent} (h : s.FileAt i a l)
    (hb : ∀ e ∈ b, e.isInvalid = false) :
    let calls : List Call := [⟨k, .commitWrite i v b⟩]
    (∀ e ∈ trace call calls s, e.output.isOk = true) ∧
      final call calls s = s.putFile i (a.committed b (k 0))
        { l with attrs := a.committed b (k 0), extents := mergeAll l.extents b } := by
  simp [call_commit h hb, Outcome.isOk]

theorem run_commits (k k' : Clock) (v v' : UInt64) {b c : List FileExtent} (h : s.FileAt i a l)
    (hb : ∀ e ∈ b, e.isInvalid = false) (hc : ∀ e ∈ c, e.isInvalid = false) :
    let calls : List Call := [⟨k, .commitWrite i v b⟩, ⟨k', .commitWrite i v' c⟩]
    let last := (a.committed b (k 0)).committed c (k' 0)
    (∀ e ∈ trace call calls s, e.output.isOk = true) ∧
      final call calls s = s.putFile i last
        { l with attrs := last, extents := mergeAll (mergeAll l.extents b) c } := by
  have hfile := putFile_fileAt (s := s) (i := i) (a := a.committed b (k 0))
    (l := { l with attrs := a.committed b (k 0), extents := mergeAll l.extents b }) h.type_eq
  simp [call_commit h hb, call_commit hfile hc, putFile_putFile, Outcome.isOk]

end MetaState

theorem FileExtent.patch_apart {e f : FileExtent} (he : e.InRange) (hf : f.InRange)
    (h : overlaps e f = false) : e.patch.Apart f.patch := by
  intro x hxe hxf
  have hover := (overlaps_iff he hf).mpr (by
    rw [patch_covers] at hxe hxf
    omega)
  rw [h] at hover
  contradiction

/-- Two batches laid over a file apart from each other both show. -/
theorem contentOf_apart (stored : List FileExtent) {b c : List FileExtent}
    (apart : ∀ e ∈ b, ∀ f ∈ c, e.patch.Apart f.patch) (x : ℕ) :
    let both := Overlay.overlayAll (Overlay.overlayAll (contentOf stored)
      (b.map FileExtent.patch)) (c.map FileExtent.patch)
    ((∃ e ∈ b, e.patch.Covers x) → both x = contentOf b x) ∧
      ((∃ f ∈ c, f.patch.Covers x) → both x = contentOf c x) := by
  constructor
  · rintro ⟨e, he, hx⟩
    have hmiss : ∀ p ∈ c.map FileExtent.patch, ¬ p.Covers x := by
      rw [List.forall_mem_map]
      exact fun f hf => apart e he f hf x hx
    rw [Overlay.overlayAll_not_covered hmiss]
    exact Overlay.overlayAll_covered ⟨e.patch, List.mem_map_of_mem he, hx⟩
  · rintro ⟨f, hf, hx⟩
    exact Overlay.overlayAll_covered ⟨f.patch, List.mem_map_of_mem hf, hx⟩

/-- Two batches apart from each other, committed in either order over a sorted, disjoint layout:
the commits succeed and leave states that differ in times alone, with the same extents, size and
version of the file, and the bytes of both batches. -/
theorem commits_commute [OffsetSort] (s : MetaState) (i : UInt64) (a : InodeAttrs)
    (l : FileLayout) (hf : s.FileAt i a l) (hl : Ordered l.extents) (b c : List FileExtent)
    (hb : ∀ e ∈ b, e.isInvalid = false ∧ e.InRange)
    (hc : ∀ e ∈ c, e.isInvalid = false ∧ e.InRange)
    (apart : ∀ e ∈ b, ∀ f ∈ c, overlaps e f = false) (k₁ k₂ k₃ k₄ : Clock)
    (v₁ v₂ v₃ v₄ : UInt64) :
    let bc : List Call := [⟨k₁, .commitWrite i v₁ b⟩, ⟨k₂, .commitWrite i v₂ c⟩]
    let cb : List Call := [⟨k₃, .commitWrite i v₃ c⟩, ⟨k₄, .commitWrite i v₄ b⟩]
    (∀ e ∈ trace MetaState.call bc s ++ trace MetaState.call cb s, e.output.isOk = true) ∧
      (final MetaState.call bc s).untimed = (final MetaState.call cb s).untimed ∧
      ∃ l₁ l₂, (final MetaState.call bc s).getLayout i = .ok l₁ ∧
        (final MetaState.call cb s).getLayout i = .ok l₂ ∧ l₁.extents = l₂.extents ∧
        l₁.attrs.size = l₂.attrs.size ∧ l₁.attrs.version = l₂.attrs.version ∧
        ∀ x, ((∃ e ∈ b, e.patch.Covers x) → contentOf l₁.extents x = contentOf b x) ∧
          ((∃ e ∈ c, e.patch.Covers x) → contentOf l₁.extents x = contentOf c x) := by
  intro bc cb
  have hbv : ∀ e ∈ b, e.isInvalid = false := fun e he => (hb e he).1
  have hcv : ∀ e ∈ c, e.isInvalid = false := fun e he => (hc e he).1
  have hextents := hl.mergeAll_comm (proper_of_valid hb) (proper_of_valid hc) apart
  have hattrs := a.committed_comm b c (k₁ 0) (k₂ 0) (k₃ 0) (k₄ 0)
  obtain ⟨hok, hbc⟩ := MetaState.run_commits k₁ k₂ v₁ v₂ hf hbv hcv
  obtain ⟨hok', hcb⟩ := MetaState.run_commits k₃ k₄ v₃ v₄ hf hcv hbv
  have hcontent : contentOf (mergeAll (mergeAll l.extents b) c) = Overlay.overlayAll
      (Overlay.overlayAll (contentOf l.extents) (b.map FileExtent.patch))
      (c.map FileExtent.patch) := by
    obtain ⟨hd, hfirst⟩ := hl.disjoint.mergeAll fun e he => (hb e he).2
    rw [(hd.mergeAll fun e he => (hc e he).2).2, hfirst]
  have hshown := contentOf_apart l.extents fun e he f hf =>
    FileExtent.patch_apart (hb e he).2 (hc f hf).2 (apart e he f hf)
  rw [hbc, hcb]
  refine ⟨List.forall_mem_append.mpr ⟨hok, hok'⟩, ?_, ?_⟩
  · rw [MetaState.untimed_putFile, MetaState.untimed_putFile, hattrs]
    simp only [FileLayout.untimed, hattrs, hextents]
  · refine ⟨_, _, MetaState.putFile_getLayout hf.type_eq rfl,
      MetaState.putFile_getLayout hf.type_eq rfl, hextents, ?_, rfl, ?_⟩
    · exact grown_comm a.size b c
    · intro x
      rw [hcontent]
      exact hshown x

/-- A file of ten bytes that lie in one object. -/
def oneExtentState : MetaState :=
  final (@MetaState.call .insertion)
    [⟨fun _ => 5, .createFile 1 (ascii "f") 0o644 0 0⟩,
      ⟨fun _ => 6, .commitWrite 2 1 [{ offset := 0, length := 10, objectKey := ascii "k" }]⟩]
    (.fresh 4096 0)

theorem oneExtentState_file : ∃ a l, oneExtentState.FileAt 2 a l ∧ Ordered l.extents := by
  have hvalid : ∀ e ∈ [({ offset := 0, length := 10, objectKey := ascii "k" } : FileExtent)],
      e.isInvalid = false ∧ e.InRange := by decide
  let _ := OffsetSort.insertion
  refine ⟨(oneExtentState.inodes[(2 : UInt64)]?).getD {},
    (oneExtentState.layouts[(2 : UInt64)]?).getD {}, ⟨by decide, by decide, by decide⟩, ?_⟩
  exact (Ordered.nil.mergeAll (proper_of_valid hvalid)).1

/-- One client commits two extents that overlap each other, another one an extent behind them. -/
theorem commits_commute_over_oneExtent :
    let b : List FileExtent := [{ offset := 2, length := 3, objectKey := ascii "b" },
      { offset := 4, length := 2, objectKey := ascii "d" }]
    let c : List FileExtent := [{ offset := 6, length := 1, objectKey := ascii "c" }]
    let bc : List Call := [⟨fun _ => 7, .commitWrite 2 2 b⟩, ⟨fun _ => 8, .commitWrite 2 2 c⟩]
    let cb : List Call := [⟨fun _ => 9, .commitWrite 2 2 c⟩, ⟨fun _ => 10, .commitWrite 2 2 b⟩]
    (final (@MetaState.call .insertion) bc oneExtentState).untimed =
      (final (@MetaState.call .insertion) cb oneExtentState).untimed := by
  obtain ⟨a, l, hf, hl⟩ := oneExtentState_file
  exact (@commits_commute .insertion oneExtentState 2 a l hf hl _ _ (by decide) (by decide)
    (by decide) (fun _ => 7) (fun _ => 8) (fun _ => 9) (fun _ => 10) 2 2 2 2).2.1

/-- A commit that is retried at the front of a longer one, against the longer one alone. -/
theorem MetaState.retried_sameButVersion [OffsetSort] {s : MetaState} {i : UInt64}
    {a : InodeAttrs} {l : FileLayout} (hf : s.FileAt i a l) (hl : Ordered l.extents)
    {b c : List FileExtent} (hb : ∀ e ∈ b, e.isInvalid = false ∧ e.InRange)
    (hc : ∀ e ∈ c, e.isInvalid = false ∧ e.InRange) (k₁ k₂ k₃ : Clock) (v₁ v₂ v₃ : UInt64) :
    let retried : List Call := [⟨k₁, .commitWrite i v₁ b⟩, ⟨k₂, .commitWrite i v₂ (b ++ c)⟩]
    let alone : List Call := [⟨k₃, .commitWrite i v₃ (b ++ c)⟩]
    (∀ e ∈ trace call retried s ++ trace call alone s, e.output.isOk = true) ∧
      (final call alone s).SameButVersion (final call retried s) i := by
  intro retried alone
  have hbv : ∀ e ∈ b, e.isInvalid = false := fun e he => (hb e he).1
  have hboth : ∀ e ∈ b ++ c, e.isInvalid = false :=
    List.forall_mem_append.mpr ⟨hbv, fun e he => (hc e he).1⟩
  have hsize := grown_retry a.size (fun e he => (hb e he).2) fun e he => (hc e he).2
  have hextents := hl.mergeAll_retry (proper_of_valid hb) c
  obtain ⟨hok, hretried⟩ := run_commits k₁ k₂ v₁ v₂ hf hbv hboth
  obtain ⟨hok', halone⟩ := run_commit k₃ v₃ hf hboth
  rw [hretried, halone]
  refine ⟨List.forall_mem_append.mpr ⟨hok, hok'⟩, _,
    (a.committed b (k₁ 0)).committed (b ++ c) (k₂ 0), _, putFile_fileAt hf.type_eq, rfl, ?_, ?_⟩
  · rw [putFile_putFile, hextents]
  · simp only [InodeAttrs.committed, hsize]

/-- A batch committed before a longer one that starts with it, over a sorted, disjoint layout:
the extents and the size are those of the longer one alone, and nothing differs but the version
and the times. A batch committed twice leaves what it leaves when committed once. -/
theorem retries_absorbed [OffsetSort] (s : MetaState) (i : UInt64) (a : InodeAttrs)
    (l : FileLayout) (hf : s.FileAt i a l) (hl : Ordered l.extents) (b c : List FileExtent)
    (hb : ∀ e ∈ b, e.isInvalid = false ∧ e.InRange)
    (hc : ∀ e ∈ c, e.isInvalid = false ∧ e.InRange) (k₁ k₂ k₃ : Clock) (v₁ v₂ v₃ : UInt64) :
    let retried : List Call := [⟨k₁, .commitWrite i v₁ b⟩, ⟨k₂, .commitWrite i v₂ (b ++ c)⟩]
    let alone : List Call := [⟨k₃, .commitWrite i v₃ (b ++ c)⟩]
    let twice : List Call := [⟨k₁, .commitWrite i v₁ b⟩, ⟨k₂, .commitWrite i v₂ b⟩]
    let once : List Call := [⟨k₃, .commitWrite i v₃ b⟩]
    (∀ e ∈ trace MetaState.call retried s ++ trace MetaState.call alone s,
        e.output.isOk = true) ∧
      (∃ l₁ l₂, (final MetaState.call retried s).getLayout i = .ok l₁ ∧
        (final MetaState.call alone s).getLayout i = .ok l₂ ∧ l₁.extents = l₂.extents ∧
        l₁.attrs.size = l₂.attrs.size) ∧
      (final MetaState.call alone s).SameButVersion (final MetaState.call retried s) i ∧
      (final MetaState.call once s).SameButVersion (final MetaState.call twice s) i := by
  intro retried alone twice once
  obtain ⟨hok, hlonger⟩ := MetaState.retried_sameButVersion hf hl hb hc k₁ k₂ k₃ v₁ v₂ v₃
  obtain ⟨-, hsame⟩ := MetaState.retried_sameButVersion hf hl hb (c := []) (by simp) k₁ k₂ k₃
    v₁ v₂ v₃
  rw [List.append_nil] at hsame
  exact ⟨hok, hlonger.layouts, hlonger, hsame⟩

/-- The batch that is committed twice overlaps itself and what follows it. -/
theorem retries_absorbed_over_oneExtent :
    let b : List FileExtent := [{ offset := 2, length := 3, objectKey := ascii "b" },
      { offset := 4, length := 2, objectKey := ascii "d" }]
    let c : List FileExtent := [{ offset := 3, length := 2, objectKey := ascii "c" }]
    let twice : List Call := [⟨fun _ => 7, .commitWrite 2 2 b⟩, ⟨fun _ => 8, .commitWrite 2 2 b⟩]
    let longer : List Call :=
      [⟨fun _ => 7, .commitWrite 2 2 b⟩, ⟨fun _ => 8, .commitWrite 2 2 (b ++ c)⟩]
    let run := final (@MetaState.call .insertion)
    (run [⟨fun _ => 9, .commitWrite 2 2 (b ++ c)⟩] oneExtentState).SameButVersion
        (run longer oneExtentState) 2 ∧
      (run [⟨fun _ => 9, .commitWrite 2 2 b⟩] oneExtentState).SameButVersion
        (run twice oneExtentState) 2 := by
  obtain ⟨a, l, hf, hl⟩ := oneExtentState_file
  exact (@retries_absorbed .insertion oneExtentState 2 a l hf hl _ _ (by decide) (by decide)
    (fun _ => 7) (fun _ => 8) (fun _ => 9) 2 2 2).2.2

end Pulpfs
