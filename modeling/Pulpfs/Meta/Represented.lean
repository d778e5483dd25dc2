import Pulpfs.Meta.Layout

/-! The form in which the extents of a file are stored, after calls that succeed and calls that
fail. A batch with an invalid extent is merged up to that extent before the call fails. -/
namespace Pulpfs
open Overlay Transition

/-- Sorted without two extents at one offset, no position covered twice, and no extent without
bytes or object. -/
structure Represented (extents : List FileExtent) : Prop where
  sorted : extents.Pairwise fun a b => a.offset < b.offset
  disjoint : Disjoint extents
  valid : ∀ e ∈ extents, e.isInvalid = false

theorem Represented.nil : Represented [] := ⟨.nil, .nil, by simp⟩

theorem FileExtent.length_ne_zero {e : FileExtent} (h : e.isInvalid = false) : e.length ≠ 0 := by
  simp only [isInvalid, Bool.or_eq_false_iff, decide_eq_false_iff_not] at h
  exact h.1

theorem FileExtent.length_pos {e : FileExtent} (h : e.isInvalid = false) : 0 < e.length.toNat := by
  refine Nat.pos_of_ne_zero ?_
  intro h0
  exact length_ne_zero h (UInt64.toNat_inj.mp h0)

/-- An extent with bytes covers its first position. -/
theorem FileExtent.covers_offset {e : FileExtent} (h : e.length ≠ 0) :
    e.patch.Covers e.offset.toNat := by
  have hpos : e.length.toNat ≠ 0 := fun h0 => h (UInt64.toNat_inj.mp h0)
  rw [patch_covers]
  omega

/-- Extents with bytes in the order of their offsets that lie apart have different offsets. -/
theorem pairwise_lt_of_disjoint {es : List FileExtent} (hd : Disjoint es)
    (hl : ∀ e ∈ es, e.length ≠ 0) (hs : es.Pairwise fun a b => a.offset ≤ b.offset) :
    es.Pairwise fun a b => a.offset < b.offset := by
  refine ((hs.and (List.pairwise_map.mp hd.apart)).imp_of_mem ?_)
  intro a b ha hb h
  obtain ⟨hle, hapart⟩ := h
  refine UInt64.lt_of_le_of_ne hle ?_
  intro heq
  have hca := FileExtent.covers_offset (hl a ha)
  have hcb := FileExtent.covers_offset (hl b hb)
  rw [← heq] at hcb
  exact hapart _ hca hcb

theorem sliceExtent_valid {e : FileExtent} {offset length : UInt64} (h : e.isInvalid = false)
    (hl : length ≠ 0) : (sliceExtent e offset length).isInvalid = false := by
  simp only [FileExtent.isInvalid, Bool.or_eq_false_iff, decide_eq_false_iff_not] at h ⊢
  exact ⟨hl, h.2⟩

theorem keptPieces_valid {e c p : FileExtent} (hc : c.isInvalid = false)
    (hp : p ∈ keptPieces e c) : p.isInvalid = false := by
  unfold keptPieces at hp
  split at hp
  next =>
    rw [List.mem_singleton.mp hp]
    exact hc
  next =>
    rcases List.mem_append.mp hp with hp | hp
    · split at hp
      next hlt =>
        rw [List.mem_singleton.mp hp]
        exact sliceExtent_valid hc (sub_ne_zero.mpr (UInt64.ne_of_lt hlt).symm)
      next => simp at hp
    · split at hp
      next hlt =>
        rw [List.mem_singleton.mp hp]
        exact sliceExtent_valid hc (sub_ne_zero.mpr (UInt64.ne_of_lt hlt).symm)
      next => simp at hp

theorem keptBelow_valid {size : UInt64} {c p : FileExtent} (hc : c.isInvalid = false)
    (hp : keptBelow size c = some p) : p.isInvalid = false ∧ p.offset = c.offset := by
  unfold keptBelow at hp
  split at hp
  next => contradiction
  next hge =>
    split at hp
    next =>
      obtain rfl := Option.some.inj hp
      have hlt := UInt64.not_le.mp hge
      exact ⟨sliceExtent_valid hc (sub_ne_zero.mpr (UInt64.ne_of_lt hlt).symm), rfl⟩
    next =>
      obtain rfl := Option.some.inj hp
      exact ⟨hc, rfl⟩

namespace Represented

variable {es : List FileExtent}

/-- Of two valid extents that lie apart one ends before the other starts. -/
theorem ends_apart (h : Represented es) {a b : FileExtent} (ha : a ∈ es) (hb : b ∈ es)
    (hapart : a.patch.Apart b.patch) : a.offset.toNat + a.length.toNat ≤ b.offset.toNat ∨
      b.offset.toNat + b.length.toNat ≤ a.offset.toNat := by
  have hpa := FileExtent.length_pos (h.valid a ha)
  have hpb := FileExtent.length_pos (h.valid b hb)
  have hx := hapart (max a.offset.toNat b.offset.toNat)
  simp only [FileExtent.patch_covers] at hx
  omega

theorem truncateExtents (h : Represented es) (size : UInt64) :
    Represented (Pulpfs.truncateExtents size es) := by
  refine ⟨?_, h.disjoint.truncateExtents size, ?_⟩
  · unfold Pulpfs.truncateExtents
    rw [List.pairwise_filterMap]
    refine h.sorted.imp_of_mem ?_
    intro c d hc hd hlt p hp q hq
    rw [(keptBelow_valid (h.valid c hc) hp).2, (keptBelow_valid (h.valid d hd) hq).2]
    exact hlt
  · intro p hp
    obtain ⟨c, hc, hp⟩ := List.mem_filterMap.mp hp
    exact (keptBelow_valid (h.valid c hc) hp).1

variable [OffsetSort]

theorem mergeExtent (h : Represented es) {e : FileExtent} (he : e.InRange)
    (hv : e.isInvalid = false) : Represented (Pulpfs.mergeExtent es e) := by
  have hd := h.disjoint.mergeExtent he
  have hvalid : ∀ p ∈ Pulpfs.mergeExtent es e, p.isInvalid = false := by
    intro p hp
    rw [(mergeExtent_perm es e).mem_iff, List.mem_append, List.mem_flatMap] at hp
    rcases hp with ⟨c, hc, hp⟩ | hp
    · exact keptPieces_valid (h.valid c hc) hp
    · rw [List.mem_singleton.mp hp]
      exact hv
  have hlength : ∀ p ∈ Pulpfs.mergeExtent es e, p.length ≠ 0 :=
    fun p hp => FileExtent.length_ne_zero (hvalid p hp)
  exact ⟨pairwise_lt_of_disjoint hd hlength (OffsetSort.sorted _), hd, hvalid⟩

/-- Merging a batch keeps the form. -/
theorem mergeAll {extents : List FileExtent} (h : Represented es)
    (hr : ∀ e ∈ extents, e.InRange) (hv : ∀ e ∈ extents, e.isInvalid = false) :
    Represented (Pulpfs.mergeAll es extents) := by
  induction extents generalizing es with
  | nil => exact h
  | cons e extents ih =>
    rw [List.forall_mem_cons] at hr hv
    exact ih (h.mergeExtent hr.1 hv.1) hr.2 hv.2

end Represented

/-- What a write merges into a file of the given size. -/
def Command.merged (size : UInt64) : Command → List FileExtent
  | .commitWrite _ _ extents => validPrefix extents
  | .appendWrite _ _ extents => (validPrefix extents).map (·.appendedTo size)
  | _ => []

/-- The size a write leaves. -/
def Command.sizeAfter (size : UInt64) : Command → UInt64
  | .commitWrite _ _ extents =>
    if accepted extents then extents.foldl (fun size e => max size (extentEnd e)) size else size
  | .appendWrite _ _ extents =>
    if accepted extents then size + extents.foldl (fun n e => max n (extentEnd e)) 0 else size
  | .truncate _ n => n
  | _ => size

/-- The extents a write leaves. -/
def Command.extentsAfter [OffsetSort] (size : UInt64) (stored : List FileExtent) (c : Command) :
    List FileExtent :=
  match c with
  | .truncate _ n => truncateExtents n stored
  | c => mergeAll stored (c.merged size)

theorem Command.extentsAfter_cases [OffsetSort] (c : Command) (size : UInt64)
    (stored : List FileExtent) :
    (∃ i n, c = .truncate i n) ∨ c.extentsAfter size stored = mergeAll stored (c.merged size) := by
  unfold Command.extentsAfter
  split
  next i n => exact .inl ⟨i, n, rfl⟩
  next => exact .inr rfl

namespace MetaState

variable {s : MetaState} {clock : Clock} {i : UInt64}

theorem fileView_setLayoutExtents (es : List FileExtent) :
    (s.setLayoutExtents i es).fileView i =
      ((s.fileView i).1, (s.fileView i).2.map fun _ => es) := by
  unfold fileView setLayoutExtents
  have hl := congrFun (TreeMap.get_modify s.layouts i
    fun layout => { layout with extents := es }) i
  rw [Function.update_self] at hl
  rw [hl]
  cases s.layouts[i]? with
  | none => rfl
  | some l => rfl

/-- What a write finds of the file and leaves of it, where it changes it at all. -/
def WrittenView [OffsetSort] (s s' : MetaState) (i : UInt64) (c : Command) : Prop :=
  s'.fileView i = s.fileView i ∨
  ∃ size stored, s.fileView i = (some (.file, size), some stored) ∧
    s'.fileView i = (some (.file, c.sizeAfter size), some (c.extentsAfter size stored))

section Writes

variable [OffsetSort] (clock)

theorem commitWrite_writtenView (v : UInt64) (es : List FileExtent) :
    WrittenView s (s.commitWrite clock i v es).2 i (.commitWrite i v es) := by
  unfold commitWrite
  cases hv : s.validateRegularFile i with
  | error e => exact .inl rfl
  | ok _ =>
    obtain ⟨a, ha, ht⟩ := validateRegularFile_inode hv
    cases hl : s.layouts[i]? with
    | none => exact .inl rfl
    | some l =>
      have hfile : s.FileAt i a l := ⟨ha, ht, hl⟩
      have hstill (es' : List FileExtent) : (s.setLayoutExtents i es').inodes[i]? = some a := ha
      right
      refine ⟨a.size, l.extents, hfile.view, ?_⟩
      simp only [mergeCommitted_eq, Command.sizeAfter, Command.extentsAfter, Command.merged]
      cases hm : accepted es with
      | false =>
        simp only [Bool.not_false, if_true]
        rw [fileView_setLayoutExtents, hfile.view]
        rfl
      | true =>
        simp only [Bool.not_true, Bool.false_eq_true, if_false, inodeAt_of_some (hstill _),
          andThen_ok]
        exact fileView_written hfile rfl

theorem appendWrite_writtenView (v : UInt64) (es : List FileExtent) :
    WrittenView s (s.appendWrite clock i v es).2 i (.appendWrite i v es) := by
  unfold appendWrite
  cases hv : s.validateRegularFile i with
  | error e => exact .inl rfl
  | ok _ =>
    obtain ⟨a, ha, ht⟩ := validateRegularFile_inode hv
    cases hl : s.layouts[i]? with
    | none => exact .inl rfl
    | some l =>
      have hfile : s.FileAt i a l := ⟨ha, ht, hl⟩
      right
      refine ⟨a.size, l.extents, hfile.view, ?_⟩
      simp only [inodeAt_of_some ha, andThen_ok, mergeAppended_eq, Command.sizeAfter,
        Command.extentsAfter, Command.merged]
      cases hm : accepted es with
      | false =>
        simp only [Bool.not_false, if_true]
        rw [fileView_setLayoutExtents, hfile.view]
        rfl
      | true =>
        simp only [Bool.not_true, Bool.false_eq_true, if_false,
          validPrefix_eq_self.mpr (accepted_iff.mp hm)]
        exact fileView_written hfile rfl

theorem truncate_writtenView (size : UInt64) :
    WrittenView s (s.truncate clock i size).2 i (.truncate i size) := by
  unfold truncate
  cases hv : s.validateRegularFile i with
  | error e => exact .inl rfl
  | ok _ =>
    obtain ⟨a, ha, ht⟩ := validateRegularFile_inode hv
    cases hl : s.layouts[i]? with
    | none => exact .inl rfl
    | some l =>
      have hfile : s.FileAt i a l := ⟨ha, ht, hl⟩
      have hstill (es' : List FileExtent) : (s.setLayoutExtents i es').inodes[i]? = some a := ha
      right
      refine ⟨a.size, l.extents, hfile.view, ?_⟩
      simp only [inodeAt_of_some (hstill _), andThen_ok]
      exact fileView_written hfile rfl

theorem execute_writtenView {c : Command} (hc : c.written = some i) :
    WrittenView s (s.execute clock c).2 i c := by
  rcases Command.of_written hc with ⟨v, es, rfl⟩ | ⟨v, es, rfl⟩ | ⟨size, rfl⟩
  · exact commitWrite_writtenView clock v es
  · exact appendWrite_writtenView clock v es
  · exact truncate_writtenView clock size

end Writes

end MetaState

/-- What a write merges into a file of the given size ends where 64 bits reach. -/
def Command.Fits (size : ℕ) : Command → Prop
  | .commitWrite _ _ extents => ∀ e ∈ validPrefix extents, e.InRange
  | .appendWrite _ _ extents =>
    ∀ e ∈ validPrefix extents, size + e.offset.toNat + e.length.toNat < 2 ^ 64
  | _ => True

instance (size : ℕ) (c : Command) : Decidable (c.Fits size) :=
  match c with
  | .commitWrite _ _ extents => inferInstanceAs (Decidable (∀ e ∈ validPrefix extents, e.InRange))
  | .appendWrite _ _ extents => inferInstanceAs
    (Decidable (∀ e ∈ validPrefix extents, size + e.offset.toNat + e.length.toNat < 2 ^ 64))
  | .mkdir .. => .isTrue trivial
  | .createFile .. => .isTrue trivial
  | .truncate .. => .isTrue trivial
  | .unlink .. => .isTrue trivial
  | .rmdir .. => .isTrue trivial
  | .rename .. => .isTrue trivial
  | .setAttr .. => .isTrue trivial

theorem Command.NoOverflow.fits {c : Command} {size : ℕ} (h : c.NoOverflow size) :
    c.Fits size := by
  unfold Command.Fits
  split
  next => exact fun e he => h e (validPrefix_subset he)
  next => exact fun e he => h e (validPrefix_subset he)
  next => trivial

/-- What is merged without overflow is in range and valid. -/
theorem Command.merged_spec {c : Command} {size : UInt64} (hfits : c.Fits size.toNat) :
    ∀ e ∈ c.merged size, e.InRange ∧ e.isInvalid = false := by
  unfold Command.merged
  split
  next => exact fun e he => ⟨hfits e he, validPrefix_valid he⟩
  next =>
    intro e he
    obtain ⟨d, hd, rfl⟩ := List.mem_map.mp he
    have hv : d.isInvalid = false := validPrefix_valid hd
    exact ⟨(patch_shift (hfits d hd)).1, hv⟩
  next => nofun

/-- A write without overflow keeps the form. -/
theorem Represented.written [OffsetSort] {es : List FileExtent} (h : Represented es)
    {c : Command} {size : UInt64} (hfits : c.Fits size.toNat) :
    Represented (c.extentsAfter size es) := by
  rcases c.extentsAfter_cases size es with ⟨i, n, rfl⟩ | hmerge
  · exact h.truncateExtents n
  · rw [hmerge]
    exact h.mergeAll (fun e he => (c.merged_spec hfits e he).1)
      fun e he => (c.merged_spec hfits e he).2

namespace MetaState

variable {s : MetaState} {f : UInt64}

theorem sizeOf_of_view {d : InodeType × UInt64} {es : Option (List FileExtent)}
    (h : s.fileView f = (some d, es)) : s.sizeOf f = d.2.toNat := by
  obtain ⟨a, ha, had⟩ := Option.map_eq_some_iff.mp (congrArg Prod.fst h)
  simp only [sizeOf, ha, Option.map_some, Option.getD_some, ← had]

theorem isFile_of_view {size : UInt64} {es : Option (List FileExtent)}
    (h : s.fileView f = (some (.file, size), es)) : s.isFile f = true :=
  isFile_view.mpr ⟨(.file, size), congrArg Prod.fst h, rfl⟩

end MetaState

/-- A call whose writes end where 64 bits reach, whether or not it succeeds. -/
def NoOverflowAt (e : Step MetaState Call (Outcome Reply)) : Prop :=
  ∀ f ∈ e.input.command.written,
    e.before.isFile f = true → e.input.command.NoOverflow (e.before.sizeOf f)

instance (e : Step MetaState Call (Outcome Reply)) : Decidable (NoOverflowAt e) :=
  -- A file is looked at when it is written, not among all 64-bit numbers.
  Option.decidableForallMem e.input.command.written

/-- A call that merges nothing beyond 64 bits, whatever stands behind an invalid extent. -/
def FitsAt (e : Step MetaState Call (Outcome Reply)) : Prop :=
  ∀ f ∈ e.input.command.written,
    e.before.isFile f = true → e.input.command.Fits (e.before.sizeOf f)

instance (e : Step MetaState Call (Outcome Reply)) : Decidable (FitsAt e) :=
  Option.decidableForallMem e.input.command.written

theorem NoOverflowAt.fits {e : Step MetaState Call (Outcome Reply)} (h : NoOverflowAt e) :
    FitsAt e := fun f hf hfile => (h f hf hfile).fits

/-- The extents of a file, if it has any, have the stored form. -/
def FileView.Represented (v : FileView) : Prop := ∀ es, v.2 = some es → Pulpfs.Represented es

theorem FileView.Represented.step {v w : FileView} (h : v.Represented) (hs : FileView.Step v w) :
    w.Represented := by
  have hsome {es es' : List FileExtent} (he : some es' = some es) (h : Pulpfs.Represented es') :
      Pulpfs.Represented es := Option.some.inj he ▸ h
  cases hs with
  | kept => exact h
  | removed => exact nofun
  | created type =>
    intro es hes
    dsimp only at hes
    split at hes
    next => exact hsome hes .nil
    next => contradiction
  | laid => exact fun es hes => hsome hes .nil

namespace MetaState

variable [OffsetSort] {s : MetaState}

/-- The step lemma. -/
theorem call_represented {c : Call} {f : UInt64} (hlaid : ∀ i, (s.fileView i).Laid)
    (hrep : (s.fileView f).Represented)
    (hfits : c.command.written = some f → FitsAt ⟨s, c, (s.call c).1, (s.call c).2⟩) :
    ((s.call c).2.fileView f).Represented := by
  by_cases hc : c.command.written = some f
  · rcases execute_writtenView (s := s) c.clock hc with
      hsame | ⟨size, stored, hview, hnew⟩
    · show ((s.execute c.clock c.command).2.fileView f).Represented
      rw [hsame]
      exact hrep
    · have hmerged := hfits hc f hc (isFile_of_view hview)
      rw [sizeOf_of_view hview] at hmerged
      have hold := hrep stored (congrArg Prod.snd hview)
      intro es hes
      obtain rfl := Option.some.inj ((congrArg Prod.snd hnew).symm.trans hes)
      exact hold.written hmerged
  · exact hrep.step (execute_view s c.clock c.command (hlaid _) hc)

/-- The run lemma. -/
theorem run_represented {calls : List Call} (hlaid : ∀ f, (s.fileView f).Laid)
    (hrep : ∀ f, (s.fileView f).Represented) (hfits : ∀ e ∈ trace call calls s, FitsAt e) :
    ∀ f, ((final call calls s).fileView f).Laid ∧
      ((final call calls s).fileView f).Represented := by
  induction calls generalizing s with
  | nil => exact fun f => ⟨hlaid f, hrep f⟩
  | cons c calls ih =>
    rw [trace_cons, List.forall_mem_cons] at hfits
    exact ih (execute_laid s c.clock c.command hlaid)
      (fun f => call_represented hlaid (hrep f) fun _ => hfits.1) hfits.2

omit [OffsetSort] in
theorem represented_fresh (chunkSize : UInt64) (nowNs : Int64) (f : UInt64) :
    ((fresh chunkSize nowNs).fileView f).Represented := by
  rw [fileView_fresh]
  exact nofun

end MetaState

/-- In every run whose writes, successful or not, end where 64 bits reach, the extents of every
file are sorted strictly by offset, lie apart, and have bytes and an object each. -/
theorem represented_of_run [OffsetSort] (chunkSize : UInt64) (nowNs : Int64) (calls : List Call)
    (hno : ∀ e ∈ trace MetaState.call calls (.fresh chunkSize nowNs), NoOverflowAt e)
    (f : UInt64) (layout : FileLayout)
    (hl : (final MetaState.call calls (.fresh chunkSize nowNs)).layouts[f]? = some layout) :
    (layout.extents.Pairwise fun a b => a.offset < b.offset) ∧
      (layout.extents.Pairwise fun a b =>
        a.offset.toNat + a.length.toNat ≤ b.offset.toNat ∨
          b.offset.toNat + b.length.toNat ≤ a.offset.toNat) ∧
      ∀ e ∈ layout.extents, 0 < e.length ∧ e.objectKey ≠ [] := by
  have hrep := ((MetaState.run_represented (MetaState.laid_fresh chunkSize nowNs)
    (MetaState.represented_fresh chunkSize nowNs) fun e he => (hno e he).fits) f).2
    layout.extents (by
      simp only [MetaState.fileView, hl, Option.map_some])
  refine ⟨hrep.sorted, ?_, ?_⟩
  · refine (List.pairwise_map.mp hrep.disjoint.apart).imp_of_mem ?_
    intro a b ha hb hapart
    exact hrep.ends_apart ha hb hapart
  · intro e he
    have hv := hrep.valid e he
    refine ⟨UInt64.lt_iff_toNat_lt.mpr (FileExtent.length_pos hv), ?_⟩
    simp only [FileExtent.isInvalid, Bool.or_eq_false_iff] at hv
    simpa using hv.2

/-- A file is written over, a batch is refused after one extent, and a cut goes through an
extent. -/
def refusedCalls : List Call :=
  let e (offset length : UInt64) (key : String) : FileExtent :=
    { offset, length, objectKey := ascii key }
  [⟨fun _ => 1, .createFile 1 (ascii "f") 0o644 0 0⟩,
    ⟨fun _ => 2, .commitWrite 2 1 [e 0 10 "a", e 4 2 "b"]⟩,
    ⟨fun _ => 3, .commitWrite 2 2 [e 2 1 "c", e 8 0 "d"]⟩, ⟨fun _ => 4, .truncate 2 8⟩]

def refusedLayout : FileLayout where
  attrs :=
    { inodeId := 2, type := .file, mode := 0o644, size := 8, nlink := 1, version := 3,
      atimeNs := 1, mtimeNs := 4, ctimeNs := 4, chunkSize := 4096 }
  chunkSize := 4096
  extents :=
    let e (offset length : UInt64) (key : String) (objectOffset : UInt64) : FileExtent :=
      { offset, length, objectKey := ascii key, objectOffset }
    [e 0 2 "a" 0, e 2 1 "c" 0, e 3 1 "a" 3, e 4 2 "b" 0, e 6 2 "a" 6]

theorem represented_of_refusedCalls :
    (refusedLayout.extents.Pairwise fun a b => a.offset < b.offset) ∧
      (refusedLayout.extents.Pairwise fun a b =>
        a.offset.toNat + a.length.toNat ≤ b.offset.toNat ∨
          b.offset.toNat + b.length.toNat ≤ a.offset.toNat) ∧
      ∀ e ∈ refusedLayout.extents, 0 < e.length ∧ e.objectKey ≠ [] :=
  @represented_of_run .insertion 4096 0 refusedCalls (by decide) 2 refusedLayout (by decide)

end Pulpfs
