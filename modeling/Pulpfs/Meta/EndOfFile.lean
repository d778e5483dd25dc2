import Pulpfs.Meta.Represented
import Pulpfs.Foundations.ByteFile

/-! The stored extents and the size of a file. A refused batch may leave extents beyond the
size; without such a batch nothing is stored there, and a file that grows shows zeros. -/
namespace Pulpfs
open Overlay Transition

/-- An extent of a file whose content ends before its size ends there too. -/
theorem Represented.end_le {es : List FileExtent} (h : Represented es) {size : ℕ}
    (hc : (⟨size, contentOf es⟩ : SparseFile ObjectByte).Confined) {e : FileExtent}
    (he : e ∈ es) : e.offset.toNat + e.length.toNat ≤ size := by
  by_contra hlt
  have hpos := FileExtent.length_pos (h.valid e he)
  have hx : e.patch.Covers (e.offset.toNat + e.length.toNat - 1) := by
    rw [FileExtent.patch_covers]
    omega
  have hsome := h.disjoint.contentOf_eq_some.mpr ⟨e, he, hx, rfl⟩
  have hnone := hc (e.offset.toNat + e.length.toNat - 1) (by show size ≤ _; omega)
  rw [show contentOf es _ = none from hnone] at hsome
  contradiction

/-- A batch that is refused leaves nothing stored beyond the size of the file. -/
def Command.StaysInside (size : ℕ) : Command → Prop
  | .commitWrite _ _ extents =>
    accepted extents = true ∨
      ∀ e ∈ validPrefix extents, e.offset.toNat + e.length.toNat ≤ size
  | .appendWrite _ _ extents => accepted extents = true ∨ validPrefix extents = []
  | _ => True

instance (size : ℕ) (c : Command) : Decidable (c.StaysInside size) :=
  match c with
  | .commitWrite _ _ extents => inferInstanceAs (Decidable (accepted extents = true ∨ _))
  | .appendWrite _ _ extents => inferInstanceAs (Decidable (accepted extents = true ∨ _))
  | .mkdir .. => .isTrue trivial
  | .createFile .. => .isTrue trivial
  | .truncate .. => .isTrue trivial
  | .unlink .. => .isTrue trivial
  | .rmdir .. => .isTrue trivial
  | .rename .. => .isTrue trivial
  | .setAttr .. => .isTrue trivial

def StaysInsideAt (e : Step MetaState Call (Outcome Reply)) : Prop :=
  ∀ f ∈ e.input.command.written,
    e.before.isFile f = true → e.input.command.StaysInside (e.before.sizeOf f)

instance (e : Step MetaState Call (Outcome Reply)) : Decidable (StaysInsideAt e) :=
  Option.decidableForallMem e.input.command.written

/-- The file of a size and extents. -/
def fileOf (size : UInt64) (extents : List FileExtent) : SparseFile ObjectByte :=
  ⟨size.toNat, contentOf extents⟩

/-- No content lies at or beyond the size. -/
def FileView.Confined (v : FileView) : Prop :=
  ∀ d es, v = (some d, some es) → (fileOf d.2 es).Confined

theorem FileView.Confined.step {v w : FileView} (h : v.Confined) (hs : FileView.Step v w) :
    w.Confined := by
  have hempty {d d' : InodeType × UInt64} {es : List FileExtent}
      (he : ((some d', some []) : FileView) = (some d, some es)) : (fileOf d.2 es).Confined := by
    obtain ⟨-, hes⟩ := Prod.mk.inj he
    obtain rfl := Option.some.inj hes
    exact fun _ _ => rfl
  cases hs with
  | kept => exact h
  | removed => exact nofun
  | created type =>
    intro d es he
    split at he
    next => exact hempty he
    next => exact absurd (Prod.mk.inj he).2 nofun
  | laid => exact fun d es he => hempty he

section Writes

variable [OffsetSort]

/-- The file a write leaves, where what it merges ends at the size it leaves. -/
theorem fileOf_written {es : List FileExtent} (h : Represented es) {c : Command} {size : UInt64}
    (hc : ∀ i n, c ≠ .truncate i n) (hno : c.NoOverflow size.toNat)
    (hsize : (c.sizeAfter size).toNat = extent size.toNat ((c.merged size).map FileExtent.patch)) :
    fileOf (c.sizeAfter size) (c.extentsAfter size es) =
      (fileOf size es).write ((c.merged size).map FileExtent.patch) := by
  have hcont := (h.disjoint.mergeAll fun e he => (c.merged_spec hno.fits e he).1).2
  have hext : c.extentsAfter size es = mergeAll es (c.merged size) := by
    refine (c.extentsAfter_cases size es).resolve_left ?_
    rintro ⟨i, n, ht⟩
    exact hc i n ht
  rw [fileOf, hext, hcont, hsize]
  rfl

omit [OffsetSort] in
/-- The size a write leaves is the end of what it merges, if that does not lie inside. -/
theorem Command.sizeAfter_toNat {c : Command} {size : UInt64} (hc : ∀ i n, c ≠ .truncate i n)
    (hno : c.NoOverflow size.toNat) (hin : c.StaysInside size.toNat) :
    (c.sizeAfter size).toNat = extent size.toNat ((c.merged size).map FileExtent.patch) := by
  cases c with
  | truncate i n => exact absurd rfl (hc i n)
  | commitWrite i v es =>
    simp only [Command.sizeAfter, Command.merged]
    by_cases ha : accepted es = true
    · rw [if_pos ha, validPrefix_eq_self.mpr (accepted_iff.mp ha), foldl_extentEnd hno]
    · rw [if_neg ha]
      refine le_antisymm (le_extent _ _) (extent_le.mpr ⟨le_rfl, ?_⟩)
      exact List.forall_mem_map.mpr (hin.resolve_left ha)
  | appendWrite i v es =>
    simp only [Command.sizeAfter, Command.merged]
    by_cases ha : accepted es = true
    · rw [if_pos ha, validPrefix_eq_self.mpr (accepted_iff.mp ha), appendedSize_toNat hno,
        (appendedTo_patches hno).2]
      exact (extent_shift size.toNat 0 _).symm
    · rw [if_neg ha, hin.resolve_left ha]
      rfl
  | mkdir => rfl
  | createFile => rfl
  | unlink => rfl
  | rmdir => rfl
  | rename => rfl
  | setAttr => rfl

/-- A write that stays inside keeps the content inside. -/
theorem confined_written {es : List FileExtent} (h : Represented es) {size : UInt64}
    (hc : (fileOf size es).Confined) {c : Command} (hno : c.NoOverflow size.toNat)
    (hin : c.StaysInside size.toNat) :
    (fileOf (c.sizeAfter size) (c.extentsAfter size es)).Confined := by
  by_cases ht : ∃ i n, c = .truncate i n
  · obtain ⟨i, n, rfl⟩ := ht
    show (fileOf n (truncateExtents n es)).Confined
    rw [fileOf, contentOf_truncateExtents h.disjoint]
    exact SparseFile.confined_truncate (fileOf size es) n.toNat
  · simp only [not_exists] at ht
    rw [fileOf_written h ht hno (Command.sizeAfter_toNat ht hno hin)]
    exact hc.write _

end Writes

namespace MetaState

section Run

variable [OffsetSort] {s : MetaState}

/-- The step lemma. -/
theorem call_confined {c : Call} (hlaid : ∀ f, (s.fileView f).Laid)
    (hrep : ∀ f, (s.fileView f).Represented) (hconf : ∀ f, (s.fileView f).Confined)
    (hno : NoOverflowAt ⟨s, c, (s.call c).1, (s.call c).2⟩)
    (hin : StaysInsideAt ⟨s, c, (s.call c).1, (s.call c).2⟩) (f : UInt64) :
    ((s.call c).2.fileView f).Confined := by
  by_cases hc : c.command.written = some f
  · rcases execute_writtenView (s := s) c.clock hc with
      hsame | ⟨size, stored, hview, hnew⟩
    · show ((s.execute c.clock c.command).2.fileView f).Confined
      rw [hsame]
      exact hconf f
    · have hover := hno f hc (isFile_of_view hview)
      have hinside := hin f hc (isFile_of_view hview)
      rw [sizeOf_of_view hview] at hover hinside
      have hold := hrep f stored (congrArg Prod.snd hview)
      intro d es hes
      obtain ⟨hd, hstored⟩ := Prod.mk.inj (hnew.symm.trans hes)
      obtain rfl := Option.some.inj hd
      obtain rfl := Option.some.inj hstored
      exact confined_written hold (hconf f _ _ hview) hover hinside
  · exact (hconf f).step (execute_view s c.clock c.command (hlaid _) hc)

/-- The run lemma. -/
theorem run_confined {calls : List Call} (hlaid : ∀ f, (s.fileView f).Laid)
    (hrep : ∀ f, (s.fileView f).Represented) (hconf : ∀ f, (s.fileView f).Confined)
    (hno : ∀ e ∈ trace call calls s, NoOverflowAt e)
    (hin : ∀ e ∈ trace call calls s, StaysInsideAt e) :
    ∀ f, ((final call calls s).fileView f).Represented ∧
      ((final call calls s).fileView f).Confined := by
  induction calls generalizing s with
  | nil => exact fun f => ⟨hrep f, hconf f⟩
  | cons c calls ih =>
    rw [trace_cons, List.forall_mem_cons] at hno hin
    exact ih (execute_laid s c.clock c.command hlaid)
      (fun f => call_represented hlaid (hrep f) fun _ => hno.1.fits)
      (call_confined hlaid hrep hconf hno.1 hin.1) hno.2 hin.2

end Run

theorem confined_fresh (chunkSize : UInt64) (nowNs : Int64) (f : UInt64) :
    ((fresh chunkSize nowNs).fileView f).Confined := by
  rw [fileView_fresh]
  intro d es h
  exact absurd (Prod.mk.inj h).2 nofun

/-- A cut at the size or beyond leaves no extent beyond the size. -/
theorem truncate_ends [OffsetSort] {s : MetaState} {f : UInt64} (clock : Clock) {size n : UInt64}
    {es es' : List FileExtent} (hview : s.fileView f = (some (.file, size), some es))
    (hrep : Represented es) (hconf : (fileOf size es).Confined)
    (hnew : ((s.truncate clock f n).2.fileView f).2 = some es') :
    ∀ e ∈ es', e.offset.toNat + e.length.toNat ≤ size.toNat := by
  rcases truncate_writtenView (s := s) (i := f) clock n with
    hsame | ⟨size', stored, hview', hcut⟩
  · rw [hsame, hview, Option.some.injEq] at hnew
    subst hnew
    exact fun e he => hrep.end_le hconf he
  · rw [hview, Prod.mk.injEq, Option.some.injEq, Option.some.injEq] at hview'
    obtain ⟨-, rfl⟩ := hview'
    rw [hcut, Option.some.injEq] at hnew
    subst hnew
    intro e he
    refine (hrep.truncateExtents n).end_le ?_ he
    intro x hx
    show contentOf (truncateExtents n es) x = none
    have hnone : contentOf es x = none := hconf x hx
    rw [contentOf_truncateExtents hrep.disjoint]
    unfold cut
    split
    · exact hnone
    · rfl

end MetaState

/-- In every run without overflow in which no refused batch has stored anything beyond the size,
every extent of every file ends at its size or before, also after the file has been made longer:
the positions it gains are zero. -/
theorem endOfFile_of_run [OffsetSort] (chunkSize : UInt64) (nowNs : Int64) (calls : List Call)
    (hno : ∀ e ∈ trace MetaState.call calls (.fresh chunkSize nowNs), NoOverflowAt e)
    (hin : ∀ e ∈ trace MetaState.call calls (.fresh chunkSize nowNs), StaysInsideAt e)
    (f size : UInt64) (extents : List FileExtent)
    (hview : (final MetaState.call calls (.fresh chunkSize nowNs)).fileView f =
      (some (.file, size), some extents)) :
    (∀ e ∈ extents, e.offset.toNat + e.length.toNat ≤ size.toNat) ∧
      ∀ (clock : Clock) (n : UInt64) (extents' : List FileExtent), size ≤ n →
        (((final MetaState.call calls (.fresh chunkSize nowNs)).truncate clock f n).2.fileView f).2
          = some extents' →
        ∀ e ∈ extents', e.offset.toNat + e.length.toNat ≤ size.toNat := by
  obtain ⟨hrep, hconf⟩ := MetaState.run_confined (MetaState.laid_fresh chunkSize nowNs)
    (MetaState.represented_fresh chunkSize nowNs) (MetaState.confined_fresh chunkSize nowNs)
    hno hin f
  have hr := hrep extents (congrArg Prod.snd hview)
  have hc := hconf _ _ hview
  exact ⟨fun e he => hr.end_le hc he,
    fun clock n es' _ hnew => MetaState.truncate_ends clock hview hr hc hnew⟩

/-- A batch refused after an extent inside the file, an append refused at once, a cut and a
longer size. -/
def insideCalls : List Call :=
  let e (offset length : UInt64) (key : String) : FileExtent :=
    { offset, length, objectKey := ascii key }
  [⟨fun _ => 1, .createFile 1 (ascii "f") 0o644 0 0⟩,
    ⟨fun _ => 2, .commitWrite 2 1 [e 0 10 "a"]⟩,
    ⟨fun _ => 3, .commitWrite 2 2 [e 2 3 "b", e 8 0 "c"]⟩,
    ⟨fun _ => 4, .appendWrite 2 2 [e 0 1 "", e 1 4 "d"]⟩, ⟨fun _ => 5, .truncate 2 4⟩,
    ⟨fun _ => 6, .truncate 2 7⟩]

theorem endOfFile_of_insideCalls :
    let run := final (@MetaState.call .insertion) insideCalls (.fresh 4096 0)
    let extents : List FileExtent :=
      [{ offset := 0, length := 2, objectKey := ascii "a" },
        { offset := 2, length := 2, objectKey := ascii "b" }]
    (∀ e ∈ extents, e.offset.toNat + e.length.toNat ≤ (7 : UInt64).toNat) ∧
      ∀ (clock : Clock) (n : UInt64) (extents' : List FileExtent), 7 ≤ n →
        ((run.truncate clock 2 n).2.fileView 2).2 = some extents' →
        ∀ e ∈ extents', e.offset.toNat + e.length.toNat ≤ (7 : UInt64).toNat :=
  @endOfFile_of_run .insertion 4096 0 insideCalls (by decide) (by decide) 2 7 _ (by decide)

/-- A batch refused at its second extent leaves the first one in an empty file, and a longer size
shows it. -/
theorem beyondEnd_after_refused :
    let e : FileExtent := { length := 4, objectKey := ascii "k" }
    let calls : List Call :=
      [⟨fun _ => 1, .createFile 1 (ascii "f") 0o644 0 0⟩, ⟨fun _ => 2, .commitWrite 2 0 [e, {}]⟩]
    let run := final (@MetaState.call .insertion) calls (.fresh 4096 0)
    (∀ e ∈ trace (@MetaState.call .insertion) calls (.fresh 4096 0), NoOverflowAt e) ∧
      run.fileView 2 = (some (.file, 0), some [e]) ∧
      ¬ e.offset.toNat + e.length.toNat ≤ (0 : UInt64).toNat ∧
      (run.truncate (fun _ => 3) 2 4).2.fileView 2 = (some (.file, 4), some [e]) := by
  decide

end Pulpfs
