import Pulpfs.Meta.Represented

/-! How many extents a file is stored in. Only the extent a merged one starts in can be cut in two,
and a cut of the file adds none, so a file has fewer than two extents for each one merged into
it. -/
namespace Pulpfs
open Overlay Transition

theorem extentEnd_le (e : FileExtent) :
    (extentEnd e).toNat ≤ e.offset.toNat + e.length.toNat := by
  rw [extentEnd, UInt64.toNat_add]
  exact Nat.mod_le _ _

/-- A second piece is kept only of an extent in which the new one starts. -/
theorem length_keptPieces_le {e : FileExtent} (he : e.InRange) (c : FileExtent) :
    (keptPieces e c).length ≤ 1 + if c.patch.Covers e.offset.toNat then 1 else 0 := by
  have hend := extentEnd_toNat he
  have hcend := extentEnd_le c
  unfold keptPieces
  by_cases ho : overlaps c e = true
  · simp only [ho, Bool.not_true, Bool.false_eq_true, if_false, List.length_append]
    by_cases hl : c.offset < e.offset
    · by_cases hr : extentEnd e < extentEnd c
      · have hcovers : c.patch.Covers e.offset.toNat := by
          rw [UInt64.lt_iff_toNat_lt] at hl hr
          rw [FileExtent.patch_covers]
          omega
        simp only [hl, hr, hcovers, if_true, List.length_singleton, Nat.le_refl]
      · simp only [hl, hr, if_true, if_false, List.length_singleton, List.length_nil]
        omega
    · simp only [hl, if_false, List.length_nil, Nat.zero_add]
      split
      · exact Nat.le_add_right 1 _
      · exact Nat.zero_le _
  · simp only [Bool.not_eq_true] at ho
    simp only [ho, Bool.not_false, if_true, List.length_singleton]
    exact Nat.le_add_right 1 _

theorem length_flatMap_keptPieces_le {e : FileExtent} (he : e.InRange) (es : List FileExtent) :
    (es.flatMap (keptPieces e)).length ≤
      es.length + (es.map FileExtent.patch).countP fun p => p.Covers e.offset.toNat := by
  induction es with
  | nil => exact Nat.le_refl _
  | cons c es ih =>
    have hc := length_keptPieces_le he c
    simp only [List.flatMap_cons, List.length_append, List.map_cons, List.length_cons,
      List.countP_cons, decide_eq_true_eq]
    omega

theorem length_truncateExtents_le (size : UInt64) (es : List FileExtent) :
    (truncateExtents size es).length ≤ es.length := List.length_filterMap_le _ _

section Merges

variable [OffsetSort] {es : List FileExtent}

/-- A merge adds the new extent, and a second piece of the one it starts in, if there is one. -/
theorem length_mergeExtent_le (h : (es.map FileExtent.patch).Pairwise Patch.Apart)
    {e : FileExtent} (he : e.InRange) :
    (mergeExtent es e).length ≤ es.length + 1 + min 1 es.length := by
  have hpieces := length_flatMap_keptPieces_le he es
  have hone := countP_covers_le_one h e.offset.toNat
  have hall := List.countP_le_length (p := fun p => decide (p.Covers e.offset.toNat))
    (l := es.map FileExtent.patch)
  rw [List.length_map] at hall
  rw [(mergeExtent_perm es e).length_eq, List.length_append, List.length_singleton]
  omega

/-- With fewer extents than twice `k` before, there are fewer than twice those merged after. -/
theorem length_mergeAll_le {extents : List FileExtent} {k : ℕ} (h : Disjoint es)
    (hr : ∀ e ∈ extents, e.InRange) (hk : es.length ≤ 2 * k - 1) :
    (mergeAll es extents).length ≤ 2 * (k + extents.length) - 1 := by
  induction extents generalizing es k with
  | nil => exact hk
  | cons e extents ih =>
    rw [List.forall_mem_cons] at hr
    have hmerged := length_mergeExtent_le h.apart hr.1
    have hnext : (mergeExtent es e).length ≤ 2 * (k + 1) - 1 := by omega
    have hrest := ih (h.mergeExtent hr.1) hr.2 hnext
    rw [List.length_cons, Nat.add_comm extents.length 1, ← Nat.add_assoc]
    exact hrest

end Merges

/-- How many extents a call merges. -/
def Command.mergedCount : Command → ℕ
  | .commitWrite _ _ extents => (validPrefix extents).length
  | .appendWrite _ _ extents => (validPrefix extents).length
  | _ => 0

theorem Command.length_merged (c : Command) (size : UInt64) :
    (c.merged size).length = c.mergedCount := by
  cases c with
  | appendWrite => exact List.length_map _
  | commitWrite => rfl
  | truncate => rfl
  | mkdir => rfl
  | createFile => rfl
  | unlink => rfl
  | rmdir => rfl
  | rename => rfl
  | setAttr => rfl

/-- A write keeps the bound. -/
theorem Command.length_extentsAfter_le [OffsetSort] {c : Command} {size : UInt64}
    {es : List FileExtent} {k : ℕ} (h : Disjoint es) (hfits : c.Fits size.toNat)
    (hk : es.length ≤ 2 * k - 1) :
    (c.extentsAfter size es).length ≤ 2 * (k + c.mergedCount) - 1 := by
  rcases c.extentsAfter_cases size es with ⟨i, n, rfl⟩ | hmerge
  · exact (length_truncateExtents_le n es).trans hk
  · have hmerged := length_mergeAll_le h (fun e he => (c.merged_spec hfits e he).1) hk
    rw [c.length_merged size] at hmerged
    rw [hmerge]
    exact hmerged

/-- The number of extents a file is stored in. -/
def FileView.fragments (v : FileView) : ℕ := (v.2.getD []).length

/-- A call that does not write to a file leaves its extents or leaves none. -/
theorem FileView.Step.fragments {v w : FileView} (h : FileView.Step v w) :
    w = v ∨ w.fragments = 0 := by
  cases h with
  | kept => exact .inl rfl
  | removed => exact .inr rfl
  | created type =>
    right
    unfold FileView.fragments
    split
    next => rfl
    next => rfl
  | laid => exact .inr rfl

/-- How many extents were merged into file `f` since it was created, counted on over a step. -/
def mergedAfter (f : UInt64) (k : ℕ) (e : Step MetaState Call (Outcome Reply)) : ℕ :=
  if e.after.isFile f then
    k + if e.input.command.written = some f then e.input.command.mergedCount else 0
  else 0

/-- How many extents a run merged into file `f` since it was created. -/
def mergedInto (f : UInt64) (steps : List (Step MetaState Call (Outcome Reply))) : ℕ :=
  steps.foldl (mergedAfter f) 0

namespace MetaState

variable {s : MetaState} {f : UInt64}

section Run

variable [OffsetSort]

/-- A truncation adds no extents to the file, and none to any other. -/
theorem truncate_fragments_le (s : MetaState) (clock : Clock) (i size f : UInt64) :
    ((s.truncate clock i size).2.fileView f).fragments ≤ (s.fileView f).fragments := by
  by_cases hf : f = i
  · subst hf
    rcases truncate_writtenView (s := s) (i := f) clock size with
      hsame | ⟨size', stored, hview, hcut⟩
    · rw [hsame]
    · rw [hview, hcut]
      exact length_truncateExtents_le size stored
  · rw [(s.truncate_wrote clock i size).view hf]

/-- The step lemma. -/
theorem call_fragments {c : Call} {k : ℕ} (hlaid : ∀ i, (s.fileView i).Laid)
    (hrep : (s.fileView f).Represented)
    (hfits : c.command.written = some f → FitsAt ⟨s, c, (s.call c).1, (s.call c).2⟩)
    (hk : s.isFile f = true → (s.fileView f).fragments ≤ 2 * k - 1)
    (hfile : (s.call c).2.isFile f = true) :
    ((s.call c).2.fileView f).fragments ≤
      2 * mergedAfter f k ⟨s, c, (s.call c).1, (s.call c).2⟩ - 1 := by
  unfold mergedAfter
  rw [if_pos hfile]
  have hkept (hsame : (s.call c).2.fileView f = s.fileView f) (m : ℕ) :
      ((s.call c).2.fileView f).fragments ≤ 2 * (k + m) - 1 := by
    rw [isFile_view, hsame, ← isFile_view] at hfile
    have hold := hk hfile
    rw [hsame]
    omega
  by_cases hc : c.command.written = some f
  · rw [if_pos hc]
    rcases execute_writtenView (s := s) c.clock hc with hsame | ⟨size, stored, hview, hnew⟩
    · exact hkept hsame _
    · have hmerged := hfits hc f hc (isFile_of_view hview)
      rw [sizeOf_of_view hview] at hmerged
      have hold := hk (isFile_of_view hview)
      rw [hview] at hold
      show ((s.execute c.clock c.command).2.fileView f).fragments ≤ _
      rw [hnew]
      exact Command.length_extentsAfter_le (hrep stored (congrArg Prod.snd hview)).disjoint hmerged
        hold
  · rw [if_neg hc]
    rcases (execute_view s c.clock c.command (hlaid _) hc).fragments with hsame | hnone
    · exact hkept hsame 0
    · exact hnone.trans_le (Nat.zero_le _)

/-- The run lemma. -/
theorem run_fragments {calls : List Call} {k : ℕ} (hlaid : ∀ i, (s.fileView i).Laid)
    (hrep : (s.fileView f).Represented)
    (hfits : ∀ e ∈ trace call calls s, e.input.command.written = some f → FitsAt e)
    (hk : s.isFile f = true → (s.fileView f).fragments ≤ 2 * k - 1)
    (hfile : (final call calls s).isFile f = true) :
    ((final call calls s).fileView f).fragments ≤
      2 * (trace call calls s).foldl (mergedAfter f) k - 1 := by
  induction calls generalizing s k with
  | nil => exact hk hfile
  | cons c calls ih =>
    rw [trace_cons, List.forall_mem_cons] at hfits
    exact ih (execute_laid s c.clock c.command hlaid) (call_represented hlaid hrep hfits.1)
      hfits.2 (call_fragments hlaid hrep hfits.1 hk) hfile

/-- Extents are counted for a file only while it is there. -/
theorem isFile_of_merged {calls : List Call} {k : ℕ} (hk : 1 ≤ k → s.isFile f = true)
    (h : 1 ≤ (trace call calls s).foldl (mergedAfter f) k) :
    (final call calls s).isFile f = true := by
  induction calls generalizing s k with
  | nil => exact hk h
  | cons c calls ih =>
    refine ih ?_ h
    intro hpos
    unfold mergedAfter at hpos
    split at hpos
    next hfile => exact hfile
    next => contradiction

end Run

end MetaState

/-- A merge adds two extents to a disjoint list at most, a truncation adds none, and in every run
in which nothing that is merged into file `f` ends beyond 64 bits, the file has fewer than two
extents for each one merged into it since it was created. -/
theorem fragments_of_run [OffsetSort] :
    (∀ (es : List FileExtent) (e : FileExtent),
      (es.map FileExtent.patch).Pairwise Patch.Apart → e.InRange →
        (mergeExtent es e).length ≤ es.length + 2) ∧
    (∀ (s : MetaState) (clock : Clock) (i size f : UInt64),
      ((s.truncate clock i size).2.fileView f).fragments ≤ (s.fileView f).fragments) ∧
    ∀ (chunkSize : UInt64) (nowNs : Int64) (calls : List Call) (f : UInt64),
      let steps := trace MetaState.call calls (.fresh chunkSize nowNs)
      (∀ e ∈ steps, e.input.command.written = some f → FitsAt e) → 1 ≤ mergedInto f steps →
        ((final MetaState.call calls (.fresh chunkSize nowNs)).fileView f).fragments ≤
          2 * mergedInto f steps - 1 := by
  refine ⟨?_, MetaState.truncate_fragments_le, ?_⟩
  · intro es e h he
    have hlen := length_mergeExtent_le h he
    omega
  · intro chunkSize nowNs calls f steps hfits hmerged
    have hnone (h : 1 ≤ 0) : (MetaState.fresh chunkSize nowNs).isFile f = true :=
      absurd h (by decide)
    have hfile := MetaState.isFile_of_merged hnone hmerged
    refine MetaState.run_fragments (MetaState.laid_fresh chunkSize nowNs)
      (MetaState.represented_fresh chunkSize nowNs f) hfits ?_ hfile
    intro _
    rw [MetaState.fileView_fresh]
    exact Nat.zero_le _

theorem fragments_of_writeCalls :
    let e (offset length : UInt64) : FileExtent := { offset, length, objectKey := ascii "k" }
    let steps := trace (@MetaState.call .insertion) writeCalls (.fresh 4096 0)
    (@mergeExtent .insertion [e 0 10] (e 4 2)).length ≤ [e 0 10].length + 2 ∧
      ((final (@MetaState.call .insertion) writeCalls (.fresh 4096 0)).fileView 2).fragments ≤
        2 * mergedInto 2 steps - 1 :=
  ⟨(@fragments_of_run .insertion).1 _ _ (List.pairwise_singleton _ _) (by decide),
    (@fragments_of_run .insertion).2.2 4096 0 writeCalls 2 (by decide) (by decide)⟩

/-- An extent whose end wraps around leaves two overlapping pieces of the one it is put over, and
the next one put there cuts both of them in two. -/
theorem fragments_beyond_limit :
    let e (offset length : UInt64) : FileExtent := { offset, length, objectKey := ascii "k" }
    let calls : List Call :=
      [⟨fun _ => 1, .createFile 1 (ascii "f") 0o644 0 0⟩, ⟨fun _ => 2, .commitWrite 2 1 [e 0 100]⟩,
        ⟨fun _ => 3, .commitWrite 2 2 [e 50 0xffffffffffffffd8]⟩,
        ⟨fun _ => 4, .commitWrite 2 3 [e 20 10]⟩]
    let steps := trace (@MetaState.call .insertion) calls (.fresh 4096 0)
    let file := (final (@MetaState.call .insertion) calls (.fresh 4096 0)).fileView 2
    (∀ e ∈ steps, e.output.isOk = true) ∧ mergedInto 2 steps = 3 ∧ file.fragments = 6 ∧
      ¬ file.fragments ≤ 2 * mergedInto 2 steps - 1 := by
  decide

end Pulpfs
