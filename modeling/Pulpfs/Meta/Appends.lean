import Pulpfs.Meta.Represented
import Pulpfs.Foundations.Tiling

/-! Appends of any number of clients to one file. The ranges they are told lie end to end, and
each byte stays what the append that owns its range made it, whatever was stored before. -/
namespace Pulpfs
open Overlay Transition Tiling

/-- A read of position `x` gets `b`: some extent it can reach lies there, and every such extent
says so. -/
def Shows (extents : List FileExtent) (x : ℕ) (b : ObjectByte) : Prop :=
  (∃ c ∈ reachable extents, c.patch.Covers x) ∧
    ∀ c ∈ reachable extents, c.patch.Covers x → c.patch.value x = b

theorem Shows.contentOf {extents : List FileExtent} {x : ℕ} {b : ObjectByte}
    (h : Shows extents x b) : contentOf (reachable extents) x = some b := by
  obtain ⟨⟨c, hc, hx⟩, hv⟩ := h
  refine content_eq_some ⟨_, List.mem_map_of_mem hc, hx⟩ ?_
  rw [List.forall_mem_map]
  exact hv

section Merge

variable [OffsetSort] {es : List FileExtent} {x : ℕ} {b : ObjectByte}

theorem mem_reachable_mergeExtent {e p : FileExtent} (he : e.InRange) :
    p ∈ reachable (mergeExtent es e) ↔ (∃ c ∈ reachable es, p ∈ keptPieces e c) ∨ p = e := by
  rw [(reachable_mergeExtent (List.Perm.refl _) he).mem_iff, (mergeExtent_perm _ e).mem_iff,
    List.mem_append, List.mem_flatMap, List.mem_singleton]

/-- A merge decides what is shown where the new extent lies. -/
theorem shows_mergeExtent {e : FileExtent} (he : e.InRange) (hx : e.patch.Covers x) :
    Shows (mergeExtent es e) x (e.patch.value x) := by
  refine ⟨⟨e, (mem_reachable_mergeExtent he).mpr (.inr rfl), hx⟩, ?_⟩
  intro p hp hpx
  rcases (mem_reachable_mergeExtent he).mp hp with ⟨c, hc, hp⟩ | rfl
  · exact absurd hx ((keptPieces_spec he (mem_reachable.mp hc).2 hp).2 x hpx).2.1
  · rfl

/-- Elsewhere it changes nothing. -/
theorem Shows.mergeExtent (h : Shows es x b) {e : FileExtent} (he : e.InRange)
    (hx : ¬ e.patch.Covers x) : Shows (mergeExtent es e) x b := by
  obtain ⟨⟨c, hc, hcx⟩, hv⟩ := h
  constructor
  · obtain ⟨p, hp, hpx⟩ := keptPieces_complete he (mem_reachable.mp hc).2 hcx hx
    exact ⟨p, (mem_reachable_mergeExtent he).mpr (.inl ⟨c, hc, hp⟩), hpx⟩
  · intro p hp hpx
    rcases (mem_reachable_mergeExtent he).mp hp with ⟨d, hd, hp⟩ | rfl
    · obtain ⟨hdx, -, hval⟩ := (keptPieces_spec he (mem_reachable.mp hd).2 hp).2 x hpx
      exact hval.trans (hv d hd hdx)
    · exact absurd hpx hx

theorem Shows.mergeAll {batch : List FileExtent} (h : Shows es x b)
    (hr : ∀ e ∈ batch, e.InRange) (hx : ∀ e ∈ batch, ¬ e.patch.Covers x) :
    Shows (mergeAll es batch) x b := by
  induction batch generalizing es with
  | nil => exact h
  | cons e batch ih =>
    rw [List.forall_mem_cons] at hr hx
    exact ih (h.mergeExtent hr.1 hx.1) hr.2 hx.2

/-- The last extent of a batch at a position is shown there. -/
theorem shows_mergeAll {front rest : List FileExtent} {e : FileExtent} (he : e.InRange)
    (hr : ∀ d ∈ rest, d.InRange) (hx : e.patch.Covers x) (hlast : ∀ d ∈ rest, ¬ d.patch.Covers x) :
    Shows (mergeAll es (front ++ e :: rest)) x (e.patch.value x) := by
  have hsplit : Pulpfs.mergeAll es (front ++ e :: rest) =
      Pulpfs.mergeAll (Pulpfs.mergeExtent (Pulpfs.mergeAll es front) e) rest := by
    rw [mergeAll_append]
    rfl
  rw [hsplit]
  exact (shows_mergeExtent he hx).mergeAll hr hlast

end Merge

/-- An append that succeeded: what was asked for and what was replied. -/
structure Appended where
  batch : List FileExtent
  result : AppendWriteStateResult

namespace Appended

/-- The replied range: from `append_start` on, up to the largest end in the batch. -/
def span (a : Appended) : Span ℕ where
  start := a.result.appendStart.toNat
  stop := a.result.appendStart.toNat + extent 0 (a.batch.map FileExtent.patch)

/-- Each byte of the batch is the one its last committed extent there names. -/
def ShownIn (a : Appended) (extents : List FileExtent) : Prop :=
  ∀ front e rest x, a.result.committedExtents = front ++ e :: rest → e.patch.Covers x →
    (∀ d ∈ rest, ¬ d.patch.Covers x) → Shows extents x (e.patch.value x)

/-- The append took a file of `size` bytes with the extents `stored` to `size'` and `stored'`. -/
structure Took (a : Appended) (size : UInt64) (stored : List FileExtent) (size' : UInt64)
    (stored' : List FileExtent) : Prop where
  start_eq : a.span.start = size.toNat
  stop_eq : a.span.stop = size'.toNat
  committed : a.result.committedExtents = a.batch.map (·.appendedTo a.result.appendStart)
  inSpan : ∀ e ∈ a.result.committedExtents, ∀ x, e.patch.Covers x → a.span.Contains x
  shown : a.ShownIn stored'
  below : ∀ x b, x < size.toNat → Shows stored x b → Shows stored' x b

end Appended

def appendedBy (f : UInt64) (e : Step MetaState Call (Outcome Reply)) : Option Appended :=
  match e.input.command, e.output with
  | .appendWrite i _ batch, .ok (.appended result) => if i = f then some ⟨batch, result⟩ else none
  | _, _ => none

/-- The appends to file `f` in a run, in the order in which they were applied. -/
def appends (f : UInt64) (steps : List (Step MetaState Call (Outcome Reply))) : List Appended :=
  steps.filterMap (appendedBy f)

def Command.appendsTo (f : UInt64) : Command → Bool
  | .appendWrite i _ _ => i = f
  | _ => false

/-- An append to file `f` that succeeds and ends where 64 bits reach, or a call that does not
write to `f` and leaves it in place. -/
def AppendOrOther (f : UInt64) (e : Step MetaState Call (Outcome Reply)) : Prop :=
  if e.input.command.appendsTo f then
    e.output.isOk = true ∧ e.input.command.NoOverflow (e.before.sizeOf f)
  else e.input.command.written ≠ some f ∧ e.after.isFile f = true

instance (f : UInt64) (e : Step MetaState Call (Outcome Reply)) : Decidable (AppendOrOther f e) :=
  inferInstanceAs (Decidable (if e.input.command.appendsTo f then
    e.output.isOk = true ∧ e.input.command.NoOverflow (e.before.sizeOf f)
    else e.input.command.written ≠ some f ∧ e.after.isFile f = true))

theorem appendedBy_of_not {f : UInt64} {e : Step MetaState Call (Outcome Reply)}
    (h : e.input.command.appendsTo f = false) : appendedBy f e = none := by
  unfold appendedBy
  split
  next i v batch result hc ho =>
    rw [hc] at h
    exact if_neg (of_decide_eq_false h)
  next => rfl

theorem Command.appendsTo_iff {f : UInt64} {c : Command} :
    c.appendsTo f = true ↔ ∃ v es, c = .appendWrite f v es := by
  constructor
  · intro h
    cases c with
    | appendWrite i v es =>
      obtain rfl := of_decide_eq_true h
      exact ⟨v, es, rfl⟩
    | _ => contradiction
  · rintro ⟨v, es, rfl⟩
    exact decide_eq_true rfl

/-- Where an append without overflow puts an extent of its batch. -/
theorem appendedTo_covers {size : UInt64} {e : FileExtent}
    (h : size.toNat + e.offset.toNat + e.length.toNat < 2 ^ 64) {x : ℕ}
    (hx : (e.appendedTo size).patch.Covers x) : size.toNat ≤ x ∧ x < size.toNat + e.patch.stop := by
  have hx : (e.patch.shift size.toNat).Covers x := (patch_shift h).2 ▸ hx
  exact ⟨(Nat.le_add_right _ _).trans hx.1, hx.2⟩

namespace MetaState

variable {s s' : MetaState} {clock : Clock} {f size : UInt64} {stored : List FileExtent}

theorem view_of_isFile (hlaid : (s.fileView f).Laid) (h : s.isFile f = true) :
    ∃ size stored, s.fileView f = (some (.file, size), some stored) := by
  obtain ⟨⟨type, size⟩, hd, rfl⟩ := isFile_view.mp h
  obtain ⟨stored, hs⟩ := Option.ne_none_iff_exists'.mp (hlaid.laid _ hd rfl)
  exact ⟨size, stored, Prod.ext hd hs⟩

/-- A frame step that leaves a file a file leaves it as it is. -/
theorem view_kept (hstep : FileView.Step (s.fileView f) (s'.fileView f))
    (hview : s.fileView f = (some (.file, size), some stored)) (h : s'.isFile f = true) :
    s'.fileView f = (some (.file, size), some stored) := by
  obtain ⟨d, hd, -⟩ := isFile_view.mp h
  rw [hview] at hstep
  generalize s'.fileView f = w at hstep hd
  cases hstep with
  | kept => rfl
  | removed => contradiction

section Writes

variable [OffsetSort]

/-- What `AppendWrite` replies and what it leaves. -/
theorem appendWrite_reply {v : UInt64} {es : List FileExtent} {result : AppendWriteStateResult}
    (h : s.appendWrite clock f v es = (.ok result, s'))
    (hview : s.fileView f = (some (.file, size), some stored)) :
    result.appendStart = size ∧ result.committedExtents = es.map (·.appendedTo size) ∧
      s'.fileView f = (some (.file, size + es.foldl (fun n e => max n (extentEnd e)) 0),
        some (mergeAll stored (es.map (·.appendedTo size)))) := by
  unfold appendWrite at h
  cases hv : s.validateRegularFile f with
  | error e =>
    rw [hv] at h
    cases h
  | ok _ =>
  obtain ⟨a, ha, ht⟩ := validateRegularFile_inode hv
  cases hl : s.layouts[f]? with
  | none =>
    simp only [hv, hl] at h
    cases h
  | some l =>
  have hfile : s.FileAt f a l := ⟨ha, ht, hl⟩
  obtain ⟨hsize, hstored⟩ := Prod.mk.inj (hfile.view.symm.trans hview)
  obtain rfl : a.size = size := (Prod.mk.inj (Option.some.inj hsize)).2
  obtain rfl : l.extents = stored := Option.some.inj hstored
  simp only [hv, hl, inodeAt_of_some ha, andThen_ok, mergeAppended_eq] at h
  cases hm : accepted es with
  | false =>
    simp only [hm, Bool.not_false, if_true] at h
    cases h
  | true =>
    simp only [hm, Bool.not_true, Bool.false_eq_true, if_false,
      validPrefix_eq_self.mpr (accepted_iff.mp hm)] at h
    obtain ⟨hr, rfl⟩ := Prod.mk.inj h
    obtain rfl := Outcome.ok.inj hr
    exact ⟨rfl, List.nil_append _, fileView_written hfile rfl⟩

/-- One append of the run: its range starts at the old size and ends at the new one, its bytes
are shown, and what was shown below its range still is. -/
theorem append_step {c : Call} {v : UInt64} {es : List FileExtent}
    (hc : c.command = .appendWrite f v es) (hok : (s.call c).1.isOk = true)
    (hno : ∀ e ∈ es, size.toNat + e.offset.toNat + e.length.toNat < 2 ^ 64)
    (hview : s.fileView f = (some (.file, size), some stored)) :
    ∃ a size' stored', appendedBy f ⟨s, c, (s.call c).1, (s.call c).2⟩ = some a ∧
      (s.call c).2.fileView f = (some (.file, size'), some stored') ∧
      a.Took size stored size' stored' := by
  obtain ⟨clock, command⟩ := c
  obtain rfl : command = .appendWrite f v es := hc
  obtain ⟨o, s', hr⟩ : ∃ o s', s.appendWrite clock f v es = (o, s') := ⟨_, _, rfl⟩
  have hcall : s.call ⟨clock, .appendWrite f v es⟩ = (o.map .appended, s') :=
    congrArg (Result.map Reply.appended) hr
  rw [hcall] at hok ⊢
  cases o with
  | error e => contradiction
  | outOfRange => contradiction
  | diverged => contradiction
  | ok result =>
  obtain ⟨hstart, hcommitted, hafter⟩ := appendWrite_reply hr hview
  have hin := (appendedTo_patches hno).1
  refine ⟨⟨es, result⟩, _, _, if_pos rfl, hafter, ?_⟩
  constructor
  · exact congrArg UInt64.toNat hstart
  · show result.appendStart.toNat + extent 0 (es.map FileExtent.patch) = _
    rw [hstart]
    exact (appendedSize_toNat hno).symm
  · rw [hstart]
    exact hcommitted
  · intro d hd x hx
    obtain ⟨e, he, rfl⟩ := List.mem_map.mp (hcommitted ▸ hd)
    obtain ⟨h1, h2⟩ := appendedTo_covers (hno e he) hx
    have hstop : e.patch.stop ≤ extent 0 (es.map FileExtent.patch) :=
      stop_le_extent (List.mem_map_of_mem he)
    rw [← hstart] at h1 h2
    exact ⟨h1, h2.trans_le (Nat.add_le_add_left hstop _)⟩
  · intro front e rest x hsplit hx hlast
    have hsplit : es.map (·.appendedTo size) = front ++ e :: rest := hcommitted.symm.trans hsplit
    rw [hsplit] at hin ⊢
    exact shows_mergeAll (hin e (by simp)) (fun d hd => hin d (by simp [hd])) hx hlast
  · intro x b hx hshown
    refine hshown.mergeAll hin ?_
    rw [List.forall_mem_map]
    intro e he hcovers
    exact absurd (appendedTo_covers (hno e he) hcovers).1 hx.not_ge

/-- The run lemma. -/
theorem run_appends {calls : List Call} (hlaid : ∀ f, (s.fileView f).Laid)
    (hview : s.fileView f = (some (.file, size), some stored))
    (hcalls : ∀ e ∈ trace call calls s, AppendOrOther f e) :
    ∃ size' stored', (final call calls s).fileView f = (some (.file, size'), some stored') ∧
      Tiles size.toNat ((appends f (trace call calls s)).map Appended.span) size'.toNat ∧
      (∀ a ∈ appends f (trace call calls s),
        a.result.committedExtents = a.batch.map (·.appendedTo a.result.appendStart) ∧
          a.ShownIn stored') ∧
      ∀ x b, x < size.toNat → Shows stored x b → Shows stored' x b := by
  induction calls generalizing s size stored with
  | nil =>
    exact ⟨size, stored, hview, rfl, fun _ ha => absurd ha List.not_mem_nil, fun _ _ _ h => h⟩
  | cons c calls ih =>
    rw [trace_cons, List.forall_mem_cons] at hcalls
    obtain ⟨hc, hcalls⟩ := hcalls
    have hlaid' := execute_laid s c.clock c.command hlaid
    unfold AppendOrOther at hc
    split at hc
    next happends =>
      obtain ⟨v, es, hcommand⟩ := Command.appendsTo_iff.mp happends
      obtain ⟨hok, hno⟩ := hc
      rw [show (c.command) = _ from hcommand, sizeOf_of_view hview] at hno
      obtain ⟨a, size₁, stored₁, ha, hview₁, htook⟩ := append_step hcommand hok hno hview
      obtain ⟨size', stored', hview', htiles, hlater, hkeep⟩ := ih hlaid' hview₁ hcalls
      have hle : a.span.start ≤ a.span.stop := Nat.le_add_right _ _
      have happ : appends f (trace call (c :: calls) s) =
          a :: appends f (trace call calls (call c s).2) := List.filterMap_cons_some ha
      refine ⟨size', stored', hview', ?_, ?_, ?_⟩
      · rw [happ, List.map_cons]
        exact ⟨htook.start_eq, hle, htook.stop_eq ▸ htiles⟩
      · rw [happ, List.forall_mem_cons]
        refine ⟨⟨htook.committed, ?_⟩, hlater⟩
        intro front e rest x hsplit hx hlast
        refine hkeep x _ ?_ (htook.shown front e rest x hsplit hx hlast)
        have hmem : e ∈ a.result.committedExtents := hsplit ▸ by simp
        exact htook.stop_eq ▸ (htook.inSpan e hmem x hx).2
      · rw [htook.start_eq, htook.stop_eq] at hle
        exact fun x b hx h => hkeep x b (hx.trans_le hle) (htook.below x b hx h)
    next hother =>
      have happ : appends f (trace call (c :: calls) s) =
          appends f (trace call calls (call c s).2) :=
        List.filterMap_cons_none (appendedBy_of_not (Bool.eq_false_iff.mpr hother))
      rw [happ]
      have hstep := execute_view s c.clock c.command (hlaid _) hc.1
      exact ih hlaid' (view_kept hstep hview hc.2) hcalls

end Writes

end MetaState

/-- Appends to one file that succeed, in whatever order they are applied and whatever happens to
other files between them: the replied ranges lie end to end from the first size to the last, and
every byte of a batch stays the one of the last committed extent there. -/
theorem appends_of_run [OffsetSort] (chunkSize : UInt64) (nowNs : Int64) (history calls : List Call)
    (f : UInt64) :
    let s := final MetaState.call history (.fresh chunkSize nowNs)
    let replies := appends f (trace MetaState.call calls s)
    s.isFile f = true → (∀ e ∈ trace MetaState.call calls s, AppendOrOther f e) →
    ∃ layout, (final MetaState.call calls s).getLayout f = .ok layout ∧
      Tiles (s.sizeOf f) (replies.map Appended.span) layout.attrs.size.toNat ∧
      (replies.Pairwise fun a b => ∀ x, a.span.Contains x → ¬ b.span.Contains x) ∧
      (∀ x, (∃ a ∈ replies, a.span.Contains x) ↔
        s.sizeOf f ≤ x ∧ x < layout.attrs.size.toNat) ∧
      ∀ a ∈ replies,
        a.result.committedExtents = a.batch.map (·.appendedTo a.result.appendStart) ∧
        ∀ front e rest x, a.result.committedExtents = front ++ e :: rest → e.patch.Covers x →
          (∀ d ∈ rest, ¬ d.patch.Covers x) → layout.file.content x = some (e.patch.value x) := by
  intro s replies hfile hcalls
  have hlaid := MetaState.laid_run history (MetaState.laid_fresh chunkSize nowNs)
  obtain ⟨size, stored, hview⟩ := MetaState.view_of_isFile (hlaid f) hfile
  obtain ⟨size', stored', hview', htiles, hreplies, -⟩ :=
    MetaState.run_appends hlaid hview hcalls
  obtain ⟨layout, hgot, hsize, hextents⟩ := MetaState.getLayout_of_view hview'
  rw [← MetaState.sizeOf_of_view hview, ← hsize] at htiles
  refine ⟨layout, hgot, htiles, List.pairwise_map.mp htiles.disjoint, ?_, ?_⟩
  · intro x
    rw [← htiles.exists_contains_iff x]
    simp only [List.mem_map, exists_exists_and_eq_and]
    rfl
  · intro a ha
    obtain ⟨hcommitted, hshown⟩ := hreplies a ha
    refine ⟨hcommitted, ?_⟩
    intro front e rest x hsplit hx hlast
    rw [FileLayout.file, hextents]
    exact (hshown front e rest x hsplit hx hlast).contentOf

/-- A file with an extent that wrapped, and batches of two clients with a gap and an overlap. -/
def wrappedHistory : List Call :=
  let e (offset length : UInt64) (key : String) : FileExtent :=
    { offset, length, objectKey := ascii key }
  [⟨fun _ => 1, .createFile 1 (ascii "f") 0o644 0 0⟩, ⟨fun _ => 2, .commitWrite 2 1 [e 0 8 "a"]⟩,
    ⟨fun _ => 3, .commitWrite 2 2 [e (2 ^ 64 - 4) 8 "b"]⟩]

def twoClients : List Call :=
  let e (offset length : UInt64) (key : String) : FileExtent :=
    { offset, length, objectKey := ascii key }
  [⟨fun _ => 4, .appendWrite 2 3 [e 0 4 "c", e 2 4 "d"]⟩,
    ⟨fun _ => 5, .createFile 1 (ascii "g") 0o644 0 0⟩,
    ⟨fun _ => 6, .appendWrite 2 3 [e 3 2 "e"]⟩, ⟨fun _ => 7, .commitWrite 3 1 [e 0 1 "x"]⟩,
    ⟨fun _ => 8, .appendWrite 2 4 []⟩]

theorem appends_of_twoClients :
    let s := final (@MetaState.call .insertion) wrappedHistory (.fresh 4096 0)
    let replies := appends 2 (trace (@MetaState.call .insertion) twoClients s)
    ∃ layout, (final (@MetaState.call .insertion) twoClients s).getLayout 2 = .ok layout ∧
      Tiles (s.sizeOf 2) (replies.map Appended.span) layout.attrs.size.toNat ∧
      (replies.Pairwise fun a b => ∀ x, a.span.Contains x → ¬ b.span.Contains x) ∧
      (∀ x, (∃ a ∈ replies, a.span.Contains x) ↔
        s.sizeOf 2 ≤ x ∧ x < layout.attrs.size.toNat) ∧
      ∀ a ∈ replies,
        a.result.committedExtents = a.batch.map (·.appendedTo a.result.appendStart) ∧
        ∀ front e rest x, a.result.committedExtents = front ++ e :: rest → e.patch.Covers x →
          (∀ d ∈ rest, ¬ d.patch.Covers x) → layout.file.content x = some (e.patch.value x) :=
  @appends_of_run .insertion 4096 0 wrappedHistory twoClients 2 (by decide)
    (by decide +kernel)

end Pulpfs
