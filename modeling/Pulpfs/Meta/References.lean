import Pulpfs.Meta.Represented

/-! The objects a state refers to. A call adds no others than it commits, whatever becomes of it. -/
namespace Pulpfs

/-- The extents a command commits. -/
def Command.extents : Command → List FileExtent
  | .commitWrite _ _ extents => extents
  | .appendWrite _ _ extents => extents
  | _ => []

/-- A file has an extent in the object. -/
def MetaState.References (s : MetaState) (key : Bytes) : Prop :=
  ∃ (f : UInt64) (layout : FileLayout), s.layouts[f]? = some layout ∧
    ∃ e ∈ layout.extents, e.objectKey = key

/-- The keys of all extents, as often as they occur. -/
def MetaState.objectKeys (s : MetaState) : List Bytes :=
  s.layouts.toList.flatMap fun l => l.2.extents.map FileExtent.objectKey

theorem MetaState.mem_objectKeys {s : MetaState} {key : Bytes} :
    key ∈ s.objectKeys ↔ s.References key := by
  simp only [objectKeys, List.mem_flatMap, List.mem_map]
  constructor
  · rintro ⟨⟨f, layout⟩, hl, e, he, hk⟩
    exact ⟨f, layout, Std.ExtTreeMap.mem_toList_iff_getElem?_eq_some.mp hl, e, he, hk⟩
  · rintro ⟨f, layout, hl, e, he, hk⟩
    exact ⟨(f, layout), Std.ExtTreeMap.mem_toList_iff_getElem?_eq_some.mpr hl, e, he, hk⟩

section

variable [OffsetSort]

theorem mergeExtent_keys {es : List FileExtent} {e d : FileExtent} (h : d ∈ mergeExtent es e) :
    d.objectKey = e.objectKey ∨ ∃ c ∈ es, c.objectKey = d.objectKey := by
  rcases List.mem_append.mp ((mergeExtent_perm es e).mem_iff.mp h) with hkept | hnew
  · obtain ⟨c, hc, hd⟩ := List.mem_flatMap.mp hkept
    refine .inr ⟨c, hc, ?_⟩
    unfold keptPieces at hd
    split at hd
    next => rw [List.mem_singleton.mp hd]
    next =>
      rcases List.mem_append.mp hd with hd | hd
      · split at hd
        next =>
          rw [List.mem_singleton.mp hd]
          rfl
        next => contradiction
      · split at hd
        next =>
          rw [List.mem_singleton.mp hd]
          rfl
        next => contradiction
  · rw [List.mem_singleton.mp hnew]
    exact .inl rfl

theorem mergeAll_keys {es extents : List FileExtent} {d : FileExtent}
    (h : d ∈ mergeAll es extents) :
    (∃ e ∈ extents, e.objectKey = d.objectKey) ∨ ∃ c ∈ es, c.objectKey = d.objectKey := by
  induction extents generalizing es with
  | nil => exact .inr ⟨d, h, rfl⟩
  | cons e extents ih =>
    rcases ih h with ⟨x, hx, hk⟩ | ⟨c, hc, hk⟩
    · exact .inl ⟨x, List.mem_cons_of_mem _ hx, hk⟩
    · rcases mergeExtent_keys hc with he | ⟨b, hb, hbc⟩
      · exact .inl ⟨e, List.mem_cons_self, he.symm.trans hk⟩
      · exact .inr ⟨b, hb, hbc.trans hk⟩

omit [OffsetSort] in
theorem truncateExtents_keys {size : UInt64} {es : List FileExtent} {d : FileExtent}
    (h : d ∈ truncateExtents size es) : ∃ c ∈ es, c.objectKey = d.objectKey := by
  obtain ⟨c, hc, hd⟩ := List.mem_filterMap.mp h
  refine ⟨c, hc, ?_⟩
  unfold keptBelow at hd
  split at hd
  next => contradiction
  next =>
    split at hd
    next => rw [← Option.some.inj hd]; rfl
    next => rw [Option.some.inj hd]

/-- A write leaves the objects that were there and those it commits. -/
theorem Command.extentsAfter_keys {c : Command} {size : UInt64} {es : List FileExtent}
    {d : FileExtent} (h : d ∈ c.extentsAfter size es) :
    (∃ e ∈ c.extents, e.objectKey = d.objectKey) ∨ ∃ b ∈ es, b.objectKey = d.objectKey := by
  cases c with
  | truncate i n => exact .inr (truncateExtents_keys h)
  | commitWrite i v extents =>
    rcases mergeAll_keys h with ⟨e, he, hk⟩ | hold
    · exact .inl ⟨e, validPrefix_subset he, hk⟩
    · exact .inr hold
  | appendWrite i v extents =>
    rcases mergeAll_keys h with ⟨e, he, hk⟩ | hold
    · obtain ⟨x, hx, rfl⟩ := List.mem_map.mp he
      exact .inl ⟨x, validPrefix_subset hx, hk⟩
    · exact .inr hold
  | mkdir => exact .inr ⟨d, h, rfl⟩
  | createFile => exact .inr ⟨d, h, rfl⟩
  | unlink => exact .inr ⟨d, h, rfl⟩
  | rmdir => exact .inr ⟨d, h, rfl⟩
  | rename => exact .inr ⟨d, h, rfl⟩
  | setAttr => exact .inr ⟨d, h, rfl⟩

omit [OffsetSort] in
theorem FileView.Step.extents {v w : FileView} (h : FileView.Step v w) {es : List FileExtent}
    (hw : w.2 = some es) : v.2 = some es ∨ es = [] := by
  cases h with
  | kept => exact .inl hw
  | removed => contradiction
  | created type =>
    right
    dsimp only at hw
    split at hw
    next => exact (Option.some.inj hw).symm
    next => contradiction
  | laid => exact .inr (Option.some.inj hw).symm

omit [OffsetSort] in
theorem MetaState.references_iff {s : MetaState} {key : Bytes} : s.References key ↔
    ∃ f es, (s.fileView f).2 = some es ∧ ∃ e ∈ es, e.objectKey = key := by
  constructor
  · rintro ⟨f, layout, hl, he⟩
    exact ⟨f, layout.extents, by simp only [fileView, hl, Option.map_some], he⟩
  · rintro ⟨f, es, hv, he⟩
    obtain ⟨layout, hl, rfl⟩ := Option.map_eq_some_iff.mp hv
    exact ⟨f, layout, hl, he⟩

/-- A call makes the state refer to no object but those it commits. -/
theorem MetaState.references_of_call {s : MetaState} {c : Call} {key : Bytes}
    (hlaid : ∀ f, (s.fileView f).Laid) (h : (s.call c).2.References key) :
    s.References key ∨ ∃ e ∈ c.command.extents, e.objectKey = key := by
  obtain ⟨f, es, hv, d, hd, rfl⟩ := references_iff.mp h
  by_cases hc : c.command.written = some f
  · rcases execute_writtenView (s := s) c.clock hc with
      hsame | ⟨size, stored, hview, hnew⟩
    · have hold : (s.fileView f).2 = some es := by
        rw [← hsame]
        exact hv
      exact .inl (references_iff.mpr ⟨f, es, hold, d, hd, rfl⟩)
    · obtain rfl := Option.some.inj ((congrArg Prod.snd hnew).symm.trans hv)
      rcases Command.extentsAfter_keys hd with hcommitted | hstored
      · exact .inr hcommitted
      · exact .inl (references_iff.mpr ⟨f, stored, congrArg Prod.snd hview, hstored⟩)
  · rcases (execute_view s c.clock c.command (hlaid _) hc).extents hv with hold | rfl
    · exact .inl (references_iff.mpr ⟨f, es, hold, d, hd, rfl⟩)
    · contradiction

end

end Pulpfs
