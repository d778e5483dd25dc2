import Pulpfs.Meta.Coherent
import Pulpfs.Meta.Represented
import Pulpfs.Foundations.SortedKeys

/-! `ListLiveObjects` names exactly the objects some byte of an attached file is mapped to. -/
namespace Pulpfs
open RootedTree Relation Transition

namespace MetaState

variable {s : MetaState}

/-- Some position of a regular file that a chain of entries connects to the root is mapped to a
byte of the object. -/
def Maps (s : MetaState) (key : Bytes) : Prop :=
  ∃ (f : UInt64) (a : InodeAttrs) (layout : FileLayout),
    s.inodes[f]? = some a ∧ a.type = .file ∧
    ReflTransGen (fun c p : UInt64 => ∃ n : Bytes, s.dentries[(p, n)]? = some c) f kRootInodeId ∧
    s.layouts[f]? = some layout ∧
    ∃ x b, contentOf layout.extents x = some b ∧ b.key = key

/-- The list before it is sorted holds the keys of the stored extents. -/
theorem mem_listLiveObjects {key : Bytes} : key ∈ s.listLiveObjects ↔
    ∃ (f : UInt64) (layout : FileLayout), s.layouts[f]? = some layout ∧
      ∃ e ∈ layout.extents, e.objectKey = key ∧ key ≠ [] := by
  unfold listLiveObjects
  simp only [SortedKeys.mem_destutter_ne, List.mem_mergeSort, List.mem_flatMap, List.mem_filter,
    List.mem_map, Bool.not_eq_true', List.isEmpty_eq_false_iff]
  constructor
  · rintro ⟨⟨f, layout⟩, hl, ⟨e, he, hk⟩, hne⟩
    exact ⟨f, layout, Std.ExtTreeMap.mem_toList_iff_getElem?_eq_some.mp hl, e, he, hk, hne⟩
  · rintro ⟨f, layout, hl, e, he, hk, hne⟩
    exact ⟨(f, layout), Std.ExtTreeMap.mem_toList_iff_getElem?_eq_some.mpr hl, ⟨e, he, hk⟩, hne⟩

theorem listLiveObjects_sorted (s : MetaState) :
    s.listLiveObjects.Pairwise fun a b => compare a b = .lt :=
  SortedKeys.pairwise_sortedKeys compare _

end MetaState

/-- No stored extent is shadowed: the objects that bytes are mapped to are those of the
extents. -/
theorem Represented.maps_iff {es : List FileExtent} (h : Represented es) {key : Bytes} :
    (∃ x b, contentOf es x = some b ∧ b.key = key) ↔
      ∃ e ∈ es, e.objectKey = key ∧ key ≠ [] := by
  constructor
  · rintro ⟨x, b, hb, rfl⟩
    obtain ⟨e, he, _, rfl⟩ := h.disjoint.contentOf_eq_some.mp hb
    have hv := h.valid e he
    simp only [FileExtent.isInvalid, Bool.or_eq_false_iff, List.isEmpty_eq_false_iff] at hv
    exact ⟨e, he, rfl, hv.2⟩
  · rintro ⟨e, he, rfl, _⟩
    have hx := FileExtent.covers_offset (FileExtent.length_ne_zero (h.valid e he))
    exact ⟨e.offset.toNat, e.patch.value e.offset.toNat,
      h.disjoint.contentOf_eq_some.mpr ⟨e, he, hx, rfl⟩, rfl⟩

namespace MetaState

variable {s : MetaState}

/-- Layouts belong to attached files, and each of their extents is mapped. -/
theorem Coherent.mem_listLiveObjects_iff (h : s.Coherent)
    (hrep : ∀ f, (s.fileView f).Represented) {key : Bytes} :
    key ∈ s.listLiveObjects ↔ s.Maps key := by
  have hlayout {f : UInt64} {layout : FileLayout} (hl : s.layouts[f]? = some layout) :
      Represented layout.extents :=
    hrep f layout.extents (by simp only [fileView, hl, Option.map_some])
  rw [mem_listLiveObjects]
  constructor
  · rintro ⟨f, layout, hl, hmapped⟩
    obtain ⟨a, ha, ht⟩ := ((s.exact_iff f).mp (h.exact f)).mp ⟨layout, hl⟩
    exact ⟨f, a, layout, ha, ht, (treeInvariant_of_wellFormed h.names).reaches f a ha, hl,
      (hlayout hl).maps_iff.mpr hmapped⟩
  · rintro ⟨f, a, layout, _, _, _, hl, hmapped⟩
    exact ⟨f, layout, hl, (hlayout hl).maps_iff.mp hmapped⟩

end MetaState

/-- After every run without overflow the live objects are the mapped ones, each listed once and
in strict order. -/
theorem liveObjects_of_run [OffsetSort] (chunkSize : UInt64) (nowNs : Int64) (calls : List Call)
    (room : (MetaState.createdIds calls (.fresh chunkSize nowNs)).length < 2 ^ 64 - 2)
    (hno : ∀ e ∈ trace MetaState.call calls (.fresh chunkSize nowNs), NoOverflowAt e) :
    let s := final MetaState.call calls (.fresh chunkSize nowNs)
    (∀ key, key ∈ s.listLiveObjects ↔ s.Maps key) ∧
      s.listLiveObjects.Pairwise fun a b => compare a b = .lt := by
  intro s
  have hrep : ∀ f, (s.fileView f).Represented := fun f =>
    ((MetaState.run_represented (MetaState.laid_fresh chunkSize nowNs)
      (MetaState.represented_fresh chunkSize nowNs) fun e he => (hno e he).fits) f).2
  have hs := MetaState.coherent_run chunkSize nowNs calls room
  exact ⟨fun key => hs.mem_listLiveObjects_iff hrep, s.listLiveObjects_sorted⟩

theorem liveObjects_of_refusedCalls :
    let s := final (@MetaState.call .insertion) refusedCalls (.fresh 4096 0)
    (∀ key, key ∈ s.listLiveObjects ↔ s.Maps key) ∧
      s.listLiveObjects.Pairwise fun a b => compare a b = .lt :=
  @liveObjects_of_run .insertion 4096 0 refusedCalls (by decide) (by decide)

end Pulpfs
