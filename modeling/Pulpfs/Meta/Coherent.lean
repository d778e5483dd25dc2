import Pulpfs.Meta.TreeInvariant
import Pulpfs.Meta.Frame

/-! The structure all calls rely on: the entries form a tree and exactly the regular files have a
layout. From any state with it every call returns, and every later state has it. -/
namespace Pulpfs
open RootedTree Relation Transition

/-- There is a layout exactly for a regular file. -/
def FileView.Exact (v : FileView) : Prop := v.shape.2 = true ↔ v.shape.1 = some .file

theorem FileView.Exact.of_shape {v w : FileView} (h : v.Exact) (hs : w.shape = v.shape) :
    w.Exact := by
  unfold FileView.Exact
  rw [hs]
  exact h

theorem FileView.exact_none : FileView.Exact (none, none) := ⟨nofun, nofun⟩

theorem FileView.Exact.laid {v : FileView} (h : v.Exact) : v.Laid := by
  obtain ⟨v₁, v₂⟩ := v
  cases v₁ with
  | none =>
    cases v₂ with
    | none => exact ⟨fun _ => rfl, nofun⟩
    | some es => exact absurd (h.mp rfl) nofun
  | some d =>
    refine ⟨nofun, ?_⟩
    intro d' hd ht hnone
    obtain rfl := Option.some.inj hd
    subst hnone
    exact absurd (h.mpr (congrArg some ht)) nofun

/-- What is stored under a number not yet handed out. -/
theorem FileView.Exact.created {w : FileView} (hs : FileView.Step (none, none) w) : w.Exact := by
  cases hs with
  | kept => exact exact_none
  | removed => exact exact_none
  | created type =>
    unfold FileView.Exact FileView.shape
    by_cases ht : type = .file
    · simp [ht]
    · simp [ht]

namespace MetaState

/-- The entries form a tree, and exactly the regular files have a layout. -/
structure Coherent (s : MetaState) : Prop where
  names : s.names.WellFormed
  exact : ∀ f, (s.fileView f).Exact

variable {s : MetaState} {f : UInt64}

theorem exact_iff (s : MetaState) (i : UInt64) : (s.fileView i).Exact ↔
    ((∃ l, s.layouts[i]? = some l) ↔ ∃ a, s.inodes[i]? = some a ∧ a.type = .file) := by
  unfold FileView.Exact FileView.shape fileView
  rw [Option.isSome_map, Option.isSome_iff_exists, Option.map_map, Option.map_eq_some_iff]
  rfl

/-- Nothing but the entry of the next number is created. -/
theorem createNode_keeps (clock : Clock) (p : UInt64) (n : Bytes) (type : InodeType)
    (mode uid gid : UInt32) (hf : f ≠ s.nextInodeId)
    (hnew : s.fileView s.nextInodeId = (none, none)) :
    Keeps f s (s.createNode clock p n type mode uid gid).2 := by
  obtain ⟨hi, hl⟩ := Prod.mk.inj hnew
  have hinode : s.inodes[s.nextInodeId]? = none := Option.map_eq_none_iff.mp hi
  have hlayout : s.layouts[s.nextInodeId]? = none := Option.map_eq_none_iff.mp hl
  unfold createNode
  cases hp : s.validateParent p n with
  | error e => exact .refl f
  | ok _ =>
    simp only
    split
    next => exact .refl f
    next =>
      obtain ⟨a, ha, _⟩ := validateParent_inode hp
      have hparent : s.countInodeId.inodes[p]? = some a := ha
      simp only [setInodeAt_of_some _ hparent, andThen_ok]
      have hne : s.nextInodeId ≠ p := by
        intro he
        rw [he, ha] at hinode
        contradiction
      -- the parent is stored back, and the new node stands under another number
      have hstored (b : InodeAttrs) (ht : b.type = a.type) (hs : b.size = a.size) :
          (s.countInodeId.storeInode p b).fileView f = s.fileView f :=
        fileView_storeInode hparent ht hs
      have hfree (b : InodeAttrs) (k : DentryKey) :
          ((s.countInodeId.storeInode p b).emplaceDentry k s.nextInodeId).inodes[s.nextInodeId]? =
            none := by
        show (s.inodes.insert p b)[s.nextInodeId]? = none
        rw [congrFun (TreeMap.get_insert s.inodes p b) _, Function.update_of_ne hne]
        exact hinode
      left
      split
      next =>
        rw [fileView_emplaceLayout _ (by exact hlayout), if_neg hf,
          fileView_emplaceInode _ (hfree _ _), if_neg hf]
        exact hstored _ rfl rfl
      next =>
        rw [fileView_emplaceInode _ (hfree _ _), if_neg hf]
        exact hstored _ rfl rfl

theorem Coherent.next_free (h : s.Coherent) : s.fileView s.nextInodeId = (none, none) := by
  have hinode := next_unused h.names
  have hnone : (s.fileView s.nextInodeId).1 = none := by
    simp only [fileView, hinode, Option.map_none]
  exact Prod.ext hnone ((h.exact _).laid.stored hnone)

theorem FileView.Exact.keeps {s' : MetaState} (h : (s.fileView f).Exact) (hk : Keeps f s s') :
    (s'.fileView f).Exact := by
  rcases hk with hk | hk
  · rw [hk]
    exact h
  · rw [hk]
    exact FileView.exact_none

/-- A call that writes to no file, or to another one, creates at most the next number. -/
theorem Coherent.execute_keeps [OffsetSort] (h : s.Coherent) (clock : Clock) {c : Command}
    (hf : f ≠ s.nextInodeId) (hc : c.written ≠ some f) : Keeps f s (s.execute clock c).2 := by
  have hne {i : UInt64} (h : some i ≠ some f) : f ≠ i := fun he => h (congrArg some he.symm)
  cases c with
  | mkdir p n mode uid gid => exact createNode_keeps clock p n _ mode uid gid hf h.next_free
  | createFile p n mode uid gid => exact createNode_keeps clock p n _ mode uid gid hf h.next_free
  | setAttr a => exact setAttr_keeps s clock a
  | commitWrite i v es => exact .inl ((s.commitWrite_wrote clock i v es).view (hne hc))
  | appendWrite i v es => exact .inl ((s.appendWrite_wrote clock i v es).view (hne hc))
  | truncate i size => exact .inl ((s.truncate_wrote clock i size).view (hne hc))
  | unlink p n => exact unlink_keeps s clock p n
  | rmdir p n => exact rmdir_keeps s clock p n
  | rename p n q m => exact rename_keeps s clock p n q m

section Calls

variable [OffsetSort]

theorem Coherent.execute_exact (h : s.Coherent) (clock : Clock) (c : Command) (f : UInt64) :
    ((s.execute clock c).2.fileView f).Exact := by
  by_cases hc : c.written = some f
  · exact (h.exact f).of_shape ((s.execute_wrote clock hc).shape f)
  · by_cases hf : f = s.nextInodeId
    · have hstep := execute_view s clock c (h.exact _).laid hc
      rw [hf, h.next_free] at hstep
      rw [hf]
      exact .created hstep
    · exact FileView.Exact.keeps (h.exact f) (h.execute_keeps clock hf hc)

/-- The run lemma. The numbers handed out are the next ones in order. -/
theorem Coherent.run (h : s.Coherent) (calls : List Call)
    (room : s.nextInodeId.toNat + (createdIds calls s).length < 2 ^ 64) :
    (final call calls s).Coherent ∧
      (createdIds calls s).map UInt64.toNat =
        List.range' s.nextInodeId.toNat (createdIds calls s).length ∧
      ∀ e ∈ trace call calls s, e.output.Returns := by
  obtain ⟨hw, hx, hids, ho⟩ := run_names_and (J := fun s => ∀ f, (s.fileView f).Exact)
    (fun s c hs _ _ hx => Coherent.execute_exact ⟨hs, hx⟩ c.clock c.command)
    calls h.names h.exact room
  exact ⟨⟨hw, hx⟩, hids, ho⟩

end Calls

theorem coherent_fresh (chunkSize : UInt64) (nowNs : Int64) : (fresh chunkSize nowNs).Coherent := by
  refine ⟨fresh_wellFormed chunkSize nowNs, ?_⟩
  intro f
  unfold FileView.Exact FileView.shape fileView fresh
  have hnone : (∅ : Std.ExtTreeMap UInt64 InodeAttrs)[kRootInodeId]? = none := by simp
  rw [congrFun (TreeMap.get_insertIfNew _ hnone) f]
  by_cases hf : f = kRootInodeId
  · simp [hf]
  · simp [hf]

theorem coherent_run [OffsetSort] (chunkSize : UInt64) (nowNs : Int64) (calls : List Call)
    (room : (createdIds calls (.fresh chunkSize nowNs)).length < 2 ^ 64 - 2) :
    (final call calls (.fresh chunkSize nowNs)).Coherent :=
  ((coherent_fresh chunkSize nowNs).run calls (fresh_room room)).1

end MetaState

end Pulpfs
