import Pulpfs.Meta.Writes
import Pulpfs.Foundations.TreeMap

/-! What a call does to one file it is not a write of: nothing, or it removes the file, or it
creates it. -/
namespace Pulpfs
open Function

/-- The type and size of an inode, and the extents of its layout. -/
abbrev FileView := Option (InodeType × UInt64) × Option (List FileExtent)

/-- A layout has an inode, and a regular file has a layout. -/
structure FileView.Laid (v : FileView) : Prop where
  stored : v.1 = none → v.2 = none
  laid : ∀ d, v.1 = some d → d.1 = .file → v.2 ≠ none

/-- The type of the inode, and whether there is a layout. -/
def FileView.shape (v : FileView) : Option InodeType × Bool := (v.1.map Prod.fst, v.2.isSome)

theorem FileView.Laid.of_shape {v w : FileView} (h : v.Laid) (hs : w.shape = v.shape) :
    w.Laid := by
  obtain ⟨ht, hl⟩ := Prod.mk.inj hs
  constructor
  · intro hw
    rw [hw, Option.map_none] at ht
    have hv := h.stored (Option.map_eq_none_iff.mp ht.symm)
    rw [hv, Option.isSome_none] at hl
    exact Option.isSome_eq_false_iff.mp hl |> Option.isNone_iff_eq_none.mp
  · intro d hd hf hw
    rw [hd, Option.map_some] at ht
    obtain ⟨d', hd', htd⟩ := Option.map_eq_some_iff.mp ht.symm
    have hv := h.laid d' hd' (htd.trans hf)
    rw [hw, Option.isSome_none] at hl
    exact hv (by simpa using hl.symm)

/-- How a call that does not write to a file can change what is stored of it. The last case is a
layout given to a number that was handed out before. -/
inductive FileView.Step : FileView → FileView → Prop
  | kept (v : FileView) : Step v v
  | removed (v : FileView) : Step v (none, none)
  | created (type : InodeType) :
      Step (none, none) (some (type, 0), if type = .file then some [] else none)
  | laid (d : InodeType × UInt64) : d.1 ≠ .file → Step (some d, none) (some d, some [])

theorem FileView.Step.laidOut {v w : FileView} (h : FileView.Step v w) (hv : v.Laid) :
    w.Laid := by
  cases h with
  | kept => exact hv
  | removed => exact ⟨fun _ => rfl, nofun⟩
  | created type =>
    refine ⟨nofun, ?_⟩
    intro d hd ht
    obtain rfl := Option.some.inj hd
    simp only at ht
    simp [ht]
  | laid d hd => exact ⟨nofun, fun _ _ _ => Option.some_ne_none _⟩

namespace MetaState

variable {α β : Type} (f : UInt64) {s s' : MetaState}

def fileView (s : MetaState) (f : UInt64) : FileView :=
  (s.inodes[f]?.map fun a => (a.type, a.size), s.layouts[f]?.map fun l => l.extents)

/-- The file is as it was, or it is gone. -/
def Keeps (f : UInt64) (s s' : MetaState) : Prop :=
  s'.fileView f = s.fileView f ∨ s'.fileView f = (none, none)

theorem Keeps.refl : Keeps f s s := .inl rfl

variable {f}

theorem Keeps.trans {s'' : MetaState} (h : Keeps f s s') (h' : Keeps f s' s'') :
    Keeps f s s'' := by
  rcases h' with h' | h'
  · rcases h with h | h
    · exact .inl (h'.trans h)
    · exact .inr (h'.trans h)
  · exact .inr h'

theorem Keeps.step (h : Keeps f s s') : FileView.Step (s.fileView f) (s'.fileView f) := by
  rcases h with h | h
  · rw [h]
    exact .kept _
  · rw [h]
    exact .removed _

theorem Keeps.andThen {r : Result α} {g : α → MetaState → Result β} (hr : Keeps f s r.2)
    (hg : ∀ a s', Keeps f s' (g a s').2) : Keeps f s (r.andThen g).2 := by
  obtain ⟨o, s'⟩ := r
  cases o with
  | ok a => exact hr.trans (hg a s')
  | error e => exact hr
  | outOfRange => exact hr
  | diverged => exact hr

theorem Keeps.inodeAt (s : MetaState) (i : UInt64) : Keeps f s (s.inodeAt i).2 := by
  unfold MetaState.inodeAt
  cases s.inodes[i]? with
  | none => exact .refl f
  | some a => exact .refl f

theorem fileView_storeInode {i : UInt64} {a b : InodeAttrs} (h : s.inodes[i]? = some a)
    (ht : b.type = a.type) (hs : b.size = a.size) :
    (s.storeInode i b).fileView f = s.fileView f := by
  unfold fileView storeInode
  congr 1
  rw [congrFun (TreeMap.get_insert s.inodes i b) f]
  by_cases hf : f = i
  · subst hf
    simp [h, ht, hs]
  · rw [update_of_ne hf]

theorem fileView_storeInode_of_ne {i : UInt64} (b : InodeAttrs) (h : f ≠ i) :
    (s.storeInode i b).fileView f = s.fileView f := by
  unfold fileView storeInode
  rw [congrFun (TreeMap.get_insert s.inodes i b) f, update_of_ne h]

theorem fileView_setLayoutAttrs (i : UInt64) (a : InodeAttrs) :
    (s.setLayoutAttrs i a).fileView f = s.fileView f := by
  unfold fileView setLayoutAttrs
  congr 1
  rw [congrFun (TreeMap.get_modify s.layouts i _) f]
  by_cases hf : f = i
  · subst hf
    rw [update_self, Option.map_map]
    rfl
  · rw [update_of_ne hf]

theorem fileView_setLayoutExtents_of_ne {i : UInt64} (es : List FileExtent) (h : f ≠ i) :
    (s.setLayoutExtents i es).fileView f = s.fileView f := by
  unfold fileView setLayoutExtents
  rw [congrFun (TreeMap.get_modify s.layouts i _) f, update_of_ne h]

theorem Keeps.setInodeAt (s : MetaState) (i : UInt64) {g : InodeAttrs → InodeAttrs}
    (hg : ∀ a, (g a).type = a.type ∧ (g a).size = a.size) : Keeps f s (s.setInodeAt i g).2 := by
  unfold MetaState.setInodeAt
  cases h : s.inodes[i]? with
  | none =>
    simp only [MetaState.inodeAt, h, andThen_outOfRange]
    exact .refl f
  | some a =>
    simp only [inodeAt_of_some h, andThen_ok]
    exact .inl (fileView_storeInode h (hg a).1 (hg a).2)

theorem Keeps.touchInode (s : MetaState) (i : UInt64) (nowNs : Int64) :
    Keeps f s (s.touchInode i nowNs).2 := by
  unfold MetaState.touchInode
  cases h : s.inodes[i]? with
  | none =>
    simp only [MetaState.inodeAt, h, andThen_outOfRange]
    exact .refl f
  | some a =>
    simp only [inodeAt_of_some h, andThen_ok]
    left
    rw [fileView_setLayoutAttrs]
    exact fileView_storeInode h rfl rfl

theorem Keeps.erase (s : MetaState) (k : DentryKey) (i : UInt64) :
    Keeps f s (((s.eraseDentry k).eraseLayout i).eraseInode i) := by
  by_cases hf : f = i
  · right
    subst hf
    simp [fileView, eraseDentry, eraseLayout, eraseInode]
  · left
    unfold fileView eraseDentry eraseLayout eraseInode
    rw [congrFun (TreeMap.get_erase s.inodes i) f, congrFun (TreeMap.get_erase s.layouts i) f,
      update_of_ne hf, update_of_ne hf]

theorem Keeps.removeNode (s : MetaState) (p : UInt64) (n : Bytes) (i : UInt64)
    (nowNs : Int64) : Keeps f s (s.removeNode p n i nowNs).2 := by
  apply (Keeps.inodeAt s i).andThen
  intro a s
  apply Keeps.trans (Keeps.erase s (p, n) i)
  apply (Keeps.touchInode _ p nowNs).andThen
  intro _ s
  split
  · exact Keeps.setInodeAt s p fun _ => ⟨rfl, rfl⟩
  · exact .refl f

theorem Keeps.touchParents (s : MetaState) (nowNs : Int64) (p q : UInt64)
    (type : InodeType) : Keeps f s (s.touchParents nowNs p q type).2 := by
  apply (Keeps.touchInode s p nowNs).andThen
  intro _ s
  split
  · apply (Keeps.touchInode s q nowNs).andThen
    intro _ s
    split
    · refine Keeps.andThen (Keeps.setInodeAt s p ?_) ?_
      · exact fun _ => ⟨rfl, rfl⟩
      · exact fun _ s => Keeps.setInodeAt s q fun _ => ⟨rfl, rfl⟩
    · exact .refl f
  · exact .refl f

/-- Storing an inode read before, with its type and size. -/
theorem Keeps.storeBack {s : MetaState} {i : UInt64} {a : InodeAttrs} (b : InodeAttrs)
    (h : s.inodes[i]? = some a) (ht : b.type = a.type) (hs : b.size = a.size) :
    Keeps f s ((s.storeInode i b).setLayoutAttrs i b) := by
  left
  rw [fileView_setLayoutAttrs]
  exact fileView_storeInode h ht hs

theorem Keeps.moveEntry (s : MetaState) (nowNs : Int64) (oldKey newKey : DentryKey)
    (i : UInt64) (type : InodeType) :
    Keeps f s (s.moveEntry nowNs oldKey newKey i type).2 := by
  have hentry : Keeps f s ((s.eraseDentry oldKey).emplaceDentry newKey i) := .inl rfl
  apply hentry.trans
  apply (Keeps.touchParents _ nowNs oldKey.1 newKey.1 type).andThen
  intro _ s
  cases h : s.inodes[i]? with
  | none =>
    simp only [MetaState.inodeAt, h, andThen_outOfRange]
    exact .refl f
  | some a =>
    simp only [inodeAt_of_some h, andThen_ok]
    exact Keeps.storeBack _ h rfl rfl

variable (s) (clock : Clock)

theorem setAttr_view (c : SetAttrCommand) : (s.setAttr clock c).2.fileView f = s.fileView f := by
  unfold setAttr
  cases h : s.inodes[c.inodeId]? with
  | none => rfl
  | some a =>
    simp only [fileView_setLayoutAttrs]
    exact fileView_storeInode h rfl rfl

theorem setAttr_keeps (c : SetAttrCommand) : Keeps f s (s.setAttr clock c).2 :=
  .inl (setAttr_view s clock c)

/-- The common end of `Unlink` and `Rmdir`. -/
theorem Keeps.removeAndRead (p : UInt64) (n : Bytes) (i : UInt64) (nowNs : Int64) :
    Keeps f s ((s.removeNode p n i nowNs).andThen fun _ s => s.inodeAt p).2 :=
  (Keeps.removeNode s p n i nowNs).andThen fun _ s => Keeps.inodeAt s p

theorem unlink_keeps (p : UInt64) (n : Bytes) : Keeps f s (s.unlink clock p n).2 := by
  unfold unlink
  cases s.validateParent p n with
  | error e => exact .refl f
  | ok _ =>
    cases s.dentries[(p, n)]? with
    | none => exact .refl f
    | some i =>
      apply (Keeps.inodeAt s i).andThen
      intro a s
      split
      · exact .refl f
      · exact Keeps.removeAndRead s p n i _

theorem rmdir_keeps (p : UInt64) (n : Bytes) : Keeps f s (s.rmdir clock p n).2 := by
  unfold rmdir
  cases s.validateParent p n with
  | error e => exact .refl f
  | ok _ =>
    cases s.dentries[(p, n)]? with
    | none => exact .refl f
    | some i =>
      apply (Keeps.inodeAt s i).andThen
      intro a s
      split
      · exact .refl f
      · split
        · exact .refl f
        · exact Keeps.removeAndRead s p n i _

theorem rename_keeps (p : UInt64) (n : Bytes) (q : UInt64) (m : Bytes) :
    Keeps f s (s.rename clock p n q m).2 := by
  unfold rename
  cases s.validateParent p n with
  | error e => exact .refl f
  | ok _ =>
  cases s.validateParent q m with
  | error e => exact .refl f
  | ok _ =>
  cases s.dentries[(p, n)]? with
  | none => exact .refl f
  | some i =>
  apply (Keeps.inodeAt s i).andThen
  intro a s
  split
  · exact .refl f
  · exact .refl f
  · cases s.dentries[(q, m)]? with
    | none => exact Keeps.moveEntry s _ _ _ i _
    | some target =>
      simp only
      split
      · exact .refl f
      · apply (Keeps.inodeAt s target).andThen
        intro t s
        split
        · exact .refl f
        · split
          · exact .refl f
          · split
            · exact .refl f
            · apply (Keeps.removeNode s q m target _).andThen
              intro _ s
              exact Keeps.moveEntry s _ _ _ i _

omit f s s'

theorem emplaceInode_of_some {s : MetaState} {i : UInt64} {a : InodeAttrs} (b : InodeAttrs)
    (h : s.inodes[i]? = some a) : s.emplaceInode i b = s := by
  unfold emplaceInode
  rw [TreeMap.insertIfNew_of_some b h]

theorem emplaceLayout_of_some {s : MetaState} {i : UInt64} {l : FileLayout} (m : FileLayout)
    (h : s.layouts[i]? = some l) : s.emplaceLayout i m = s := by
  unfold emplaceLayout
  rw [TreeMap.insertIfNew_of_some m h]

theorem fileView_emplaceInode {s : MetaState} {f i : UInt64} (b : InodeAttrs)
    (h : s.inodes[i]? = none) : (s.emplaceInode i b).fileView f =
      if f = i then (some (b.type, b.size), (s.fileView f).2) else s.fileView f := by
  unfold fileView emplaceInode
  rw [congrFun (TreeMap.get_insertIfNew b h) f]
  by_cases hf : f = i
  · rw [hf, update_self, if_pos rfl, Option.map_some]
  · rw [update_of_ne hf, if_neg hf]

theorem fileView_emplaceLayout {s : MetaState} {f i : UInt64} (m : FileLayout)
    (h : s.layouts[i]? = none) : (s.emplaceLayout i m).fileView f =
      if f = i then ((s.fileView f).1, some m.extents) else s.fileView f := by
  unfold fileView emplaceLayout
  rw [congrFun (TreeMap.get_insertIfNew m h) f]
  by_cases hf : f = i
  · rw [hf, update_self, if_pos rfl, Option.map_some]
  · rw [update_of_ne hf, if_neg hf]

/-- Entering a node under the next number, which may have been handed out before. -/
theorem enterNode_step {s : MetaState} {f id : UInt64} {type : InodeType}
    (hv : (s.fileView id).Laid) {inode : InodeAttrs} (ht : inode.type = type)
    (hs : inode.size = 0) {layout : FileLayout} (hm : layout.extents = []) :
    FileView.Step (s.fileView f)
      ((if type = .file then (s.emplaceInode id inode).emplaceLayout id layout
        else s.emplaceInode id inode).fileView f) := by
  subst ht
  cases hi : s.inodes[id]? with
  | some a =>
    rw [emplaceInode_of_some inode hi]
    split
    next =>
      cases hl : s.layouts[id]? with
      | some l =>
        rw [emplaceLayout_of_some _ hl]
        exact .kept _
      | none =>
        rw [fileView_emplaceLayout _ hl]
        by_cases hf : f = id
        · subst hf
          have hnot : a.type ≠ .file := by
            intro ht
            exact hv.laid (a.type, a.size) (by simp [fileView, hi]) ht (by simp [fileView, hl])
          simp only [if_true, fileView, hi, hl, hm, Option.map_some, Option.map_none]
          exact .laid (a.type, a.size) hnot
        · rw [if_neg hf]
          exact .kept _
    next => exact .kept _
  | none =>
    have hl : s.layouts[id]? = none := by
      have hnone := hv.stored (by simp [fileView, hi])
      simpa [fileView] using hnone
    have hview : s.fileView id = (none, none) := by simp [fileView, hi, hl]
    have hl' : (s.emplaceInode id inode).layouts[id]? = none := hl
    by_cases hf : f = id
    · subst hf
      have hcreated := FileView.Step.created inode.type
      split
      next ht =>
        rw [fileView_emplaceLayout _ hl', fileView_emplaceInode _ hi, hview]
        simpa [hs, hm, ht] using hcreated
      next ht =>
        rw [fileView_emplaceInode _ hi, hview]
        simpa [hs, hm, ht] using hcreated
    · split
      next =>
        rw [fileView_emplaceLayout _ hl', fileView_emplaceInode _ hi, if_neg hf, if_neg hf]
        exact .kept _
      next =>
        rw [fileView_emplaceInode _ hi, if_neg hf]
        exact .kept _

/-- The same below a parent whose times and link count were set. -/
theorem enterBelow_step {s : MetaState} {f p id : UInt64} {k : DentryKey} {a b : InodeAttrs}
    {type : InodeType} (ha : s.inodes[p]? = some a) (hp : b.type = a.type) (hb : b.size = a.size)
    (hv : (s.fileView id).Laid) {inode : InodeAttrs} (ht : inode.type = type)
    (hs : inode.size = 0) {layout : FileLayout} (hm : layout.extents = []) :
    FileView.Step (s.fileView f)
      ((if type = .file then
        (((s.storeInode p b).emplaceDentry k id).emplaceInode id inode).emplaceLayout id layout
        else ((s.storeInode p b).emplaceDentry k id).emplaceInode id inode).fileView f) := by
  have hview (g : UInt64) : ((s.storeInode p b).emplaceDentry k id).fileView g = s.fileView g :=
    fileView_storeInode ha hp hb
  rw [← hview f]
  exact enterNode_step (hview id ▸ hv) ht hs hm

theorem createNode_view (s : MetaState) (clock : Clock) (p : UInt64) (n : Bytes)
    (type : InodeType) (mode uid gid : UInt32) {f : UInt64}
    (hv : (s.fileView s.nextInodeId).Laid) :
    FileView.Step (s.fileView f) ((s.createNode clock p n type mode uid gid).2.fileView f) := by
  unfold createNode
  cases hp : s.validateParent p n with
  | error e => exact .kept _
  | ok _ =>
    simp only
    split
    next => exact .kept _
    next =>
      obtain ⟨a, ha, _⟩ := validateParent_inode hp
      have hparent : s.countInodeId.inodes[p]? = some a := ha
      simp only [setInodeAt_of_some _ hparent, andThen_ok]
      refine enterBelow_step hparent ?_ ?_ hv ?_ ?_ ?_
      · rfl
      · rfl
      · rfl
      · rfl
      · rfl

theorem shape_storeInode {s : MetaState} {i : UInt64} {a b : InodeAttrs} (f : UInt64)
    (h : s.inodes[i]? = some a) (ht : b.type = a.type) :
    ((s.storeInode i b).fileView f).shape = (s.fileView f).shape := by
  unfold fileView storeInode
  rw [congrFun (TreeMap.get_insert s.inodes i b) f]
  by_cases hf : f = i
  · subst hf
    simp [FileView.shape, h, ht]
  · rw [update_of_ne hf]

theorem shape_setLayoutExtents {s : MetaState} (f i : UInt64) (es : List FileExtent) :
    ((s.setLayoutExtents i es).fileView f).shape = (s.fileView f).shape := by
  unfold fileView setLayoutExtents
  rw [congrFun (TreeMap.get_modify s.layouts i _) f]
  by_cases hf : f = i
  · subst hf
    simp [FileView.shape]
  · rw [update_of_ne hf]

section Writes

variable {α : Type} {s : MetaState} {f i : UInt64} {r : Result α}

theorem Wrote.shape (h : s.Wrote i r) (f : UInt64) :
    (r.2.fileView f).shape = (s.fileView f).shape := by
  cases h with
  | refused e hr => rw [hr]
  | midway e es hr =>
    rw [hr]
    exact shape_setLayoutExtents f i es
  | written x a size nowNs es ha hr =>
    have hstill : (s.setLayoutExtents i es).inodes[i]? = some a := ha
    have htype : (a.rewritten size nowNs).type = a.type := rfl
    rw [hr, fileView_setLayoutAttrs, shape_storeInode f hstill htype, shape_setLayoutExtents]

theorem Wrote.view (h : s.Wrote i r) (hf : f ≠ i) : r.2.fileView f = s.fileView f := by
  cases h with
  | refused e hr => rw [hr]
  | midway e es hr =>
    rw [hr]
    exact fileView_setLayoutExtents_of_ne es hf
  | written x a size nowNs es ha hr =>
    rw [hr, fileView_setLayoutAttrs, fileView_storeInode_of_ne _ hf]
    exact fileView_setLayoutExtents_of_ne es hf

end Writes

end MetaState

/-- The file whose content a command sets. -/
def Command.written : Command → Option UInt64
  | .commitWrite i _ _ => some i
  | .appendWrite i _ _ => some i
  | .truncate i _ => some i
  | _ => none

theorem Command.of_written {c : Command} {f : UInt64} (h : c.written = some f) :
    (∃ v es, c = .commitWrite f v es) ∨ (∃ v es, c = .appendWrite f v es) ∨
      ∃ size, c = .truncate f size := by
  unfold Command.written at h
  split at h
  next i v es =>
    obtain rfl := Option.some.inj h
    exact .inl ⟨v, es, rfl⟩
  next i v es =>
    obtain rfl := Option.some.inj h
    exact .inr (.inl ⟨v, es, rfl⟩)
  next i size =>
    obtain rfl := Option.some.inj h
    exact .inr (.inr ⟨size, rfl⟩)
  next => contradiction

theorem MetaState.execute_wrote [OffsetSort] (s : MetaState) (clock : Clock) {c : Command}
    {f : UInt64} (hc : c.written = some f) : s.Wrote f (s.execute clock c) := by
  rcases Command.of_written hc with ⟨v, es, rfl⟩ | ⟨v, es, rfl⟩ | ⟨size, rfl⟩
  · exact (s.commitWrite_wrote clock f v es).map _
  · exact (s.appendWrite_wrote clock f v es).map _
  · exact (s.truncate_wrote clock f size).map _

/-- A command that writes to no file, or to another one, makes a frame step. -/
theorem MetaState.execute_view [OffsetSort] (s : MetaState) (clock : Clock) (c : Command)
    {f : UInt64} (hv : (s.fileView s.nextInodeId).Laid) (hc : c.written ≠ some f) :
    FileView.Step (s.fileView f) ((s.execute clock c).2.fileView f) := by
  have hne {i : UInt64} (h : some i ≠ some f) : f ≠ i := fun he => h (congrArg some he.symm)
  have hkept {w : FileView} (h : w = s.fileView f) : FileView.Step (s.fileView f) w := by
    rw [h]
    exact .kept _
  cases c with
  | mkdir p n mode uid gid => exact createNode_view s clock p n _ mode uid gid hv
  | createFile p n mode uid gid => exact createNode_view s clock p n _ mode uid gid hv
  | setAttr a => exact (setAttr_keeps s clock a).step
  | commitWrite i v es => exact hkept ((s.commitWrite_wrote clock i v es).view (hne hc))
  | appendWrite i v es => exact hkept ((s.appendWrite_wrote clock i v es).view (hne hc))
  | truncate i size => exact hkept ((s.truncate_wrote clock i size).view (hne hc))
  | unlink p n => exact (unlink_keeps s clock p n).step
  | rmdir p n => exact (rmdir_keeps s clock p n).step
  | rename p n q m => exact (rename_keeps s clock p n q m).step

/-- Every call leaves every file laid out. -/
theorem MetaState.execute_laid [OffsetSort] (s : MetaState) (clock : Clock) (c : Command)
    (hv : ∀ f, (s.fileView f).Laid) (f : UInt64) : ((s.execute clock c).2.fileView f).Laid := by
  by_cases hc : c.written = some f
  · exact (hv f).of_shape ((s.execute_wrote clock hc).shape f)
  · exact (execute_view s clock c (hv _) hc).laidOut (hv f)

end Pulpfs
