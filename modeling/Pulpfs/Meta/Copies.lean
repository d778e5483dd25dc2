import Pulpfs.Meta.TreeInvariant

/-! The attributes of a regular file are stored twice, in `inodes_` and in the file's layout. Every
call leaves the two copies alike. -/
namespace Pulpfs
open Function Transition

namespace MetaState

/-- A regular file has a layout, nothing else has one, and the layout repeats the attributes and
the chunk size of the inode. -/
def Copied (s : MetaState) (f : UInt64) : Prop :=
  s.layouts[f]?.map (fun l => (l.attrs, l.chunkSize)) =
    (s.inodes[f]?.filter fun a => a.type = .file).map fun a => (a, a.chunkSize)

/-- Both copies agree everywhere, and neither `p` nor `q` is stored as anything but a
directory. -/
structure Tidy (s : MetaState) (p q : UInt64) : Prop where
  copied : ∀ f, s.Copied f
  old : ∀ a, s.inodes[p]? = some a → a.type = .directory
  new : ∀ a, s.inodes[q]? = some a → a.type = .directory

variable {α β : Type} {s : MetaState} {f p q i : UInt64}

theorem Tidy.andThen {r : Result α} {g : α → MetaState → Result β} (hr : r.2.Tidy p q)
    (hg : ∀ a s', s'.Tidy p q → (g a s').2.Tidy p q) : (r.andThen g).2.Tidy p q := by
  obtain ⟨o, s'⟩ := r
  cases o with
  | ok a => exact hg a s' hr
  | error e => exact hr
  | outOfRange => exact hr
  | diverged => exact hr

/-- A new version of an inode of the same type is a directory where the old one was. -/
theorem directory_storeInode {a b : InodeAttrs} (ha : s.inodes[i]? = some a)
    (ht : b.type = a.type) (h : ∀ c, s.inodes[p]? = some c → c.type = .directory) :
    ∀ c, (s.storeInode i b).inodes[p]? = some c → c.type = .directory := by
  intro c hc
  rw [storeInode, congrFun (TreeMap.get_insert s.inodes i b) p] at hc
  by_cases hp : p = i
  · rw [hp, update_self] at hc
    obtain rfl := Option.some.inj hc
    exact ht.trans (h a (hp ▸ ha))
  · rw [update_of_ne hp] at hc
    exact h c hc

/-- An inode and the copy of it are replaced together. -/
theorem Copied.storeBoth (h : s.Copied f) {a b : InodeAttrs} (ha : s.inodes[i]? = some a)
    (ht : b.type = a.type) (hc : b.chunkSize = a.chunkSize) :
    ((s.storeInode i b).setLayoutAttrs i b).Copied f := by
  unfold Copied setLayoutAttrs storeInode at *
  rw [congrFun (TreeMap.get_insert s.inodes i b) f, congrFun (TreeMap.get_modify s.layouts i _) f]
  by_cases hf : f = i
  · subst hf
    rw [update_self, update_self, Option.map_map]
    rw [ha] at h
    by_cases hfile : a.type = .file
    · have hfile' : b.type = .file := ht.trans hfile
      simp only [Option.filter_some, hfile, decide_true, if_true, Option.map_some,
        Option.map_eq_some_iff, Prod.mk.injEq] at h
      obtain ⟨l, hl, -, hsize⟩ := h
      simp [hl, hfile', hsize, hc]
    · have hfile' : b.type ≠ .file := fun hb => hfile (ht.symm.trans hb)
      simp only [Option.filter_some, hfile, decide_false, Bool.false_eq_true, if_false,
        Option.map_none, Option.map_eq_none_iff] at h
      simp [h, hfile']
  · rw [update_of_ne hf, update_of_ne hf]
    exact h

/-- A directory has no copy. -/
theorem Copied.storeDirectory (h : s.Copied f) {a b : InodeAttrs} (ha : s.inodes[i]? = some a)
    (hd : a.type = .directory) (ht : b.type = a.type) : (s.storeInode i b).Copied f := by
  unfold Copied storeInode at *
  rw [congrFun (TreeMap.get_insert s.inodes i b) f]
  by_cases hf : f = i
  · subst hf
    rw [ha] at h
    have hold : ¬ a.type = .file := fun hfile => InodeType.noConfusion (hd.symm.trans hfile)
    have hnew : ¬ b.type = .file := fun hfile => hold (ht.symm.trans hfile)
    rw [update_self, h, Option.filter_some_neg (by simpa using hold),
      Option.filter_some_neg (by simpa using hnew)]
  · rw [update_of_ne hf]
    exact h

theorem Tidy.storeBoth (h : s.Tidy p q) {a b : InodeAttrs} (ha : s.inodes[i]? = some a)
    (ht : b.type = a.type) (hc : b.chunkSize = a.chunkSize) :
    ((s.storeInode i b).setLayoutAttrs i b).Tidy p q :=
  ⟨fun f => (h.copied f).storeBoth ha ht hc, directory_storeInode ha ht h.old,
    directory_storeInode ha ht h.new⟩

theorem Copied.setLayoutExtents (h : s.Copied f) (es : List FileExtent) :
    (s.setLayoutExtents i es).Copied f := by
  unfold Copied MetaState.setLayoutExtents at *
  rw [congrFun (TreeMap.get_modify s.layouts i _) f]
  by_cases hf : f = i
  · subst hf
    rw [update_self, Option.map_map]
    exact h
  · rw [update_of_ne hf]
    exact h

theorem Tidy.inodeAt (h : s.Tidy p q) (i : UInt64) : (s.inodeAt i).2.Tidy p q := by
  unfold MetaState.inodeAt
  cases s.inodes[i]? with
  | none => exact h
  | some a => exact h

/-- The link count of one of the two directories is set. -/
theorem Tidy.setNlink (h : s.Tidy p q) (hi : i = p ∨ i = q) (g : UInt64 → UInt64) :
    (s.setInodeAt i fun parent => { parent with nlink := g parent.nlink }).2.Tidy p q := by
  unfold MetaState.setInodeAt
  cases ha : s.inodes[i]? with
  | none =>
    simp only [MetaState.inodeAt, ha, andThen_outOfRange]
    exact h
  | some a =>
    have hd : a.type = .directory := by
      rcases hi with rfl | rfl
      · exact h.old a ha
      · exact h.new a ha
    simp only [inodeAt_of_some ha, andThen_ok]
    refine ⟨fun f => (h.copied f).storeDirectory ha hd ?_, directory_storeInode ha ?_ h.old,
      directory_storeInode ha ?_ h.new⟩
    · rfl
    · rfl
    · rfl

theorem Tidy.touchInode (h : s.Tidy p q) (i : UInt64) (nowNs : Int64) :
    (s.touchInode i nowNs).2.Tidy p q := by
  unfold MetaState.touchInode
  cases ha : s.inodes[i]? with
  | none =>
    simp only [MetaState.inodeAt, ha, andThen_outOfRange]
    exact h
  | some a =>
    simp only [inodeAt_of_some ha, andThen_ok]
    exact h.storeBoth ha rfl rfl

theorem Tidy.erase (h : s.Tidy p q) (k : DentryKey) (i : UInt64) :
    (((s.eraseDentry k).eraseLayout i).eraseInode i).Tidy p q := by
  have hgone {j : UInt64} (hj : ∀ a, s.inodes[j]? = some a → a.type = .directory) :
      ∀ a, (s.inodes.erase i)[j]? = some a → a.type = .directory := by
    intro a ha
    rw [congrFun (TreeMap.get_erase s.inodes i) j] at ha
    by_cases hji : j = i
    · rw [hji, update_self] at ha
      contradiction
    · rw [update_of_ne hji] at ha
      exact hj a ha
  refine ⟨fun f => ?_, hgone h.old, hgone h.new⟩
  have hf := h.copied f
  unfold Copied eraseDentry eraseLayout eraseInode at *
  rw [congrFun (TreeMap.get_erase s.inodes i) f, congrFun (TreeMap.get_erase s.layouts i) f]
  by_cases hfi : f = i
  · rw [hfi, update_self, update_self]
    rfl
  · rw [update_of_ne hfi, update_of_ne hfi]
    exact hf

theorem Tidy.removeNode (h : s.Tidy p q) (hi : i = p ∨ i = q) (n : Bytes) (id : UInt64)
    (nowNs : Int64) : (s.removeNode i n id nowNs).2.Tidy p q := by
  apply (h.inodeAt id).andThen
  intro a s hs
  apply ((hs.erase (i, n) id).touchInode i nowNs).andThen
  intro _ s hs
  split
  · exact hs.setNlink hi (· - 1)
  · exact hs

theorem Tidy.touchParents (h : s.Tidy p q) (nowNs : Int64) (type : InodeType) :
    (s.touchParents nowNs p q type).2.Tidy p q := by
  apply (h.touchInode p nowNs).andThen
  intro _ s hs
  split
  · apply (hs.touchInode q nowNs).andThen
    intro _ s hs
    split
    · apply (hs.setNlink (.inl rfl) (· - 1)).andThen
      intro _ s hs
      exact hs.setNlink (.inr rfl) (· + 1)
    · exact hs
  · exact hs

theorem Tidy.moveEntry (h : s.Tidy p q) (nowNs : Int64) (n m : Bytes) (id : UInt64)
    (type : InodeType) : (s.moveEntry nowNs (p, n) (q, m) id type).2.Tidy p q := by
  have hentry : ((s.eraseDentry (p, n)).emplaceDentry (q, m) id).Tidy p q :=
    ⟨h.copied, h.old, h.new⟩
  apply (hentry.touchParents nowNs type).andThen
  intro _ s hs
  cases ha : s.inodes[id]? with
  | none =>
    simp only [MetaState.inodeAt, ha, andThen_outOfRange]
    exact hs
  | some a =>
    simp only [inodeAt_of_some ha, andThen_ok]
    exact hs.storeBoth ha rfl rfl

section Calls

variable (clock : Clock)

/-- Two parents that pass are directories. -/
theorem Tidy.of_parents (h : ∀ f, s.Copied f) {n m : Bytes} (hp : s.validateParent p n = .ok ())
    (hq : s.validateParent q m = .ok ()) : s.Tidy p q := by
  have hdir {j : UInt64} {name : Bytes} (hj : s.validateParent j name = .ok ()) :
      ∀ a, s.inodes[j]? = some a → a.type = .directory := by
    intro a ha
    obtain ⟨b, hb, ht⟩ := validateParent_inode hj
    obtain rfl := Option.some.inj (ha.symm.trans hb)
    exact ht
  exact ⟨h, hdir hp, hdir hq⟩

/-- A new node under a number that nothing is stored under. -/
theorem Copied.enterNode (h : s.Copied f) {id : UInt64} {type : InodeType} {inode : InodeAttrs}
    {layout : FileLayout} (hfree : s.inodes[id]? = none) (hlayout : s.layouts[id]? = none)
    (ht : inode.type = type) (hattrs : layout.attrs = inode)
    (hsize : type = .file → layout.chunkSize = inode.chunkSize) :
    (if type = .file then (s.emplaceInode id inode).emplaceLayout id layout
      else s.emplaceInode id inode).Copied f := by
  subst ht
  unfold Copied emplaceLayout emplaceInode at *
  split
  next ht =>
    dsimp only
    rw [congrFun (TreeMap.get_insertIfNew _ hlayout) f,
      congrFun (TreeMap.get_insertIfNew _ hfree) f]
    by_cases hf : f = id
    · rw [hf, update_self, update_self, Option.filter_some_pos (by simpa using ht),
        Option.map_some, Option.map_some, hattrs, hsize ht]
    · rw [update_of_ne hf, update_of_ne hf]
      exact h
  next ht =>
    dsimp only
    rw [congrFun (TreeMap.get_insertIfNew _ hfree) f]
    by_cases hf : f = id
    · rw [hf, update_self, Option.filter_some_neg (by simpa using ht), hlayout]
      rfl
    · rw [update_of_ne hf]
      exact h

theorem createNode_copied (h : ∀ f, s.Copied f) (hfree : s.inodes[s.nextInodeId]? = none)
    (p : UInt64) (n : Bytes) (type : InodeType) (mode uid gid : UInt32) (f : UInt64) :
    (s.createNode clock p n type mode uid gid).2.Copied f := by
  unfold createNode
  cases hp : s.validateParent p n with
  | error e => exact h f
  | ok _ =>
    simp only
    split
    next => exact h f
    next =>
      obtain ⟨a, ha, hd⟩ := validateParent_inode hp
      have hparent : s.countInodeId.inodes[p]? = some a := ha
      have hstill (b : InodeAttrs) (k : DentryKey) : ((s.countInodeId.storeInode p b).emplaceDentry
          k s.nextInodeId).inodes[s.nextInodeId]? = none := by
        show (s.inodes.insert p b)[s.nextInodeId]? = none
        rw [congrFun (TreeMap.get_insert s.inodes p b) _, update_of_ne]
        · exact hfree
        · rintro rfl
          rw [ha] at hfree
          contradiction
      have hlayout : s.layouts[s.nextInodeId]? = none := by
        have hnext := h s.nextInodeId
        rw [Copied, hfree] at hnext
        exact Option.map_eq_none_iff.mp hnext
      have hstored (b : InodeAttrs) (ht : b.type = a.type) :
          (s.countInodeId.storeInode p b).Copied f :=
        Copied.storeDirectory (h f : s.countInodeId.Copied f) hparent hd ht
      simp only [setInodeAt_of_some _ hparent, andThen_ok]
      refine Copied.enterNode ?_ (hstill _ _) hlayout rfl rfl ?_
      · exact hstored _ rfl
      · intro ht
        exact (if_pos ht).symm

theorem setAttr_copied (h : ∀ f, s.Copied f) (c : SetAttrCommand) (f : UInt64) :
    (s.setAttr clock c).2.Copied f := by
  unfold setAttr
  cases ha : s.inodes[c.inodeId]? with
  | none => exact h f
  | some a => exact (h f).storeBoth ha rfl rfl

theorem unlink_copied (h : ∀ f, s.Copied f) (p : UInt64) (n : Bytes) (f : UInt64) :
    (s.unlink clock p n).2.Copied f := by
  unfold unlink
  cases hp : s.validateParent p n with
  | error e => exact h f
  | ok _ =>
    cases s.dentries[(p, n)]? with
    | none => exact h f
    | some i =>
      refine Tidy.copied (p := p) (q := p) ?_ f
      apply ((Tidy.of_parents h hp hp).inodeAt i).andThen
      intro a s hs
      split
      · exact hs
      · exact (hs.removeNode (.inl rfl) n i _).andThen fun _ s hs => hs.inodeAt p

theorem rmdir_copied (h : ∀ f, s.Copied f) (p : UInt64) (n : Bytes) (f : UInt64) :
    (s.rmdir clock p n).2.Copied f := by
  unfold rmdir
  cases hp : s.validateParent p n with
  | error e => exact h f
  | ok _ =>
    cases s.dentries[(p, n)]? with
    | none => exact h f
    | some i =>
      refine Tidy.copied (p := p) (q := p) ?_ f
      apply ((Tidy.of_parents h hp hp).inodeAt i).andThen
      intro a s hs
      split
      · exact hs
      · split
        · exact hs
        · exact (hs.removeNode (.inl rfl) n i _).andThen fun _ s hs => hs.inodeAt p

theorem rename_copied (h : ∀ f, s.Copied f) (p : UInt64) (n : Bytes) (q : UInt64) (m : Bytes)
    (f : UInt64) : (s.rename clock p n q m).2.Copied f := by
  unfold rename
  cases hp : s.validateParent p n with
  | error e => exact h f
  | ok _ =>
  cases hq : s.validateParent q m with
  | error e => exact h f
  | ok _ =>
  cases s.dentries[(p, n)]? with
  | none => exact h f
  | some i =>
  refine Tidy.copied (p := p) (q := q) ?_ f
  apply ((Tidy.of_parents h hp hq).inodeAt i).andThen
  intro a s hs
  split
  · exact hs
  · exact hs
  · cases s.dentries[(q, m)]? with
    | none => exact hs.moveEntry _ n m i _
    | some target =>
      simp only
      split
      · exact hs
      · apply (hs.inodeAt target).andThen
        intro t s hs
        split
        · exact hs
        · split
          · exact hs
          · split
            · exact hs
            · apply (hs.removeNode (.inr rfl) m target _).andThen
              intro _ s hs
              exact hs.moveEntry _ n m i _

theorem Wrote.copied {α : Type} {r : Result α} (hr : s.Wrote i r) (h : s.Copied f) :
    r.2.Copied f := by
  cases hr with
  | refused e hr =>
    rw [hr]
    exact h
  | midway e es hr =>
    rw [hr]
    exact h.setLayoutExtents es
  | written x a size nowNs es ha hr =>
    rw [hr]
    exact (h.setLayoutExtents es).storeBoth ha rfl rfl

section Calls

variable [OffsetSort]

/-- The step lemma. -/
theorem call_copied (hw : s.names.WellFormed) (h : ∀ f, s.Copied f) (c : Call) (f : UInt64) :
    (s.call c).2.Copied f := by
  obtain ⟨clock, command⟩ := c
  have hfree := next_unused hw
  cases command with
  | mkdir p n mode uid gid => exact createNode_copied clock h hfree p n _ mode uid gid f
  | createFile p n mode uid gid => exact createNode_copied clock h hfree p n _ mode uid gid f
  | setAttr a => exact setAttr_copied clock h a f
  | commitWrite i v es => exact (s.commitWrite_wrote clock i v es).copied (h f)
  | appendWrite i v es => exact (s.appendWrite_wrote clock i v es).copied (h f)
  | truncate i size => exact (s.truncate_wrote clock i size).copied (h f)
  | unlink p n => exact unlink_copied clock h p n f
  | rmdir p n => exact rmdir_copied clock h p n f
  | rename p n q m => exact rename_copied clock h p n q m f

end Calls

end Calls

theorem copied_fresh (chunkSize : UInt64) (nowNs : Int64) (f : UInt64) :
    (fresh chunkSize nowNs).Copied f := by
  have hnone : (∅ : Std.ExtTreeMap UInt64 InodeAttrs)[kRootInodeId]? = none := by simp
  unfold Copied fresh
  rw [congrFun (TreeMap.get_insertIfNew _ hnone) f]
  by_cases hf : f = kRootInodeId
  · simp [hf]
  · simp [hf]

/-- The two copies of a file's attributes. -/
theorem Copied.iff (h : s.Copied f) :
    ((∃ layout, s.layouts[f]? = some layout) ↔
      ∃ inode, s.inodes[f]? = some inode ∧ inode.type = .file) ∧
      ∀ layout inode, s.layouts[f]? = some layout → s.inodes[f]? = some inode →
        layout.attrs = inode ∧ layout.chunkSize = inode.chunkSize := by
  unfold Copied at h
  constructor
  · have hdomain := congrArg Option.isSome h
    rw [Option.isSome_map, Option.isSome_map, Bool.eq_iff_iff, Option.isSome_iff_exists,
      Option.isSome_iff_exists] at hdomain
    rw [hdomain]
    simp only [Option.filter_eq_some_iff, decide_eq_true_eq]
  · intro layout inode hl hi
    rw [hl, hi, Option.map_some, Option.filter_some] at h
    split at h
    next =>
      obtain ⟨ha, hc⟩ := Prod.mk.inj (Option.some.inj h)
      exact ⟨ha, hc⟩
    next => contradiction

end MetaState

/-- In every state a run reaches without the numbers wrapping, exactly the regular files have a
layout, and its attributes and chunk size are those of the inode. -/
theorem copies_of_run [OffsetSort] (chunkSize : UInt64) (nowNs : Int64) (calls : List Call)
    (room : (MetaState.createdIds calls (.fresh chunkSize nowNs)).length < 2 ^ 64 - 2)
    (f : UInt64) :
    let s := final MetaState.call calls (.fresh chunkSize nowNs)
    ((∃ layout, s.layouts[f]? = some layout) ↔
      ∃ inode, s.inodes[f]? = some inode ∧ inode.type = .file) ∧
      ∀ layout inode, s.layouts[f]? = some layout → s.inodes[f]? = some inode →
        layout.attrs = inode ∧ layout.chunkSize = inode.chunkSize := by
  intro s
  obtain ⟨-, hcopied, -⟩ := MetaState.run_names_and (J := fun s => ∀ f, s.Copied f)
    (fun s c hw _ _ h => MetaState.call_copied hw h c) calls
    (MetaState.fresh_wellFormed chunkSize nowNs) (MetaState.copied_fresh chunkSize nowNs)
    (MetaState.fresh_room room)
  exact (hcopied f).iff

/-- A file is written, another one is renamed over it, a batch is refused and the owner is
changed. -/
def replacedCalls : List Call :=
  let e (offset length : UInt64) (key : String) : FileExtent :=
    { offset, length, objectKey := ascii key }
  [⟨fun _ => 1, .createFile 1 (ascii "f") 0o644 0 0⟩, ⟨fun _ => 2, .mkdir 1 (ascii "d") 0o755 0 0⟩,
    ⟨fun _ => 3, .createFile 3 (ascii "g") 0o600 7 7⟩, ⟨fun _ => 4, .commitWrite 4 1 [e 0 3 "a"]⟩,
    ⟨fun n => 5 + Int64.ofNat n, .rename 3 (ascii "g") 1 (ascii "f")⟩,
    ⟨fun _ => 7, .appendWrite 4 3 [e 0 1 "b", e 1 0 "c"]⟩,
    ⟨fun _ => 8, .setAttr { inodeId := 4, setUid := true, uid := 9 }⟩]

theorem copies_of_replacedCalls :
    let s := final (@MetaState.call .insertion) replacedCalls (.fresh 4096 0)
    ((∃ layout, s.layouts[(4 : UInt64)]? = some layout) ↔
      ∃ inode, s.inodes[(4 : UInt64)]? = some inode ∧ inode.type = .file) ∧
      ∀ layout inode, s.layouts[(4 : UInt64)]? = some layout →
        s.inodes[(4 : UInt64)]? = some inode →
        layout.attrs = inode ∧ layout.chunkSize = inode.chunkSize :=
  @copies_of_run .insertion 4096 0 replacedCalls (by decide) 4

end Pulpfs
