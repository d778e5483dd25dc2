import Pulpfs.Meta.Tree
import Pulpfs.Foundations.Transition

/-! Every entry has a name that `ValidateName` lets pass: calls enter only names they checked. -/
namespace Pulpfs
open Transition

namespace MetaState

variable {α β : Type} {s s' s'' : MetaState}

/-- No entry has a name that would not be accepted for a new one. -/
def Named (s : MetaState) : Prop := ∀ k ∈ s.dentries, validateName k.2 = .ok ()

/-- What is entered has a name that was checked. -/
def EntersNamed (s s' : MetaState) : Prop :=
  ∀ k ∈ s'.dentries, k ∈ s.dentries ∨ validateName k.2 = .ok ()

theorem EntersNamed.of_eq (h : s'.dentries = s.dentries) : s.EntersNamed s' := by
  intro k hk
  rw [h] at hk
  exact .inl hk

theorem EntersNamed.of_names (h : s'.names = s.names) : s.EntersNamed s' := by
  intro k hk
  have hentry : s'.dentries[k]? = s.dentries[k]? := congrFun (congrArg Namespace.entry h) k
  rw [Std.ExtTreeMap.mem_iff_isSome_getElem?, hentry,
    ← Std.ExtTreeMap.mem_iff_isSome_getElem?] at hk
  exact .inl hk

theorem EntersNamed.refl (s : MetaState) : s.EntersNamed s := .of_eq rfl

theorem EntersNamed.trans (h : s.EntersNamed s') (h' : s'.EntersNamed s'') :
    s.EntersNamed s'' := by
  intro k hk
  rcases h' k hk with hold | hnew
  · exact h k hold
  · exact .inr hnew

theorem EntersNamed.andThen {r : Result α} {g : α → MetaState → Result β}
    (hr : s.EntersNamed r.2) (hg : ∀ a (s' : MetaState), s'.EntersNamed (g a s').2) :
    s.EntersNamed (r.andThen g).2 := by
  obtain ⟨o, s'⟩ := r
  cases o with
  | ok a => exact hr.trans (hg a s')
  | error e => exact hr
  | outOfRange => exact hr
  | diverged => exact hr

theorem EntersNamed.inodeAt (s : MetaState) (i : UInt64) : s.EntersNamed (s.inodeAt i).2 := by
  unfold MetaState.inodeAt
  cases s.inodes[i]? with
  | none => exact .refl s
  | some a => exact .refl s

theorem EntersNamed.setInodeAt (s : MetaState) (i : UInt64) (f : InodeAttrs → InodeAttrs) :
    s.EntersNamed (s.setInodeAt i f).2 :=
  (EntersNamed.inodeAt s i).andThen fun _ _ => .of_eq rfl

theorem EntersNamed.touchInode (s : MetaState) (i : UInt64) (nowNs : Int64) :
    s.EntersNamed (s.touchInode i nowNs).2 :=
  (EntersNamed.inodeAt s i).andThen fun _ _ => .of_eq rfl

theorem EntersNamed.erase (s : MetaState) (k : DentryKey) : s.EntersNamed (s.eraseDentry k) :=
  fun _ hk => .inl (Std.ExtTreeMap.mem_of_mem_erase hk)

theorem EntersNamed.emplace (s : MetaState) {k : DentryKey} (i : UInt64)
    (h : validateName k.2 = .ok ()) : s.EntersNamed (s.emplaceDentry k i) := by
  intro l hl
  rcases Std.ExtTreeMap.mem_insertIfNew.mp hl with he | hold
  · rw [Std.LawfulEqCmp.compare_eq_iff_eq] at he
    exact .inr (he ▸ h)
  · exact .inl hold

theorem EntersNamed.removeNode (s : MetaState) (p : UInt64) (n : Bytes) (i : UInt64)
    (nowNs : Int64) : s.EntersNamed (s.removeNode p n i nowNs).2 := by
  apply (EntersNamed.inodeAt s i).andThen
  intro a s
  have herase : s.EntersNamed (((s.eraseDentry (p, n)).eraseLayout i).eraseInode i) :=
    EntersNamed.erase s (p, n)
  apply herase.trans
  apply (EntersNamed.touchInode _ p nowNs).andThen
  intro _ s
  split
  · exact EntersNamed.setInodeAt s p _
  · exact .refl s

theorem EntersNamed.touchParents (s : MetaState) (nowNs : Int64) (p q : UInt64)
    (type : InodeType) : s.EntersNamed (s.touchParents nowNs p q type).2 := by
  apply (EntersNamed.touchInode s p nowNs).andThen
  intro _ s
  split
  · apply (EntersNamed.touchInode s q nowNs).andThen
    intro _ s
    split
    · exact (EntersNamed.setInodeAt s p _).andThen fun _ s => EntersNamed.setInodeAt s q _
    · exact .refl s
  · exact .refl s

theorem EntersNamed.moveEntry (s : MetaState) (nowNs : Int64) (oldKey newKey : DentryKey)
    (i : UInt64) (type : InodeType) (h : validateName newKey.2 = .ok ()) :
    s.EntersNamed (s.moveEntry nowNs oldKey newKey i type).2 := by
  apply (EntersNamed.erase s oldKey).trans
  apply (EntersNamed.emplace _ i h).trans
  apply (EntersNamed.touchParents _ nowNs oldKey.1 newKey.1 type).andThen
  intro _ s
  exact (EntersNamed.inodeAt s i).andThen fun _ _ => .of_eq rfl

theorem validateParent_name {p : UInt64} {n : Bytes} (h : s.validateParent p n = .ok ()) :
    validateName n = .ok () := by
  unfold validateParent at h
  split at h
  next => contradiction
  next hn => exact hn

variable (s) (clock : Clock)

theorem createNode_entersNamed (p : UInt64) (n : Bytes) (type : InodeType)
    (mode uid gid : UInt32) : s.EntersNamed (s.createNode clock p n type mode uid gid).2 := by
  unfold createNode
  cases hp : s.validateParent p n with
  | error e => exact .refl s
  | ok _ =>
    simp only
    split
    · exact .refl s
    · have hcount : s.EntersNamed s.countInodeId := .of_eq rfl
      apply hcount.trans
      apply (EntersNamed.setInodeAt _ p _).andThen
      intro _ t
      refine (EntersNamed.emplace t s.nextInodeId (k := (p, n)) (validateParent_name hp)).trans
        (.of_eq ?_)
      by_cases ht : type = .file
      · simp only [ht, if_true]
        rfl
      · simp only [ht, if_false]
        rfl

/-- The common end of `Unlink` and `Rmdir`. -/
theorem removeAndRead_entersNamed (p : UInt64) (n : Bytes) (i : UInt64) (nowNs : Int64) :
    s.EntersNamed ((s.removeNode p n i nowNs).andThen fun _ s => s.inodeAt p).2 :=
  (EntersNamed.removeNode s p n i nowNs).andThen fun _ s => EntersNamed.inodeAt s p

theorem unlink_entersNamed (p : UInt64) (n : Bytes) : s.EntersNamed (s.unlink clock p n).2 := by
  unfold unlink
  cases s.validateParent p n with
  | error e => exact .refl s
  | ok _ =>
    cases s.dentries[(p, n)]? with
    | none => exact .refl s
    | some i =>
      apply (EntersNamed.inodeAt s i).andThen
      intro a s
      split
      · exact .refl s
      · exact removeAndRead_entersNamed s p n i _

theorem rmdir_entersNamed (p : UInt64) (n : Bytes) : s.EntersNamed (s.rmdir clock p n).2 := by
  unfold rmdir
  cases s.validateParent p n with
  | error e => exact .refl s
  | ok _ =>
    cases s.dentries[(p, n)]? with
    | none => exact .refl s
    | some i =>
      apply (EntersNamed.inodeAt s i).andThen
      intro a s
      split
      · exact .refl s
      · split
        · exact .refl s
        · exact removeAndRead_entersNamed s p n i _

theorem rename_entersNamed (p : UInt64) (n : Bytes) (q : UInt64) (m : Bytes) :
    s.EntersNamed (s.rename clock p n q m).2 := by
  unfold rename
  cases s.validateParent p n with
  | error e => exact .refl s
  | ok _ =>
  cases hq : s.validateParent q m with
  | error e => exact .refl s
  | ok _ =>
  have hm : validateName m = .ok () := validateParent_name hq
  cases s.dentries[(p, n)]? with
  | none => exact .refl s
  | some i =>
  apply (EntersNamed.inodeAt s i).andThen
  intro a s
  split
  · exact .refl s
  · exact .refl s
  · cases s.dentries[(q, m)]? with
    | none => exact EntersNamed.moveEntry s _ _ _ i _ hm
    | some target =>
      simp only
      split
      · exact .refl s
      · apply (EntersNamed.inodeAt s target).andThen
        intro t s
        split
        · exact .refl s
        · split
          · exact .refl s
          · split
            · exact .refl s
            · apply (EntersNamed.removeNode s q m target _).andThen
              intro _ s
              exact EntersNamed.moveEntry s _ _ _ i _ hm

/-- A call that leaves the names alone. -/
theorem EntersNamed.of_quiet {r : Result α} {o : Outcome α} (f : α → Reply)
    (h : r = (o, s') ∧ o.Returns ∧ s'.names = s.names) : s.EntersNamed (r.map f).2 := by
  obtain ⟨rfl, -, hn⟩ := h
  exact .of_names hn

theorem execute_entersNamed [OffsetSort] (c : Command) :
    s.EntersNamed (s.execute clock c).2 := by
  cases c with
  | mkdir p n mode uid gid => exact createNode_entersNamed s clock p n _ mode uid gid
  | createFile p n mode uid gid => exact createNode_entersNamed s clock p n _ mode uid gid
  | unlink p n => exact unlink_entersNamed s clock p n
  | rmdir p n => exact rmdir_entersNamed s clock p n
  | rename p n q m => exact rename_entersNamed s clock p n q m
  | setAttr a =>
    obtain ⟨o, s', h⟩ := setAttr_names (s := s) clock a
    exact .of_quiet s .attrs h
  | commitWrite i v es =>
    obtain ⟨o, s', h⟩ := (s.commitWrite_wrote clock i v es).names
    exact .of_quiet s .attrs h
  | appendWrite i v es =>
    obtain ⟨o, s', h⟩ := (s.appendWrite_wrote clock i v es).names
    exact .of_quiet s .appended h
  | truncate i size =>
    obtain ⟨o, s', h⟩ := (s.truncate_wrote clock i size).names
    exact .of_quiet s .attrs h

variable {s}

theorem Named.call [OffsetSort] (h : s.Named) (c : Call) : (s.call c).2.Named := by
  intro k hk
  rcases execute_entersNamed s c.clock c.command k hk with hold | hnew
  · exact h k hold
  · exact hnew

theorem named_fresh (chunkSize : UInt64) (nowNs : Int64) : (fresh chunkSize nowNs).Named := by
  intro k hk
  simp [fresh] at hk

theorem named_run [OffsetSort] (chunkSize : UInt64) (nowNs : Int64) (calls : List Call) :
    (final call calls (fresh chunkSize nowNs)).Named :=
  invariant_final (fun c _ hs => hs.call c) (named_fresh chunkSize nowNs) calls

end MetaState

end Pulpfs
