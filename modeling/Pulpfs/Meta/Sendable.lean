import Pulpfs.Meta.WireFormat
import Pulpfs.Meta.Service
import Pulpfs.Foundations.TreeMap

/-! What the state machine stores and answers can be sent where what it was asked could: texts are
handed on as they came, and every other text is written by the program. -/
namespace Pulpfs
open ProtoWire

theorem isText_ascii (text : String) : isText (ascii text) = true := by
  rw [isText_iff]
  exact text.isValidUTF8

theorem isText_toDecimal (n : UInt64) : isText (toDecimal n) = true := by
  refine isText_of_ascii fun b hb => UInt8.lt_iff_toNat_lt.mpr ?_
  have hdigit := isDigit_of_mem_toDecimal hb
  show b.toNat < 128
  omega

theorem isText_pathFor {p : UInt64} {n : Bytes} (h : isText n = true) :
    isText (pathFor p n) = true :=
  isText_append (isText_append (isText_toDecimal p) (isText_ascii "/")) h

theorem isText_errorKindName (kind : ErrorKind) : isText (errorKindName kind) = true := by
  cases kind <;> exact isText_ascii _

/-- The texts of the error can be sent. -/
def Error.Sendable (e : Error) : Prop :=
  isText e.message = true ∧ isText (errorPath e.kind) = true

theorem sendable_makeError {kind : ErrorKind} (text : String)
    (h : isText (errorPath kind) = true) : (makeError kind text).Sendable := ⟨isText_ascii text, h⟩

def Reply.Sendable : Reply → Prop
  | .attrs a => a.type.Canonical
  | .appended r => r.attrs.type.Canonical ∧ ∀ e ∈ r.committedExtents, e.Sendable

theorem FileExtent.Sendable.slice {e : FileExtent} (h : e.Sendable) (offset length : UInt64) :
    (sliceExtent e offset length).Sendable := ⟨h.objectKey, h.etag, h.checksum⟩

section Merge

variable [OffsetSort] {es extents : List FileExtent}

theorem mergeExtent_sendable {e : FileExtent} (hes : ∀ c ∈ es, c.Sendable) (he : e.Sendable) :
    ∀ d ∈ mergeExtent es e, d.Sendable := by
  intro d hd
  rcases List.mem_append.mp ((mergeExtent_perm es e).mem_iff.mp hd) with hkept | hnew
  · obtain ⟨c, hc, hd⟩ := List.mem_flatMap.mp hkept
    unfold keptPieces at hd
    split at hd
    next => exact List.mem_singleton.mp hd ▸ hes c hc
    next =>
      rcases List.mem_append.mp hd with hd | hd
      · split at hd
        next => exact List.mem_singleton.mp hd ▸ (hes c hc).slice _ _
        next => contradiction
      · split at hd
        next => exact List.mem_singleton.mp hd ▸ (hes c hc).slice _ _
        next => contradiction
  · exact List.mem_singleton.mp hnew ▸ he

theorem mergeCommitted_sendable (hes : ∀ c ∈ es, c.Sendable)
    (hextents : ∀ e ∈ extents, e.Sendable) : ∀ d ∈ (mergeCommitted es extents).2, d.Sendable := by
  induction extents generalizing es with
  | nil => exact hes
  | cons e extents ih =>
    rw [List.forall_mem_cons] at hextents
    unfold mergeCommitted
    split
    · exact hes
    · exact ih (mergeExtent_sendable hes hextents.1) hextents.2

theorem mergeAppended_sendable (appendStart : UInt64) (acc : AppendState)
    (hstored : ∀ c ∈ acc.storedExtents, c.Sendable)
    (hcommitted : ∀ c ∈ acc.committedExtents, c.Sendable)
    (hextents : ∀ e ∈ extents, e.Sendable) :
    (∀ d ∈ (mergeAppended appendStart acc extents).2.storedExtents, d.Sendable) ∧
      ∀ d ∈ (mergeAppended appendStart acc extents).2.committedExtents, d.Sendable := by
  induction extents generalizing acc with
  | nil => exact ⟨hstored, hcommitted⟩
  | cons e extents ih =>
    rw [List.forall_mem_cons] at hextents
    unfold mergeAppended
    split
    · exact ⟨hstored, hcommitted⟩
    · have he : ({ e with offset := appendStart + e.offset } : FileExtent).Sendable :=
        ⟨hextents.1.objectKey, hextents.1.etag, hextents.1.checksum⟩
      refine ih _ (mergeExtent_sendable hstored he) ?_ hextents.2
      intro d hd
      rcases List.mem_append.mp hd with hd | hd
      · exact hcommitted d hd
      · exact List.mem_singleton.mp hd ▸ he

omit [OffsetSort] in
theorem truncateExtents_sendable (size : UInt64) (hes : ∀ c ∈ es, c.Sendable) :
    ∀ d ∈ truncateExtents size es, d.Sendable := by
  intro d hd
  obtain ⟨c, hc, hd⟩ := List.mem_filterMap.mp hd
  unfold keptBelow at hd
  split at hd
  next => contradiction
  next =>
    split at hd
    next => exact Option.some.inj hd ▸ (hes c hc).slice _ _
    next => exact Option.some.inj hd ▸ hes c hc

end Merge

namespace MetaState

/-- The call leaves a state of `I`, with a value of `Q` or an error of `E`. -/
structure Result.Ends {α : Type} (I : MetaState → Prop) (E : Error → Prop) (Q : α → Prop)
    (r : Result α) : Prop where
  state : I r.2
  value : ∀ a, r.1 = .ok a → Q a
  error : ∀ e, r.1 = .error e → E e

section Rules

variable {α β : Type} {I : MetaState → Prop} {E : Error → Prop} {Q : α → Prop} {R : β → Prop}
  {s : MetaState}

theorem Result.Ends.ok (hs : I s) {a : α} (ha : Q a) : Result.Ends I E Q (.ok a, s) :=
  ⟨hs, fun _ h => Outcome.ok.inj h ▸ ha, nofun⟩

theorem Result.Ends.refuse (hs : I s) {e : Error} (he : E e) : Result.Ends I E Q (.error e, s) :=
  ⟨hs, nofun, fun _ h => Outcome.error.inj h ▸ he⟩

theorem Result.Ends.diverge (hs : I s) : Result.Ends I E Q (.diverged, s) := ⟨hs, nofun, nofun⟩

theorem Result.Ends.andThen {r : Result α} {f : α → MetaState → Result β} (h : r.Ends I E Q)
    (hf : ∀ a s, I s → Q a → (f a s).Ends I E R) : (r.andThen f).Ends I E R := by
  obtain ⟨o, s⟩ := r
  cases o with
  | ok a => exact hf a s h.state (h.value a rfl)
  | error e => exact .refuse h.state (h.error e rfl)
  | outOfRange => exact ⟨h.state, nofun, nofun⟩
  | diverged => exact ⟨h.state, nofun, nofun⟩

theorem Result.Ends.inodeAt (hs : I s) {i : UInt64} {f : InodeAttrs → MetaState → Result β}
    (hf : ∀ a, s.inodes[i]? = some a → (f a s).Ends I E R) :
    ((s.inodeAt i).andThen f).Ends I E R := by
  unfold MetaState.inodeAt
  split
  next a ha => exact hf a ha
  next => exact ⟨hs, nofun, nofun⟩

theorem Result.Ends.map {r : Result α} {f : α → β} (h : r.Ends I E Q) (hf : ∀ a, Q a → R (f a)) :
    (r.map f).Ends I E R := by
  obtain ⟨o, s⟩ := r
  cases o with
  | ok a => exact .ok h.state (hf a (h.value a rfl))
  | error e => exact .refuse h.state (h.error e rfl)
  | outOfRange => exact ⟨h.state, nofun, nofun⟩
  | diverged => exact ⟨h.state, nofun, nofun⟩

end Rules

/-- What is stored can be sent. -/
structure Sendable (s : MetaState) : Prop where
  types : ∀ (i : UInt64) (a : InodeAttrs), s.inodes[i]? = some a → a.type.Canonical
  names : ∀ k ∈ s.dentries, isText k.2 = true
  layouts : ∀ (i : UInt64) (l : FileLayout), s.layouts[i]? = some l → l.Sendable

section Updates

variable {s : MetaState}

theorem Sendable.storeInode (h : s.Sendable) {i : UInt64} {a : InodeAttrs}
    (ha : a.type.Canonical) : (s.storeInode i a).Sendable := by
  refine ⟨fun j b hb => ?_, h.names, h.layouts⟩
  have hget := congrFun (TreeMap.get_insert s.inodes i a) j
  rw [show (s.inodes.insert i a)[j]? = some b from hb] at hget
  by_cases hj : j = i
  · rw [hj, Function.update_self] at hget
    exact Option.some.inj hget ▸ ha
  · rw [Function.update_of_ne hj] at hget
    exact h.types j b hget.symm

theorem Sendable.modifyLayout (h : s.Sendable) {i : UInt64} {f : FileLayout → FileLayout}
    (hf : ∀ l, l.Sendable → (f l).Sendable) :
    MetaState.Sendable { s with layouts := s.layouts.modify i f } := by
  refine ⟨h.types, h.names, fun j l hl => ?_⟩
  have hget := congrFun (TreeMap.get_modify s.layouts i f) j
  rw [show (s.layouts.modify i f)[j]? = some l from hl] at hget
  by_cases hj : j = i
  · rw [hj, Function.update_self] at hget
    obtain ⟨l', hl', rfl⟩ := Option.map_eq_some_iff.mp hget.symm
    exact hf l' (h.layouts i l' hl')
  · rw [Function.update_of_ne hj] at hget
    exact h.layouts j l hget.symm

theorem Sendable.setLayoutAttrs (h : s.Sendable) {i : UInt64} {a : InodeAttrs}
    (ha : a.type.Canonical) : (s.setLayoutAttrs i a).Sendable :=
  h.modifyLayout fun _ hl => ⟨ha, hl.extents⟩

theorem Sendable.setLayoutExtents (h : s.Sendable) {i : UInt64} {es : List FileExtent}
    (hes : ∀ e ∈ es, e.Sendable) : (s.setLayoutExtents i es).Sendable :=
  h.modifyLayout fun _ hl => ⟨hl.attrs, hes⟩

theorem Sendable.storeBack (h : s.Sendable) {i : UInt64} {a : InodeAttrs}
    (ha : a.type.Canonical) : ((s.storeInode i a).setLayoutAttrs i a).Sendable :=
  (h.storeInode ha).setLayoutAttrs ha

theorem Sendable.emplaceDentry (h : s.Sendable) {k : DentryKey} (i : UInt64)
    (hk : isText k.2 = true) : (s.emplaceDentry k i).Sendable := by
  refine ⟨h.types, fun l hl => ?_, h.layouts⟩
  rcases Std.ExtTreeMap.mem_insertIfNew.mp hl with he | hold
  · rw [Std.LawfulEqCmp.compare_eq_iff_eq] at he
    exact he ▸ hk
  · exact h.names l hold

theorem Sendable.emplaceInode (h : s.Sendable) {i : UInt64} {a : InodeAttrs}
    (ha : a.type.Canonical) : (s.emplaceInode i a).Sendable := by
  refine ⟨fun j b hb => ?_, h.names, h.layouts⟩
  unfold MetaState.emplaceInode at hb
  rw [Std.ExtTreeMap.getElem?_insertIfNew] at hb
  split at hb
  · exact Option.some.inj hb ▸ ha
  · exact h.types j b hb

theorem Sendable.emplaceLayout (h : s.Sendable) {i : UInt64} {l : FileLayout}
    (hl : l.Sendable) : (s.emplaceLayout i l).Sendable := by
  refine ⟨h.types, h.names, fun j m hm => ?_⟩
  unfold MetaState.emplaceLayout at hm
  rw [Std.ExtTreeMap.getElem?_insertIfNew] at hm
  split at hm
  · exact Option.some.inj hm ▸ hl
  · exact h.layouts j m hm

theorem Sendable.eraseDentry (h : s.Sendable) (k : DentryKey) : (s.eraseDentry k).Sendable :=
  ⟨h.types, fun _ hl => h.names _ (Std.ExtTreeMap.mem_of_mem_erase hl), h.layouts⟩

theorem Sendable.eraseLayout (h : s.Sendable) (i : UInt64) : (s.eraseLayout i).Sendable := by
  refine ⟨h.types, h.names, fun j l hl => ?_⟩
  unfold MetaState.eraseLayout at hl
  rw [Std.ExtTreeMap.getElem?_erase] at hl
  split at hl
  · contradiction
  · exact h.layouts j l hl

theorem Sendable.eraseInode (h : s.Sendable) (i : UInt64) : (s.eraseInode i).Sendable := by
  refine ⟨fun j a ha => ?_, h.names, h.layouts⟩
  unfold MetaState.eraseInode at ha
  rw [Std.ExtTreeMap.getElem?_erase] at ha
  split at ha
  · contradiction
  · exact h.types j a ha

end Updates

section Calls

/-- The call leaves what can be sent, its value or its error as well. -/
abbrev Result.Sends {α : Type} (Q : α → Prop) (r : Result α) : Prop :=
  r.Ends MetaState.Sendable Error.Sendable Q

variable {s : MetaState}

theorem Sendable.setInodeAt (h : s.Sendable) (i : UInt64) {f : InodeAttrs → InodeAttrs}
    (hf : ∀ a, (f a).type = a.type) : (s.setInodeAt i f).Sends fun _ => True :=
  .inodeAt h fun a ha => .ok (h.storeInode (hf a ▸ h.types i a ha)) trivial

theorem Sendable.touchInode (h : s.Sendable) (i : UInt64) (nowNs : Int64) :
    (s.touchInode i nowNs).Sends fun _ => True := by
  refine .inodeAt h fun a ha => ?_
  have hstored : (a.touched nowNs).type.Canonical := h.types i a ha
  exact .ok (h.storeBack hstored) trivial

theorem Sendable.readInode (h : s.Sendable) (i : UInt64) :
    (s.inodeAt i).Sends fun a => a.type.Canonical := by
  unfold MetaState.inodeAt
  split
  next a ha => exact .ok h (h.types i a ha)
  next => exact ⟨h, nofun, nofun⟩

theorem Sendable.removeNode (h : s.Sendable) (p : UInt64) (n : Bytes) (i : UInt64)
    (nowNs : Int64) : (s.removeNode p n i nowNs).Sends fun _ => True := by
  refine .inodeAt h fun a _ => ?_
  have herase := ((h.eraseDentry (p, n)).eraseLayout i).eraseInode i
  refine (herase.touchInode p nowNs).andThen fun _ s h _ => ?_
  split
  · exact h.setInodeAt p fun _ => rfl
  · exact .ok h trivial

theorem Sendable.touchParents (h : s.Sendable) (nowNs : Int64) (p q : UInt64) (type : InodeType) :
    (s.touchParents nowNs p q type).Sends fun _ => True := by
  refine (h.touchInode p nowNs).andThen fun _ s h _ => ?_
  split
  · refine (h.touchInode q nowNs).andThen fun _ s h _ => ?_
    split
    · refine .andThen (h.setInodeAt p ?_) fun _ s h _ => h.setInodeAt q ?_
      · exact fun _ => rfl
      · exact fun _ => rfl
    · exact .ok h trivial
  · exact .ok h trivial

theorem Sendable.moveEntry (h : s.Sendable) (nowNs : Int64) (oldKey : DentryKey)
    {newKey : DentryKey} (hname : isText newKey.2 = true) (i : UInt64) (type : InodeType) :
    (s.moveEntry nowNs oldKey newKey i type).Sends fun a => a.type.Canonical := by
  have hmoved := (h.eraseDentry oldKey).emplaceDentry i hname
  refine (hmoved.touchParents nowNs oldKey.1 newKey.1 type).andThen fun _ s h _ => ?_
  refine .inodeAt h fun a ha => ?_
  have hstored := h.types i a ha
  refine .ok (h.storeBack ?_) ?_
  · exact hstored
  · exact hstored

theorem validateName_sendable {n : Bytes} {e : Error} (h : validateName n = .error e) :
    e.Sendable := by
  unfold validateName at h
  split at h
  next => exact Except.error.inj h ▸ sendable_makeError _ (isText_ascii "")
  next =>
    split at h
    next => exact Except.error.inj h ▸ sendable_makeError _ (isText_ascii "")
    next =>
      split at h
      next => exact Except.error.inj h ▸ sendable_makeError _ (isText_ascii "")
      next => contradiction

theorem validateParent_sendable {p : UInt64} {n : Bytes} {e : Error}
    (h : s.validateParent p n = .error e) : e.Sendable := by
  unfold validateParent at h
  split at h
  next hname => exact Except.error.inj h ▸ validateName_sendable hname
  next =>
    split at h
    next => exact Except.error.inj h ▸ sendable_makeError _ (isText_toDecimal p)
    next =>
      split at h
      next => exact Except.error.inj h ▸ sendable_makeError _ (isText_toDecimal p)
      next => contradiction

theorem validateRegularFile_sendable {i : UInt64} {e : Error}
    (h : s.validateRegularFile i = .error e) : e.Sendable := by
  unfold validateRegularFile at h
  split at h
  next => exact Except.error.inj h ▸ sendable_makeError _ (isText_toDecimal i)
  next =>
    split at h
    next => exact Except.error.inj h ▸ sendable_makeError _ (isText_ascii "")
    next => contradiction

variable (clock : Clock) {p : UInt64} {n : Bytes}

theorem Sendable.createNode (h : s.Sendable) (hn : isText n = true) (type : InodeType)
    (htype : type.Canonical) (mode uid gid : UInt32) :
    (s.createNode clock p n type mode uid gid).Sends fun a => a.type.Canonical := by
  unfold MetaState.createNode
  split
  next hp => exact .refuse h (validateParent_sendable hp)
  next =>
    split
    next => exact .refuse h (sendable_makeError _ (isText_pathFor hn))
    next =>
      have hcount : s.countInodeId.Sendable := ⟨h.types, h.names, h.layouts⟩
      refine .andThen (hcount.setInodeAt p ?_) fun _ t ht _ => .ok ?_ ?_
      · exact fun _ => rfl
      · have hentered := (ht.emplaceDentry (k := (p, n)) s.nextInodeId hn)
        split
        · exact (hentered.emplaceInode (by exact htype)).emplaceLayout ⟨htype, by simp⟩
        · exact hentered.emplaceInode htype
      · exact htype

theorem Sendable.setAttr (h : s.Sendable) (c : SetAttrCommand) :
    (s.setAttr clock c).Sends fun a => a.type.Canonical := by
  unfold MetaState.setAttr
  split
  next => exact .refuse h (sendable_makeError _ (isText_toDecimal _))
  next a ha =>
    have hstored := h.types _ a ha
    refine .ok (h.storeBack ?_) ?_
    · exact hstored
    · exact hstored

theorem Sendable.unlink (h : s.Sendable) (hn : isText n = true) :
    (s.unlink clock p n).Sends fun a => a.type.Canonical := by
  unfold MetaState.unlink
  split
  next hp => exact .refuse h (validateParent_sendable hp)
  next =>
    split
    next => exact .refuse h (sendable_makeError _ (isText_pathFor hn))
    next i _ =>
      refine .inodeAt h fun a _ => ?_
      split
      next => exact .refuse h (sendable_makeError _ (isText_pathFor hn))
      next => exact (h.removeNode p n i _).andThen fun _ s h _ => h.readInode p

theorem Sendable.rmdir (h : s.Sendable) (hn : isText n = true) :
    (s.rmdir clock p n).Sends fun a => a.type.Canonical := by
  unfold MetaState.rmdir
  split
  next hp => exact .refuse h (validateParent_sendable hp)
  next =>
    split
    next => exact .refuse h (sendable_makeError _ (isText_pathFor hn))
    next i _ =>
      refine .inodeAt h fun a _ => ?_
      split
      next => exact .refuse h (sendable_makeError _ (isText_pathFor hn))
      next =>
        split
        next => exact .refuse h (sendable_makeError _ (isText_pathFor hn))
        next => exact (h.removeNode p n i _).andThen fun _ s h _ => h.readInode p

theorem Sendable.rename (h : s.Sendable) {q : UInt64} {m : Bytes} (hn : isText n = true)
    (hm : isText m = true) : (s.rename clock p n q m).Sends fun a => a.type.Canonical := by
  unfold MetaState.rename
  split
  next hp => exact .refuse h (validateParent_sendable hp)
  next =>
  split
  next hq => exact .refuse h (validateParent_sendable hq)
  next =>
  split
  next => exact .refuse h (sendable_makeError _ (isText_pathFor hn))
  next i _ =>
  refine .inodeAt h fun moved hmoved => ?_
  split
  next => exact .diverge h
  next => exact .refuse h (sendable_makeError _ (isText_ascii ""))
  next =>
  split
  next => exact h.moveEntry _ (p, n) hm i _
  next j _ =>
  split
  next => exact .ok h (h.types i moved hmoved)
  next =>
  refine .inodeAt h fun target _ => ?_
  split
  next => exact .refuse h (sendable_makeError _ (isText_pathFor hm))
  next =>
  split
  next => exact .refuse h (sendable_makeError _ (isText_pathFor hm))
  next =>
  split
  next => exact .refuse h (sendable_makeError _ (isText_pathFor hm))
  next => exact (h.removeNode q m j _).andThen fun _ s h _ => h.moveEntry _ (p, n) hm i _

theorem Sendable.truncate (h : s.Sendable) (i size : UInt64) :
    (s.truncate clock i size).Sends fun a => a.type.Canonical := by
  unfold MetaState.truncate
  split
  next hv => exact .refuse h (validateRegularFile_sendable hv)
  next =>
    split
    next => exact .refuse h (sendable_makeError _ (isText_toDecimal i))
    next l hl =>
      have hcut := truncateExtents_sendable size (h.layouts i l hl).extents
      refine .inodeAt (h.setLayoutExtents hcut) fun a ha => ?_
      have hstored := (h.setLayoutExtents hcut).types i a ha
      refine .ok ((h.setLayoutExtents hcut).storeBack ?_) ?_
      · exact hstored
      · exact hstored

variable [OffsetSort] {es : List FileExtent}

theorem Sendable.commitWrite (h : s.Sendable) (i v : UInt64) (hes : ∀ e ∈ es, e.Sendable) :
    (s.commitWrite clock i v es).Sends fun a => a.type.Canonical := by
  unfold MetaState.commitWrite
  split
  next hv => exact .refuse h (validateRegularFile_sendable hv)
  next =>
    split
    next => exact .refuse h (sendable_makeError _ (isText_toDecimal i))
    next l hl =>
      have hmerged := h.setLayoutExtents (i := i)
        (mergeCommitted_sendable (h.layouts i l hl).extents hes)
      dsimp only
      split
      next => exact .refuse hmerged (sendable_makeError _ (isText_ascii ""))
      next =>
        refine .inodeAt hmerged fun a ha => ?_
        have hstored := hmerged.types i a ha
        refine .ok (hmerged.storeBack ?_) ?_
        · exact hstored
        · exact hstored

theorem Sendable.appendWrite (h : s.Sendable) (i v : UInt64) (hes : ∀ e ∈ es, e.Sendable) :
    (s.appendWrite clock i v es).Sends fun r =>
      r.attrs.type.Canonical ∧ ∀ e ∈ r.committedExtents, e.Sendable := by
  unfold MetaState.appendWrite
  split
  next hv => exact .refuse h (validateRegularFile_sendable hv)
  next =>
    split
    next => exact .refuse h (sendable_makeError _ (isText_toDecimal i))
    next l hl =>
      refine .inodeAt h fun a ha => ?_
      obtain ⟨hmerge, hcommitted⟩ := mergeAppended_sendable a.size ⟨0, [], l.extents⟩
        (h.layouts i l hl).extents (by simp) hes
      have hmerged := h.setLayoutExtents (i := i) hmerge
      dsimp only
      split
      next => exact .refuse hmerged (sendable_makeError _ (isText_ascii ""))
      next =>
        have hstored := h.types i a ha
        refine .ok (hmerged.storeBack ?_) ?_
        · exact hstored
        · exact ⟨hstored, hcommitted⟩

/-- The step lemma. -/
theorem Sendable.execute (h : s.Sendable) {c : Command} (hc : c.Sendable) :
    (s.execute clock c).Sends Reply.Sendable := by
  cases c with
  | mkdir p n mode uid gid =>
    exact (h.createNode clock hc .directory trivial mode uid gid).map fun _ ha => ha
  | createFile p n mode uid gid =>
    exact (h.createNode clock hc .file trivial mode uid gid).map fun _ ha => ha
  | commitWrite i v es => exact (h.commitWrite clock i v hc).map fun _ ha => ha
  | truncate i size => exact (h.truncate clock i size).map fun _ ha => ha
  | unlink p n => exact (h.unlink clock hc).map fun _ ha => ha
  | rmdir p n => exact (h.rmdir clock hc).map fun _ ha => ha
  | rename p n q m => exact (h.rename clock hc.1 hc.2).map fun _ ha => ha
  | setAttr c => exact (h.setAttr clock c).map fun _ ha => ha
  | appendWrite i v es => exact (h.appendWrite clock i v hc).map fun _ ha => ha

end Calls

theorem sendable_fresh (chunkSize : UInt64) (nowNs : Int64) :
    (fresh chunkSize nowNs).Sendable := by
  refine ⟨fun i a ha => ?_, fun k hk => ?_, fun i l hl => ?_⟩
  · unfold fresh at ha
    rw [Std.ExtTreeMap.getElem?_insertIfNew] at ha
    split at ha
    · exact Option.some.inj ha ▸ trivial
    · simp at ha
  · simp [fresh] at hk
  · simp [fresh] at hl

/-- A state that can be sent gives a snapshot that can. -/
theorem Sendable.snapshotMessage {s : MetaState} (h : s.Sendable) :
    s.snapshotMessage.Sendable := by
  refine ⟨fun a ha => ?_, fun d hd => ?_, fun l hl => ?_⟩
  · obtain ⟨⟨i, a⟩, hmem, rfl⟩ := List.mem_map.mp ha
    exact h.types i a (Std.ExtTreeMap.mem_toList_iff_getElem?_eq_some.mp hmem)
  · obtain ⟨⟨k, i⟩, hmem, rfl⟩ := List.mem_map.mp hd
    refine h.names k ?_
    rw [Std.ExtTreeMap.mem_iff_isSome_getElem?,
      Std.ExtTreeMap.mem_toList_iff_getElem?_eq_some.mp hmem]
    rfl
  · obtain ⟨⟨i, l⟩, hmem, rfl⟩ := List.mem_map.mp hl
    exact h.layouts i l (Std.ExtTreeMap.mem_toList_iff_getElem?_eq_some.mp hmem)

end MetaState

theorem makeErrorResponse_sendable {e : Error} (h : e.Sendable) :
    (makeErrorResponse e).Sendable := by
  rintro response hresponse
  obtain rfl := Option.some.inj hresponse
  exact ⟨isText_errorKindName e.kind, h.1, h.2⟩

theorem Reply.response_sendable {reply : Reply} (h : reply.Sendable) :
    reply.response.Sendable := by
  cases reply with
  | attrs a =>
    rintro response hresponse
    obtain rfl := Option.some.inj hresponse
    exact h
  | appended r =>
    rintro response hresponse
    obtain rfl := Option.some.inj hresponse
    exact h

/-- What `Apply` leaves and what it answers can be sent. -/
theorem MetaService.applyCommand_sendable [OffsetSort] {service : MetaService}
    (h : service.state.Sendable) (clock : Clock) {command : RaftCommand}
    (hcommand : command.Sendable) :
    (service.applyCommand clock command).2.state.Sendable ∧
      ∀ response, (service.applyCommand clock command).1 = .ok response → response.Sendable := by
  unfold applyCommand
  split
  next =>
    refine ⟨h, fun response hresponse => Outcome.ok.inj hresponse ▸ ?_⟩
    exact makeErrorResponse_sendable (sendable_makeError _ (isText_ascii ""))
  next c hc =>
    have hends := h.execute clock (hcommand c hc)
    split
    next reply s hexecute =>
      rw [hexecute] at hends
      refine ⟨hends.state, fun response hresponse => Outcome.ok.inj hresponse ▸ ?_⟩
      exact Reply.response_sendable (hends.value reply rfl)
    next e s hexecute =>
      rw [hexecute] at hends
      refine ⟨hends.state, fun response hresponse => Outcome.ok.inj hresponse ▸ ?_⟩
      exact makeErrorResponse_sendable (hends.error e rfl)
    next s hexecute =>
      rw [hexecute] at hends
      exact ⟨hends.state, nofun⟩
    next s hexecute =>
      rw [hexecute] at hends
      exact ⟨hends.state, nofun⟩

end Pulpfs
