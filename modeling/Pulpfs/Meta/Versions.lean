import Pulpfs.Meta.TreeInvariant
import Pulpfs.Meta.Success

/-! The inodes a call changes. They are those it is about, and the version of each one that is
there before and after is raised. -/
namespace Pulpfs
open Function Transition

/-- The inodes a call is about: the parents, and what their entries under the names of the call
lead to. -/
def Command.own (s : MetaState) : Command → List UInt64
  | .mkdir p _ _ _ _ => [p, s.nextInodeId]
  | .createFile p _ _ _ _ => [p, s.nextInodeId]
  | .setAttr command => [command.inodeId]
  | .commitWrite i _ _ => [i]
  | .appendWrite i _ _ => [i]
  | .truncate i _ => [i]
  | .unlink p n => p :: s.dentries[(p, n)]?.toList
  | .rmdir p n => p :: s.dentries[(p, n)]?.toList
  | .rename p n q m => p :: q :: (s.dentries[(p, n)]?.toList ++ s.dentries[(q, m)]?.toList)

/-- The version went up by one or two, which makes it greater where it does not wrap. -/
def InodeAttrs.RaisedTo (a a' : InodeAttrs) : Prop :=
  ∃ k : ℕ, 0 < k ∧ k ≤ 2 ∧ a'.version = a.version + UInt64.ofNat k ∧
    (a.version.toNat + k < 2 ^ 64 → a.version < a'.version)

theorem InodeAttrs.RaisedTo.of_add {a a' : InodeAttrs} {k : ℕ} (hpos : 0 < k) (hle : k ≤ 2)
    (hv : a'.version = a.version + UInt64.ofNat k) : a.RaisedTo a' := by
  refine ⟨k, hpos, hle, hv, fun hwrap => ?_⟩
  rw [UInt64.lt_iff_toNat_lt, hv, UInt64.toNat_add, UInt64.toNat_ofNat']
  omega

namespace MetaState

/-- The attributes, the extents and the entries of an inode are the same in both states. -/
structure SameNode (s s' : MetaState) (f : UInt64) : Prop where
  attrs : s'.inodes[f]? = s.inodes[f]?
  extents : (s'.layouts[f]?.map fun l => l.extents) = s.layouts[f]?.map fun l => l.extents
  entries : ∀ n : Bytes, s'.dentries[(f, n)]? = s.dentries[(f, n)]?

variable {s s' s'' : MetaState} {f : UInt64}

theorem SameNode.refl (s : MetaState) (f : UInt64) : SameNode s s f :=
  ⟨rfl, rfl, fun _ => rfl⟩

theorem SameNode.trans (h : SameNode s s' f) (h' : SameNode s' s'' f) : SameNode s s'' f :=
  ⟨h'.attrs.trans h.attrs, h'.extents.trans h.extents, fun n => (h'.entries n).trans (h.entries n)⟩

/-- Nothing is changed but `own`; what is there was there, and its version was raised once for
each time it is listed in `touched`. -/
structure Touches (own touched : List UInt64) (s s' : MetaState) : Prop where
  outside : ∀ f ∉ own, SameNode s s' f
  version : ∀ f a', s'.inodes[f]? = some a' → ∃ a, s.inodes[f]? = some a ∧
    a'.version = a.version + UInt64.ofNat (touched.count f)

variable {own touched touched' : List UInt64} {i : UInt64}

theorem Touches.trans (h : Touches own touched s s') (h' : Touches own touched' s' s'') :
    Touches own (touched ++ touched') s s'' := by
  constructor
  · exact fun f hf => (h.outside f hf).trans (h'.outside f hf)
  · intro f a'' ha''
    obtain ⟨a', ha', hv'⟩ := h'.version f a'' ha''
    obtain ⟨a, ha, hv⟩ := h.version f a' ha'
    refine ⟨a, ha, ?_⟩
    rw [hv', hv, UInt64.add_assoc, ← UInt64.ofNat_add, List.count_append]

theorem Touches.gone (h : Touches own touched s s') (hf : s.inodes[f]? = none) :
    s'.inodes[f]? = none := by
  rw [Option.eq_none_iff_forall_ne_some]
  intro a' ha'
  obtain ⟨a, ha, -⟩ := h.version f a' ha'
  exact Option.some_ne_none a (ha.symm.trans hf)

/-- A step that does not touch the inodes. -/
theorem Touches.of_inodes (hin : s'.inodes = s.inodes) (h : ∀ f ∉ own, SameNode s s' f) :
    Touches own [] s s' := by
  refine ⟨h, fun f a' ha' => ⟨a', hin ▸ ha', ?_⟩⟩
  exact (UInt64.add_zero _).symm

theorem Touches.refl (own : List UInt64) (s : MetaState) : Touches own [] s s :=
  .of_inodes rfl fun f _ => .refl s f

theorem ne_of_mem_of_notMem {g : UInt64} (hi : i ∈ own) (hg : g ∉ own) : g ≠ i :=
  fun he => hg (he ▸ hi)

theorem sameNode_storeInode (a : InodeAttrs) (h : f ≠ i) : SameNode s (s.storeInode i a) f :=
  ⟨(congrFun (TreeMap.get_insert s.inodes i a) f).trans (update_of_ne h _ _), rfl, fun _ => rfl⟩

theorem touches_storeInode {a b : InodeAttrs} (k : ℕ) (hi : i ∈ own) (h : s.inodes[i]? = some a)
    (hv : b.version = a.version + UInt64.ofNat k) :
    Touches own (List.replicate k i) s (s.storeInode i b) := by
  constructor
  · exact fun f hf => sameNode_storeInode b (ne_of_mem_of_notMem hi hf)
  · intro f a' ha'
    have hget := congrFun (TreeMap.get_insert s.inodes i b) f
    by_cases hf : f = i
    · subst hf
      rw [update_self] at hget
      obtain rfl := Option.some.inj (hget.symm.trans ha')
      refine ⟨a, h, ?_⟩
      rw [List.count_replicate_self]
      exact hv
    · rw [update_of_ne hf] at hget
      refine ⟨a', hget.symm.trans ha', ?_⟩
      rw [List.count_eq_zero_of_not_mem fun hm => hf (List.eq_of_mem_replicate hm)]
      exact (UInt64.add_zero _).symm

theorem sameNode_modifyLayout (s : MetaState) (i f : UInt64) {g : FileLayout → FileLayout}
    (h : f ≠ i ∨ ∀ l, (g l).extents = l.extents) :
    SameNode s { s with layouts := s.layouts.modify i g } f := by
  refine ⟨rfl, ?_, fun _ => rfl⟩
  rw [congrFun (TreeMap.get_modify s.layouts i g) f]
  by_cases hf : f = i
  · subst hf
    rw [update_self, Option.map_map]
    congr 1
    exact funext (h.resolve_left (not_not.mpr rfl))
  · rw [update_of_ne hf]

theorem touches_setLayoutAttrs (own : List UInt64) (s : MetaState) (i : UInt64)
    (a : InodeAttrs) : Touches own [] s (s.setLayoutAttrs i a) :=
  .of_inodes rfl fun f _ => sameNode_modifyLayout s i f (.inr fun _ => rfl)

theorem touches_setLayoutExtents (s : MetaState) (es : List FileExtent) (hi : i ∈ own) :
    Touches own [] s (s.setLayoutExtents i es) :=
  .of_inodes rfl fun f hf => sameNode_modifyLayout s i f (.inl (ne_of_mem_of_notMem hi hf))

theorem touches_eraseLayout (s : MetaState) (hi : i ∈ own) :
    Touches own [] s (s.eraseLayout i) := by
  refine .of_inodes rfl fun f hf => ⟨rfl, ?_, fun _ => rfl⟩
  show (s.layouts.erase i)[f]?.map _ = _
  rw [congrFun (TreeMap.get_erase s.layouts i) f, update_of_ne (ne_of_mem_of_notMem hi hf)]

theorem key_ne_of_notMem {k : DentryKey} (hk : k.1 ∈ own) (hf : f ∉ own) (n : Bytes) :
    (f, n) ≠ k := by
  rintro rfl
  exact hf hk

theorem touches_eraseDentry (s : MetaState) {k : DentryKey} (hk : k.1 ∈ own) :
    Touches own [] s (s.eraseDentry k) := by
  refine .of_inodes rfl fun f hf => ⟨rfl, rfl, fun n => ?_⟩
  show (s.dentries.erase k)[(f, n)]? = _
  rw [congrFun (TreeMap.get_erase s.dentries k) (f, n), update_of_ne (key_ne_of_notMem hk hf n)]

theorem touches_emplaceDentry (s : MetaState) {k : DentryKey} (c : UInt64) (hk : k.1 ∈ own) :
    Touches own [] s (s.emplaceDentry k c) :=
  .of_inodes rfl fun _ hf =>
    ⟨rfl, rfl, fun n => TreeMap.insertIfNew_of_ne _ _ (key_ne_of_notMem hk hf n)⟩

theorem touches_eraseInode (s : MetaState) (hi : i ∈ own) :
    Touches own [] s (s.eraseInode i) := by
  have hget := congrFun (TreeMap.get_erase s.inodes i)
  constructor
  · intro f hf
    exact ⟨(hget f).trans (update_of_ne (ne_of_mem_of_notMem hi hf) _ _), rfl, fun _ => rfl⟩
  · intro f a' ha'
    have ha' := (hget f).symm.trans ha'
    by_cases hf : f = i
    · rw [hf, update_self] at ha'
      contradiction
    · rw [update_of_ne hf] at ha'
      exact ⟨a', ha', (UInt64.add_zero _).symm⟩

section Helpers

variable {nowNs : Int64}

theorem touchInode_touches (hi : i ∈ own) (h : s.touchInode i nowNs = (.ok (), s')) :
    Touches own [i] s s' := by
  unfold touchInode at h
  obtain ⟨a, ha, hstored⟩ := inodeAt_eq_ok h
  obtain ⟨-, rfl⟩ := Prod.mk.inj hstored
  exact (touches_storeInode 1 hi ha rfl).trans (touches_setLayoutAttrs own _ i _)

theorem setInodeAt_touches {g : InodeAttrs → InodeAttrs} (k : ℕ) (hi : i ∈ own)
    (h : s.setInodeAt i g = (.ok (), s'))
    (hg : ∀ a, (g a).version = a.version + UInt64.ofNat k) :
    Touches own (List.replicate k i) s s' := by
  unfold setInodeAt at h
  obtain ⟨a, ha, hstored⟩ := inodeAt_eq_ok h
  obtain ⟨-, rfl⟩ := Prod.mk.inj hstored
  exact touches_storeInode k hi ha (hg a)

theorem setNlink_touches (g : UInt64 → UInt64) (hi : i ∈ own)
    (h : (s.setInodeAt i fun parent => { parent with nlink := g parent.nlink }) = (.ok (), s')) :
    Touches own [] s s' :=
  setInodeAt_touches 0 hi h fun _ => (UInt64.add_zero _).symm

/-- The parent of a removed inode is touched once. -/
theorem removeNode_touches {p id : UInt64} {n : Bytes} (hp : p ∈ own) (hid : id ∈ own)
    (h : s.removeNode p n id nowNs = (.ok (), s')) :
    Touches own [p] s s' ∧ s'.inodes[id]? = none := by
  unfold removeNode at h
  obtain ⟨a, -, hrest⟩ := inodeAt_eq_ok h
  obtain ⟨_, s₁, htouch, hrest⟩ := andThen_eq_ok hrest
  have herase := ((touches_eraseDentry s (k := (p, n)) hp).trans
    (touches_eraseLayout _ hid)).trans (touches_eraseInode _ hid)
  have hgone := congrFun (TreeMap.get_erase s.inodes id) id
  rw [update_self] at hgone
  have hparent : Touches own [p]
      (((s.eraseDentry (p, n)).eraseLayout id).eraseInode id) s' := by
    have htouch := touchInode_touches hp htouch
    split at hrest
    next => exact htouch.trans (setNlink_touches (· - 1) hp hrest)
    next =>
      obtain ⟨-, rfl⟩ := Prod.mk.inj hrest
      exact htouch
  exact ⟨herase.trans hparent, hparent.gone hgone⟩

/-- A rename touches each of the two parents once. -/
theorem touchParents_touches {p q : UInt64} {type : InodeType} (hp : p ∈ own) (hq : q ∈ own)
    (h : s.touchParents nowNs p q type = (.ok (), s')) :
    Touches own (if p ≠ q then [p, q] else [p]) s s' := by
  unfold touchParents at h
  obtain ⟨_, s₁, hold, hrest⟩ := andThen_eq_ok h
  have hold := touchInode_touches hp hold
  split at hrest
  next hne =>
    rw [if_pos hne]
    obtain ⟨_, s₂, hnew, hrest⟩ := andThen_eq_ok hrest
    have hboth := hold.trans (touchInode_touches hq hnew)
    split at hrest
    next =>
      obtain ⟨_, s₃, hdec, hinc⟩ := andThen_eq_ok hrest
      have hlinks := (setNlink_touches (· - 1) hp hdec).trans (setNlink_touches (· + 1) hq hinc)
      exact hboth.trans hlinks
    next =>
      obtain ⟨-, rfl⟩ := Prod.mk.inj hrest
      exact hboth
  next he =>
    obtain ⟨-, rfl⟩ := Prod.mk.inj hrest
    rw [if_neg he]
    exact hold

theorem moveEntry_touches {k l : DentryKey} {id : UInt64} {type : InodeType} {a : InodeAttrs}
    (hk : k.1 ∈ own) (hl : l.1 ∈ own) (hid : id ∈ own)
    (h : s.moveEntry nowNs k l id type = (.ok a, s')) :
    Touches own ((if k.1 ≠ l.1 then [k.1, l.1] else [k.1]) ++ [id]) s s' := by
  unfold moveEntry at h
  obtain ⟨_, s₁, hparents, hrest⟩ := andThen_eq_ok h
  obtain ⟨b, hb, hstored⟩ := inodeAt_eq_ok hrest
  obtain ⟨-, rfl⟩ := Prod.mk.inj hstored
  have hentries := (touches_eraseDentry s hk).trans (touches_emplaceDentry _ id hl)
  have hstore := (touches_storeInode 1 hid hb
    (b := { b with ctimeNs := nowNs, version := b.version + 1 }) rfl).trans
    (touches_setLayoutAttrs own _ id { b with ctimeNs := nowNs, version := b.version + 1 })
  exact (hentries.trans (touchParents_touches hk hl hparents)).trans hstore

end Helpers

/-- What the call does to the inodes: it changes no other than `own`, and raises the version of
what it changes and leaves. -/
def Versioned (own : List UInt64) (s s' : MetaState) : Prop :=
  (∀ f ∉ own, SameNode s s' f) ∧ ∀ f a a', s.inodes[f]? = some a → s'.inodes[f]? = some a' →
    SameNode s s' f ∨ a.RaisedTo a'

theorem Touches.versioned (h : Touches own touched s s')
    (hcount : ∀ f ∈ own, s'.inodes[f]? = none ∨ 0 < touched.count f ∧ touched.count f ≤ 2) :
    Versioned own s s' := by
  refine ⟨h.outside, fun f a a' ha ha' => ?_⟩
  by_cases hf : f ∈ own
  · right
    obtain ⟨b, hb, hv⟩ := h.version f a' ha'
    obtain rfl := Option.some.inj (ha.symm.trans hb)
    rcases hcount f hf with hgone | ⟨hpos, hle⟩
    · exact absurd (ha'.symm.trans hgone) (Option.some_ne_none _)
    · exact .of_add hpos hle hv
  · exact .inl (h.outside f hf)

section Calls

variable {clock : Clock} {p q : UInt64} {n m : Bytes} {a : InodeAttrs}

theorem sameNode_emplaceNode (s : MetaState) {id : UInt64} (type : InodeType) (b : InodeAttrs)
    (l : FileLayout) (h : f ≠ id) :
    SameNode s (if type = .file then (s.emplaceInode id b).emplaceLayout id l
      else s.emplaceInode id b) f := by
  have hinode := TreeMap.insertIfNew_of_ne s.inodes b h
  split
  next => exact ⟨hinode, congrArg _ (TreeMap.insertIfNew_of_ne s.layouts l h), fun _ => rfl⟩
  next => exact ⟨hinode, rfl, fun _ => rfl⟩

/-- The new inode has a number that was not in use. -/
theorem createNode_versioned (hw : s.names.WellFormed) {type : InodeType} {mode uid gid : UInt32}
    (h : s.createNode clock p n type mode uid gid = (.ok a, s')) :
    Versioned [p, s.nextInodeId] s s' := by
  unfold createNode at h
  split at h
  next => cases h
  next hv =>
  split at h
  next => cases h
  next =>
  obtain ⟨_, s₁, hparent, hrest⟩ := andThen_eq_ok h
  obtain ⟨-, hs'⟩ := Prod.mk.inj hrest
  have hp : p ∈ [p, s.nextInodeId] := List.mem_cons_self
  have hcounted : Touches [p, s.nextInodeId] [] s s.countInodeId :=
    .of_inodes rfl fun _ _ => ⟨rfl, rfl, fun _ => rfl⟩
  have htouch := (hcounted.trans (setInodeAt_touches 1 hp hparent fun _ => rfl)).trans
    (touches_emplaceDentry s₁ (k := (p, n)) s.nextInodeId hp)
  have hnew : ∀ f, f ≠ s.nextInodeId →
      SameNode (s₁.emplaceDentry (p, n) s.nextInodeId) s' f := by
    intro f hf
    rw [← hs']
    exact sameNode_emplaceNode _ type _ _ hf
  constructor
  · intro f hf
    have hne : f ≠ s.nextInodeId := fun he => hf (by simp [he])
    exact (htouch.outside f hf).trans (hnew f hne)
  · intro f b b' hb hb'
    have hne : f ≠ s.nextInodeId := by
      rintro rfl
      exact Option.some_ne_none b (hb.symm.trans (next_unused hw))
    by_cases hf : f = p
    · subst hf
      obtain ⟨c, hc, hv⟩ := htouch.version f b' ((hnew f hne).attrs.symm.trans hb')
      obtain rfl := Option.some.inj (hb.symm.trans hc)
      have hone : ([] ++ List.replicate 1 f ++ []).count f = 1 := by simp
      exact .inr (.of_add Nat.one_pos (by omega) (hone ▸ hv))
    · exact .inl ((htouch.outside f (by simp [hf, hne])).trans (hnew f hne))

theorem remove_versioned {id : UInt64} {nowNs : Int64}
    (h : s.removeNode p n id nowNs = (.ok (), s')) : Versioned [p, id] s s' := by
  have hp : p ∈ [p, id] := List.mem_cons_self
  obtain ⟨htouch, hgone⟩ := removeNode_touches hp (by simp) h
  apply htouch.versioned
  intro f hf
  rcases List.mem_pair.mp hf with rfl | rfl
  · exact .inr (by simp)
  · exact .inl hgone

theorem unlink_versioned (h : s.unlink clock p n = (.ok a, s')) :
    Versioned (p :: s.dentries[(p, n)]?.toList) s s' := by
  obtain ⟨id, target, hk, -, -, hr⟩ := unlink_ok h
  rw [hk]
  exact remove_versioned hr

theorem rmdir_versioned (h : s.rmdir clock p n = (.ok a, s')) :
    Versioned (p :: s.dentries[(p, n)]?.toList) s s' := by
  obtain ⟨id, target, hk, -, -, -, hr⟩ := rmdir_ok h
  rw [hk]
  exact remove_versioned hr

/-- The moved inode is neither of the two parents. -/
theorem moved_ne_parents (hw : s.names.WellFormed) {id : UInt64} {moved : InodeAttrs}
    (hk : s.dentries[(p, n)]? = some id) (hmoved : s.inodes[id]? = some moved)
    (hq : s.validateParent q m = .ok ())
    (hout : moved.type = .directory → s.isAncestor id q = some false) : p ≠ id ∧ q ≠ id := by
  constructor
  · rintro rfl
    exact hw.tree.not_self hk
  · rintro rfl
    obtain ⟨b, hb, hd⟩ := validateParent_inode hq
    obtain rfl := Option.some.inj (hmoved.symm.trans hb)
    obtain ⟨c, hc, hiff⟩ := isAncestor_spec hw q (names_isNode.mpr ⟨moved, hmoved⟩)
    rw [hiff.mpr .refl, hout hd] at hc
    contradiction

/-- Of its own inodes the second half of `Rename` touches each one once. -/
theorem count_moveEntry {id : UInt64} (hp : p ≠ id) (hq : q ≠ id) (hf : f ∈ [p, q, id]) :
    ((if p ≠ q then [p, q] else [p]) ++ [id]).count f = 1 := by
  by_cases he : p = q
  · subst he
    rw [if_neg (not_not.mpr rfl)]
    rcases List.mem_pair.mp (List.mem_of_mem_cons_of_mem hf List.mem_cons_self) with rfl | rfl
    · simp [hp.symm]
    · simp [hp]
  · rw [if_pos he]
    simp only [List.mem_cons, List.not_mem_nil, or_false] at hf
    rcases hf with rfl | rfl | rfl
    · simp [Ne.symm he, hp.symm]
    · simp [he, hq.symm]
    · simp [hp, hq]

theorem rename_versioned (hw : s.names.WellFormed)
    (h : s.rename clock p n q m = (.ok a, s')) :
    Versioned (p :: q :: (s.dentries[(p, n)]?.toList ++ s.dentries[(q, m)]?.toList)) s s' := by
  obtain ⟨id, moved, hk, hmoved, hq, hout, hrenamed⟩ := rename_ok h
  obtain ⟨hp, hq⟩ := moved_ne_parents hw hk hmoved hq hout
  rw [hk]
  cases hrenamed with
  | same hl hs =>
    subst hs
    exact ⟨fun f _ => .refl _ f, fun f _ _ _ _ => .inl (.refl _ f)⟩
  | moved hl hm =>
    rw [hl]
    apply (moveEntry_touches (by simp) (by simp) (by simp) hm).versioned
    intro f hf
    right
    rw [count_moveEntry hp hq hf]
    omega
  | replaced target t s₁ hl hne htarget hempty hr hm =>
    rw [hl]
    have hp' : p ∈ [p, q, id, target] := List.mem_cons_self
    have hq' : q ∈ [p, q, id, target] := by simp
    obtain ⟨hremove, hgone⟩ := removeNode_touches hq' (by simp) hr
    have hmove := moveEntry_touches hp' hq' (by simp) hm
    apply (hremove.trans hmove).versioned
    intro f hf
    by_cases ht : f = target
    · exact .inl (ht ▸ hmove.gone hgone)
    · right
      have hle : [q].count f ≤ 1 := List.count_le_length
      rw [List.count_append, count_moveEntry hp hq (by simpa [ht] using hf)]
      change 0 < [q].count f + 1 ∧ [q].count f + 1 ≤ 2
      omega

/-- The three calls that write to a file. -/
theorem Wrote.versioned {α : Type} {r : Result α} {x : α} (h : s.Wrote i r) (hr : r = (.ok x, s')) :
    Versioned [i] s s' := by
  cases h with
  | refused e he => cases he.symm.trans hr
  | midway e es he => cases he.symm.trans hr
  | written y a size nowNs es ha he =>
    obtain ⟨-, rfl⟩ := Prod.mk.inj (he.symm.trans hr)
    have hi : i ∈ [i] := List.mem_singleton_self i
    have hset := touches_setLayoutExtents s es hi
    have hstore := touches_storeInode (s := s.setLayoutExtents i es) 1 hi ha
      (b := a.rewritten size nowNs) rfl
    apply ((hset.trans hstore).trans (touches_setLayoutAttrs [i] _ i _)).versioned
    intro f hf
    obtain rfl := List.mem_singleton.mp hf
    exact .inr (by simp)

theorem setAttr_versioned {command : SetAttrCommand}
    (h : s.setAttr clock command = (.ok a, s')) : Versioned [command.inodeId] s s' := by
  unfold setAttr at h
  split at h
  next => cases h
  next b hb =>
    obtain ⟨-, rfl⟩ := Prod.mk.inj h
    have hi : command.inodeId ∈ [command.inodeId] := List.mem_singleton_self _
    apply ((touches_storeInode 1 hi hb rfl).trans
      (touches_setLayoutAttrs [command.inodeId] _ _ _)).versioned
    intro f hf
    obtain rfl := List.mem_singleton.mp hf
    exact .inr (by simp)

section Writes

variable [OffsetSort]

/-- The step lemma. -/
theorem call_versioned {c : Call} {r : Reply} (hw : s.names.WellFormed)
    (h : s.call c = (.ok r, s')) : Versioned (c.command.own s) s s' := by
  obtain ⟨clock, command⟩ := c
  cases command with
  | mkdir p n mode uid gid =>
    obtain ⟨a, h, -⟩ := Result.map_eq_ok h
    exact createNode_versioned hw h
  | createFile p n mode uid gid =>
    obtain ⟨a, h, -⟩ := Result.map_eq_ok h
    exact createNode_versioned hw h
  | unlink p n =>
    obtain ⟨a, h, -⟩ := Result.map_eq_ok h
    exact unlink_versioned h
  | rmdir p n =>
    obtain ⟨a, h, -⟩ := Result.map_eq_ok h
    exact rmdir_versioned h
  | rename p n q m =>
    obtain ⟨a, h, -⟩ := Result.map_eq_ok h
    exact rename_versioned hw h
  | setAttr command =>
    obtain ⟨a, h, -⟩ := Result.map_eq_ok h
    exact setAttr_versioned h
  | commitWrite i v es =>
    obtain ⟨a, h, -⟩ := Result.map_eq_ok h
    exact (s.commitWrite_wrote clock i v es).versioned h
  | appendWrite i v es =>
    obtain ⟨r, h, -⟩ := Result.map_eq_ok h
    exact (s.appendWrite_wrote clock i v es).versioned h
  | truncate i size =>
    obtain ⟨a, h, -⟩ := Result.map_eq_ok h
    exact (s.truncate_wrote clock i size).versioned h

end Writes

end Calls

end MetaState

/-- In every state a run reaches without the numbers wrapping, a call that succeeds leaves
attributes, extents and entries of every inode but its own as they were; and it leaves those of
its own inodes so, or it raises their version. -/
theorem versions_of_run [OffsetSort] (chunkSize : UInt64) (nowNs : Int64) (calls : List Call)
    (room : (MetaState.createdIds calls (.fresh chunkSize nowNs)).length < 2 ^ 64 - 2)
    (c : Call) (r : Reply) (s' : MetaState)
    (hok : (final MetaState.call calls (.fresh chunkSize nowNs)).call c = (.ok r, s')) :
    let s := final MetaState.call calls (.fresh chunkSize nowNs)
    (∀ f ∉ c.command.own s, s.SameNode s' f) ∧
      ∀ f a a', s.inodes[f]? = some a → s'.inodes[f]? = some a' →
        s.SameNode s' f ∨ a.RaisedTo a' :=
  MetaState.call_versioned (MetaState.wellFormed_run chunkSize nowNs calls room) hok

/-- Two directories; what follows moves the first one over the second. -/
def twoDirectories : List Call :=
  [⟨fun _ => 1, .mkdir 1 (ascii "a") 0o755 0 0⟩, ⟨fun _ => 2, .mkdir 1 (ascii "b") 0o755 0 0⟩]

theorem versions_of_twoDirectories :
    let s := final (@MetaState.call .insertion) twoDirectories (.fresh 4096 0)
    let c : Call := ⟨fun n => 3 + Int64.ofNat n, .rename 1 (ascii "a") 1 (ascii "b")⟩
    let s' := (@MetaState.call .insertion c s).2
    c.command.own s = [1, 1, 2, 3] ∧ (∀ f ∉ [1, 1, 2, 3], s.SameNode s' f) ∧
      ∀ f a a', s.inodes[f]? = some a → s'.inodes[f]? = some a' →
        s.SameNode s' f ∨ a.RaisedTo a' := by
  intro s c s'
  have hown : c.command.own s = [1, 1, 2, 3] := by decide
  obtain ⟨r, hr⟩ := Outcome.exists_of_isOk (o := (@MetaState.call .insertion c s).1) (by decide)
  obtain ⟨houtside, hraised⟩ := @versions_of_run .insertion 4096 0 twoDirectories (by decide) c r
    s' (by rw [← hr])
  exact ⟨hown, fun f hf => houtside f (hown ▸ hf), hraised⟩

end Pulpfs
