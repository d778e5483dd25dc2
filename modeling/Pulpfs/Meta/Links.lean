import Pulpfs.Meta.TreeInvariant
import Pulpfs.Meta.Success
import Pulpfs.Meta.Atomicity
import Pulpfs.Foundations.LinkCount
import Mathlib.Data.FinEnum
import Mathlib.Order.Interval.Finset.Nat

/-! Link counts. A file has one link, a directory two and one more for every directory in it,
and no call lets the count of a directory wrap. -/
namespace Pulpfs
open RootedTree Function Relation Transition

namespace Namespace

variable {ns : Namespace} {nlink : UInt64 → Option UInt64}

instance (i : UInt64) : Decidable (ns.IsDir i) :=
  decidable_of_iff ((ns.node i).any fun d => d.2 = .directory) (by simp [IsDir, Option.any_eq_true])

/-- The stored counts are those of the tree. -/
def Counted (ns : Namespace) (nlink : UInt64 → Option UInt64) : Prop :=
  ∀ i d n, ns.node i = some d → nlink i = some n →
    n.toNat = if d.2 = .directory then 2 + linkCount ns.IsDir ns.entry i else 1

/-- The count of one node is changed. -/
def adjust (nlink : UInt64 → Option UInt64) (i : UInt64) (g : UInt64 → UInt64) :
    UInt64 → Option UInt64 := update nlink i ((nlink i).map g)

/-- Every count fits: the numbers in use are those from 2 up to the next one. -/
def Fits (ns : Namespace) : Prop := ∀ i, 2 + linkCount ns.IsDir ns.entry i < 2 ^ 64

theorem WellFormed.fits (h : ns.WellFormed) (hzero : ¬ ns.IsNode 0) : ns.Fits := by
  intro i
  have hinj : Injective UInt64.toNat := fun _ _ => UInt64.toNat_inj.mp
  have hbound : ∀ j, ns.IsNode j → j ≠ kRootInodeId → j.toNat ∈ Finset.Ico 2 (2 ^ 64 - 1) := by
    intro j hj hroot
    have hbelow := h.below j hj
    have hnext := ns.next.toNat_lt
    have h0 : j.toNat ≠ 0 := fun h0 => hzero ((UInt64.toNat_inj (b := 0)).mp h0 ▸ hj)
    have h1 : j.toNat ≠ 1 := fun h1 => hroot ((UInt64.toNat_inj (b := 1)).mp h1)
    rw [Finset.mem_Ico]
    omega
  have hle := h.tree.linkCount_le i hinj hbound
  rw [Nat.card_Ico] at hle
  omega

/-- The number 0 is never handed out. -/
theorem Step.zero_unused {ns' : Namespace} (hs : Step ns ns') (h : ns.WellFormed)
    (hzero : ¬ ns.IsNode 0) : ¬ ns'.IsNode 0 := by
  cases hs with
  | create type hdir free room =>
    rw [isNode_create]
    rintro (h0 | h0)
    · exact hzero h0
    · have hbelow := h.below _ h.tree.root_node
      rw [← h0] at hbelow
      exact absurd hbelow (by decide)
  | remove hk leaf =>
    rw [isNode_remove]
    exact fun h0 => hzero h0.1
  | move hk hdir free outside => exact hzero

theorem zero_unused_of_steps {ns' : Namespace} (hs : ReflTransGen Step ns ns')
    (h : ns.WellFormed) (hzero : ¬ ns.IsNode 0) : ¬ ns'.IsNode 0 := by
  induction hs with
  | refl => exact hzero
  | tail hsteps hs ih => exact hs.zero_unused (h.steps hsteps) ih

theorem isDir_iff {i : UInt64} {d : UInt64 × InodeType} (hd : ns.node i = some d) :
    ns.IsDir i ↔ d.2 = .directory := by
  simp [IsDir, hd]

theorem Counted.toNat_of_isDir (hc : ns.Counted nlink) {i n : UInt64} (hdir : ns.IsDir i)
    (hn : nlink i = some n) : n.toNat = 2 + linkCount ns.IsDir ns.entry i := by
  obtain ⟨d, hd, ht⟩ := hdir
  rw [hc i d n hd hn, if_pos ht]

/-- A count that fits is raised with the number of entries. -/
theorem Counted.toNat_of_gained (hc : ns.Counted nlink) {i n : UInt64} (hdir : ns.IsDir i)
    (hn : (nlink i).map (· + 1) = some n)
    (hroom : 2 + (linkCount ns.IsDir ns.entry i + 1) < 2 ^ 64) :
    n.toNat = 2 + (linkCount ns.IsDir ns.entry i + 1) := by
  obtain ⟨n', hn', rfl⟩ := Option.map_eq_some_iff.mp hn
  rw [UInt64.toNat_add, hc.toNat_of_isDir hdir hn']
  exact Nat.mod_eq_of_lt hroom

/-- A count is lowered with the number of entries. -/
theorem Counted.toNat_of_lost (hc : ns.Counted nlink) {i n : UInt64} (hdir : ns.IsDir i)
    (hn : (nlink i).map (· - 1) = some n) {c : ℕ}
    (hcount : c + 1 = linkCount ns.IsDir ns.entry i) : n.toNat = 2 + c := by
  obtain ⟨n', hn', rfl⟩ := Option.map_eq_some_iff.mp hn
  have hexact := hc.toNat_of_isDir hdir hn'
  have hone : (1 : UInt64) ≤ n' := UInt64.le_iff_toNat_le.mpr (by
    rw [hexact]
    show 1 ≤ _
    omega)
  rw [UInt64.toNat_sub_of_le _ _ hone, hexact, ← hcount]
  rfl

/-- A removed directory takes one link from its parent. -/
theorem Counted.remove (hc : ns.Counted nlink) (h : ns.WellFormed) {k : DentryKey} {id : UInt64}
    (hk : ns.entry k = some id) :
    (ns.remove k id).Counted (if ns.IsDir id then adjust (update nlink id none) k.1 (· - 1)
      else update nlink id none) := by
  intro i d n hd hn
  have hi : i ≠ id := by
    rintro rfl
    simp [Namespace.remove] at hd
  have hold : ns.node i = some d := (update_of_ne hi _ _).symm.trans hd
  have hdir : ∀ j, j ≠ id → ((ns.remove k id).IsDir j ↔ ns.IsDir j) := by
    intro j hj
    rw [isDir_remove]
    exact and_iff_left hj
  have hcount := h.tree.linkCount_erase hk hdir i
  show _ = if d.2 = .directory then 2 + linkCount _ (update ns.entry k none) i else 1
  split at hn
  next hdir =>
    by_cases hparent : i = k.1
    · subst hparent
      rw [adjust, update_self, update_of_ne hi] at hn
      rw [if_pos ⟨rfl, hdir⟩] at hcount
      have hparent := h.tree.parent_dir hk
      rw [if_pos ((isDir_iff hold).mp hparent)]
      exact hc.toNat_of_lost hparent hn hcount
    · rw [adjust, update_of_ne hparent, update_of_ne hi] at hn
      rw [if_neg fun hp => hparent hp.1.symm, Nat.add_zero] at hcount
      rw [hcount]
      exact hc i d n hold hn
  next hdir =>
    rw [update_of_ne hi] at hn
    rw [if_neg fun hp => hdir hp.2, Nat.add_zero] at hcount
    rw [hcount]
    exact hc i d n hold hn

/-- A moved directory takes its link from one parent to the other. -/
theorem Counted.move (hc : ns.Counted nlink) (h : ns.WellFormed) {k l : DentryKey} {id : UInt64}
    (hk : ns.entry k = some id) (hdir : ns.IsDir l.1) (free : ns.entry l = none)
    (hfits : (ns.move k l id).Fits) :
    (ns.move k l id).Counted (if ns.IsDir id ∧ k.1 ≠ l.1
      then adjust (adjust nlink k.1 (· - 1)) l.1 (· + 1) else nlink) := by
  intro i d n hd hn
  have hold : ns.node i = some d := hd
  have hcount := h.tree.linkCount_move hk free i
  have hroom := hfits i
  change 2 + linkCount ns.IsDir (update (update ns.entry k none) l (some id)) i < _ at hroom
  show _ = if d.2 = .directory then
    2 + linkCount ns.IsDir (update (update ns.entry k none) l (some id)) i else 1
  split at hn
  next hmoved =>
    obtain ⟨hid, hne⟩ := hmoved
    by_cases hnew : i = l.1
    · subst hnew
      rw [adjust, update_self, adjust, update_of_ne hne.symm] at hn
      rw [if_neg fun hp => hne hp.1, if_pos ⟨rfl, hid⟩, Nat.add_zero] at hcount
      rw [hcount] at hroom ⊢
      rw [if_pos ((isDir_iff hold).mp hdir)]
      exact hc.toNat_of_gained hdir hn hroom
    · rw [adjust, update_of_ne hnew] at hn
      rw [if_neg (c := l.1 = i ∧ _) fun hp => hnew hp.1.symm] at hcount
      by_cases hfrom : i = k.1
      · subst hfrom
        rw [adjust, update_self] at hn
        rw [if_pos ⟨rfl, hid⟩, Nat.add_zero] at hcount
        have hparent := h.tree.parent_dir hk
        rw [if_pos ((isDir_iff hold).mp hparent)]
        exact hc.toNat_of_lost hparent hn hcount
      · rw [adjust, update_of_ne hfrom] at hn
        rw [if_neg fun hp => hfrom hp.1.symm] at hcount
        rw [Nat.add_zero, Nat.add_zero] at hcount
        rw [hcount]
        exact hc i d n hold hn
  next hstay =>
    have hsame : (if k.1 = i ∧ ns.IsDir id then 1 else 0) =
        if l.1 = i ∧ ns.IsDir id then 1 else 0 := by
      by_cases hid : ns.IsDir id
      · have he : k.1 = l.1 := by
          by_contra hne
          exact hstay ⟨hid, hne⟩
        rw [he]
      · rw [if_neg fun hp => hid hp.2, if_neg fun hp => hid hp.2]
    rw [hsame] at hcount
    rw [Nat.add_right_cancel hcount]
    exact hc i d n hold hn

/-- A new directory gives its parent one more link. -/
theorem Counted.create (hc : ns.Counted nlink) (h : ns.WellFormed) {k : DentryKey}
    {type : InodeType} (hdir : ns.IsDir k.1) (free : ns.entry k = none)
    (hfits : (ns.create k type).Fits) :
    (ns.create k type).Counted
      (update (adjust nlink k.1 fun n => if type = .directory then n + 1 else n) ns.next
        (some (if type = .directory then 2 else 1))) := by
  intro i d n hd hn
  have hcount := h.tree.linkCount_link (type = .directory) free h.next_free i
  have hroom := hfits i
  have hdirs := isDir_create k type fun hd => h.next_free (h.tree.dir_node hd)
  rw [hdirs] at hroom
  change 2 + linkCount _ (update ns.entry k (some ns.next)) i < _ at hroom
  rw [hdirs]
  show _ = if d.2 = .directory then 2 + linkCount _ (update ns.entry k (some ns.next)) i else 1
  have hparent : k.1 ≠ ns.next := fun he => h.next_free (he ▸ h.tree.dir_node hdir)
  by_cases hnext : i = ns.next
  · subst hnext
    simp only [Namespace.create, update_self, Option.some.injEq] at hd
    rw [update_self, Option.some.injEq] at hn
    subst hd hn
    have hnone : linkCount ns.IsDir ns.entry ns.next = 0 := by
      rw [linkCount, Set.ncard_eq_zero (h.tree.finite_subdirs _)]
      refine Set.eq_empty_of_forall_notMem ?_
      rintro l ⟨hl, c, hlc, -⟩
      exact h.next_free (hl ▸ h.tree.dir_node (h.tree.parent_dir hlc))
    rw [if_neg fun hp => hparent hp.1, hnone] at hcount
    rw [hcount]
    split <;> rfl
  · have hold : ns.node i = some d := (update_of_ne hnext _ _).symm.trans hd
    rw [update_of_ne hnext] at hn
    by_cases hp : i = k.1
    · subst hp
      rw [adjust, update_self] at hn
      rw [if_pos ((isDir_iff hold).mp hdir)]
      rw [hcount] at hroom ⊢
      by_cases hd' : type = .directory
      · rw [if_pos ⟨rfl, hd'⟩] at hroom ⊢
        simp only [hd', if_true] at hn
        exact hc.toNat_of_gained hdir hn hroom
      · rw [if_neg fun hp => hd' hp.2, Nat.add_zero]
        simp only [hd', if_false, Option.map_id'] at hn
        exact hc.toNat_of_isDir hdir hn
    · rw [adjust, update_of_ne hp] at hn
      rw [if_neg fun hk => hp hk.1.symm, Nat.add_zero] at hcount
      rw [hcount]
      exact hc i d n hold hn

end Namespace

namespace MetaState

variable {s s' : MetaState} {clock : Clock} {i : UInt64}

def nlinkAt (s : MetaState) : UInt64 → Option UInt64 :=
  fun i => s.inodes[i]?.map fun a => a.nlink

def Counted (s : MetaState) : Prop := s.names.Counted s.nlinkAt

theorem nlinkAt_storeInode (i : UInt64) (b : InodeAttrs) :
    (s.storeInode i b).nlinkAt = update s.nlinkAt i (some b.nlink) := by
  funext j
  unfold nlinkAt storeInode
  rw [congrFun (TreeMap.get_insert s.inodes i b) j]
  by_cases hj : j = i
  · rw [hj, update_self, update_self, Option.map_some]
  · rw [update_of_ne hj, update_of_ne hj]

theorem nlinkAt_storeInode_same {a b : InodeAttrs} (h : s.inodes[i]? = some a)
    (hn : b.nlink = a.nlink) : (s.storeInode i b).nlinkAt = s.nlinkAt := by
  have hi : s.nlinkAt i = some b.nlink := by rw [nlinkAt, h, Option.map_some, hn]
  rw [nlinkAt_storeInode, ← hi, update_eq_self]

theorem nlinkAt_eraseInode (i : UInt64) : (s.eraseInode i).nlinkAt = update s.nlinkAt i none := by
  funext j
  unfold nlinkAt eraseInode
  rw [congrFun (TreeMap.get_erase s.inodes i) j]
  by_cases hj : j = i
  · rw [hj, update_self, update_self, Option.map_none]
  · rw [update_of_ne hj, update_of_ne hj]

theorem nlinkAt_emplaceInode (b : InodeAttrs) (h : s.inodes[i]? = none) :
    (s.emplaceInode i b).nlinkAt = update s.nlinkAt i (some b.nlink) := by
  funext j
  unfold nlinkAt emplaceInode
  rw [congrFun (TreeMap.get_insertIfNew b h) j]
  by_cases hj : j = i
  · rw [hj, update_self, update_self, Option.map_some]
  · rw [update_of_ne hj, update_of_ne hj]

@[simp] theorem nlinkAt_emplaceLayout (l : FileLayout) :
    (s.emplaceLayout i l).nlinkAt = s.nlinkAt :=
  rfl

theorem touchInode_nlink {nowNs : Int64} (h : s.touchInode i nowNs = (.ok (), s')) :
    s'.nlinkAt = s.nlinkAt := by
  unfold touchInode at h
  obtain ⟨a, ha, hstored⟩ := inodeAt_eq_ok h
  obtain ⟨-, rfl⟩ := Prod.mk.inj hstored
  exact nlinkAt_storeInode_same ha rfl

theorem setNlink_nlink (g : UInt64 → UInt64)
    (h : (s.setInodeAt i fun parent => { parent with nlink := g parent.nlink }) = (.ok (), s')) :
    s'.nlinkAt = Namespace.adjust s.nlinkAt i g := by
  unfold setInodeAt at h
  obtain ⟨a, ha, hstored⟩ := inodeAt_eq_ok h
  obtain ⟨-, rfl⟩ := Prod.mk.inj hstored
  rw [nlinkAt_storeInode, Namespace.adjust, nlinkAt, ha, Option.map_some, Option.map_some]

theorem removeNode_nlink {p id : UInt64} {n : Bytes} {nowNs : Int64} {a : InodeAttrs}
    (ha : s.inodes[id]? = some a) (h : s.removeNode p n id nowNs = (.ok (), s')) :
    s'.nlinkAt = if a.type = .directory then
        Namespace.adjust (update s.nlinkAt id none) p (· - 1)
      else update s.nlinkAt id none := by
  unfold removeNode at h
  obtain ⟨b, hb, hrest⟩ := inodeAt_eq_ok h
  obtain rfl := Option.some.inj (ha.symm.trans hb)
  obtain ⟨_, s₁, htouch, hrest⟩ := andThen_eq_ok hrest
  have herased : s₁.nlinkAt = update s.nlinkAt id none :=
    (touchInode_nlink htouch).trans (nlinkAt_eraseInode id)
  split at hrest
  next hd => rw [if_pos hd, setNlink_nlink (· - 1) hrest, herased]
  next hd =>
    obtain ⟨-, rfl⟩ := Prod.mk.inj hrest
    rw [if_neg hd, herased]

theorem moveEntry_nlink {oldKey newKey : DentryKey} {id : UInt64} {nowNs : Int64}
    {type : InodeType} {a : InodeAttrs}
    (h : s.moveEntry nowNs oldKey newKey id type = (.ok a, s')) :
    s'.nlinkAt = if type = .directory ∧ oldKey.1 ≠ newKey.1 then
        Namespace.adjust (Namespace.adjust s.nlinkAt oldKey.1 (· - 1)) newKey.1 (· + 1)
      else s.nlinkAt := by
  unfold moveEntry at h
  obtain ⟨_, s₁, hparents, hrest⟩ := andThen_eq_ok h
  obtain ⟨b, hb, hstored⟩ := inodeAt_eq_ok hrest
  obtain ⟨-, rfl⟩ := Prod.mk.inj hstored
  refine (nlinkAt_storeInode_same hb ?_).trans ?_
  · rfl
  unfold touchParents at hparents
  obtain ⟨_, s₂, hold, hparents⟩ := andThen_eq_ok hparents
  have hentered : ((s.eraseDentry oldKey).emplaceDentry newKey id).nlinkAt = s.nlinkAt := rfl
  have hold : s₂.nlinkAt = s.nlinkAt := (touchInode_nlink hold).trans hentered
  split at hparents
  next hne =>
    obtain ⟨_, s₃, hnew, hparents⟩ := andThen_eq_ok hparents
    have hnew : s₃.nlinkAt = s.nlinkAt := (touchInode_nlink hnew).trans hold
    split at hparents
    next ht =>
      obtain ⟨_, s₄, hdec, hinc⟩ := andThen_eq_ok hparents
      rw [if_pos ⟨ht, hne⟩, setNlink_nlink (· + 1) hinc, setNlink_nlink (· - 1) hdec]
      exact congrArg (fun f => Namespace.adjust (Namespace.adjust f _ _) _ _) hnew
    next ht =>
      obtain ⟨-, rfl⟩ := Prod.mk.inj hparents
      rw [if_neg fun hp => ht hp.1]
      exact hnew
  next he =>
    obtain ⟨-, rfl⟩ := Prod.mk.inj hparents
    rw [if_neg fun hp => he hp.2]
    exact hold

/-- `RemoveNode` on an entry of the tree. -/
theorem Counted.removeNode (hc : s.Counted) (hw : s.names.WellFormed) {k : DentryKey}
    {id : UInt64} {nowNs : Int64} (hk : s.names.entry k = some id)
    (h : s.removeNode k.1 k.2 id nowNs = (.ok (), s')) :
    s'.names = s.names.remove k id ∧ s'.Counted := by
  obtain ⟨a, ha⟩ := names_isNode.mp (hw.tree.child_node hk)
  have hne : k.1 ≠ id := by
    rintro he
    exact hw.tree.not_self (q := k.1) (n := k.2) (hk.trans (congrArg some he.symm))
  obtain ⟨s₁, hr, hn⟩ := removeNode_names k.2 nowNs (hw.tree.child_node hk)
    (hw.tree.dir_node (hw.tree.parent_dir hk)) hne
  obtain ⟨-, rfl⟩ := Prod.mk.inj (hr.symm.trans h)
  refine ⟨hn, ?_⟩
  have hcount := Namespace.Counted.remove hc hw hk
  have hdir : s.names.IsDir id ↔ a.type = .directory :=
    Namespace.isDir_iff (d := (a.inodeId, a.type)) (by simp only [names, ha, Option.map_some])
  rw [Counted, hn, removeNode_nlink ha hr]
  simpa only [hdir] using hcount

/-- The second half of `Rename` on a tree, with room for one more link. -/
theorem Counted.moveEntry (hc : s.Counted) (hw : s.names.WellFormed) {k l : DentryKey}
    {id : UInt64} {nowNs : Int64} {type : InodeType} {a : InodeAttrs}
    (hk : s.names.entry k = some id) (hdir : s.names.IsDir l.1) (free : s.names.entry l = none)
    (ht : s.names.IsDir id ↔ type = .directory)
    (h : s.moveEntry nowNs k l id type = (.ok a, s')) (hfits : s'.names.Fits) :
    s'.Counted := by
  obtain ⟨b, s₁, hm, hn⟩ := moveEntry_names k l nowNs type
    (hw.tree.dir_node (hw.tree.parent_dir hk)) (hw.tree.dir_node hdir) (hw.tree.child_node hk) free
  obtain ⟨-, rfl⟩ := Prod.mk.inj (hm.symm.trans h)
  have hcount := Namespace.Counted.move hc hw hk hdir free (hn ▸ hfits)
  rw [Counted, hn, moveEntry_nlink hm]
  simpa only [ht] using hcount

/-- `Rename` over a node takes its link first. -/
theorem rename_counted (hc : s.Counted) (hw : s.names.WellFormed) {p q : UInt64} {n m : Bytes}
    {a : InodeAttrs} (h : s.rename clock p n q m = (.ok a, s')) (hfits : s'.names.Fits) :
    s'.Counted := by
  obtain ⟨id, moved, hk, hmoved, hq, -, hrenamed⟩ := rename_ok h
  have hq := names_isDir.mpr (validateParent_inode hq)
  have ht : s.names.IsDir id ↔ moved.type = .directory :=
    Namespace.isDir_iff (d := (moved.inodeId, moved.type)) (by
      simp only [names, hmoved, Option.map_some])
  cases hrenamed with
  | same hl hs => exact hs ▸ hc
  | moved hl hm => exact hc.moveEntry hw hk hq hl ht hm hfits
  | replaced target t s₁ hl hne htarget hempty hr hm =>
    have leaf := hempty.leaf hw htarget
    obtain ⟨hn, hc₁⟩ := hc.removeNode hw hl hr
    have hqt : q ≠ target := by
      rintro rfl
      exact hw.tree.not_self hl
    have hkeys : (p, n) ≠ (q, m) := by
      intro he
      exact hne (Option.some.inj (hl.symm.trans (he ▸ hk)))
    refine hc₁.moveEntry (hn ▸ hw.remove hl leaf) ?_ (hn ▸ hq.remove hqt) ?_ ?_ hm hfits
    · rw [hn]
      exact (update_of_ne hkeys _ _).trans hk
    · rw [hn]
      exact update_self ..
    · rw [hn, Namespace.isDir_remove]
      exact (and_iff_left (Ne.symm hne)).trans ht

/-- A node that is created. -/
theorem createNode_nlink (hw : s.names.WellFormed) {p : UInt64} {n : Bytes} {type : InodeType}
    {mode uid gid : UInt32} {a : InodeAttrs}
    (h : s.createNode clock p n type mode uid gid = (.ok a, s')) :
    s'.nlinkAt = update
      (Namespace.adjust s.nlinkAt p fun n => if type = .directory then n + 1 else n)
      s.nextInodeId (some (if type = .directory then 2 else 1)) := by
  unfold createNode at h
  split at h
  next => cases h
  next hv =>
  split at h
  next => cases h
  next hk =>
  obtain ⟨b, hb, -⟩ := validateParent_inode hv
  obtain ⟨_, s₁, hparent, hrest⟩ := andThen_eq_ok h
  unfold setInodeAt at hparent
  obtain ⟨b, hb, hstored⟩ := inodeAt_eq_ok hparent
  obtain ⟨-, rfl⟩ := Prod.mk.inj hstored
  obtain ⟨-, rfl⟩ := Prod.mk.inj hrest
  have hfresh := next_unused hw
  have hne : s.nextInodeId ≠ p := by
    rintro rfl
    exact Option.some_ne_none _ (hb.symm.trans hfresh)
  have hentered : ((s.countInodeId.storeInode p { b with
      mtimeNs := clock 0, ctimeNs := clock 0, version := b.version + 1
      nlink := if type = .directory then b.nlink + 1 else b.nlink }).emplaceDentry (p, n)
        s.nextInodeId).nlinkAt =
      Namespace.adjust s.nlinkAt p fun n => if type = .directory then n + 1 else n := by
    show (s.countInodeId.storeInode p _).nlinkAt = _
    rw [nlinkAt_storeInode, Namespace.adjust]
    have hp : s.nlinkAt p = some b.nlink := congrArg (Option.map _) hb
    rw [hp]
    rfl
  rw [apply_ite nlinkAt, nlinkAt_emplaceLayout, ite_self, nlinkAt_emplaceInode, hentered]
  show (s.inodes.insert p _)[s.nextInodeId]? = none
  rw [congrFun (TreeMap.get_insert s.inodes p _) _, update_of_ne hne]
  exact hfresh

theorem createNode_counted (hc : s.Counted) (hw : s.names.WellFormed) {p : UInt64} {n : Bytes}
    {type : InodeType} {mode uid gid : UInt32} {a : InodeAttrs}
    (h : s.createNode clock p n type mode uid gid = (.ok a, s')) (hfits : s'.names.Fits) :
    s'.Counted := by
  rcases createNode_names clock p n type mode uid gid hw with
    ⟨e, he⟩ | ⟨b, t, hb, -, hdir, free, hn⟩
  · cases he.symm.trans h
  · obtain ⟨-, rfl⟩ := Prod.mk.inj (hb.symm.trans h)
    rw [Counted, hn, createNode_nlink hw hb]
    exact Namespace.Counted.create hc hw hdir free (hn ▸ hfits)

theorem unlink_counted (hc : s.Counted) (hw : s.names.WellFormed) {p : UInt64} {n : Bytes}
    {a : InodeAttrs} (h : s.unlink clock p n = (.ok a, s')) : s'.Counted := by
  obtain ⟨id, target, hk, -, -, hr⟩ := unlink_ok h
  exact (hc.removeNode hw hk hr).2

theorem rmdir_counted (hc : s.Counted) (hw : s.names.WellFormed) {p : UInt64} {n : Bytes}
    {a : InodeAttrs} (h : s.rmdir clock p n = (.ok a, s')) : s'.Counted := by
  obtain ⟨id, target, hk, -, -, -, hr⟩ := rmdir_ok h
  exact (hc.removeNode hw hk hr).2

theorem setAttr_nlink (c : SetAttrCommand) : (s.setAttr clock c).2.nlinkAt = s.nlinkAt := by
  unfold setAttr
  cases ha : s.inodes[c.inodeId]? with
  | none => rfl
  | some a => exact nlinkAt_storeInode_same ha rfl

theorem Wrote.nlink {α : Type} {r : Result α} (h : s.Wrote i r) : r.2.nlinkAt = s.nlinkAt := by
  cases h with
  | refused e hr =>
    rw [hr]
  | midway e es hr =>
    rw [hr]
    rfl
  | written x a size nowNs es ha hr =>
    have hstill : (s.setLayoutExtents i es).inodes[i]? = some a := ha
    rw [hr]
    exact nlinkAt_storeInode_same hstill rfl

/-- A call that returns and changes nothing when it fails. -/
theorem Counted.of_returns {α : Type} {r : Result α} (hc : s.Counted) (f : α → Reply)
    (hret : (r.map f).1.Returns) (ha : Atomic s r)
    (h : ∀ a s', r = (.ok a, s') → s'.names = (r.map f).2.names → s'.Counted) :
    (r.map f).2.Counted := by
  obtain ⟨o, s'⟩ := r
  cases o with
  | ok a => exact h a s' rfl rfl
  | error e =>
    have hs : s' = s := ha rfl
    exact hs ▸ hc
  | outOfRange => exact hret.elim
  | diverged => exact hret.elim

theorem Counted.of_same (hc : s.Counted) (hn : s'.names = s.names)
    (hl : s'.nlinkAt = s.nlinkAt) : s'.Counted := by
  rw [Counted, hn, hl]
  exact hc

theorem Wrote.counted {α : Type} {r : Result α} (h : s.Wrote i r) (hc : s.Counted) :
    r.2.Counted := by
  obtain ⟨o, s', hr, -, hn⟩ := h.names
  exact hc.of_same ((congrArg (fun r => r.2.names) hr).trans hn) h.nlink

/-- The step lemma. -/
theorem call_counted [OffsetSort] {c : Call} (hw : s.names.WellFormed)
    (hret : (s.call c).1.Returns) (hfits : (s.call c).2.names.Fits) (hc : s.Counted) :
    (s.call c).2.Counted := by
  obtain ⟨clock, command⟩ := c
  cases command with
  | mkdir p n mode uid gid =>
    refine hc.of_returns _ hret (createNode_atomic s clock p n _ mode uid gid) ?_
    exact fun a s' h hn => createNode_counted hc hw h (hn ▸ hfits)
  | createFile p n mode uid gid =>
    refine hc.of_returns _ hret (createNode_atomic s clock p n _ mode uid gid) ?_
    exact fun a s' h hn => createNode_counted hc hw h (hn ▸ hfits)
  | unlink p n =>
    refine hc.of_returns _ hret (unlink_atomic s clock p n) ?_
    exact fun a s' h _ => unlink_counted hc hw h
  | rmdir p n =>
    refine hc.of_returns _ hret (rmdir_atomic s clock p n) ?_
    exact fun a s' h _ => rmdir_counted hc hw h
  | rename p n q m =>
    refine hc.of_returns _ hret (rename_atomic s clock p n q m) ?_
    exact fun a s' h hn => rename_counted hc hw h (hn ▸ hfits)
  | setAttr a =>
    obtain ⟨o, s', hr, -, hn⟩ := setAttr_names (s := s) clock a
    exact hc.of_same ((congrArg (fun r => r.2.names) hr).trans hn) (setAttr_nlink a)
  | commitWrite i v es => exact (s.commitWrite_wrote clock i v es).counted hc
  | appendWrite i v es => exact (s.appendWrite_wrote clock i v es).counted hc
  | truncate i size => exact (s.truncate_wrote clock i size).counted hc

theorem counted_fresh (chunkSize : UInt64) (nowNs : Int64) : (fresh chunkSize nowNs).Counted := by
  have hnone : (∅ : Std.ExtTreeMap UInt64 InodeAttrs)[kRootInodeId]? = none := by simp
  intro i d n hd hn
  rw [fresh_names] at hd ⊢
  unfold nlinkAt fresh at hn
  rw [congrFun (TreeMap.get_insertIfNew _ hnone) i] at hn
  by_cases hi : i = kRootInodeId
  · subst hi
    simp only [Namespace.initial, update_self, Option.some.injEq] at hd
    rw [update_self, Option.map_some, Option.some.injEq] at hn
    subst hd hn
    have hnone : linkCount Namespace.initial.IsDir Namespace.initial.entry kRootInodeId = 0 := by
      simp [linkCount, subdirs, Namespace.initial]
    rw [if_pos rfl, hnone]
    rfl
  · simp [Namespace.initial, hi] at hd

/-- The entries of directory `i` that lead to directories. -/
def subdirectories (s : MetaState) (i : UInt64) : List (DentryKey × UInt64) :=
  s.dentries.toList.filter fun d =>
    d.1.1 = i ∧ s.inodes[d.2]?.any fun a => a.type = .directory

theorem length_subdirectories (s : MetaState) (i : UInt64) :
    (s.subdirectories i).length = linkCount s.names.IsDir s.names.entry i := by
  rw [subdirectories, ← TreeMap.ncard_keys, linkCount, subdirs]
  congr 1
  ext k
  simp only [Set.mem_ofPred_eq, decide_eq_true_eq, names_entry, names_isDir, Option.any_eq_true]
  constructor
  · rintro ⟨c, hk, rfl, a, ha, ht⟩
    exact ⟨rfl, c, hk, a, ha, ht⟩
  · rintro ⟨rfl, c, hk, a, ha, ht⟩
    exact ⟨c, hk, rfl, a, ha, ht⟩

/-- Every stored count is the number of links. -/
def LinksExact (s : MetaState) : Prop :=
  ∀ i inode, s.inodes[i]? = some inode →
    inode.nlink.toNat =
      if inode.type = .directory then 2 + (s.subdirectories i).length else 1

/-- The parent of a directory has a link to give back. -/
def LinksToSpare (s : MetaState) : Prop :=
  ∀ (k : DentryKey) id child, s.dentries[k]? = some id → s.inodes[id]? = some child →
    child.type = .directory → ∃ parent, s.inodes[k.1]? = some parent ∧ 3 ≤ parent.nlink.toNat

theorem Counted.linksExact (hc : s.Counted) : s.LinksExact := by
  intro i inode hi
  rw [length_subdirectories]
  refine hc i (inode.inodeId, inode.type) inode.nlink ?_ ?_
  · exact congrArg (Option.map _) hi
  · exact congrArg (Option.map _) hi

theorem LinksExact.toSpare (hl : s.LinksExact) (hw : s.names.WellFormed) : s.LinksToSpare := by
  intro k id child hk hchild ht
  obtain ⟨parent, hparent, hdir⟩ := names_isDir.mp (hw.tree.parent_dir hk)
  refine ⟨parent, hparent, ?_⟩
  have hmem : (k, id) ∈ s.subdirectories k.1 := by
    refine List.mem_filter.mpr ⟨Std.ExtTreeMap.mem_toList_iff_getElem?_eq_some.mpr hk, ?_⟩
    simp [hchild, ht]
  have hpos := List.length_pos_of_mem hmem
  rw [hl k.1 parent hparent, if_pos hdir]
  omega

end MetaState

/-- In every state a run reaches without the numbers wrapping the link counts are exact and no
decrement wraps: not that of `RemoveNode`, and not that of `Rename` after it has removed what the
new name stood for. -/
theorem links_of_run [OffsetSort] (chunkSize : UInt64) (nowNs : Int64) (calls : List Call)
    (room : (MetaState.createdIds calls (.fresh chunkSize nowNs)).length < 2 ^ 64 - 2) :
    let s := final MetaState.call calls (.fresh chunkSize nowNs)
    s.LinksExact ∧ s.LinksToSpare ∧
      ∀ (p : UInt64) (n : Bytes) (id : UInt64) (target : InodeAttrs) (nowNs : Int64)
        (s' : MetaState), s.dentries[(p, n)]? = some id → s.inodes[id]? = some target →
        s.Replaceable id target → s.removeNode p n id nowNs = (.ok (), s') → s'.LinksToSpare := by
  intro s
  obtain ⟨hw, ⟨hcounted, -⟩, -⟩ := MetaState.run_names_and
    (J := fun s => s.Counted ∧ ¬ s.names.IsNode 0)
    (fun s c hw hstep hw' h => by
      have hzero := Namespace.zero_unused_of_steps hstep.2.1 hw h.2
      exact ⟨MetaState.call_counted hw hstep.1 (hw'.fits hzero) h.1, hzero⟩) calls
    (MetaState.fresh_wellFormed chunkSize nowNs)
    ⟨MetaState.counted_fresh chunkSize nowNs, by
      rw [MetaState.fresh_names]
      simp [Namespace.IsNode, Namespace.initial, kRootInodeId]⟩ (MetaState.fresh_room room)
  refine ⟨hcounted.linksExact, hcounted.linksExact.toSpare hw, ?_⟩
  intro p n id target nowNs s' hk htarget hempty hr
  obtain ⟨hn, hc'⟩ := hcounted.removeNode hw hk hr
  exact hc'.linksExact.toSpare (hn ▸ hw.remove hk (hempty.leaf hw htarget))

/-- A directory goes into another one, replaces an empty one there and is moved back out. -/
def nestedCalls : List Call :=
  [⟨fun _ => 1, .mkdir 1 (ascii "a") 0o755 0 0⟩, ⟨fun _ => 2, .mkdir 1 (ascii "b") 0o755 0 0⟩,
    ⟨fun _ => 3, .mkdir 3 (ascii "c") 0o755 0 0⟩, ⟨fun _ => 4, .createFile 2 (ascii "f") 0o644 0 0⟩,
    ⟨fun n => 5 + Int64.ofNat n, .rename 1 (ascii "a") 3 (ascii "c")⟩,
    ⟨fun _ => 7, .rename 3 (ascii "c") 1 (ascii "d")⟩, ⟨fun _ => 8, .rmdir 1 (ascii "b")⟩]

theorem links_of_nestedCalls :
    let s := final (@MetaState.call .insertion) nestedCalls (.fresh 4096 0)
    s.LinksExact ∧ s.LinksToSpare ∧
      ∀ (p : UInt64) (n : Bytes) (id : UInt64) (target : InodeAttrs) (nowNs : Int64)
        (s' : MetaState), s.dentries[(p, n)]? = some id → s.inodes[id]? = some target →
        s.Replaceable id target → s.removeNode p n id nowNs = (.ok (), s') → s'.LinksToSpare :=
  @links_of_run .insertion 4096 0 nestedCalls (by decide)

end Pulpfs
