import Pulpfs.Meta.State
import Pulpfs.Foundations.RootedTree

/-! What the metadata server is for, as far as names go: a tree of numbered nodes in which
nodes are created, removed and moved. The calls of the state machine are shown to be steps of
this machine in `Pulpfs.Meta.Tree`. -/
namespace Pulpfs
open RootedTree Function

structure Namespace where
  next : UInt64
  /-- The stored number and the type of each node. -/
  node : UInt64 → Option (UInt64 × InodeType)
  entry : DentryKey → Option UInt64

namespace Namespace

variable (ns : Namespace)

def IsNode (i : UInt64) : Prop := ∃ d, ns.node i = some d

def IsDir (i : UInt64) : Prop := ∃ d, ns.node i = some d ∧ d.2 = .directory

/-- The entries form a tree over the nodes, and every number is stored and was handed out. -/
structure WellFormed : Prop where
  tree : IsTree kRootInodeId ns.IsDir ns.IsNode ns.entry
  stored : ∀ i d, ns.node i = some d → d.1 = i
  below : ∀ i, ns.IsNode i → i.toNat < ns.next.toNat

/-- A root without entries. -/
def initial : Namespace where
  next := kRootInodeId + 1
  node := update (fun _ => none) kRootInodeId (some (kRootInodeId, .directory))
  entry := fun _ => none

theorem initial_wellFormed : initial.WellFormed := by
  have hnode : initial.IsNode = fun i => i = kRootInodeId := by
    funext i
    by_cases hi : i = kRootInodeId
    · simp [IsNode, initial, hi]
    · simp [IsNode, initial, hi]
  have hdir : initial.IsDir = fun i => i = kRootInodeId := by
    funext i
    by_cases hi : i = kRootInodeId
    · simp [IsDir, initial, hi]
    · simp [IsDir, initial, hi]
  constructor
  · rw [hnode, hdir]
    exact .single _
  · intro i d hd
    by_cases hi : i = kRootInodeId
    · subst hi
      simp only [initial, update_self, Option.some.injEq] at hd
      rw [← hd]
    · simp [initial, hi] at hd
  · intro i hi
    rw [hnode] at hi
    rw [hi]
    decide

def setNode (i : UInt64) (d : Option (UInt64 × InodeType)) : Namespace :=
  { ns with node := update ns.node i d }

def setEntry (k : DentryKey) (c : Option UInt64) : Namespace :=
  { ns with entry := update ns.entry k c }

/-- A new node of type `type` gets the next number and is entered under `key`. -/
def create (key : DentryKey) (type : InodeType) : Namespace where
  next := ns.next + 1
  node := update ns.node ns.next (some (ns.next, type))
  entry := update ns.entry key (some ns.next)

def remove (key : DentryKey) (id : UInt64) : Namespace :=
  { ns with node := update ns.node id none, entry := update ns.entry key none }

def move (oldKey newKey : DentryKey) (id : UInt64) : Namespace :=
  { ns with entry := update (update ns.entry oldKey none) newKey (some id) }

variable {ns}

theorem WellFormed.next_free (h : ns.WellFormed) : ¬ ns.IsNode ns.next :=
  fun hn => absurd (h.below _ hn) (lt_irrefl _)

theorem isNode_create (key : DentryKey) (type : InodeType) :
    (ns.create key type).IsNode = fun i => ns.IsNode i ∨ i = ns.next := by
  funext i
  by_cases hi : i = ns.next
  · simp [IsNode, Namespace.create, hi]
  · simp [IsNode, Namespace.create, hi]

theorem isDir_create (key : DentryKey) (type : InodeType) (hfresh : ¬ ns.IsDir ns.next) :
    (ns.create key type).IsDir = fun i => ns.IsDir i ∨ i = ns.next ∧ type = .directory := by
  funext i
  by_cases hi : i = ns.next
  · subst hi
    simp [IsDir, Namespace.create] at hfresh ⊢
    exact fun a h1 => absurd h1 (by simpa using hfresh a)
  · simp [IsDir, Namespace.create, hi]

theorem isNode_remove (key : DentryKey) (id : UInt64) :
    (ns.remove key id).IsNode = fun i => ns.IsNode i ∧ i ≠ id := by
  funext i
  by_cases hi : i = id
  · simp [IsNode, Namespace.remove, hi]
  · simp [IsNode, Namespace.remove, hi]

theorem isDir_remove (key : DentryKey) (id : UInt64) :
    (ns.remove key id).IsDir = fun i => ns.IsDir i ∧ i ≠ id := by
  funext i
  by_cases hi : i = id
  · simp [IsDir, Namespace.remove, hi]
  · simp [IsDir, Namespace.remove, hi]

theorem WellFormed.create (h : ns.WellFormed) {key : DentryKey} {type : InodeType}
    (hdir : ns.IsDir key.1) (free : ns.entry key = none) (room : ns.next.toNat + 1 < 2 ^ 64) :
    (ns.create key type).WellFormed := by
  have hnext : (ns.next + 1).toNat = ns.next.toNat + 1 := by
    rw [UInt64.toNat_add]
    exact Nat.mod_eq_of_lt room
  constructor
  · rw [isNode_create, isDir_create key type fun hd => h.next_free (h.tree.dir_node hd)]
    exact h.tree.link _ hdir free h.next_free
  · intro i d hd
    by_cases hi : i = ns.next
    · subst hi
      simp only [Namespace.create, update_self, Option.some.injEq] at hd
      rw [← hd]
    · simp only [Namespace.create, update_of_ne hi] at hd
      exact h.stored i d hd
  · intro i hi
    rw [isNode_create] at hi
    show i.toNat < (ns.next + 1).toNat
    rw [hnext]
    rcases hi with hi | rfl
    · have := h.below i hi
      omega
    · omega

theorem WellFormed.remove (h : ns.WellFormed) {key : DentryKey} {id : UInt64}
    (hkey : ns.entry key = some id) (leaf : ∀ n, ns.entry (id, n) = none) :
    (ns.remove key id).WellFormed := by
  constructor
  · rw [isNode_remove, isDir_remove]
    exact h.tree.unlink hkey leaf
  · intro i d hd
    by_cases hi : i = id
    · simp [Namespace.remove, hi] at hd
    · simp only [Namespace.remove, update_of_ne hi] at hd
      exact h.stored i d hd
  · intro i hi
    rw [isNode_remove] at hi
    exact h.below i hi.1

theorem IsNode.remove {key : DentryKey} {id i : UInt64} (h : ns.IsNode i) (hi : i ≠ id) :
    (ns.remove key id).IsNode i := by
  obtain ⟨d, hd⟩ := h
  exact ⟨d, (update_of_ne hi _ _).trans hd⟩

theorem IsDir.remove {key : DentryKey} {id i : UInt64} (h : ns.IsDir i) (hi : i ≠ id) :
    (ns.remove key id).IsDir i := by
  obtain ⟨d, hd, ht⟩ := h
  exact ⟨d, (update_of_ne hi _ _).trans hd, ht⟩

/-- Removing an entry makes no new ancestors. -/
theorem reaches_of_remove {key : DentryKey} {id i j : UInt64}
    (h : Relation.ReflTransGen (ChildOf (ns.remove key id).entry) i j) :
    Relation.ReflTransGen (ChildOf ns.entry) i j := by
  refine Relation.ReflTransGen.mono (fun c p hcp => ?_) _ _ h
  obtain ⟨n, hn⟩ := hcp
  refine ⟨n, ?_⟩
  have hn : update ns.entry key none (p, n) = some c := hn
  by_cases hk : (p, n) = key
  · rw [hk, update_self] at hn
    contradiction
  · rwa [update_of_ne hk] at hn

theorem WellFormed.move (h : ns.WellFormed) {oldKey newKey : DentryKey} {id : UInt64}
    (hold : ns.entry oldKey = some id) (hdir : ns.IsDir newKey.1) (free : ns.entry newKey = none)
    (outside : ¬ Relation.ReflTransGen (ChildOf ns.entry) newKey.1 id) :
    (ns.move oldKey newKey id).WellFormed :=
  ⟨h.tree.move hold hdir free outside, h.stored, h.below⟩

/-- The steps of the machine; it stops creating before the numbers would wrap. -/
inductive Step : Namespace → Namespace → Prop
  | create {ns : Namespace} {key : DentryKey} (type : InodeType) :
      ns.IsDir key.1 → ns.entry key = none → ns.next.toNat + 1 < 2 ^ 64 →
      Step ns (ns.create key type)
  | remove {ns : Namespace} {key : DentryKey} {id : UInt64} :
      ns.entry key = some id → (∀ n, ns.entry (id, n) = none) → Step ns (ns.remove key id)
  | move {ns : Namespace} {oldKey newKey : DentryKey} {id : UInt64} :
      ns.entry oldKey = some id → ns.IsDir newKey.1 → ns.entry newKey = none →
      ¬ Relation.ReflTransGen (ChildOf ns.entry) newKey.1 id → Step ns (ns.move oldKey newKey id)

theorem Step.wellFormed {ns ns' : Namespace} (h : Step ns ns') (hw : ns.WellFormed) :
    ns'.WellFormed := by
  cases h with
  | create type hdir free room => exact hw.create hdir free room
  | remove hkey leaf => exact hw.remove hkey leaf
  | move hold hdir free outside => exact hw.move hold hdir free outside

theorem WellFormed.steps {ns ns' : Namespace} (hw : ns.WellFormed)
    (h : Relation.ReflTransGen Step ns ns') : ns'.WellFormed := by
  induction h with
  | refl => exact hw
  | tail _ hs ih => exact hs.wellFormed ih

end Namespace

/-- The names a state of the server holds. -/
def MetaState.names (s : MetaState) : Namespace where
  next := s.nextInodeId
  node := fun i => s.inodes[i]?.map fun a => (a.inodeId, a.type)
  entry := fun k => s.dentries[k]?

end Pulpfs
