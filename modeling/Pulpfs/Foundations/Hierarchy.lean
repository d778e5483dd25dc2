import Pulpfs.Foundations.Paths

/-! Hierarchies of names: what stands at every path, and what the operations of a file system do to
that. A tree stored as a table of entries between numbered nodes stands for a hierarchy. -/
namespace Hierarchy
open Function RootedTree

inductive Node (κ : Type*) where
  | directory
  | file (content : κ)

def Node.isDirectory {κ : Type*} : Node κ → Bool
  | .directory => true
  | .file _ => false

abbrev Files (ν κ : Type*) := List ν → Option (Node κ)

/-- Why an operation is refused. -/
inductive Refusal where
  | invalid
  | missing
  | notDirectory
  | isDirectory
  | notEmpty
  | alreadyExists
  deriving DecidableEq

inductive Op (ν κ : Type*) where
  | make (path : List ν) (name : ν) (node : Node κ)
  | unlink (path : List ν) (name : ν)
  | rmdir (path : List ν) (name : ν)
  | rename (oldPath : List ν) (oldName : ν) (newPath : List ν) (newName : ν)
  | edit (path : List ν) (change : κ → κ)
  | touch (path : List ν)

section Operations

variable {ν κ : Type*} [DecidableEq ν] (isName : ν → Bool) (fs : Files ν κ)

/-- The root and nothing else. -/
def initial : Files ν κ := update (fun _ => none) [] (some .directory)

/-- A name is asked for in a directory. -/
def enter (path : List ν) (name : ν) : Except Refusal Unit :=
  if isName name then
    match fs path with
    | none => .error .missing
    | some (.file _) => .error .notDirectory
    | some .directory => .ok ()
  else .error .invalid

def walkFrom (done : List ν) : List ν → Except Refusal Unit
  | [] => .ok ()
  | name :: rest =>
    (enter isName fs done name).bind fun _ =>
      if (fs (done ++ [name])).isSome then walkFrom (done ++ [name]) rest else .error .missing

/-- A path is followed from the root. -/
def walk (path : List ν) : Except Refusal Unit := walkFrom isName fs [] path

def locate (path : List ν) (name : ν) : Except Refusal Unit :=
  (walk isName fs path).bind fun _ => enter isName fs path name

def IsEmpty (path : List ν) : Prop := ∀ name, fs (path ++ [name]) = none

/-- What stood at `old` and below it stands at `new` and below that. -/
def moveTree (old new : List ν) : Files ν κ := fun path =>
  if new <+: path then fs (old ++ path.drop new.length)
  else if old <+: path then none
  else fs path

open Classical in
/-- What `rename` does with what it found. -/
noncomputable def replace (old new : List ν) (moved : Node κ) : Except Refusal (Files ν κ) :=
  match moved, fs new with
  | _, none => .ok (moveTree fs old new)
  | .directory, some (.file _) => .error .notDirectory
  | .file _, some .directory => .error .isDirectory
  | .file _, some (.file _) => .ok (moveTree fs old new)
  | .directory, some .directory =>
    if IsEmpty fs new then .ok (moveTree fs old new) else .error .notEmpty

open Classical in
noncomputable def apply : Op ν κ → Except Refusal (Files ν κ)
  | .make path name node =>
    (locate isName fs path name).bind fun _ =>
      if (fs (path ++ [name])).isSome then .error .alreadyExists
      else .ok (update fs (path ++ [name]) (some node))
  | .unlink path name =>
    (locate isName fs path name).bind fun _ =>
      match fs (path ++ [name]) with
      | none => .error .missing
      | some .directory => .error .isDirectory
      | some (.file _) => .ok (update fs (path ++ [name]) none)
  | .rmdir path name =>
    (locate isName fs path name).bind fun _ =>
      match fs (path ++ [name]) with
      | none => .error .missing
      | some (.file _) => .error .notDirectory
      | some .directory =>
        if IsEmpty fs (path ++ [name]) then .ok (update fs (path ++ [name]) none)
        else .error .notEmpty
  | .rename oldPath oldName newPath newName =>
    (walk isName fs oldPath).bind fun _ =>
    (walk isName fs newPath).bind fun _ =>
    (enter isName fs oldPath oldName).bind fun _ =>
    (enter isName fs newPath newName).bind fun _ =>
      match fs (oldPath ++ [oldName]) with
      | none => .error .missing
      | some moved =>
        -- a directory does not go below itself
        if moved.isDirectory ∧ oldPath ++ [oldName] <+: newPath then .error .invalid
        else if oldPath ++ [oldName] = newPath ++ [newName] then .ok fs
        else replace fs (oldPath ++ [oldName]) (newPath ++ [newName]) moved
  | .edit path change =>
    (walk isName fs path).bind fun _ =>
      match fs path with
      | none => .error .missing
      | some .directory => .error .invalid
      | some (.file content) => .ok (update fs path (some (.file (change content))))
  | .touch path => (walk isName fs path).bind fun _ => .ok fs

/-- A refused operation changes nothing. -/
noncomputable def step (op : Op ν κ) (fs : Files ν κ) : Except Refusal Unit × Files ν κ :=
  match apply isName fs op with
  | .ok fs' => (.ok (), fs')
  | .error r => (.error r, fs)

variable {isName fs}

omit [DecidableEq ν] in
theorem walkFrom_append (done xs ys : List ν) : walkFrom isName fs done (xs ++ ys) =
    (walkFrom isName fs done xs).bind fun _ => walkFrom isName fs (done ++ xs) ys := by
  induction xs generalizing done with
  | nil =>
    rw [List.nil_append, List.append_nil]
    rfl
  | cons x xs ih =>
    rw [List.cons_append, walkFrom, walkFrom]
    cases enter isName fs done x with
    | error r => rfl
    | ok _ =>
      simp only [Except.bind]
      by_cases hx : (fs (done ++ [x])).isSome = true
      · rw [if_pos hx, if_pos hx, ih, List.append_assoc, List.singleton_append]
        rfl
      · rw [if_neg hx, if_neg hx]

omit [DecidableEq ν] in
/-- From where a path leads its next names are followed. -/
theorem walk_append {xs : List ν} (h : walk isName fs xs = .ok ()) (ys : List ν) :
    walk isName fs (xs ++ ys) = walkFrom isName fs xs ys := by
  unfold walk at h ⊢
  rw [walkFrom_append, h, List.nil_append]
  rfl

end Operations

section View

variable {ι ν κ : Type*} {root p q c : ι} {dir node : ι → Prop} {entry entry' : ι × ν → Option ι}
  {look look' : ι → Option (Node κ)} {A B path rest : List ν} {n m : ν}

/-- The hierarchy that a table of entries and the looks of its nodes stand for. -/
def view (entry : ι × ν → Option ι) (look : ι → Option (Node κ)) (root : ι) : Files ν κ :=
  fun path => (resolve entry root path).bind look

/-- The nodes of a table look like what they are. -/
structure Shows (dir node : ι → Prop) (look : ι → Option (Node κ)) : Prop where
  dir_iff : ∀ i, dir i ↔ look i = some .directory
  node_iff : ∀ i, node i ↔ (look i).isSome = true

theorem view_of_resolve (h : resolve entry root path = some c) :
    view entry look root path = look c := by
  rw [view, h, Option.bind_some]

theorem view_child (h : resolve entry root A = some p) (n : ν) :
    view entry look root (A ++ [n]) = (entry (p, n)).bind look := by
  simp [view, resolve_append_of_some h]

section Tree

variable (h : IsTree root dir node entry) (hshows : Shows dir node look)

include h in
/-- Where a path leads there is a node. -/
theorem node_of_resolve (hpath : resolve entry root path = some c) : node c := by
  cases path using List.reverseRecOn with
  | nil =>
    obtain rfl := Option.some.inj hpath
    exact h.root_node
  | append_singleton path n =>
    obtain ⟨j, _, hj⟩ := resolve_concat_eq_some.mp hpath
    exact h.child_node hj

include h hshows in
theorem view_isSome : (view entry look root path).isSome = true ↔
    ∃ i, resolve entry root path = some i := by
  unfold view
  cases hpath : resolve entry root path with
  | none => simp
  | some i =>
    have hlook := (hshows.node_iff i).mp (node_of_resolve h hpath)
    simpa using hlook

include h hshows in
theorem view_eq_none : view entry look root path = none ↔ resolve entry root path = none := by
  rw [← Option.not_isSome_iff_eq_none, view_isSome h hshows, Option.eq_none_iff_forall_ne_some]
  simp

include h hshows in
/-- A directory is empty when it has no entries. -/
theorem isEmpty_view (hpath : resolve entry root path = some c) :
    IsEmpty (view entry look root) path ↔ ∀ n, entry (c, n) = none := by
  refine forall_congr' fun n => ?_
  rw [view_eq_none h hshows, resolve_append_of_some hpath, resolve_cons]
  cases entry (c, n) with
  | none => simp
  | some j => simp

/-- A node looks another way. -/
theorem view_edit [DecidableEq ν] [DecidableEq ι] (h : IsTree root dir node entry)
    (hA : resolve entry root A = some p) {v : Option (Node κ)} (hp : look' p = v)
    (hlook : ∀ i, i ≠ p → look' i = look i) :
    view entry look' root = update (view entry look root) A v := by
  funext path
  by_cases hpath : path = A
  · rw [hpath, update_self, view_of_resolve hA, hp]
  · rw [update_of_ne hpath]
    unfold view
    cases hi : resolve entry root path with
    | none => rfl
    | some i =>
      have hne : i ≠ p := fun heq => hpath (h.path_unique (heq ▸ hi) hA)
      exact hlook i hne

section Entry

variable [DecidableEq ι] [DecidableEq ν]

/-- An entry matters to the paths through it only. -/
theorem resolve_update_elsewhere (h : IsTree root dir node entry)
    (hA : resolve entry root A = some p) (v : Option ι) (hpath : ¬ A ++ [n] <+: path) :
    resolve (update entry (p, n) v) root path = resolve entry root path := by
  apply resolve_congr
  intro xs x ys j heq hxs
  rw [update_of_ne]
  intro hkey
  obtain ⟨rfl, rfl⟩ := Prod.mk.inj hkey
  obtain rfl := h.path_unique hxs hA
  exact hpath ⟨ys, by simp [heq]⟩

theorem resolve_update_below (h : IsTree root dir node entry)
    (hA : resolve entry root A = some p) (v : Option ι) (rest : List ν) :
    resolve (update entry (p, n) v) root (A ++ n :: rest) =
      v.bind fun j => resolve (update entry (p, n) v) j rest := by
  have hstill : resolve (update entry (p, n) v) root A = some p := by
    rw [resolve_update_elsewhere h hA v (concat_not_prefix_self A n)]
    exact hA
  rw [resolve_append_of_some hstill, resolve_cons, update_self]

/-- A new node is entered. -/
theorem view_link (h : IsTree root dir node entry) (hA : resolve entry root A = some p)
    (free : entry (p, n) = none) (fresh : ¬ node c) {v : Node κ} (hc : look' c = some v)
    (hlook : ∀ i, i ≠ c → look' i = look i) :
    view (update entry (p, n) (some c)) look' root =
      update (view entry look root) (A ++ [n]) (some v) := by
  have hleaf (x : ν) : update entry (p, n) (some c) (c, x) = none := by
    rw [update_of_ne]
    · by_contra hx
      obtain ⟨j, hj⟩ := Option.ne_none_iff_exists'.mp hx
      exact fresh (h.dir_node (h.parent_dir hj))
    · intro hkey
      obtain ⟨rfl, rfl⟩ := Prod.mk.inj hkey
      exact fresh (node_of_resolve h hA)
  funext path
  by_cases hpath : A ++ [n] <+: path
  · obtain ⟨rest, rfl⟩ := hpath
    rw [List.append_assoc, List.singleton_append]
    have hold : view entry look root (A ++ n :: rest) = none := by
      rw [view, resolve_append_of_some hA, resolve_cons, free]
      rfl
    cases rest with
    | nil =>
      rw [update_self, view, resolve_update_below h hA]
      exact hc
    | cons x rest =>
      rw [update_of_ne (by simp), hold, view, resolve_update_below h hA, Option.bind_some,
        resolve_cons, hleaf x]
      rfl
  · have hne : path ≠ A ++ [n] := fun heq => hpath (heq ▸ List.prefix_refl _)
    rw [update_of_ne hne, view, view, resolve_update_elsewhere h hA _ hpath]
    cases hi : resolve entry root path with
    | none => rfl
    | some i => exact hlook i fun heq => fresh (heq ▸ node_of_resolve h hi)

/-- A leaf is removed. -/
theorem view_unlink (h : IsTree root dir node entry) (hA : resolve entry root A = some p)
    (hc : entry (p, n) = some c) (leaf : ∀ x, entry (c, x) = none)
    (hlook : ∀ i, i ≠ c → look' i = look i) :
    view (update entry (p, n) none) look' root =
      update (view entry look root) (A ++ [n]) none := by
  have hcpath : resolve entry root (A ++ [n]) = some c :=
    resolve_concat_eq_some.mpr ⟨p, hA, hc⟩
  funext path
  by_cases hpath : A ++ [n] <+: path
  · obtain ⟨rest, rfl⟩ := hpath
    have hnew : view (update entry (p, n) none) look' root (A ++ [n] ++ rest) = none := by
      rw [List.append_assoc, List.singleton_append, view, resolve_update_below h hA]
      rfl
    rw [hnew]
    cases rest with
    | nil => rw [List.append_nil, update_self]
    | cons x rest =>
      rw [update_of_ne (by simp), view, resolve_append_of_some hcpath, resolve_cons, leaf x]
      rfl
  · have hne : path ≠ A ++ [n] := fun heq => hpath (heq ▸ List.prefix_refl _)
    rw [update_of_ne hne, view, view, resolve_update_elsewhere h hA _ hpath]
    cases hi : resolve entry root path with
    | none => rfl
    | some i => exact hlook i fun heq => hne (h.path_unique (heq ▸ hi) hcpath)

/-- A subtree is moved, to a free name or over a leaf. -/
theorem view_moved (h : IsTree root dir node entry) (hA : resolve entry root A = some p)
    (hB : resolve entry root B = some q) (hc : entry (p, n) = some c)
    (outside : ¬ Relation.ReflTransGen (ChildOf entry) q c)
    (leaf : ∀ t, entry (q, m) = some t → ∀ x, entry (t, x) = none) (hne : (p, n) ≠ (q, m))
    (hlook : ∀ i, entry (q, m) ≠ some i → look' i = look i) :
    view (IsTree.moved entry p n q m c) look' root =
      moveTree (view entry look root) (A ++ [n]) (B ++ [m]) := by
  -- nothing but the replaced leaf is found at the new name, so what is found elsewhere is kept
  have hkept {path : List ν} {i : ι} (hi : resolve entry root path = some i)
      (hnew : path ≠ B ++ [m]) : look' i = look i := by
    refine hlook i fun ht => hnew (h.path_unique hi ?_)
    exact resolve_concat_eq_some.mpr ⟨q, hB, ht⟩
  funext path
  unfold moveTree
  split
  next hpath =>
    obtain ⟨rest, rfl⟩ := hpath
    rw [List.drop_left, List.append_assoc, List.singleton_append, List.append_assoc,
      List.singleton_append, view, view, h.resolve_moved_new hA hB hc outside]
    cases hi : resolve entry root (A ++ n :: rest) with
    | none => rfl
    | some i =>
      refine hkept hi fun heq => ?_
      cases rest using List.reverseRecOn with
      | nil =>
        obtain ⟨rfl, hnm⟩ := List.append_inj' heq rfl
        obtain rfl := Option.some.inj (hA.symm.trans hB)
        exact hne (by rw [(List.singleton_inj.mp hnm : n = m)])
      | append_singleton rest x =>
        rw [← List.cons_append, ← List.append_assoc] at heq
        obtain ⟨rfl, _⟩ := List.append_inj' heq rfl
        have hcpath := resolve_concat_eq_some.mpr ⟨p, hA, hc⟩
        rw [← List.singleton_append, ← List.append_assoc, resolve_append_of_some hcpath] at hB
        exact outside (reaches_of_resolve hB)
  next hnew =>
    split
    next hold =>
      obtain ⟨rest, rfl⟩ := hold
      rw [List.append_assoc, List.singleton_append, view,
        h.resolve_moved_old hA hB hc leaf hne]
      rfl
    next hold =>
      rw [view, view, h.resolve_moved_elsewhere hA hB hold hnew]
      cases hi : resolve entry root path with
      | none => rfl
      | some i => exact hkept hi fun heq => hnew (heq ▸ List.prefix_refl _)

end Entry

end Tree

end View

end Hierarchy
