import Pulpfs.Fuse.ReadDir
import Pulpfs.Meta.Renames

/-! The requests that look up and change names, and the parents a mount remembers: which
requests leave the parent that a listing reports for ".." the one in the table of dentries. -/
namespace Pulpfs
open RootedTree Function Transition

variable {σ : Type}

/-- The calls of `MetaClient` that look up and change names. -/
structure NameClient (σ : Type) extends DirectoryClient σ where
  lookup : (parentInodeId : UInt64) → (name : Bytes) → σ → Except Error InodeAttrs × σ
  mkdir : (parentInodeId : UInt64) → (name : Bytes) → (mode uid gid : UInt32) →
    σ → Except Error InodeAttrs × σ
  unlink : (parentInodeId : UInt64) → (name : Bytes) → σ → Except Error Unit × σ
  rmdir : (parentInodeId : UInt64) → (name : Bytes) → σ → Except Error Unit × σ
  rename : (oldParentInodeId : UInt64) → (oldName : Bytes) → (newParentInodeId : UInt64) →
    (newName : Bytes) → σ → Except Error Unit × σ

namespace Mount

variable (client : NameClient σ) (m : Mount σ)

/-- The common end of `PulpfsLookup` and `PulpfsMkdir`; `ok` is `fuse_reply_entry`. -/
def replyEntry (parent : UInt64) : Except Error InodeAttrs × σ → Except Errno EntryParam × Mount σ
  | (.error e, w) => (.error (toErrno e), { m with world := w })
  | (.ok attrs, w) =>
    (.ok (entryFromAttrs attrs), ⟨m.server.rememberParent attrs.inodeId parent, w⟩)

def pulpfsLookup (parent : UInt64) (name : Bytes) : Except Errno EntryParam × Mount σ :=
  m.replyEntry parent (client.lookup parent name m.world)

def pulpfsMkdir (parent : UInt64) (name : Bytes) (mode uid gid : UInt32) :
    Except Errno EntryParam × Mount σ :=
  m.replyEntry parent (client.mkdir parent name (mode &&& kModeMask) uid gid m.world)

def pulpfsUnlink (parent : UInt64) (name : Bytes) : FuseReply × Mount σ :=
  let result := client.unlink parent name m.world
  (replyOf result.1, { m with world := result.2 })

def pulpfsRmdir (parent : UInt64) (name : Bytes) : FuseReply × Mount σ :=
  let result := client.rmdir parent name m.world
  (replyOf result.1, { m with world := result.2 })

def pulpfsRename (oldParent : UInt64) (oldName : Bytes) (newParent : UInt64) (newName : Bytes)
    (flags : UInt32) : FuseReply × Mount σ :=
  if flags ≠ 0 then (.err .einval, m)
  else
    let result := client.rename oldParent oldName newParent newName m.world
    (replyOf result.1, { m with world := result.2 })

end Mount

/-- The handlers of these calls return the attributes of the directory, the client drops them. -/
def RaftCommandResponse.voidResult (response : RaftCommandResponse) : Except Error Unit :=
  response.inodeResult.map fun _ => ()

def World.nameClient [OffsetSort] : NameClient World where
  toDirectoryClient := World.directoryClient
  lookup parentInodeId name w := w.query fun s => s.lookup parentInodeId name
  mkdir parentInodeId name mode uid gid w :=
    w.propose (.mkdir parentInodeId name mode uid gid) RaftCommandResponse.inodeResult
  unlink parentInodeId name w :=
    w.propose (.unlink parentInodeId name) RaftCommandResponse.voidResult
  rmdir parentInodeId name w :=
    w.propose (.rmdir parentInodeId name) RaftCommandResponse.voidResult
  rename oldParentInodeId oldName newParentInodeId newName w :=
    w.propose (.rename oldParentInodeId oldName newParentInodeId newName)
      RaftCommandResponse.voidResult

/-- A request about names. -/
inductive NameRequest where
  | lookup (parent : UInt64) (name : Bytes)
  | mkdir (parent : UInt64) (name : Bytes) (mode uid gid : UInt32)
  | create (parent : UInt64) (name : Bytes) (mode uid gid : UInt32) (fi : FuseFileInfo)
  | unlink (parent : UInt64) (name : Bytes)
  | rmdir (parent : UInt64) (name : Bytes)
  | rename (oldParent : UInt64) (oldName : Bytes) (newParent : UInt64) (newName : Bytes)
    (flags : UInt32)
  | readdir (ino size : UInt64) (off : ℤ)
  deriving DecidableEq

inductive NameReply where
  | entry (reply : Except Errno EntryParam)
  | file (reply : FuseReply)
  | dir (reply : ReadDirReply)

/-- The inode a reply gives the kernel to send requests for. -/
def NameReply.inode : NameReply → Option UInt64
  | .entry (.ok e) => some e.ino
  | .file (.create e _) => some e.ino
  | _ => none

def Mount.serveName [OffsetSort] (m : Mount World) : NameRequest → NameReply × Mount World
  | .lookup parent name => (m.pulpfsLookup World.nameClient parent name).map .entry id
  | .mkdir parent name mode uid gid =>
    (m.pulpfsMkdir World.nameClient parent name mode uid gid).map .entry id
  | .create parent name mode uid gid fi =>
    (m.pulpfsCreate World.backend parent name mode uid gid fi).map .file id
  | .unlink parent name => (m.pulpfsUnlink World.nameClient parent name).map .file id
  | .rmdir parent name => (m.pulpfsRmdir World.nameClient parent name).map .file id
  | .rename oldParent oldName newParent newName flags =>
    (m.pulpfsRename World.nameClient oldParent oldName newParent newName flags).map .file id
  | .readdir ino size off =>
    (m.pulpfsReadDir World.directoryClient ino size off).map .dir id

/-- A mount and the inodes its replies gave the kernel. -/
structure NameSession where
  mount : Mount World
  known : List UInt64

namespace NameSession

/-- A new mount; the kernel knows the root. -/
def mounted (config : FuseServerConfig) (writerId : Bytes) (w : World) : NameSession :=
  ⟨⟨.fresh config writerId, w⟩, [kRootInodeId]⟩

def state (s : NameSession) : MetaState := s.mount.world.service.state

def step [OffsetSort] (request : NameRequest) (s : NameSession) : NameReply × NameSession :=
  let result := s.mount.serveName request
  (result.1, ⟨result.2, result.1.inode.toList ++ s.known⟩)

end NameSession

/-- The inode a listing reports for "..". -/
def ReadDirReply.dotDot : ReadDirReply → Option UInt64
  | .err _ => none
  | .buf entries _ =>
    (entries.find? fun entry => entry.name = ascii "..").map fun entry => entry.attr.ino

namespace Namespace

variable {ns : Namespace} {c d p q : UInt64} {n m : Bytes} {known : List UInt64}
  {parentOf : UInt64 → UInt64}

/-- The parent of a node is where its entry is; the root is its own. -/
def IsParent (ns : Namespace) (d p : UInt64) : Prop :=
  if d = kRootInodeId then p = kRootInodeId else ∃ n, ns.entry (p, n) = some d

/-- The parents remembered of known directories are those they have. -/
def Tracked (ns : Namespace) (known : List UInt64) (parentOf : UInt64 → UInt64) : Prop :=
  ∀ d ∈ known, ns.IsDir d → ns.IsParent d (parentOf d)

theorem WellFormed.isParent (hw : ns.WellFormed) (h : ns.entry (p, n) = some c) :
    ns.IsParent c p := by
  unfold IsParent
  rw [if_neg]
  · exact ⟨n, h⟩
  · rintro rfl
    exact hw.tree.root_unnamed _ h

theorem WellFormed.isParent_unique (hw : ns.WellFormed) (hp : ns.IsParent d p)
    (hq : ns.IsParent d q) : p = q := by
  unfold IsParent at hp hq
  by_cases hr : d = kRootInodeId
  · rw [if_pos hr] at hp hq
    rw [hp, hq]
  · rw [if_neg hr] at hp hq
    exact hw.tree.childOf_unique hp hq

/-- A directory's parent is a directory. -/
theorem WellFormed.parent_isDir (hw : ns.WellFormed) (h : ns.IsParent d p) : ns.IsDir p := by
  unfold IsParent at h
  split at h
  next => exact h ▸ hw.tree.root_dir
  next => exact hw.tree.parent_dir h.choose_spec

/-- What still has its entry still has its parent. -/
theorem IsParent.of_entry {ns' : Namespace} (h : ns.IsParent d p)
    (hentry : ∀ k, ns.entry k = some d → ns'.entry k = some d) : ns'.IsParent d p := by
  unfold IsParent at h ⊢
  split at h
  next hr => rwa [if_pos hr]
  next hr =>
    obtain ⟨n, hn⟩ := h
    rw [if_neg hr]
    exact ⟨n, hentry _ hn⟩

/-- The parent of one more inode is remembered. -/
theorem Tracked.remember (h : ∀ d ∈ known, d ≠ c → ns.IsDir d → ns.IsParent d (parentOf d))
    (hc : ns.IsParent c p) : ns.Tracked (c :: known) (update parentOf c p) := by
  intro d hd hdir
  by_cases hdc : d = c
  · rwa [hdc, update_self]
  · rw [update_of_ne hdc]
    exact h d ((List.mem_cons.mp hd).resolve_left hdc) hdc hdir

theorem Tracked.found (h : ns.Tracked known parentOf) (hw : ns.WellFormed)
    (hc : ns.entry (p, n) = some c) : ns.Tracked (c :: known) (update parentOf c p) :=
  .remember (fun d hd _ => h d hd) (hw.isParent hc)

theorem Tracked.create (h : ns.Tracked known parentOf) (hw : ns.WellFormed) (hp : ns.IsDir p)
    (free : ns.entry (p, n) = none) (room : ns.next.toNat + 1 < 2 ^ 64) (type : InodeType) :
    (ns.create (p, n) type).Tracked (ns.next :: known) (update parentOf ns.next p) := by
  refine .remember ?_ ((hw.create hp free room).isParent (update_self ..))
  intro d hd hne hdir
  rw [isDir_create _ type fun hd => hw.next_free (hw.tree.dir_node hd)] at hdir
  refine (h d hd (hdir.resolve_right fun hnew => hne hnew.1)).of_entry fun k hk => ?_
  refine (update_of_ne ?_ _ _).trans hk
  rintro rfl
  exact Option.some_ne_none d (hk.symm.trans free)

theorem Tracked.remove (h : ns.Tracked known parentOf) {k : DentryKey}
    (hk : ns.entry k = some c) : (ns.remove k c).Tracked known parentOf := by
  intro d hd hdir
  rw [isDir_remove] at hdir
  obtain ⟨hdir, hne⟩ := hdir
  refine (h d hd hdir).of_entry fun l hl => ?_
  refine (update_of_ne ?_ _ _).trans hl
  rintro rfl
  exact hne (Option.some.inj (hl.symm.trans hk))

/-- A move keeps the parents when it stays in one directory or moves nothing known. -/
theorem Tracked.move (h : ns.Tracked known parentOf) (hw : ns.WellFormed)
    (hk : ns.entry (p, n) = some c) (free : ns.entry (q, m) = none)
    (hstays : c ∈ known → ns.IsDir c → p = q) :
    (ns.move (p, n) (q, m) c).Tracked known parentOf := by
  intro d hd hdir
  have hparent := h d hd hdir
  by_cases hdc : d = c
  · subst hdc
    obtain rfl := hw.isParent_unique hparent (hw.isParent hk)
    unfold IsParent at hparent ⊢
    rw [if_neg fun hr => hw.tree.root_unnamed _ (hr ▸ hk)]
    exact ⟨m, hstays hd hdir ▸ update_self ..⟩
  · refine hparent.of_entry fun k hl => ?_
    refine (update_of_ne ?_ _ _).trans ((update_of_ne ?_ _ _).trans hl)
    · rintro rfl
      exact Option.some_ne_none d (hl.symm.trans free)
    · rintro rfl
      exact hdc (Option.some.inj (hl.symm.trans hk))

end Namespace

theorem FuseServer.parentOf_rememberParent (server : FuseServer) (c p : UInt64) :
    (server.rememberParent c p).parentOf = update server.parentOf c p := by
  funext d
  have hget : (server.parents.insert c p)[d]? =
      update (fun l => server.parents[l]?) c (some p) d :=
    congrFun (TreeMap.get_insert server.parents c p) d
  unfold parentOf rememberParent
  rw [hget]
  by_cases hd : d = c
  · rw [hd, update_self, update_self]
    rfl
  · rw [update_of_ne hd, update_of_ne hd]

/-- What a listing remembers is what the directory has in it. -/
theorem Namespace.Tracked.listing {ns : Namespace} {known : List UInt64} {server : FuseServer}
    {ino : UInt64} {listed : List DirectoryEntry} (hw : ns.WellFormed)
    (h : ns.Tracked known server.parentOf)
    (hlisted : ∀ entry ∈ listed, ns.entry (ino, entry.name) = some entry.attrs.inodeId) :
    ns.Tracked known (listed.foldl
      (fun server entry => server.rememberParent entry.attrs.inodeId ino) server).parentOf := by
  induction listed generalizing server with
  | nil => exact h
  | cons entry listed ih =>
    rw [List.forall_mem_cons] at hlisted
    obtain ⟨hentry, hlisted⟩ := hlisted
    refine ih ?_ hlisted
    rw [server.parentOf_rememberParent]
    exact fun d hd => h.found hw hentry d (List.mem_cons_of_mem _ hd)

section Listing

variable [OffsetSort] {m : Mount World} {ino : UInt64}

omit [OffsetSort] in
theorem dotDot_buf (dir parent : InodeAttrs) (listed : List (Bytes × InodeAttrs)) (size : UInt64)
    {index : ℕ} (h : index ≤ 1) :
    (ReadDirReply.buf (addDirEntries index
      (((ascii ".", dir) :: (ascii "..", parent) :: listed).drop index)) size).dotDot =
        some parent.inodeId := by
  have hdot : ascii "." ≠ ascii ".." := by decide
  match index with
  | 0 =>
    simp only [List.drop_zero, addDirEntries, ReadDirReply.dotDot, List.find?_cons, hdot,
      decide_false, decide_true, Option.map_some, statFromAttrs]
  | 1 =>
    simp only [List.drop_succ_cons, List.drop_zero, addDirEntries, ReadDirReply.dotDot,
      List.find?_cons, decide_true, Option.map_some, statFromAttrs]

/-- A directory is answered with ".." as the parent remembered of it, or as itself. -/
theorem pulpfsReadDir_dotDot (hanswered : ∀ n, m.world.deliveries n = .answered)
    (hw : m.world.service.state.names.WellFormed) (hdir : m.world.service.state.names.IsDir ino)
    (size : UInt64) {off : ℤ} (hoff : off ≤ 1) :
    (m.pulpfsReadDir World.directoryClient ino size off).1.dotDot =
      some (if m.server.parentOf ino ∈ m.world.service.state.inodes then m.server.parentOf ino
        else ino) := by
  obtain ⟨dir, hino, htype⟩ := MetaState.names_isDir.mp hdir
  obtain ⟨listed, hlisted, -⟩ := MetaState.readDir_ok hw hino htype
  have hfirst : m.world.query (fun s => s.getAttr ino) = (.ok dir, m.world.count) :=
    World.query_answered (hanswered _) (by simp only [MetaState.getAttr, hino])
  have hsecond : m.world.count.query (fun s => s.readDir ino) = (.ok listed, m.world.count.count) :=
    World.query_answered (w := m.world.count) (hanswered _) hlisted
  have hstored := MetaState.treeInvariant_of_wellFormed hw
  have hindex : (max off 0).toNat ≤ 1 := by omega
  unfold Mount.pulpfsReadDir
  simp only [directoryClient_getAttr, directoryClient_readDir, hfirst, hsecond, htype, ne_eq,
    not_true, if_false, dotDot_buf _ _ _ _ hindex]
  congr 1
  split
  next hparent =>
    obtain ⟨parent, hparent⟩ := MetaState.names_isNode.mp (MetaState.mem_inodes.mp hparent)
    have hthird : m.world.count.count.query (fun s => s.getAttr (m.server.parentOf ino)) =
        (.ok parent, m.world.count.count.count) :=
      World.query_answered (w := m.world.count.count) (hanswered _) (by
        simp only [World.count, MetaState.getAttr, hparent])
    rw [hthird]
    exact hstored.stored _ _ hparent
  next hparent =>
    have hnone : m.world.service.state.inodes[m.server.parentOf ino]? = none :=
      Std.ExtTreeMap.getElem?_eq_none hparent
    have hmissing : m.world.service.state.getAttr (m.server.parentOf ino) = .error
        (makeError (.notFound (toDecimal (m.server.parentOf ino))) "inode not found") := by
      simp only [MetaState.getAttr, hnone]
    have hthird : m.world.count.count.query (fun s => s.getAttr (m.server.parentOf ino)) =
        (overGrpc _ (.error _), m.world.count.count.count) :=
      World.query_refused (w := m.world.count.count) (hanswered _) hmissing
    rw [hthird]
    exact hstored.stored _ _ hino

end Listing

section Answers

variable [OffsetSort] {w : World} {c : Command} {e : Error} {a : InodeAttrs} {s' : MetaState}

/-- A command that is carried out is answered with its attributes. -/
theorem World.propose_carriedOut (hd : w.deliveries w.calls = .answered)
    (h : w.service.state.execute (w.clocks w.calls) c = (.ok (.attrs a), s')) :
    w.propose c RaftCommandResponse.inodeResult = (.ok a, w.applied c) ∧
      w.propose c RaftCommandResponse.voidResult = (.ok (), w.applied c) ∧
      (w.applied c).service.state = s' := by
  have hok := congrArg Prod.fst h
  exact ⟨World.propose_answered hd hok, World.propose_answered hd hok,
    (World.applied_state c).trans (congrArg Prod.snd h)⟩

theorem World.propose_error (hd : w.deliveries w.calls = .answered)
    (h : w.service.state.execute (w.clocks w.calls) c = (.error e, s')) :
    (∃ e', w.propose c RaftCommandResponse.inodeResult = (.error e', w.applied c)) ∧
      (∃ e', w.propose c RaftCommandResponse.voidResult = (.error e', w.applied c)) ∧
      (w.applied c).service.state = s' := by
  have herr := congrArg Prod.fst h
  exact ⟨⟨_, World.propose_refused hd herr⟩, ⟨_, World.propose_refused hd herr⟩,
    (World.applied_state c).trans (congrArg Prod.snd h)⟩

end Answers

/-- A call whose number no other gets: `mkdir` and `create` do not come to the last one. -/
def NameRequest.HasRoom (request : NameRequest) (s : NameSession) : Prop :=
  match request with
  | .mkdir .. => s.state.nextInodeId.toNat + 1 < 2 ^ 64
  | .create .. => s.state.nextInodeId.toNat + 1 < 2 ^ 64
  | _ => True

/-- A rename that the service carries out and that moves a directory the kernel knows to another
directory. -/
def NameRequest.MovesKnown (request : NameRequest) (s : NameSession) : Prop :=
  match request with
  | .rename oldParent oldName newParent newName flags =>
    flags = 0 ∧ oldParent ≠ newParent ∧
      (s.state.rename (s.mount.world.clocks s.mount.world.calls) oldParent oldName newParent
        newName).1.isOk = true ∧
      ∃ ino ∈ s.known, s.state.dentries[(oldParent, oldName)]? = some ino ∧
        ∃ a ∈ s.state.inodes[ino]?, a.type = .directory
  | _ => False

section

variable (request : NameRequest) (s : NameSession)

/-- What keeps ".." right. -/
def NameRequest.Keeps : Prop := request.HasRoom s ∧ ¬ request.MovesKnown s

instance NameRequest.decidableHasRoom : Decidable (request.HasRoom s) :=
  match request with
  | .mkdir .. => Nat.decLt _ _
  | .create .. => Nat.decLt _ _
  | .lookup .. => instDecidableTrue
  | .unlink .. => instDecidableTrue
  | .rmdir .. => instDecidableTrue
  | .rename .. => instDecidableTrue
  | .readdir .. => instDecidableTrue

instance NameRequest.decidableMovesKnown : Decidable (request.MovesKnown s) :=
  match request with
  | .rename .. => inferInstanceAs (Decidable (_ ∧ _ ∧ _ ∧ ∃ ino ∈ s.known, _ ∧
      ∃ a ∈ s.state.inodes[ino]?, a.type = .directory))
  | .mkdir .. => instDecidableFalse
  | .create .. => instDecidableFalse
  | .lookup .. => instDecidableFalse
  | .unlink .. => instDecidableFalse
  | .rmdir .. => instDecidableFalse
  | .readdir .. => instDecidableFalse

instance NameRequest.decidableKeeps : Decidable (request.Keeps s) :=
  inferInstanceAs (Decidable (_ ∧ ¬ _))

end

namespace NameSession

/-- Every directory the kernel knows is listed with its parent as "..". -/
def FollowsTree [OffsetSort] (s : NameSession) : Prop :=
  ∀ ino ∈ s.known, (∃ a ∈ s.state.inodes[ino]?, a.type = .directory) →
    ∀ (size : UInt64) (off : ℤ), off ≤ 1 →
      ∃ p, (s.mount.pulpfsReadDir World.directoryClient ino size off).1.dotDot = some p ∧
        s.state.names.IsParent ino p

/-- The calls are answered from a tree, and the parents remembered are right. -/
structure Tracks (s : NameSession) : Prop where
  answered : ∀ n, s.mount.world.deliveries n = .answered
  wellFormed : s.state.names.WellFormed
  tracked : s.state.names.Tracked s.known s.mount.server.parentOf

theorem Tracks.of_state {m : Mount World} {known : List UInt64} {st : MetaState}
    (hstate : m.world.service.state = st) (answered : ∀ n, m.world.deliveries n = .answered)
    (wellFormed : st.names.WellFormed) (tracked : st.names.Tracked known m.server.parentOf) :
    Tracks ⟨m, known⟩ := by
  subst hstate
  exact ⟨answered, wellFormed, tracked⟩

variable [OffsetSort] {s : NameSession}

theorem Tracks.followsTree (h : s.Tracks) : s.FollowsTree := by
  intro ino hknown hdir size off hoff
  have hdir := MetaState.names_isDir.mpr hdir
  have hparent := h.tracked ino hknown hdir
  have hnode := h.wellFormed.tree.dir_node (h.wellFormed.parent_isDir hparent)
  have hmem : s.mount.server.parentOf ino ∈ s.mount.world.service.state.inodes :=
    MetaState.mem_inodes.mpr hnode
  refine ⟨_, pulpfsReadDir_dotDot h.answered h.wellFormed hdir size hoff, ?_⟩
  rwa [if_pos hmem]

/-- A request that is answered with a status remembers nothing and gives the kernel nothing. -/
theorem Tracks.status (h : s.Tracks) (c : Command)
    (hc : (s.state.execute (s.mount.world.clocks s.mount.world.calls) c).2.names.WellFormed ∧
      (s.state.execute (s.mount.world.clocks s.mount.world.calls) c).2.names.Tracked s.known
        s.mount.server.parentOf) :
    let result := s.mount.world.propose c RaftCommandResponse.voidResult
    Tracks ⟨{ s.mount with world := result.2 },
      (NameReply.file (Mount.replyOf result.1)).inode.toList ++ s.known⟩ := by
  have happlied : (s.mount.world.deliveries s.mount.world.calls).isApplied = true := by
    rw [h.answered]
    rfl
  obtain ⟨result, hresult⟩ : ∃ result, s.mount.world.propose c RaftCommandResponse.voidResult =
      (result, s.mount.world.applied c) := World.propose_applied happlied
  have hnone : (NameReply.file (Mount.replyOf result)).inode = none := by
    cases result with
    | ok _ => rfl
    | error e => rfl
  simp only [hresult, hnone, Option.toList_none, List.nil_append]
  exact .of_state (World.applied_state c) h.answered hc.1 hc.2

omit [OffsetSort] in
theorem Tracks.removed (h : s.Tracks) {p : UInt64} {n : Bytes} {r : MetaState.Result InodeAttrs}
    (hr : (∃ e, r = (.error e, s.state)) ∨ ∃ a s' id, r = (.ok a, s') ∧
      s.state.names.entry (p, n) = some id ∧ (∀ m, s.state.names.entry (id, m) = none) ∧
      s'.names = s.state.names.remove (p, n) id) :
    r.2.names.WellFormed ∧ r.2.names.Tracked s.known s.mount.server.parentOf := by
  rcases hr with ⟨e, rfl⟩ | ⟨a, s', id, rfl, hk, leaf, hn⟩
  · exact ⟨h.wellFormed, h.tracked⟩
  · show s'.names.WellFormed ∧ s'.names.Tracked _ _
    rw [hn]
    exact ⟨h.wellFormed.remove hk leaf, h.tracked.remove hk⟩

omit [OffsetSort] in
/-- A rename within a directory, or of what is not a known directory, or that fails. -/
theorem Tracks.renamed (h : s.Tracks) (clock : Clock) {p q : UInt64} {n m : Bytes}
    (hstays : (s.state.rename clock p n q m).1.isOk = true → ∀ id ∈ s.known,
      s.state.names.entry (p, n) = some id → s.state.names.IsDir id → p = q) :
    (s.state.rename clock p n q m).2.names.WellFormed ∧
      (s.state.rename clock p n q m).2.names.Tracked s.known s.mount.server.parentOf := by
  have hw := h.wellFormed
  rcases MetaState.rename_names clock p n q m hw with ⟨e, hr⟩ | ⟨a, s', hr, -, hsteps⟩
  · rw [hr]
    exact ⟨hw, h.tracked⟩
  · rw [hr] at hstays ⊢
    refine ⟨hw.steps hsteps, ?_⟩
    show s'.names.Tracked _ _
    obtain ⟨id, hk, -, -, ⟨-, rfl⟩ | ⟨hl, hn⟩ | ⟨target, hl, hne, leaf, hn⟩⟩ :=
      MetaState.rename_ok_names hw hr
    · exact h.tracked
    · rw [hn]
      exact h.tracked.move hw hk hl fun hid hdir => hstays rfl id hid hk hdir
    · rw [hn]
      have hkeys : (p, n) ≠ (q, m) := fun he =>
        hne (Option.some.inj (hl.symm.trans (he ▸ hk)))
      have hstill : (s.state.names.remove (q, m) target).entry (p, n) = some id :=
        (update_of_ne hkeys _ _).trans hk
      refine (h.tracked.remove hl).move (hw.remove hl leaf) hstill (update_self ..) ?_
      intro hid hdir
      rw [Namespace.isDir_remove] at hdir
      exact hstays rfl id hid hk hdir.1

omit [OffsetSort] in
theorem Tracks.created (h : s.Tracks) (clock : Clock) (p : UInt64) (n : Bytes) (type : InodeType)
    (mode uid gid : UInt32) (room : s.state.nextInodeId.toNat + 1 < 2 ^ 64) :
    (∃ e, s.state.createNode clock p n type mode uid gid = (.error e, s.state)) ∨
    ∃ a s', s.state.createNode clock p n type mode uid gid = (.ok a, s') ∧
      s'.names.WellFormed ∧ s'.names.Tracked (a.inodeId :: s.known)
        (s.mount.server.rememberParent a.inodeId p).parentOf := by
  have hw := h.wellFormed
  rcases MetaState.createNode_names clock p n type mode uid gid hw with
    ⟨e, hr⟩ | ⟨a, s', hr, hid, hdir, free, hn⟩
  · exact .inl ⟨e, hr⟩
  · refine .inr ⟨a, s', hr, ?_, ?_⟩
    · rw [hn]
      exact hw.create hdir free room
    · rw [hn, hid, FuseServer.parentOf_rememberParent]
      exact h.tracked.create hw hdir free room type

/-- What `PulpfsLookup` finds has its entry there. -/
theorem Tracks.lookup (h : s.Tracks) (parent : UInt64) (name : Bytes) :
    (step (.lookup parent name) s).2.Tracks := by
  unfold step Mount.serveName Mount.pulpfsLookup
  simp only [World.nameClient]
  rcases hlookup : s.mount.world.query fun st => st.lookup parent name with ⟨result, w⟩
  obtain rfl : w = s.mount.world.count := by rw [← World.query_world s.mount.world, hlookup]
  cases result with
  | error e => exact ⟨h.answered, h.wellFormed, h.tracked⟩
  | ok a =>
    have hread := World.query_ok (congrArg Prod.fst hlookup)
    obtain ⟨-, c, hk, hc⟩ := MetaState.lookup_eq_ok.mp hread
    obtain rfl := (MetaState.treeInvariant_of_wellFormed h.wellFormed).stored c a hc
    refine ⟨h.answered, h.wellFormed, ?_⟩
    show s.state.names.Tracked (a.inodeId :: s.known)
      (s.mount.server.rememberParent a.inodeId parent).parentOf
    rw [FuseServer.parentOf_rememberParent]
    exact h.tracked.found h.wellFormed hk

/-- The call behind `PulpfsMkdir` and `PulpfsCreate`. -/
theorem Tracks.proposed (h : s.Tracks) (c : Command) (parent : UInt64) (name : Bytes)
    (type : InodeType) (mode uid gid : UInt32)
    (hc : ∀ clock, s.state.execute clock c =
      (s.state.createNode clock parent name type mode uid gid).map .attrs)
    (room : s.state.nextInodeId.toNat + 1 < 2 ^ 64) :
    (∃ e w, s.mount.world.propose c RaftCommandResponse.inodeResult = (.error e, w) ∧
      Tracks ⟨{ s.mount with world := w }, s.known⟩) ∨
    ∃ a w, s.mount.world.propose c RaftCommandResponse.inodeResult = (.ok a, w) ∧
      Tracks ⟨⟨s.mount.server.rememberParent a.inodeId parent, w⟩, a.inodeId :: s.known⟩ := by
  have hd := h.answered s.mount.world.calls
  have hexec := hc (s.mount.world.clocks s.mount.world.calls)
  rcases h.created (s.mount.world.clocks s.mount.world.calls) parent name type mode uid gid room
    with ⟨e, hr⟩ | ⟨a, s', hr, hw, ht⟩
  · rw [hr] at hexec
    obtain ⟨⟨e', hpropose⟩, -, hstate⟩ := World.propose_error hd hexec
    exact .inl ⟨e', _, hpropose, .of_state hstate h.answered h.wellFormed h.tracked⟩
  · rw [hr] at hexec
    obtain ⟨hpropose, -, hstate⟩ := World.propose_carriedOut hd hexec
    exact .inr ⟨a, _, hpropose, .of_state hstate h.answered hw ht⟩

theorem Tracks.mkdir (h : s.Tracks) (parent : UInt64) (name : Bytes) (mode uid gid : UInt32)
    (room : s.state.nextInodeId.toNat + 1 < 2 ^ 64) :
    (step (.mkdir parent name mode uid gid) s).2.Tracks := by
  unfold step Mount.serveName Mount.pulpfsMkdir
  simp only [World.nameClient]
  rcases h.proposed (.mkdir parent name (mode &&& kModeMask) uid gid) parent name .directory
    (mode &&& kModeMask) uid gid (fun _ => rfl) room with
    ⟨e, w, hpropose, ht⟩ | ⟨a, w, hpropose, ht⟩
  · rw [hpropose]
    exact ht
  · rw [hpropose]
    exact ht

theorem Tracks.create (h : s.Tracks) (parent : UInt64) (name : Bytes) (mode uid gid : UInt32)
    (fi : FuseFileInfo) (room : s.state.nextInodeId.toNat + 1 < 2 ^ 64) :
    (step (.create parent name mode uid gid fi) s).2.Tracks := by
  unfold step Mount.serveName Mount.pulpfsCreate
  simp only [World.backend]
  rcases h.proposed (.createFile parent name (mode &&& kModeMask) uid gid) parent name .file
    (mode &&& kModeMask) uid gid (fun _ => rfl) room with
    ⟨e, w, hpropose, ht⟩ | ⟨a, w, hpropose, ht⟩
  · have hcreate : World.metaClient.createFile parent name (mode &&& kModeMask) uid gid
        s.mount.world = (.error e, w) := hpropose
    rw [hcreate]
    exact ht
  · have hcreate : World.metaClient.createFile parent name (mode &&& kModeMask) uid gid
        s.mount.world = (.ok a, w) := hpropose
    obtain ⟨layout, hrefresh⟩ := refreshLayout_eq
      { inodeId := a.inodeId, writable := isWritable fi.flags
        append := fi.flags &&& oAppend ≠ 0 } w
    rw [hcreate]
    simp only [hrefresh]
    exact ⟨ht.answered, ht.wellFormed, ht.tracked⟩

theorem Tracks.readdir (h : s.Tracks) (ino size : UInt64) (off : ℤ) :
    (step (.readdir ino size off) s).2.Tracks := by
  unfold step Mount.serveName
  simp only
  rcases pulpfsReadDir_cases s.mount ino size off with
    ⟨errno, w, hservice, hdeliveries, he⟩ | ⟨dir, parent, listed, hread, he⟩
  · rw [he]
    have hstate : w.service.state = s.state := congrArg MetaService.state hservice
    exact .of_state hstate (fun n => (congrFun hdeliveries n).trans (h.answered n)) h.wellFormed
      h.tracked
  · rw [he]
    refine ⟨h.answered, h.wellFormed, h.tracked.listing h.wellFormed fun entry hentry => ?_⟩
    obtain ⟨c, hk, hc⟩ := MetaState.mem_readDir hread hentry
    obtain rfl := (MetaState.treeInvariant_of_wellFormed h.wellFormed).stored c _ hc
    exact hk

/-- The step lemma. -/
theorem Tracks.step (h : s.Tracks) {request : NameRequest} (hroom : request.HasRoom s)
    (hstays : ¬ request.MovesKnown s) : (NameSession.step request s).2.Tracks := by
  cases request with
  | lookup parent name => exact h.lookup parent name
  | mkdir parent name mode uid gid => exact h.mkdir parent name mode uid gid hroom
  | create parent name mode uid gid fi => exact h.create parent name mode uid gid fi hroom
  | unlink parent name =>
    exact h.status (.unlink parent name) (h.removed (MetaState.unlink_names
      (s.mount.world.clocks s.mount.world.calls) parent name h.wellFormed))
  | rmdir parent name =>
    exact h.status (.rmdir parent name) (h.removed (MetaState.rmdir_names
      (s.mount.world.clocks s.mount.world.calls) parent name h.wellFormed))
  | rename oldParent oldName newParent newName flags =>
    unfold NameSession.step Mount.serveName Mount.pulpfsRename
    simp only
    split
    next => exact h
    next hflags =>
      apply h.status (.rename oldParent oldName newParent newName)
      apply h.renamed
      intro hok id hid hk hdir
      by_contra hne
      exact hstays ⟨not_not.mp hflags, hne, hok, id, hid, hk, MetaState.names_isDir.mp hdir⟩
  | readdir ino size off => exact h.readdir ino size off

/-- A directory that another parent than its own is remembered of. -/
theorem not_followsTree (hanswered : ∀ n, s.mount.world.deliveries n = .answered)
    (hw : s.state.names.WellFormed) {ino q : UInt64} {m : Bytes} (hknown : ino ∈ s.known)
    (hdir : s.state.names.IsDir ino) (hk : s.state.names.entry (q, m) = some ino)
    (hcached : s.mount.server.parentOf ino ≠ q) : ¬ s.FollowsTree := by
  intro hfollows
  obtain ⟨x, hx, hparent⟩ := hfollows ino hknown (MetaState.names_isDir.mp hdir) 0 0 (by decide)
  rw [pulpfsReadDir_dotDot hanswered hw hdir 0 (by decide)] at hx
  obtain rfl := Option.some.inj hx
  have hq := hw.isParent_unique hparent (hw.isParent hk)
  split at hq
  next => exact hcached hq
  next =>
    subst hq
    exact hw.tree.not_self hk

/-- A known directory that was moved is still reported with the parent it had. -/
theorem Tracks.not_follows (h : s.Tracks) {request : NameRequest}
    (hmoves : request.MovesKnown s) : ¬ (NameSession.step request s).2.FollowsTree := by
  cases request with
  | rename p n q m flags =>
    obtain ⟨rfl, hne, hok, ino, hknown, hk, hdir⟩ := hmoves
    obtain ⟨a, ha⟩ := Outcome.exists_of_isOk hok
    rcases hr : s.state.rename (s.mount.world.clocks s.mount.world.calls) p n q m with ⟨o, s'⟩
    obtain rfl : o = .ok a := (congrArg Prod.fst hr).symm.trans ha
    have hw := h.wellFormed
    have hdir := MetaState.names_isDir.mpr hdir
    obtain ⟨hw', hk', hdir'⟩ := MetaState.rename_parent hw hr hne hk
    have hexec : s.state.execute (s.mount.world.clocks s.mount.world.calls) (.rename p n q m) =
        (.ok (.attrs a), s') := congrArg (fun r => r.map Reply.attrs) hr
    obtain ⟨-, hpropose, hstate⟩ := World.propose_carriedOut (h.answered _) hexec
    -- the cache is as before, and so are the inodes the kernel knows
    have hafter : (NameSession.step (.rename p n q m 0) s).2 =
        ⟨⟨s.mount.server, s.mount.world.applied (.rename p n q m)⟩, s.known⟩ := by
      unfold NameSession.step Mount.serveName Mount.pulpfsRename
      simp only [World.nameClient, hpropose]
      rfl
    have hcached := hw.isParent_unique (h.tracked ino hknown hdir) (hw.isParent hk)
    subst hstate
    rw [hafter]
    refine not_followsTree h.answered hw' hknown (hdir' hdir) hk' ?_
    show s.mount.server.parentOf ino ≠ q
    rwa [hcached]
  | _ => exact hmoves.elim

/-- The run lemma. -/
theorem Tracks.run {requests : List NameRequest} (h : s.Tracks)
    (hkeeps : ∀ e ∈ trace NameSession.step requests s,
      e.input.HasRoom e.before ∧ ¬ e.input.MovesKnown e.before) :
    ∀ e ∈ trace NameSession.step requests s, e.before.Tracks ∧ e.after.Tracks := by
  refine (invariant h fun e he hb => ?_).2
  have hstep := hb.step (hkeeps e he).1 (hkeeps e he).2
  rwa [trace_step he] at hstep

omit [OffsetSort] in
theorem Tracks.mounted {w : World} (hanswered : ∀ n, w.deliveries n = .answered)
    (hw : w.service.state.names.WellFormed) (config : FuseServerConfig) (writerId : Bytes) :
    (NameSession.mounted config writerId w).Tracks := by
  refine ⟨hanswered, hw, ?_⟩
  intro ino hknown _
  obtain rfl := List.mem_singleton.mp hknown
  rfl

/-- As long as every state is right, no rename has moved what was known. -/
theorem Tracks.stays_of_followsTree {requests : List NameRequest} (h : s.Tracks)
    (hroom : ∀ e ∈ trace NameSession.step requests s, e.input.HasRoom e.before)
    (hfollows : ∀ e ∈ trace NameSession.step requests s, e.after.FollowsTree) :
    ∀ e ∈ trace NameSession.step requests s, ¬ e.input.MovesKnown e.before := by
  induction requests generalizing s with
  | nil => simp
  | cons request requests ih =>
    rw [trace_cons, List.forall_mem_cons] at hroom hfollows ⊢
    have hstays : ¬ request.MovesKnown s := fun hmoves => h.not_follows hmoves hfollows.1
    exact ⟨hstays, ih (h.step hroom.1 hstays) hroom.2 hfollows.2⟩

end NameSession

/-- In every run against a tree in which no rename takes a known directory to another directory
and no number is handed out past the last, every known directory is listed with its parent all
the time; and a run with numbers to spare in which it is has no such rename. -/
theorem dotDot_of_run [OffsetSort] (config : FuseServerConfig) (writerId : Bytes) (w : World)
    (hanswered : ∀ n, w.deliveries n = .answered) (chunkSize : UInt64) (nowNs : Int64)
    (calls : List Call)
    (hstate : w.service.state = final MetaState.call calls (.fresh chunkSize nowNs))
    (room : (MetaState.createdIds calls (.fresh chunkSize nowNs)).length < 2 ^ 64 - 2)
    (requests : List NameRequest) :
    let run := trace NameSession.step requests (.mounted config writerId w)
    (NameSession.mounted config writerId w).FollowsTree ∧
      ((∀ e ∈ run, e.input.Keeps e.before) → ∀ e ∈ run, e.after.FollowsTree) ∧
      ((∀ e ∈ run, e.input.HasRoom e.before) → (∀ e ∈ run, e.after.FollowsTree) →
        ∀ e ∈ run, e.input.Keeps e.before) := by
  intro run
  have hw : w.service.state.names.WellFormed :=
    hstate ▸ MetaState.wellFormed_run chunkSize nowNs calls room
  have hstart := NameSession.Tracks.mounted hanswered hw config writerId
  refine ⟨hstart.followsTree, fun hkeeps e he => ?_, fun hroom hfollows => ?_⟩
  · exact (hstart.run hkeeps e he).2.followsTree
  · exact fun e he => ⟨hroom e he, hstart.stays_of_followsTree hroom hfollows e he⟩

/-- An empty service that answers every call, and a new mount of it. -/
def freshNameSession : NameSession :=
  .mounted ⟨ascii "bucket", ascii "pulpfs"⟩ (ascii "w") (.fresh 4096)

/-- The directory `a` is renamed where it is. -/
def renameInPlace : List NameRequest :=
  [.mkdir 1 (ascii "a") 0o755 0 0, .mkdir 2 (ascii "b") 0o755 0 0,
    .rename 1 (ascii "a") 1 (ascii "c") 0, .readdir 1 4096 0, .lookup 1 (ascii "c")]

theorem dotDot_of_renameInPlace :
    @NameSession.FollowsTree .insertion freshNameSession ∧
      ∀ e ∈ trace (@NameSession.step .insertion) renameInPlace freshNameSession,
        @NameSession.FollowsTree .insertion e.after := by
  obtain ⟨hstart, hkeeps, -⟩ := @dotDot_of_run .insertion ⟨ascii "bucket", ascii "pulpfs"⟩
    (ascii "w") (.fresh 4096) (fun _ => rfl) 4096 0 [] rfl (by decide) renameInPlace
  exact ⟨hstart, hkeeps (by decide +kernel)⟩

/-- It is moved into the directory `b`. -/
def renameAway : List NameRequest :=
  [.mkdir 1 (ascii "a") 0o755 0 0, .mkdir 1 (ascii "b") 0o755 0 0,
    .rename 1 (ascii "a") 3 (ascii "a") 0]

/-- The directory is below `b`, and its ".." is still the root. -/
theorem stale_after_renameAway :
    let last := final (@NameSession.step .insertion) renameAway freshNameSession
    last.state.dentries[((3, ascii "a") : DentryKey)]? = some 2 ∧
      (last.mount.pulpfsReadDir (@World.directoryClient .insertion) 2 4096 0).1.dotDot = some 1 ∧
      ¬ @NameSession.FollowsTree .insertion last := by
  intro last
  have hentry : last.state.dentries[((3, ascii "a") : DentryKey)]? = some 2 := by decide +kernel
  have hreported : (last.mount.pulpfsReadDir (@World.directoryClient .insertion) 2 4096
      0).1.dotDot = some 1 := by decide +kernel
  refine ⟨hentry, hreported, fun hfollows => ?_⟩
  have hknown : 2 ∈ last.known := by decide +kernel
  have hdir : ∃ a ∈ last.state.inodes[(2 : UInt64)]?, a.type = .directory := by decide +kernel
  obtain ⟨p, hp, hparent⟩ := hfollows 2 hknown hdir 4096 0 (by decide)
  obtain rfl := Option.some.inj (hreported.symm.trans hp)
  rw [Namespace.IsParent, if_neg (by decide)] at hparent
  obtain ⟨n, hn⟩ := hparent
  have honly : ∀ d ∈ last.state.dentries.toList, d.2 = 2 → d.1.1 = 3 := by decide +kernel
  have hone : (1 : UInt64) = 3 := honly ((1, n), 2) (last.state.mem_dentries_toList.mpr hn) rfl
  exact absurd hone (by decide)

end Pulpfs
