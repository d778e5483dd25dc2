import Pulpfs.Fuse.World
import Pulpfs.Meta.Listing
import Pulpfs.Foundations.SortedKeys

/-! `PulpfsReadDir`, and a directory read page by page while others change it. -/
namespace Pulpfs
open Transition SortedKeys

variable {σ : Type}

/-- The calls of `MetaClient` that listing a directory adds. -/
structure DirectoryClient (σ : Type) extends MetaClient σ where
  readDir : (inodeId : UInt64) → σ → Except Error (List DirectoryEntry) × σ

/-- The parent an inode was seen below last, or the inode itself. -/
def FuseServer.parentOf (server : FuseServer) (inodeId : UInt64) : UInt64 :=
  (server.parents[inodeId]?).getD inodeId

/-- What `AddDirEntry` appends to the buffer. -/
structure DirEntry where
  name : Bytes
  attr : Stat
  nextOffset : ℤ
  deriving DecidableEq

/-- The loop over the entries from an index on. -/
def addDirEntries : (index : ℕ) → List (Bytes × InodeAttrs) → List DirEntry
  | _, [] => []
  | index, entry :: entries =>
    ⟨entry.1, statFromAttrs entry.2, index + 1⟩ :: addDirEntries (index + 1) entries

/-- The entries put into the buffer, of which the first `size` bytes are sent. -/
inductive ReadDirReply where
  | err (errno : Errno)
  | buf (entries : List DirEntry) (size : UInt64)
  deriving DecidableEq

/-- `off` is an `off_t` and an index a `size_t`; no directory reaches the end of either. -/
def Mount.pulpfsReadDir (client : DirectoryClient σ) (m : Mount σ) (ino size : UInt64) (off : ℤ) :
    ReadDirReply × Mount σ :=
  match client.getAttr ino m.world with
  | (.error e, w) => (.err (toErrno e), { m with world := w })
  | (.ok dir, w) =>
    if dir.type ≠ .directory then (.err .enotdir, { m with world := w })
    else
      match client.readDir ino w with
      | (.error e, w) => (.err (toErrno e), { m with world := w })
      | (.ok listed, w) =>
        match client.getAttr (m.server.parentOf ino) w with
        | (parent, w) =>
          let entries := (ascii ".", dir) :: (ascii "..", parent.toOption.getD dir) ::
            listed.map fun entry => (entry.name, entry.attrs)
          let server := listed.foldl
            (fun server entry => server.rememberParent entry.attrs.inodeId ino) m.server
          let index := (max off 0).toNat
          (.buf (addDirEntries index (entries.drop index)) size, ⟨server, w⟩)

/-- The entries that lie in the part of the buffer that is sent, `entrySize` being the space
`fuse_add_direntry` needs for a name. The kernel ignores what is cut off. -/
def received (entrySize : Bytes → ℕ) : ℕ → List DirEntry → List DirEntry
  | _, [] => []
  | size, entry :: entries =>
    if entrySize entry.name ≤ size then
      entry :: received entrySize (size - entrySize entry.name) entries
    else []

def World.directoryClient [OffsetSort] : DirectoryClient World where
  toMetaClient := World.metaClient
  readDir inodeId w := w.query fun s => s.readDir inodeId

/-- A directory being read: the offset for the next page and the names returned so far. -/
structure DirStream where
  mount : Mount World
  offset : ℤ := 0
  names : List Bytes := []
  ended : Bool := false

/-- Another client changes the namespace, or the reader asks for a page. -/
inductive DirEvent where
  | call (c : Call)
  | page (size : UInt64)

namespace DirStream

def state (d : DirStream) : MetaState := d.mount.world.service.state

def setState (d : DirStream) (s : MetaState) : DirStream :=
  { d with mount := { d.mount with world := { d.mount.world with service := ⟨s⟩ } } }

/-- The reader takes in a page. One without entries is the last, one that failed is asked for
again. -/
def take (d : DirStream) (entries : List DirEntry) : DirStream :=
  { d with
    offset := (entries.getLast?.map DirEntry.nextOffset).getD d.offset
    names := d.names ++ entries.map DirEntry.name
    ended := entries.isEmpty }

def page [OffsetSort] (entrySize : Bytes → ℕ) (ino size : UInt64) (d : DirStream) : DirStream :=
  let result := d.mount.pulpfsReadDir World.directoryClient ino size d.offset
  let read := { d with mount := result.2 }
  match result.1 with
  | .err _ => read
  | .buf entries size => read.take (received entrySize size.toNat entries)

def step [OffsetSort] (entrySize : Bytes → ℕ) (ino : UInt64) (event : DirEvent) (d : DirStream) :
    Unit × DirStream :=
  match event with
  | .call c => ((), d.setState (d.state.call c).2)
  | .page size => ((), if d.ended then d else d.page entrySize ino size)

end DirStream

theorem addDirEntries_names (index : ℕ) (entries : List (Bytes × InodeAttrs)) :
    (addDirEntries index entries).map DirEntry.name = entries.map Prod.fst := by
  induction entries generalizing index with
  | nil => rfl
  | cons entry entries ih => rw [addDirEntries, List.map_cons, List.map_cons, ih]

/-- The last entry of the first ones is numbered by how many they are. -/
theorem nextOffset_of_initial {page : List DirEntry} {index : ℕ}
    {entries : List (Bytes × InodeAttrs)} (h : page <+: addDirEntries index entries) :
    (page.getLast?.map DirEntry.nextOffset).getD index = index + page.length := by
  induction page generalizing index entries with
  | nil => simp
  | cons entry page ih =>
    cases entries with
    | nil =>
      rw [addDirEntries, List.prefix_nil] at h
      contradiction
    | cons e entries =>
      rw [addDirEntries, List.cons_prefix_cons] at h
      obtain ⟨rfl, hrest⟩ := h
      have hlast := ih hrest
      cases page with
      | nil => simp
      | cons f page =>
        rw [List.getLast?_cons_cons]
        rw [List.getLast?_cons, Option.map_some, Option.getD_some] at hlast ⊢
        simp only [hlast, List.length_cons]
        push_cast
        omega

theorem received_isInitial (entrySize : Bytes → ℕ) (size : ℕ) (entries : List DirEntry) :
    received entrySize size entries <+: entries := by
  induction entries generalizing size with
  | nil => exact List.prefix_rfl
  | cons entry entries ih =>
    unfold received
    split
    · exact List.cons_prefix_cons.mpr ⟨rfl, ih _⟩
    · exact List.nil_prefix

theorem received_eq_nil {entrySize : Bytes → ℕ} {size : ℕ} {entries : List DirEntry}
    (hfits : ∀ name ∈ (entries.map DirEntry.name).head?, entrySize name ≤ size)
    (h : received entrySize size entries = []) : entries = [] := by
  cases entries with
  | nil => rfl
  | cons entry entries =>
    unfold received at h
    rw [if_pos (hfits entry.name rfl)] at h
    contradiction

/-- All the names a listing of a directory shows. -/
def MetaState.listedNames (s : MetaState) (ino : UInt64) : List Bytes :=
  ascii "." :: ascii ".." :: s.namesIn ino

section Page

variable [OffsetSort] {m : Mount World} {ino size : UInt64} {off : ℤ}

theorem directoryClient_getAttr (i : UInt64) (w : World) :
    World.directoryClient.getAttr i w = w.query fun s => s.getAttr i := rfl

theorem directoryClient_readDir (i : UInt64) (w : World) :
    World.directoryClient.readDir i w = w.query fun s => s.readDir i := rfl

/-- A request ends with an error and nothing remembered, or with a listing. -/
theorem pulpfsReadDir_cases (m : Mount World) (ino size : UInt64) (off : ℤ) :
    (∃ errno w, w.service = m.world.service ∧ w.deliveries = m.world.deliveries ∧
      m.pulpfsReadDir World.directoryClient ino size off = (.err errno, { m with world := w })) ∨
    ∃ dir parent listed, m.world.service.state.readDir ino = .ok listed ∧
      m.pulpfsReadDir World.directoryClient ino size off =
        (.buf (addDirEntries (max off 0).toNat (((ascii ".", dir) :: (ascii "..", parent) ::
            listed.map fun entry => (entry.name, entry.attrs)).drop (max off 0).toNat)) size,
          ⟨listed.foldl
            (fun server entry => server.rememberParent entry.attrs.inodeId ino) m.server,
            m.world.count.count.count⟩) := by
  unfold Mount.pulpfsReadDir
  simp only [directoryClient_getAttr, directoryClient_readDir]
  rcases hdir : m.world.query fun s => s.getAttr ino with ⟨dir, w⟩
  obtain rfl : w = m.world.count := by rw [← World.query_world m.world, hdir]
  cases dir with
  | error e => exact .inl ⟨_, m.world.count, rfl, rfl, rfl⟩
  | ok dir =>
    simp only
    split
    next => exact .inl ⟨_, m.world.count, rfl, rfl, rfl⟩
    next =>
      rcases hlisted : m.world.count.query fun s => s.readDir ino with ⟨listed, w⟩
      obtain rfl : w = m.world.count.count := by rw [← World.query_world m.world.count, hlisted]
      cases listed with
      | error e => exact .inl ⟨_, m.world.count.count, rfl, rfl, rfl⟩
      | ok listed =>
        have hread := World.query_ok (congrArg Prod.fst hlisted)
        rcases hparent : m.world.count.count.query fun s => s.getAttr (m.server.parentOf ino)
          with ⟨parent, w⟩
        obtain rfl : w = m.world.count.count.count := by
          rw [← World.query_world m.world.count.count, hparent]
        exact .inr ⟨dir, parent.toOption.getD dir, listed, hread, by simp only [hparent]⟩

/-- A reply with entries lists the directory from the offset on. -/
theorem pulpfsReadDir_buf {entries : List DirEntry} {sent : UInt64}
    (h : (m.pulpfsReadDir World.directoryClient ino size off).1 = .buf entries sent) :
    sent = size ∧ ∃ listed, listed.map Prod.fst =
        (m.world.service.state.listedNames ino).drop (max off 0).toNat ∧
      entries = addDirEntries (max off 0).toNat listed := by
  rcases pulpfsReadDir_cases m ino size off with ⟨errno, w, -, -, he⟩ | ⟨_, _, listed, hread, he⟩
  · rw [he] at h
    contradiction
  · rw [he] at h
    obtain ⟨rfl, rfl⟩ := ReadDirReply.buf.inj h
    refine ⟨rfl, _, ?_, rfl⟩
    rw [List.map_drop, List.map_cons, List.map_cons, List.map_map]
    show List.drop _ (_ :: _ :: listed.map DirectoryEntry.name) = _
    rw [MetaState.readDir_names hread]
    rfl

end Page

namespace DirStream

variable {entrySize : Bytes → ℕ} {ino : UInt64} {stays : Bytes → Prop} {d : DirStream}

/-- The names returned behind "." and "..". -/
def entries (d : DirStream) : List Bytes := d.names.drop 2

/-- The index among the entries of the directory at which the next page starts. -/
def index (d : DirStream) : ℕ := d.offset.toNat - 2

end DirStream

section

variable (entrySize : Bytes → ℕ) (ino : UInt64) (d : DirStream)

/-- A buffer has room for the first of the entries it is to return. -/
def DirEvent.Allowed : DirEvent → Prop
  | .call _ => True
  | .page size =>
    ∀ name ∈ ((d.state.listedNames ino).drop d.offset.toNat).head?, entrySize name ≤ size.toNat

/-- A page starts behind exactly those entries of the directory that sort at or before the last
one returned. -/
def DirEvent.Aligned : DirEvent → Prop
  | .call _ => True
  | .page _ => Resumes compare (d.state.namesIn ino) d.entries d.index

instance DirEvent.decidableAllowed (event : DirEvent) :
    Decidable (event.Allowed entrySize ino d) := by
  cases event with
  | call c => exact inferInstanceAs (Decidable True)
  | page size => exact inferInstanceAs (Decidable (∀ name ∈ _, _))

instance DirEvent.decidableAligned (event : DirEvent) : Decidable (event.Aligned ino d) := by
  cases event with
  | call c => exact inferInstanceAs (Decidable True)
  | page size => exact inferInstanceAs (Decidable (∀ last ∈ _, _))

end

/-- A page behind the first `k` names of a listing: what is missing of the dots, then entries. -/
theorem page_behind_dots {page names : List Bytes} {a b : Bytes} {k : ℕ}
    (h : page <+: (a :: b :: names).drop k) :
    (∀ n ∈ page.take (2 - k), n = a ∨ n = b) ∧ page.drop (2 - k) <+: names.drop (k - 2) := by
  match k with
  | 0 =>
    refine ⟨?_, h.drop 2⟩
    intro n hn
    simpa using (h.take 2).subset hn
  | 1 =>
    refine ⟨?_, h.drop 1⟩
    intro n hn
    exact .inr (by simpa using (h.take 1).subset hn)
  | k + 2 =>
    rw [Nat.sub_eq_zero_of_le (Nat.le_add_left 2 k)]
    exact ⟨by simp, h⟩

namespace DirStream

variable {entrySize : Bytes → ℕ} {ino : UInt64} {stays : Bytes → Prop} {d : DirStream}

/-- What was returned, when the names that stay have been in the directory all the time. -/
structure Listed (stays : Bytes → Prop) (d : DirStream) : Prop where
  offset : d.offset = d.names.length
  dots : ∀ n ∈ d.names.take 2, n = ascii "." ∨ n = ascii ".."
  sorted : d.entries.Pairwise fun a b => compare a b = .lt
  below : ∀ n, stays n → ∀ last ∈ d.entries.getLast?, (compare n last).isLE = true →
    n ∈ d.entries
  complete : d.ended = true → ∀ n, stays n → n ∈ d.entries

theorem Listed.remount (h : d.Listed stays) (m : Mount World) :
    ({ d with mount := m } : DirStream).Listed stays :=
  ⟨h.offset, h.dots, h.sorted, h.below, h.complete⟩

theorem Listed.take {s : MetaState} (h : d.Listed stays)
    (hstays : ∀ n, stays n → n ∈ s.namesIn ino)
    (hresumes : Resumes compare (s.namesIn ino) d.entries d.index)
    {listed : List (Bytes × InodeAttrs)} {page : List DirEntry}
    (hlisted : listed.map Prod.fst = (s.listedNames ino).drop d.offset.toNat)
    (hpage : page <+: addDirEntries d.offset.toNat listed)
    (hend : page = [] → addDirEntries d.offset.toNat listed = []) :
    (d.take page).Listed stays := by
  have hoffset : d.offset.toNat = d.names.length := by rw [h.offset, Int.toNat_natCast]
  have hindex : d.index = d.names.length - 2 := by rw [index, hoffset]
  have hnames := hpage.map DirEntry.name
  rw [addDirEntries_names, hlisted, hoffset] at hnames
  obtain ⟨hdots, hentries⟩ := page_behind_dots hnames
  rw [← hindex] at hentries
  have hread : (d.take page).entries =
      d.entries ++ (page.map DirEntry.name).drop (2 - d.names.length) := List.drop_append
  have hstart : d.entries = [] → d.index = 0 := by
    intro he
    rw [hindex, ← List.length_drop]
    exact List.length_eq_zero_iff.mpr he
  have hbelow := h.below
  constructor
  · show (page.getLast?.map DirEntry.nextOffset).getD d.offset =
      ((d.names ++ page.map DirEntry.name).length : ℤ)
    rw [List.length_append, List.length_map, h.offset, ← hoffset, nextOffset_of_initial hpage]
    push_cast
    rfl
  · show ∀ n ∈ (d.names ++ page.map DirEntry.name).take 2, _
    rw [List.take_append]
    intro n hn
    rcases List.mem_append.mp hn with hn | hn
    · exact h.dots n hn
    · exact hdots n hn
  · rw [hread]
    exact sorted_append_page h.sorted (s.namesIn_sorted ino) hresumes hentries
  · rw [hread]
    intro n hn last hlast hle
    exact mem_append_page (s.namesIn_sorted ino) hstays hresumes hstart hbelow hentries hn hlast hle
  · intro hended n hn
    have hpage := List.isEmpty_iff.mp hended
    -- nothing came, so nothing was left
    have hrest : (s.namesIn ino).drop d.index = [] := by
      have hnil := congrArg (List.map DirEntry.name) (hend hpage)
      rw [addDirEntries_names, hlisted, hoffset, List.map_nil, List.drop_eq_nil_iff] at hnil
      rw [List.drop_eq_nil_iff, hindex]
      exact Nat.sub_le_sub_right hnil 2
    rw [hread]
    exact List.mem_append_left _ (mem_of_drop_nil hstays hresumes hstart hbelow hrest hn)

theorem Listed.page [OffsetSort] (h : d.Listed stays) {size : UInt64}
    (hstays : ∀ n, stays n → n ∈ d.state.namesIn ino)
    (ha : (DirEvent.page size).Allowed entrySize ino d)
    (haligned : (DirEvent.page size).Aligned ino d) :
    (d.page entrySize ino size).Listed stays := by
  unfold DirStream.page
  simp only
  split
  next => exact h.remount _
  next entries sent hreply =>
    obtain ⟨rfl, listed, hlisted, rfl⟩ := pulpfsReadDir_buf hreply
    have hoffset : max d.offset 0 = d.offset := max_eq_left (h.offset ▸ Int.natCast_nonneg _)
    rw [hoffset] at hlisted ⊢
    have hread := h.remount (d.mount.pulpfsReadDir World.directoryClient ino sent d.offset).2
    refine hread.take hstays haligned hlisted (received_isInitial _ _ _) ?_
    apply received_eq_nil
    rw [addDirEntries_names, hlisted]
    exact ha

/-- The step lemma. -/
theorem Listed.step [OffsetSort] (h : d.Listed stays) {event : DirEvent}
    (hstays : ∀ n, stays n → n ∈ d.state.namesIn ino) (ha : event.Allowed entrySize ino d)
    (haligned : event.Aligned ino d) : (DirStream.step entrySize ino event d).2.Listed stays := by
  cases event with
  | call c => exact h.remount _
  | page size =>
    unfold DirStream.step
    simp only
    split
    · exact h
    · exact h.page hstays ha haligned

/-- The run lemma. -/
theorem Listed.run [OffsetSort] {events : List DirEvent} (h : d.Listed stays) (ino : UInt64)
    (hstart : ∀ n, stays n → n ∈ d.state.namesIn ino)
    (hevents : ∀ e ∈ trace (DirStream.step entrySize ino) events d,
      (e.input.Allowed entrySize ino e.before ∧ e.input.Aligned ino e.before) ∧
        ∀ n, stays n → n ∈ e.after.state.namesIn ino) :
    (final (DirStream.step entrySize ino) events d).Listed stays := by
  induction events generalizing d with
  | nil => exact h
  | cons event events ih =>
    rw [trace_cons, List.forall_mem_cons] at hevents
    obtain ⟨⟨⟨ha, haligned⟩, hnext⟩, hrest⟩ := hevents
    exact ih (h.step hstart ha haligned) hnext hrest

theorem Listed.count (h : d.Listed stays) (hended : d.ended = true) {n : Bytes} (hn : stays n)
    (hname : validateName n = .ok ()) : d.names.count n = 1 := by
  have hdots : n ∉ d.names.take 2 := by
    intro hmem
    rcases h.dots n hmem with rfl | rfl
    · exact absurd hname (by decide)
    · exact absurd hname (by decide)
  have hnodup : d.entries.Nodup := by
    refine h.sorted.imp ?_
    rintro a b hab rfl
    rw [Std.ReflOrd.compare_self] at hab
    contradiction
  rw [← List.take_append_drop 2 d.names, List.count_append, List.count_eq_zero_of_not_mem hdots,
    Nat.zero_add]
  exact List.count_eq_one_of_mem hnodup (h.complete hended n hn)

/-- The beginning of a stream: nothing is returned yet. -/
theorem listed_start (m : Mount World) (stays : Bytes → Prop) : Listed stays { mount := m } where
  offset := rfl
  dots := by simp
  sorted := by simp [entries]
  below := by simp [entries]
  complete := nofun

end DirStream

/-- In every interleaving in which each page starts behind exactly the entries that sort at or
before the last name returned, a name that is in the directory from the beginning to the end of
the stream is returned once. -/
theorem listed_once_of_run [OffsetSort] (entrySize : Bytes → ℕ) (m : Mount World)
    (chunkSize : UInt64) (nowNs : Int64) (calls : List Call)
    (hstart : m.world.service.state = final MetaState.call calls (.fresh chunkSize nowNs))
    (ino : UInt64) (events : List DirEvent)
    (hallowed : ∀ e ∈ trace (DirStream.step entrySize ino) events { mount := m },
      e.input.Allowed entrySize ino e.before)
    (haligned : ∀ e ∈ trace (DirStream.step entrySize ino) events { mount := m },
      e.input.Aligned ino e.before) :
    let last := final (DirStream.step entrySize ino) events { mount := m }
    last.ended = true → ∀ name, (ino, name) ∈ m.world.service.state.dentries →
      (∀ e ∈ trace (DirStream.step entrySize ino) events { mount := m },
        (ino, name) ∈ e.after.state.dentries) →
      last.names.count name = 1 := by
  intro last hended name hname hstays
  have hlisted : last.Listed fun n => n = name := by
    refine (DirStream.listed_start m _).run ino ?_ ?_
    · rintro n rfl
      exact MetaState.mem_namesIn.mpr hname
    · intro e he
      refine ⟨⟨hallowed e he, haligned e he⟩, ?_⟩
      rintro n rfl
      exact MetaState.mem_namesIn.mpr (hstays e he)
  have hnamed : m.world.service.state.Named :=
    hstart ▸ MetaState.named_run chunkSize nowNs calls
  exact hlisted.count hended rfl (hnamed _ hname)

/-- `FUSE_DIRENT_ALIGN(FUSE_NAME_OFFSET + namelen)`. -/
def direntSize (name : Bytes) : ℕ := (24 + name.length + 7) / 8 * 8

/-- Four files in the root. -/
def fourFiles : List Call :=
  ["a", "b", "c", "d"].map fun name =>
    ⟨fun _ => 5, .createFile kRootInodeId (ascii name) 0o644 0 0⟩

def listingMount : Mount World where
  server := .fresh ⟨ascii "bucket", ascii "pulpfs"⟩ (ascii "w")
  world := { World.fresh 4096 with
    service := ⟨final (@MetaState.call .insertion) fourFiles (.fresh 4096 0)⟩ }

/-- What is moved lies behind what was read before and after. -/
def renameBehind : List DirEvent :=
  [.page 64, .page 64,
    .call ⟨fun _ => 6, .rename kRootInodeId (ascii "d") kRootInodeId (ascii "e")⟩,
    .page 64, .page 64]

set_option maxRecDepth 8192 in
theorem listed_once_of_renameBehind :
    let last := final (@DirStream.step .insertion direntSize kRootInodeId) renameBehind
      { mount := listingMount }
    last.names.count (ascii "c") = 1 :=
  @listed_once_of_run .insertion direntSize listingMount 4096 0 fourFiles rfl kRootInodeId
    renameBehind (by decide +kernel) (by decide +kernel) (by decide +kernel) (ascii "c")
    (by decide +kernel) (by decide +kernel)

/-- The first file is removed when it has been returned, as recursive deletion does. -/
def unlinkRead : List DirEvent :=
  [.page 96, .call ⟨fun _ => 6, .unlink kRootInodeId (ascii "a")⟩, .page 96, .page 96]

set_option maxRecDepth 8192 in
theorem skipped_after_unlinkRead :
    let step := @DirStream.step .insertion direntSize kRootInodeId
    let last := final step unlinkRead { mount := listingMount }
    (∀ e ∈ trace step unlinkRead { mount := listingMount },
      e.input.Allowed direntSize kRootInodeId e.before) ∧
      last.ended = true ∧
      (kRootInodeId, ascii "b") ∈ listingMount.world.service.state.dentries ∧
      (∀ e ∈ trace step unlinkRead { mount := listingMount },
        (kRootInodeId, ascii "b") ∈ e.after.state.dentries) ∧
      last.names = [ascii ".", ascii "..", ascii "a", ascii "c", ascii "d"] := by
  refine ⟨by decide +kernel, by decide +kernel, by decide +kernel, by decide +kernel,
    by decide +kernel⟩

end Pulpfs
