import Pulpfs.Meta.Named
import Pulpfs.Meta.TreeInvariant
import Pulpfs.Meta.Returns

/-! What `ReadDir` lists of a directory: the names that `Lookup` finds there, in their order and
with the attributes it finds. -/
namespace Pulpfs
open Transition

namespace MetaState

variable {s : MetaState} {i : UInt64}

/-- The names of the entries of a directory, in their order. -/
def namesIn (s : MetaState) (i : UInt64) : List Bytes :=
  (s.dentries.toList.filter fun d => d.1.1 = i).map fun d => d.1.2

theorem mem_namesIn {n : Bytes} : n ∈ s.namesIn i ↔ (i, n) ∈ s.dentries := by
  rw [Std.ExtTreeMap.mem_iff_isSome_getElem?, Option.isSome_iff_exists]
  simp only [namesIn, List.mem_map, List.mem_filter, decide_eq_true_eq]
  constructor
  · rintro ⟨⟨⟨p, m⟩, c⟩, ⟨hd, rfl⟩, rfl⟩
    exact ⟨c, s.mem_dentries_toList.mp hd⟩
  · rintro ⟨c, hc⟩
    exact ⟨((i, n), c), ⟨s.mem_dentries_toList.mpr hc, rfl⟩, rfl⟩

theorem namesIn_sorted (s : MetaState) (i : UInt64) :
    (s.namesIn i).Pairwise fun a b => compare a b = .lt := by
  unfold namesIn
  rw [List.pairwise_map, List.pairwise_filter]
  refine Std.ExtTreeMap.ordered_keys_toList.imp ?_
  intro a b hab ha hb
  simp only [decide_eq_true_eq] at ha hb
  simp only [dentryOrder, compareLex, compareOn, ha, hb, Std.ReflOrd.compare_self,
    Ordering.eq_then] at hab
  exact hab

/-- One round of the loop: an entry of the directory is listed, any other one is skipped. -/
theorem readEntries_cons_ok {d : DentryKey × UInt64} {entries : List (DentryKey × UInt64)}
    {out : List DirectoryEntry} (h : s.readEntries i (d :: entries) = .ok out) :
    (d.1.1 ≠ i ∧ s.readEntries i entries = .ok out) ∨
      d.1.1 = i ∧ ∃ a rest, s.inodes[d.2]? = some a ∧ s.readEntries i entries = .ok rest ∧
        out = ⟨d.1.2, a⟩ :: rest := by
  obtain ⟨key, c⟩ := d
  unfold readEntries at h
  by_cases hk : key.1 = i
  · simp only [hk, ne_eq, not_true, if_false] at h
    cases ha : s.inodes[c]? with
    | none =>
      rw [ha] at h
      contradiction
    | some a =>
      rw [ha] at h
      obtain ⟨rest, hrest, hout⟩ := Outcome.map_eq_ok h
      exact .inr ⟨hk, a, rest, rfl, hrest, hout.symm⟩
  · simp only [ne_eq, hk, not_false_eq_true, if_true] at h
    exact .inl ⟨hk, h⟩

theorem readEntries_names {entries : List (DentryKey × UInt64)} {out : List DirectoryEntry}
    (h : s.readEntries i entries = .ok out) :
    out.map DirectoryEntry.name =
      (entries.filter fun d => d.1.1 = i).map fun d => d.1.2 := by
  induction entries generalizing out with
  | nil =>
    obtain rfl := Outcome.ok.inj h
    rfl
  | cons d entries ih =>
    rcases readEntries_cons_ok h with ⟨hd, hrest⟩ | ⟨hd, a, rest, -, hrest, rfl⟩
    · rw [List.filter_cons_of_neg (by simpa using hd)]
      exact ih hrest
    · rw [List.filter_cons_of_pos (by simpa using hd), List.map_cons, List.map_cons, ih hrest]

theorem readDir_names {listed : List DirectoryEntry} (h : s.readDir i = .ok listed) :
    listed.map DirectoryEntry.name = s.namesIn i := by
  unfold MetaState.readDir at h
  split at h
  · contradiction
  · split at h
    · contradiction
    · exact readEntries_names h

theorem mem_readEntries {entries : List (DentryKey × UInt64)} {out : List DirectoryEntry}
    (h : s.readEntries i entries = .ok out) (n : Bytes) (a : InodeAttrs) :
    ⟨n, a⟩ ∈ out ↔ ∃ c, ((i, n), c) ∈ entries ∧ s.inodes[c]? = some a := by
  induction entries generalizing out with
  | nil =>
    obtain rfl := Outcome.ok.inj h
    simp
  | cons d entries ih =>
    rcases readEntries_cons_ok h with ⟨hd, hrest⟩ | ⟨hd, b, rest, hb, hrest, rfl⟩
    · have hskip (c : UInt64) : ((i, n), c) ≠ d := fun he => hd (he ▸ rfl)
      simp only [ih hrest, List.mem_cons, hskip, false_or]
    · rw [List.mem_cons, ih hrest]
      constructor
      · rintro (he | ⟨c, hc, ha⟩)
        · obtain ⟨rfl, rfl⟩ := DirectoryEntry.mk.inj he
          exact ⟨d.2, hd ▸ List.mem_cons_self, hb⟩
        · exact ⟨c, List.mem_cons_of_mem _ hc, ha⟩
      · rintro ⟨c, hc, ha⟩
        rcases List.mem_cons.mp hc with rfl | hc
        · exact .inl (DirectoryEntry.mk.injEq .. ▸ ⟨rfl, Option.some.inj (ha.symm.trans hb)⟩)
        · exact .inr ⟨c, hc, ha⟩

/-- A listed entry is in the directory, with the attributes of its inode. -/
theorem mem_readDir {listed : List DirectoryEntry} (h : s.readDir i = .ok listed)
    {entry : DirectoryEntry} (hentry : entry ∈ listed) :
    ∃ c, s.dentries[(i, entry.name)]? = some c ∧ s.inodes[c]? = some entry.attrs := by
  unfold readDir at h
  split at h
  · contradiction
  · split at h
    · contradiction
    · obtain ⟨c, hk, ha⟩ := (mem_readEntries h entry.name entry.attrs).mp hentry
      exact ⟨c, s.mem_dentries_toList.mp hk, ha⟩

theorem lookup_eq_ok {n : Bytes} {a : InodeAttrs} :
    s.lookup i n = .ok a ↔ s.validateParent i n = .ok () ∧
      ∃ c, s.dentries[(i, n)]? = some c ∧ s.inodes[c]? = some a := by
  unfold lookup
  cases s.validateParent i n with
  | error e => simp
  | ok _ =>
    cases s.dentries[(i, n)]? with
    | none => simp
    | some c =>
      cases hc : s.inodes[c]? with
      | none => simp [inodeAt, hc]
      | some b => simp [inodeAt, hc]

/-- A name in a directory passes the checks of `Lookup`. -/
theorem Named.validateParent (h : s.Named) {b : InodeAttrs} (hi : s.inodes[i]? = some b)
    (hdir : b.type = .directory) {n : Bytes} {c : UInt64} (hk : s.dentries[(i, n)]? = some c) :
    s.validateParent i n = .ok () := by
  have hname := h (i, n) (Std.ExtTreeMap.mem_iff_isSome_getElem?.mpr (by rw [hk]; rfl))
  simp only [MetaState.validateParent, hname, hi, hdir, ne_eq, not_true, if_false]

/-- A directory of a tree is listed. -/
theorem readDir_ok (hw : s.names.WellFormed) {b : InodeAttrs} (hi : s.inodes[i]? = some b)
    (hdir : b.type = .directory) :
    ∃ listed, s.readDir i = .ok listed ∧ s.readEntries i s.dentries.toList = .ok listed := by
  have hchild : ∀ d ∈ s.dentries.toList, ∃ a, s.inodes[d.2]? = some a := fun d hd =>
    names_isNode.mp (hw.tree.child_node (s.mem_dentries_toList (k := d.1).mp hd))
  obtain ⟨listed, hlisted⟩ := readEntries_ok i hchild
  refine ⟨listed, ?_, hlisted⟩
  simp only [readDir, hi, hdir, ne_eq, not_true, if_false]
  exact hlisted

/-- What a directory lists is what `Lookup` finds in it. -/
theorem listed_iff_lookup (hnamed : s.Named) {b : InodeAttrs}
    (hi : s.inodes[i]? = some b) (hdir : b.type = .directory) {listed : List DirectoryEntry}
    (h : s.readEntries i s.dentries.toList = .ok listed) (n : Bytes) (a : InodeAttrs) :
    ⟨n, a⟩ ∈ listed ↔ s.lookup i n = .ok a := by
  rw [mem_readEntries h, lookup_eq_ok]
  simp only [mem_dentries_toList]
  constructor
  · rintro ⟨c, hk, ha⟩
    exact ⟨hnamed.validateParent hi hdir hk, c, hk, ha⟩
  · exact fun ⟨_, hfound⟩ => hfound

theorem isDirectoryEmpty_iff_readDir {listed : List DirectoryEntry}
    (h : s.readDir i = .ok listed) : s.isDirectoryEmpty i = true ↔ listed = [] := by
  rw [isDirectoryEmpty_iff, ← List.map_eq_nil_iff (f := DirectoryEntry.name), readDir_names h,
    List.eq_nil_iff_forall_not_mem]
  refine forall_congr' fun n => ?_
  rw [mem_namesIn, Std.ExtTreeMap.mem_iff_isSome_getElem?, Bool.not_eq_true,
    Option.isSome_eq_false_iff, Option.isNone_iff_eq_none]

/-- `Rmdir` of a directory by its own entry finds nothing to complain of but what is in it. -/
theorem rmdir_isOk_iff (hw : s.names.WellFormed) (hnamed : s.Named) (clock : Clock) {p : UInt64}
    {n : Bytes} {b : InodeAttrs} (hk : s.dentries[(p, n)]? = some i)
    (hi : s.inodes[i]? = some b) (hdir : b.type = .directory) :
    (s.rmdir clock p n).1.isOk = true ↔ s.isDirectoryEmpty i = true := by
  constructor
  · intro hok
    obtain ⟨a, ha⟩ := Outcome.exists_of_isOk hok
    obtain ⟨id, target, hid, -, -, hempty, -⟩ := rmdir_ok (Prod.ext ha rfl)
    obtain rfl := Option.some.inj (hk.symm.trans hid)
    exact hempty
  · intro hempty
    obtain ⟨parent, hparent, hpdir⟩ := names_isDir.mp (hw.tree.parent_dir hk)
    obtain ⟨a, s', hremoved, -⟩ := removeAndRead_names (clock 0) hw hk
    simp only [rmdir, hnamed.validateParent hparent hpdir hk, hk, inodeAt_of_some hi, andThen_ok,
      hdir, hempty, ne_eq, not_true, if_false, Bool.not_true, Bool.false_eq_true, hremoved]
    rfl

end MetaState

/-- In every state a run reaches without the numbers wrapping, `ReadDir` of a directory lists
the names under which `Lookup` finds something, sorted, each once and with what it finds; and
`Rmdir` by the one entry of a directory succeeds when nothing is listed. The root has no
entry. -/
theorem listing_of_run [OffsetSort] (chunkSize : UInt64) (nowNs : Int64) (calls : List Call)
    (room : (MetaState.createdIds calls (.fresh chunkSize nowNs)).length < 2 ^ 64 - 2)
    (d : UInt64) (b : InodeAttrs)
    (hd : (final MetaState.call calls (.fresh chunkSize nowNs)).inodes[d]? = some b)
    (hdir : b.type = .directory) :
    let s := final MetaState.call calls (.fresh chunkSize nowNs)
    (∃ listed, s.readDir d = .ok listed ∧
      ((listed.map DirectoryEntry.name).Pairwise fun n m => compare n m = .lt) ∧
      (listed.map DirectoryEntry.name).Nodup ∧
      ∀ n a, ⟨n, a⟩ ∈ listed ↔ s.lookup d n = .ok a) ∧
    (∀ k : DentryKey, s.dentries[k]? = some d → ∀ clock, (s.rmdir clock k.1 k.2).1.isOk = true ↔
      d ≠ kRootInodeId ∧ s.readDir d = .ok []) ∧
    ((∃ k : DentryKey, s.dentries[k]? = some d) ↔ d ≠ kRootInodeId) := by
  intro s
  have hw : s.names.WellFormed := MetaState.wellFormed_run chunkSize nowNs calls room
  have hnamed : s.Named := MetaState.named_run chunkSize nowNs calls
  obtain ⟨listed, hread, hentries⟩ := MetaState.readDir_ok hw hd hdir
  have hsorted := s.namesIn_sorted d
  rw [← MetaState.readDir_names hread] at hsorted
  have hroot (k : DentryKey) (hk : s.dentries[k]? = some d) : d ≠ kRootInodeId := by
    rintro rfl
    exact hw.tree.root_unnamed k hk
  refine ⟨⟨listed, hread, hsorted, ?_, MetaState.listed_iff_lookup hnamed hd hdir hentries⟩,
    ?_, ?_, ?_⟩
  · refine hsorted.imp ?_
    rintro n _ hlt rfl
    rw [Std.ReflOrd.compare_self] at hlt
    contradiction
  · intro k hk clock
    rw [MetaState.rmdir_isOk_iff hw hnamed clock hk hd hdir,
      MetaState.isDirectoryEmpty_iff_readDir hread, hread, Outcome.ok.injEq]
    exact (and_iff_right (hroot k hk)).symm
  · rintro ⟨k, hk⟩
    exact hroot k hk
  · exact hw.tree.exists_entry (MetaState.names_isNode.mpr ⟨b, hd⟩)

/-- A directory with a file and an empty directory in it. -/
def listedCalls : List Call :=
  [⟨fun _ => 1, .mkdir 1 (ascii "a") 0o755 0 0⟩, ⟨fun _ => 2, .createFile 2 (ascii "f") 0o644 0 0⟩,
    ⟨fun _ => 3, .mkdir 2 (ascii "e") 0o755 0 0⟩]

theorem listing_of_listedCalls :
    let s := final (@MetaState.call .insertion) listedCalls (.fresh 4096 0)
    (∃ listed, s.readDir 2 = .ok listed ∧ listed.map DirectoryEntry.name = [ascii "e", ascii "f"] ∧
      ∀ n a, ⟨n, a⟩ ∈ listed ↔ s.lookup 2 n = .ok a) ∧
    ∀ k : DentryKey, s.dentries[k]? = some 2 → ∀ clock,
      (s.rmdir clock k.1 k.2).1.isOk = true ↔
      (2 : UInt64) ≠ kRootInodeId ∧ s.readDir 2 = .ok [] := by
  intro s
  obtain ⟨⟨listed, hread, -, -, hlookup⟩, hrmdir, -⟩ :=
    @listing_of_run .insertion 4096 0 listedCalls (by decide) 2 ((s.inodes[(2 : UInt64)]?).getD {})
      (by decide) (by decide)
  refine ⟨⟨listed, hread, ?_, hlookup⟩, hrmdir⟩
  rw [MetaState.readDir_names hread]
  decide

end Pulpfs
