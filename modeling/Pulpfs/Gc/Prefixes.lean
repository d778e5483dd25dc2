import Pulpfs.Gc.Service
import Pulpfs.Fuse.ObjectKeys

/-! Object prefixes that share a bucket. A collector lists by the text its own keys begin with, and
the keys of another prefix can begin with it only where that prefix reaches into the keys. -/
namespace Pulpfs

section Marker

variable {α : Type*} {a b rest m : List α} {c : α}

/-- What begins a sequence ends in its first part, or goes on into the second. -/
theorem initial_append_cases {l k n : List α} (h : l <+: k ++ n) :
    l <+: k ∨ ∃ u, l = k ++ u ∧ u <+: n := by
  rcases List.prefix_or_prefix_of_prefix h (List.prefix_append k n) with hl | ⟨u, rfl⟩
  · exact .inl hl
  · exact .inr ⟨u, rfl, (List.prefix_append_right_inj k).mp h⟩

/-- Behind the first letter of a marker it does not come again. -/
theorem notMem_of_append_eq_marker {u v : List α} (hc : c ∉ m) (hu : u ≠ [])
    (h : u ++ v = c :: m) : c ∉ v := by
  cases u with
  | nil => exact absurd rfl hu
  | cons d u =>
    obtain ⟨-, rfl⟩ := List.cons.inj h
    exact fun hv => hc (List.mem_append_right u hv)

/-- Two texts that end in a marker whose first letter does not come again in it: if one of them is
how the other one and what follows it begin, then the markers stand in the same place, or one of
them stands before the end of what is in front of the other. -/
theorem marker_cases (hc : c ∉ m) (h : a ++ c :: m <+: b ++ (c :: m ++ rest)) :
    a ++ c :: m <+: b ∨ a = b ∨ ∃ t, a = b ++ c :: m ++ t ∧ t ++ c :: m <+: rest := by
  rcases initial_append_cases ((List.prefix_append _ _).trans h) with ⟨t, rfl⟩ | ⟨t, rfl, -⟩
  · rw [List.append_assoc, List.prefix_append_right_inj] at h
    rcases initial_append_cases h with ht | ⟨u, hu, hrest⟩
    · exact .inl ((List.prefix_append_right_inj a).mpr ht)
    · by_cases ht : t = []
      · exact .inr (.inl (by rw [ht, List.append_nil]))
      · cases u with
        | nil =>
          rw [hu, List.append_nil]
          exact .inl List.prefix_rfl
        | cons d u =>
          obtain ⟨rfl, -⟩ := List.cons_prefix_cons.mp hrest
          exact absurd List.mem_cons_self (notMem_of_append_eq_marker hc ht hu.symm)
  · rw [List.append_assoc, List.prefix_append_right_inj] at h
    by_cases ht : t = []
    · exact .inr (.inl (by rw [ht, List.append_nil]))
    · rcases initial_append_cases h with hle | ⟨u, hu, hrest⟩
      · have hlength := hle.length_le
        rw [List.length_append] at hlength
        exact absurd (List.length_eq_zero_iff.mp (by omega)) ht
      · rcases List.append_eq_append_iff.mp hu with ⟨v, hv, hmarker⟩ | ⟨v, rfl, rfl⟩
        · cases v with
          | nil =>
            rw [List.append_nil] at hv
            rw [List.nil_append] at hmarker
            subst hmarker
            exact .inr (.inr ⟨[], by rw [List.append_nil, hv], hrest⟩)
          | cons d v =>
            obtain ⟨rfl, -⟩ := List.cons.inj hmarker
            exact absurd List.mem_cons_self (notMem_of_append_eq_marker hc ht hv.symm)
        · exact .inr (.inr ⟨v, (List.append_assoc ..).symm, hrest⟩)

end Marker

/-- What `MakeObjectKey` puts in front of "chunks/". -/
def objectDirectory (objectPrefix : Bytes) : Bytes :=
  if objectPrefix.isEmpty then [] else objectPrefix ++ ascii "/"

theorem chunkPrefix_eq (objectPrefix : Bytes) :
    chunkPrefix objectPrefix = objectDirectory objectPrefix ++ ascii "chunks/" := by
  unfold chunkPrefix objectDirectory
  split
  · rfl
  · rw [List.append_assoc]
    rfl

theorem objectDirectory_injective : Function.Injective objectDirectory := by
  intro p q h
  unfold objectDirectory at h
  cases p with
  | nil =>
    cases q with
    | nil => rfl
    | cons y q => simp at h
  | cons x p =>
    cases q with
    | nil => simp at h
    | cons y q => exact List.append_cancel_right h

/-- What follows "chunks/" in a key. -/
def keyTail (g : ObjectKeyGenerator) (inodeId sequence offset : UInt64) : Bytes :=
  toDecimal inodeId ++ ascii "/" ++ (g.writerId ++ ascii "/" ++ toDecimal sequence ++ ascii "/" ++
    toDecimal offset)

theorem keyAt_eq (g : ObjectKeyGenerator) (p : Bytes) (inodeId sequence offset : UInt64) :
    g.keyAt p inodeId sequence offset = chunkPrefix p ++ keyTail g inodeId sequence offset := by
  rw [chunkPrefix_eq]
  unfold ObjectKeyGenerator.keyAt keyTail objectDirectory
  simp only [List.append_assoc]

theorem ascii_chunks : ascii "chunks/" = 99 :: [104, 117, 110, 107, 115, 47] := by decide

/-- A key that begins with the chunks of another prefix begins so before its own chunks, or the
other prefix reaches into what follows these. -/
theorem startsWith_cases {p q : Bytes} (hne : p ≠ q) {g : ObjectKeyGenerator} {i n off : UInt64}
    (h : chunkPrefix p <+: g.keyAt q i n off) :
    chunkPrefix p <+: objectDirectory q ∨
      ∃ t, objectDirectory p = chunkPrefix q ++ t ∧ t ++ ascii "chunks/" <+: keyTail g i n off := by
  rw [keyAt_eq, chunkPrefix_eq, chunkPrefix_eq, List.append_assoc, ascii_chunks] at h
  rw [chunkPrefix_eq, chunkPrefix_eq, ascii_chunks]
  rcases marker_cases (by decide) h with hbefore | hsame | hbehind
  · exact .inl hbefore
  · exact absurd (objectDirectory_injective hsame) hne
  · exact .inr hbehind

/-- The number of the inode stands before the first letter of "chunks/" in what follows. -/
theorem inode_of_startsWith {t : Bytes} {g : ObjectKeyGenerator} {i n off : UInt64}
    (h : t ++ ascii "chunks/" <+: keyTail g i n off) : toDecimal i ++ ascii "/" <+: t := by
  have hletter : 99 ∉ toDecimal i ++ ascii "/" := by
    intro hmem
    rcases List.mem_append.mp hmem with hmem | hmem
    · exact absurd (isDigit_of_mem_toDecimal hmem).2 (by decide)
    · exact absurd hmem (by decide)
  rcases List.prefix_or_prefix_of_prefix ((List.prefix_append _ _).trans h)
      (List.prefix_append (toDecimal i ++ ascii "/") _) with ⟨v, hv⟩ | hi
  · rw [keyTail, ← hv, List.append_assoc, List.prefix_append_right_inj, ascii_chunks] at h
    cases v with
    | nil =>
      rw [← hv, List.append_nil]
    | cons d v =>
      obtain ⟨rfl, -⟩ := List.cons_prefix_cons.mp h
      exact absurd (hv ▸ List.mem_append_right t List.mem_cons_self) hletter
  · exact hi

/-- The second letter of "chunks/" is in no key of a mount that made its writer id. -/
theorem notMem_keyTail {g : ObjectKeyGenerator} (hg : 104 ∉ g.writerId) (i n off : UInt64) :
    104 ∉ keyTail g i n off := by
  have hdecimal (k : UInt64) : 104 ∉ toDecimal k :=
    fun h => absurd (isDigit_of_mem_toDecimal h).2 (by decide)
  have hslash : 104 ∉ ascii "/" := by decide
  simp only [keyTail, List.mem_append, hdecimal, hslash, hg, or_self, not_false_eq_true]

open GcService

/-- A collector lists every object of its own prefix. With another prefix in the bucket it lists
none of the objects there, whoever wrote them, exactly when that prefix does not lie among its
chunks and its own prefix does not lie among the chunks of an inode there; and of writers with an
id of their own making it lists the objects exactly when that prefix lies among its chunks. -/
theorem listed_of_objectPrefix (config : GcServiceConfig) (scan : Scan) (q : Bytes)
    (hne : config.objectPrefix ≠ q) :
    let listed := (listRequest config scan).keyPrefix
    (∀ (g : ObjectKeyGenerator) (i n off : UInt64),
      listed <+: g.keyAt config.objectPrefix i n off) ∧
    ((∀ (g : ObjectKeyGenerator) (i n off : UInt64), ¬ listed <+: g.keyAt q i n off) ↔
      ¬ listed <+: objectDirectory q ∧
        ∀ i, ¬ chunkPrefix q ++ toDecimal i ++ ascii "/" <+: objectDirectory config.objectPrefix) ∧
    ∀ (g : ObjectKeyGenerator) (randomHi randomLo now i n off : UInt64),
      g.writerId = makeWriterId randomHi randomLo now →
        (listed <+: g.keyAt q i n off ↔ listed <+: objectDirectory q) := by
  intro listed
  have hdirectory {g : ObjectKeyGenerator} {i n off : UInt64} (h : listed <+: objectDirectory q) :
      listed <+: g.keyAt q i n off := by
    rw [keyAt_eq, chunkPrefix_eq, List.append_assoc]
    exact h.trans (List.prefix_append _ _)
  refine ⟨fun g i n off => ?_, ⟨fun h => ⟨fun hbefore => ?_, fun i hbehind => ?_⟩, ?_⟩, ?_⟩
  · rw [keyAt_eq]
    exact List.prefix_append _ _
  · exact h ⟨[], 1⟩ 0 0 0 (hdirectory hbefore)
  · -- a writer whose id goes on as the prefix and the chunks below it do
    obtain ⟨w, hw⟩ := hbehind
    refine h ⟨w ++ ascii "chunks", 1⟩ i 0 0 ?_
    rw [keyAt_eq]
    show chunkPrefix config.objectPrefix <+: _
    rw [chunkPrefix_eq, ← hw]
    simp only [keyTail, List.append_assoc, List.prefix_append_right_inj]
    exact List.prefix_append (ascii "chunks/") _
  · rintro ⟨hbefore, hbehind⟩ g i n off h
    rcases startsWith_cases hne h with h | ⟨t, ht, htail⟩
    · exact hbefore h
    · refine hbehind i ?_
      rw [ht, List.append_assoc, List.prefix_append_right_inj]
      exact inode_of_startsWith htail
  · intro g randomHi randomLo now i n off hg
    refine ⟨fun h => ?_, hdirectory⟩
    rcases startsWith_cases hne h with h | ⟨t, -, htail⟩
    · exact h
    · have hletter : 104 ∉ g.writerId := hg ▸ notMem_makeWriterId (by decide) _ _ _
      refine absurd (htail.subset (List.mem_append_right t ?_)) (notMem_keyTail hletter i n off)
      decide

/-- A file system among the chunks of another one, or of one without a prefix: the collector of
the outer one lists the objects of the inner one. -/
theorem listed_among_chunks :
    let config (objectPrefix : String) : GcServiceConfig := { objectPrefix := ascii objectPrefix }
    let scan : Scan := { liveObjects := [], cutoffMs := 0 }
    let key (objectPrefix : String) :=
      ObjectKeyGenerator.keyAt ⟨ascii "w", 1⟩ (ascii objectPrefix) 2 1 0
    (ascii "a" ≠ ascii "a/chunks/b" ∧
      (listRequest (config "a") scan).keyPrefix <+: key "a/chunks/b") ∧
    (ascii "" ≠ ascii "chunks" ∧ (listRequest (config "") scan).keyPrefix <+: key "chunks") := by
  decide

theorem listed_apart :
    let listed := (listRequest {} { liveObjects := [], cutoffMs := 0 }).keyPrefix
    (∀ (g : ObjectKeyGenerator) (i n off : UInt64), listed <+: g.keyAt (ascii "pulpfs") i n off) ∧
      ∀ (g : ObjectKeyGenerator) (i n off : UInt64),
        ¬ listed <+: g.keyAt (ascii "backup") i n off := by
  obtain ⟨hown, hother, -⟩ := listed_of_objectPrefix {} { liveObjects := [], cutoffMs := 0 }
    (ascii "backup") (by decide)
  refine ⟨hown, hother.mpr ⟨by decide, fun i hi => ?_⟩⟩
  have hchunks : ¬ chunkPrefix (ascii "backup") <+: objectDirectory (ascii "pulpfs") := by decide
  exact hchunks ((List.prefix_append _ _).trans ((List.prefix_append _ _).trans hi))

end Pulpfs
