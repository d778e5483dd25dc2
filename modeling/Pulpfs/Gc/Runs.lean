import Pulpfs.Gc.Service

/-! A whole run of `RunOnce` over the pages of a listing. It asks for the deletion of the old
objects that are not live, and its counters say what became of every object. -/
namespace Pulpfs

namespace GcService

/-- What a run has asked `DeleteObject` for, and its counters. -/
structure Record where
  requests : List DeleteObjectRequest := []
  counters : Counters := {}
  deriving DecidableEq

section Loops

variable (config : GcServiceConfig) (deletes : ℕ → Bool)

/-- The body of the loop on the next object of a page; `deletes` tells of each request, by its
number, whether it succeeds. -/
def nextObject (scan : Scan) (object : ObjectInfo) (page : ListObjectsResult) (record : Record) :
    Stage × Record :=
  let deleted := deletes record.requests.length
  (onObject config scan object page deleted,
    { requests := record.requests ++ (deleteRequest config scan object).toList
      counters := scan.count config object deleted })

/-- The loop over the objects of a page, of which there are as many as rounds. -/
def runObjects : ℕ → Stage × Record → Stage × Record
  | rounds + 1, (.inPage scan ⟨object :: objects, token⟩, record) =>
    runObjects rounds (nextObject config deletes scan object ⟨objects, token⟩ record)
  | _, run => run

/-- The objects of a page, if it can be listed. -/
def listedObjects : Except Error ListObjectsResult → List ObjectInfo
  | .ok page => page.objects
  | .error _ => []

/-- The loop over the pages, which are what `ListObjects` answers in turn. -/
def runPages : List (Except Error ListObjectsResult) → Stage × Record → Stage × Record
  | listed :: pages, (.listPage scan, record) =>
    runPages pages
      (runObjects config deletes (listedObjects listed).length (onPage scan listed, record))
  | _, run => run

end Loops

/-- Neither live nor younger than the cutoff. -/
def IsOrphan (liveObjects : List Bytes) (cutoffMs : Int64) (object : ObjectInfo) : Prop :=
  object.key ∉ liveObjects ∧ object.lastModifiedMs.toInt ≤ cutoffMs.toInt

instance decidableIsOrphan (liveObjects : List Bytes) (cutoffMs : Int64) (object : ObjectInfo) :
    Decidable (IsOrphan liveObjects cutoffMs object) := inferInstanceAs (Decidable (_ ∧ _))

/-- The objects of a list that a run is to delete. -/
def orphans (liveObjects : List Bytes) (cutoffMs : Int64) (objects : List ObjectInfo) :
    List ObjectInfo := objects.filter (IsOrphan liveObjects cutoffMs)

/-- How many of the first `n` requests fail. -/
def failures (deletes : ℕ → Bool) (n : ℕ) : ℕ := (List.range n).countP fun k => !deletes k

theorem failures_succ (deletes : ℕ → Bool) (n : ℕ) :
    failures deletes (n + 1) = failures deletes n + if deletes n then 0 else 1 := by
  rw [failures, List.range_succ, List.countP_append, List.countP_singleton]
  cases deletes n with
  | true => rfl
  | false => rfl

/-- What the record of a run says when the loop has been through some objects. -/
structure Record.Accounts (config : GcServiceConfig) (deletes : ℕ → Bool)
    (liveObjects : List Bytes) (cutoffMs : Int64) (objects : List ObjectInfo) (record : Record) :
    Prop where
  requests : record.requests = if config.dryRun then [] else
    (orphans liveObjects cutoffMs objects).map fun object => ⟨config.bucket, object.key⟩
  scanned : record.counters.scanned = UInt64.ofNat objects.length
  live : record.counters.live = UInt64.ofNat (objects.countP fun object =>
    object.key ∈ liveObjects)
  skippedYoung : record.counters.skippedYoung = UInt64.ofNat (objects.countP fun object =>
    object.key ∉ liveObjects ∧ cutoffMs.toInt < object.lastModifiedMs.toInt)
  deleted : record.counters.deleted = UInt64.ofNat
    ((orphans liveObjects cutoffMs objects).length - failures deletes record.requests.length)
  deleteFailed : record.counters.deleteFailed =
    UInt64.ofNat (failures deletes record.requests.length)

theorem failures_le (deletes : ℕ → Bool) (n : ℕ) : failures deletes n ≤ n :=
  List.countP_le_length.trans_eq List.length_range

theorem verdict_cases (scan : Scan) (object : ObjectInfo) :
    (object.key ∈ scan.liveObjects ∧ scan.verdict object = .live) ∨
      (object.key ∉ scan.liveObjects ∧ scan.cutoffMs.toInt < object.lastModifiedMs.toInt ∧
        scan.verdict object = .young) ∨
      IsOrphan scan.liveObjects scan.cutoffMs object ∧ scan.verdict object = .orphan := by
  unfold Scan.verdict IsOrphan
  rw [← not_lt, ← Int64.lt_iff_toInt_lt]
  by_cases hlive : object.key ∈ scan.liveObjects
  · exact .inl ⟨hlive, if_pos hlive⟩
  · by_cases hyoung : object.lastModifiedMs > scan.cutoffMs
    · exact .inr (.inl ⟨hlive, hyoung, by rw [if_neg hlive, if_pos hyoung]⟩)
    · exact .inr (.inr ⟨⟨hlive, hyoung⟩, by rw [if_neg hlive, if_neg hyoung]⟩)

section Accounts

variable {config : GcServiceConfig} {deletes : ℕ → Bool} {liveObjects : List Bytes}
  {cutoffMs : Int64} {objects : List ObjectInfo} {record : Record}

theorem Record.Accounts.nil (config : GcServiceConfig) (deletes : ℕ → Bool) :
    Record.Accounts config deletes liveObjects cutoffMs [] {} where
  requests := by simp [orphans]
  scanned := rfl
  live := rfl
  skippedYoung := rfl
  deleted := rfl
  deleteFailed := rfl

theorem Record.Accounts.failures_le
    (h : record.Accounts config deletes liveObjects cutoffMs objects) :
    failures deletes record.requests.length ≤ (orphans liveObjects cutoffMs objects).length := by
  refine (GcService.failures_le deletes _).trans ?_
  rw [h.requests]
  split
  · exact Nat.zero_le _
  · rw [List.length_map]

section Next

variable {scan : Scan} {object : ObjectInfo} (page : ListObjectsResult)

theorem orphans_append_of_not (objects : List ObjectInfo)
    (hnot : ¬ IsOrphan liveObjects cutoffMs object) :
    orphans liveObjects cutoffMs (objects ++ [object]) =
      orphans liveObjects cutoffMs objects := by
  simp [orphans, hnot]

theorem orphans_append_of_isOrphan (objects : List ObjectInfo)
    (h : IsOrphan liveObjects cutoffMs object) :
    orphans liveObjects cutoffMs (objects ++ [object]) =
      orphans liveObjects cutoffMs objects ++ [object] := by
  simp [orphans, h]

theorem ofNat_succ (n : ℕ) : UInt64.ofNat (n + 1) = UInt64.ofNat n + 1 := UInt64.ofNat_add n 1

theorem Record.Accounts.nextLive
    (h : record.Accounts config deletes scan.liveObjects scan.cutoffMs objects)
    (hcounters : scan.counters = record.counters) (hlive : object.key ∈ scan.liveObjects)
    (hv : scan.verdict object = .live) :
    (nextObject config deletes scan object page record).2.Accounts config deletes
      scan.liveObjects scan.cutoffMs (objects ++ [object]) := by
  have hnot : ¬ IsOrphan scan.liveObjects scan.cutoffMs object := fun ho => ho.1 hlive
  have hsame := orphans_append_of_not objects hnot
  constructor
  all_goals simp only [nextObject, deleteRequest, Scan.count, hv, hcounters, hsame,
    List.countP_append, List.length_append, List.length_singleton]
  · simp [h.requests]
  · rw [h.scanned, ofNat_succ]
  · simp [h.live, hlive, ofNat_succ]
  · simp [h.skippedYoung, hlive]
  · simp [h.deleted]
  · simp [h.deleteFailed]

theorem Record.Accounts.nextYoung
    (h : record.Accounts config deletes scan.liveObjects scan.cutoffMs objects)
    (hcounters : scan.counters = record.counters) (hlive : object.key ∉ scan.liveObjects)
    (hyoung : scan.cutoffMs.toInt < object.lastModifiedMs.toInt)
    (hv : scan.verdict object = .young) :
    (nextObject config deletes scan object page record).2.Accounts config deletes
      scan.liveObjects scan.cutoffMs (objects ++ [object]) := by
  have hnot : ¬ IsOrphan scan.liveObjects scan.cutoffMs object :=
    fun ho => absurd ho.2 (not_le.mpr hyoung)
  have hsame := orphans_append_of_not objects hnot
  constructor
  all_goals simp only [nextObject, deleteRequest, Scan.count, hv, hcounters, hsame,
    List.countP_append, List.length_append, List.length_singleton]
  · simp [h.requests]
  · rw [h.scanned, ofNat_succ]
  · simp [h.live, hlive]
  · simp [h.skippedYoung, hlive, hyoung, ofNat_succ]
  · simp [h.deleted]
  · simp [h.deleteFailed]

/-- In a dry run an orphan counts as deleted. -/
theorem Record.Accounts.nextDry
    (h : record.Accounts config deletes scan.liveObjects scan.cutoffMs objects)
    (hcounters : scan.counters = record.counters) (hdry : config.dryRun = true)
    (horphan : IsOrphan scan.liveObjects scan.cutoffMs object)
    (hv : scan.verdict object = .orphan) :
    (nextObject config deletes scan object page record).2.Accounts config deletes
      scan.liveObjects scan.cutoffMs (objects ++ [object]) := by
  have hmore := orphans_append_of_isOrphan objects horphan
  obtain ⟨hlive, hold⟩ := horphan
  have hrequests := h.requests
  rw [hdry, if_pos rfl] at hrequests
  have hdeleted := h.deleted
  rw [hrequests] at hdeleted
  constructor
  all_goals simp only [nextObject, deleteRequest, Scan.count, hv, hcounters, hmore, hdry,
    List.countP_append, List.length_append, List.length_singleton, hrequests]
  · simp
  · simp [h.scanned, ofNat_succ]
  · simp [h.live, hlive]
  · simp [h.skippedYoung, hold]
  · simp [hdeleted, failures, ofNat_succ]
  · simp [h.deleteFailed, hrequests]

/-- Otherwise it is asked for and counts by how that ends. -/
theorem Record.Accounts.nextOrphan
    (h : record.Accounts config deletes scan.liveObjects scan.cutoffMs objects)
    (hcounters : scan.counters = record.counters) (hdry : config.dryRun = false)
    (horphan : IsOrphan scan.liveObjects scan.cutoffMs object)
    (hv : scan.verdict object = .orphan) :
    (nextObject config deletes scan object page record).2.Accounts config deletes
      scan.liveObjects scan.cutoffMs (objects ++ [object]) := by
  have hmore := orphans_append_of_isOrphan objects horphan
  obtain ⟨hlive, hold⟩ := horphan
  have hle := h.failures_le
  have hrequests := h.requests
  rw [hdry, if_neg Bool.false_ne_true] at hrequests
  have hlater : List.map (fun o => (⟨config.bucket, o.key⟩ : DeleteObjectRequest))
      (orphans scan.liveObjects scan.cutoffMs objects ++ [object]) =
        record.requests ++ [⟨config.bucket, object.key⟩] := by
    rw [hrequests, List.map_append]
    rfl
  cases hdelete : deletes record.requests.length with
  | true =>
    constructor
    all_goals simp only [nextObject, deleteRequest, Scan.count, hv, hcounters, hmore, hdry, hdelete,
      List.countP_append, List.length_append, List.length_singleton, Option.toList_some,
      Bool.false_eq_true, Bool.false_or, if_false, and_self, if_true, failures_succ, Nat.add_zero]
    · exact hlater.symm
    · rw [h.scanned, ofNat_succ]
    · simp [h.live, hlive]
    · simp [h.skippedYoung, hold]
    · rw [Nat.sub_add_comm hle, ofNat_succ, h.deleted]
    · exact h.deleteFailed
  | false =>
    constructor
    all_goals simp only [nextObject, deleteRequest, Scan.count, hv, hcounters, hmore, hdry, hdelete,
      List.countP_append, List.length_append, List.length_singleton, Option.toList_some,
      Bool.false_eq_true, Bool.false_or, if_false, and_self, if_true, failures_succ]
    · exact hlater.symm
    · rw [h.scanned, ofNat_succ]
    · simp [h.live, hlive]
    · simp [h.skippedYoung, hold]
    · rw [Nat.add_sub_add_right]
      exact h.deleted
    · rw [ofNat_succ, h.deleteFailed]

/-- The step lemma: one more object is accounted for. -/
theorem Record.Accounts.next (object : ObjectInfo)
    (h : record.Accounts config deletes scan.liveObjects scan.cutoffMs objects)
    (hcounters : scan.counters = record.counters) :
    (nextObject config deletes scan object page record).2.Accounts config deletes
      scan.liveObjects scan.cutoffMs (objects ++ [object]) := by
  rcases verdict_cases scan object with ⟨hlive, hv⟩ | ⟨hlive, hyoung, hv⟩ | ⟨horphan, hv⟩
  · exact h.nextLive page hcounters hlive hv
  · exact h.nextYoung page hcounters hlive hyoung hv
  · cases hdry : config.dryRun with
    | true => exact h.nextDry page hcounters hdry horphan hv
    | false => exact h.nextOrphan page hcounters hdry horphan hv

end Next

/-- The rounds over a page end behind it, with all of its objects accounted for. -/
theorem Record.Accounts.runObjects (scan : Scan) (rest : List ObjectInfo) (token : Bytes)
    (h : record.Accounts config deletes scan.liveObjects scan.cutoffMs objects)
    (hcounters : scan.counters = record.counters) :
    ∃ record' : Record, record'.Accounts config deletes scan.liveObjects scan.cutoffMs
        (objects ++ rest) ∧
      GcService.runObjects config deletes rest.length (proceed scan ⟨rest, token⟩, record) =
        (proceed { scan with counters := record'.counters } ⟨[], token⟩, record') := by
  induction rest generalizing scan record objects with
  | nil =>
    refine ⟨record, by rwa [List.append_nil], ?_⟩
    rw [← hcounters]
    rfl
  | cons object rest ih =>
    have hnext := h.next ⟨rest, token⟩ object hcounters
    obtain ⟨record', haccounts, hrun⟩ := ih
      { scan with counters := scan.count config object (deletes record.requests.length) } hnext rfl
    rw [List.append_assoc] at haccounts
    exact ⟨record', haccounts, hrun⟩

/-- The run lemma: pages that can be listed and are not the last. -/
theorem Record.Accounts.runPages (scan : Scan) {pages : List ListObjectsResult}
    (hpages : ∀ page ∈ pages, page.nextContinuationToken ≠ [])
    (rest : List (Except Error ListObjectsResult))
    (h : record.Accounts config deletes scan.liveObjects scan.cutoffMs objects)
    (hcounters : scan.counters = record.counters) :
    ∃ (scan' : Scan) (record' : Record), scan'.liveObjects = scan.liveObjects ∧
      scan'.cutoffMs = scan.cutoffMs ∧ scan'.counters = record'.counters ∧
      record'.Accounts config deletes scan.liveObjects scan.cutoffMs
        (objects ++ pages.flatMap ListObjectsResult.objects) ∧
      GcService.runPages config deletes (pages.map .ok ++ rest) (.listPage scan, record) =
        GcService.runPages config deletes rest (.listPage scan', record') := by
  induction pages generalizing scan record objects with
  | nil => exact ⟨scan, record, rfl, rfl, hcounters, by simpa using h, rfl⟩
  | cons page pages ih =>
    rw [List.forall_mem_cons] at hpages
    obtain ⟨htoken, hpages⟩ := hpages
    obtain ⟨record₁, haccounts, hrun⟩ := h.runObjects scan page.objects
      page.nextContinuationToken hcounters
    have hgo : proceed { scan with counters := record₁.counters }
        ⟨[], page.nextContinuationToken⟩ =
      .listPage { scan with
        counters := record₁.counters, continuationToken := page.nextContinuationToken } := by
      simp [proceed, htoken]
    rw [hgo] at hrun
    obtain ⟨scan', record', hlive, hcutoff, hc, hrest, hruns⟩ := ih
      { scan with
        counters := record₁.counters, continuationToken := page.nextContinuationToken }
      hpages haccounts rfl
    refine ⟨scan', record', hlive, hcutoff, hc, ?_, ?_⟩
    · rwa [List.flatMap_cons, ← List.append_assoc]
    · rw [← hruns, ← hrun]
      rfl

theorem runPages_of_returned (config : GcServiceConfig) (deletes : ℕ → Bool)
    (pages : List (Except Error ListObjectsResult)) (code : Int32) (record : Record) :
    GcService.runPages config deletes pages (.returned code, record) =
      (.returned code, record) := by
  cases pages with
  | nil => rfl
  | cons page pages => rfl

/-- A run that comes to the last page returns what its counter of failed deletes says. -/
theorem runPages_returned (config : GcServiceConfig) (deletes : ℕ → Bool)
    (liveObjects : List Bytes) (cutoffMs : Int64) {pages : List ListObjectsResult}
    (hpages : ∀ page ∈ pages, page.nextContinuationToken ≠ []) {last : ListObjectsResult}
    (hlast : last.nextContinuationToken = []) :
    ∃ record : Record, record.Accounts config deletes liveObjects cutoffMs
        ((pages ++ [last]).flatMap ListObjectsResult.objects) ∧
      runPages config deletes ((pages ++ [last]).map .ok)
          (.listPage { liveObjects, cutoffMs }, {}) =
        (.returned (if record.counters.deleteFailed = 0 then 0 else -1), record) := by
  obtain ⟨scan, record, hlive, hcutoff, hcounters, haccounts, hrun⟩ :=
    (Record.Accounts.nil config deletes).runPages { liveObjects, cutoffMs } hpages [.ok last] rfl
  rw [← hlive, ← hcutoff] at haccounts
  obtain ⟨record', haccounts, hlastRun⟩ := haccounts.runObjects scan last.objects [] hcounters
  refine ⟨record', ?_, ?_⟩
  · rw [hlive, hcutoff] at haccounts
    rw [List.flatMap_append, List.flatMap_singleton]
    exact haccounts
  · rw [List.map_append]
    refine hrun.trans ?_
    have hlast : onPage scan (.ok last) = proceed scan ⟨last.objects, []⟩ := by
      rw [onPage, ← hlast]
    show runPages config deletes [] (GcService.runObjects _ _ _ (onPage scan (.ok last), _)) = _
    rw [hlast]
    exact congrArg (runPages config deletes []) hlastRun

/-- Every object is live, young or an orphan. -/
theorem length_classified (liveObjects : List Bytes) (cutoffMs : Int64)
    (objects : List ObjectInfo) :
    objects.length = (objects.countP fun object => object.key ∈ liveObjects) +
      (objects.countP fun object =>
        object.key ∉ liveObjects ∧ cutoffMs.toInt < object.lastModifiedMs.toInt) +
      (orphans liveObjects cutoffMs objects).length := by
  induction objects with
  | nil => rfl
  | cons object objects ih =>
    unfold orphans at ih ⊢
    rw [← List.countP_eq_length_filter] at ih ⊢
    simp only [List.length_cons, List.countP_cons, decide_eq_true_eq]
    rw [ih]
    by_cases hlive : object.key ∈ liveObjects
    · rw [if_pos hlive, if_neg fun h => h.1 hlive, if_neg fun h => h.1 hlive]
      omega
    · by_cases hyoung : cutoffMs.toInt < object.lastModifiedMs.toInt
      · rw [if_neg hlive, if_pos ⟨hlive, hyoung⟩, if_neg fun h => absurd h.2 (not_le.mpr hyoung)]
        omega
      · rw [if_neg hlive, if_neg fun h => hyoung h.2, if_pos ⟨hlive, not_lt.mp hyoung⟩]
        omega

/-- The counters add up. -/
theorem Record.Accounts.scanned_eq
    (h : record.Accounts config deletes liveObjects cutoffMs objects) :
    record.counters.scanned = record.counters.live + record.counters.skippedYoung +
      record.counters.deleted + record.counters.deleteFailed := by
  have hle := h.failures_le
  rw [h.scanned, h.live, h.skippedYoung, h.deleted, h.deleteFailed, ← UInt64.ofNat_add,
    ← UInt64.ofNat_add, ← UInt64.ofNat_add, length_classified liveObjects cutoffMs objects]
  congr 1
  omega

/-- The counter of failed deletes starts again at zero. -/
theorem Record.Accounts.deleteFailed_eq_zero
    (h : record.Accounts config deletes liveObjects cutoffMs objects) :
    record.counters.deleteFailed = 0 ↔ 2 ^ 64 ∣ failures deletes record.requests.length := by
  rw [h.deleteFailed, ← UInt64.toNat_inj, UInt64.toNat_ofNat', Nat.dvd_iff_mod_eq_zero]
  rfl

theorem failures_eq_zero {n : ℕ} : failures deletes n = 0 ↔ ∀ k < n, deletes k = true := by
  simp [failures, List.countP_eq_zero]

end Accounts

end GcService

open GcService

/-- A run over any pages of which the last one is marked as such asks for the deletion of exactly
the listed objects that are not live and not younger than the cutoff, in their order and of each
as often as it is listed, and of none when it only looks. Its counters add up, and it returns 0
when the number of deletes that failed is a multiple of `2 ^ 64`: with fewer failures than that,
when none failed. A run that meets a page that cannot be listed returns -1, and has asked for
the deletion of such objects of the pages before. -/
theorem deletes_of_run (config : GcServiceConfig) (deletes : ℕ → Bool) (liveObjects : List Bytes)
    (cutoffMs : Int64) (pages : List ListObjectsResult)
    (hpages : ∀ page ∈ pages, page.nextContinuationToken ≠ []) :
    (∀ last : ListObjectsResult, last.nextContinuationToken = [] →
      ∃ (code : Int32) (record : Record),
        runPages config deletes ((pages ++ [last]).map .ok)
          (.listPage { liveObjects, cutoffMs }, {}) = (.returned code, record) ∧
        record.Accounts config deletes liveObjects cutoffMs
          ((pages ++ [last]).flatMap ListObjectsResult.objects) ∧
        record.counters.scanned = record.counters.live + record.counters.skippedYoung +
          record.counters.deleted + record.counters.deleteFailed ∧
        (code = 0 ↔ 2 ^ 64 ∣ failures deletes record.requests.length) ∧
        (failures deletes record.requests.length < 2 ^ 64 →
          (code = 0 ↔ ∀ n < record.requests.length, deletes n = true))) ∧
    ∀ (e : Error) (unheard : List (Except Error ListObjectsResult)),
      ∃ record : Record,
        runPages config deletes (pages.map .ok ++ .error e :: unheard)
          (.listPage { liveObjects, cutoffMs }, {}) = (.returned (-1), record) ∧
        record.Accounts config deletes liveObjects cutoffMs
          (pages.flatMap ListObjectsResult.objects) := by
  constructor
  · intro last hlast
    obtain ⟨record, haccounts, hrun⟩ :=
      runPages_returned config deletes liveObjects cutoffMs hpages hlast
    have hcode : (if record.counters.deleteFailed = 0 then 0 else -1 : Int32) = 0 ↔
        2 ^ 64 ∣ failures deletes record.requests.length := by
      rw [← haccounts.deleteFailed_eq_zero]
      split
      next h => exact iff_of_true rfl h
      next h => exact iff_of_false (by decide) h
    refine ⟨_, record, hrun, haccounts, haccounts.scanned_eq, hcode, fun hfew => ?_⟩
    rw [hcode, ← failures_eq_zero]
    constructor
    · exact fun hdvd => Nat.eq_zero_of_dvd_of_lt hdvd hfew
    · intro hzero
      rw [hzero]
      exact dvd_zero _
  · intro e unheard
    obtain ⟨scan, record, -, -, -, haccounts, hrun⟩ :=
      (Record.Accounts.nil config deletes).runPages { liveObjects, cutoffMs } hpages
        (.error e :: unheard) rfl
    exact ⟨record, hrun.trans (runPages_of_returned ..), haccounts⟩

/-- Objects nobody refers to. -/
def failingPage (token : Bytes) : ListObjectsResult where
  objects := List.replicate 64 { key := ascii "pulpfs/chunks/x" }
  nextContinuationToken := token

/-- A listing of `n` such pages and a last one. -/
def failingPages (n : ℕ) : List ListObjectsResult :=
  List.replicate n (failingPage (ascii "t")) ++ [failingPage []]

theorem orphans_failingPages (n : ℕ) :
    orphans [] 0 ((failingPages n).flatMap ListObjectsResult.objects) =
      (failingPages n).flatMap ListObjectsResult.objects := by
  rw [orphans, List.filter_eq_self]
  intro object hobject
  obtain ⟨page, hpage, hobject⟩ := List.mem_flatMap.mp hobject
  have hobjects : page.objects = (failingPage []).objects := by
    rcases List.mem_append.mp hpage with hpage | hpage
    · rw [List.eq_of_mem_replicate hpage]
      rfl
    · rw [List.mem_singleton.mp hpage]
  rw [hobjects] at hobject
  rw [List.eq_of_mem_replicate hobject]
  decide

theorem length_failingPages (n : ℕ) :
    ((failingPages n).flatMap ListObjectsResult.objects).length = (n + 1) * 64 := by
  simp [failingPages, failingPage, List.length_flatMap, Nat.add_mul]

/-- When every delete fails, so many pages make the counter what it was. -/
theorem runPages_failingPages (n : ℕ) (hn : 2 ^ 64 ∣ (n + 1) * 64) :
    ∃ record : Record,
      runPages {} (fun _ => false) ((failingPages n).map .ok)
        (.listPage { liveObjects := [], cutoffMs := 0 }, {}) = (.returned 0, record) ∧
      record.requests.length = (n + 1) * 64 := by
  have hpages : ∀ page ∈ List.replicate n (failingPage (ascii "t")),
      page.nextContinuationToken ≠ [] := by
    intro page hpage
    rw [List.eq_of_mem_replicate hpage]
    decide
  have hlast : (failingPage []).nextContinuationToken = [] := rfl
  obtain ⟨record, haccounts, hrun⟩ := runPages_returned {} (fun _ => false) [] 0 hpages hlast
  have hrequests : record.requests.length = (n + 1) * 64 := by
    rw [haccounts.requests, if_neg Bool.false_ne_true, List.length_map, ← length_failingPages]
    exact congrArg List.length (orphans_failingPages n)
  have hfailures : failures (fun _ => false) record.requests.length = (n + 1) * 64 := by
    rw [hrequests]
    simp [failures]
  refine ⟨record, ?_, hrequests⟩
  rw [failingPages, hrun, if_pos]
  rw [haccounts.deleteFailed_eq_zero, hfailures]
  exact hn

/-- A run in which `2 ^ 64` deletes are tried and none succeeds returns 0. -/
theorem returned_zero_after_failures : ∃ record : Record,
    runPages {} (fun _ => false) ((failingPages (2 ^ 58 - 1)).map .ok)
      (.listPage { liveObjects := [], cutoffMs := 0 }, {}) = (.returned 0, record) ∧
    record.requests.length = 2 ^ 64 :=
  runPages_failingPages (2 ^ 58 - 1) ⟨1, rfl⟩

/-- A live object, a young one and two orphans on two pages; the first of two deletes fails. -/
def mixedPages : List ListObjectsResult :=
  [{ objects := [{ key := ascii "a", lastModifiedMs := 5 }, { key := ascii "b" }]
     nextContinuationToken := ascii "t" },
    { objects := [{ key := ascii "c", lastModifiedMs := 20 }, { key := ascii "d" }] }]

theorem deletes_of_mixedPages :
    ∃ (code : Int32) (record : Record),
      runPages { bucket := ascii "k" } (fun n => n ≠ 0) (mixedPages.map .ok)
        (.listPage { liveObjects := [ascii "a"], cutoffMs := 9 }, {}) = (.returned code, record) ∧
      record.requests = [⟨ascii "k", ascii "b"⟩, ⟨ascii "k", ascii "d"⟩] ∧ code ≠ 0 := by
  obtain ⟨hreturns, -⟩ := deletes_of_run { bucket := ascii "k" } (fun n => n ≠ 0) [ascii "a"] 9
    [{ objects := [{ key := ascii "a", lastModifiedMs := 5 }, { key := ascii "b" }]
       nextContinuationToken := ascii "t" }] (by decide)
  obtain ⟨code, record, hrun, haccounts, -, hcode, -⟩ := hreturns
    { objects := [{ key := ascii "c", lastModifiedMs := 20 }, { key := ascii "d" }] } rfl
  have hrequests : record.requests = [⟨ascii "k", ascii "b"⟩, ⟨ascii "k", ascii "d"⟩] :=
    haccounts.requests.trans (by decide)
  refine ⟨code, record, hrun, hrequests, ?_⟩
  rw [Ne, hcode, hrequests]
  decide

end Pulpfs
