import Pulpfs.Foundations.ByteFile
import Mathlib.Logic.Function.Basic

/-! Files that several clients have open at once. An open file shows what the file was when it was
opened or last committed to, with the client's own writes laid over it, and these reach the file
together when they are committed. -/
namespace Sessions
open Overlay Function

variable {ι η κ β γ : Type*}

/-- A write at an offset, or at the end of the file where there is none. -/
structure Write (β : Type*) where
  offset : Option ℕ
  data : List β
  deriving DecidableEq

/-- An open file. -/
structure Opened (κ β : Type*) where
  file : κ
  writable : Bool
  append : Bool
  seen : List β
  queue : List (Write β) := []
  deriving DecidableEq

variable (zero : β)

/-- The writes, in order. -/
def lay (file : List β) (ws : List (Write β)) : List β :=
  ws.foldl (fun file w => writeAt zero file (w.offset.getD file.length) w.data) file

@[simp] theorem lay_nil (file : List β) : lay zero file [] = file := rfl

theorem lay_cons (file : List β) (w : Write β) (ws : List (Write β)) :
    lay zero file (w :: ws) =
      lay zero (writeAt zero file (w.offset.getD file.length) w.data) ws := rfl

/-- What the client reads. -/
def Opened.shown (o : Opened κ β) : List β := lay zero o.seen o.queue

/-- What it has written joins the queue. -/
def Opened.write (o : Opened κ β) (offset : ℕ) (data : List β) : Opened κ β :=
  { o with queue := o.queue ++ [⟨if o.append then none else some offset, data⟩] }

/-- A file cut or filled up to a size. -/
def cutOrFill (file : List β) (n : ℕ) : List β :=
  file.take n ++ List.replicate (n - file.length) zero

/-- What a commit makes of the file and of the open file. It may fail with nothing done, or with
everything done but the answer; one that succeeds may leave the client with what it saw before. -/
inductive Commits (o : Opened κ β) :
    Option (List β) → Bool → Option (List β) → Opened κ β → Prop
  | idle {file : Option (List β)} : o.queue = [] → Commits o file true file o
  | lost {file : Option (List β)} : Commits o file false file o
  | unanswered {r : List β} : Commits o (some r) false (some (lay zero r o.queue)) o
  | done {r seen : List β} : seen = o.seen ∨ seen = lay zero r o.queue →
      Commits o (some r) true (some (lay zero r o.queue)) { o with seen, queue := [] }

/-- How a file changes that nobody writes to. -/
inductive Changes : Option (List β) → Option (List β) → Prop
  | kept (file : Option (List β)) : Changes file file
  | removed (file : Option (List β)) : Changes file none
  | created : Changes none (some [])
  | resized (r : List β) (n : ℕ) : Changes (some r) (some (cutOrFill zero r n))

/-- The files by their numbers, and what each client has open under which handle. -/
structure State (ι η κ β : Type*) where
  files : κ → Option (List β)
  sessions : ι → η → Option (Opened κ β)

/-- What a client asked for and was told. -/
inductive Event (ι η κ β : Type*) where
  | created (client : ι) (handle : η) (file : κ) (writable append : Bool)
  | notCreated
  | opened (client : ι) (handle : η) (file : κ) (writable append cut : Bool)
  | notOpened (file : κ) (cut : Bool)
  | wrote (client : ι) (handle : η) (offset : ℕ) (data : List β)
  | read (client : ι) (handle : η) (offset size : ℕ) (data : List β)
  | notRead (client : ι) (handle : η)
  | committed (client : ι) (handle : η) (answered : Bool)
  | released (client : ι) (handle : η) (answered : Bool)
  | refused
  | outside
  deriving DecidableEq

section Steps

variable [DecidableEq ι] [DecidableEq η] [DecidableEq κ]

def State.put (a : State ι η κ β) (client : ι) (handle : η) (o : Option (Opened κ β)) :
    State ι η κ β :=
  { a with sessions := update a.sessions client (update (a.sessions client) handle o) }

def State.store (a : State ι η κ β) (file : κ) (r : Option (List β)) : State ι η κ β :=
  { a with files := update a.files file r }

/-- What an event does. -/
inductive Step (a : State ι η κ β) : Event ι η κ β → State ι η κ β → Prop
  | created {i : ι} {h : η} {f : κ} {writable append : Bool} : a.files f = none →
      Step a (.created i h f writable append)
        ((a.store f (some [])).put i h (some { file := f, writable, append, seen := [] }))
  | notCreated : Step a .notCreated a
  | halfCreated {f : κ} : a.files f = none → Step a .notCreated (a.store f (some []))
  | opened {i : ι} {h : η} {f : κ} {writable append : Bool} {r : List β} : a.files f = some r →
      Step a (.opened i h f writable append false)
        (a.put i h (some { file := f, writable, append, seen := r }))
  | openedCut {i : ι} {h : η} {f : κ} {writable append : Bool} {r : List β} :
      a.files f = some r →
      Step a (.opened i h f writable append true)
        ((a.store f (some [])).put i h (some { file := f, writable, append, seen := [] }))
  | notOpened {f : κ} {cut : Bool} : Step a (.notOpened f cut) a
  | halfOpened {f : κ} {r : List β} : a.files f = some r →
      Step a (.notOpened f true) (a.store f (some []))
  | wrote {i : ι} {h : η} {o : Opened κ β} {offset : ℕ} {data : List β} :
      a.sessions i h = some o → o.writable = true →
      Step a (.wrote i h offset data) (a.put i h (some (o.write offset data)))
  | read {i : ι} {h : η} {o : Opened κ β} {offset size : ℕ} : a.sessions i h = some o →
      Step a (.read i h offset size (((o.shown zero).drop offset).take size)) a
  | notRead {i : ι} {h : η} : a.sessions i h = none → Step a (.notRead i h) a
  | committed {i : ι} {h : η} {o o' : Opened κ β} {answered : Bool} {r' : Option (List β)} :
      a.sessions i h = some o → Commits zero o (a.files o.file) answered r' o' →
      Step a (.committed i h answered) ((a.store o.file r').put i h (some o'))
  | notCommitted {i : ι} {h : η} : a.sessions i h = none → Step a (.committed i h true) a
  | released {i : ι} {h : η} {o o' : Opened κ β} {answered : Bool} {r' : Option (List β)} :
      a.sessions i h = some o → Commits zero o (a.files o.file) answered r' o' →
      Step a (.released i h answered) ((a.store o.file r').put i h none)
  | notReleased {i : ι} {h : η} : a.sessions i h = none → Step a (.released i h true) a
  | refused : Step a .refused a
  | outside {a' : State ι η κ β} : (∀ f, Changes zero (a.files f) (a'.files f)) →
      a'.sessions = a.sessions → Step a .outside a'

/-- What a client wrote under a handle, that appends or not. -/
def Event.written (i : ι) (h : η) (append : Bool) : Event ι η κ β → Option (Write β)
  | .wrote j g offset data =>
    if j = i ∧ g = h then some ⟨if append then none else some offset, data⟩ else none
  | _ => none

/-- The event opens a file under a handle. -/
def Event.Opens (i : ι) (h : η) : Event ι η κ β → Prop
  | .created j g _ _ _ => j = i ∧ g = h
  | .opened j g _ _ _ _ => j = i ∧ g = h
  | _ => False

/-- The event commits or closes what is open under a handle. -/
def Event.Commits (i : ι) (h : η) : Event ι η κ β → Prop
  | .committed j g _ => j = i ∧ g = h
  | .released j g _ => j = i ∧ g = h
  | _ => False

instance (i : ι) (h : η) (event : Event ι η κ β) : Decidable (event.Commits i h) :=
  match event with
  | .committed .. => inferInstanceAs (Decidable (_ ∧ _))
  | .released .. => inferInstanceAs (Decidable (_ ∧ _))
  | .created .. => .isFalse id
  | .notCreated => .isFalse id
  | .opened .. => .isFalse id
  | .notOpened .. => .isFalse id
  | .wrote .. => .isFalse id
  | .read .. => .isFalse id
  | .notRead .. => .isFalse id
  | .refused => .isFalse id
  | .outside => .isFalse id

/-- The event, after which the state is `a'`, does nothing to the file `f`. -/
def Event.Spares (f : κ) (a a' : State ι η κ β) : Event ι η κ β → Prop
  | .opened _ _ g _ _ cut => g = f → cut = false
  | .notOpened g cut => g = f → cut = false
  | .committed i h _ => ∀ o, a.sessions i h = some o → o.file = f → o.queue = []
  | .released i h _ => ∀ o, a.sessions i h = some o → o.file = f → o.queue = []
  | .outside => a'.files f = a.files f
  | _ => True

variable {zero} {a a' b : State ι η κ β} {event : Event ι η κ β}

omit [DecidableEq κ] in
theorem put_sessions_of_ne {i j : ι} {h g : η} {o : Option (Opened κ β)}
    (hne : ¬ (j = i ∧ g = h)) : (a.put j g o).sessions i h = a.sessions i h := by
  show update a.sessions j (update (a.sessions j) g o) i h = _
  by_cases hi : j = i
  · subst hi
    rw [update_self, update_of_ne fun hg => hne ⟨rfl, hg.symm⟩]
  · rw [update_of_ne (Ne.symm hi)]

omit [DecidableEq ι] [DecidableEq η] in
theorem store_files_of_ne {f g : κ} {r : Option (List β)} (hne : g ≠ f) :
    (a.store g r).files f = a.files f := update_of_ne (Ne.symm hne) _ _

omit [DecidableEq κ] in
/-- A commit with nothing queued leaves the file as it is. -/
theorem Commits.file_of_idle {o o' : Opened κ β} {r r' : Option (List β)} {answered : Bool}
    (h : Commits zero o r answered r' o') (hidle : o.queue = []) : r' = r := by
  cases h with
  | idle => rfl
  | lost => rfl
  | unanswered => rw [hidle, lay_nil]
  | done => rw [hidle, lay_nil]

omit [DecidableEq κ] in
/-- A commit that is answered has laid the queue over the file. -/
theorem Commits.file_of_answered {o o' : Opened κ β} {r : List β} {r' : Option (List β)}
    (h : Commits zero o (some r) true r' o') : r' = some (lay zero r o.queue) := by
  cases h with
  | idle hidle => rw [hidle, lay_nil]
  | done => rfl

/-- What is open stays as it is, but for what is written under the handle. -/
theorem Step.session (hs : Step zero a event a') {i : ι} {h : η} (hopens : ¬ event.Opens i h)
    (hcommits : ¬ event.Commits i h) {o : Opened κ β} (ho : a.sessions i h = some o) :
    a'.sessions i h = some { o with queue := o.queue ++ (event.written i h o.append).toList } := by
  have hkept {b : State ι η κ β} (hb : b.sessions i h = a.sessions i h)
      (hnone : event.written i h o.append = none) :
      b.sessions i h = some { o with queue := o.queue ++ (event.written i h o.append).toList } := by
    rw [hb, hnone, Option.toList_none, List.append_nil]
    exact ho
  cases hs with
  | created => exact hkept (put_sessions_of_ne hopens) rfl
  | notCreated => exact hkept rfl rfl
  | halfCreated => exact hkept rfl rfl
  | opened => exact hkept (put_sessions_of_ne hopens) rfl
  | openedCut => exact hkept (put_sessions_of_ne hopens) rfl
  | notOpened => exact hkept rfl rfl
  | halfOpened => exact hkept rfl rfl
  | @wrote j g o' offset data hget hwritable =>
    by_cases hsame : j = i ∧ g = h
    · obtain ⟨rfl, rfl⟩ := hsame
      obtain rfl := Option.some.inj (hget.symm.trans ho)
      show update a.sessions j (update (a.sessions j) g (some (o'.write offset data))) j g = _
      rw [update_self, update_self]
      simp only [Event.written, and_self, if_true, Option.toList_some]
      rfl
    · exact hkept (put_sessions_of_ne hsame) (if_neg hsame)
  | read => exact hkept rfl rfl
  | notRead => exact hkept rfl rfl
  | committed => exact hkept (put_sessions_of_ne hcommits) rfl
  | notCommitted => exact hkept rfl rfl
  | released => exact hkept (put_sessions_of_ne hcommits) rfl
  | notReleased => exact hkept rfl rfl
  | refused => exact hkept rfl rfl
  | outside _ hsame => exact hkept (congrFun (congrFun hsame i) h) rfl

/-- A file that an event spares stays as it is. -/
theorem Step.file (hs : Step zero a event a') {f : κ} (hspares : event.Spares f a a')
    {r : List β} (hr : a.files f = some r) : a'.files f = some r := by
  have hother {g : κ} (hg : a.files g = none) : g ≠ f := by
    rintro rfl
    rw [hr] at hg
    contradiction
  have hcommit {o o' : Opened κ β} {answered : Bool} {r' : Option (List β)}
      (hc : Commits zero o (a.files o.file) answered r' o')
      (hidle : o.file = f → o.queue = []) : (a.store o.file r').files f = some r := by
    by_cases hf : o.file = f
    · show update a.files o.file r' f = _
      rw [hc.file_of_idle (hidle hf), update_eq_self]
      exact hr
    · rw [store_files_of_ne hf]
      exact hr
  cases hs with
  | created hnone => exact (store_files_of_ne (hother hnone)).trans hr
  | notCreated => exact hr
  | halfCreated hnone => exact (store_files_of_ne (hother hnone)).trans hr
  | opened => exact hr
  | openedCut =>
    have hne : _ ≠ f := fun he => Bool.noConfusion (hspares he)
    exact (store_files_of_ne hne).trans hr
  | notOpened => exact hr
  | halfOpened =>
    have hne : _ ≠ f := fun he => Bool.noConfusion (hspares he)
    exact (store_files_of_ne hne).trans hr
  | wrote => exact hr
  | read => exact hr
  | notRead => exact hr
  | committed ho hc => exact hcommit hc (hspares _ ho)
  | notCommitted => exact hr
  | released ho hc => exact hcommit hc (hspares _ ho)
  | notReleased => exact hr
  | refused => exact hr
  | outside => exact hspares.trans hr

/-- A run whose steps all meet a condition. -/
inductive Run (zero : β) (P : State ι η κ β → Event ι η κ β → State ι η κ β → Prop) :
    State ι η κ β → List (Event ι η κ β) → State ι η κ β → Prop
  | nil (a : State ι η κ β) : Run zero P a [] a
  | cons {a a' b : State ι η κ β} {event : Event ι η κ β} {events : List (Event ι η κ β)} :
      Step zero a event a' → P a event a' → Run zero P a' events b →
      Run zero P a (event :: events) b

variable {events : List (Event ι η κ β)}

theorem Run.session {i : ι} {h : η}
    (hrun : Run zero (fun _ event _ => ¬ event.Opens i h ∧ ¬ event.Commits i h) a events b)
    {o : Opened κ β} (ho : a.sessions i h = some o) :
    b.sessions i h =
      some { o with queue := o.queue ++ events.filterMap (Event.written i h o.append) } := by
  induction hrun generalizing o with
  | nil => simpa using ho
  | @cons a a' b event events hstep hne _ ih =>
    have hone := ih (hstep.session hne.1 hne.2 ho)
    rw [hone]
    cases hw : event.written i h o.append with
    | none => simp [hw]
    | some w => simp [hw]

theorem Run.file {f : κ} (hrun : Run zero (fun a event a' => event.Spares f a a') a events b)
    {r : List β} (hr : a.files f = some r) : b.files f = some r := by
  induction hrun with
  | nil => exact hr
  | cons hstep hspares _ ih => exact ih (hstep.file hspares hr)

/-- An answered commit has laid the queue over the file. -/
theorem Step.file_of_answered {i : ι} {h : η}
    (hevent : event = .committed i h true ∨ event = .released i h true)
    (hs : Step zero a event a') {o : Opened κ β} (ho : a.sessions i h = some o) {r : List β}
    (hr : a.files o.file = some r) : a'.files o.file = some (lay zero r o.queue) := by
  have hdone {o₁ o' : Opened κ β} {r' : Option (List β)} (ho₁ : a.sessions i h = some o₁)
      (hc : Commits zero o₁ (a.files o₁.file) true r' o') :
      (a.store o₁.file r').files o.file = some (lay zero r o.queue) := by
    obtain rfl := Option.some.inj (ho₁.symm.trans ho)
    rw [hr] at hc
    rw [hc.file_of_answered]
    exact update_self ..
  rcases hevent with rfl | rfl
  · cases hs with
    | committed ho₁ hc => exact hdone ho₁ hc
    | notCommitted hnone => exact absurd (hnone.symm.trans ho) (Option.some_ne_none _).symm
  · cases hs with
    | released ho₁ hc => exact hdone ho₁ hc
    | notReleased hnone => exact absurd (hnone.symm.trans ho) (Option.some_ne_none _).symm

/-- Close to open: who opens a file after a commit that was answered reads what was committed, and
what he writes himself, whatever is done to the file meanwhile. -/
theorem Step.close_to_open {i j : ι} {h g : η} {c d e e' : State ι η κ β} {o : Opened κ β}
    {r : List β} {mid own : List (Event ι η κ β)} {writable append : Bool} {offset size : ℕ}
    {data : List β} (hevent : event = .committed i h true ∨ event = .released i h true)
    (hclose : Step zero a event b) (ho : a.sessions i h = some o) (hr : a.files o.file = some r)
    (hmid : Run zero (fun a event a' => event.Spares o.file a a') b mid c)
    (hopen : Step zero c (.opened j g o.file writable append false) d)
    (hown : Run zero (fun _ event _ => ¬ event.Opens j g ∧ ¬ event.Commits j g) d own e)
    (hread : Step zero e (.read j g offset size data) e') :
    data = ((lay zero (lay zero r o.queue)
      (own.filterMap (Event.written j g append))).drop offset).take size := by
  have hfile := hmid.file (hclose.file_of_answered hevent ho hr)
  cases hopen with
  | @opened _ _ _ _ _ r' hr' =>
    obtain rfl := Option.some.inj (hr'.symm.trans hfile)
    have hput : (c.put j g (some ⟨o.file, writable, append, lay zero r o.queue, []⟩)).sessions j g =
        some ⟨o.file, writable, append, lay zero r o.queue, []⟩ := by
      show update c.sessions j (update (c.sessions j) g (some _)) j g = _
      rw [update_self, update_self]
    have hsession := hown.session hput
    cases hread with
    | read ho' =>
      obtain rfl := Option.some.inj (ho'.symm.trans hsession)
      rfl

end Steps

section Bytes

variable {zero} (value : γ → β)

/-- The values of a patch. -/
def data (p : Patch γ) : List β := window (fun x => value (p.value x)) p.start (p.stop - p.start)

theorem length_data (p : Patch γ) : (data value p).length = p.stop - p.start := length_window ..

theorem data_shift (p : Patch γ) (d : ℕ) : data value (p.shift d) = data value p := by
  apply List.ext_getElem
  · rw [length_data, length_data]
    show d + p.stop - (d + p.start) = _
    omega
  · intro i hi hi'
    simp only [data, getElem_window]
    show value (p.value (d + p.start + i - d)) = _
    congr 2
    omega

variable {value} {r : SparseFile γ}

/-- Patches laid over a file are writes. -/
theorem bytes_write_patch (h : r.Confined) {p : Patch γ} (hp : p.start < p.stop) :
    (r.write [p]).bytes value zero = writeAt zero (r.bytes value zero) p.start (data value p) := by
  have hlength := length_data value p
  refine SparseFile.bytes_write value zero h ?_ (by omega) fun i hi => ?_
  · rw [← List.length_pos_iff]
    omega
  · simp only [data, getElem_window]

theorem bytes_write_all (h : r.Confined) {ps : List (Patch γ)}
    (hps : ∀ p ∈ ps, p.start < p.stop) :
    (r.write ps).bytes value zero =
      lay zero (r.bytes value zero) (ps.map fun p => ⟨some p.start, data value p⟩) := by
  induction ps generalizing r with
  | nil => rfl
  | cons p ps ih =>
    rw [List.forall_mem_cons] at hps
    have hsplit : r.write (p :: ps) = (r.write [p]).write ps := r.write_append [p] ps
    rw [hsplit, ih (h.write [p]) hps.2, List.map_cons, lay_cons, bytes_write_patch h hps.1]
    rfl

/-- Each patch begins where the one before it ends, from `start` on up to `stop`. -/
def Abut (start : ℕ) (stop : ℕ) : List (Patch γ) → Prop
  | [] => start = stop
  | p :: ps => p.start = start ∧ Abut p.stop stop ps

theorem Abut.concat {start stop : ℕ} {ps : List (Patch γ)} (h : Abut start stop ps)
    {p : Patch γ} (hp : p.start = stop) : Abut start p.stop (ps ++ [p]) := by
  induction ps generalizing start with
  | nil =>
    rw [Abut] at h
    exact ⟨hp.trans h.symm, rfl⟩
  | cons q ps ih => exact ⟨h.1, ih h.2⟩

theorem Abut.le {start stop : ℕ} {ps : List (Patch γ)} (h : Abut start stop ps)
    (hps : ∀ p ∈ ps, p.start < p.stop) : start ≤ stop ∧ ∀ p ∈ ps, p.stop ≤ stop := by
  induction ps generalizing start with
  | nil => exact ⟨Nat.le_of_eq h, by simp⟩
  | cons q ps ih =>
    rw [List.forall_mem_cons] at hps ⊢
    obtain ⟨hstart, hrest⟩ := h
    obtain ⟨hle, hall⟩ := ih hrest hps.2
    exact ⟨by omega, hle, hall⟩

/-- Patches that abut, moved to the end of a file, are appended to it. -/
theorem bytes_append_all (h : r.Confined) {base start stop : ℕ} {ps : List (Patch γ)}
    (hps : ∀ p ∈ ps, p.start < p.stop) (habut : Abut start stop ps)
    (hsize : r.size = base + start) :
    (r.write (ps.map (Patch.shift base))).bytes value zero =
      lay zero (r.bytes value zero) (ps.map fun p => ⟨none, data value p⟩) := by
  induction ps generalizing r start with
  | nil => rfl
  | cons p ps ih =>
    rw [List.forall_mem_cons] at hps
    obtain ⟨hstart, hrest⟩ := habut
    have hsplit : r.write ((p :: ps).map (Patch.shift base)) =
        (r.write [p.shift base]).write (ps.map (Patch.shift base)) :=
      r.write_append [p.shift base] _
    have hplace : (p.shift base).start = r.size := by
      show base + p.start = _
      omega
    have hsize' : (r.write [p.shift base]).size = base + p.stop := by
      show max r.size (base + p.stop) = _
      omega
    have hpos : (p.shift base).start < (p.shift base).stop := Nat.add_lt_add_left hps.1 base
    rw [hsplit, ih (h.write _) hps.2 hrest hsize', List.map_cons, lay_cons,
      bytes_write_patch h hpos, data_shift, hplace]
    rw [Option.getD_none, SparseFile.length_bytes]

end Bytes

end Sessions
