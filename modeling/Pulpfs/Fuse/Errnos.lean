import Pulpfs.Fuse.Server
import Pulpfs.Meta.Rpc
import Pulpfs.Meta.Refusals
import Mathlib.Data.List.TakeWhile

/-! The error number an application sees. An error crosses the wire as a code and a text, and the
client tells the kinds that share a code by the name in front of the text. -/
namespace Pulpfs

/-- A list begins with `x` and then `a` when `x` is what stands before its first `a`. -/
theorem append_singleton_prefix_iff {α : Type*} [DecidableEq α] {x l : List α} {a : α}
    (hx : a ∉ x) : x ++ [a] <+: l ↔ l.takeWhile (· ≠ a) = x ∧ a ∈ l := by
  induction l generalizing x with
  | nil => simp
  | cons b l ih =>
    cases x with
    | nil =>
      by_cases hb : b = a
      · simp [hb]
      · simp [hb, Ne.symm hb]
    | cons c x =>
      rw [List.mem_cons, not_or] at hx
      rw [List.cons_append, List.cons_prefix_cons, ih hx.2]
      by_cases hb : b = a
      · subst hb
        simp [Ne.symm hx.1]
      · simp [Ne.symm hb, eq_comm, and_assoc]

theorem colon_notMem_kindName (kind : ErrorKind) : 58 ∉ kindName kind := by
  cases kind
  all_goals
    simp only [kindName, errorKindName]
    decide

/-- The name of the kind can be read off the text, and the colon says that there is a message. -/
theorem Error.takeWhile_toText (e : Error) :
    e.toText.takeWhile (· ≠ 58) = kindName e.kind ∧ (58 ∈ e.toText ↔ e.message ≠ []) := by
  have hname : ∀ b ∈ kindName e.kind, (b ≠ 58 : Bool) = true := by
    intro b hb
    rw [decide_eq_true_eq]
    rintro rfl
    exact colon_notMem_kindName e.kind hb
  unfold Error.toText
  split
  next hempty =>
    rw [List.isEmpty_iff] at hempty
    refine ⟨List.takeWhile_eq_self_iff.mpr hname, ?_⟩
    simp [hempty, colon_notMem_kindName]
  next hempty =>
    rw [List.isEmpty_iff] at hempty
    have htext : kindName e.kind ++ ascii ": " ++ e.message =
        kindName e.kind ++ 58 :: 32 :: e.message := List.append_assoc (kindName e.kind) [58, 32] _
    rw [htext, List.takeWhile_append_of_pos hname]
    simp [hempty]

/-- What `FromGrpcStatus` would find at the beginning of a text that is still there. -/
theorem sniffed_iff {text name : Bytes} (htext : text = name ++ [58]) (hname : 58 ∉ name)
    (e : Error) : text <+: (toGrpcStatus e).message ↔ kindName e.kind = name ∧ e.message ≠ [] := by
  show text <+: e.toText ↔ _
  rw [htext, append_singleton_prefix_iff hname, e.takeWhile_toText.1, e.takeWhile_toText.2]

theorem sniffed_notDirectory (e : Error) : ascii "NotDirectory:" <+: (toGrpcStatus e).message ↔
    kindName e.kind = ascii "NotDirectory" ∧ e.message ≠ [] :=
  sniffed_iff (by decide) (by decide) e

theorem sniffed_isDirectory (e : Error) : ascii "IsDirectory:" <+: (toGrpcStatus e).message ↔
    kindName e.kind = ascii "IsDirectory" ∧ e.message ≠ [] :=
  sniffed_iff (by decide) (by decide) e

theorem sniffed_directoryNotEmpty (e : Error) :
    ascii "DirectoryNotEmpty:" <+: (toGrpcStatus e).message ↔
    kindName e.kind = ascii "DirectoryNotEmpty" ∧ e.message ≠ [] :=
  sniffed_iff (by decide) (by decide) e

/-- A view shows none of the names that are looked for. -/
def ShowsNoName (view : Bytes) : Prop :=
  ¬ ascii "NotDirectory:" <+: view ∧ ¬ ascii "IsDirectory:" <+: view ∧
    ¬ ascii "DirectoryNotEmpty:" <+: view

/-- The client tells the kind by what it is shown: the name that is looked for, or none where the
code has to tell. It makes other kinds of `NotLeader` and `RaftFailure` whatever it is shown. -/
def Error.Distinct (e : Error) (view : Bytes) : Prop :=
  match e.kind with
  | .notDirectory _ => ascii "NotDirectory:" <+: view
  | .isDirectory _ => ascii "IsDirectory:" <+: view
  | .directoryNotEmpty _ => ascii "DirectoryNotEmpty:" <+: view
  | .notLeader _ => False
  | .raftFailure => False
  | _ => ShowsNoName view

/-- The text would tell the kind if it were still there. The kinds told by their name need a
message, since without one there is no colon. -/
def Error.SpeltOut (e : Error) : Prop :=
  match e.kind with
  | .notDirectory _ => e.message ≠ []
  | .isDirectory _ => e.message ≠ []
  | .directoryNotEmpty _ => e.message ≠ []
  | .notLeader _ => False
  | .raftFailure => False
  | _ => True

/-- The names of the kinds looked for are not those of other kinds. -/
theorem Error.distinct_toText (e : Error) : e.Distinct (toGrpcStatus e).message ↔ e.SpeltOut := by
  have hnone {kind : ErrorKind} {message : Bytes}
      (h : kindName kind ∉ [ascii "NotDirectory", ascii "IsDirectory", ascii "DirectoryNotEmpty"]) :
      ShowsNoName (toGrpcStatus ⟨kind, message⟩).message := by
    simp only [List.mem_cons, List.not_mem_nil, or_false, not_or] at h
    obtain ⟨hnotDirectory, hisDirectory, hnotEmpty⟩ := h
    exact ⟨fun hs => hnotDirectory ((sniffed_notDirectory _).mp hs).1,
      fun hs => hisDirectory ((sniffed_isDirectory _).mp hs).1,
      fun hs => hnotEmpty ((sniffed_directoryNotEmpty _).mp hs).1⟩
  have hnotDirectory := sniffed_notDirectory e
  have hisDirectory := sniffed_isDirectory e
  have hnotEmpty := sniffed_directoryNotEmpty e
  obtain ⟨kind, message⟩ := e
  unfold Distinct SpeltOut
  cases kind with
  | notDirectory => exact hnotDirectory.trans (and_iff_right rfl)
  | isDirectory => exact hisDirectory.trans (and_iff_right rfl)
  | directoryNotEmpty => exact hnotEmpty.trans (and_iff_right rfl)
  | notLeader => exact Iff.rfl
  | raftFailure => exact Iff.rfl
  | _ => exact iff_of_true (hnone (by simp +decide [kindName, errorKindName])) trivial

/-- What the client makes of a status by what its view of the text shows. -/
theorem fromGrpcStatus_cases (memory : ℕ → UInt8) (status : GrpcStatus) :
    (ascii "NotDirectory:" <+: shown memory status.message ∧
      toErrno (fromGrpcStatus memory status) = .enotdir) ∨
    (ascii "IsDirectory:" <+: shown memory status.message ∧
      toErrno (fromGrpcStatus memory status) = .eisdir) ∨
    (ascii "DirectoryNotEmpty:" <+: shown memory status.message ∧
      toErrno (fromGrpcStatus memory status) = .enotempty) ∨
    (ShowsNoName (shown memory status.message) ∧
      toErrno (fromGrpcStatus memory status) =
        match status.code with
        | .invalidArgument => .einval
        | .notFound => .enoent
        | .alreadyExists => .eexist
        | .failedPrecondition => .einval
        | .unavailable => .eagain
        | .deadlineExceeded => .etimedout
        | .internal => .eio
        | .other _ => .eio) := by
  unfold fromGrpcStatus
  dsimp only
  split
  next hshown => exact .inl ⟨hshown, rfl⟩
  next hnotDirectory =>
    split
    next hshown => exact .inr (.inl ⟨hshown, rfl⟩)
    next hisDirectory =>
      split
      next hshown => exact .inr (.inr (.inl ⟨hshown, rfl⟩))
      next hnotEmpty =>
        refine .inr (.inr (.inr ⟨⟨hnotDirectory, hisDirectory, hnotEmpty⟩, ?_⟩))
        cases status.code <;> rfl

/-- No view begins with two of the names. -/
theorem not_prefix_of_prefix {a b view : Bytes} (ha : a <+: view) (hne : ¬ a <+: b)
    (hne' : ¬ b <+: a) : ¬ b <+: view := by
  intro hb
  rcases List.prefix_or_prefix_of_prefix ha hb with h | h
  · exact hne h
  · exact hne' h

/-- The four tables composed: code and text, prefix and code, errno. -/
theorem toErrno_wire_iff (memory : ℕ → UInt8) (e : Error) :
    toErrno (fromGrpcStatus memory (toGrpcStatus e)) = toErrno e ↔
      e.Distinct (shown memory (toGrpcStatus e).message) := by
  have hcases := fromGrpcStatus_cases memory (toGrpcStatus e)
  generalize shown memory (toGrpcStatus e).message = view at hcases ⊢
  obtain ⟨kind, message⟩ := e
  rcases hcases with ⟨hshown, herrno⟩ | ⟨hshown, herrno⟩ | ⟨hshown, herrno⟩ | ⟨hshown, herrno⟩
  · have hisDirectory : ¬ ascii "IsDirectory:" <+: view :=
      not_prefix_of_prefix hshown (by decide) (by decide)
    have hnotEmpty : ¬ ascii "DirectoryNotEmpty:" <+: view :=
      not_prefix_of_prefix hshown (by decide) (by decide)
    rw [herrno]
    cases kind <;> simp [Error.Distinct, ShowsNoName, toErrno, hshown, hisDirectory, hnotEmpty]
  · have hnotDirectory : ¬ ascii "NotDirectory:" <+: view :=
      not_prefix_of_prefix hshown (by decide) (by decide)
    have hnotEmpty : ¬ ascii "DirectoryNotEmpty:" <+: view :=
      not_prefix_of_prefix hshown (by decide) (by decide)
    rw [herrno]
    cases kind <;> simp [Error.Distinct, ShowsNoName, toErrno, hshown, hnotDirectory, hnotEmpty]
  · have hnotDirectory : ¬ ascii "NotDirectory:" <+: view :=
      not_prefix_of_prefix hshown (by decide) (by decide)
    have hisDirectory : ¬ ascii "IsDirectory:" <+: view :=
      not_prefix_of_prefix hshown (by decide) (by decide)
    rw [herrno]
    cases kind <;> simp [Error.Distinct, ShowsNoName, toErrno, hshown, hnotDirectory, hisDirectory]
  · -- No name is shown, so that the code decides.
    obtain ⟨hnotDirectory, hisDirectory, hnotEmpty⟩ := hshown
    rw [herrno]
    cases kind <;> simp [Error.Distinct, ShowsNoName, toErrno, toGrpcStatus, toGrpcStatusCode,
      hnotDirectory, hisDirectory, hnotEmpty]

/-- The response of raft gives back the kinds it can name, path and text included. -/
theorem errorFromResponse_of_isNamed {e : Error} (h : e.kind.isNamed = true) :
    errorFromResponse
      { kind := errorKindName e.kind, message := e.message, path := errorPath e.kind } = e := by
  obtain ⟨kind, message⟩ := e
  unfold errorFromResponse errorPath
  cases kind with
  | notLeader => contradiction
  | unavailable => contradiction
  | timeout => contradiction
  | internal => contradiction
  | raftFailure => contradiction
  | _ => simp +decide [errorKindName]

theorem Error.IsRefusal.speltOut {e : Error} (h : e.IsRefusal) : e.SpeltOut := by
  obtain ⟨kind, message⟩ := e
  obtain ⟨hkind, hmessage⟩ := h
  cases kind with
  | notDirectory => exact hmessage
  | isDirectory => exact hmessage
  | directoryNotEmpty => exact hmessage
  | notLeader => contradiction
  | raftFailure => contradiction
  | _ => trivial

/-- The errors of reads go to the client without raft, and they are spelt out too. -/
theorem read_speltOut (s : MetaState) (e : Error)
    (h : (∃ p n, s.lookup p n = .error e) ∨ (∃ i, s.getAttr i = .error e) ∨
      (∃ i, s.readDir i = .error e) ∨ ∃ i, s.getLayout i = .error e) : e.SpeltOut := by
  rcases h with ⟨p, n, h⟩ | ⟨i, h⟩ | ⟨i, h⟩ | ⟨i, h⟩
  · exact ((s.lookup_refuses p n).isRefusal h).speltOut
  · exact ((s.getAttr_refuses i).isRefusal h).speltOut
  · exact ((s.readDir_refuses i).isRefusal h).speltOut
  · exact ((s.getLayout_refuses i).isRefusal h).speltOut

/-- The number an application sees is that of the error the service returned, exactly where the
client's view of the text shows what tells the kind apart. The text itself would for every error
the state machine refuses with, also after it went through the response of raft, but the view need
not show it. -/
theorem errno_kept [OffsetSort] :
    (∀ (memory : ℕ → UInt8) (e : Error),
      toErrno (fromGrpcStatus memory (toGrpcStatus e)) = toErrno e ↔
        e.Distinct (shown memory (toGrpcStatus e).message)) ∧
    (∀ e : Error, e.Distinct (toGrpcStatus e).message ↔ e.SpeltOut) ∧
    ∀ (memory : ℕ → UInt8) (s s' : MetaState) (clock : Clock) (c : Command) (e : Error),
      s.execute clock c = (.error e, s') →
      ∃ r, (makeErrorResponse e).inodeResult = .error r ∧
        (makeErrorResponse e).appendResult = .error r ∧
        (toErrno (fromGrpcStatus memory (toGrpcStatus r)) = toErrno e ↔
          e.Distinct (shown memory (toGrpcStatus e).message)) ∧
        e.SpeltOut := by
  refine ⟨toErrno_wire_iff, Error.distinct_toText, ?_⟩
  intro memory s s' clock c e h
  have hnamed : e.IsRefusal := (s.execute_refuses clock c).isRefusal (congrArg Prod.fst h)
  have hback := errorFromResponse_of_isNamed hnamed.1
  exact ⟨e, congrArg Except.error hback, congrArg Except.error hback, toErrno_wire_iff memory e,
    hnamed.speltOut⟩

/-- A state with a file, and the error of making another one in it. -/
def fileState : MetaState :=
  ((MetaState.fresh 4096 0).createFile (fun _ => 5) 1 (ascii "f") 0o644 0 0).2

def parentError : Error := makeError (.notDirectory (ascii "2")) "parent inode is not a directory"

theorem fileState_refuses :
    ∃ s', @MetaState.execute .insertion (fun _ => 5) fileState
      (.createFile 2 (ascii "g") 0o644 0 0) = (.error parentError, s') :=
  ⟨_, Prod.ext (by decide +kernel) rfl⟩

theorem errno_kept_of_parentError :
    ∃ r, (makeErrorResponse parentError).inodeResult = .error r ∧
      (makeErrorResponse parentError).appendResult = .error r ∧
      (toErrno (fromGrpcStatus (fun _ => 0) (toGrpcStatus r)) = toErrno parentError ↔
        parentError.Distinct (shown (fun _ => 0) (toGrpcStatus parentError).message)) ∧
      parentError.SpeltOut :=
  fileState_refuses.elim fun s' h => (@errno_kept .insertion).2.2 (fun _ => 0) fileState s'
    (fun _ => 5) (.createFile 2 (ascii "g") 0o644 0 0) parentError h

/-- The place of a text with the text still in it. -/
def intact (text : Bytes) (i : ℕ) : UInt8 := text.getD i 0

/-- A refusal whose text is gone: `ENOTDIR` becomes `EINVAL`. With the text still there `EAGAIN`
becomes `EINVAL`, `EIO` becomes `EAGAIN`, and `ENOTDIR` without a message becomes `EINVAL`. -/
theorem errno_changed :
    (∃ s', @MetaState.execute .insertion (fun _ => 5) fileState
        (.createFile 2 (ascii "g") 0o644 0 0) = (.error parentError, s')) ∧
    toErrno (fromGrpcStatus (fun _ => 0) (toGrpcStatus parentError)) ≠ toErrno parentError ∧
    ∀ e ∈ [⟨.notLeader 0, ascii "lost leadership"⟩, ⟨.raftFailure, ascii "raft"⟩,
        ⟨.notDirectory [], []⟩],
      shown (intact (toGrpcStatus e).message) (toGrpcStatus e).message = (toGrpcStatus e).message ∧
      toErrno (fromGrpcStatus (intact (toGrpcStatus e).message) (toGrpcStatus e)) ≠ toErrno e :=
  ⟨fileState_refuses, by decide, by decide⟩

end Pulpfs
