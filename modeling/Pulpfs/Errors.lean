import Mathlib.Data.Nat.Notation

/-! Byte strings and the error type of `error.h`. -/
namespace Pulpfs

/-- A `std::string` is any sequence of bytes. -/
abbrev Bytes := List UInt8

/-- A shortcut, since every comparison of keys asks for it. -/
instance : LawfulBEq Bytes := inferInstance

/-- The bytes of a literal of the source. -/
def ascii (s : String) : Bytes := s.toUTF8.data.toList

/-- `std::to_string` on an unsigned 64-bit value. -/
def toDecimal (n : UInt64) : Bytes := (Nat.toDigits 10 n.toNat).map fun c => c.toUInt8

/-- A digit is a byte of its own. -/
theorem toUInt8_of_isDigit {c : Char} (h : c.isDigit = true) :
    Char.ofNat c.toUInt8.toNat = c ∧ 48 ≤ c.toUInt8.toNat ∧ c.toUInt8.toNat ≤ 57 := by
  have hdigit : 48 ≤ c.toNat ∧ c.toNat ≤ 57 := by
    simp only [Char.isDigit, Bool.and_eq_true, decide_eq_true_eq, ge_iff_le] at h
    exact ⟨UInt32.le_iff_toNat_le.mp h.1, UInt32.le_iff_toNat_le.mp h.2⟩
  have hbyte : c.toUInt8.toNat = c.toNat := by
    show c.val.toUInt8.toNat = c.val.toNat
    rw [UInt32.toNat_toUInt8]
    exact Nat.mod_eq_of_lt (by have : c.val.toNat = c.toNat := rfl; omega)
  rw [hbyte]
  exact ⟨Char.ofNat_toNat c, hdigit⟩

theorem toDecimal_injective : Function.Injective toDecimal := by
  intro n m h
  have hback (k : UInt64) :
      (toDecimal k).map (fun b => Char.ofNat b.toNat) = Nat.toDigits 10 k.toNat := by
    rw [toDecimal, List.map_map]
    refine (List.map_congr_left fun c hc => ?_).trans (List.map_id _)
    exact (toUInt8_of_isDigit (Nat.isDigit_of_mem_toDigits (by omega) (by omega) hc)).1
  have hdigits : Nat.toDigits 10 n.toNat = Nat.toDigits 10 m.toNat := by
    rw [← hback n, ← hback m, h]
  have hvalue := congrArg (fun digits => Nat.ofDigitChars 10 digits 0) hdigits
  simp only [Nat.ofDigitChars_ten_toDigits] at hvalue
  exact UInt64.toNat_inj.mp hvalue

theorem isDigit_of_mem_toDecimal {n : UInt64} {b : UInt8} (h : b ∈ toDecimal n) :
    48 ≤ b.toNat ∧ b.toNat ≤ 57 := by
  obtain ⟨c, hc, rfl⟩ := List.mem_map.mp h
  exact (toUInt8_of_isDigit (Nat.isDigit_of_mem_toDigits (by omega) (by omega) hc)).2

theorem slash_notMem_toDecimal (n : UInt64) : 47 ∉ toDecimal n :=
  fun h => absurd (isDigit_of_mem_toDecimal h).1 (by decide)

inductive ErrorKind where
  | invalidArgument
  | notFound (path : Bytes)
  | alreadyExists (path : Bytes)
  | notDirectory (path : Bytes)
  | isDirectory (path : Bytes)
  | directoryNotEmpty (path : Bytes)
  | notLeader (leaderId : UInt64)
  | unavailable
  | timeout (operation : Bytes)
  | internal
  | raftFailure
  deriving DecidableEq, Repr

structure Error where
  kind : ErrorKind
  message : Bytes
  deriving DecidableEq, Repr

def makeError (kind : ErrorKind) (message : String) : Error := ⟨kind, ascii message⟩

/-- How a call ends: with a value, with an error result, by `at` throwing
`std::out_of_range`, or never. -/
inductive Outcome (α : Type) where
  | ok (value : α)
  | error (e : Error)
  | outOfRange
  | diverged
  deriving DecidableEq

namespace Outcome

variable {α β : Type}

def map (f : α → β) : Outcome α → Outcome β
  | ok a => ok (f a)
  | error e => error e
  | outOfRange => outOfRange
  | diverged => diverged

def isError : Outcome α → Bool
  | error _ => true
  | _ => false

def isOk : Outcome α → Bool
  | ok _ => true
  | _ => false

theorem exists_of_isOk {o : Outcome α} (h : o.isOk = true) : ∃ a, o = ok a := by
  cases o with
  | ok a => exact ⟨a, rfl⟩
  | error e => contradiction
  | outOfRange => contradiction
  | diverged => contradiction

theorem map_eq_ok {o : Outcome α} {f : α → β} {b : β} (h : o.map f = ok b) :
    ∃ a, o = ok a ∧ f a = b := by
  cases o with
  | ok a => exact ⟨a, rfl, ok.inj h⟩
  | error e => contradiction
  | outOfRange => contradiction
  | diverged => contradiction

/-- The call came back with a value or an error. -/
def Returns : Outcome α → Prop
  | ok _ => True
  | error _ => True
  | _ => False

theorem Returns.map {o : Outcome α} (h : o.Returns) (f : α → β) : (o.map f).Returns := by
  cases o with
  | ok => trivial
  | error => trivial
  | outOfRange => exact h.elim
  | diverged => exact h.elim

end Outcome

end Pulpfs
