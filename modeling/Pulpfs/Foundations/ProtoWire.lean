import Mathlib.Algebra.GroupWithZero.Nat
import Mathlib.Algebra.Order.BigOperators.Group.List
import Mathlib.Algebra.Order.Ring.Nat
import Mathlib.Data.List.Basic
import Mathlib.Data.List.Nodup

/-! The wire format of protocol buffers. A message is a sequence of numbered fields; a schema says
which fields a message is written as and what each field that is read does to it. Unknown fields
and fields of another wire type are passed over. -/
namespace ProtoWire

abbrev Octets := List UInt8

/-- The base 128 digits of a number, the lowest first; all but the last have the high bit set. -/
def digits : ℕ → ℕ → Octets
  | 0, _ => []
  | fuel + 1, n =>
    if n < 128 then [UInt8.ofNat n] else UInt8.ofNat (n % 128 + 128) :: digits fuel (n / 128)

def varint (n : ℕ) : Octets := digits (n + 1) n

def readVarint : Octets → Option (ℕ × Octets)
  | [] => none
  | b :: rest =>
    if b.toNat < 128 then some (b.toNat, rest)
    else (readVarint rest).map fun r => (b.toNat - 128 + 128 * r.1, r.2)

theorem digits_congr {n fuel fuel' : ℕ} (h : n < fuel) (h' : n < fuel') :
    digits fuel n = digits fuel' n := by
  induction fuel generalizing n fuel' with
  | zero => omega
  | succ fuel ih =>
    cases fuel' with
    | zero => omega
    | succ fuel' =>
      unfold digits
      split
      next => rfl
      next =>
        have hnext : digits fuel (n / 128) = digits fuel' (n / 128) := ih (by omega) (by omega)
        rw [hnext]

theorem varint_small {n : ℕ} (h : n < 128) : varint n = [UInt8.ofNat n] := by
  unfold varint digits
  rw [if_pos h]

theorem varint_large {n : ℕ} (h : 128 ≤ n) :
    varint n = UInt8.ofNat (n % 128 + 128) :: varint (n / 128) := by
  rw [varint, digits, if_neg (by omega)]
  exact congrArg _ (digits_congr (by omega) (by omega))

/-- The reader takes back what was written, in front of any rest. -/
theorem readVarint_varint (n : ℕ) (rest : Octets) :
    readVarint (varint n ++ rest) = some (n, rest) := by
  induction n using Nat.strongRecOn with
  | ind n ih =>
    by_cases h : n < 128
    · have hb : (UInt8.ofNat n).toNat = n := by rw [UInt8.toNat_ofNat']; omega
      rw [varint_small h, List.singleton_append, readVarint, hb, if_pos h]
    · have hb : (UInt8.ofNat (n % 128 + 128)).toNat = n % 128 + 128 := by
        rw [UInt8.toNat_ofNat']
        omega
      rw [varint_large (by omega), List.cons_append, readVarint, hb, if_neg (by omega),
        ih (n / 128) (by omega)]
      simp only [Option.map_some, Option.some.injEq, Prod.mk.injEq, and_true]
      omega

theorem length_varint_le {n k : ℕ} (hk : 0 < k) (h : n < 128 ^ k) : (varint n).length ≤ k := by
  induction k generalizing n with
  | zero => omega
  | succ k ih =>
    by_cases hn : n < 128
    · rw [varint_small hn, List.length_singleton]
      omega
    · have hpos : 0 < k := by
        rcases Nat.eq_zero_or_pos k with rfl | hpos
        · omega
        · exact hpos
      have hnext : n / 128 < 128 ^ k := Nat.div_lt_of_lt_mul (by rwa [pow_succ'] at h)
      rw [varint_large (by omega), List.length_cons]
      exact Nat.succ_le_succ (ih hpos hnext)

/-- A value and how it is told apart on the wire. -/
inductive Value where
  | varint (n : ℕ)
  | fixed64 (data : Octets)
  | bytes (data : Octets)
  | fixed32 (data : Octets)
  deriving DecidableEq

structure Field where
  number : ℕ
  value : Value
  deriving DecidableEq

/-- A run of bytes of the length that stands in front of it. -/
def readBytes (data : Octets) : Option (Octets × Octets) :=
  (readVarint data).bind fun r =>
    if r.1 ≤ r.2.length then some (r.2.take r.1, r.2.drop r.1) else none

def readFixed (n : ℕ) (data : Octets) : Option (Octets × Octets) :=
  if n ≤ data.length then some (data.take n, data.drop n) else none

theorem readBytes_append (data rest : Octets) :
    readBytes (varint data.length ++ data ++ rest) = some (data, rest) := by
  unfold readBytes
  rw [List.append_assoc, readVarint_varint, Option.bind_some, if_pos (by simp),
    List.take_left, List.drop_left]

theorem readFixed_append {n : ℕ} {data : Octets} (h : data.length = n) (rest : Octets) :
    readFixed n (data ++ rest) = some (data, rest) := by
  subst h
  rw [readFixed, if_pos (by simp), List.take_left, List.drop_left]

def Value.wireType : Value → ℕ
  | .varint _ => 0
  | .fixed64 _ => 1
  | .bytes _ => 2
  | .fixed32 _ => 5

def Value.encode : Value → Octets
  | .varint n => ProtoWire.varint n
  | .fixed64 data => data
  | .bytes data => ProtoWire.varint data.length ++ data
  | .fixed32 data => data

/-- A value of fixed width has that width. -/
def Value.Valid : Value → Prop
  | .fixed64 data => data.length = 8
  | .fixed32 data => data.length = 4
  | _ => True

/-- The value of a wire type in front of the data; there are no groups. -/
def readValue (wireType : ℕ) (data : Octets) : Option (Value × Octets) :=
  match wireType with
  | 0 => (readVarint data).map fun r => (.varint r.1, r.2)
  | 1 => (readFixed 8 data).map fun r => (.fixed64 r.1, r.2)
  | 2 => (readBytes data).map fun r => (.bytes r.1, r.2)
  | 5 => (readFixed 4 data).map fun r => (.fixed32 r.1, r.2)
  | _ => none

theorem readValue_encode {v : Value} (h : v.Valid) (rest : Octets) :
    readValue v.wireType (v.encode ++ rest) = some (v, rest) := by
  cases v with
  | varint n => simp only [readValue, Value.wireType, Value.encode, readVarint_varint,
      Option.map_some]
  | fixed64 data => simp only [readValue, Value.wireType, Value.encode,
      readFixed_append (show data.length = 8 from h), Option.map_some]
  | bytes data => simp only [readValue, Value.wireType, Value.encode, readBytes_append,
      Option.map_some]
  | fixed32 data => simp only [readValue, Value.wireType, Value.encode,
      readFixed_append (show data.length = 4 from h), Option.map_some]

def Field.encode (f : Field) : Octets := varint (8 * f.number + f.value.wireType) ++ f.value.encode

/-- A field has a number and a value of its width. -/
structure Field.Valid (f : Field) : Prop where
  number : f.number ≠ 0
  value : f.value.Valid

def readField (data : Octets) : Option (Field × Octets) :=
  (readVarint data).bind fun tag =>
    if tag.1 / 8 = 0 then none
    else (readValue (tag.1 % 8) tag.2).map fun r => (⟨tag.1 / 8, r.1⟩, r.2)

theorem Value.wireType_lt (v : Value) : v.wireType < 8 := by
  cases v <;> simp [Value.wireType]

theorem readField_encode {f : Field} (h : f.Valid) (rest : Octets) :
    readField (f.encode ++ rest) = some (f, rest) := by
  have hwire := f.value.wireType_lt
  have hnumber : (8 * f.number + f.value.wireType) / 8 = f.number := by omega
  have htype : (8 * f.number + f.value.wireType) % 8 = f.value.wireType := by omega
  unfold readField Field.encode
  rw [List.append_assoc, readVarint_varint, Option.bind_some]
  dsimp only
  rw [hnumber, htype, if_neg h.number, readValue_encode h.value]
  rfl

def encodeFields (fs : List Field) : Octets := fs.flatMap Field.encode

/-- The fields of some data. A field takes at least one byte, so that as many rounds as there are
bytes are enough. -/
def readFields : ℕ → Octets → Option (List Field)
  | 0, data => if data.isEmpty then some [] else none
  | fuel + 1, data =>
    if data.isEmpty then some []
    else (readField data).bind fun r => (readFields fuel r.2).map fun fs => r.1 :: fs

def parseFields (data : Octets) : Option (List Field) := readFields data.length data

theorem varint_ne_nil (n : ℕ) : varint n ≠ [] := by
  unfold varint digits
  split <;> simp

theorem Field.length_encode_pos (f : Field) : 0 < f.encode.length := by
  have h := List.length_pos_iff.mpr (varint_ne_nil (8 * f.number + f.value.wireType))
  rw [Field.encode, List.length_append]
  omega

/-- The tag of a field with a small number takes one byte. -/
theorem Field.length_encode {f : Field} (h : f.number < 16) :
    f.encode.length = 1 + f.value.encode.length := by
  have htype := f.value.wireType_lt
  rw [Field.encode, varint_small (by omega), List.length_append, List.length_singleton]

theorem readFields_encodeFields {fs : List Field} (h : ∀ f ∈ fs, f.Valid) {fuel : ℕ}
    (hfuel : (encodeFields fs).length ≤ fuel) : readFields fuel (encodeFields fs) = some fs := by
  induction fs generalizing fuel with
  | nil => cases fuel <;> rfl
  | cons f fs ih =>
    rw [List.forall_mem_cons] at h
    have hpos := f.length_encode_pos
    rw [encodeFields, List.flatMap_cons, List.length_append] at hfuel
    cases fuel with
    | zero => omega
    | succ fuel =>
      have hne : ((f :: fs).flatMap Field.encode).isEmpty = false := by
        rw [List.isEmpty_eq_false_iff, List.flatMap_cons]
        exact List.append_ne_nil_of_left_ne_nil (List.length_pos_iff.mp hpos) _
      have hrest := ih h.2 (show (fs.flatMap Field.encode).length ≤ fuel by omega)
      rw [readFields, encodeFields, hne, List.flatMap_cons, readField_encode h.1]
      simp only [Bool.false_eq_true, if_false, Option.bind_some]
      rw [show fs.flatMap Field.encode = encodeFields fs from rfl, hrest]
      rfl

theorem parseFields_encodeFields {fs : List Field} (h : ∀ f ∈ fs, f.Valid) :
    parseFields (encodeFields fs) = some fs := readFields_encodeFields h (Nat.le_refl _)

/-- The check on a text: it is UTF-8. -/
def isText (data : Octets) : Bool := (ByteArray.mk data.toArray).validateUTF8

theorem isText_iff {data : Octets} : isText data = true ↔ (ByteArray.mk data.toArray).IsValidUTF8 :=
  ByteArray.validateUTF8_eq_true_iff

theorem isText_append {data data' : Octets} (h : isText data = true) (h' : isText data' = true) :
    isText (data ++ data') = true := by
  rw [isText_iff] at h h' ⊢
  have happend := h.append h'
  rwa [show ByteArray.mk (data ++ data').toArray =
    ByteArray.mk data.toArray ++ ByteArray.mk data'.toArray from by simp [ByteArray.ext_iff]]

theorem isText_of_ascii {data : Octets} (h : ∀ b ∈ data, b < 128) : isText data = true := by
  induction data with
  | nil => rw [isText_iff]; exact ByteArray.isValidUTF8_empty
  | cons b data ih =>
    rw [List.forall_mem_cons] at h
    have hval : (Char.ofUInt8 b).val.toUInt8 = b := by
      show b.toUInt32.toUInt8 = b
      simp
    have hsize : (Char.ofUInt8 b).utf8Size = 1 := by
      have hb := UInt8.lt_iff_toNat_lt.mp h.1
      rw [Char.utf8Size_eq_one_iff, UInt32.le_iff_toNat_le]
      show b.toUInt32.toNat ≤ 127
      rw [UInt8.toNat_toUInt32]
      exact Nat.le_of_lt_succ hb
    have hencode := Char.isValidUTF8_toByteArray_utf8EncodeChar (c := Char.ofUInt8 b)
    rw [String.utf8EncodeChar_eq_singleton hsize, hval] at hencode
    have hb : isText [b] = true := isText_iff.mpr hencode
    exact isText_append hb (ih h.2)

/-- One field of a message type: the values it is written as, and what a value that is read does
to a message. -/
structure Slot (M : Type*) where
  number : ℕ
  values : M → List Value
  merge : Value → M → Option M
  number_ne : number ≠ 0
  valid : ∀ m, ∀ v ∈ values m, v.Valid

abbrev Schema (M : Type*) := List (Slot M)

namespace Schema

variable {M N : Type*}

def fields (schema : Schema M) (m : M) : List Field :=
  schema.flatMap fun s => (s.values m).map fun v => ⟨s.number, v⟩

def mergeField (schema : Schema M) (m : M) (f : Field) : Option M :=
  match schema.find? fun s => s.number = f.number with
  | some s => s.merge f.value m
  | none => some m

def serialize (schema : Schema M) (m : M) : Octets := encodeFields (schema.fields m)

/-- What the values of a slot take. -/
def size (m : M) (s : Slot M) : ℕ := ((s.values m).map fun v => 1 + v.encode.length).sum

theorem length_serialize {schema : Schema M} (hnumbers : ∀ s ∈ schema, s.number < 16) (m : M) :
    (schema.serialize m).length = (schema.map (size m)).sum := by
  induction schema with
  | nil => rfl
  | cons s schema ih =>
    rw [List.forall_mem_cons] at hnumbers
    have hslot : (encodeFields ((s.values m).map fun v => (⟨s.number, v⟩ : Field))).length =
        size m s := by
      rw [encodeFields, List.length_flatMap, List.map_map, size]
      exact congrArg List.sum (List.map_congr_left fun v _ => Field.length_encode hnumbers.1)
    rw [List.map_cons, List.sum_cons, ← hslot, ← ih hnumbers.2, serialize, fields,
      List.flatMap_cons, encodeFields, List.flatMap_append, List.length_append]
    rfl

/-- A bound for all slots bounds the message. -/
theorem length_serialize_le {schema : Schema M} (hnumbers : ∀ s ∈ schema, s.number < 16) {m : M}
    {b : ℕ} (h : ∀ s ∈ schema, size m s ≤ b) :
    (schema.serialize m).length ≤ schema.length * b := by
  rw [length_serialize hnumbers]
  have hsum := List.sum_le_card_nsmul (schema.map (size m)) b (List.forall_mem_map.mpr h)
  rwa [List.length_map, Nat.nsmul_eq_mul] at hsum

/-- Read data into a message. -/
def mergeFrom (schema : Schema M) (m : M) (data : Octets) : Option M :=
  (parseFields data).bind fun fs => fs.foldlM schema.mergeField m

/-- Reading what the slots write for `src`, one after the other, makes `m'` of `m`. -/
inductive Fills (src : M) : Schema M → M → M → Prop
  | nil (m : M) : Fills src [] m m
  | cons {s : Slot M} {ss : Schema M} {m m' m'' : M}
    (hs : (s.values src).foldlM (fun m v => s.merge v m) m = some m') (hss : Fills src ss m' m'') :
    Fills src (s :: ss) m m''

theorem Fills.of_eq {src m m' m'' : M} {schema : Schema M} (h : Fills src schema m m')
    (heq : m' = m'') : Fills src schema m m'' := heq ▸ h

/-- The slot of a number is found where no two slots share one. -/
theorem find?_number {schema : Schema M} (h : (schema.map Slot.number).Nodup) {s : Slot M}
    (hs : s ∈ schema) : (schema.find? fun t => t.number = s.number) = some s := by
  induction schema with
  | nil => simp at hs
  | cons t schema ih =>
    rw [List.map_cons, List.nodup_cons] at h
    rcases List.mem_cons.mp hs with rfl | hs
    · simp
    · have hne : t.number ≠ s.number := fun heq => h.1 (heq ▸ List.mem_map_of_mem hs)
      rw [List.find?_cons_of_neg (by simpa using hne)]
      exact ih h.2 hs

theorem valid_fields (schema : Schema M) (m : M) : ∀ f ∈ schema.fields m, f.Valid := by
  intro f hf
  obtain ⟨s, _, hf⟩ := List.mem_flatMap.mp hf
  obtain ⟨v, hv, rfl⟩ := List.mem_map.mp hf
  exact ⟨s.number_ne, s.valid m v hv⟩

/-- The fields of a slot go to that slot. -/
theorem foldlM_mergeField {schema ss : Schema M} {src m m' : M} (h : Fills src ss m m')
    (hfind : ∀ s ∈ ss, (schema.find? fun t => t.number = s.number) = some s) :
    (fields ss src).foldlM schema.mergeField m = some m' := by
  induction h with
  | nil m => rfl
  | @cons s ss m m' m'' hs _ ih =>
    rw [List.forall_mem_cons] at hfind
    have hslot : ((s.values src).map fun v => (⟨s.number, v⟩ : Field)).foldlM
        schema.mergeField m = some m' := by
      rw [List.foldlM_map]
      simp only [mergeField, hfind.1]
      exact hs
    rw [fields, List.flatMap_cons, List.foldlM_append, hslot]
    exact ih hfind.2

/-- A field without a slot is passed over. -/
theorem mergeField_unknown {schema : Schema M} {f : Field} (h : f.number ∉ schema.map Slot.number)
    (m : M) : schema.mergeField m f = some m := by
  have hnone : (schema.find? fun s => s.number = f.number) = none := by
    rw [List.find?_eq_none]
    intro s hs
    have hne : s.number ≠ f.number := fun heq => h (heq ▸ List.mem_map_of_mem hs)
    simpa using hne
  rw [mergeField, hnone]

theorem foldlM_known (schema : Schema M) (fs : List Field) (m : M) :
    fs.foldlM schema.mergeField m =
      (fs.filter fun f => f.number ∈ schema.map Slot.number).foldlM schema.mergeField m := by
  induction fs generalizing m with
  | nil => rfl
  | cons f fs ih =>
    by_cases h : f.number ∈ schema.map Slot.number
    · rw [List.filter_cons_of_pos (by simpa using h), List.foldlM_cons, List.foldlM_cons]
      exact congrArg _ (funext fun m' => ih m')
    · rw [List.filter_cons_of_neg (by simpa using h), List.foldlM_cons, mergeField_unknown h]
      exact ih m

/-- The round trip, once each slot takes back what it wrote. Fields that the schema does not know
may stand anywhere between. -/
theorem mergeFrom_known {schema : Schema M} (hnumbers : (schema.map Slot.number).Nodup)
    {src m m' : M} (h : Fills src schema m m') {fs : List Field} (hvalid : ∀ f ∈ fs, f.Valid)
    (hknown : (fs.filter fun f => f.number ∈ schema.map Slot.number) = schema.fields src) :
    schema.mergeFrom m (encodeFields fs) = some m' := by
  unfold mergeFrom
  rw [parseFields_encodeFields hvalid, Option.bind_some, foldlM_known, hknown]
  exact foldlM_mergeField h fun s hs => find?_number hnumbers hs

theorem filter_fields (schema : Schema M) (m : M) :
    ((schema.fields m).filter fun f => f.number ∈ schema.map Slot.number) = schema.fields m := by
  rw [List.filter_eq_self]
  intro f hf
  obtain ⟨s, hs, hf⟩ := List.mem_flatMap.mp hf
  obtain ⟨v, _, rfl⟩ := List.mem_map.mp hf
  simpa using ⟨s, hs, rfl⟩

theorem mergeFrom_serialize {schema : Schema M} (hnumbers : (schema.map Slot.number).Nodup)
    {src m m' : M} (h : Fills src schema m m') :
    schema.mergeFrom m (schema.serialize src) = some m' :=
  mergeFrom_known hnumbers h (valid_fields schema src) (filter_fields schema src)

/-- None of the slots has something to write. -/
def isIdle (ss : Schema M) (src : M) : Bool := ss.all fun s => (s.values src).isEmpty

theorem Fills.idle {src : M} {ss : Schema M} (h : ss.isIdle src = true) (m : M) :
    Fills src ss m m := by
  induction ss with
  | nil => exact .nil m
  | cons s ss ih =>
    simp only [isIdle, List.all_cons, Bool.and_eq_true, List.isEmpty_iff] at h
    exact .cons (by rw [h.1]; rfl) (ih h.2)

/-- What is read where only the slot at `i` has something to write. -/
theorem Fills.only {src m m' : M} {ss : Schema M} {s : Slot M} (i : ℕ) (hs : ss[i]? = some s)
    (hidle : isIdle (ss.eraseIdx i) src = true)
    (h : (s.values src).foldlM (fun m v => s.merge v m) m = some m') : Fills src ss m m' := by
  induction ss generalizing i with
  | nil => simp at hs
  | cons t ss ih =>
    cases i with
    | zero =>
      obtain rfl : t = s := by simpa using hs
      exact .cons h (.idle hidle m')
    | succ i =>
      rw [List.eraseIdx_cons_succ] at hidle
      simp only [isIdle, List.all_cons, Bool.and_eq_true, List.isEmpty_iff] at hidle
      exact .cons (by rw [hidle.1]; rfl) (ih i (by simpa using hs) hidle.2)

end Schema

namespace Slot

variable {M N : Type*}

/-- A number; the default is not written. -/
def scalar (number : ℕ) [NeZero number] (get : M → ℕ) (set : ℕ → M → M) : Slot M where
  number
  values m := if get m = 0 then [] else [.varint (get m)]
  merge v m :=
    match v with
    | .varint n => some (set n m)
    | _ => some m
  number_ne := NeZero.ne number
  valid m v hv := by
    split at hv
    · simp at hv
    · rw [List.mem_singleton.mp hv]
      trivial

/-- A text; an empty one is not written. -/
def text (number : ℕ) [NeZero number] (get : M → Octets) (set : Octets → M → M) : Slot M where
  number
  values m := if (get m).isEmpty then [] else [.bytes (get m)]
  merge v m :=
    match v with
    | .bytes data => if isText data then some (set data m) else none
    | _ => some m
  number_ne := NeZero.ne number
  valid m v hv := by
    split at hv
    · simp at hv
    · rw [List.mem_singleton.mp hv]
      trivial

/-- A message inside, which is always written; one that is read goes into the one there is. -/
def message (number : ℕ) [NeZero number] (schema : Schema N) (get : M → N) (set : N → M → M) :
    Slot M where
  number
  values m := [.bytes (schema.serialize (get m))]
  merge v m :=
    match v with
    | .bytes data => (schema.mergeFrom (get m) data).map fun n => set n m
    | _ => some m
  number_ne := NeZero.ne number
  valid m v hv := by
    rw [List.mem_singleton.mp hv]
    trivial

/-- Any number of messages; each that is read is a new one. -/
def messages (number : ℕ) [NeZero number] (schema : Schema N) (empty : N) (get : M → List N)
    (set : List N → M → M) : Slot M where
  number
  values m := (get m).map fun n => .bytes (schema.serialize n)
  merge v m :=
    match v with
    | .bytes data => (schema.mergeFrom empty data).map fun n => set (get m ++ [n]) m
    | _ => some m
  number_ne := NeZero.ne number
  valid m v hv := by
    obtain ⟨n, _, rfl⟩ := List.mem_map.mp hv
    trivial

/-- An alternative of a `oneof`. -/
def alternative (number : ℕ) [NeZero number] (schema : Schema N) (empty : N)
    (get : M → Option N) (set : N → M → M) : Slot M where
  number
  values m := (get m).toList.map fun n => .bytes (schema.serialize n)
  merge v m :=
    match v with
    | .bytes data => (schema.mergeFrom ((get m).getD empty) data).map fun n => set n m
    | _ => some m
  number_ne := NeZero.ne number
  valid m v hv := by
    obtain ⟨n, _, rfl⟩ := List.mem_map.mp hv
    trivial

variable {number : ℕ} [NeZero number] {src m : M} {schema : Schema N}

theorem size_scalar_le {get : M → ℕ} {set : ℕ → M → M} (h : get m < 2 ^ 64) :
    Schema.size m (scalar number get set) ≤ 11 := by
  have hlength : (varint (get m)).length ≤ 10 := length_varint_le (by decide) (h.trans (by decide))
  unfold Schema.size scalar
  dsimp only
  split
  next => simp
  next =>
    simp only [List.map_cons, List.map_nil, List.sum_cons, List.sum_nil, Value.encode]
    omega

/-- A text or a message that is not too long, with its length in front. -/
theorem length_encode_bytes_le {data : Octets} {b : ℕ} (hb : b < 2 ^ 64) (h : data.length ≤ b) :
    (Value.bytes data).encode.length ≤ 10 + b := by
  have hlength : (varint data.length).length ≤ 10 :=
    length_varint_le (by decide) ((h.trans_lt hb).trans (by decide))
  rw [Value.encode, List.length_append]
  omega

theorem size_text_le {get : M → Octets} {set : Octets → M → M} {b : ℕ} (hb : b < 2 ^ 64)
    (h : (get m).length ≤ b) : Schema.size m (text number get set) ≤ 11 + b := by
  have hlength := length_encode_bytes_le hb h
  unfold Schema.size text
  dsimp only
  split
  next => simp
  next =>
    simp only [List.map_cons, List.map_nil, List.sum_cons, List.sum_nil]
    omega

theorem size_messages_le {empty : N} {get : M → List N} {set : List N → M → M} {b : ℕ}
    (hb : b < 2 ^ 64) (h : ∀ n ∈ get m, (schema.serialize n).length ≤ b) :
    Schema.size m (messages number schema empty get set) ≤ (get m).length * (11 + b) := by
  unfold Schema.size messages
  dsimp only
  rw [List.map_map]
  have hsum := List.sum_le_card_nsmul
    ((get m).map ((fun v : Value => 1 + v.encode.length) ∘ fun n => .bytes (schema.serialize n)))
    (11 + b) ?_
  · rwa [List.length_map, Nat.nsmul_eq_mul] at hsum
  · rw [List.forall_mem_map]
    intro n hn
    have hlength := length_encode_bytes_le hb (h n hn)
    simp only [Function.comp_apply]
    omega

theorem scalar_fold {get : M → ℕ} {set : ℕ → M → M} (h : set 0 m = m) :
    ((scalar number get set).values src).foldlM
      (fun m v => (scalar number get set).merge v m) m = some (set (get src) m) := by
  unfold scalar
  dsimp only
  split
  next hzero => rw [hzero, h]; rfl
  next => rfl

theorem text_fold {get : M → Octets} {set : Octets → M → M} (htext : isText (get src) = true)
    (h : set [] m = m) :
    ((text number get set).values src).foldlM (fun m v => (text number get set).merge v m) m =
      some (set (get src) m) := by
  unfold text
  dsimp only
  split
  next hempty =>
    rw [List.isEmpty_iff] at hempty
    rw [hempty, h]
    rfl
  next => simp [htext]

theorem message_fold {get : M → N} {set : N → M → M} {n : N}
    (h : schema.mergeFrom (get m) (schema.serialize (get src)) = some n) :
    ((message number schema get set).values src).foldlM
      (fun m v => (message number schema get set).merge v m) m = some (set n m) := by
  simp [message, h]

theorem messages_fold {empty : N} {get : M → List N} {set : List N → M → M}
    (hget : ∀ ns m, get (set ns m) = ns) (hset : ∀ ns ns' m, set ns (set ns' m) = set ns m)
    (hself : set (get m) m = m) (hempty : get m = [])
    (h : ∀ n ∈ get src, schema.mergeFrom empty (schema.serialize n) = some n) :
    ((messages number schema empty get set).values src).foldlM
      (fun m v => (messages number schema empty get set).merge v m) m =
      some (set (get src) m) := by
  have hall : ∀ (ns : List N) (m : M), set (get m) m = m →
      (∀ n ∈ ns, schema.mergeFrom empty (schema.serialize n) = some n) →
      (ns.map fun n => Value.bytes (schema.serialize n)).foldlM
        (fun m v => (messages number schema empty get set).merge v m) m =
        some (set (get m ++ ns) m) := by
    intro ns
    induction ns with
    | nil =>
      intro m hm _
      rw [List.append_nil, hm]
      rfl
    | cons n ns ih =>
      intro m hm hns
      rw [List.forall_mem_cons] at hns
      have hnext := ih (set (get m ++ [n]) m) (by rw [hget, hset]) hns.2
      rw [hget, hset, List.append_assoc] at hnext
      rw [List.map_cons, List.foldlM_cons]
      simp only [messages, hns.1, Option.map_some, Option.bind_eq_bind, Option.bind_some]
      exact hnext
  have hfold := hall (get src) m hself h
  rwa [hempty, List.nil_append] at hfold

theorem alternative_fold {empty n : N} {get : M → Option N} {set : N → M → M} {m' : M}
    (hget : get src = some n) (hnone : get m = none) (hset : set n m = m')
    (h : schema.mergeFrom empty (schema.serialize n) = some n) :
    ((alternative number schema empty get set).values src).foldlM
      (fun m v => (alternative number schema empty get set).merge v m) m = some m' := by
  simp [alternative, hget, hnone, hset, h]

end Slot

end ProtoWire
