import RxSolutions.Durable.Cursor
import RxSolutions.Durable.LittleEndian

/-!
# The two wire checkers

Before a message is parsed its bytes are checked, by `strict_wire.cpp` in the native adapters and
by `strict.rs` elsewhere. Both walk over the fields of a message and of the messages in it, with
one budget for fields and packed values. The Rust checker refuses a string that is not UTF-8; the
C++ one passes it on, since the generated parser refuses it later.

Descriptors are shared: a lookup gives the same on both sides. There are no groups, field numbers
are below `2 ^ 29`, and no two oneofs of a message have one name.
-/

namespace RxSolutions.Wire

open Durable Durable.Cursor

/-- A message as it is on the wire. -/
abbrev Bytes := List UInt8

/-! ## Descriptors -/

/-- An enumeration with the numbers of its values. -/
structure Enum where
  fullName : String
  values : List ℤ

/-- The type of a field's values. -/
inductive Kind (ι : Type)
  | double
  | float
  | int64
  | uint64
  | int32
  | fixed64
  | fixed32
  | bool
  | string
  | message (type : ι)
  | bytes
  | uint32
  | enum (type : Enum)
  | sfixed32
  | sfixed64
  | sint32
  | sint64

/-- A group of fields of which one at most is set. -/
structure Oneof where
  fullName : String
  synthetic : Bool

/-- A field of a message with so many oneofs. -/
structure Field (ι : Type) (oneofs : ℕ) where
  fullName : String
  number : ℕ
  kind : Kind ι
  repeated : Bool
  map : Bool
  containingOneof : Option (Fin oneofs)

/-- A message type; the types of its message fields are named by `ι`. -/
structure Descriptor (ι : Type) where
  fullName : String
  oneofs : List Oneof
  fields : List (Field ι oneofs.length)
  named : (oneofs.map Oneof.fullName).Nodup
  numbered : ∀ f ∈ fields, f.number < 2 ^ 29

variable {ι : Type}

/-- `FindFieldByNumber`, `get_field`. -/
def Descriptor.getField (d : Descriptor ι) (number : ℕ) : Option (Field ι d.oneofs.length) :=
  d.fields.find? (·.number = number)

/-- How a value is written after its tag. -/
inductive WireType
  | varint
  | fixed64
  | lengthDelimited
  | fixed32
  deriving DecidableEq

/-- The lowest three bits of a tag. -/
def WireType.code : WireType → ℕ
  | .varint => 0
  | .fixed64 => 1
  | .lengthDelimited => 2
  | .fixed32 => 5

/-! ## What both have in common -/

/-- The shifts of a varint: from 0 in steps of seven up to 63. -/
def shifts : List UInt64 := [0, 7, 14, 21, 28, 35, 42, 49, 56, 63]

/-- The rounds of `varint`. -/
def varintFrom {ε : Type} (truncated overflow : ε) (bytes : Bytes) :
    List UInt64 → UInt64 → (pos : ℕ) → Except ε (UInt64 × Reach bytes.length (pos + 1))
  | [], _, _ => .error overflow
  | shift :: shifts, value, pos =>
    if h : pos < bytes.length then
      let byte := bytes.get ⟨pos, h⟩
      if shift = 63 ∧ 1 < byte then .error overflow
      else
        let value := value ||| ((byte &&& 0x7f).toUInt64 <<< shift)
        if byte &&& 0x80 = 0 then .ok (value, ⟨pos + 1, Nat.le_refl _, h⟩)
        else do
          let (value, r) ← varintFrom truncated overflow bytes shifts value (pos + 1)
          .ok (value, r.since (Nat.le_succ _))
    else .error truncated

/-- The bits of a double that is neither infinite nor NaN. -/
def finite64 (bits : ℕ) : Prop := bits / 2 ^ 52 % 2 ^ 11 ≠ 2 ^ 11 - 1

/-- The bits of a float that is neither infinite nor NaN. -/
def finite32 (bits : ℕ) : Prop := bits / 2 ^ 23 % 2 ^ 8 ≠ 2 ^ 8 - 1

instance (bits : ℕ) : Decidable (finite64 bits) := inferInstanceAs (Decidable (_ ≠ _))

instance (bits : ℕ) : Decidable (finite32 bits) := inferInstanceAs (Decidable (_ ≠ _))

/-- Both scanners refuse a text that is not UTF-8. -/
def ValidUtf8 (raw : Bytes) : Prop := raw.toByteArray.IsValidUTF8

instance (raw : Bytes) : Decidable (ValidUtf8 raw) :=
  inferInstanceAs (Decidable (ByteArray.IsValidUTF8 _))

/-! ## `strict_wire.cpp` -/

namespace Cpp

/-- A check that throws `BadWire`; what is passed on are the strings it came across. -/
abbrev Scan (α : Type) := Logged Bytes String α

/-- A varint of at most ten bytes. -/
def varint (bytes : Bytes) (pos : ℕ) : Except String (UInt64 × Reach bytes.length (pos + 1)) :=
  varintFrom "truncated varint" "varint overflow" bytes shifts 0 pos

/-- The bytes, and that they do not go over the end. -/
def take (bytes : Bytes) (pos : ℕ) (h : pos ≤ bytes.length) (length : ℕ) :
    Except String {_raw : Bytes // pos + length ≤ bytes.length} :=
  if hlength : length > bytes.length - pos then .error "truncated field"
  else .ok ⟨(bytes.drop pos).take length, by omega⟩

/-- A length and as many bytes. -/
def lengthDelimited (bytes : Bytes) (pos : ℕ) :
    Except String (Bytes × Reach bytes.length (pos + 1)) := do
  let (length, r) ← varint bytes pos
  let raw ← take bytes r.next r.le length.toNat
  return (raw.1, ⟨r.next + length.toNat, Nat.le_add_right_of_le r.ge, raw.2⟩)

/-- The wire type of each type of field. -/
def wireType : Kind ι → WireType
  | .double | .fixed64 | .sfixed64 => .fixed64
  | .string | .bytes | .message _ => .lengthDelimited
  | .float | .fixed32 | .sfixed32 => .fixed32
  | _ => .varint

/-- The checks on a varint. -/
def checkVarint : Kind ι → UInt64 → Except String Unit
  | .bool, v => if v > 1 then .error "invalid boolean" else .ok ()
  | .uint32, v | .sint32, v => if v > 4294967295 then .error "uint32 overflow" else .ok ()
  | .enum e, v =>
    if v = 0 ∨ v > 2147483647 ∨ (v.toNat : ℤ) ∉ e.values then .error "unknown enum" else .ok ()
  | _, _ => .ok ()

/-- The bytes put together by shifts. -/
def bits (raw : Bytes) : ℕ :=
  raw.zipIdx.foldl (fun bits byte => bits ||| (byte.1.toNat <<< (8 * byte.2))) 0

/-- A number in fixed bits is finite. -/
def checkBits : Kind ι → Bytes → Except String Unit
  | .double, raw => if ¬ finite64 (bits raw) then .error "nonfinite double" else .ok ()
  | .float, raw => if ¬ finite32 (bits raw) then .error "nonfinite float" else .ok ()
  | _, _ => .ok ()

/-- What is passed on of a length-delimited value. -/
def note : Kind ι → Bytes → Scan PUnit
  | .string, raw => tell [raw]
  | _, _ => pure ⟨⟩

/-- One value, without its tag. -/
def scalar (kind : Kind ι) (bytes : Bytes) (pos : ℕ) (h : pos ≤ bytes.length) :
    Scan (Reach bytes.length (pos + 1)) :=
  match wireType kind with
  | .varint => do
    let (v, r) ← varint bytes pos
    checkVarint kind v
    return r
  | .fixed64 => do
    let raw ← take bytes pos h 8
    checkBits kind raw.1
    return ⟨pos + 8, by omega, raw.2⟩
  | .fixed32 => do
    let raw ← take bytes pos h 4
    checkBits kind raw.1
    return ⟨pos + 4, by omega, raw.2⟩
  | .lengthDelimited => do
    let (raw, r) ← lengthDelimited bytes pos
    note kind raw
    return r

/-- One packed value. -/
def packedValue (kind : Kind ι) (packed : Bytes) (pos : ℕ) (h : pos < packed.length)
    (budget : ℕ) : Scan (Reach packed.length (pos + 1) × ℕ) :=
  if budget = 0 then throw "packed value limit"
  else do
    let r ← scalar kind packed pos (Nat.le_of_lt h)
    return (r, budget - 1)

/-- What is left of the field budget, and the fields and groups met so far. -/
structure State (oneofs : ℕ) where
  budget : ℕ
  seen : List ℕ
  groups : List (Fin oneofs)

/-- A field that is not repeated is seen once. -/
def insertSeen {oneofs : ℕ} (field : Field ι oneofs) (seen : List ℕ) : Except String (List ℕ) :=
  if field.repeated then .ok seen
  else if field.number ∈ seen then .error "duplicate singular"
  else .ok (field.number :: seen)

/-- One field of a oneof is seen. -/
def insertGroup {oneofs : ℕ} (field : Field ι oneofs) (groups : List (Fin oneofs)) :
    Except String (List (Fin oneofs)) :=
  match field.containingOneof with
  | none => .ok groups
  | some g => if g ∈ groups then .error "multiple oneof values" else .ok (g :: groups)

/-- The checks on a field before its value is looked at. -/
def enter {oneofs : ℕ} (field : Field ι oneofs) (s : State oneofs) : Scan (State oneofs) :=
  if field.map then throw "unreviewed map schema"
  else do
    let seen ← insertSeen field s.seen
    let groups ← insertGroup field s.groups
    return ⟨s.budget, seen, groups⟩

section Nested

variable (nested : ι → Bytes → ℕ → Scan ℕ)

/-- The value of a field; what is left of the budget is returned. -/
def value (kind : Kind ι) (repeated : Bool) (wire : ℕ) (bytes : Bytes) (pos : ℕ)
    (h : pos ≤ bytes.length) (budget : ℕ) : Scan (Reach bytes.length (pos + 1) × ℕ) :=
  if repeated ∧ wireType kind ≠ .lengthDelimited ∧ wire = 2 then do
    let (packed, r) ← lengthDelimited bytes pos
    let budget ← loop packed.length (packedValue kind packed) 0 budget
    return (r, budget)
  else if wire ≠ (wireType kind).code then throw "wrong wire type"
  else
    match kind with
    | .message type => do
      let (raw, r) ← lengthDelimited bytes pos
      let budget ← nested type raw budget
      return (r, budget)
    | kind => do
      let r ← scalar kind bytes pos h
      return (r, budget)

/-- One round of `scan`. -/
def field (desc : Descriptor ι) (bytes : Bytes) (pos : ℕ) (_ : pos < bytes.length)
    (s : State desc.oneofs.length) :
    Scan (Reach bytes.length (pos + 1) × State desc.oneofs.length) :=
  if s.budget = 0 then throw "field limit"
  else do
    let (key, r) ← varint bytes pos
    let tag := key >>> 3
    let wire := (key &&& 7).toNat
    if tag = 0 ∨ tag > 2147483647 then throw "invalid tag"
    else
      match desc.getField tag.toNat with
      | none => throw "unknown field"
      | some field => do
        let s ← enter field { s with budget := s.budget - 1 }
        let (r', budget) ← value nested field.kind field.repeated wire bytes r.next r.le s.budget
        return (r'.since (Nat.succ_le_succ (Nat.le_of_succ_le r.ge)), { s with budget })

end Nested

/-- The oneofs that have no value. -/
def missing (desc : Descriptor ι) (groups : List (Fin desc.oneofs.length)) : Except String Unit :=
  (List.finRange desc.oneofs.length).forM fun g =>
    if (desc.oneofs.get g).synthetic = false ∧ g ∉ groups then .error "missing oneof" else .ok ()

/-- `scan`, with so many levels left of the 64. -/
def scan (schema : ι → Descriptor ι) : ℕ → Descriptor ι → Bytes → ℕ → Scan ℕ
  | 0, _, _, _ => throw "nesting limit"
  | levels + 1, desc, bytes, budget => do
    let s ← loop bytes.length (field (fun type => scan schema levels (schema type)) desc bytes) 0
      ⟨budget, [], []⟩
    missing desc s.groups
    return s.budget

/-- A message of at most 1 MiB, at most 64 deep and with at most 65536 fields. -/
def validate (schema : ι → Descriptor ι) (desc : Descriptor ι) (bytes : Bytes) : Scan Unit :=
  if bytes.length > 1048576 then throw "message exceeds 1 MiB"
  else do
    let _ ← scan schema 64 desc bytes 65536

end Cpp

/-! ## `strict.rs` -/

namespace Rust

/-- The status codes in use. -/
inductive Code
  | invalidArgument
  | resourceExhausted

/-- A refusal with its status code. -/
structure Status where
  code : Code
  message : String

/-- Most refusals are `INVALID_ARGUMENT`. -/
def invalid (message : String) : Status := ⟨.invalidArgument, message⟩

/-- A varint of at most ten bytes. -/
def varint (bytes : Bytes) (pos : ℕ) : Except Status (UInt64 × Reach bytes.length (pos + 1)) :=
  varintFrom (invalid "truncated varint") (invalid "varint overflow") bytes shifts 0 pos

/-- `slice`; a `usize` has 64 bits. -/
def slice (bytes : Bytes) (pos len : ℕ) :
    Except Status {_raw : Bytes // pos + len ≤ bytes.length} :=
  if 2 ^ 64 ≤ pos + len then .error (invalid "length overflow")
  else if h : pos + len ≤ bytes.length then .ok ⟨(bytes.drop pos).take len, h⟩
  else .error (invalid "truncated field")

/-- A length and the slice behind it. -/
def lengthSlice (bytes : Bytes) (pos : ℕ) :
    Except Status (Bytes × Reach bytes.length (pos + 1)) := do
  let (len, r) ← varint bytes pos
  let raw ← slice bytes r.next len.toNat
  return (raw.1, ⟨r.next + len.toNat, Nat.le_add_right_of_le r.ge, raw.2⟩)

/-- The wire type of each type of field. -/
def wireType : Kind ι → WireType
  | .double | .fixed64 | .sfixed64 => .fixed64
  | .string | .bytes | .message _ => .lengthDelimited
  | .float | .fixed32 | .sfixed32 => .fixed32
  | _ => .varint

/-- A varint is in the range of its type. -/
def checkVarint : Kind ι → UInt64 → Except Status Unit
  | .bool, v => if v > 1 then .error (invalid "boolean is not 0 or 1") else .ok ()
  | .uint32, v | .sint32, v =>
    if v > 4294967295 then .error (invalid "uint32 overflow") else .ok ()
  | .enum e, v =>
    if v > 2147483647 then .error (invalid "enum outside range")
    else if v = 0 ∨ (v.toNat : ℤ) ∉ e.values then
      .error (invalid ("unspecified or unknown enum " ++ e.fullName))
    else .ok ()
  | _, _ => .ok ()

/-- A number in fixed bits is finite. -/
def checkBits : Kind ι → Bytes → Except Status Unit
  | .double, raw =>
    if ¬ finite64 (LittleEndian.value raw) then .error (invalid "non-finite double") else .ok ()
  | .float, raw =>
    if ¬ finite32 (LittleEndian.value raw) then .error (invalid "non-finite float") else .ok ()
  | _, _ => .ok ()

/-- A text is UTF-8. -/
def checkText (fullName : String) : Kind ι → Bytes → Except Status Unit
  | .string, raw =>
    if ¬ ValidUtf8 raw then .error (invalid ("invalid UTF-8 " ++ fullName)) else .ok ()
  | _, _ => .ok ()

/-- One value, without its tag. -/
def scalar (fullName : String) (kind : Kind ι) (bytes : Bytes) (pos : ℕ) :
    Except Status (Reach bytes.length (pos + 1)) :=
  match wireType kind with
  | .varint => do
    let (v, r) ← varint bytes pos
    checkVarint kind v
    return r
  | .fixed64 => do
    let raw ← slice bytes pos 8
    checkBits kind raw.1
    return ⟨pos + 8, by omega, raw.2⟩
  | .fixed32 => do
    let raw ← slice bytes pos 4
    checkBits kind raw.1
    return ⟨pos + 4, by omega, raw.2⟩
  | .lengthDelimited => do
    let (raw, r) ← lengthSlice bytes pos
    checkText fullName kind raw
    return r

/-- One value of a packed field, which takes from the budget. -/
def packedValue (fullName : String) (kind : Kind ι) (packed : Bytes) (pos : ℕ)
    (_ : pos < packed.length) (budget : ℕ) :
    Except Status (Reach packed.length (pos + 1) × ℕ) :=
  if budget = 0 then throw ⟨.resourceExhausted, "too many packed values"⟩
  else do
    let r ← scalar fullName kind packed pos
    return (r, budget - 1)

/-- What is left of the field budget, and the tags and groups met so far. -/
structure State where
  budget : ℕ
  singular : List ℕ
  oneofs : List String

/-- A field that is not repeated occurs once. -/
def insertSingular {oneofs : ℕ} (field : Field ι oneofs) (tag : ℕ) (singular : List ℕ) :
    Except Status (List ℕ) :=
  if field.repeated then .ok singular
  else if tag ∈ singular then .error (invalid ("duplicate singular field " ++ field.fullName))
  else .ok (tag :: singular)

/-- A group has one field set at most. -/
def insertOneof (desc : Descriptor ι) (field : Field ι desc.oneofs.length)
    (oneofs : List String) : Except Status (List String) :=
  match field.containingOneof with
  | none => .ok oneofs
  | some g =>
    let name := (desc.oneofs.get g).fullName
    if name ∈ oneofs then .error (invalid ("multiple oneof values in " ++ name))
    else .ok (name :: oneofs)

/-- The checks of a field before its value. -/
def enter (desc : Descriptor ι) (field : Field ι desc.oneofs.length) (tag : ℕ) (s : State) :
    Except Status State :=
  if field.map then throw (invalid "map schema requires reviewed key-uniqueness binding")
  else do
    let singular ← insertSingular field tag s.singular
    let oneofs ← insertOneof desc field s.oneofs
    return ⟨s.budget, singular, oneofs⟩

section Nested

variable (nested : ι → Bytes → ℕ → Except Status ℕ)

/-- The value or the packed values after a tag. -/
def value (fullName : String) (kind : Kind ι) (repeated : Bool) (wire : ℕ) (bytes : Bytes)
    (pos budget : ℕ) : Except Status (Reach bytes.length (pos + 1) × ℕ) :=
  if repeated ∧ wireType kind ≠ .lengthDelimited ∧ wire = 2 then do
    let (packed, r) ← lengthSlice bytes pos
    let budget ← loop packed.length (packedValue fullName kind packed) 0 budget
    return (r, budget)
  else if wire ≠ (wireType kind).code then throw (invalid ("wire type mismatch for " ++ fullName))
  else
    match kind with
    | .message type => do
      let (raw, r) ← lengthSlice bytes pos
      let budget ← nested type raw budget
      return (r, budget)
    | kind => do
      let r ← scalar fullName kind bytes pos
      return (r, budget)

/-- One field with its tag. -/
def field (desc : Descriptor ι) (bytes : Bytes) (pos : ℕ) (_ : pos < bytes.length) (s : State) :
    Except Status (Reach bytes.length (pos + 1) × State) :=
  if s.budget = 0 then throw ⟨.resourceExhausted, "too many wire fields"⟩
  else do
    let (key, r) ← varint bytes pos
    let tag := key >>> 3
    let wire := (key &&& 7).toNat
    if tag > 4294967295 then throw (invalid "field number overflow")
    else if tag = 0 then throw (invalid "field zero")
    else
      match desc.getField tag.toNat with
      | none => throw (invalid ("unknown field " ++ desc.fullName ++ "." ++ toString tag.toNat))
      | some field => do
        let s ← enter desc field tag.toNat { s with budget := s.budget - 1 }
        let (r', budget) ←
          value nested field.fullName field.kind field.repeated wire bytes r.next s.budget
        return (r'.since (Nat.succ_le_succ (Nat.le_of_succ_le r.ge)), { s with budget })

end Nested

/-- Every group that is not synthetic has a field set. -/
def missing (desc : Descriptor ι) (oneofs : List String) : Except Status Unit :=
  desc.oneofs.forM fun group =>
    if group.synthetic = false ∧ group.fullName ∉ oneofs then
      .error (invalid ("missing oneof " ++ group.fullName))
    else .ok ()

/-- `scan`, with so many levels left of the 64. -/
def scan (schema : ι → Descriptor ι) : ℕ → Descriptor ι → Bytes → ℕ → Except Status ℕ
  | 0, _, _, _ => .error (invalid "message nesting exceeds 64")
  | levels + 1, desc, bytes, budget => do
    let s ← loop bytes.length (field (fun type => scan schema levels (schema type)) desc bytes) 0
      ⟨budget, [], []⟩
    missing desc s.oneofs
    return s.budget

/-- A message of at most 1 MiB, at most 64 deep and with at most 65536 fields. -/
def validate (schema : ι → Descriptor ι) (desc : Descriptor ι) (bytes : Bytes) :
    Except Status Unit :=
  if bytes.length > 1048576 then .error ⟨.resourceExhausted, "message exceeds 1 MiB"⟩
  else do
    let _ ← scan schema 64 desc bytes 65536

end Rust

end RxSolutions.Wire
