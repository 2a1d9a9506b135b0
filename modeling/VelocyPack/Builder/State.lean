import VelocyPack.Scalars

/-!
# Builder state and inputs

`Builder` is the state of `class Builder` that the add, open and close paths read and write:
the buffer `_start[0, _pos)`, the frame stack `_stack`, the child offsets `_indexes` and the
flag `_keyWritten`. Its methods run in `BuilderM`, a state monad with exceptions in which, as
in C++, a throw keeps every write made before it.

The inputs `Value`, `ValuePair`, `Slice` and `Serializable` are declared in headers that are
not among the repository's files; they are modelled from the specification's variant list,
with only what the builder reads from them.
-/

namespace VelocyPack

/-! ## Inputs -/

/-- A `Slice`: a view of one encoded value, by its bytes. Modelled from the spec (`Slice.h` is
not among the repository's files): the type tests read the head byte against the table of
heads. -/
structure Slice where
  bytes : List UInt8
deriving DecidableEq, Repr

namespace Slice

/-- The head byte, `0x00` (none) for an empty view. -/
def head (s : Slice) : UInt8 := s.bytes.headD 0

/-- `Slice::isString`: heads `0x40..0xbf`. -/
def isString (s : Slice) : Bool := 0x40 ≤ s.head && s.head ≤ 0xbf

/-- `Slice::isSmallInt`: heads `0x30..0x3f`. -/
def isSmallInt (s : Slice) : Bool := 0x30 ≤ s.head && s.head ≤ 0x3f

/-- `Slice::isUInt`: heads `0x28..0x2f`. -/
def isUInt (s : Slice) : Bool := 0x28 ≤ s.head && s.head ≤ 0x2f

/-- What `checkKeyHasValidType(Slice)` accepts as an object key. -/
def isValidKey (s : Slice) : Bool := s.isString || s.isSmallInt || s.isUInt

end Slice

/-- Modelled from the spec (§3, strings): a short string is `0x40 + len` and its bytes for
`len ≤ 126`; a long one is `0xbf`, its length in eight little-endian bytes, and its bytes. -/
def encodeString (buf bytes : List UInt8) : List UInt8 :=
  if bytes.length ≤ 126 then appendByte buf (0x40 + bytes.length.toUInt8) ++ bytes
  else appendLengthUnchecked 8 (appendByte buf 0xbf) bytes.length ++ bytes

/-- The input token `Value`. Modelled from the spec's variant list (`Value.h` is not among the
repository's files): each variant carries its payload; `array` and `object` are the markers
that open a compound; `none` is `ValueType::None`, which cannot be encoded. -/
inductive Value where
  | none
  | null
  | bool (b : Bool)
  | double (v : Double)
  | int (v : SInt 64)
  | uint (v : UInt64)
  | utcDate (v : SInt 64)
  | string (bytes : List UInt8)
  | external (addr : UInt64)
  | array (unindexed : Bool)
  | object (unindexed : Bool)
deriving DecidableEq

/-- The writer `set(Value)` calls for a scalar: `addNull`, `addFalse`, `addTrue`, `addDouble`,
`addInt`, `addUInt`, `addUTCDate`, a string, or head `0x1d` and the pointer (stored as a
little-endian machine does). `none` and the compound markers write nothing here. -/
def Value.appendTo : Value → List UInt8 → List UInt8
  | .null, buf => appendByte buf 0x18
  | .bool false, buf => appendByte buf 0x19
  | .bool true, buf => appendByte buf 0x1a
  | .double d, buf => addDouble buf d
  | .int i, buf => (addInt buf i).get (addInt_isSome buf i)
  | .uint u, buf => addUInt buf u
  | .utcDate d, buf => addUTCDate buf d
  | .string s, buf => encodeString buf s
  | .external addr, buf => appendLengthUnchecked 8 (appendByteUnchecked buf 0x1d) addr.toNat
  | _, buf => buf

/-- The encoding of a scalar value. -/
def Value.encode (v : Value) : List UInt8 := v.appendTo []

/-- A value that `add` writes as one complete child: neither `none` nor a compound marker. -/
def Value.IsScalar : Value → Prop
  | .none | .array _ | .object _ => False
  | _ => True

theorem encodeString_append (pre buf bytes : List UInt8) :
    encodeString (pre ++ buf) bytes = pre ++ encodeString buf bytes := by
  unfold encodeString
  split <;> simp [appendByte, appendByteUnchecked, appendLengthUnchecked_append]

/-- Every scalar writer appends the value's encoding to the buffer. -/
theorem Value.appendTo_eq (v : Value) (buf : List UInt8) : v.appendTo buf = buf ++ v.encode := by
  have h := fun (f : List UInt8 → List UInt8) (hf : ∀ pre buf, f (pre ++ buf) = pre ++ f buf) =>
    (by simpa using hf buf [] : f buf = buf ++ f [])
  cases v with
  | bool b => cases b <;> simp [appendTo, encode, appendByte, appendByteUnchecked]
  | double d => exact h _ (addDouble_append · · d)
  | int i =>
    have := addInt_append buf [] i
    simp only [List.append_nil] at this
    simp [appendTo, encode, this, Option.get_map]
  | uint u => exact h _ (addUInt_append · · u)
  | utcDate d => exact h _ (addUTCDate_append · · d)
  | string s => exact h _ (encodeString_append · · s)
  | external addr =>
    exact h _ fun pre buf => by simp [appendTo, appendByteUnchecked, appendLengthUnchecked_append]
  | none | null | array _ | object _ => simp [appendTo, encode, appendByte, appendByteUnchecked]

/-- Value types accepted as an object key: strings, and unsigned integers (tokens of the
attribute translator). -/
def Value.isValidKey : Value → Bool
  | .string _ | .uint _ => true
  | _ => false

/-- A `ValuePair`: a string given by pointer and length. -/
structure ValuePair where
  bytes : List UInt8
deriving DecidableEq

/-- The argument of `addExternal`: the pointer's value, and the value it points at (what
`Slice(sub)` reads). -/
structure External where
  addr : UInt64
  target : Slice
deriving DecidableEq

/-- `CompoundInfo`: where an open Array or Object starts in the buffer, and where its child
offsets start in `_indexes`. -/
structure CompoundInfo where
  startPos : Nat
  indexStartPos : Nat
deriving DecidableEq, Repr

/-! ## State -/

/-- The builder's state: `buffer` is `_start[0, _pos)`, `stack` is `_stack` innermost frame
first, `indexes` is `_indexes` in order. -/
structure Builder where
  buffer : List UInt8
  stack : List CompoundInfo
  indexes : List Nat
  keyWritten : Bool
deriving DecidableEq, Repr

/-- A builder method: a state monad with exceptions. An exception keeps the state reached
before the throw, as a C++ exception keeps the writes made before it. -/
abbrev BuilderM := EStateM ExceptionType Builder

/-- What `add` accepts: a `Value`, a `Slice`, a `ValuePair`, or a `Serializable`, whose
`toVelocyPack(*this)` is any builder program. -/
inductive Item where
  | value (v : Value)
  | slice (s : Slice)
  | pair (p : ValuePair)
  | serialize (toVelocyPack : BuilderM Unit)

/-- `std::is_same<T, Serializable>`. -/
def Item.isSerializable : Item → Bool
  | .serialize _ => true
  | _ => false

namespace Builder

/-- A fresh builder, and the state `clear()` leaves. -/
def empty : Builder := ⟨[], [], [], false⟩

/-- `_pos`. -/
def pos (b : Builder) : Nat := b.buffer.length

/-- `Builder::isClosed`: no frame is open. -/
def isClosed (b : Builder) : Bool := b.stack.isEmpty

/-- The head byte of the innermost open frame, `_start[_stack.back().startPos]`. -/
def topHead? (b : Builder) : Option UInt8 := b.stack.head?.map fun c => b.buffer.getD c.startPos 0

/-- `Builder::isOpenObject`: the innermost frame's head is `0x0b` or `0x14`. -/
def isOpenObject (b : Builder) : Bool :=
  match b.topHead? with
  | some h => h == 0x0b || h == 0x14
  | none => false

/-- `Builder::isOpenArray`: the innermost frame's head is `0x06` or `0x13`. -/
def isOpenArray (b : Builder) : Bool :=
  match b.topHead? with
  | some h => h == 0x06 || h == 0x13
  | none => false

/-! The frame tests read only the buffer and the stack. -/

@[simp] theorem isOpenObject_setIndexes (b : Builder) (l : List Nat) :
    ({ b with indexes := l } : Builder).isOpenObject = b.isOpenObject := rfl

@[simp] theorem isOpenArray_setIndexes (b : Builder) (l : List Nat) :
    ({ b with indexes := l } : Builder).isOpenArray = b.isOpenArray := rfl

@[simp] theorem isOpenObject_setKeyWritten (b : Builder) (k : Bool) :
    ({ b with keyWritten := k } : Builder).isOpenObject = b.isOpenObject := rfl

@[simp] theorem isOpenArray_setKeyWritten (b : Builder) (k : Bool) :
    ({ b with keyWritten := k } : Builder).isOpenArray = b.isOpenArray := rfl

theorem isOpenObject_of_stack_nil {b : Builder} (h : b.stack = []) : b.isOpenObject = false := by
  simp [isOpenObject, topHead?, h]

theorem isOpenArray_of_stack_nil {b : Builder} (h : b.stack = []) : b.isOpenArray = false := by
  simp [isOpenArray, topHead?, h]

theorem stack_ne_nil_of_isOpenObject {b : Builder} (h : b.isOpenObject = true) : b.stack ≠ [] :=
  fun hs => by simp [isOpenObject_of_stack_nil hs] at h

end Builder

end VelocyPack
