import VelocyPack.Builder.State

/-!
# Reading a scalar back

`Slice.h` is not among the repository's files, so the reading is modelled from the spec (§3,
the head table, and §4.6): the head byte says which variant follows and how many bytes it
takes. Every writer `set(Value)` calls is held to it: what it appends reads back as the value,
and exactly its bytes are taken, whatever follows them.

* `Head.ofNat`, `readScalar` — the head table, and the scalar at the front of some bytes with
  the bytes after it;
* `readScalar_append`, `head_of_readScalar` — a scalar's reading only looks at its own bytes,
  and a scalar never starts with a compound's head;
* `readScalar_encode` — every scalar `add(Value)` writes reads back as the value (a small
  unsigned value as the equal small integer).
-/

namespace VelocyPack

/-! ## The head table -/

/-- The classes of §3's head table a scalar can have. -/
inductive Head where
  | null
  | false
  | true
  | double
  | utcDate
  | external
  /-- `0x1f + k`: `k` bytes of two's complement. -/
  | int (k : Nat)
  /-- `0x27 + k`: `k` bytes of an unsigned value. -/
  | uint (k : Nat)
  /-- `0x30..0x3f`: the value in the head. -/
  | small (v : Int)
  /-- `0x40 + len`: a string of `len` bytes. -/
  | short (len : Nat)
  /-- `0xbf`: an eight-byte length, then the string. -/
  | long
  | other
deriving DecidableEq

/-- Modelled from the spec (§3): the class of a head byte. -/
def Head.ofNat (n : Nat) : Head :=
  if n = 0x18 then .null
  else if n = 0x19 then .false
  else if n = 0x1a then .true
  else if n = 0x1b then .double
  else if n = 0x1c then .utcDate
  else if n = 0x1d then .external
  else if 0x20 ≤ n ∧ n ≤ 0x27 then .int (n - 0x1f)
  else if 0x28 ≤ n ∧ n ≤ 0x2f then .uint (n - 0x27)
  else if 0x30 ≤ n ∧ n ≤ 0x39 then .small (n - 0x30 : Nat)
  else if 0x3a ≤ n ∧ n ≤ 0x3f then .small ((n : Int) - 0x40)
  else if 0x40 ≤ n ∧ n ≤ 0xbe then .short (n - 0x40)
  else if n = 0xbf then .long
  else .other

/-- The `n` bytes at the front of `bytes`, and the bytes after them. -/
def field (n : Nat) (bytes : List UInt8) : Option (List UInt8 × List UInt8) :=
  if n ≤ bytes.length then some (bytes.take n, bytes.drop n) else none

/-- An `int64_t` of the value `z`, where `z` is in range. -/
def SInt.ofInt? (z : Int) : Option (SInt 64) :=
  if h : -2 ^ 63 ≤ z ∧ z < 2 ^ 63 then some ⟨z, h.1, h.2⟩ else none

/-- Modelled from the spec (§3): what follows a head of class `hd`, read off `rest`, and the
bytes after it. -/
def readBody : Head → List UInt8 → Option (Value × List UInt8)
  | .null, rest => some (.null, rest)
  | .false, rest => some (.bool false, rest)
  | .true, rest => some (.bool true, rest)
  | .double, rest => (field 8 rest).map fun p => (.double ⟨(leValue p.1).toUInt64⟩, p.2)
  | .utcDate, rest =>
    (field 8 rest).bind fun p => (SInt.ofInt? (leSigned p.1)).map fun z => (.utcDate z, p.2)
  | .external, rest => (field 8 rest).map fun p => (.external (leValue p.1).toUInt64, p.2)
  | .int k, rest =>
    (field k rest).bind fun p => (SInt.ofInt? (leSigned p.1)).map fun z => (.int z, p.2)
  | .uint k, rest => (field k rest).map fun p => (.uint (leValue p.1).toUInt64, p.2)
  | .small v, rest => (SInt.ofInt? v).map fun z => (.int z, rest)
  | .short len, rest => (field len rest).map fun p => (.string p.1, p.2)
  | .long, rest =>
    (field 8 rest).bind fun p => (field (leValue p.1) p.2).map fun q => (.string q.1, q.2)
  | .other, _ => none

/-- Modelled from the spec (§3): the scalar at the front of `bytes`, read by its head, and the
bytes after it; `none` for a head that is not a scalar's or bytes that end too early. -/
def readScalar : List UInt8 → Option (Value × List UInt8)
  | [] => none
  | b :: rest => readBody (Head.ofNat b.toNat) rest

/-- An `int64_t` below ten. -/
def SInt.small (n : Nat) (h : n ≤ 9) : SInt 64 :=
  ⟨n, le_trans (by norm_num) (Int.natCast_nonneg n), by
    have : (n : Int) ≤ 9 := by exact_mod_cast h
    norm_num
    omega⟩

/-- The value a reader sees: `addUInt` writes an unsigned value below ten as a small integer,
which reads back as the equal signed one. -/
def Value.canonical : Value → Value
  | .uint u => if h : u.toNat ≤ 9 then .int (SInt.small u.toNat h) else .uint u
  | v => v

/-- A scalar a reader can take back: not `none` or a compound marker, and a string whose length
fits the eight-byte length field. -/
def Value.Readable : Value → Prop
  | .none | .array _ | .object _ => False
  | .string s => s.length < 2 ^ 64
  | _ => True

theorem Value.isScalar_of_readable {v : Value} (h : v.Readable) : v.IsScalar := by
  cases v <;> trivial

instance : (v : Value) → Decidable v.Readable
  | .none | .array _ | .object _ => isFalse id
  | .string s => inferInstanceAs (Decidable (s.length < 2 ^ 64))
  | .null | .bool _ | .double _ | .int _ | .uint _ | .utcDate _ | .external _ => isTrue trivial

/-! ## Fields -/

theorem field_append {n : Nat} {bytes : List UInt8} (rest : List UInt8) (h : bytes.length = n) :
    field n (bytes ++ rest) = some (bytes, rest) := by
  subst h
  simp [field]

/-- A field read off some bytes is read the same way when more bytes follow. -/
theorem field_append_of {n : Nat} {bytes f r : List UInt8} (rest : List UInt8)
    (h : field n bytes = some (f, r)) : field n (bytes ++ rest) = some (f, r ++ rest) := by
  unfold field at h ⊢
  split at h
  · obtain ⟨rfl, rfl⟩ := Prod.mk.inj (Option.some.inj h)
    rw [if_pos (by simp; omega), List.take_append_of_le_length ‹_›,
      List.drop_append_of_le_length ‹_›]
  · cases h

theorem ofInt?_val (v : SInt 64) : SInt.ofInt? v.val = some v := by
  simp only [SInt.ofInt?]
  rw [dif_pos ⟨by simpa using v.ge, by simpa using v.lt⟩]

theorem toUInt64_toNat (u : UInt64) : u.toNat.toUInt64 = u := by
  apply UInt64.eq_of_val_eq
  simp [Nat.toUInt64, UInt64.ofNat, UInt64.toNat]

/-! ## What a reading looks at -/

theorem readBody_append {hd : Head} {bytes r : List UInt8} {v : Value} (rest : List UInt8)
    (h : readBody hd bytes = some (v, r)) : readBody hd (bytes ++ rest) = some (v, r ++ rest) := by
  cases hd with
  | null | false | true => cases h; rfl
  | other => cases h
  | double | external | uint _ | short _ =>
    obtain ⟨⟨f, r'⟩, hf, he⟩ := Option.map_eq_some'.mp h
    cases he
    simp [readBody, field_append_of rest hf]
  | utcDate | int _ =>
    obtain ⟨⟨f, r'⟩, hf, he⟩ := Option.bind_eq_some.mp h
    obtain ⟨z, hz, he⟩ := Option.map_eq_some'.mp he
    cases he
    simp [readBody, field_append_of rest hf, hz]
  | small _ =>
    obtain ⟨z, hz, he⟩ := Option.map_eq_some'.mp h
    cases he
    simp [readBody, hz]
  | long =>
    obtain ⟨⟨f, r'⟩, hf, he⟩ := Option.bind_eq_some.mp h
    obtain ⟨⟨g, r''⟩, hg, he⟩ := Option.map_eq_some'.mp he
    cases he
    simp [readBody, field_append_of rest hf, field_append_of rest hg]

/-- A scalar's reading only looks at its own bytes: more bytes after them stay after it. -/
theorem readScalar_append {bytes r : List UInt8} {v : Value} (rest : List UInt8)
    (h : readScalar bytes = some (v, r)) : readScalar (bytes ++ rest) = some (v, r ++ rest) := by
  rcases bytes with _ | ⟨b, bs⟩
  · cases h
  · exact readBody_append rest h

/-! ## The head table on its ranges -/

/-- The head table on each range of §3 that is not a single head. -/
theorem ofNat_ranges (n : Nat) :
    (n < 0x18 → Head.ofNat n = .other) ∧
    (0x20 ≤ n ∧ n ≤ 0x27 → Head.ofNat n = .int (n - 0x1f)) ∧
    (0x28 ≤ n ∧ n ≤ 0x2f → Head.ofNat n = .uint (n - 0x27)) ∧
    (0x30 ≤ n ∧ n ≤ 0x39 → Head.ofNat n = .small (n - 0x30 : Nat)) ∧
    (0x3a ≤ n ∧ n ≤ 0x3f → Head.ofNat n = .small ((n : Int) - 0x40)) ∧
    (0x40 ≤ n ∧ n ≤ 0xbe → Head.ofNat n = .short (n - 0x40)) := by
  refine ⟨?_, ?_, ?_, ?_, ?_, ?_⟩ <;> intro h <;> simp (disch := omega) only [Head.ofNat, if_pos, if_neg]

/-- A scalar never starts with a head below `0x18`, where §3 puts the compounds. -/
theorem head_of_readScalar {b : UInt8} {bytes r : List UInt8} {v : Value}
    (h : readScalar (b :: bytes) = some (v, r)) : 0x18 ≤ b.toNat := by
  by_contra hb
  simp [readScalar, (ofNat_ranges b.toNat).1 (by omega), readBody] at h

theorem ofNat_int {k : Nat} (h1 : 1 ≤ k) (h8 : k ≤ 8) : Head.ofNat (0x1f + k) = .int k := by
  rw [(ofNat_ranges _).2.1 ⟨by omega, by omega⟩, Nat.add_sub_cancel_left]

theorem ofNat_uint {k : Nat} (h1 : 1 ≤ k) (h8 : k ≤ 8) : Head.ofNat (0x27 + k) = .uint k := by
  rw [(ofNat_ranges _).2.2.1 ⟨by omega, by omega⟩, Nat.add_sub_cancel_left]

theorem ofNat_small {n : Nat} (h : n ≤ 9) : Head.ofNat (0x30 + n) = .small n := by
  rw [(ofNat_ranges _).2.2.2.1 ⟨by omega, by omega⟩, Nat.add_sub_cancel_left]

theorem ofNat_negative {z : Int} (h1 : -6 ≤ z) (h2 : z ≤ -1) :
    Head.ofNat (0x40 + z).toNat = .small z := by
  rw [(ofNat_ranges _).2.2.2.2.1 ⟨by omega, by omega⟩]
  congr 1
  omega

theorem ofNat_short {len : Nat} (h : len ≤ 126) : Head.ofNat (0x40 + len) = .short len := by
  rw [(ofNat_ranges _).2.2.2.2.2 ⟨by omega, by omega⟩, Nat.add_sub_cancel_left]

/-! ## Each writer reads back -/

/-- An eight-byte little-endian field of a value below `2^64` reads back as the value. -/
theorem eight_field (head : UInt8) (v : Nat) (hv : v < 2 ^ 64) :
    ∃ bytes, appendLengthUnchecked 8 [head] v = head :: bytes ∧ bytes.length = 8 ∧
      leValue bytes = v := by
  obtain ⟨bytes, hrun, hlen, hval⟩ := appendLengthUnchecked_spec 8 [head] v
  exact ⟨bytes, hrun, hlen, hval.trans (Nat.mod_eq_of_lt hv)⟩

/-- What `addUInt` appends above nine: the head `0x27 + k`, `k ∈ 1..8`, and `k` bytes holding
the value. -/
theorem addUInt_large {v : UInt64} (h : 9 < v.toNat) : ∃ k body,
    addUInt [] v = (0x27 + k.toUInt8) :: body ∧ 1 ≤ k ∧ k ≤ 8 ∧ body.length = k ∧
      leValue body = v.toNat := by
  have hv64 := v.toNat_lt_size
  obtain ⟨bytes, hrun, hne, hval, hmin⟩ := appendUIntLoop_spec [0] v.toNat 0
  have hmin := hmin (by omega)
  have hlen : 1 ≤ bytes.length := List.length_pos.mpr hne
  have hk : bytes.length ≤ 8 := by
    by_contra hk
    have : 2 ^ 64 ≤ 2 ^ (8 * (bytes.length - 1)) := Nat.pow_le_pow_right (by norm_num) (by omega)
    simp only [UInt64.size] at hv64
    omega
  refine ⟨bytes.length, bytes, ?_, hlen, hk, rfl, hval⟩
  simp only [addUInt, if_neg (show ¬v.toNat ≤ 9 by omega), appendUInt, List.nil_append, hrun,
    Nat.zero_add, List.length_nil]
  rfl

/-- A head byte `base + k` with `base + k` below 256 has the value `base + k`. -/
theorem toNat_head (base : UInt8) (k : Nat) (h : base.toNat + k < 256) :
    (base + k.toUInt8).toNat = base.toNat + k := by
  rw [toNat_add_toUInt8, Nat.mod_eq_of_lt h]

theorem toUInt64_cast (z : Int) : ((toUInt64 z : Nat) : Int) = z % 2 ^ 64 :=
  Int.toNat_of_nonneg (Int.emod_nonneg z (by norm_num))

theorem ofInt?_small (n : Nat) (h : n ≤ 9) : SInt.ofInt? n = some (SInt.small n h) :=
  dif_pos ⟨(SInt.small n h).ge, (SInt.small n h).lt⟩

theorem encode_int {i : SInt 64} {bytes : List UInt8} (h : addInt [] i = some bytes) :
    (Value.int i).encode = bytes := by
  simp [Value.encode, Value.appendTo, h]

theorem readScalar_cons (b : UInt8) (bs rest : List UInt8) :
    readScalar ((b :: bs) ++ rest) = readBody (Head.ofNat b.toNat) (bs ++ rest) :=
  rfl

theorem read_utcDate (z : SInt 64) (rest : List UInt8) :
    readScalar ((Value.utcDate z).encode ++ rest) = some (.utcDate z, rest) := by
  obtain ⟨bytes, hrun, hlen, hval⟩ := appendLengthUnchecked_spec 8 [0x1c] (toUInt64 z.val)
  have hz : leSigned bytes = z.val := by
    have hge := z.ge
    have hlt := z.lt
    apply leSigned_of_emod bytes z.val (by omega) (by rw [hlen]; exact hge) (by rw [hlen]; exact hlt)
    rw [hval, hlen]
    push_cast
    rw [toUInt64_cast]
    norm_num
  rw [show (Value.utcDate z).encode = 0x1c :: bytes from hrun, readScalar_cons,
    show Head.ofNat (0x1c : UInt8).toNat = .utcDate from rfl]
  simp only [readBody, field_append rest hlen, Option.some_bind, hz, ofInt?_val, Option.map_some']

/-- `addInt`'s three forms — `0x30 + v`, `0x40 + v` and `0x1f + k` with `k` bytes — each
read back as the integer. -/
theorem read_int (i : SInt 64) (rest : List UInt8) :
    readScalar ((Value.int i).encode ++ rest) = some (.int i, rest) := by
  by_cases hs : 0 ≤ i.val ∧ i.val ≤ 9
  · -- case: one byte `0x30 + v`
    rw [encode_int (by simp only [addInt, if_pos hs]; rfl)]
    have hb : (toUInt8 (0x30 + i.val)).toNat = 0x30 + i.val.toNat := by
      have := toUInt8_toNat (0x30 + i.val)
      omega
    have hv : ((i.val.toNat : Nat) : Int) = i.val := Int.toNat_of_nonneg hs.1
    simp [appendByte, appendByteUnchecked, readScalar, hb, ofNat_small (show i.val.toNat ≤ 9 by
      omega), readBody, hv, ofInt?_val]
  by_cases hn : i.val < 0 ∧ -6 ≤ i.val
  · -- case: one byte `0x40 + v`
    rw [encode_int (by simp only [addInt, if_neg hs, if_pos hn]; rfl)]
    have hb : (toUInt8 (0x40 + i.val)).toNat = (0x40 + i.val).toNat := by
      have := toUInt8_toNat (0x40 + i.val)
      omega
    simp [appendByte, appendByteUnchecked, readScalar, hb, ofNat_negative hn.2 (by omega : i.val ≤ -1),
      readBody, ofInt?_val]
  · -- case: the head `0x1f + k` and `k` two's-complement bytes
    obtain ⟨k, body, -, hk1, hk8, -, -, hrun, hlen, hval⟩ := appendInt_spec [] i 0x1f
    rw [encode_int (by rw [addInt, if_neg hs, if_neg hn, hrun])]
    have hb : (0x1f + k.toUInt8).toNat = 0x1f + k := toNat_head 0x1f k (by show 0x1f + k < 256; omega)
    simp [readScalar, hb, ofNat_int hk1 hk8, readBody, field_append rest hlen, hval, ofInt?_val]

/-- `addUInt` reads back as the value, one below ten as the equal small integer. -/
theorem read_uint (u : UInt64) (rest : List UInt8) :
    readScalar ((Value.uint u).encode ++ rest) = some ((Value.uint u).canonical, rest) := by
  by_cases hs : u.toNat ≤ 9
  · -- case: one byte `0x30 + v`
    have hb : (0x30 + u.toNat).toUInt8.toNat = 0x30 + u.toNat := by simp; omega
    simp [Value.encode, Value.appendTo, addUInt, hs, appendByte, appendByteUnchecked, readScalar,
      hb, ofNat_small hs, readBody, ofInt?_small u.toNat hs, Value.canonical]
  · -- case: the head `0x27 + k` and `k` bytes
    obtain ⟨k, body, hrun, hk1, hk8, hlen, hval⟩ := addUInt_large (by omega : 9 < u.toNat)
    have hb : (0x27 + k.toUInt8).toNat = 0x27 + k := toNat_head 0x27 k (by show 0x27 + k < 256; omega)
    simp [Value.encode, Value.appendTo, hrun, readScalar, hb, ofNat_uint hk1 hk8, readBody,
      field_append rest hlen, hval, toUInt64_toNat, Value.canonical, hs]

/-- A string reads back as its bytes, short (`0x40 + len`) or long (`0xbf` and an eight-byte
length), when its length fits the length field. -/
theorem read_string (s : List UInt8) (hs : s.length < 2 ^ 64) (rest : List UInt8) :
    readScalar ((Value.string s).encode ++ rest) = some (.string s, rest) := by
  by_cases hshort : s.length ≤ 126
  · -- case: short
    have hb : (0x40 + s.length.toUInt8).toNat = 0x40 + s.length :=
      toNat_head 0x40 s.length (by show 0x40 + s.length < 256; omega)
    simp [Value.encode, Value.appendTo, encodeString, hshort, appendByte, appendByteUnchecked,
      readScalar, hb, ofNat_short hshort, readBody, field_append rest rfl]
  · -- case: long
    obtain ⟨bytes, hrun, hlen, hval⟩ := eight_field 0xbf s.length hs
    have hlong : Head.ofNat (0xbf : UInt8).toNat = .long := by decide
    simp only [Value.encode, Value.appendTo, encodeString, if_neg hshort, appendByte,
      appendByteUnchecked, List.nil_append, hrun, List.cons_append, List.append_assoc, readScalar,
      hlong, readBody]
    simp [field_append (s ++ rest) hlen, hval, field_append rest rfl]

/-- Every scalar `add(Value)` writes is read whole as the value. -/
theorem readScalar_encode_whole (v : Value) (hv : v.Readable) :
    readScalar v.encode = some (v.canonical, []) := by
  rw [← List.append_nil v.encode]
  cases v with
  | none | array _ | object _ => exact hv.elim
  | null => rfl
  | bool b => cases b <;> rfl
  | double d =>
    obtain ⟨bytes, hrun, hlen, hval⟩ := eight_field 0x1b d.bits.toNat d.bits.toNat_lt_size
    rw [show (Value.double d).encode = 0x1b :: bytes from hrun, readScalar_cons,
      show Head.ofNat (0x1b : UInt8).toNat = .double from rfl]
    simp only [readBody, field_append [] hlen, Option.map_some', hval, toUInt64_toNat]
    rfl
  | external a =>
    obtain ⟨bytes, hrun, hlen, hval⟩ := eight_field 0x1d a.toNat a.toNat_lt_size
    rw [show (Value.external a).encode = 0x1d :: bytes from hrun, readScalar_cons,
      show Head.ofNat (0x1d : UInt8).toNat = .external from rfl]
    simp only [readBody, field_append [] hlen, Option.map_some', hval, toUInt64_toNat]
    rfl
  | utcDate z => exact read_utcDate z []
  | int i => exact read_int i []
  | uint u => exact read_uint u []
  | string s => exact read_string s hv []

/-- **Scalars read back.** Every scalar `add(Value)` writes (`addNull`, `addFalse`, `addTrue`,
`addDouble`, `addUTCDate`, the external pointer, `addInt`, `addUInt`, short and long strings)
reads back, by §3's head table, as the value, an unsigned value below ten as the equal small
integer; the reading takes exactly the value's bytes, whatever follows them. -/
theorem readScalar_encode (v : Value) (hv : v.Readable) (rest : List UInt8) :
    readScalar (v.encode ++ rest) = some (v.canonical, rest) :=
  readScalar_append rest (readScalar_encode_whole v hv)

theorem readScalar_encode_small_uint :
    (Value.uint 7).Readable ∧ readScalar ((Value.uint 7).encode ++ [0x18]) =
      some ((Value.uint 7).canonical, [0x18]) :=
  ⟨trivial, readScalar_encode (.uint 7) trivial [0x18]⟩

end VelocyPack
