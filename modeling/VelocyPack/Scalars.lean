import VelocyPack.Integers
import VelocyPack.Options

/-!
# Fixed-width and BCD writers

`addDouble` and `addUTCDate` write a head and eight little-endian bytes; `addBCD` writes a
sign-and-width head, the mantissa's byte length, a four-byte exponent and the mantissa
packed two digits a byte.

* `appendLengthUnchecked_fields` — the shared little-endian writer, and the date and double
  writers built on it;
* `addBCD_empty_mantissa` — with no digits, `n = 0`: the head of a positive value falls
  outside both BCD ranges, and that of a negative one inside the positive range;
* `addBCD_layout` — for one digit or more, the layout of the appended bytes, field by field.
-/

namespace VelocyPack

/-- A C++ `double`, by the 64-bit pattern that `memcpy` copies out of it: all `addDouble`
reads. -/
structure Double where
  bits : UInt64
deriving DecidableEq

/-- `Builder::addDouble`: `0x1b`, then the eight bytes of the bit pattern, lowest first (the
`for (x = dv; vSize > 0; vSize--)` loop is the loop of `appendLengthUnchecked<8>`). -/
def addDouble (buf : List UInt8) (v : Double) : List UInt8 :=
  appendLengthUnchecked 8 (appendByteUnchecked buf 0x1b) v.bits.toNat

/-- `Builder::addUTCDate`: `0x1c`, then `appendLengthUnchecked<8>(toUInt64(v))`. -/
def addUTCDate (buf : List UInt8) (v : SInt 64) : List UInt8 :=
  appendLengthUnchecked 8 (appendByteUnchecked buf 0x1c) (toUInt64 v.val)

theorem addDouble_append (pre buf : List UInt8) (v : Double) :
    addDouble (pre ++ buf) v = pre ++ addDouble buf v := by
  simp [addDouble, appendByteUnchecked, ← appendLengthUnchecked_append]

theorem addUTCDate_append (pre buf : List UInt8) (v : SInt 64) :
    addUTCDate (pre ++ buf) v = pre ++ addUTCDate buf v := by
  simp [addUTCDate, appendByteUnchecked, ← appendLengthUnchecked_append]

/-- **Little-endian fields.** `appendLengthUnchecked<n>(v)` appends exactly `n` bytes holding
`v mod 2^(8n)`; so `addUTCDate` appends `0x1c` and eight bytes reading back as the signed
date, and `addDouble` appends `0x1b` and the eight bytes of the double's bit pattern. -/
theorem appendLengthUnchecked_fields :
    (∀ (n : Nat) (buf : List UInt8) (v : UInt64), ∃ bytes,
      appendLengthUnchecked n buf v.toNat = buf ++ bytes ∧ bytes.length = n ∧
      leValue bytes = v.toNat % 2 ^ (8 * n)) ∧
    (∀ (buf : List UInt8) (v : SInt 64), ∃ bytes,
      addUTCDate buf v = buf ++ 0x1c :: bytes ∧ bytes.length = 8 ∧ leSigned bytes = v.val) ∧
    (∀ (buf : List UInt8) (d : Double), ∃ bytes,
      addDouble buf d = buf ++ 0x1b :: bytes ∧ bytes.length = 8 ∧ leValue bytes = d.bits.toNat) := by
  refine ⟨fun n buf v => appendLengthUnchecked_spec n buf v.toNat, fun buf v => ?_, fun buf d => ?_⟩
  · obtain ⟨bytes, hrun, hlen, hval⟩ :=
      appendLengthUnchecked_spec 8 (appendByteUnchecked buf 0x1c) (toUInt64 v.val)
    refine ⟨bytes, by rw [addUTCDate, hrun]; simp [appendByteUnchecked], hlen, ?_⟩
    have hge := v.ge
    have hlt := v.lt
    have h0 : (0 : Int) ≤ v.val % 2 ^ 64 := Int.emod_nonneg _ (by norm_num)
    apply leSigned_of_emod bytes v.val (by omega) (by rw [hlen]; exact hge)
      (by rw [hlen]; exact hlt)
    rw [hval, hlen]
    push_cast
    rw [toUInt64, Int.toNat_of_nonneg h0, Int.emod_emod_of_dvd _ (by norm_num)]
  · obtain ⟨bytes, hrun, hlen, hval⟩ :=
      appendLengthUnchecked_spec 8 (appendByteUnchecked buf 0x1b) d.bits.toNat
    refine ⟨bytes, by rw [addDouble, hrun]; simp [appendByteUnchecked], hlen, ?_⟩
    rw [hval]
    exact Nat.mod_eq_of_lt (d.bits.toNat_lt_size.trans_eq rfl)

/-! ## BCD -/

/-- The `for (uint64_t x = byteLen; x != 0; x >>= 8) n++` loop of `Builder::addBCD`: the
number of bytes that hold `x`, counted onto `n`. -/
def byteCountLoop (x n : Nat) : Nat :=
  if x ≠ 0 then byteCountLoop (x >>> 8) (n + 1) else n
termination_by x
decreasing_by
  simp only [Nat.shiftRight_eq_div_pow] at *
  omega

/-- The mantissa loop of `Builder::addBCD` past an odd first digit: each step packs
`mantissa[i]` and `mantissa[i + 1]` into one byte, the first digit in the high nibble. -/
def appendMantissaPairs (buf : List UInt8) : List UInt8 → List UInt8
  | d0 :: d1 :: rest => appendMantissaPairs (appendByte buf ((d0 <<< 4) ||| d1)) rest
  | _ => buf

/-- `Builder::addBCD(sign, exponent, mantissa, mantissaLength)`, with `mantissaLength` the
length of `mantissa`. The head is `static_cast<uint8_t>((sign >= 0 ? 0xc8 : 0xd0) + n - 1)`;
the `for (i < n)` loop storing `byteLen` is the loop of `appendLengthUnchecked`. -/
def addBCD (opts : Options) (buf : List UInt8) (sign : SInt 8) (exponent : SInt 32)
    (mantissa : List UInt8) : Except ExceptionType (List UInt8) :=
  if opts.disallowBCD then .error .builderBCDDisallowed
  else
    let mantissaLength := mantissa.length
    let isOdd := mantissaLength % 2 ≠ 0
    let byteLen := mantissaLength / 2 + (if isOdd then 1 else 0)
    let n := byteCountLoop byteLen 0
    let buf := appendByte buf (toUInt8 ((if sign.val ≥ 0 then 0xc8 else 0xd0) + n - 1))
    let buf := appendLengthUnchecked n buf byteLen
    let buf := appendLengthUnchecked 4 buf (toUInt64 exponent.val)
    .ok (if isOdd then appendMantissaPairs (appendByte buf (mantissa.headD 0)) mantissa.tail
      else appendMantissaPairs buf mantissa)

/-- The digits of packed BCD bytes, read in order: high nibble, then low nibble. -/
def unpackNibbles (packed : List UInt8) : List UInt8 :=
  packed.flatMap fun b => [b >>> 4, b &&& 0x0f]

/-- The loop counts `k` bytes, the least with `x < 2^(8k)`: none for `x = 0`. -/
theorem byteCountLoop_spec (x n : Nat) : ∃ k, byteCountLoop x n = n + k ∧ x < 2 ^ (8 * k) ∧
    (x = 0 → k = 0) ∧ (x ≠ 0 → 1 ≤ k ∧ 2 ^ (8 * (k - 1)) ≤ x) := by
  induction x, n using byteCountLoop.induct with
  | case1 x n hx ih =>
    obtain ⟨k, hrun, hlt, hzero, hmin⟩ := ih
    rw [Nat.shiftRight_eq_div_pow] at hlt hzero hmin
    refine ⟨k + 1, by rw [byteCountLoop, if_pos hx, hrun]; omega, ?_, by omega, fun _ => ⟨by omega, ?_⟩⟩
    · rw [two_pow_eight_mul]
      omega
    · by_cases h : x / 2 ^ 8 = 0
      · rw [hzero h]
        simp only [Nat.zero_add, Nat.sub_self, Nat.mul_zero, pow_zero]
        omega
      · obtain ⟨hk, hmin⟩ := hmin h
        rw [Nat.add_sub_cancel, show 8 * k = 8 * (k - 1) + 8 by omega, Nat.pow_add]
        omega
  | case2 x n hx =>
    exact ⟨0, by rw [byteCountLoop, if_neg hx]; rfl, by simp_all, fun _ => rfl, fun h => absurd (by simpa using hx) h⟩

/-- A byte of two digits `≤ 9` gives them back as its nibbles. -/
theorem nibbles_pack (a b : UInt8) (ha : a.toNat ≤ 9) (hb : b.toNat ≤ 9) :
    ((a <<< 4) ||| b) >>> 4 = a ∧ ((a <<< 4) ||| b) &&& 0x0f = b := by
  have key : ∀ i j : Fin 10, ((i.val.toUInt8 <<< 4) ||| j.val.toUInt8) >>> 4 = i.val.toUInt8 ∧
      ((i.val.toUInt8 <<< 4) ||| j.val.toUInt8) &&& 0x0f = j.val.toUInt8 := by decide
  have ea : a = (⟨a.toNat, by omega⟩ : Fin 10).val.toUInt8 := by
    simp [Nat.toUInt8, UInt8.ofNat, UInt8.toNat]
  have eb : b = (⟨b.toNat, by omega⟩ : Fin 10).val.toUInt8 := by
    simp [Nat.toUInt8, UInt8.ofNat, UInt8.toNat]
  rw [ea, eb]
  exact key _ _

/-- A byte holding one digit `≤ 9` reads as the nibbles `0` and the digit. -/
theorem nibbles_single (a : UInt8) (ha : a.toNat ≤ 9) : a >>> 4 = 0 ∧ a &&& 0x0f = a := by
  have key : ∀ i : Fin 10, i.val.toUInt8 >>> 4 = 0 ∧ i.val.toUInt8 &&& 0x0f = i.val.toUInt8 := by
    decide
  have ea : a = (⟨a.toNat, by omega⟩ : Fin 10).val.toUInt8 := by
    simp [Nat.toUInt8, UInt8.ofNat, UInt8.toNat]
  rw [ea]
  exact key _

/-- The pair loop over an even number of digits appends one byte per pair, whose nibbles are
the digits in order. -/
theorem appendMantissaPairs_spec (buf digits : List UInt8) (hdigits : ∀ d ∈ digits, d.toNat ≤ 9)
    (heven : digits.length % 2 = 0) : ∃ packed, appendMantissaPairs buf digits = buf ++ packed ∧
      packed.length = digits.length / 2 ∧ unpackNibbles packed = digits := by
  induction buf, digits using appendMantissaPairs.induct with
  | case1 buf d0 d1 rest ih =>
    obtain ⟨packed, hrun, hlen, hun⟩ := ih (fun d hd => hdigits d (by simp [hd]))
      (by simp at heven; omega)
    obtain ⟨h0, h1⟩ := nibbles_pack d0 d1 (hdigits d0 (by simp)) (hdigits d1 (by simp))
    refine ⟨((d0 <<< 4) ||| d1) :: packed, ?_, by simp [hlen]; omega, ?_⟩
    · rw [appendMantissaPairs, hrun]
      simp [appendByte, appendByteUnchecked]
    · simp only [unpackNibbles, List.flatMap_cons] at hun ⊢
      rw [hun, h0, h1]
      rfl
  | case2 digits buf hnot =>
    match digits, hnot, heven with
    | [], _, _ => exact ⟨[], by simp [appendMantissaPairs], rfl, rfl⟩
    | [_], _, heven => simp at heven
    | _ :: _ :: _, hnot, _ => exact absurd rfl (hnot _ _ _)

/-- The exponent field: four bytes reading back, in two's complement, as the `int32_t`. -/
theorem exponent_field (buf : List UInt8) (exponent : SInt 32) : ∃ expBytes,
    appendLengthUnchecked 4 buf (toUInt64 exponent.val) = buf ++ expBytes ∧
    expBytes.length = 4 ∧ leSigned expBytes = exponent.val := by
  obtain ⟨expBytes, hrun, hlen, hval⟩ := appendLengthUnchecked_spec 4 buf (toUInt64 exponent.val)
  refine ⟨expBytes, hrun, hlen, ?_⟩
  have hge := exponent.ge
  have hlt := exponent.lt
  have h0 : (0 : Int) ≤ exponent.val % 2 ^ 64 := Int.emod_nonneg _ (by norm_num)
  apply leSigned_of_emod expBytes _ (by omega) (by rw [hlen]; exact hge) (by rw [hlen]; exact hlt)
  rw [hval, hlen]
  push_cast
  rw [toUInt64, Int.toNat_of_nonneg h0, Int.emod_emod_of_dvd _ (by norm_num)]

/-- **An empty mantissa.** With `mantissaLength = 0`, `n = 0` and `addBCD` writes no length
byte and the head `0xc7` (sign `≥ 0`), outside both BCD head ranges, or `0xcf` (sign `< 0`),
outside the negative range `0xd0..0xd7` and inside the positive one `0xc8..0xcf`, where it
stands for a positive value with an eight-byte length. -/
theorem addBCD_empty_mantissa :
    addBCD Options.defaults [] ⟨0, by decide, by decide⟩ ⟨0, by decide, by decide⟩ [] =
      .ok [0xc7, 0, 0, 0, 0] ∧
    addBCD Options.defaults [] ⟨-1, by decide, by decide⟩ ⟨0, by decide, by decide⟩ [] =
      .ok [0xcf, 0, 0, 0, 0] := by
  have h0 : byteCountLoop 0 0 = 0 := by rw [byteCountLoop, if_neg (by decide)]
  constructor <;> simp [addBCD, Options.defaults, h0] <;> decide

/-- **`addBCD`, one digit or more.** The head is `0xc7 + n` (sign `≥ 0`) or `0xcf + n`
(sign `< 0`), `n ∈ 1..8` the least byte count holding `byteLen = ⌈L/2⌉`; then `n` bytes of
`byteLen`, four bytes of the exponent, and `byteLen` bytes whose nibbles are the digits,
left-padded with one `0` when `L` is odd. `mantissaLength` is a `uint64_t`. -/
theorem addBCD_layout (opts : Options) (hopt : opts.disallowBCD = false) (buf : List UInt8)
    (sign : SInt 8) (exponent : SInt 32) (mantissa : List UInt8)
    (hdigits : ∀ d ∈ mantissa, d.toNat ≤ 9) (hne : mantissa ≠ [])
    (hlen : mantissa.length < 2 ^ 64) :
    ∃ head lenBytes expBytes packed,
      addBCD opts buf sign exponent mantissa = .ok (buf ++ head :: (lenBytes ++ expBytes ++ packed)) ∧
      (0 ≤ sign.val → 0xc8 ≤ head.toNat ∧ head.toNat ≤ 0xcf ∧
        lenBytes.length = head.toNat - 0xc7) ∧
      (sign.val < 0 → 0xd0 ≤ head.toNat ∧ head.toNat ≤ 0xd7 ∧
        lenBytes.length = head.toNat - 0xcf) ∧
      1 ≤ lenBytes.length ∧ lenBytes.length ≤ 8 ∧
      (mantissa.length + 1) / 2 < 2 ^ (8 * lenBytes.length) ∧
      2 ^ (8 * (lenBytes.length - 1)) ≤ (mantissa.length + 1) / 2 ∧
      leValue lenBytes = (mantissa.length + 1) / 2 ∧
      expBytes.length = 4 ∧ leSigned expBytes = exponent.val ∧
      packed.length = (mantissa.length + 1) / 2 ∧
      unpackNibbles packed = (if mantissa.length % 2 = 1 then 0 :: mantissa else mantissa) := by
  have hL : 0 < mantissa.length := List.length_pos.mpr hne
  have hbyteLen : mantissa.length / 2 + (if mantissa.length % 2 ≠ 0 then 1 else 0) =
      (mantissa.length + 1) / 2 := by split <;> omega
  obtain ⟨n, hn, hnlt, -, hnmin⟩ := byteCountLoop_spec ((mantissa.length + 1) / 2) 0
  obtain ⟨hn1, hnmin⟩ := hnmin (by omega)
  have hn8 : n ≤ 8 := by
    by_contra h
    have : 2 ^ 64 ≤ 2 ^ (8 * (n - 1)) := Nat.pow_le_pow_right (by norm_num) (by omega)
    omega
  -- the head, by the sign
  set head := toUInt8 ((if sign.val ≥ 0 then 0xc8 else 0xd0) + (n : Int) - 1) with hhead
  have hheadNat : (head.toNat : Int) = (if sign.val ≥ 0 then 0xc7 else 0xcf) + n := by
    rw [hhead, toUInt8_toNat]
    split <;> rw [Int.emod_eq_of_lt (by omega) (by omega)] <;> ring
  obtain ⟨lenBytes, hrun1, hlen1, hval1⟩ :=
    appendLengthUnchecked_spec n (appendByte buf head) ((mantissa.length + 1) / 2)
  obtain ⟨expBytes, hrun2, hlen2, hval2⟩ := exponent_field (appendByte buf head ++ lenBytes) exponent
  -- the digits: an odd first digit alone, then pairs
  obtain ⟨packed, hrun3, hlen3, hun⟩ : ∃ packed,
      (if mantissa.length % 2 ≠ 0 then appendMantissaPairs
          (appendByte (appendByte buf head ++ lenBytes ++ expBytes) (mantissa.headD 0)) mantissa.tail
        else appendMantissaPairs (appendByte buf head ++ lenBytes ++ expBytes) mantissa) =
        appendByte buf head ++ lenBytes ++ expBytes ++ packed ∧
      packed.length = (mantissa.length + 1) / 2 ∧
      unpackNibbles packed = (if mantissa.length % 2 = 1 then 0 :: mantissa else mantissa) := by
    by_cases hodd : mantissa.length % 2 = 1
    · obtain ⟨d, rest, rfl⟩ := List.exists_cons_of_ne_nil hne
      obtain ⟨packed, hrun, hplen, hpun⟩ := appendMantissaPairs_spec
        (appendByte (appendByte buf head ++ lenBytes ++ expBytes) d) rest
        (fun e he => hdigits e (by simp [he])) (by simp at hodd; omega)
      obtain ⟨hd0, hd1⟩ := nibbles_single d (hdigits d (by simp))
      refine ⟨d :: packed, ?_, by simp at hplen ⊢; omega, ?_⟩
      · rw [if_pos (by omega), List.headD_cons, List.tail_cons, hrun]
        simp [appendByte, appendByteUnchecked]
      · rw [if_pos hodd]
        simp only [unpackNibbles, List.flatMap_cons] at hpun ⊢
        rw [hpun, hd0, hd1]
        rfl
    · obtain ⟨packed, hrun, hplen, hpun⟩ := appendMantissaPairs_spec
        (appendByte buf head ++ lenBytes ++ expBytes) mantissa hdigits (by omega)
      exact ⟨packed, by rw [if_neg (by omega), hrun], by omega, by rw [if_neg hodd]; exact hpun⟩
  refine ⟨head, lenBytes, expBytes, packed, ?_, fun hs => ?_, fun hs => ?_, by omega, by omega,
    by rw [hlen1]; exact hnlt, by rw [hlen1]; exact hnmin, by rw [hval1]; exact Nat.mod_eq_of_lt hnlt,
    hlen2, hval2, hlen3, hun⟩
  · simp only [addBCD, hopt, hbyteLen, hn, Nat.zero_add, Bool.false_eq_true, if_false]
    rw [← hhead, hrun1, hrun2, hrun3]
    simp [appendByte, appendByteUnchecked]
  · rw [if_pos hs] at hheadNat
    omega
  · rw [if_neg (by omega)] at hheadNat
    omega

/-- `addBCD_layout` at one digit. -/
theorem addBCD_layout_one_digit : ∃ head lenBytes expBytes packed,
      addBCD Options.defaults [] ⟨0, by decide, by decide⟩ ⟨0, by decide, by decide⟩ [5] =
        .ok ([] ++ head :: (lenBytes ++ expBytes ++ packed)) ∧
      (0 ≤ (0 : Int) → 0xc8 ≤ head.toNat ∧ head.toNat ≤ 0xcf ∧
        lenBytes.length = head.toNat - 0xc7) ∧
      ((0 : Int) < 0 → 0xd0 ≤ head.toNat ∧ head.toNat ≤ 0xd7 ∧
        lenBytes.length = head.toNat - 0xcf) ∧
      1 ≤ lenBytes.length ∧ lenBytes.length ≤ 8 ∧
      ([5].length + 1) / 2 < 2 ^ (8 * lenBytes.length) ∧
      2 ^ (8 * (lenBytes.length - 1)) ≤ ([5].length + 1) / 2 ∧
      leValue lenBytes = ([5].length + 1) / 2 ∧
      expBytes.length = 4 ∧ leSigned expBytes = 0 ∧
      packed.length = ([5].length + 1) / 2 ∧
      unpackNibbles packed = (if [5].length % 2 = 1 then 0 :: [5] else [5]) :=
  addBCD_layout Options.defaults rfl [] ⟨0, by decide, by decide⟩ ⟨0, by decide, by decide⟩ [5]
    (by decide) (by decide) (by decide)

end VelocyPack
