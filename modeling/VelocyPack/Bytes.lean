import Mathlib.Tactic

/-!
# Bytes, little-endian fields and C++ integer casts

The builder's buffer `_start[0, _pos)` is modelled as the list of its bytes, and every writer
of `Builder.h` appends to it. This module holds what the writers share:

* `leValue`, `leSigned` — a field read back little-endian, unsigned or two's complement;
* `appendByteUnchecked`, `appendLengthUnchecked` — the two primitive writers, with
  `appendLengthUnchecked_spec`: `n` bytes whose value is `v mod 2^(8n)`;
* `SInt`, `int64?`, `toUInt8`, `toUInt64` — C++ signed integers, signed arithmetic (undefined
  on overflow), and the modular casts of `static_cast`.

`reserve` only grows the buffer's capacity, so it has no counterpart here.
-/

namespace VelocyPack

/-! ## C++ integers -/

/-- A C++ signed integer of `w` bits (`int8_t`, `int32_t`, `int64_t`), its range carried as
fields. -/
structure SInt (w : Nat) where
  val : Int
  ge : -2 ^ (w - 1) ≤ val
  lt : val < 2 ^ (w - 1)
deriving DecidableEq

/-- Signed 64-bit arithmetic: the result when it is an `int64_t`; `none` is signed overflow,
which C++ leaves undefined. -/
def int64? (z : Int) : Option Int := if -2 ^ 63 ≤ z ∧ z < 2 ^ 63 then some z else none

/-- `static_cast<uint8_t>` of an integer: its residue modulo `2^8`. -/
def toUInt8 (z : Int) : UInt8 := (z % 256).toNat.toUInt8

/-- `static_cast<uint64_t>` (the library's `toUInt64`) of a signed integer: its residue
modulo `2^64`. -/
def toUInt64 (z : Int) : Nat := (z % 2 ^ 64).toNat

theorem int64?_of_range {z : Int} (h1 : -2 ^ 63 ≤ z) (h2 : z < 2 ^ 63) : int64? z = some z :=
  if_pos ⟨h1, h2⟩

@[simp] theorem toNat_toUInt8 (n : Nat) : n.toUInt8.toNat = n % 256 := by
  simp [Nat.toUInt8, UInt8.toNat, UInt8.ofNat, Fin.ofNat]

theorem toUInt8_toNat (z : Int) : ((toUInt8 z).toNat : Int) = z % 256 := by
  have : (0 : Int) ≤ z % 256 := Int.emod_nonneg z (by decide)
  have : z % 256 < 256 := Int.emod_lt_of_pos z (by decide)
  simp only [toUInt8, toNat_toUInt8]
  omega

/-- The low byte of `v`, as `v & 0xff` is stored into a `uint8_t`. -/
theorem lowByte_toNat (v : Nat) : ((v &&& 0xff).toUInt8).toNat = v % 256 := by
  have : v &&& 0xff = v % 2 ^ 8 := Nat.and_pow_two_sub_one_eq_mod v 8
  simp [this]

/-! ## Reading a field back -/

/-- The value of `bytes` read little-endian: `Σ bytes[i] · 256^i`. -/
def leValue : List UInt8 → Nat
  | [] => 0
  | b :: rest => b.toNat + 256 * leValue rest

/-- `bytes` read little-endian as two's complement: negative when the top bit of the last
byte is set. -/
def leSigned (bytes : List UInt8) : Int :=
  if leValue bytes < 2 ^ (8 * bytes.length - 1) then leValue bytes
  else (leValue bytes : Int) - 2 ^ (8 * bytes.length)

@[simp] theorem leValue_nil : leValue [] = 0 := rfl

@[simp] theorem leValue_cons (b : UInt8) (rest : List UInt8) :
    leValue (b :: rest) = b.toNat + 256 * leValue rest := rfl

theorem two_pow_eight_mul (n : Nat) : 2 ^ (8 * (n + 1)) = 256 * 2 ^ (8 * n) := by
  rw [Nat.mul_succ, Nat.pow_add, Nat.mul_comm]

theorem leValue_lt (bytes : List UInt8) : leValue bytes < 2 ^ (8 * bytes.length) := by
  induction bytes with
  | nil => simp
  | cons b rest ih =>
    have hb := b.toNat_lt_size
    rw [leValue_cons, List.length_cons, two_pow_eight_mul]
    simp only [UInt8.size] at hb
    omega

/-- A field of `k ≥ 1` bytes holding `z mod 2^(8k)` reads back as `z` in two's complement,
for every `z` in the signed range of `k` bytes. -/
theorem leSigned_of_emod (bytes : List UInt8) (z : Int) (hk : 0 < bytes.length)
    (hlo : -2 ^ (8 * bytes.length - 1) ≤ z) (hhi : z < 2 ^ (8 * bytes.length - 1))
    (hv : (leValue bytes : Int) = z % 2 ^ (8 * bytes.length)) : leSigned bytes = z := by
  have hP : (2 : Int) ^ (8 * bytes.length) = 2 * 2 ^ (8 * bytes.length - 1) := by
    rw [← pow_succ']; congr 1; omega
  unfold leSigned
  rcases le_or_lt 0 z with hz | hz
  · -- a non-negative value is stored as itself, below the sign bit
    rw [Int.emod_eq_of_lt hz (by omega)] at hv
    have h : (leValue bytes : Int) < 2 ^ (8 * bytes.length - 1) := by omega
    rw [if_pos (by exact_mod_cast h)]
    exact hv
  · -- a negative value is stored as `z + 2^(8k)`, at or above the sign bit
    rw [← Int.add_emod_self, Int.emod_eq_of_lt (by omega) (by omega)] at hv
    rw [if_neg (by
      intro h
      have : (leValue bytes : Int) < 2 ^ (8 * bytes.length - 1) := by exact_mod_cast h
      omega)]
    omega

/-! ## Writers -/

/-- `Builder::appendByteUnchecked`: `_start[_pos++] = value`. -/
def appendByteUnchecked (buf : List UInt8) (value : UInt8) : List UInt8 := buf ++ [value]

/-- `Builder::appendByte`: `reserve(1)`, then `appendByteUnchecked`. -/
def appendByte (buf : List UInt8) (value : UInt8) : List UInt8 := appendByteUnchecked buf value

/-- `Builder::appendLengthUnchecked<n>(v)`: `n` times, store `v & 0xff` and shift `v` right
by 8. The recursion counts the iterations still to run. -/
def appendLengthUnchecked : (n : Nat) → (buf : List UInt8) → (v : Nat) → List UInt8
  | 0, buf, _ => buf
  | n + 1, buf, v =>
    appendLengthUnchecked n (appendByteUnchecked buf (v &&& 0xff).toUInt8) (v >>> 8)

/-- The writer only appends: what stands before the buffer is kept. -/
theorem appendLengthUnchecked_append (n : Nat) (pre buf : List UInt8) (v : Nat) :
    appendLengthUnchecked n (pre ++ buf) v = pre ++ appendLengthUnchecked n buf v := by
  induction n generalizing buf v with
  | zero => rfl
  | succ n ih => simp only [appendLengthUnchecked, appendByteUnchecked, List.append_assoc, ← ih]

/-- `appendLengthUnchecked<n>(v)` advances the buffer by exactly `n` bytes, and those bytes
hold `v mod 2^(8n)` little-endian. -/
theorem appendLengthUnchecked_spec (n : Nat) (buf : List UInt8) (v : Nat) :
    ∃ bytes, appendLengthUnchecked n buf v = buf ++ bytes ∧ bytes.length = n ∧
      leValue bytes = v % 2 ^ (8 * n) := by
  induction n generalizing buf v with
  | zero => exact ⟨[], by simp [appendLengthUnchecked], rfl, by simp [Nat.mod_one]⟩
  | succ n ih =>
    obtain ⟨bytes, hrun, hlen, hval⟩ :=
      ih (appendByteUnchecked buf (v &&& 0xff).toUInt8) (v >>> 8)
    refine ⟨(v &&& 0xff).toUInt8 :: bytes, ?_, by simp [hlen], ?_⟩
    · rw [appendLengthUnchecked, hrun]
      simp [appendByteUnchecked]
    · rw [leValue_cons, hval, lowByte_toNat, Nat.shiftRight_eq_div_pow, two_pow_eight_mul,
        Nat.mod_mul]

end VelocyPack
