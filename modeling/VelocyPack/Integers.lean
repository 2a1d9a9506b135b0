import VelocyPack.Bytes

/-!
# Integer writers: `addUInt` and `addInt`

`addUInt` stores a `uint64_t` as a small integer (`0x30 + v` for `v ≤ 9`) or as the head
`0x27 + k` and the `k` low bytes of `v`, `k` counted by the do-while loop of `appendUInt`.
`addInt` stores an `int64_t` as a small integer (`0..9`, `-6..-1`) or as the head `0x1f + k`
and `k` bytes of two's complement, `k = intLength v`.

Signed arithmetic goes through `int64?`, so a run that would overflow returns `none`;
`addInt_spec` shows that no run does.

* `appendUIntLoop_spec`, `intLengthLoop_spec` — what the two do-while loops compute;
* `intLength_spec` — `intLength v` is the least byte count whose signed range holds `v`;
* `addUInt_spec`, `addInt_spec` — the bytes each writer appends, for every input.
-/

namespace VelocyPack

theorem toNat_add_toUInt8 (a : UInt8) (n : Nat) :
    (a + n.toUInt8).toNat = (a.toNat + n) % 256 := by
  simp [UInt8.add_def, UInt8.toNat, Nat.toUInt8, UInt8.ofNat, BitVec.toNat_add]

theorem leValue_append (a b : List UInt8) :
    leValue (a ++ b) = leValue a + 2 ^ (8 * a.length) * leValue b := by
  induction a with
  | nil => simp
  | cons x a ih => simp only [List.cons_append, leValue_cons, ih, List.length_cons,
      two_pow_eight_mul]; ring

/-- A field whose last byte is zero holds less than `2^(8(k-1))`: so a field of `k` bytes
holding at least that much ends in a non-zero byte. -/
theorem getLast?_ne_zero (bytes : List UInt8)
    (h : 2 ^ (8 * (bytes.length - 1)) ≤ leValue bytes) : bytes.getLast? ≠ some 0 := by
  intro hlast
  obtain ⟨init, rfl⟩ : ∃ init, bytes = init ++ [0] :=
    ⟨bytes.dropLast, (List.dropLast_append_getLast? _ hlast).symm⟩
  have := leValue_lt init
  simp [leValue_append] at h
  omega

/-! ## Unsigned -/

/-- The `do { vSize++; store v & 0xff; v >>= 8; } while (v != 0)` loop of
`Builder::appendUInt`; returns the buffer and the final `vSize`. -/
def appendUIntLoop (buf : List UInt8) (v vSize : Nat) : List UInt8 × Nat :=
  let buf := appendByteUnchecked buf (v &&& 0xff).toUInt8
  if v >>> 8 ≠ 0 then appendUIntLoop buf (v >>> 8) (vSize + 1) else (buf, vSize + 1)
termination_by v
decreasing_by
  simp only [Nat.shiftRight_eq_div_pow] at *
  omega

/-- `Builder::appendUInt(v, base)`: skip the head byte (`advance(1)`), store the bytes of `v`,
then write the head `base + vSize` at the saved position. -/
def appendUInt (buf : List UInt8) (v : Nat) (base : UInt8) : List UInt8 :=
  let save := buf.length
  let (buf, vSize) := appendUIntLoop (buf ++ [0]) v 0
  buf.set save (base + vSize.toUInt8)

/-- `Builder::addUInt`. -/
def addUInt (buf : List UInt8) (v : UInt64) : List UInt8 :=
  if v.toNat ≤ 9 then appendByte buf (0x30 + v.toNat).toUInt8
  else appendUInt buf v.toNat 0x27

theorem appendUIntLoop_append (pre buf : List UInt8) (v vSize : Nat) :
    appendUIntLoop (pre ++ buf) v vSize =
      (pre ++ (appendUIntLoop buf v vSize).1, (appendUIntLoop buf v vSize).2) := by
  induction buf, v, vSize using appendUIntLoop.induct with
  | case1 buf v vSize buf' hne ih =>
    rw [appendUIntLoop.eq_1 (pre ++ buf), if_pos hne, appendUIntLoop.eq_1 buf, if_pos hne]
    simp only [buf', appendByteUnchecked, List.append_assoc] at ih ⊢
    exact ih
  | case2 buf v vSize hz =>
    rw [appendUIntLoop.eq_1 (pre ++ buf), if_neg hz, appendUIntLoop.eq_1 buf, if_neg hz]
    simp [appendByteUnchecked]

theorem addUInt_append (pre buf : List UInt8) (v : UInt64) :
    addUInt (pre ++ buf) v = pre ++ addUInt buf v := by
  unfold addUInt appendUInt
  split
  · simp [appendByte, appendByteUnchecked]
  · simp only [List.append_assoc, appendUIntLoop_append, List.length_append]
    rw [List.set_append_right _ _ (by omega)]
    simp

/-- The loop appends at least one byte; the bytes hold `v`, and the last is non-zero unless
`v = 0`. -/
theorem appendUIntLoop_spec (buf : List UInt8) (v vSize : Nat) :
    ∃ bytes, appendUIntLoop buf v vSize = (buf ++ bytes, vSize + bytes.length) ∧
      bytes ≠ [] ∧ leValue bytes = v ∧ (v ≠ 0 → 2 ^ (8 * (bytes.length - 1)) ≤ v) := by
  induction buf, v, vSize using appendUIntLoop.induct with
  | case1 buf v vSize buf' hne ih =>
    obtain ⟨bytes, hrun, hne', hval, hmin⟩ := ih
    have hdiv : v >>> 8 = v / 256 := Nat.shiftRight_eq_div_pow v 8
    refine ⟨(v &&& 0xff).toUInt8 :: bytes, ?_, List.cons_ne_nil _ _, ?_, fun _ => ?_⟩
    · rw [appendUIntLoop, if_pos hne, hrun]
      simp only [buf', appendByteUnchecked, List.append_assoc, List.singleton_append,
        List.length_cons]
      ac_rfl
    · rw [leValue_cons, hval, lowByte_toNat, hdiv]
      omega
    · -- one more byte than the shifted value needs
      have h := hmin hne
      have hpos : 0 < bytes.length := List.length_pos.mpr hne'
      rw [List.length_cons, Nat.add_sub_cancel,
        show 8 * bytes.length = 8 * (bytes.length - 1) + 8 by omega, Nat.pow_add]
      omega
  | case2 buf v vSize hz =>
    have hv : v < 256 := by
      rw [Nat.shiftRight_eq_div_pow] at hz
      omega
    refine ⟨[(v &&& 0xff).toUInt8], ?_, List.cons_ne_nil _ _, ?_, fun h => ?_⟩
    · rw [appendUIntLoop, if_neg hz]
      rfl
    · rw [leValue_cons, leValue_nil, lowByte_toNat]
      omega
    · simp
      omega

/-- **`addUInt`.** Small values are one byte `0x30 + v`; every other `uint64_t` is the head
`0x27 + k`, `k ∈ 1..8`, and `k` little-endian bytes holding `v` whose last byte is non-zero:
`k` is the least byte count that holds `v`. -/
theorem addUInt_spec (buf : List UInt8) (v : UInt64) :
    (v.toNat ≤ 9 → ∃ b, addUInt buf v = buf ++ [b] ∧ b.toNat = 0x30 + v.toNat) ∧
    (9 < v.toNat → ∃ k head body, addUInt buf v = buf ++ head :: body ∧
      head.toNat = 0x27 + k ∧ 1 ≤ k ∧ k ≤ 8 ∧ body.length = k ∧ leValue body = v.toNat ∧
      body.getLast? ≠ some 0 ∧ v.toNat < 2 ^ (8 * k) ∧ 2 ^ (8 * (k - 1)) ≤ v.toNat ∧
      0x28 ≤ head.toNat ∧ head.toNat ≤ 0x2f) := by
  have hv64 := v.toNat_lt_size
  simp only [UInt64.size] at hv64
  refine ⟨fun h => ⟨(0x30 + v.toNat).toUInt8, by simp [addUInt, h, appendByte,
    appendByteUnchecked], ?_⟩, fun h => ?_⟩
  · simp
    omega
  · obtain ⟨bytes, hrun, hne, hval, hmin⟩ := appendUIntLoop_spec (buf ++ [0]) v.toNat 0
    have hmin := hmin (by omega)
    have hlt := leValue_lt bytes
    rw [hval] at hlt
    have hlen : 1 ≤ bytes.length := List.length_pos.mpr hne
    have hk : bytes.length ≤ 8 := by
      by_contra hk
      have : 2 ^ 64 ≤ 2 ^ (8 * (bytes.length - 1)) := Nat.pow_le_pow_right (by norm_num) (by omega)
      omega
    have hhead : ((0x27 : UInt8) + bytes.length.toUInt8).toNat = 0x27 + bytes.length := by
      rw [toNat_add_toUInt8]
      simp
      omega
    refine ⟨bytes.length, _, bytes, ?_, hhead, hlen, hk, rfl, hval,
      getLast?_ne_zero bytes (hval ▸ hmin), hlt, hmin, by omega, by omega⟩
    simp only [addUInt, if_neg (show ¬v.toNat ≤ 9 by omega), appendUInt, hrun, Nat.zero_add]
    rw [List.append_assoc, List.set_append_right _ _ le_rfl]
    simp

/-! ## Signed -/

/-- The `do { xSize++; x >>= 8; } while (x >= 0x80)` loop of `Builder::intLength`; returns
`xSize + 1` for the final `xSize`. -/
def intLengthLoop (x xSize : Nat) : Nat :=
  if x >>> 8 ≥ 0x80 then intLengthLoop (x >>> 8) (xSize + 1) else xSize + 1
termination_by x
decreasing_by
  simp only [Nat.shiftRight_eq_div_pow] at *
  omega

/-- The `x` of `Builder::intLength`: `value`, or `-(value + 1)` for negative `value`, computed
in `int64_t` and cast to `uint64_t`. -/
def intLengthMagnitude (value : Int) : Option Nat :=
  if value ≥ 0 then pure (toUInt64 value)
  else do
    let succ ← int64? (value + 1)
    let neg ← int64? (-succ)
    pure (toUInt64 neg)

/-- `Builder::intLength`: the number of bytes `value` needs in two's complement. -/
def intLength (value : Int) : Option Nat :=
  if value ≥ -0x80 ∧ value ≤ 0x7f then some 1
  else do
    let x ← intLengthMagnitude value
    pure (intLengthLoop x 0 + 1)

/-- The value whose low `vSize` bytes `Builder::appendInt` stores: `toUInt64(v)` when
`vSize == 8`, else `v` or, for negative `v`, `static_cast<uint64_t>(v + shift) + shift` with
`shift = 1LL << (vSize * 8 - 1)`. -/
def appendIntValue (v : Int) (vSize : Nat) : Option Nat :=
  if vSize = 8 then some (toUInt64 v)
  else do
    let shift ← int64? (2 ^ (vSize * 8 - 1))
    if v ≥ 0 then pure (toUInt64 v)
    else do
      let s ← int64? (v + shift)
      pure ((toUInt64 s + toUInt64 shift) % 2 ^ 64)

/-- `Builder::appendInt(v, base)`: the head `base + vSize`, then the `vSize` low bytes of
`appendIntValue` (its `while (vSize-- > 0)` loop is the loop of `appendLengthUnchecked`). -/
def appendInt (buf : List UInt8) (v : Int) (base : UInt8) : Option (List UInt8) := do
  let vSize ← intLength v
  let x ← appendIntValue v vSize
  pure (appendLengthUnchecked vSize (appendByteUnchecked buf (base + vSize.toUInt8)) x)

/-- `Builder::addInt`. -/
def addInt (buf : List UInt8) (v : SInt 64) : Option (List UInt8) :=
  if v.val ≥ 0 ∧ v.val ≤ 9 then some (appendByte buf (toUInt8 (0x30 + v.val)))
  else if v.val < 0 ∧ v.val ≥ -6 then some (appendByte buf (toUInt8 (0x40 + v.val)))
  else appendInt buf v.val 0x1f

/-- The signed range of `k` bytes, `[-2^(8k-1), 2^(8k-1))`, holds `v`. -/
def fitsSigned (k : Nat) (v : Int) : Prop := -2 ^ (8 * k - 1) ≤ v ∧ v < 2 ^ (8 * k - 1)

theorem toUInt64_of_lt {z : Int} (h0 : 0 ≤ z) (h1 : z < 2 ^ 64) : (toUInt64 z : Int) = z := by
  rw [toUInt64, Int.emod_eq_of_lt h0 h1, Int.toNat_of_nonneg h0]

/-- The loop runs `m ≥ 1` times, the least `m` with `x < 2^(8m+7)`. -/
theorem intLengthLoop_spec (x xSize : Nat) : ∃ m, 1 ≤ m ∧ intLengthLoop x xSize = xSize + m ∧
    x < 2 ^ (8 * m + 7) ∧ (m = 1 ∨ 2 ^ (8 * m - 1) ≤ x) := by
  induction x, xSize using intLengthLoop.induct with
  | case1 x xSize hge ih =>
    obtain ⟨m, hm, hrun, hlt, hmin⟩ := ih
    have hdiv : x >>> 8 = x / 256 := Nat.shiftRight_eq_div_pow x 8
    rw [hdiv] at hlt hmin
    have hpow : 2 ^ (8 * (m + 1) + 7) = 2 ^ (8 * m + 7) * 256 := by
      rw [show 8 * (m + 1) + 7 = (8 * m + 7) + 8 by ring, Nat.pow_add]
    have hpow' : 2 ^ (8 * (m + 1) - 1) = 2 ^ (8 * m - 1) * 256 := by
      rw [show 8 * (m + 1) - 1 = (8 * m - 1) + 8 by omega, Nat.pow_add]
    refine ⟨m + 1, by omega, by rw [intLengthLoop, if_pos hge, hrun]; omega, by omega, Or.inr ?_⟩
    rcases hmin with rfl | hmin
    · rw [hdiv] at hge
      norm_num at hge ⊢
      omega
    · omega
  | case2 x xSize hlt =>
    refine ⟨1, le_rfl, by rw [intLengthLoop, if_neg hlt], ?_, Or.inl rfl⟩
    rw [Nat.shiftRight_eq_div_pow] at hlt
    norm_num at hlt ⊢
    omega

theorem intLengthMagnitude_spec (v : SInt 64) : ∃ x, intLengthMagnitude v.val = some x ∧
    (x : Int) = if 0 ≤ v.val then v.val else -(v.val + 1) := by
  have hge := v.ge
  have hlt := v.lt
  norm_num at hge hlt
  by_cases h : 0 ≤ v.val
  · exact ⟨toUInt64 v.val, by rw [intLengthMagnitude, if_pos h]; rfl, by
      rw [if_pos h, toUInt64_of_lt h (by omega)]⟩
  · refine ⟨toUInt64 (-(v.val + 1)), ?_, by rw [if_neg h, toUInt64_of_lt (by omega) (by omega)]⟩
    simp only [intLengthMagnitude, ge_iff_le, if_neg h, Option.bind_eq_bind,
      int64?_of_range (z := v.val + 1) (by omega) (by omega), Option.some_bind,
      int64?_of_range (z := -(v.val + 1)) (by omega) (by omega)]
    rfl

/-- Seen through the loop's magnitude, the signed range of `j` bytes is an upper bound. -/
theorem fitsSigned_iff {v : Int} {x : Nat} (hx : (x : Int) = if 0 ≤ v then v else -(v + 1))
    (j : Nat) : fitsSigned j v ↔ x < 2 ^ (8 * j - 1) := by
  have hP : (0 : Int) < 2 ^ (8 * j - 1) := by positivity
  rw [← Nat.cast_lt (α := Int)]
  push_cast
  unfold fitsSigned
  split_ifs at hx <;> omega

/-- **`intLength`.** No signed overflow, and `intLength v` is the least byte count, `1..8`,
whose signed range holds `v`. -/
theorem intLength_spec (v : SInt 64) : ∃ k, intLength v.val = some k ∧ 1 ≤ k ∧ k ≤ 8 ∧
    fitsSigned k v.val ∧ ∀ j, 1 ≤ j → j < k → ¬ fitsSigned j v.val := by
  by_cases hs : v.val ≥ -0x80 ∧ v.val ≤ 0x7f
  · refine ⟨1, by simp [intLength, hs], le_rfl, by norm_num, ?_, fun j hj hjk => by omega⟩
    unfold fitsSigned
    norm_num
    omega
  · obtain ⟨x, hx, hxv⟩ := intLengthMagnitude_spec v
    obtain ⟨m, hm, hrun, hlt, hmin⟩ := intLengthLoop_spec x 0
    have hfits := fitsSigned_iff hxv
    -- the shortcut failed, so `x` does not fit in one byte
    have hx7 : 2 ^ 7 ≤ x := by
      have : ¬ fitsSigned 1 v.val := fun h => hs (by unfold fitsSigned at h; norm_num at h; omega)
      rw [hfits] at this
      omega
    have hx63 : x < 2 ^ 63 := by
      have := v.lt
      have := v.ge
      norm_num at *
      split_ifs at hxv <;> omega
    -- every `j ≤ m` is too small
    have hsmall : ∀ j, 1 ≤ j → j ≤ m → 2 ^ (8 * j - 1) ≤ x := by
      intro j hj hjm
      rcases hmin with rfl | hmin
      · obtain rfl : j = 1 := by omega
        exact hx7
      · exact (Nat.pow_le_pow_right (by norm_num) (by omega)).trans hmin
    have hm8 : m ≤ 7 := by
      by_contra hm8
      have := hsmall 8 (by norm_num) (by omega)
      norm_num at this
      omega
    refine ⟨m + 1, by simp [intLength, hs, hx, hrun], by omega, by omega, ?_, ?_⟩
    · rw [hfits, show 8 * (m + 1) - 1 = 8 * m + 7 by omega]
      exact hlt
    · intro j hj hjk
      rw [hfits]
      exact Nat.not_lt.mpr (hsmall j hj (by omega))

/-- The value `appendInt` stores agrees with `v` modulo `2^(8k)`, and computing it does not
overflow. -/
theorem appendIntValue_spec (v : SInt 64) {k : Nat} (hk1 : 1 ≤ k) (hk8 : k ≤ 8)
    (hfit : fitsSigned k v.val) :
    ∃ x, appendIntValue v.val k = some x ∧ (x : Int) % 2 ^ (8 * k) = v.val % 2 ^ (8 * k) := by
  have hge := v.ge
  have hlt := v.lt
  norm_num at hge hlt
  unfold fitsSigned at hfit
  by_cases h8 : k = 8
  · subst h8
    refine ⟨_, if_pos rfl, ?_⟩
    have h0 : (0 : Int) ≤ v.val % 2 ^ 64 := Int.emod_nonneg _ (by norm_num)
    rw [toUInt64, Int.toNat_of_nonneg h0, Int.emod_emod_of_dvd _ (by norm_num)]
  · have hshift : (2 : Int) ^ (k * 8 - 1) ≤ 2 ^ 55 := pow_le_pow_right₀ (by norm_num) (by omega)
    have hsh : int64? (2 ^ (k * 8 - 1)) = some (2 ^ (k * 8 - 1)) :=
      int64?_of_range (by have : (0 : Int) < 2 ^ (k * 8 - 1) := by positivity
                          omega) (by omega)
    have hkk : (2 : Int) ^ (8 * k) = 2 * 2 ^ (k * 8 - 1) := by
      rw [← pow_succ', show k * 8 - 1 + 1 = 8 * k by omega]
    have hpos : (0 : Int) < 2 ^ (k * 8 - 1) := by positivity
    rw [show 8 * k - 1 = k * 8 - 1 by omega] at hfit
    by_cases hv : v.val ≥ 0
    · refine ⟨toUInt64 v.val, by simp [appendIntValue, h8, hsh, hv], ?_⟩
      rw [toUInt64_of_lt hv (by omega)]
    · -- a negative value is stored as `v + 2^(8k)`
      refine ⟨(toUInt64 (v.val + 2 ^ (k * 8 - 1)) + toUInt64 (2 ^ (k * 8 - 1))) % 2 ^ 64, ?_, ?_⟩
      · simp only [appendIntValue, h8, if_false, Option.bind_eq_bind, hsh, Option.some_bind,
          ge_iff_le, if_neg hv, int64?_of_range (z := v.val + 2 ^ (k * 8 - 1)) (by omega) (by omega)]
        rfl
      · have hx : (((toUInt64 (v.val + 2 ^ (k * 8 - 1)) + toUInt64 (2 ^ (k * 8 - 1))) % 2 ^ 64 :
            Nat) : Int) = v.val + 2 ^ (8 * k) := by
          push_cast
          rw [toUInt64_of_lt (by omega) (by omega), toUInt64_of_lt (by omega) (by omega), hkk,
            Int.emod_eq_of_lt (a := v.val + 2 ^ (k * 8 - 1) + 2 ^ (k * 8 - 1)) (by omega) (by omega)]
          ring
        rw [hx, Int.add_emod_self]

/-- `appendInt` writes the head `base + k` and `k` bytes that read back as `v`, where
`k = intLength v`; no signed arithmetic overflows. -/
theorem appendInt_spec (buf : List UInt8) (v : SInt 64) (base : UInt8) :
    ∃ k body, intLength v.val = some k ∧ 1 ≤ k ∧ k ≤ 8 ∧ fitsSigned k v.val ∧
      (∀ j, 1 ≤ j → j < k → ¬ fitsSigned j v.val) ∧
      appendInt buf v.val base = some (buf ++ (base + k.toUInt8) :: body) ∧
      body.length = k ∧ leSigned body = v.val := by
  obtain ⟨k, hk, hk1, hk8, hfit, hleast⟩ := intLength_spec v
  obtain ⟨x, hx, hxv⟩ := appendIntValue_spec v hk1 hk8 hfit
  obtain ⟨body, hrun, hlen, hval⟩ :=
    appendLengthUnchecked_spec k (appendByteUnchecked buf (base + k.toUInt8)) x
  refine ⟨k, body, hk, hk1, hk8, hfit, hleast, ?_, hlen, ?_⟩
  · simp only [appendInt, hk, hx, Option.bind_eq_bind, Option.some_bind]
    rw [hrun]
    simp [appendByteUnchecked]
  · unfold fitsSigned at hfit
    apply leSigned_of_emod body v.val (by omega) (by rw [hlen]; exact hfit.1)
      (by rw [hlen]; exact hfit.2)
    rw [hval, hlen, ← hxv]
    push_cast
    rfl

theorem addInt_append (pre buf : List UInt8) (v : SInt 64) :
    addInt (pre ++ buf) v = (addInt buf v).map (pre ++ ·) := by
  unfold addInt appendInt
  split
  · simp [appendByte, appendByteUnchecked]
  split
  · simp [appendByte, appendByteUnchecked]
  rcases intLength v.val with _ | k
  · rfl
  · simp only [Option.bind_eq_bind, Option.some_bind]
    rcases appendIntValue v.val k with _ | x
    · rfl
    · simp [appendByteUnchecked, ← appendLengthUnchecked_append]

/-- `addInt` never runs into signed overflow. -/
theorem addInt_isSome (buf : List UInt8) (v : SInt 64) : (addInt buf v).isSome := by
  unfold addInt
  split
  · rfl
  split
  · rfl
  obtain ⟨k, body, -, -, -, -, -, hrun, -⟩ := appendInt_spec buf v 0x1f
  rw [hrun]
  rfl

/-- **`addInt`.** Every `int64_t` is written as exactly one value: `0x30 + v` for `0..9`,
`0x40 + v` for `-6..-1`, and otherwise the head `0x1f + k` and `k` two's-complement bytes, `k`
the least byte count whose range holds `v`. The result is `some`: no signed overflow occurs
in `intLength` or `appendInt`. -/
theorem addInt_spec (buf : List UInt8) (v : SInt 64) :
    (0 ≤ v.val ∧ v.val ≤ 9 →
      ∃ b, addInt buf v = some (buf ++ [b]) ∧ (b.toNat : Int) = 0x30 + v.val) ∧
    (-6 ≤ v.val ∧ v.val ≤ -1 →
      ∃ b, addInt buf v = some (buf ++ [b]) ∧ (b.toNat : Int) = 0x40 + v.val) ∧
    (v.val < -6 ∨ 9 < v.val → ∃ k head body, intLength v.val = some k ∧
      addInt buf v = some (buf ++ head :: body) ∧ head.toNat = 0x1f + k ∧ 1 ≤ k ∧ k ≤ 8 ∧
      body.length = k ∧ leSigned body = v.val ∧ fitsSigned k v.val ∧
      ∀ j, 1 ≤ j → j < k → ¬ fitsSigned j v.val) := by
  refine ⟨fun h => ⟨toUInt8 (0x30 + v.val), by simp [addInt, h, appendByte,
      appendByteUnchecked], ?_⟩,
    fun h => ⟨toUInt8 (0x40 + v.val), by simp [addInt, show ¬ (0 ≤ v.val ∧ v.val ≤ 9) by omega,
      appendByte, appendByteUnchecked, show v.val < 0 ∧ -6 ≤ v.val by omega], ?_⟩, fun h => ?_⟩
  · rw [toUInt8_toNat, Int.emod_eq_of_lt (by omega) (by omega)]
  · rw [toUInt8_toNat, Int.emod_eq_of_lt (by omega) (by omega)]
  · obtain ⟨k, body, hk, hk1, hk8, hfit, hleast, hrun, hlen, hval⟩ := appendInt_spec buf v 0x1f
    refine ⟨k, 0x1f + k.toUInt8, body, hk, ?_, ?_, hk1, hk8, hlen, hval, hfit, hleast⟩
    · rw [addInt, if_neg (by omega), if_neg (by omega), hrun]
    · rw [toNat_add_toUInt8]
      simp
      omega

end VelocyPack
