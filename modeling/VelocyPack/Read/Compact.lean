import VelocyPack.Read.Scalar
import VelocyPack.Builder.Methods

/-!
# The compact form of a closed compound, and its reading

`Builder::close` lives in `Builder.cpp`, which is not among the repository's files, so the
layout it writes is a parameter of the model (`Sealer`). This module models from the spec the
one layout §4.2 describes completely: the empty singletons of step 2 and the compact form of
step 3 (heads `0x13` and `0x14`), with little-endian unsigned base-128 varints. The byte length
sits after the head, in the reserved slot (§3: "byte-length + items + nr-items (varint at
tail)"), since a reader needs it to find the tail; the item count sits at the tail, stored last
byte first so that it is read from the end.

* `varint`, `readVarint` — the varint of a number, and reading one back (`readVarint_varint`);
* `compactByteSize` — the byte length `L`, which counts its own varint
  (`compactByteSize_fixed`);
* `sealCompact`, `unsealCompact` — the layout, and the reading that gives back the kind of
  compound, the item count and the items' bytes (`unsealCompact_sealCompact`).
-/

namespace VelocyPack

/-! ## Varints -/

/-- Modelled from the spec (§4.2, compact form): the little-endian unsigned base-128 varint of
`v`, seven bits a byte, the low group first, the top bit set on every byte but the last. -/
def varint (v : Nat) : List UInt8 :=
  if v < 0x80 then [v.toUInt8] else (v % 0x80 + 0x80).toUInt8 :: varint (v / 0x80)
termination_by v
decreasing_by omega

/-- Modelled from the spec (§4.2, compact form): the varint at the front of `bytes`, and the
bytes after it. -/
def readVarint : List UInt8 → Option (Nat × List UInt8)
  | [] => none
  | b :: rest =>
    if b.toNat < 0x80 then some (b.toNat, rest)
    else (readVarint rest).map fun p => (b.toNat - 0x80 + 0x80 * p.1, p.2)

theorem varint_small {v : Nat} (h : v < 0x80) : varint v = [v.toUInt8] := by
  rw [varint, if_pos h]

theorem varint_large {v : Nat} (h : ¬v < 0x80) :
    varint v = (v % 0x80 + 0x80).toUInt8 :: varint (v / 0x80) := by
  rw [varint, if_neg h]

theorem varint_ne_nil (v : Nat) : varint v ≠ [] := by
  by_cases h : v < 0x80
  · simp [varint_small h]
  · simp [varint_large h]

/-- A varint reads back as its value, whatever follows it. -/
theorem readVarint_varint (v : Nat) (rest : List UInt8) :
    readVarint (varint v ++ rest) = some (v, rest) := by
  induction v using Nat.strongRecOn with
  | ind v ih =>
    by_cases h : v < 0x80
    · have hb : v.toUInt8.toNat = v := by simp; omega
      simp [varint_small h, readVarint, hb, h]
    · have hb : (v % 0x80 + 0x80).toUInt8.toNat = v % 0x80 + 0x80 := by simp; omega
      rw [varint_large h, List.cons_append, readVarint, hb, if_neg (by omega),
        ih (v / 0x80) (by omega)]
      simp only [Option.map_some', Option.some.injEq, Prod.mk.injEq, and_true]
      omega

/-- A varint takes at most `k + 1` bytes exactly when the value is below `128^(k+1)`. -/
theorem varint_length_le (v k : Nat) : (varint v).length ≤ k + 1 ↔ v < 128 ^ (k + 1) := by
  induction k generalizing v with
  | zero =>
    by_cases h : v < 0x80
    · simp only [varint_small h, List.length_singleton, Nat.zero_add, pow_one]
      omega
    · have := List.length_pos.mpr (varint_ne_nil (v / 0x80))
      simp only [varint_large h, List.length_cons, Nat.zero_add, pow_one]
      omega
  | succ k ih =>
    by_cases h : v < 0x80
    · have : 128 ≤ 128 ^ (k + 1 + 1) := Nat.le_self_pow (by omega) 128
      simp only [varint_small h, List.length_singleton]
      omega
    · rw [varint_large h, List.length_cons, Nat.add_le_add_iff_right, ih,
        Nat.div_lt_iff_lt_mul (by norm_num), ← Nat.pow_succ]

theorem varint_length_mono {a b : Nat} (h : a ≤ b) : (varint a).length ≤ (varint b).length := by
  obtain ⟨k, hk⟩ : ∃ k, (varint b).length = k + 1 :=
    ⟨_, (Nat.succ_pred_eq_of_pos (List.length_pos.mpr (varint_ne_nil b))).symm⟩
  rw [hk, varint_length_le]
  exact Nat.lt_of_le_of_lt h ((varint_length_le b k).mp hk.le)

/-! ## The compact form -/

/-- Modelled from the spec (§4.2, compact form): the byte length `L` of a compact compound
whose other bytes (head, items, count) number `base`. `L` includes its own varint: the varint
of `base` bytes, one byte more when that pushes `L` past the next power of 128. -/
def compactByteSize (base : Nat) : Nat :=
  let b := (varint base).length
  if (varint (base + b)).length = b then base + b else base + b + 1

/-- The byte length counts its own varint: `L = base + |varint L|`. -/
theorem compactByteSize_fixed (base : Nat) :
    compactByteSize base = base + (varint (compactByteSize base)).length := by
  obtain ⟨k, hk⟩ : ∃ k, (varint base).length = k + 1 :=
    ⟨_, (Nat.succ_pred_eq_of_pos (List.length_pos.mpr (varint_ne_nil base))).symm⟩
  have hbase : base < 128 ^ (k + 1) := (varint_length_le base k).mp hk.le
  unfold compactByteSize
  simp only [hk]
  split
  · omega
  · -- one byte more: `base + k + 2` still fits `k + 2` groups
    rename_i hne
    have hge : k + 1 ≤ (varint (base + (k + 1))).length :=
      hk ▸ varint_length_mono (Nat.le_add_right _ _)
    have hlow := varint_length_mono (Nat.le_add_right (base + (k + 1)) 1)
    have hpow : k + 1 < 128 ^ (k + 1) := Nat.lt_pow_self (by norm_num) _
    have hhigh := (varint_length_le (base + (k + 1) + 1) (k + 1)).mpr (by
      rw [Nat.pow_succ]
      omega)
    omega

/-- Whether a head opens an Array (`0x06`, `0x13`) rather than an Object. -/
def isArrayHead (h : UInt8) : Bool := h == 0x06 || h == 0x13

/-- Modelled from the spec (§4.2 steps 2 and 3): the compact layout. A compound with no children
is the singleton `0x01` (Array) or `0x0a` (Object); otherwise the head `0x13` or `0x14`, the
varint of the byte length, the items, and the varint of the item count stored last byte
first. -/
def sealCompact : Builder.Sealer := fun h cs =>
  if cs = [] then [if isArrayHead h then 0x01 else 0x0a]
  else
    let count := varint cs.length
    let size := compactByteSize (1 + cs.flatten.length + count.length)
    (if isArrayHead h then 0x13 else 0x14) :: varint size ++ cs.flatten ++ count.reverse

/-- Modelled from the spec (§4.2 steps 2 and 3): the compound at the front of `bytes` in the
compact layout: whether it is an Object, its item count, its items' bytes, and the bytes after
it. -/
def unsealCompact : List UInt8 → Option (Bool × Nat × List UInt8 × List UInt8)
  | [] => none
  | h :: rest =>
    if h = 0x01 then some (false, 0, [], rest)
    else if h = 0x0a then some (true, 0, [], rest)
    else if h = 0x13 ∨ h = 0x14 then
      (readVarint rest).bind fun ⟨size, r⟩ =>
        (field (size - 1 - (rest.length - r.length)) r).bind fun ⟨inner, after⟩ =>
          (readVarint inner.reverse).map fun ⟨n, items⟩ => (h = 0x14, n, items.reverse, after)
    else none

/-- The compact layout starts with a head below `0x18`, where §3 puts the compounds. -/
theorem sealCompact_head (h : UInt8) (cs : List (List UInt8)) :
    ∃ b bs, sealCompact h cs = b :: bs ∧ b.toNat < 0x18 := by
  unfold sealCompact
  split
  · exact ⟨_, [], rfl, by split <;> decide⟩
  · exact ⟨_, _, rfl, by split <;> decide⟩

/-- A nonempty compact compound reads back from its byte length, items and count. -/
theorem unsealCompact_form {h : UInt8} (hh : h = 0x13 ∨ h = 0x14) {size n : Nat}
    {items : List UInt8} (hsize : size = 1 + items.length + (varint n).length + (varint size).length)
    (rest : List UInt8) :
    unsealCompact ((h :: (varint size ++ items ++ (varint n).reverse)) ++ rest) =
      some (decide (h = 0x14), n, items, rest) := by
  have h1 : h ≠ 0x01 := by rcases hh with rfl | rfl <;> decide
  have h2 : h ≠ 0x0a := by rcases hh with rfl | rfl <;> decide
  have htake : size - 1 - ((varint size ++ (items ++ ((varint n).reverse ++ rest))).length -
      (items ++ ((varint n).reverse ++ rest)).length) = (items ++ (varint n).reverse).length := by
    simp only [List.length_append, List.length_reverse]
    omega
  have hcount : (items ++ (varint n).reverse).reverse = varint n ++ items.reverse := by simp
  simp only [List.cons_append, List.append_assoc, unsealCompact, if_neg h1, if_neg h2, if_pos hh,
    readVarint_varint, Option.bind_eq_bind, Option.some_bind]
  rw [htake, ← List.append_assoc, field_append rest rfl, Option.some_bind, hcount,
    readVarint_varint, Option.map_some', List.reverse_reverse]

/-- The compact layout reads back: the kind of compound its head was opened with, the number of
children, and their bytes in order; the reading takes exactly the layout's bytes. -/
theorem unsealCompact_sealCompact (h : UInt8) (cs : List (List UInt8)) (rest : List UInt8) :
    unsealCompact (sealCompact h cs ++ rest) =
      some (!isArrayHead h, cs.length, cs.flatten, rest) := by
  unfold sealCompact
  split
  · -- case: the empty singleton
    subst cs
    cases isArrayHead h <;> rfl
  · -- case: head, byte length, items, count
    have hsize := compactByteSize_fixed (1 + cs.flatten.length + (varint cs.length).length)
    cases isArrayHead h
    · exact unsealCompact_form (Or.inr rfl) hsize rest
    · exact unsealCompact_form (Or.inl rfl) hsize rest

end VelocyPack
