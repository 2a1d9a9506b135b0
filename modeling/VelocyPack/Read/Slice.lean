import VelocyPack.Read.Tree

/-!
# The read side of a Slice: byte size and key lookup

`Slice.h` is not among the repository's files. §4.6 says what the builder's output must give a
`Slice`: a `byteSize()` equal to the builder's `size()`, and a `get(k)` that finds the value
added under `k`. A `Slice` finds both without reading a value whole: the byte size comes off the
head, or off a compound's byte-length field; a member is found by reading its key and stepping
over its value by that value's byte size. This module models the two operations from the spec
and holds them to the reader of `Read/Tree`.

* `Head.bodySize`, `byteSize` — the bytes a value takes, read off its head alone; a compound's
  come from its layout's header (`SizedCodec`, given for the compact layout);
* `byteSize_of_readNode` — on every input the reader accepts, the byte size is exactly the
  bytes the reader takes;
* `findMember`, `get` — `Slice::get` on an Object, and `get_of_readNode`: it finds the value the
  reader sees under the key, or nothing where no member has it;
* `slice_byteSize`, `slice_get` — from a fresh builder, the sealed slice's byte size is
  `size()`, and `get` finds each member of a built Object by its key.
-/

namespace VelocyPack

/-! ## Byte sizes -/

/-- Modelled from the spec (§3): the bytes a scalar of class `hd` takes after its head, read off
the head alone, or, for a long string, off its eight-byte length. -/
def Head.bodySize : Head → List UInt8 → Option Nat
  | .null, _ | .false, _ | .true, _ | .small _, _ => some 0
  | .double, _ | .utcDate, _ | .external, _ => some 8
  | .int k, _ | .uint k, _ | .short k, _ => some k
  | .long, rest => (field 8 rest).map fun p => 8 + leValue p.1
  | .other, _ => none

theorem field_some {n : Nat} {bytes f r : List UInt8} (h : field n bytes = some (f, r)) :
    bytes = f ++ r ∧ f.length = n := by
  unfold field at h
  split at h
  · cases h
    exact ⟨(List.take_append_drop n bytes).symm, List.length_take_of_le ‹_›⟩
  · cases h

/-- What the reading of a scalar takes after its head is exactly what the head says. -/
theorem bodySize_of_readBody {hd : Head} {bytes r : List UInt8} {v : Value}
    (h : readBody hd bytes = some (v, r)) :
    ∃ pre, bytes = pre ++ r ∧ hd.bodySize bytes = some pre.length := by
  cases hd with
  | null | false | true => cases h; exact ⟨[], rfl, rfl⟩
  | other => cases h
  | small _ =>
    obtain ⟨z, -, he⟩ := Option.map_eq_some'.mp h
    cases he
    exact ⟨[], rfl, rfl⟩
  | double | external | uint _ | short _ =>
    obtain ⟨⟨f, r'⟩, hf, he⟩ := Option.map_eq_some'.mp h
    cases he
    obtain ⟨rfl, hl⟩ := field_some hf
    exact ⟨f, rfl, by rw [hl]; rfl⟩
  | utcDate | int _ =>
    obtain ⟨⟨f, r'⟩, hf, he⟩ := Option.bind_eq_some.mp h
    obtain ⟨z, -, he⟩ := Option.map_eq_some'.mp he
    cases he
    obtain ⟨rfl, hl⟩ := field_some hf
    exact ⟨f, rfl, by rw [hl]; rfl⟩
  | long =>
    obtain ⟨⟨f, r'⟩, hf, he⟩ := Option.bind_eq_some.mp h
    obtain ⟨⟨g, r''⟩, hg, he⟩ := Option.map_eq_some'.mp he
    cases he
    obtain ⟨rfl, hfl⟩ := field_some hf
    obtain ⟨rfl, hgl⟩ := field_some hg
    refine ⟨f ++ g, (List.append_assoc f g _).symm, ?_⟩
    rw [Head.bodySize, field_append _ hfl, Option.map_some', List.length_append, hfl, hgl]

/-- A layout whose compounds carry their byte length in their header, as §3's byte-length
field: `compoundSize` reads it off, and on every compound the reading takes apart it is exactly
the bytes taken. -/
structure SizedCodec extends Codec where
  compoundSize : List UInt8 → Option Nat
  compoundSize_of_read : ∀ {bytes : List UInt8} {isObject : Bool} {n : Nat} {body rest : List UInt8},
    readCompound bytes = some (isObject, n, body, rest) →
      ∃ pre, bytes = pre ++ rest ∧ compoundSize bytes = some pre.length

/-- Modelled from the spec (§3, §4.6): `Slice::byteSize`, the bytes the value at the front of
`bytes` takes, read off its head: a compound's off its header, a scalar's off the head table. -/
def byteSize (c : SizedCodec) : List UInt8 → Option Nat
  | [] => none
  | b :: bs =>
    if b.toNat < 0x18 then c.compoundSize (b :: bs)
    else ((Head.ofNat b.toNat).bodySize bs).map (· + 1)

/-- **The byte size is what the reader takes.** On every input the reader accepts, the byte size
read off the head is exactly the number of bytes the reading took. -/
theorem byteSize_of_readNode (c : SizedCodec) :
    ∀ {fuel : Nat} {bytes rest : List UInt8} {x : Node},
      readNode c.toCodec fuel bytes = some (x, rest) →
        ∃ pre, bytes = pre ++ rest ∧ byteSize c bytes = some pre.length
  | 0, _, _, _, h => by cases h
  | _ + 1, [], _, _, h => by cases h
  | fuel + 1, b :: bs, rest, x, h => by
    by_cases hb : b.toNat < 0x18
    · -- a compound: the codec's header says where it ends
      rw [readNode_compound _ hb] at h
      obtain ⟨⟨isObject, n, body, rest'⟩, hc, h⟩ := Option.bind_eq_some.mp h
      dsimp only at h
      have hrest : rest' = rest := by
        split at h <;> obtain ⟨_, -, he⟩ := Option.map_eq_some'.mp h <;> exact (Prod.mk.inj he).2
      subst hrest
      rw [byteSize, if_pos hb]
      exact c.compoundSize_of_read hc
    · -- a scalar: its head says how long it is
      rw [readNode_scalar_head _ hb] at h
      obtain ⟨⟨v, r⟩, hs, he⟩ := Option.map_eq_some'.mp h
      cases he
      obtain ⟨pre, rfl, hsize⟩ := @bodySize_of_readBody (Head.ofNat b.toNat) bs r v hs
      exact ⟨b :: pre, rfl, by rw [byteSize, if_neg hb, hsize]; rfl⟩

/-! ## The compact layout's byte length -/

/-- Modelled from the spec (§4.2 steps 2 and 3): the byte length of a compact compound, off its
header: one byte for an empty singleton, else the varint after the head. -/
def compactSize : List UInt8 → Option Nat
  | [] => none
  | h :: rest =>
    if h = 0x01 ∨ h = 0x0a then some 1
    else if h = 0x13 ∨ h = 0x14 then (readVarint rest).map (·.1)
    else none

theorem readVarint_suffix : ∀ {bytes r : List UInt8} {v : Nat},
    readVarint bytes = some (v, r) → ∃ pre, bytes = pre ++ r
  | [], _, _, h => by cases h
  | b :: rest, r, v, h => by
    unfold readVarint at h
    split at h
    · cases h
      exact ⟨[b], rfl⟩
    · obtain ⟨⟨v', r'⟩, hr, he⟩ := Option.map_eq_some'.mp h
      cases he
      obtain ⟨pre, rfl⟩ := readVarint_suffix hr
      exact ⟨b :: pre, rfl⟩

/-- The byte length in a compact compound's header is the bytes its reading takes. -/
theorem compactSize_of_unseal {bytes : List UInt8} {isObject : Bool} {n : Nat}
    {body rest : List UInt8} (h : unsealCompact bytes = some (isObject, n, body, rest)) :
    ∃ pre, bytes = pre ++ rest ∧ compactSize bytes = some pre.length := by
  rcases bytes with _ | ⟨hd, bs⟩
  · cases h
  rw [unsealCompact] at h
  by_cases h1 : hd = 0x01
  · rw [if_pos h1] at h
    cases h
    exact ⟨[hd], rfl, by simp [compactSize, h1]⟩
  by_cases h2 : hd = 0x0a
  · rw [if_neg h1, if_pos h2] at h
    cases h
    exact ⟨[hd], rfl, by simp [compactSize, h2]⟩
  rw [if_neg h1, if_neg h2] at h
  by_cases h3 : hd = 0x13 ∨ hd = 0x14
  · rw [if_pos h3] at h
    obtain ⟨⟨size, r⟩, hv, h⟩ := Option.bind_eq_some.mp h
    obtain ⟨⟨inner, after⟩, hf, h⟩ := Option.bind_eq_some.mp h
    obtain ⟨⟨m, items⟩, hm, he⟩ := Option.map_eq_some'.mp h
    cases he
    obtain ⟨pv, rfl⟩ := readVarint_suffix hv
    obtain ⟨rfl, hl⟩ := field_some hf
    -- the count sits inside the length, so the length covers the head, itself and the count
    have hin : 0 < inner.length := by
      rcases inner with _ | ⟨_, _⟩
      · cases hm
      · exact Nat.succ_pos _
    simp only [List.length_append, Nat.add_sub_cancel_right] at hl
    refine ⟨hd :: (pv ++ inner), by simp, ?_⟩
    rw [compactSize, if_neg (not_or.mpr ⟨h1, h2⟩), if_pos h3, hv, Option.map_some',
      List.length_cons, List.length_append]
    congr 1
    omega
  · rw [if_neg h3] at h
    cases h

/-- The compact layout of §4.2, with its reading and its byte length. -/
def SizedCodec.compact : SizedCodec where
  toCodec := Codec.compact
  compoundSize := compactSize
  compoundSize_of_read := compactSize_of_unseal

/-! ## Looking a key up -/

/-- Modelled from the spec (§4.6): the bytes of the value of the first of `n` members at the
front of `body` whose key reads as `key`. Each key is read; each value is stepped over by its
byte size, never read. -/
def findMember (c : SizedCodec) (key : Value) : Nat → List UInt8 → Option (List UInt8)
  | 0, _ => none
  | n + 1, body =>
    (readScalar body).bind fun ⟨k, after⟩ =>
      (byteSize c after).bind fun size =>
        if k = key then some (after.take size) else findMember c key n (after.drop size)

/-- Modelled from the spec (§4.6): `Slice::get`, the bytes of the value under `key` in the
Object at the front of `bytes`; `none` where no member has that key or no Object is there. -/
def get (c : SizedCodec) (key : Value) : List UInt8 → Option (List UInt8)
  | [] => none
  | b :: bs =>
    if b.toNat < 0x18 then
      (c.readCompound (b :: bs)).bind fun ⟨isObject, n, body, _⟩ =>
        if isObject then findMember c key n body else none
    else none

/-- `bytes` are where a reader sees `x`: read in place, whatever follows them, they give `x` and
the reading takes all of them. -/
def Spans (c : Codec) (fuel : Nat) (bytes : List UInt8) (x : Node) : Prop :=
  ∃ after, readNode c fuel (bytes ++ after) = some (x, after)

theorem readMember_some {read : List UInt8 → Option (Node × List UInt8)} {bytes r : List UInt8}
    {k : Value} {x : Node} (h : readMember read bytes = some ((k, x), r)) :
    ∃ after, readScalar bytes = some (k, after) ∧ read after = some (x, r) := by
  obtain ⟨⟨k', after⟩, hk, h⟩ := Option.bind_eq_some.mp h
  obtain ⟨⟨x', r'⟩, hx, he⟩ := Option.map_eq_some'.mp h
  simp only [Prod.mk.injEq] at he
  obtain ⟨⟨rfl, rfl⟩, rfl⟩ := he
  exact ⟨after, hk, hx⟩

theorem readSeq_of_readAll {α : Type} {read : List UInt8 → Option (α × List UInt8)} {n : Nat}
    {body : List UInt8} {xs : List α} (h : readAll read n body = some xs) :
    readSeq read n body = some (xs, []) := by
  unfold readAll at h
  split at h
  · next heq => cases h; exact heq
  · cases h

/-- Stepping over the members by their byte sizes finds the first one the reader sees under the
key. -/
theorem findMember_of_readSeq (c : SizedCodec) (key : Value) (fuel : Nat) :
    ∀ {n : Nat} {body r : List UInt8} {ms : List (Value × Node)},
      readSeq (readMember (readNode c.toCodec fuel)) n body = some (ms, r) →
        Option.Rel (Spans c.toCodec fuel) (findMember c key n body) (ms.lookup key)
  | 0, _, _, _, h => by
    cases h
    exact .none
  | n + 1, body, r, ms, h => by
    obtain ⟨⟨⟨k, x⟩, after'⟩, hm, h⟩ := Option.bind_eq_some.mp h
    obtain ⟨⟨ms', r'⟩, hs, he⟩ := Option.map_eq_some'.mp h
    simp only [Prod.mk.injEq] at he
    obtain ⟨rfl, -⟩ := he
    obtain ⟨after, hk, hx⟩ := readMember_some hm
    obtain ⟨pre, rfl, hsize⟩ := byteSize_of_readNode c hx
    have hstep : findMember c key (n + 1) body =
        if k = key then some pre else findMember c key n after' := by
      simp only [findMember, hk, Option.some_bind, hsize, List.take_left, List.drop_left]
    rw [hstep]
    by_cases hkey : k = key
    · subst hkey
      rw [if_pos rfl, List.lookup_cons_self]
      exact .some ⟨after', hx⟩
    · rw [if_neg hkey, List.lookup_cons, beq_eq_false_iff_ne.mpr (Ne.symm hkey)]
      exact findMember_of_readSeq c key fuel hs

/-- **`get` finds what the reader sees.** On every Object the reader accepts, `get` gives the
bytes of the value of the first member whose key reads as `key`, and these bytes read back in
place as that value; it gives nothing where no member has the key. -/
theorem get_of_readNode (c : SizedCodec) (key : Value) {fuel : Nat} {bytes rest : List UInt8}
    {ms : List (Value × Node)} (h : readNode c.toCodec (fuel + 1) bytes = some (.object ms, rest)) :
    Option.Rel (Spans c.toCodec fuel) (get c key bytes) (ms.lookup key) := by
  rcases bytes with _ | ⟨b, bs⟩
  · cases h
  by_cases hb : b.toNat < 0x18
  · rw [readNode_compound _ hb] at h
    obtain ⟨⟨isObject, n, body, rest'⟩, hc, h⟩ := Option.bind_eq_some.mp h
    dsimp only at h
    cases isObject
    · rw [if_neg Bool.false_ne_true] at h
      obtain ⟨_, -, he⟩ := Option.map_eq_some'.mp h
      cases he
    · rw [if_pos rfl] at h
      obtain ⟨ms', hall, he⟩ := Option.map_eq_some'.mp h
      cases he
      rw [get, if_pos hb, hc, Option.some_bind]
      exact findMember_of_readSeq c key fuel (readSeq_of_readAll hall)
  · rw [readNode_scalar_head _ hb] at h
    obtain ⟨_, -, he⟩ := Option.map_eq_some'.mp h
    cases he

/-! ## The builder's output -/

namespace Document

open Builder

/-- **`byteSize()` is `size()` (§4.6).** From a fresh builder, where externals are allowed, the
calls that build a value that reads back leave a sealed builder whose slice's byte size, read
off its head and header alone, is `size()`. -/
theorem slice_byteSize (c : SizedCodec) (opts : Options) (hx : opts.disallowExternals = false)
    (t : Tree) (x : Node) (hr : t.reading opts = some x) :
    ∃ s, (run opts c.layout t.ops empty).slice = some s ∧
      byteSize c s.bytes = (run opts c.layout t.ops empty).size := by
  have hread := Tree.read_encode c.toCodec opts t x hr (t.depth + 1) (Nat.lt_succ_self _) []
  rw [List.append_nil] at hread
  obtain ⟨pre, hpre, hsize⟩ := byteSize_of_readNode c hread
  rw [List.append_nil] at hpre
  have hne : t.encode opts c.layout ≠ [] := by
    intro he
    rw [he] at hread
    cases hread
  rw [Tree.builder_ops opts c.layout hx t]
  obtain ⟨hslice, hlen⟩ := sealed_slice hne
  exact ⟨_, hslice, by rw [hlen, hsize, hpre]⟩

theorem slice_byteSize_object :
    let t : Tree := .object true (.cons [0x61] (.leaf (.value (.uint 300) trivial)) .nil)
    Options.defaults.disallowExternals = false ∧
      t.reading Options.defaults = some (.object [(.string [0x61], .scalar (.uint 300))]) ∧
      ∃ s, (run Options.defaults SizedCodec.compact.layout t.ops empty).slice = some s ∧
        byteSize SizedCodec.compact s.bytes =
          (run Options.defaults SizedCodec.compact.layout t.ops empty).size := by
  intro t
  exact ⟨rfl, rfl, slice_byteSize SizedCodec.compact Options.defaults rfl t _ rfl⟩

/-- **`get` finds every key (§4.6).** From a fresh builder, where externals are allowed, the
calls that build an Object whose members read back leave a sealed builder whose slice's `get`
gives, for every key, the bytes of the value of the first member added under it, which read
back in place as that member's value; and nothing for a key no member has. Keys are compared as
a reader sees them: a name as its string, a translated name as the scalar its token holds. -/
theorem slice_get (c : SizedCodec) (opts : Options) (hx : opts.disallowExternals = false)
    (u : Bool) (ms : Members) (xs : List (Value × Node)) (hr : ms.reading opts = some xs)
    (fuel : Nat) (hf : ms.depth < fuel) (key : Value) :
    ∃ s, (run opts c.layout (Tree.object u ms).ops empty).slice = some s ∧
      Option.Rel (Spans c.toCodec fuel) (get c key s.bytes) (xs.lookup key) := by
  have hread := Tree.read_encode c.toCodec opts (.object u ms) (.object xs)
    (by rw [Tree.reading, hr]; rfl) (fuel + 1) (by rw [Tree.depth]; omega) []
  rw [List.append_nil] at hread
  have hne : (Tree.object u ms).encode opts c.layout ≠ [] := by
    intro he
    rw [he] at hread
    cases hread
  rw [Tree.builder_ops opts c.layout hx]
  exact ⟨_, (sealed_slice hne).1, get_of_readNode c key hread⟩

theorem slice_get_second :
    let ms : Members := .cons [0x61] (.leaf (.value .null trivial))
      (.cons [0x62] (.leaf (.value (.bool true) trivial)) .nil)
    let xs : List (Value × Node) :=
      [(.string [0x61], .scalar .null), (.string [0x62], .scalar (.bool true))]
    Options.defaults.disallowExternals = false ∧ ms.reading Options.defaults = some xs ∧
      ms.depth < 1 ∧
      ∃ s, (run Options.defaults SizedCodec.compact.layout (Tree.object true ms).ops empty).slice =
          some s ∧
        Option.Rel (Spans SizedCodec.compact.toCodec 1) (get SizedCodec.compact (.string [0x62]) s.bytes)
          (xs.lookup (.string [0x62])) := by
  intro ms xs
  exact ⟨rfl, rfl, by decide,
    slice_get SizedCodec.compact Options.defaults rfl true ms xs rfl 1 (by decide) (.string [0x62])⟩

end Document

end VelocyPack
