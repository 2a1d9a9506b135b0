import VelocyPack.Read.Compact
import VelocyPack.Builder.Build

/-!
# Reading a built value back

What §4.6 and §8.1 ask of the builder's output: once no frame is open, `slice()` is a value that
reads back as the value tree that was built, and `size()` counts exactly its bytes. The layout of
a closed compound is a parameter of the builder model, so the reading is stated for every layout
that comes with its reading (`Codec`); the compact layout of §4.2 is one.

* `Builder.slice`, `Builder.size` — the sealed result, as `Builder.h` gives it;
* `Codec`, `readNode` — a layout with its reading, and the reader of a value at the front of
  some bytes: a scalar by its head, a compound taken apart by the codec and its children read
  in turn, under a fuel that bounds the nesting;
* `Tree.reading` — the value tree a built value stands for: its leaves and keys as they were
  added (a `Slice` or a translator's token as the scalar it holds), its compounds with their
  members in insertion order;
* `Tree.read_encode` — the bytes a value stands for read back as that tree, whatever follows
  them;
* `slice_reads_back`, `buffer_reads_back` — from a fresh builder, the calls that build a value
  leave a sealed builder whose slice reads back as the value and spans `size()` bytes, and the
  calls that build several top-level values leave them one after another.
-/

namespace VelocyPack

/-! ## The sealed result -/

namespace Builder

/-- `Builder::isEmpty`: `_pos == 0`. -/
def isEmpty (b : Builder) : Bool := b.pos == 0

/-- `Builder::start`: the bytes from `_start`, once no frame is open; `none` is the
`BuilderNotSealed` exception. -/
def start (b : Builder) : Option (List UInt8) := if b.isClosed then some b.buffer else none

/-- `Builder::slice`: `Slice()`, the none sentinel `0x00`, for an empty builder; else a `Slice`
at `start()`. -/
def slice (b : Builder) : Option Slice := if b.isEmpty then some ⟨[0x00]⟩ else b.start.map Slice.mk

/-- `Builder::size`: `_pos`, once no frame is open; `none` is the `BuilderNotSealed`
exception. -/
def size (b : Builder) : Option Nat := if b.isClosed then some b.pos else none

/-- A builder holding one sealed value: `slice()` is at its start and `size()` is its length. -/
theorem sealed_slice {bytes : List UInt8} (h : bytes ≠ []) :
    (⟨bytes, [], [], false⟩ : Builder).slice = some ⟨bytes⟩ ∧
      (⟨bytes, [], [], false⟩ : Builder).size = some bytes.length :=
  ⟨by simp [slice, isEmpty, pos, start, isClosed, h], rfl⟩

end Builder

/-! ## Codecs and the reader -/

/-- A layout for closed compounds with its reading: `readCompound` takes the compound at the front of
some bytes apart into whether it is an Object, its number of children, their bytes in order, and
the bytes after it. A compound opened with a head below `0x18` is sealed under such a head, and
an Array or Object sealed by `layout` reads back. -/
structure Codec where
  layout : Builder.Sealer
  readCompound : List UInt8 → Option (Bool × Nat × List UInt8 × List UInt8)
  layout_head : ∀ h cs, h.toNat < 0x18 → ∃ b bs, layout h cs = b :: bs ∧ b.toNat < 0x18
  read_array : ∀ (u : Bool) cs rest, readCompound (layout (if u then 0x13 else 0x06) cs ++ rest) =
    some (false, cs.length, cs.flatten, rest)
  read_object : ∀ (u : Bool) cs rest, readCompound (layout (if u then 0x14 else 0x0b) cs ++ rest) =
    some (true, cs.length, cs.flatten, rest)

/-- The compact layout of §4.2, with its reading. -/
def Codec.compact : Codec where
  layout := sealCompact
  readCompound := unsealCompact
  layout_head h cs _ := sealCompact_head h cs
  read_array u cs rest := by
    rw [unsealCompact_sealCompact]
    cases u <;> rfl
  read_object u cs rest := by
    rw [unsealCompact_sealCompact]
    cases u <;> rfl

theorem layout_ne_nil (c : Codec) (h : UInt8) (cs : List (List UInt8)) (hh : h.toNat < 0x18) :
    c.layout h cs ≠ [] := by
  obtain ⟨b, bs, hs, -⟩ := c.layout_head h cs hh
  rw [hs]
  exact List.cons_ne_nil b bs

/-- A value as a reader sees it: a scalar, or an Array or Object of values in order, each member
of an Object with its key. -/
inductive Node where
  | scalar (v : Value)
  | array (items : List Node)
  | object (members : List (Value × Node))

/-- `n` values in a row, each read by `read`, and the bytes after them. -/
def readSeq {α : Type} (read : List UInt8 → Option (α × List UInt8)) :
    Nat → List UInt8 → Option (List α × List UInt8)
  | 0, bytes => some ([], bytes)
  | n + 1, bytes =>
    (read bytes).bind fun p => (readSeq read n p.2).map fun q => (p.1 :: q.1, q.2)

/-- Exactly `n` values that take all of `body`. -/
def readAll {α : Type} (read : List UInt8 → Option (α × List UInt8)) (n : Nat)
    (body : List UInt8) : Option (List α) :=
  match readSeq read n body with
  | some (xs, []) => some xs
  | _ => none

/-- A member of an Object: its key, a scalar, then its value, read by `read`. -/
def readMember (read : List UInt8 → Option (Node × List UInt8)) (bytes : List UInt8) :
    Option ((Value × Node) × List UInt8) :=
  (readScalar bytes).bind fun p => (read p.2).map fun q => ((p.1, q.1), q.2)

/-- Modelled from the spec (§3, §4.6): the value at the front of `bytes`, and the bytes after
it. The head says what it is: a compound (below `0x18`), which the codec takes apart and whose
children are read in turn, or a scalar. `fuel` bounds the nesting of compounds. -/
def readNode (c : Codec) : Nat → List UInt8 → Option (Node × List UInt8)
  | 0, _ => none
  | _ + 1, [] => none
  | fuel + 1, b :: bs =>
    if b.toNat < 0x18 then
      (c.readCompound (b :: bs)).bind fun ⟨isObject, n, body, rest⟩ =>
        if isObject then (readAll (readMember (readNode c fuel)) n body).map (.object ·, rest)
        else (readAll (readNode c fuel) n body).map (.array ·, rest)
    else (readScalar (b :: bs)).map fun p => (.scalar p.1, p.2)

/-- The scalar some bytes hold, when they hold exactly one. -/
def readWhole (bytes : List UInt8) : Option Value :=
  match readScalar bytes with
  | some (v, []) => some v
  | _ => none

theorem readScalar_of_readWhole {bytes : List UInt8} {v : Value} (h : readWhole bytes = some v) :
    readScalar bytes = some (v, []) := by
  unfold readWhole at h
  split at h <;> simp_all

section Reader

variable (c : Codec)

theorem readNode_compound {b : UInt8} (hb : b.toNat < 0x18) (fuel : Nat) (bs : List UInt8) :
    readNode c (fuel + 1) (b :: bs) =
      (c.readCompound (b :: bs)).bind fun ⟨isObject, n, body, rest⟩ =>
        if isObject then (readAll (readMember (readNode c fuel)) n body).map (.object ·, rest)
        else (readAll (readNode c fuel) n body).map (.array ·, rest) := by
  rw [readNode, if_pos hb]

theorem readNode_scalar_head {b : UInt8} (hb : ¬b.toNat < 0x18) (fuel : Nat) (bs : List UInt8) :
    readNode c (fuel + 1) (b :: bs) = (readScalar (b :: bs)).map fun p => (.scalar p.1, p.2) := by
  rw [readNode, if_neg hb]

/-- A scalar's bytes read back as the scalar, whatever follows them. -/
theorem readNode_scalar {bytes : List UInt8} {v : Value} (h : readScalar bytes = some (v, []))
    (fuel : Nat) (rest : List UInt8) :
    readNode c (fuel + 1) (bytes ++ rest) = some (.scalar v, rest) := by
  rcases bytes with _ | ⟨b, bs⟩
  · cases h
  · have hb := head_of_readScalar h
    rw [List.cons_append, readNode_scalar_head c (by omega), ← List.cons_append,
      readScalar_append rest h]
    rfl

/-- A sealed compound reads back through the codec, its children read one after another. -/
theorem readNode_sealed {h : UInt8} (hh : h.toNat < 0x18) {cs : List (List UInt8)}
    {isObject : Bool} (hu : ∀ rest, c.readCompound (c.layout h cs ++ rest) =
      some (isObject, cs.length, cs.flatten, rest)) (fuel : Nat) (rest : List UInt8) :
    readNode c (fuel + 1) (c.layout h cs ++ rest) =
      if isObject then (readAll (readMember (readNode c fuel)) cs.length cs.flatten).map
        (.object ·, rest)
      else (readAll (readNode c fuel) cs.length cs.flatten).map (.array ·, rest) := by
  obtain ⟨b, bs, hs, hb⟩ := c.layout_head h cs hh
  rw [hs, List.cons_append, readNode_compound c hb, ← List.cons_append, ← hs, hu rest,
    Option.some_bind]

theorem readAll_of_readSeq {α : Type} {read : List UInt8 → Option (α × List UInt8)} {n : Nat}
    {body : List UInt8} {xs : List α} (h : readSeq read n (body ++ []) = some (xs, [])) :
    readAll read n body = some xs := by
  rw [List.append_nil] at h
  simp [readAll, h]

/-- Children that each read back, whatever follows them, read back one after another. -/
theorem readSeq_flatten {α : Type} {read : List UInt8 → Option (α × List UInt8)}
    {cs : List (List UInt8)} {xs : List α}
    (h : List.Forall₂ (fun bytes x => ∀ more, read (bytes ++ more) = some (x, more)) cs xs)
    (rest : List UInt8) : readSeq read cs.length (cs.flatten ++ rest) = some (xs, rest) := by
  induction h generalizing rest with
  | nil => rfl
  | cons hx _ ih =>
    simp only [List.length_cons, List.flatten_cons, List.append_assoc, readSeq]
    rw [hx, Option.some_bind, ih rest]
    rfl

/-- An Array sealed by the codec reads back as its children's values. -/
theorem readNode_array_of {u : Bool} {cs : List (List UInt8)} {xs : List Node} {fuel : Nat}
    (h : List.Forall₂ (fun bytes x => ∀ more, readNode c fuel (bytes ++ more) = some (x, more)) cs xs)
    (rest : List UInt8) :
    readNode c (fuel + 1) (c.layout (if u then 0x13 else 0x06) cs ++ rest) = some (.array xs, rest) := by
  rw [readNode_sealed c (by cases u <;> decide) (c.read_array u cs), if_neg Bool.false_ne_true,
    readAll_of_readSeq (readSeq_flatten h [])]
  rfl

end Reader

/-! ## The value a reader sees in a built value -/

namespace Document

open Builder

/-- A leaf as it was added: a `Value` as itself (an unsigned value below ten as the equal small
integer, which is how `addUInt` writes it), a `Slice` as the scalar its bytes hold. -/
def Leaf.reading : Leaf → Option Value
  | .slice s => readWhole s.bytes
  | .value v _ => if v.Readable then some v.canonical else none

/-- A key as it was added: the attribute name as a string, or, where the translator knows the
name, the scalar its token holds. -/
def keyReading (opts : Options) (attrName : List UInt8) : Option Value :=
  match opts.attributeTranslator.bind (· attrName) with
  | some token => readWhole token
  | none => if attrName.length < 2 ^ 64 then some (.string attrName) else none

/-- A leaf's bytes hold exactly the value it was added as. -/
theorem Leaf.readScalar_bytes {l : Leaf} {v : Value} (h : l.reading = some v) :
    readScalar l.bytes = some (v, []) := by
  cases l with
  | slice s => exact readScalar_of_readWhole h
  | value w hw =>
    simp only [Leaf.reading] at h
    split at h
    · cases h
      exact readScalar_encode_whole w ‹_›
    · cases h

/-- A key's bytes hold exactly the key it was added as. -/
theorem readScalar_keyBytes {opts : Options} {attrName : List UInt8} {k : Value}
    (h : keyReading opts attrName = some k) : readScalar (Doc.keyBytes opts attrName) = some (k, []) := by
  unfold keyReading at h
  unfold Doc.keyBytes
  split at h
  · rename_i token htoken
    rw [htoken, Option.getD_some]
    exact readScalar_of_readWhole h
  · rename_i htoken
    split at h
    · cases h
      rw [htoken, Option.getD_none]
      exact readScalar_encode_whole (.string attrName) ‹_›
    · cases h

mutual

/-- The value tree `t` stands for, as a reader should see it: leaves and keys as they were
added, compounds with their members in the order they were added. -/
def Tree.reading (opts : Options) : Tree → Option Node
  | .leaf l => l.reading.map .scalar
  | .array _ ts => (Forest.reading opts ts).map .array
  | .object _ ms => (Members.reading opts ms).map .object

/-- The values of an Array's members. -/
def Forest.reading (opts : Options) : Forest → Option (List Node)
  | .nil => some []
  | .cons t ts => (Tree.reading opts t).bind fun x => (Forest.reading opts ts).map (x :: ·)

/-- The keys and values of an Object's members. -/
def Members.reading (opts : Options) : Members → Option (List (Value × Node))
  | .nil => some []
  | .cons a t ms => (keyReading opts a).bind fun k =>
    (Tree.reading opts t).bind fun x => (Members.reading opts ms).map ((k, x) :: ·)

end

mutual

/-- The nesting of compounds in `t`: a leaf is `0`. -/
def Tree.depth : Tree → Nat
  | .leaf _ => 0
  | .array _ ts => Forest.depth ts + 1
  | .object _ ms => Members.depth ms + 1

/-- The deepest nesting among an Array's members. -/
def Forest.depth : Forest → Nat
  | .nil => 0
  | .cons t ts => max (Tree.depth t) (Forest.depth ts)

/-- The deepest nesting among an Object's members. -/
def Members.depth : Members → Nat
  | .nil => 0
  | .cons _ t ms => max (Tree.depth t) (Members.depth ms)

end

/-! ## Every built value reads back -/

section Reading

variable (c : Codec) (opts : Options)

mutual

/-- The bytes of a value read back as the value tree a reader sees in it, whatever follows
them, with fuel above its nesting. -/
theorem Tree.read_encode : ∀ (t : Tree) (x : Node), t.reading opts = some x →
    ∀ fuel, t.depth < fuel → ∀ rest,
      readNode c fuel (t.encode opts c.layout ++ rest) = some (x, rest)
  | .leaf l, x, h, fuel, hf, rest => by
    obtain ⟨v, hv, rfl⟩ := Option.map_eq_some'.mp h
    obtain ⟨f, rfl⟩ : ∃ f, fuel = f + 1 := ⟨fuel - 1, by simp only [Tree.depth] at hf; omega⟩
    exact readNode_scalar c (Leaf.readScalar_bytes hv) f rest
  | .array u ts, x, h, fuel, hf, rest => by
    obtain ⟨xs, hxs, rfl⟩ := Option.map_eq_some'.mp h
    obtain ⟨f, rfl⟩ : ∃ f, fuel = f + 1 := ⟨fuel - 1, by simp only [Tree.depth] at hf; omega⟩
    have hts := Forest.read_encode ts xs hxs f (by simp only [Tree.depth] at hf; omega) []
    simp only [Tree.encode]
    rw [readNode_sealed c (by cases u <;> decide) (c.read_array u _), if_neg Bool.false_ne_true,
      readAll_of_readSeq hts]
    rfl
  | .object u ms, x, h, fuel, hf, rest => by
    obtain ⟨xs, hxs, rfl⟩ := Option.map_eq_some'.mp h
    obtain ⟨f, rfl⟩ : ∃ f, fuel = f + 1 := ⟨fuel - 1, by simp only [Tree.depth] at hf; omega⟩
    have hms := Members.read_encode ms xs hxs f (by simp only [Tree.depth] at hf; omega) []
    simp only [Tree.encode]
    rw [readNode_sealed c (by cases u <;> decide) (c.read_object u _), if_pos rfl,
      readAll_of_readSeq hms]
    rfl

/-- An Array's members read back one after another. -/
theorem Forest.read_encode : ∀ (ts : Forest) (xs : List Node), ts.reading opts = some xs →
    ∀ fuel, ts.depth < fuel → ∀ rest,
      readSeq (readNode c fuel) (ts.encode opts c.layout).length
        ((ts.encode opts c.layout).flatten ++ rest) = some (xs, rest)
  | .nil, xs, h, _, _, rest => by
    cases h
    rfl
  | .cons t ts, xs, h, fuel, hf, rest => by
    obtain ⟨x, hx, h⟩ := Option.bind_eq_some.mp h
    obtain ⟨xs, hxs, rfl⟩ := Option.map_eq_some'.mp h
    simp only [Forest.depth, max_lt_iff] at hf
    simp only [Forest.encode, List.length_cons, List.flatten_cons, List.append_assoc, readSeq]
    rw [Tree.read_encode t x hx fuel hf.1, Option.some_bind,
      Forest.read_encode ts xs hxs fuel hf.2 rest]
    rfl

/-- An Object's members read back one after another, each key before its value. -/
theorem Members.read_encode : ∀ (ms : Members) (xs : List (Value × Node)),
    ms.reading opts = some xs → ∀ fuel, ms.depth < fuel → ∀ rest,
      readSeq (readMember (readNode c fuel)) (ms.encode opts c.layout).length
        ((ms.encode opts c.layout).flatten ++ rest) = some (xs, rest)
  | .nil, xs, h, _, _, rest => by
    cases h
    rfl
  | .cons a t ms, xs, h, fuel, hf, rest => by
    obtain ⟨k, hk, h⟩ := Option.bind_eq_some.mp h
    obtain ⟨x, hx, h⟩ := Option.bind_eq_some.mp h
    obtain ⟨xs, hxs, rfl⟩ := Option.map_eq_some'.mp h
    simp only [Members.depth, max_lt_iff] at hf
    simp only [Members.encode, List.length_cons, List.flatten_cons, List.append_assoc, readSeq,
      readMember]
    rw [readScalar_append _ (readScalar_keyBytes hk), Option.some_bind, List.nil_append,
      Tree.read_encode t x hx fuel hf.1, Option.map_some', Option.some_bind,
      Members.read_encode ms xs hxs fuel hf.2 rest]
    rfl

end

end Reading

/-! ## From a fresh builder -/

/-- The number of values `readSeq` returns is the number it was asked for. -/
theorem readSeq_length {α : Type} {read : List UInt8 → Option (α × List UInt8)} :
    ∀ {n : Nat} {bytes r : List UInt8} {xs : List α}, readSeq read n bytes = some (xs, r) →
      xs.length = n
  | 0, _, _, _, h => by cases h; rfl
  | n + 1, bytes, r, xs, h => by
    obtain ⟨p, -, h⟩ := Option.bind_eq_some.mp h
    obtain ⟨q, hq, h⟩ := Option.map_eq_some'.mp h
    cases h
    simp [readSeq_length hq]

/-- The calls that build several values at the top, one after another, all return and append
their bytes to the finished values. -/
theorem Forest.run_top (opts : Options) (layout : Builder.Sealer)
    (hx : opts.disallowExternals = false) :
    ∀ (ts : Forest), ts.passesUniqueness opts layout = true → ∀ (top : List UInt8) (more : List Op),
      Doc.runOk opts layout (ts.ops ++ more) ⟨top, []⟩ =
        Doc.runOk opts layout more ⟨top ++ (ts.encode opts layout).flatten, []⟩
  | .nil, _, top, more => by simp [Forest.ops, Forest.encode]
  | .cons t ts, hu, top, more => by
    simp only [Forest.passesUniqueness, Bool.and_eq_true] at hu
    simp only [Forest.ops, Forest.encode, List.flatten_cons, List.append_assoc]
    rw [← Tree.ops, Tree.run_top opts layout hx t hu.1, Forest.run_top opts layout hx ts hu.2]
    simp

/-- From a fresh builder, the calls that build a value leave a sealed builder holding exactly
its bytes, whether the options check attribute uniqueness or not: the check decides only
whether `close` throws. -/
theorem Tree.builder_ops (opts : Options) (layout : Builder.Sealer)
    (hx : opts.disallowExternals = false) (t : Tree) :
    run opts layout t.ops empty = ⟨t.encode opts layout, [], [], false⟩ := by
  have h := Tree.runOk_ops { opts with checkAttributeUniqueness := false } layout hx t
    (Tree.passesUniqueness_uncheck layout rfl t)
  rw [run_uncheck, ← Tree.encode_uncheck opts layout t]
  exact run_of_forM (builder_runOk _ layout t.ops ⟨[], []⟩ _ h)

/-- **The slice reads back (§4.6, §8.1).** From a fresh builder, where externals are allowed,
the calls that build a value leave a sealed builder: `slice()` is a value that reads back, in
every layout that comes with its reading, as the value tree that was built (each `Value` as
itself, a small unsigned value as the equal small integer; each name key as its string; a
`Slice` or a translator's token as the scalar it holds), with the members of each compound in
the order they were added, and `size()` is exactly the number of bytes it spans. -/
theorem slice_reads_back (c : Codec) (opts : Options) (hx : opts.disallowExternals = false)
    (t : Tree) (x : Node) (hr : t.reading opts = some x) (fuel : Nat) (hf : t.depth < fuel) :
    ∃ s, (run opts c.layout t.ops empty).slice = some s ∧ readNode c fuel s.bytes = some (x, []) ∧
      (run opts c.layout t.ops empty).size = some s.bytes.length := by
  have hread := Tree.read_encode c opts t x hr fuel hf []
  rw [List.append_nil] at hread
  have hne : t.encode opts c.layout ≠ [] := by
    intro he
    rw [he] at hread
    cases fuel <;> cases hread
  rw [Tree.builder_ops opts c.layout hx t]
  obtain ⟨hslice, hsize⟩ := sealed_slice hne
  exact ⟨_, hslice, hread, hsize⟩

theorem slice_reads_back_object :
    let t : Tree := .object false (.cons [0x61] (.array false
      (.cons (.leaf (.slice ⟨[0x18]⟩)) (.cons (.leaf (.value (.string [0x62]) trivial)) .nil))) .nil)
    let x : Node := .object [(.string [0x61], .array [.scalar .null, .scalar (.string [0x62])])]
    Options.defaults.disallowExternals = false ∧ t.reading Options.defaults = some x ∧
      t.depth < 3 ∧ ∃ s, (run Options.defaults Codec.compact.layout t.ops empty).slice = some s ∧
        readNode Codec.compact 3 s.bytes = some (x, []) ∧
        (run Options.defaults Codec.compact.layout t.ops empty).size = some s.bytes.length :=
  by
  intro t x
  exact ⟨rfl, rfl, by decide, slice_reads_back Codec.compact Options.defaults rfl t x rfl 3 (by decide)⟩

/-- **The buffer holds the values one after another.** From a fresh builder, where externals
are allowed, the calls that build several values at the top, one after another, leave a builder
with no open frame whose buffer reads back, in every layout that comes with its reading, as
exactly those values, in order, with nothing left over (§3: with an empty stack the buffer is a
sequence of complete, readable top-level values). -/
theorem buffer_reads_back (c : Codec) (opts : Options) (hx : opts.disallowExternals = false)
    (ts : Forest) (xs : List Node) (hr : ts.reading opts = some xs) (fuel : Nat)
    (hf : ts.depth < fuel) :
    (run opts c.layout ts.ops empty).isClosed = true ∧
      readSeq (readNode c fuel) xs.length (run opts c.layout ts.ops empty).buffer =
        some (xs, []) := by
  have h := Forest.run_top { opts with checkAttributeUniqueness := false } c.layout hx ts
    (Forest.passesUniqueness_uncheck c.layout rfl ts) [] []
  rw [List.append_nil] at h
  rw [run_uncheck, ← builder_empty, run_of_forM (builder_runOk _ c.layout ts.ops _ _ h),
    Forest.encode_uncheck]
  have hread := Forest.read_encode c opts ts xs hr fuel hf []
  rw [← readSeq_length hread, List.append_nil] at *
  exact ⟨rfl, hread⟩

theorem buffer_reads_back_two :
    let ts : Forest := .cons (.leaf (.value .null trivial)) (.cons (.array true .nil) .nil)
    Options.defaults.disallowExternals = false ∧
      ts.reading Options.defaults = some [.scalar .null, .array []] ∧ ts.depth < 2 ∧
      (run Options.defaults Codec.compact.layout ts.ops empty).isClosed = true ∧
      readSeq (readNode Codec.compact 2) 2 (run Options.defaults Codec.compact.layout ts.ops empty).buffer =
        some ([.scalar .null, .array []], []) :=
  by
  intro ts
  exact ⟨rfl, rfl, by decide, buffer_reads_back Codec.compact Options.defaults rfl ts _ rfl 2 (by decide)⟩

end Document

end VelocyPack
