import VelocyPack.Builder.Methods

/-!
# The document a builder holds

What the add, open and close paths are for, stated without offsets: a caller builds a
sequence of top-level values, and inside each open Array or Object a list of complete
children and a child in progress: an Object's key waiting for its value, or the child that
holds the next open compound.

* `Piece`, `Item.piece` — what `set` does with an argument: write a complete value, open a
  compound, or throw;
* `Frame`, `Doc` — that abstract state, and `Doc.builder`, the builder state that holds a
  document: its buffer, frames, offsets and `_keyWritten` are all determined by it;
* `Doc.step` — what each public call does to a document: returns a new document, throws with
  the document unchanged, or (`none`) leaves the contract: an argument that is a
  `Serializable`; a named add or `addUnchecked` on an empty stack, or `addUnchecked` outside an
  Object's key position; a call that throws after its first write (a value that fails after a
  key or after a tag); `close` while a key waits for its value, or of an Object whose keys
  repeat where the options check them; and any call on frames no script builds;
* `Doc.run`, `Doc.runOk` — a script whose exceptions the caller catches, and one all of whose
  calls return.
-/

namespace VelocyPack

/-! ## What `set` does with an argument -/

/-- What `set` does once its key check has passed: write a complete value (`isKey`: whether
`checkKeyHasValidType` accepts it as a key), open a compound with head `head`, or throw. -/
inductive Piece where
  | complete (bytes : List UInt8) (isKey : Bool)
  | opens (head : UInt8)
  | fails (e : ExceptionType)
deriving DecidableEq, Repr

namespace Piece

/-- Whether the key check accepts the argument. -/
def isKey : Piece → Bool
  | .complete _ k => k
  | _ => false

/-- The part of `set` after the key check. -/
def act : Piece → BuilderM Unit
  | .complete c _ => Builder.write (· ++ c)
  | .opens h => Builder.addCompoundValue h
  | .fails e => throw e

/-- `set` of an argument that is the piece. -/
def set (p : Piece) : BuilderM Unit := Builder.checkKeyHasValidType p.isKey >>= fun _ => p.act

end Piece

/-- The piece each argument of `add` is; a `Serializable` runs a program instead. -/
def Item.piece (opts : Options) : Item → Option Piece
  | .value .none => some (.fails .builderUnexpectedType)
  | .value (.array unindexed) => some (.opens (if unindexed then 0x13 else 0x06))
  | .value (.object unindexed) => some (.opens (if unindexed then 0x14 else 0x0b))
  | .value (.external addr) => some (if opts.disallowExternals then .fails .builderExternalsDisallowed
      else .complete (Value.external addr).encode false)
  | .value v => some (.complete v.encode v.isValidKey)
  | .slice s => some (.complete s.bytes s.isValidKey)
  | .pair p => some (.complete (encodeString [] p.bytes) true)
  | .serialize _ => none

/-- A scalar `Value`, an external one only where externals are allowed, is written whole. -/
theorem Item.piece_of_scalar {opts : Options} {v : Value} (hv : v.IsScalar)
    (hx : opts.disallowExternals = false) :
    Item.piece opts (.value v) = some (.complete v.encode v.isValidKey) := by
  cases v <;> first | exact hv.elim | simp [Item.piece, hx, Value.isValidKey]

namespace Document

open Builder

/-! ## Documents -/

/-- An open Array or Object: the head written when it was opened, its complete children in
order (in an Object, each a key and its value), and the child in progress, whose offset is
recorded and whose bytes are written so far: an Object's key waiting for its value, or the
child holding the next open frame. -/
structure Frame where
  head : UInt8
  done : List (List UInt8)
  pending : Option (List UInt8)
deriving DecidableEq, Repr

namespace Frame

/-- The head of an Object, as `isOpenObject` reads it. -/
def isObject (f : Frame) : Bool := f.head == 0x0b || f.head == 0x14

/-- The head of an Array, as `isOpenArray` reads it. -/
def isArray (f : Frame) : Bool := f.head == 0x06 || f.head == 0x13

/-- An Object's key waits for its value: `_keyWritten` of the innermost frame. -/
def keyWritten (f : Frame) : Bool := f.isObject && f.pending.isSome

/-- The frame's bytes in the buffer: head, the eight reserved bytes, children, child in
progress. -/
def bytes (f : Frame) : List UInt8 :=
  f.head :: List.replicate 8 0 ++ f.done.flatten ++ f.pending.getD []

/-- The offsets `reportAdd` recorded in the frame: one per child, one for the child in
progress. -/
def entries (f : Frame) : List Nat :=
  childOffsets 9 f.done ++ (f.pending.map fun _ => 9 + f.done.flatten.length).toList

/-- The builder after opening `f` on `b` and writing its children, with the flag `kw`. -/
def extend (f : Frame) (kw : Bool) (b : Builder) : Builder :=
  ⟨b.buffer ++ f.bytes, ⟨b.pos, b.indexes.length⟩ :: b.stack, b.indexes ++ f.entries, kw⟩

end Frame

/-- A document under construction: the bytes of the finished top-level values, and the open
frames, innermost first. -/
structure Doc where
  top : List UInt8
  frames : List Frame
deriving DecidableEq, Repr

/-- The builder state of the frames below the innermost one. -/
def below (top : List UInt8) : List Frame → Builder
  | [] => ⟨top, [], [], false⟩
  | g :: rest => g.extend false (below top rest)

/-- The builder state that holds the document `d`. -/
def Doc.builder (d : Doc) : Builder :=
  match d.frames with
  | [] => ⟨d.top, [], [], false⟩
  | f :: rest => f.extend f.keyWritten (below d.top rest)

/-- The empty document is a fresh builder. -/
theorem builder_empty : (⟨[], []⟩ : Doc).builder = empty := rfl

/-! ## What each call does to a document

Each step returns `some (.ok d')`, or `some (.error e)` when the call throws and leaves the
document as it was, or `none` when the call is outside what the builder keeps consistent. -/

/-- The bytes `appendTag` writes; none for tag 0, which the tagged adds do not write. -/
def tagBytes (tag : UInt64) : List UInt8 :=
  if tag = 0 then []
  else if tag.toNat ≤ 255 then appendLengthUnchecked 1 [0xee] tag.toNat
  else appendLengthUnchecked 8 [0xef] tag.toNat

/-- What a step returns. -/
abbrev Outcome := Option (Except ExceptionType Doc)

namespace Doc

/-- Open a compound with head `h` at the top. -/
def openAtTop (top : List UInt8) (h : UInt8) : Doc := ⟨top, [⟨h, [], none⟩]⟩

/-- Open a compound with head `h` inside `f`, as `f`'s child in progress `part`. -/
def openIn (top : List UInt8) (h : UInt8) (f : Frame) (part : List UInt8) (rest : List Frame) : Doc :=
  ⟨top, ⟨h, [], none⟩ :: { f with pending := some part } :: rest⟩

/-- Complete `f`'s child in progress with `c`. -/
def completeIn (top : List UInt8) (f : Frame) (part c : List UInt8) (rest : List Frame) : Doc :=
  ⟨top, { f with done := f.done ++ [part ++ c], pending := none } :: rest⟩

/-- `openCompoundValue(h)`: at the top, for an Object's value, or in an Array. -/
def openCompound (h : UInt8) (d : Doc) : Outcome :=
  match d.frames with
  | [] => some (.ok (openAtTop d.top h))
  | f :: rest =>
    match f.keyWritten, f.pending with
    | true, some k => some (.ok (openIn d.top h f k rest))
    | false, none => if f.isArray then some (.ok (openIn d.top h f [] rest))
        else some (.error .builderNeedOpenArray)
    | _, _ => none

/-- `add` (`pre = []`) or `addTagged` (`pre` the tag's bytes) of an argument that is `p`. -/
def addItem (pre : List UInt8) (p : Piece) (d : Doc) : Outcome :=
  match d.frames with
  | [] =>
    match p with
    | .complete c _ => some (.ok ⟨d.top ++ pre ++ c, []⟩)
    | .opens h => some (.ok (openAtTop (d.top ++ pre) h))
    | .fails e => if pre = [] then some (.error e) else none
  | f :: rest =>
    match f.keyWritten, f.pending with
    | true, some k =>
      match p with
      | .complete c _ => some (.ok (completeIn d.top f k (pre ++ c) rest))
      | .opens h => some (.ok (openIn d.top h f (k ++ pre) rest))
      | .fails _ => none
    | false, none =>
      if f.isObject then
        match p with
        | .complete c true => some (.ok ⟨d.top, { f with pending := some (pre ++ c) } :: rest⟩)
        | _ => if pre = [] then some (.error .builderKeyMustBeString) else none
      else if f.isArray then
        match p with
        | .complete c _ => some (.ok (completeIn d.top f [] (pre ++ c) rest))
        | .opens h => some (.ok (openIn d.top h f pre rest))
        | .fails e => if pre = [] then some (.error e) else none
      else none
    | _, _ => none

/-- `add(attrName, x)` or `addTagged(attrName, tag, x)` with the key's bytes `key`: in an
Object's key position, the key, then the value as `addItem` places it. -/
def addNamed (key pre : List UInt8) (p : Piece) (d : Doc) : Outcome :=
  match d.frames with
  | [] => none
  | f :: rest =>
    if !f.isObject then some (.error .builderNeedOpenObject)
    else if f.keyWritten then some (.error .builderKeyAlreadyWritten)
    else match addItem pre p ⟨d.top, { f with pending := some key } :: rest⟩ with
      | some (.ok d') => some (.ok d')
      | _ => none

/-- `addUnchecked(key, sub)`, in an Object's key position. -/
def addUnchecked (key sub : Piece) (d : Doc) : Outcome :=
  match d.frames with
  | [] => none
  | f :: _ =>
    if f.isObject && !f.keyWritten then
      match key with
      | .complete k true => addNamed k [] sub d
      | _ => some (.error .builderKeyMustBeString)
    else none

/-- `close()`: seal the innermost frame with the layout and complete the child in progress of
the frame below with it, unless the innermost frame has a child in progress itself, or is an
Object whose keys repeat where the options check them, which the builder seals and reports. -/
def close (opts : Options) (layout : Sealer) (d : Doc) : Outcome :=
  match d.frames with
  | [] => some (.error .builderNeedOpenCompound)
  | [f] =>
    if f.pending.isSome || uniquenessFails opts f.isObject f.done then none
    else some (.ok ⟨d.top ++ layout f.head f.done, []⟩)
  | f :: g :: rest =>
    match f.pending, g.pending with
    | none, some part =>
      if uniquenessFails opts f.isObject f.done then none
      else some (.ok (completeIn d.top g part (layout f.head f.done) rest))
    | _, _ => none

/-- The key's bytes a named add writes: the translation, or the name as a string. -/
def keyBytes (opts : Options) (attrName : List UInt8) : List UInt8 :=
  (opts.attributeTranslator.bind (· attrName)).getD (encodeString [] attrName)

/-- One public call on the document. -/
def step (opts : Options) (layout : Sealer) : Op → Doc → Outcome
  | .openArray unindexed, d => openCompound (if unindexed then 0x13 else 0x06) d
  | .openObject unindexed, d => openCompound (if unindexed then 0x14 else 0x0b) d
  | .add sub, d => (sub.piece opts).bind fun p => addItem [] p d
  | .addTagged tag sub, d => (sub.piece opts).bind fun p => addItem (tagBytes tag) p d
  | .addAttr attrName sub, d => (sub.piece opts).bind fun p => addNamed (keyBytes opts attrName) [] p d
  | .addTaggedAttr attrName tag sub, d =>
    (sub.piece opts).bind fun p => addNamed (keyBytes opts attrName) (tagBytes tag) p d
  | .addUnchecked key sub, d =>
    (key.piece opts).bind fun k => (sub.piece opts).bind fun p => addUnchecked k p d
  | .addExternal sub, d =>
    if opts.disallowExternals then some (.error .builderExternalsDisallowed)
    else addItem [] (.complete (Value.external sub.addr).encode sub.target.isValidKey) d
  | .close, d => close opts layout d
  | .clear, _ => some (.ok ⟨[], []⟩)

/-- A script on the document: a call that throws is caught and leaves the document as it was. -/
def run (opts : Options) (layout : Sealer) : List Op → Doc → Option Doc
  | [], d => some d
  | op :: ops, d =>
    match step opts layout op d with
    | some (.ok d') => run opts layout ops d'
    | some (.error _) => run opts layout ops d
    | none => none

/-- A script all of whose calls return: `none` at the first call that throws or leaves the
contract. -/
def runOk (opts : Options) (layout : Sealer) : List Op → Doc → Option Doc
  | [], d => some d
  | op :: ops, d =>
    match step opts layout op d with
    | some (.ok d') => runOk opts layout ops d'
    | _ => none

end Doc

namespace Frame

@[simp] theorem isObject_setPending (f : Frame) (p : Option (List UInt8)) :
    ({ f with pending := p } : Frame).isObject = f.isObject := rfl

@[simp] theorem isArray_setPending (f : Frame) (p : Option (List UInt8)) :
    ({ f with pending := p } : Frame).isArray = f.isArray := rfl

theorem pending_of_keyWritten {f : Frame} (h : f.keyWritten = true) : ∃ k, f.pending = some k := by
  simp only [keyWritten, Bool.and_eq_true, Option.isSome_iff_exists] at h
  exact h.2

theorem isObject_of_keyWritten {f : Frame} (h : f.keyWritten = true) : f.isObject = true := by
  simp only [keyWritten, Bool.and_eq_true] at h
  exact h.1

theorem pending_of_not_keyWritten {f : Frame} (hk : f.keyWritten = false) (ho : f.isObject = true) :
    f.pending = none := by
  simpa [keyWritten, ho] using hk

@[simp] theorem keyWritten_mk_none (h : UInt8) (ds : List (List UInt8)) :
    (⟨h, ds, none⟩ : Frame).keyWritten = false := by
  simp [keyWritten]

@[simp] theorem keyWritten_pending_some (f : Frame) (k : List UInt8) :
    ({ f with pending := some k } : Frame).keyWritten = f.isObject := by
  simp [keyWritten]

/-- The heads of an Object and of an Array differ. -/
theorem isArray_of_isObject {f : Frame} (h : f.isObject = true) : f.isArray = false := by
  simp only [isObject, isArray, Bool.or_eq_true, beq_iff_eq] at h ⊢
  rcases h with h | h <;> simp [h]

theorem isObject_of_isArray {f : Frame} (h : f.isArray = true) : f.isObject = false := by
  cases ho : f.isObject
  · rfl
  · simp [isArray_of_isObject ho] at h

theorem keyWritten_of_isArray {f : Frame} (h : f.isArray = true) : f.keyWritten = false := by
  simp [keyWritten, isObject_of_isArray h]

theorem with_pending {f : Frame} {k : Option (List UInt8)} (h : f.pending = k) :
    ({ f with pending := k } : Frame) = f := by
  cases f; cases h; rfl

end Frame

end Document

end VelocyPack
