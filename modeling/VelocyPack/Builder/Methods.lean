import VelocyPack.Read.Scalar

/-!
# Builder methods

The add, open and close paths of `Builder.h`, each under its source name, in `BuilderM`.
`try { … } catch (...) { cleanup; throw; }` is `tryCleanup`, which runs the cleanup on the
state the exception left and rethrows.

`set`, `reportAdd`, `cleanupAdd`, `appendTag`, `checkAttributeUniqueness` and `close` live in
`Builder.cpp`, which is not among the repository's files; they are modelled from the
specification (§4.2, §4.3, §6, §7) and say so. `close` seals a frame with a layout `layout` taken
as a parameter: nothing proved about the builder depends on the layout. Where the options check
attribute uniqueness, `close` reports an Object whose keys repeat only once it is sealed, so the
check decides whether `close` throws, never the state it leaves (`run_uncheck`).
-/

namespace VelocyPack

namespace Builder

/-! ## Running a method on a state -/

@[simp] theorem bind_apply (x : BuilderM α) (f : α → BuilderM β) (b : Builder) :
    (x >>= f) b = match x b with | .ok a b' => f a b' | .error e b' => .error e b' := by
  show EStateM.bind x f b = _
  unfold EStateM.bind
  cases x b <;> rfl

theorem bind_of_ok {x : BuilderM α} {f : α → BuilderM β} {a : α} {b b' : Builder}
    (h : x b = .ok a b') : (x >>= f) b = f a b' := by
  simp [h]

@[simp] theorem get_apply (b : Builder) : (get : BuilderM Builder) b = .ok b b := rfl

@[simp] theorem modify_apply (f : Builder → Builder) (b : Builder) :
    (modify f : BuilderM Unit) b = .ok () (f b) := rfl

@[simp] theorem pure_apply (a : α) (b : Builder) : (pure a : BuilderM α) b = .ok a b := rfl

@[simp] theorem throw_apply (e : ExceptionType) (b : Builder) :
    (throw e : BuilderM α) b = .error e b := rfl

/-! ## Primitive steps -/

/-- A writer of `Builder.h` applied to the buffer (`reserve` only grows capacity). -/
def write (f : List UInt8 → List UInt8) : BuilderM Unit :=
  modify fun b => { b with buffer := f b.buffer }

/-- `try { x } catch (...) { handler; throw; }`. -/
def tryCleanup (x : BuilderM α) (handler : Builder → Builder) : BuilderM α := fun b =>
  match x b with
  | .ok a b' => .ok a b'
  | .error e b' => .error e (handler b')

theorem tryCleanup_of_ok {x : BuilderM α} {a : α} {b b' : Builder} (handler : Builder → Builder)
    (h : x b = .ok a b') : tryCleanup x handler b = .ok a b' := by
  simp only [tryCleanup, h]

theorem tryCleanup_of_error {x : BuilderM α} {e : ExceptionType} {b b' : Builder}
    (handler : Builder → Builder) (h : x b = .error e b') :
    tryCleanup x handler b = .error e (handler b') := by
  simp only [tryCleanup, h]

@[simp] theorem tryCleanup_id (x : BuilderM α) : tryCleanup x (fun b => b) = x := by
  funext b
  unfold tryCleanup
  split <;> simp_all

/-- A cleanup rethrows what its body threw, after running the handler on the body's state. -/
theorem tryCleanup_error {x : BuilderM α} {handler : Builder → Builder} {b b' : Builder}
    {e : ExceptionType} (h : tryCleanup x handler b = .error e b') :
    ∃ b'', x b = .error e b'' ∧ b' = handler b'' := by
  unfold tryCleanup at h
  split at h <;> cases h
  exact ⟨_, ‹_›, rfl⟩

/-- `Builder::reportAdd`. Modelled from the spec (§4.3): before a child is written into the
innermost frame, push its offset from the frame's start onto `_indexes`. -/
def reportAdd : BuilderM Unit := modify fun b =>
  match b.stack with
  | [] => b
  | c :: _ => { b with indexes := b.indexes ++ [b.pos - c.startPos] }

theorem reportAdd_of_cons {b : Builder} {c : CompoundInfo} {rest : List CompoundInfo}
    (hs : b.stack = c :: rest) :
    reportAdd b = .ok () { b with indexes := b.indexes ++ [b.pos - c.startPos] } := by
  simp [reportAdd, hs]

/-- `Builder::cleanupAdd`. Modelled from the spec (§4.3): pop the last offset. -/
def cleanupAdd (b : Builder) : Builder := { b with indexes := b.indexes.dropLast }

/-- `cleanupAdd` undoes `reportAdd`. -/
@[simp] theorem cleanupAdd_reported (b : Builder) (n : Nat) :
    cleanupAdd { b with indexes := b.indexes ++ [n] } = b := by
  simp [cleanupAdd]

/-- A body that throws on the reported state, before writing, leaves after its cleanup the
state from before the report. -/
theorem reportAdd_cleanup_refused {x : BuilderM α} {b : Builder} {c : CompoundInfo}
    {rest : List CompoundInfo} {e : ExceptionType} (hs : b.stack = c :: rest)
    (hx : x { b with indexes := b.indexes ++ [b.pos - c.startPos] } =
      .error e { b with indexes := b.indexes ++ [b.pos - c.startPos] }) :
    (reportAdd >>= fun _ => tryCleanup x cleanupAdd) b = .error e b := by
  rw [bind_of_ok (reportAdd_of_cons hs), tryCleanup_of_error _ hx, cleanupAdd_reported]

/-- `Builder::checkKeyHasValidType`: in an Object, a key must be valid, and each child
written toggles `_keyWritten`. -/
def checkKeyHasValidType (isValid : Bool) : BuilderM Unit := fun b =>
  if b.isOpenObject then
    if !b.keyWritten && !isValid then .error .builderKeyMustBeString b
    else .ok () { b with keyWritten := !b.keyWritten }
  else .ok () b

/-- A failed key check throws on the state it was given. -/
theorem checkKeyHasValidType_error {isValid : Bool} {b b' : Builder} {e : ExceptionType}
    (h : checkKeyHasValidType isValid b = .error e b') :
    e = .builderKeyMustBeString ∧ b' = b ∧ b.isOpenObject = true ∧ b.keyWritten = false := by
  unfold checkKeyHasValidType at h
  split at h
  · split at h <;> simp_all
  · cases h

theorem checkKeyHasValidType_of_not_object {isValid : Bool} {b : Builder}
    (ho : b.isOpenObject = false) : checkKeyHasValidType isValid b = .ok () b := by
  simp [checkKeyHasValidType, ho]

/-- After a key the check passes whatever the type, and clears the flag in an Object. -/
theorem checkKeyHasValidType_of_keyWritten {isValid : Bool} {b : Builder} (hk : b.keyWritten = true) :
    checkKeyHasValidType isValid b = .ok () (if b.isOpenObject then { b with keyWritten := false } else b) := by
  unfold checkKeyHasValidType
  split <;> simp [hk]

theorem checkKeyHasValidType_refuse {b : Builder} (ho : b.isOpenObject = true)
    (hk : b.keyWritten = false) : checkKeyHasValidType false b = .error .builderKeyMustBeString b := by
  simp [checkKeyHasValidType, ho, hk]

/-- `Builder::addCompoundValue`: push a frame and reserve its head and eight zero bytes. -/
def addCompoundValue (type : UInt8) : BuilderM Unit := modify fun b =>
  { b with stack := ⟨b.pos, b.indexes.length⟩ :: b.stack
           buffer := appendByteUnchecked b.buffer type ++ List.replicate 8 0 }

/-- `Builder::addArray`. -/
def addArray (unindexed : Bool) : BuilderM Unit := addCompoundValue (if unindexed then 0x13 else 0x06)

/-- `Builder::addObject`. -/
def addObject (unindexed : Bool) : BuilderM Unit := addCompoundValue (if unindexed then 0x14 else 0x0b)

/-- Head `0x1d` and the pointer, stored as a little-endian machine does. -/
def writeExternal (addr : UInt64) : BuilderM Unit :=
  write fun buf => appendLengthUnchecked 8 (appendByteUnchecked buf 0x1d) addr.toNat

/-- `Builder::appendTag`. Modelled from the spec (§6): `0xee` and one byte, or `0xef` and eight
bytes for a tag above 255. -/
def appendTag (tag : UInt64) : BuilderM Unit :=
  if tag.toNat ≤ 255 then write fun buf => appendLengthUnchecked 1 (appendByte buf 0xee) tag.toNat
  else write fun buf => appendLengthUnchecked 8 (appendByte buf 0xef) tag.toNat

section
variable (opts : Options)

/-! ## `set` -/

/-- `Builder::set(Value)`. Modelled from the spec (§3, §4.1): check the key type, then write
the value's encoding, or open a compound for the `array` and `object` markers. -/
def setValue (v : Value) : BuilderM Unit := do
  checkKeyHasValidType v.isValidKey
  match v with
  | .none => throw .builderUnexpectedType
  | .array unindexed => addArray unindexed
  | .object unindexed => addObject unindexed
  | .external _ =>
    if opts.disallowExternals then throw .builderExternalsDisallowed else write v.appendTo
  | _ => write v.appendTo

/-- Outside an Object, `set` of a scalar value, an external one where externals are allowed,
appends its encoding. -/
theorem setValue_scalar {v : Value} {b : Builder} (hv : v.IsScalar)
    (hx : ∀ addr, v = .external addr → opts.disallowExternals = false) (ho : b.isOpenObject = false) :
    setValue opts v b = .ok () { b with buffer := b.buffer ++ v.encode } := by
  have hw : (write v.appendTo : BuilderM Unit) b = .ok () { b with buffer := b.buffer ++ v.encode } := by
    simp [write, Value.appendTo_eq]
  cases v with
  | none | array _ | object _ => exact hv.elim
  | external addr => simp [setValue, checkKeyHasValidType_of_not_object ho, hx addr rfl, hw]
  | _ => simp [setValue, checkKeyHasValidType_of_not_object ho, hw]

/-- `Builder::set`: a `Value`, a `Slice` (copied verbatim), a `ValuePair` (a string), or a
`Serializable`, which runs `sable.toVelocyPack(*this)` (in `Builder.h`). -/
def set : Item → BuilderM Unit
  | .value v => setValue opts v
  | .slice s => do
    checkKeyHasValidType s.isValidKey
    write (· ++ s.bytes)
  | .pair p => do
    checkKeyHasValidType true
    write (encodeString · p.bytes)
  | .serialize toVelocyPack => toVelocyPack

/-- `Builder::writeValue`. -/
def writeValue (sub : Item) : BuilderM Unit := do
  modify fun b => { b with keyWritten := true }
  set opts sub

/-- `Builder::writeValueTagged`. -/
def writeValueTagged (tag : UInt64) (sub : Item) : BuilderM Unit := do
  modify fun b => { b with keyWritten := true }
  if tag ≠ 0 then appendTag tag
  set opts sub

/-! ## Adding -/

/-- `Builder::addInternal(sub)`, the target of `add(sub)`. -/
def addInternal (sub : Item) : BuilderM Unit := do
  let b ← get
  if b.stack.isEmpty || sub.isSerializable then set opts sub
  else
    if !b.keyWritten then reportAdd
    tryCleanup (set opts sub) cleanupAdd

/-- `Builder::addInternalTagged(tag, sub)`, the target of `addTagged(tag, sub)`. -/
def addInternalTagged (tag : UInt64) (sub : Item) : BuilderM Unit := do
  let b ← get
  if b.stack.isEmpty then
    if tag ≠ 0 then appendTag tag
    set opts sub
  else
    if !b.keyWritten then reportAdd
    tryCleanup (do
        if tag ≠ 0 then appendTag tag
        set opts sub)
      cleanupAdd

/-- The body shared by `addInternal(attrName, sub)` and `addInternalTagged(attrName, tag, sub)`:
report the key in an Object, write the key (translated, or as a string), then `writeSub`. -/
def addInternalKeyed (attrName : List UInt8) (writeSub : BuilderM Unit) : BuilderM Unit := do
  let b ← get
  let haveReported ← if b.stack.isEmpty then pure false else do
      if !b.isOpenObject then throw .builderNeedOpenObject
      if b.keyWritten then throw .builderKeyAlreadyWritten
      reportAdd
      pure true
  tryCleanup (do
      match opts.attributeTranslator.bind (· attrName) with
      | some translated => write (· ++ translated)
      | none => set opts (.pair ⟨attrName⟩)
      writeSub)
    fun b => if haveReported then cleanupAdd b else b

/-- On an empty stack a named add checks nothing: it writes the key, then `writeSub`. -/
theorem addInternalKeyed_empty_stack {attrName : List UInt8} {writeSub : BuilderM Unit}
    {b : Builder} (hs : b.stack = []) (htr : opts.attributeTranslator = none) :
    addInternalKeyed opts attrName writeSub b = writeSub { b with buffer := encodeString b.buffer attrName } := by
  have hse : b.stack.isEmpty = true := by simp [hs]
  simp only [addInternalKeyed, bind_apply, get_apply, hse, if_true, pure_apply, htr,
    Option.none_bind, Bool.false_eq_true, if_false, tryCleanup_id, set, write, modify_apply,
    checkKeyHasValidType_of_not_object (isOpenObject_of_stack_nil hs)]

/-- `Builder::addInternal(attrName, sub)`, the target of `add(attrName, sub)`. -/
def addInternalAttr (attrName : List UInt8) (sub : Item) : BuilderM Unit :=
  addInternalKeyed opts attrName (writeValue opts sub)

/-- `Builder::addInternalTagged(attrName, tag, sub)`, the target of
`addTagged(attrName, tag, sub)`. -/
def addInternalTaggedAttr (attrName : List UInt8) (tag : UInt64) (sub : Item) : BuilderM Unit :=
  addInternalKeyed opts attrName (writeValueTagged opts tag sub)

/-- `Builder::addUnchecked(key, sub)`; its three overloads differ only in the type of `key`. -/
def addUnchecked (key sub : Item) : BuilderM Unit := do
  let b ← get
  let needCleanup := !b.stack.isEmpty
  if needCleanup then reportAdd
  tryCleanup (do
      set opts key
      writeValue opts sub)
    fun b => if needCleanup then cleanupAdd b else b

/-- `Builder::addExternal`. -/
def addExternal (sub : External) : BuilderM Unit := do
  if opts.disallowExternals then throw .builderExternalsDisallowed
  let b ← get
  let haveReported := !b.stack.isEmpty && !b.keyWritten
  if haveReported then reportAdd
  tryCleanup (do
      checkKeyHasValidType sub.target.isValidKey
      writeExternal sub.addr)
    fun b => if haveReported then cleanupAdd b else b

/-! ## Opening and closing -/

/-- `Builder::openCompoundValue`. -/
def openCompoundValue (type : UInt8) : BuilderM Unit := do
  let b ← get
  if b.stack.isEmpty then addCompoundValue type
  else if b.keyWritten then
    modify fun b => { b with keyWritten := false }
    addCompoundValue type
  else
    if !b.isOpenArray then throw .builderNeedOpenArray
    reportAdd
    tryCleanup (addCompoundValue type) cleanupAdd

/-- `Builder::openArray`. -/
def openArray (unindexed : Bool) : BuilderM Unit := openCompoundValue (if unindexed then 0x13 else 0x06)

/-- `Builder::openObject`. -/
def openObject (unindexed : Bool) : BuilderM Unit := openCompoundValue (if unindexed then 0x14 else 0x0b)

end

/-- The children of a frame: its bytes `body` cut at the recorded offsets. -/
def cutAt (body : List UInt8) : List Nat → List (List UInt8)
  | [] => []
  | [o] => [body.drop o]
  | o :: o' :: rest => (body.drop o).take (o' - o) :: cutAt body (o' :: rest)

/-- Where the children `cs` start when they follow one another from `start` on. -/
def childOffsets (start : Nat) : List (List UInt8) → List Nat
  | [] => []
  | c :: cs => start :: childOffsets (start + c.length) cs

theorem childOffsets_concat (s : Nat) (cs : List (List UInt8)) (c : List UInt8) :
    childOffsets s (cs ++ [c]) = childOffsets s cs ++ [s + cs.flatten.length] := by
  induction cs generalizing s with
  | nil => rfl
  | cons d cs ih =>
    simp [childOffsets, ih, Nat.add_assoc]

/-- Cutting the bytes at the children's offsets gives the children back. -/
theorem cutAt_childOffsets (pre : List UInt8) (cs : List (List UInt8)) :
    cutAt (pre ++ cs.flatten) (childOffsets pre.length cs) = cs := by
  induction cs generalizing pre with
  | nil => rfl
  | cons c cs ih =>
    cases cs with
    | nil => simp [childOffsets, cutAt]
    | cons c' cs =>
      have := ih (pre ++ c)
      simp only [List.length_append, List.append_assoc, List.flatten_cons, childOffsets] at this
      simp [childOffsets, cutAt, this]

/-- A layout for closed compounds: from the head written at open time and the children, the
bytes of the sealed value (§4.2). -/
abbrev Sealer := UInt8 → List (List UInt8) → List UInt8

/-- The keys of an Object's members: the scalar each member starts with, as it reads. -/
def memberKeys (members : List (List UInt8)) : List Value :=
  members.filterMap fun m => (readScalar m).map (·.1)

/-- `Builder::checkAttributeUniqueness`. Modelled from the spec (§4.2 step 4, §7): the keys of an
Object's members are all distinct. The source reads them off the finished Object, its argument
being a `Slice`; here they are read off the members it is sealed from. A translator's token
compares as the value it holds, the model having no table back to names. -/
def checkAttributeUniqueness (members : List (List UInt8)) : Bool := decide (memberKeys members).Nodup

/-- Whether `close` reports duplicate keys in a frame: an Object whose members' keys repeat,
where the options ask for the check. -/
def uniquenessFails (opts : Options) (isObject : Bool) (members : List (List UInt8)) : Bool :=
  opts.checkAttributeUniqueness && isObject && !checkAttributeUniqueness members

/-- `Builder::close`. Modelled from the spec (§4.2): seal the innermost frame, replacing its
bytes by `layout head children`, then pop the frame and its offsets. An Object whose keys
repeat, where the options check them, is reported once sealed: the check reads the finished
Object, and `DuplicateAttributeName` leaves the sealed state, consistent (§5) and discardable
(E6). -/
def close (opts : Options) (layout : Sealer) : BuilderM Unit := fun b =>
  match b.stack with
  | [] => .error .builderNeedOpenCompound b
  | c :: rest =>
    let children := cutAt (b.buffer.drop c.startPos) (b.indexes.drop c.indexStartPos)
    let sealed : Builder :=
      { b with buffer := b.buffer.take c.startPos ++ layout (b.buffer.getD c.startPos 0) children
               stack := rest
               indexes := b.indexes.take c.indexStartPos }
    if uniquenessFails opts b.isOpenObject children then .error .duplicateAttributeName sealed
    else .ok () sealed

/-- `Builder::clear`. -/
def clear : BuilderM Unit := modify fun _ => empty

/-! ## Public operations -/

/-- The public calls of the builder's add, open and close paths. -/
inductive Op where
  | openArray (unindexed : Bool)
  | openObject (unindexed : Bool)
  | add (sub : Item)
  | addAttr (attrName : List UInt8) (sub : Item)
  | addTagged (tag : UInt64) (sub : Item)
  | addTaggedAttr (attrName : List UInt8) (tag : UInt64) (sub : Item)
  | addUnchecked (key sub : Item)
  | addExternal (sub : External)
  | close
  | clear

/-- One public call: each overload of `add` and `addTagged` forwards to its `addInternal`. -/
def exec (opts : Options) (layout : Sealer) : Op → BuilderM Unit
  | .openArray unindexed => openArray unindexed
  | .openObject unindexed => openObject unindexed
  | .add sub => addInternal opts sub
  | .addAttr attrName sub => addInternalAttr opts attrName sub
  | .addTagged tag sub => addInternalTagged opts tag sub
  | .addTaggedAttr attrName tag sub => addInternalTaggedAttr opts attrName tag sub
  | .addUnchecked key sub => addUnchecked opts key sub
  | .addExternal sub => addExternal opts sub
  | .close => close opts layout
  | .clear => clear

/-- The state a call leaves, whether it returned or threw. -/
def after : EStateM.Result ExceptionType Builder Unit → Builder
  | .ok _ b => b
  | .error _ b => b

/-- A caller's script: each call either returns or throws an exception the caller catches. -/
def run (opts : Options) (layout : Sealer) : List Op → Builder → Builder
  | [], b => b
  | op :: ops, b => run opts layout ops (after (exec opts layout op b))

/-- A script whose calls all return leaves, caught or not, the state it ends in. -/
theorem run_of_forM {opts : Options} {layout : Sealer} {ops : List Op} {b b' : Builder}
    (h : forM ops (exec opts layout) b = .ok () b') : run opts layout ops b = b' := by
  induction ops generalizing b with
  | nil =>
    simp only [List.forM_nil] at h
    cases h
    rfl
  | cons op ops ih =>
    simp only [List.forM_cons, bind_apply] at h
    split at h
    · rename_i hop
      simp only [run, hop, after]
      exact ih h
    · cases h

/-- The uniqueness check decides only whether `close` throws, never the state it leaves. -/
theorem after_close (opts opts' : Options) (layout : Sealer) (b : Builder) :
    after (close opts layout b) = after (close opts' layout b) := by
  unfold close
  split
  · rfl
  · dsimp only
    split <;> split <;> rfl

/-- Without the uniqueness check, every script leaves the state it leaves with it. -/
theorem run_uncheck (opts : Options) (layout : Sealer) (ops : List Op) (b : Builder) :
    run opts layout ops b = run { opts with checkAttributeUniqueness := false } layout ops b := by
  induction ops generalizing b with
  | nil => rfl
  | cons op ops ih =>
    have h : after (exec opts layout op b) =
        after (exec { opts with checkAttributeUniqueness := false } layout op b) := by
      cases op
      case close => exact after_close _ _ layout b
      all_goals rfl
    simp only [run, h, ih]

end Builder

end VelocyPack
