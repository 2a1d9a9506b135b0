import VelocyPack.Builder.Document

/-!
# The builder refines the document

Each primitive of `Builder.h`, run on the builder of a document, gives the builder of a changed
document; from these, each public call does to `d.builder` what `Doc.step` does to `d`.

* `set_pending`, `set_top` — `set` after the key check, where the innermost frame has a child in
  progress, and on an empty stack;
* `reportAround_refines` — the add path `addInternal`, `addInternalTagged` and `addExternal`
  share (`addInternal_eq`, `addInternalTagged_eq`, `addExternal_eq`);
* `step_refines` — one call within the contract: `exec` returns what `Doc.step` says, on the
  builder of the new document, or throws with the builder unchanged;
* `builder_run`, `builder_runOk`, `run_refines` — whole scripts within the contract: their
  exceptions caught, or all of their calls returning.
-/

namespace VelocyPack

namespace Builder

theorem write_appendTo (v : Value) : write v.appendTo = write (· ++ v.encode) := by
  simp only [write, Value.appendTo_eq]

/-- `set` is the key check, then the argument's piece. -/
theorem set_eq {opts : Options} {x : Item} {p : Piece} (h : x.piece opts = some p) :
    set opts x = p.set := by
  cases x with
  | value v =>
    cases v <;> simp only [Item.piece, Option.some.injEq] at h <;> subst h <;>
      simp only [set, setValue, Piece.set, Piece.isKey, Piece.act, write_appendTo, Value.isValidKey,
        addArray, addObject]
    case external => split <;> rfl
  | slice s => cases h; rfl
  | pair q =>
    cases h
    obtain ⟨e, he⟩ : ∃ e, e = encodeString [] q.bytes := ⟨_, rfl⟩
    have h : ∀ buf, encodeString buf q.bytes = buf ++ e := fun buf => by
      simpa [he] using encodeString_append buf [] q.bytes
    rw [← he]
    simp only [set, Piece.set, Piece.act, Piece.isKey, write, h]
  | serialize _ => cases h

end Builder

namespace Document

open Builder

/-! ## The primitives on a frame

Each primitive of `Builder.h`, run on a builder whose innermost frame is `f`, gives the builder
of a changed frame. -/

namespace Frame

variable (f : Frame) (kw : Bool) (b : Builder)

@[simp] theorem extend_keyWritten : (f.extend kw b).keyWritten = kw := rfl

theorem extend_stack : (f.extend kw b).stack = ⟨b.pos, b.indexes.length⟩ :: b.stack := rfl

@[simp] theorem extend_stack_ne_nil : (f.extend kw b).stack ≠ [] := List.cons_ne_nil _ _

@[simp] theorem extend_stack_isEmpty : (f.extend kw b).stack.isEmpty = false := rfl

@[simp] theorem setKeyWritten_extend (kw' : Bool) :
    ({ f.extend kw b with keyWritten := kw' } : Builder) = f.extend kw' b := rfl

theorem topHead?_extend : (f.extend kw b).topHead? = some f.head := by
  simp only [topHead?, extend, List.head?_cons, Option.map_some', Option.some.injEq, pos]
  rw [List.getD_eq_getElem?_getD, List.getElem?_append_right (le_refl _), Nat.sub_self]
  rfl

@[simp] theorem isOpenObject_extend : (f.extend kw b).isOpenObject = f.isObject := by
  simp [isOpenObject, topHead?_extend, isObject]

@[simp] theorem isOpenArray_extend : (f.extend kw b).isOpenArray = f.isArray := by
  simp [isOpenArray, topHead?_extend, isArray]

variable {f}

theorem reportAdd_extend (h : f.pending = none) :
    reportAdd (f.extend kw b) = .ok () ({ f with pending := some [] }.extend kw b) := by
  simp [reportAdd, extend, bytes, entries, h, pos]
  omega

theorem write_pending (part c : List UInt8) :
    write (· ++ c) ({ f with pending := some part }.extend kw b) =
      .ok () ({ f with pending := some (part ++ c) }.extend kw b) := by
  simp [write, extend, bytes, entries]

theorem cleanupAdd_pending :
    cleanupAdd ({ f with pending := some [] }.extend kw b) = { f with pending := none }.extend kw b := by
  simp [cleanupAdd, extend, bytes, entries]

theorem checkKeyHasValidType_extend (k : Bool) :
    checkKeyHasValidType k (f.extend kw b) =
      if f.isObject then
        if !kw && !k then .error .builderKeyMustBeString (f.extend kw b) else .ok () (f.extend (!kw) b)
      else .ok () (f.extend kw b) := by
  simp only [checkKeyHasValidType, isOpenObject_extend, extend_keyWritten, setKeyWritten_extend]

/-- A child in progress that is complete is a child. -/
theorem pending_complete (part : List UInt8) :
    { f with pending := some part }.extend kw b = { f with done := f.done ++ [part], pending := none }.extend kw b := by
  simp [extend, bytes, entries, childOffsets_concat]

end Frame

theorem addCompoundValue_eq (h : UInt8) (b : Builder) :
    addCompoundValue h b = .ok () ((⟨h, [], none⟩ : Frame).extend b.keyWritten b) := by
  simp [addCompoundValue, Frame.extend, Frame.bytes, Frame.entries, appendByteUnchecked, childOffsets]

/-! ## `set` on a document's builder -/

theorem write_nil_bind (m : BuilderM α) : (write (· ++ []) >>= fun _ => m) = m := by
  funext b
  simp [write]

/-- `set` in the innermost frame, after the bytes `pre`, when the frame has a child in progress
`part`: the key check reads the frame's kind and the flag, then the piece acts. -/
theorem set_pending (p : Piece) (g : Frame) (part pre : List UInt8) (kw : Bool) (q : Builder) :
    (write (· ++ pre) >>= fun _ => p.set) ({ g with pending := some part }.extend kw q) =
      if g.isObject && !kw && !p.isKey then
        .error .builderKeyMustBeString ({ g with pending := some (part ++ pre) }.extend kw q)
      else p.act ({ g with pending := some (part ++ pre) }.extend (if g.isObject then !kw else kw) q) := by
  simp only [bind_apply, Frame.write_pending, Piece.set, Frame.checkKeyHasValidType_extend,
    Frame.isObject_setPending]
  by_cases hg : g.isObject <;> by_cases hk : p.isKey <;> cases kw <;> simp [hg, hk]

/-- `set` on an empty stack, after the bytes `pre`: no key check, then the piece acts. -/
theorem set_top (p : Piece) (top pre : List UInt8) :
    (write (· ++ pre) >>= fun _ => p.set) ⟨top, [], [], false⟩ = p.act ⟨top ++ pre, [], [], false⟩ := by
  simp [Piece.set, write, checkKeyHasValidType, isOpenObject, topHead?]

/-- A piece acting on a frame's child in progress. -/
theorem act_pending (p : Piece) (g : Frame) (part : List UInt8) (kw : Bool) (q : Builder) :
    p.act ({ g with pending := some part }.extend kw q) =
      match p with
      | .complete c _ => .ok () ({ g with pending := some (part ++ c) }.extend kw q)
      | .opens h => .ok () ((⟨h, [], none⟩ : Frame).extend kw ({ g with pending := some part }.extend kw q))
      | .fails e => .error e ({ g with pending := some part }.extend kw q) := by
  cases p <;> simp [Piece.act, Frame.write_pending, addCompoundValue_eq]

/-! ## The builder refines the document -/

/-- The builder result a document step stands for, from the builder of `d`. -/
def resultOf (d : Doc) : Except ExceptionType Doc → EStateM.Result ExceptionType Builder Unit
  | .ok d' => .ok () d'.builder
  | .error e => .error e d.builder

/-- The shape `addInternal`, `addInternalTagged` and `addExternal` share: on an empty stack the
body alone; otherwise report the child unless a key waits for its value, and pop the report if
the body throws. -/
def reportAround (body : BuilderM Unit) : BuilderM Unit := fun b =>
  if b.stack = [] then body b
  else ((if b.keyWritten then pure () else reportAdd) >>= fun _ => tryCleanup body cleanupAdd) b

@[simp] theorem builder_cons_stack_ne_nil (top : List UInt8) (f : Frame) (rest : List Frame) :
    (⟨top, f :: rest⟩ : Doc).builder.stack ≠ [] := List.cons_ne_nil _ _

@[simp] theorem builder_cons_keyWritten (top : List UInt8) (f : Frame) (rest : List Frame) :
    (⟨top, f :: rest⟩ : Doc).builder.keyWritten = f.keyWritten := rfl

@[simp] theorem builder_cons_isOpenObject (top : List UInt8) (f : Frame) (rest : List Frame) :
    (⟨top, f :: rest⟩ : Doc).builder.isOpenObject = f.isObject :=
  Frame.isOpenObject_extend f _ _

@[simp] theorem builder_cons_isOpenArray (top : List UInt8) (f : Frame) (rest : List Frame) :
    (⟨top, f :: rest⟩ : Doc).builder.isOpenArray = f.isArray :=
  Frame.isOpenArray_extend f _ _

/-- `openCompound` is what `openCompoundValue` does to the builder of a document. -/
theorem openCompound_refines {h : UInt8} {d : Doc} {r : Except ExceptionType Doc}
    (hs : d.openCompound h = some r) : openCompoundValue h d.builder = resultOf d r := by
  rcases d with ⟨top, _ | ⟨f, rest⟩⟩
  · simp only [Doc.openCompound, Option.some.injEq] at hs
    subst hs
    simp [openCompoundValue, Doc.builder, addCompoundValue_eq, resultOf, Doc.openAtTop, below]
  · rcases hk : f.keyWritten with _ | _
    · rcases hp : f.pending with _ | k
      · by_cases ha : f.isArray
        · simp only [Doc.openCompound, hk, hp, ha, if_true, Option.some.injEq] at hs
          subst hs
          simp [openCompoundValue, Doc.builder, hk, ha, Frame.reportAdd_extend _ _ hp, tryCleanup,
            addCompoundValue_eq, resultOf, Doc.openIn, below]
        · simp only [Doc.openCompound, hk, hp, ha, Bool.false_eq_true, if_false, Option.some.injEq] at hs
          subst hs
          simp [openCompoundValue, Doc.builder, hk, ha, resultOf]
      · simp [Doc.openCompound, hk, hp] at hs
    · obtain ⟨k, hp⟩ := Frame.pending_of_keyWritten hk
      simp only [Doc.openCompound, hk, hp, Option.some.injEq] at hs
      subst hs
      simp [openCompoundValue, Doc.builder, hk, addCompoundValue_eq, resultOf, Doc.openIn, below,
        Frame.with_pending hp]

/-- Where a key waits for its value, the body completes the key's child or opens the value. -/
theorem body_keyed {pre : List UInt8} {p : Piece} {top : List UInt8} {f : Frame} {rest : List Frame}
    {d' : Doc} (hk : f.keyWritten = true) (hs : Doc.addItem pre p ⟨top, f :: rest⟩ = some (.ok d')) :
    (write (· ++ pre) >>= fun _ => p.set) (⟨top, f :: rest⟩ : Doc).builder = .ok () d'.builder := by
  obtain ⟨k, hp⟩ := Frame.pending_of_keyWritten hk
  have hset := set_pending p f k pre true (below top rest)
  rw [Frame.with_pending hp] at hset
  simp only [Doc.builder, hk, hset, Frame.isObject_of_keyWritten hk, Bool.not_true, Bool.false_and,
    Bool.and_false, Bool.false_eq_true, if_false, if_true, act_pending]
  rcases p with ⟨c, _⟩ | h | e <;> simp [Doc.addItem, hk, hp] at hs <;> subst hs
  · simp [Doc.completeIn, Doc.builder, Frame.pending_complete]
  · simp [Doc.openIn, Doc.builder, below]

/-- `addItem` is what the shared add path does to the builder of a document. -/
theorem reportAround_refines {pre : List UInt8} {p : Piece} {d : Doc} {r : Except ExceptionType Doc}
    (hs : d.addItem pre p = some r) :
    reportAround (write (· ++ pre) >>= fun _ => p.set) d.builder = resultOf d r := by
  rcases d with ⟨top, _ | ⟨f, rest⟩⟩
  · -- an empty stack: the body alone
    simp only [reportAround, Doc.builder, if_true, set_top]
    rcases p with ⟨c, _⟩ | h | e <;> simp [Doc.addItem] at hs
    · subst hs; simp [Piece.act, write, resultOf, Doc.builder]
    · subst hs; simp [Piece.act, addCompoundValue_eq, resultOf, Doc.builder, Doc.openAtTop, below]
    · obtain ⟨rfl, rfl⟩ := hs; simp [Piece.act, resultOf, Doc.builder]
  rcases hk : f.keyWritten with _ | _
  · rcases hp : f.pending with _ | k
    · -- nothing in progress: report, then the body in the reported child
      have hb : (⟨top, f :: rest⟩ : Doc).builder = f.extend false (below top rest) := by
        simp [Doc.builder, hk]
      have hset := set_pending p f [] pre false (below top rest)
      simp only [reportAround, hb, Frame.extend_stack_ne_nil, Frame.extend_keyWritten,
        Bool.false_eq_true, ↓reduceIte]
      rw [bind_of_ok (Frame.reportAdd_extend _ _ hp)]
      simp only [tryCleanup, hset, Frame.isObject_setPending]
      by_cases ho : f.isObject
      · -- an Object's key position
        rcases p with ⟨c, _ | _⟩ | h | e <;> simp [Doc.addItem, hk, hp, ho] at hs
        all_goals
          obtain ⟨rfl, rfl⟩ := hs
          simp [ho, Piece.isKey, act_pending, resultOf, Doc.builder, hk, Frame.cleanupAdd_pending,
            Frame.with_pending hp]
      · by_cases ha : f.isArray
        · -- an Array: the body writes one more child
          rcases p with ⟨c, _⟩ | h | e <;> simp [Doc.addItem, hk, hp, ho, ha] at hs
          all_goals
            obtain ⟨rfl, rfl⟩ := hs
            simp [ho, Piece.isKey, act_pending, resultOf, Doc.builder, hk, Frame.cleanupAdd_pending,
              Frame.with_pending hp, Doc.completeIn, Doc.openIn, below] <;>
            simp only [Frame.pending_complete]
        · simp [Doc.addItem, hk, hp, ho, ha] at hs
    · simp [Doc.addItem, hk, hp] at hs
  · -- a key waits for its value: no report
    rcases r with e | d'
    · obtain ⟨k, hp⟩ := Frame.pending_of_keyWritten hk
      rcases p with ⟨c, _⟩ | h | e <;> simp [Doc.addItem, hk, hp] at hs
    · simp only [reportAround, builder_cons_stack_ne_nil, builder_cons_keyWritten, hk, ↓reduceIte,
        bind_apply, pure_apply, tryCleanup_of_ok _ (body_keyed hk hs), resultOf]

/-! ## Each add path is the shared one -/

theorem isSerializable_of_piece {opts : Options} {x : Item} {p : Piece} (hx : x.piece opts = some p) :
    x.isSerializable = false := by
  cases x <;> simp_all [Item.piece, Item.isSerializable]

theorem addInternal_eq {opts : Options} {x : Item} {p : Piece} (hx : x.piece opts = some p) :
    addInternal opts x = reportAround (write (· ++ []) >>= fun _ => p.set) := by
  funext b
  rw [write_nil_bind, ← set_eq hx]
  by_cases hs : b.stack = [] <;> cases hk : b.keyWritten <;>
    simp [addInternal, reportAround, hs, hk, isSerializable_of_piece hx]

theorem appendTag_eq {tag : UInt64} (h : tag ≠ 0) : appendTag tag = write (· ++ tagBytes tag) := by
  have hw : ∀ (n : Nat) (hd : UInt8) (buf : List UInt8),
      appendLengthUnchecked n (appendByte buf hd) tag.toNat = buf ++ appendLengthUnchecked n [hd] tag.toNat :=
    fun n hd buf => by simpa [appendByte, appendByteUnchecked] using appendLengthUnchecked_append n buf [hd] tag.toNat
  unfold appendTag tagBytes
  split <;> simp [h, hw, *]

/-- The tag prefix of the tagged adds, as one write. -/
theorem tagged_eq (tag : UInt64) (m : BuilderM α) :
    (if tag = 0 then m else (appendTag tag >>= fun _ => m)) = (write (· ++ tagBytes tag) >>= fun _ => m) := by
  by_cases h : tag = 0
  · simp only [h, tagBytes, ↓reduceIte, write_nil_bind]
  · simp [h, appendTag_eq h]

theorem addInternalTagged_eq {opts : Options} {x : Item} {p : Piece} (hx : x.piece opts = some p) (tag : UInt64) :
    addInternalTagged opts tag x = reportAround (write (· ++ tagBytes tag) >>= fun _ => p.set) := by
  funext b
  rw [← set_eq hx, ← tagged_eq]
  by_cases hs : b.stack = [] <;> cases hk : b.keyWritten <;>
    simp [addInternalTagged, reportAround, hs, hk]

theorem writeExternal_eq (addr : UInt64) : writeExternal addr = write (· ++ (Value.external addr).encode) := by
  simp only [writeExternal, Value.encode, Value.appendTo, appendByteUnchecked, write]
  congr
  funext b
  simpa using appendLengthUnchecked_append 8 b.buffer [0x1d] addr.toNat

theorem addExternal_eq {opts : Options} (sub : External) (hd : opts.disallowExternals = false) :
    addExternal opts sub = reportAround (write (· ++ []) >>=
      fun _ => (Piece.complete (Value.external sub.addr).encode sub.target.isValidKey).set) := by
  funext b
  rw [write_nil_bind]
  by_cases hs : b.stack = [] <;> cases hk : b.keyWritten <;>
    simp [addExternal, reportAround, hs, hk, hd, Piece.set, Piece.act, Piece.isKey, writeExternal_eq]
  all_goals
    simp only [tryCleanup, bind_apply, checkKeyHasValidType_of_keyWritten hk]
    split <;> rfl

/-! ## Named adds, `addUnchecked`, `close` -/

/-- The flag `writeValue` sets before the value. -/
def markKey : BuilderM Unit := modify fun b => { b with keyWritten := true }

theorem writeValue_eq {opts : Options} {x : Item} {p : Piece} (hx : x.piece opts = some p) :
    writeValue opts x = (markKey >>= fun _ => write (· ++ []) >>= fun _ => p.set) := by
  rw [write_nil_bind, ← set_eq hx]
  rfl

theorem writeValueTagged_eq {opts : Options} {x : Item} {p : Piece} (hx : x.piece opts = some p) (tag : UInt64) :
    writeValueTagged opts tag x = (markKey >>= fun _ => write (· ++ tagBytes tag) >>= fun _ => p.set) := by
  rw [← set_eq hx, ← tagged_eq]
  simp [writeValueTagged, markKey]

/-- In an Object's key position, once the key `key` is written, the value goes where a key's
value goes, whatever the flag was. -/
theorem named_tail {pre : List UInt8} {p : Piece} {top : List UInt8} {f : Frame} {rest : List Frame}
    {key : List UInt8} {d' : Doc} (ho : f.isObject = true)
    (hs : Doc.addItem pre p ⟨top, { f with pending := some key } :: rest⟩ = some (.ok d')) (kw : Bool) :
    (markKey >>= fun _ => write (· ++ pre) >>= fun _ => p.set)
      ({ f with pending := some key }.extend kw (below top rest)) = .ok () d'.builder := by
  have := body_keyed (by simp [ho]) hs
  simp only [Doc.builder, Frame.keyWritten_pending_some, ho] at this
  simp only [bind_apply, markKey, modify_apply, Frame.setKeyWritten_extend]
  simpa only [bind_apply] using this

theorem addNamed_ok {key pre : List UInt8} {p : Piece} {top : List UInt8} {f : Frame}
    {rest : List Frame} {r : Except ExceptionType Doc} (ho : f.isObject = true) (hk : f.keyWritten = false)
    (hs : Doc.addNamed key pre p ⟨top, f :: rest⟩ = some r) :
    ∃ d', Doc.addItem pre p ⟨top, { f with pending := some key } :: rest⟩ = some (.ok d') ∧ r = .ok d' := by
  simp only [Doc.addNamed, ho, hk, Bool.not_true, Bool.false_eq_true, if_false] at hs
  split at hs
  · exact ⟨_, ‹_›, (Option.some.inj hs).symm⟩
  · cases hs

theorem addNamed_refines {opts : Options} {attrName pre : List UInt8} {p : Piece} {d : Doc}
    {r : Except ExceptionType Doc} (hs : d.addNamed (Doc.keyBytes opts attrName) pre p = some r) :
    addInternalKeyed opts attrName (markKey >>= fun _ => write (· ++ pre) >>= fun _ => p.set) d.builder =
      resultOf d r := by
  rcases d with ⟨top, _ | ⟨f, rest⟩⟩
  · simp [Doc.addNamed] at hs
  have hse : (⟨top, f :: rest⟩ : Doc).builder.stack.isEmpty = false := by simp [Doc.builder]
  by_cases ho : f.isObject
  · rcases hk : f.keyWritten with _ | _
    · have hp := Frame.pending_of_not_keyWritten hk ho
      obtain ⟨d', hd', rfl⟩ := addNamed_ok ho hk hs
      have hb : (⟨top, f :: rest⟩ : Doc).builder = f.extend false (below top rest) := by
        simp [Doc.builder, hk]
      rw [hb]
      simp only [addInternalKeyed, bind_apply, get_apply, Frame.extend_stack_isEmpty, ho, hk,
        Frame.isOpenObject_extend, Frame.extend_keyWritten, Bool.not_true, Bool.false_eq_true,
        ↓reduceIte, Frame.reportAdd_extend _ _ hp, pure_apply]
      rcases htr : opts.attributeTranslator.bind (· attrName) with _ | t
      · have hkey := set_pending (Piece.complete (encodeString [] attrName) true) f [] [] false (below top rest)
        rw [write_nil_bind, ← @set_eq opts (.pair ⟨attrName⟩) _ rfl] at hkey
        have htail := named_tail ho (by simpa [Doc.keyBytes, htr] using hd') true
        simp only [bind_apply] at htail
        simp [tryCleanup, hkey, ho, Piece.isKey, act_pending, htail, resultOf]
      · have htail := named_tail ho (by simpa [Doc.keyBytes, htr] using hd') false
        simp only [bind_apply] at htail
        simp [tryCleanup, Frame.write_pending, htail, resultOf]
    · simp [Doc.addNamed, ho, hk] at hs
      subst hs
      simp [addInternalKeyed, hse, ho, hk, resultOf]
  · simp [Doc.addNamed, ho] at hs
    subst hs
    simp [addInternalKeyed, hse, ho, resultOf]

theorem addUnchecked_refines {opts : Options} {key sub : Item} {kp p : Piece}
    (hkp : key.piece opts = some kp) (hx : sub.piece opts = some p) {d : Doc}
    {r : Except ExceptionType Doc} (hs : d.addUnchecked kp p = some r) :
    addUnchecked opts key sub d.builder = resultOf d r := by
  rcases d with ⟨top, _ | ⟨f, rest⟩⟩
  · simp [Doc.addUnchecked] at hs
  by_cases hok : f.isObject && !f.keyWritten
  · have ho : f.isObject = true := by simp_all
    have hk : f.keyWritten = false := by simp_all
    have hp := Frame.pending_of_not_keyWritten hk ho
    have hb : (⟨top, f :: rest⟩ : Doc).builder = f.extend false (below top rest) := by
      simp [Doc.builder, hk]
    have hkey := set_pending kp f [] [] false (below top rest)
    rw [write_nil_bind, ← set_eq hkp] at hkey
    rw [hb]
    simp only [addUnchecked, bind_apply, get_apply, Frame.extend_stack_isEmpty, Bool.not_false,
      ↓reduceIte, Frame.reportAdd_extend _ _ hp, tryCleanup, hkey, ho, Bool.not_false]
    rcases kp with ⟨k, _ | _⟩ | h | e <;> simp only [Doc.addUnchecked, hok, ↓reduceIte] at hs
    pick_goal 2
    · -- a key: the value goes where the key's value goes
      obtain ⟨d', hd', rfl⟩ := addNamed_ok ho hk hs
      have htail := named_tail ho hd' true
      simp only [bind_apply, List.append_nil] at htail
      simp [Piece.isKey, act_pending, writeValue_eq hx, htail, resultOf]
    all_goals
      simp only [Option.some.injEq] at hs
      subst hs
      simp [Piece.isKey, resultOf, Doc.builder, hk, Frame.cleanupAdd_pending, Frame.with_pending hp]
  · simp [Doc.addUnchecked, hok] at hs

/-- `close` on a frame with nothing in progress seals its children, as `addInternal` recorded
them, and leaves the builder below with the sealed bytes appended; an Object whose keys repeat,
where the options check them, is reported on that same state (§4.2 step 4). -/
theorem close_extend (opts : Options) (layout : Sealer) {f : Frame} (hp : f.pending = none)
    (kw : Bool) (q : Builder) :
    close opts layout (f.extend kw q) =
      if uniquenessFails opts f.isObject f.done then
        .error .duplicateAttributeName { q with buffer := q.buffer ++ layout f.head f.done, keyWritten := kw }
      else .ok () { q with buffer := q.buffer ++ layout f.head f.done, keyWritten := kw } := by
  have hcut := cutAt_childOffsets (f.head :: List.replicate 8 0) f.done
  have hhead : (f.extend kw q).buffer.getD q.pos 0 = f.head := by
    simpa [topHead?, Frame.extend_stack] using Frame.topHead?_extend f kw q
  have hchildren : cutAt ((f.extend kw q).buffer.drop q.pos)
      ((f.extend kw q).indexes.drop q.indexes.length) = f.done := by
    simpa [Frame.extend, Frame.bytes, Frame.entries, hp, pos] using hcut
  simp only [close, Frame.extend_stack, hhead, hchildren, Frame.isOpenObject_extend]
  simp [Frame.extend, pos]

/-- E6: `{"a": 1, "a": 2}` where the options check attribute uniqueness. -/
example : exec { checkAttributeUniqueness := true } (fun h cs => h :: cs.flatten) .close
    (run { checkAttributeUniqueness := true } (fun h cs => h :: cs.flatten)
      [.openObject false, .addAttr [0x61] (.value (.int ⟨1, by decide, by decide⟩)),
        .addAttr [0x61] (.value (.int ⟨2, by decide, by decide⟩))] empty) =
    .error .duplicateAttributeName ⟨[0x0b, 0x41, 0x61, 0x31, 0x41, 0x61, 0x32], [], [], false⟩ := rfl

theorem close_refines (opts : Options) (layout : Sealer) {d : Doc} {r : Except ExceptionType Doc}
    (hs : d.close opts layout = some r) : close opts layout d.builder = resultOf d r := by
  rcases d with ⟨top, _ | ⟨f, _ | ⟨g, rest⟩⟩⟩
  · simp only [Doc.close, Option.some.injEq] at hs
    subst hs
    rfl
  · rcases hp : f.pending with _ | k <;> rcases hu : uniquenessFails opts f.isObject f.done <;>
      simp [Doc.close, hp, hu] at hs
    subst hs
    simp [Doc.builder, close_extend opts layout hp, hu, resultOf, below, Frame.keyWritten, hp]
  · rcases hp : f.pending with _ | k <;> rcases hq : g.pending with _ | part <;>
      rcases hu : uniquenessFails opts f.isObject f.done <;> simp [Doc.close, hp, hq, hu] at hs
    subst hs
    have hg : ({ g.extend false (below top rest) with
        buffer := (g.extend false (below top rest)).buffer ++ layout f.head f.done, keyWritten := false } : Builder) =
        { g with pending := some (part ++ layout f.head f.done) }.extend false (below top rest) := by
      simp [Frame.extend, Frame.bytes, Frame.entries, hq]
    simp [Doc.builder, close_extend opts layout hp, hu, resultOf, below, Frame.keyWritten, hp, hg,
      Doc.completeIn, Frame.pending_complete]

/-- **The builder refines the document.** Each public call within the contract does to the
builder of a document what `Doc.step` does to the document: returns with the builder of the
new document, or throws with the builder unchanged. -/
theorem step_refines (opts : Options) (layout : Sealer) (d : Doc) (op : Op)
    (r : Except ExceptionType Doc) (hs : d.step opts layout op = some r) :
    exec opts layout op d.builder = resultOf d r := by
  cases op with
  | openArray _ | openObject _ => exact openCompound_refines hs
  | add sub =>
    obtain ⟨p, hx, hs⟩ := Option.bind_eq_some.mp hs
    rw [exec, addInternal_eq hx]
    exact reportAround_refines hs
  | addTagged tag sub =>
    obtain ⟨p, hx, hs⟩ := Option.bind_eq_some.mp hs
    rw [exec, addInternalTagged_eq hx]
    exact reportAround_refines hs
  | addAttr attrName sub =>
    obtain ⟨p, hx, hs⟩ := Option.bind_eq_some.mp hs
    rw [exec, addInternalAttr, writeValue_eq hx]
    exact addNamed_refines hs
  | addTaggedAttr attrName tag sub =>
    obtain ⟨p, hx, hs⟩ := Option.bind_eq_some.mp hs
    rw [exec, addInternalTaggedAttr, writeValueTagged_eq hx]
    exact addNamed_refines hs
  | addUnchecked key sub =>
    obtain ⟨kp, hkp, hs⟩ := Option.bind_eq_some.mp hs
    obtain ⟨p, hx, hs⟩ := Option.bind_eq_some.mp hs
    exact addUnchecked_refines hkp hx hs
  | addExternal sub =>
    cases hd : opts.disallowExternals
    · simp only [Doc.step, hd, Bool.false_eq_true, ↓reduceIte] at hs
      rw [exec, addExternal_eq sub hd]
      exact reportAround_refines hs
    · simp only [Doc.step, hd, ↓reduceIte, Option.some.injEq] at hs
      subst hs
      simp [exec, addExternal, hd, resultOf]
  | close => exact close_refines opts layout hs
  | clear =>
    simp only [Doc.step, Option.some.injEq] at hs
    subst hs
    rfl

/-- A script within the contract, run on the builder of a document, leaves the builder of the
document the script makes: `step_refines`, call after call. -/
theorem builder_run (opts : Options) (layout : Sealer) (ops : List Op) (d d' : Doc)
    (h : Doc.run opts layout ops d = some d') : run opts layout ops d.builder = d'.builder := by
  induction ops generalizing d with
  | nil =>
    simp only [Doc.run, Option.some.injEq] at h
    subst h
    rfl
  | cons op ops ih =>
    simp only [Doc.run] at h
    rcases hs : d.step opts layout op with _ | _ | d1 <;> rw [hs] at h
    · cases h
    · simp only [run, step_refines opts layout d op _ hs, resultOf, after]
      exact ih d h
    · simp only [run, step_refines opts layout d op _ hs, resultOf, after]
      exact ih d1 h

/-- A script all of whose calls return in the document returns at every call on the builder of
the document, and ends on the builder of the document the script makes. -/
theorem builder_runOk (opts : Options) (layout : Sealer) (ops : List Op) (d d' : Doc)
    (h : Doc.runOk opts layout ops d = some d') : forM ops (exec opts layout) d.builder = .ok () d'.builder := by
  induction ops generalizing d with
  | nil =>
    simp only [Doc.runOk, Option.some.injEq] at h
    subst h
    rfl
  | cons op ops ih =>
    simp only [Doc.runOk] at h
    split at h
    · rename_i d1 hs
      simp only [List.forM_cons, bind_apply, step_refines opts layout d op _ hs, resultOf]
      exact ih d1 h
    · cases h

/-- **Scripts.** Each call within the contract does to the builder of a document what `Doc.step`
does to the document; a script within the contract, its exceptions caught, run on the builder of
a document leaves the builder of the document the script makes; and a script all of whose calls
return in the document returns at every call on the builder. -/
theorem run_refines (opts : Options) (layout : Sealer) :
    (∀ (d : Doc) (op : Op) (r : Except ExceptionType Doc), d.step opts layout op = some r →
      exec opts layout op d.builder = resultOf d r) ∧
    (∀ (ops : List Op) (d d' : Doc), Doc.run opts layout ops d = some d' →
      run opts layout ops d.builder = d'.builder) ∧
    ∀ (ops : List Op) (d d' : Doc), Doc.runOk opts layout ops d = some d' →
      forM ops (exec opts layout) d.builder = .ok () d'.builder :=
  ⟨step_refines opts layout, builder_run opts layout, builder_runOk opts layout⟩

theorem run_refines_nested_script :
    let ops : List Op := [.openObject false, .addAttr [0x61] (.value (.array false)),
      .add (.value .null), .add (.value .none), .close, .close]
    Doc.run Options.defaults (fun h cs => h :: cs.flatten) ops ⟨[], []⟩ =
        some ⟨[0x0b, 0x41, 0x61, 0x06, 0x18], []⟩ ∧
      run Options.defaults (fun h cs => h :: cs.flatten) ops empty =
        ⟨[0x0b, 0x41, 0x61, 0x06, 0x18], [], [], false⟩ :=
  ⟨rfl, (run_refines Options.defaults (fun h cs => h :: cs.flatten)).2.1 _ ⟨[], []⟩
    ⟨[0x0b, 0x41, 0x61, 0x06, 0x18], []⟩ rfl⟩

end Document

end VelocyPack
