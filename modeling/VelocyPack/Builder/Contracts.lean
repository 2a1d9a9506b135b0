import VelocyPack.Builder.Methods

/-!
# Builder contracts: tags, failed calls, and the key flag

What the add and open paths of `Builder.h` promise, and where they do not keep it.

* `addTaggedAttr_zero`, `addTagged_zero` — `addTagged(…, 0, x)` is `add(…, x)`, except for a
  `Serializable` without an attribute name, which `addInternalTagged` reports once more
  (`addTagged_zero_reports_serializer_twice`);
* `refused_unchanged` — a call refused by one of its checks leaves the state as it was;
  a failure once writing has begun does not (`failed_adds_keep_partial_writes`);
* `addInternalAttr_empty_stack` — on an empty stack, `add(name, v)` writes two top-level values
  and leaves `_keyWritten` set, so a later Array does not index its next child
  (`named_add_on_empty_stack_keeps_keyWritten`).
-/

namespace VelocyPack

namespace Builder

variable (opts : Options) (layout : Sealer)

/-! ## Tags -/

/-- `addTagged(0, x)` behaves as `add(x)`, on every state, for every argument but a
`Serializable`. -/
theorem addTagged_zero (sub : Item) (h : sub.isSerializable = false) :
    exec opts layout (.addTagged 0 sub) = exec opts layout (.add sub) := by
  funext b
  simp [exec, addInternalTagged, addInternal, h]

/-- `addTagged_zero` at a `Value` in an open Array. -/
theorem addTagged_zero_value :
    (Item.value .null).isSerializable = false ∧
    exec Options.defaults (fun _ _ => []) (.addTagged 0 (.value .null)) =
      exec Options.defaults (fun _ _ => []) (.add (.value .null)) :=
  ⟨rfl, addTagged_zero Options.defaults (fun _ _ => []) (.value .null) rfl⟩

/-- **A `Serializable` reported twice.** In an open Array, `add` hands a serializer that adds
one value straight to `set`, and the serializer's own `add` reports the value; `addTagged`
with tag 0 reports it first as well, so the Array gets two offsets for one value. -/
theorem addTagged_zero_reports_serializer_twice :
    let sable : Item := .serialize (addInternal Options.defaults (.value (.int ⟨1, by decide, by decide⟩)))
    let s := run Options.defaults (fun _ _ => []) [.openArray false] empty
    exec Options.defaults (fun _ _ => []) (.add sable) s =
      .ok () { s with buffer := s.buffer ++ [0x31], indexes := [9] } ∧
    exec Options.defaults (fun _ _ => []) (.addTagged 0 sable) s =
      .ok () { s with buffer := s.buffer ++ [0x31], indexes := [9, 9] } :=
  ⟨rfl, rfl⟩

/-! ## Refused calls -/

/-- The checks a call makes before it writes anything, on the state `b`: opening a compound
where an Object expects a key or in an Object's key position (`builderNeedOpenArray`), a
named add outside an Object or after its key (`builderNeedOpenObject`,
`builderKeyAlreadyWritten`), a key of the wrong type (`builderKeyMustBeString`), an external
the options forbid (`builderExternalsDisallowed`), and `close` with nothing open
(`builderNeedOpenCompound`). -/
def Refused (b : Builder) : Op → Prop
  | .openArray _ | .openObject _ => b.stack ≠ [] ∧ b.keyWritten = false ∧ b.isOpenArray = false
  | .addAttr _ _ | .addTaggedAttr _ _ _ => b.stack ≠ [] ∧ (b.isOpenObject = false ∨ b.keyWritten = true)
  | .add (.value v) => b.isOpenObject = true ∧ b.keyWritten = false ∧ v.isValidKey = false
  | .add (.slice s) => b.isOpenObject = true ∧ b.keyWritten = false ∧ s.isValidKey = false
  | .addExternal sub => opts.disallowExternals = true ∨
      (b.isOpenObject = true ∧ b.keyWritten = false ∧ sub.target.isValidKey = false)
  | .close => b.stack = []
  | _ => False

theorem openCompoundValue_refused {type : UInt8} {b : Builder} (hs : b.stack ≠ [])
    (hk : b.keyWritten = false) (ha : b.isOpenArray = false) :
    openCompoundValue type b = .error .builderNeedOpenArray b := by
  simp [openCompoundValue, hs, hk, ha]

theorem addInternalKeyed_refused {attrName : List UInt8} {writeSub : BuilderM Unit} {b : Builder}
    (hs : b.stack ≠ []) (h : b.isOpenObject = false ∨ b.keyWritten = true) :
    ∃ e, addInternalKeyed opts attrName writeSub b = .error e b := by
  have hse : b.stack.isEmpty = false := by simpa [List.isEmpty_iff] using hs
  cases ho : b.isOpenObject
  · exact ⟨.builderNeedOpenObject, by simp only [addInternalKeyed, bind_apply, get_apply, hse, ho,
      Bool.not_false, Bool.false_eq_true, if_false, if_true, throw_apply]⟩
  · have hk : b.keyWritten = true := h.resolve_left (by simp [ho])
    exact ⟨.builderKeyAlreadyWritten, by simp only [addInternalKeyed, bind_apply, get_apply, hse,
      ho, hk, Bool.not_true, Bool.false_eq_true, if_false, if_true, throw_apply, pure_apply]⟩

/-- An `add` whose `set` refuses the key: the offset `reportAdd` pushed is popped again. -/
theorem addInternal_key_refused {sub : Item} {b : Builder} (hser : sub.isSerializable = false)
    (ho : b.isOpenObject = true) (hk : b.keyWritten = false)
    (hset : ∀ r : Builder, r.isOpenObject = true → r.keyWritten = false →
      set opts sub r = .error .builderKeyMustBeString r) :
    addInternal opts sub b = .error .builderKeyMustBeString b := by
  obtain ⟨c, rest, hs⟩ := List.exists_cons_of_ne_nil (stack_ne_nil_of_isOpenObject ho)
  have hadd : addInternal opts sub b = (reportAdd >>= fun _ => tryCleanup (set opts sub) cleanupAdd) b := by
    simp [addInternal, hs, hser, hk]
  rw [hadd, reportAdd_cleanup_refused hs (hset _ (by simpa using ho) hk)]

theorem addExternal_refused {sub : External} {b : Builder}
    (h : opts.disallowExternals = true ∨
      (b.isOpenObject = true ∧ b.keyWritten = false ∧ sub.target.isValidKey = false)) :
    ∃ e, addExternal opts sub b = .error e b := by
  cases hd : opts.disallowExternals
  · obtain ⟨ho, hk, hv⟩ := h.resolve_left (by simp [hd])
    obtain ⟨c, rest, hs⟩ := List.exists_cons_of_ne_nil (stack_ne_nil_of_isOpenObject ho)
    have hadd : addExternal opts sub b = (reportAdd >>= fun _ => tryCleanup
        (checkKeyHasValidType false >>= fun _ => writeExternal sub.addr) cleanupAdd) b := by
      simp [addExternal, hd, hs, hk, hv]
    refine ⟨.builderKeyMustBeString, hadd.trans (reportAdd_cleanup_refused hs ?_)⟩
    rw [bind_apply, checkKeyHasValidType_refuse
      (b := { b with indexes := b.indexes ++ [b.pos - c.startPos] }) ho hk]
  · exact ⟨.builderExternalsDisallowed, by simp [addExternal, hd]⟩

/-- **A refused call changes nothing.** Each check a call makes before it writes throws on
the state the call was given. -/
theorem refused_unchanged (b : Builder) (op : Op) (h : Refused opts b op) :
    ∃ e, exec opts layout op b = .error e b := by
  cases op with
  | openArray _ | openObject _ =>
    obtain ⟨hs, hk, ha⟩ := h
    exact ⟨_, openCompoundValue_refused hs hk ha⟩
  | addAttr _ _ | addTaggedAttr _ _ _ => exact addInternalKeyed_refused opts h.1 h.2
  | add sub =>
    cases sub with
    | value v =>
      obtain ⟨ho, hk, hv⟩ := h
      refine ⟨_, addInternal_key_refused opts rfl ho hk fun r hro hrk => ?_⟩
      simp [set, setValue, hv, checkKeyHasValidType_refuse hro hrk]
    | slice s =>
      obtain ⟨ho, hk, hv⟩ := h
      refine ⟨_, addInternal_key_refused opts rfl ho hk fun r hro hrk => ?_⟩
      simp [set, hv, checkKeyHasValidType_refuse hro hrk]
    | pair _ | serialize _ => exact h.elim
  | addExternal sub => exact addExternal_refused opts h
  | close => exact ⟨.builderNeedOpenCompound, by simp [exec, close, show b.stack = [] from h]⟩
  | addTagged _ _ | addUnchecked _ _ | clear => exact h.elim

/-- `refused_unchanged` at a named add in an open Array. -/
theorem addAttr_in_array_refused :
    Refused Options.defaults ⟨[0x06, 0, 0, 0, 0, 0, 0, 0, 0], [⟨0, 0⟩], [], false⟩
      (.addAttr [0x61] (.value .null)) ∧
    ∃ e, exec Options.defaults (fun _ _ => []) (.addAttr [0x61] (.value .null))
      ⟨[0x06, 0, 0, 0, 0, 0, 0, 0, 0], [⟨0, 0⟩], [], false⟩ =
      .error e ⟨[0x06, 0, 0, 0, 0, 0, 0, 0, 0], [⟨0, 0⟩], [], false⟩ :=
  ⟨⟨List.cons_ne_nil _ _, .inl rfl⟩,
    refused_unchanged Options.defaults (fun _ _ => []) _ _ ⟨List.cons_ne_nil _ _, .inl rfl⟩⟩

/-- **Failures after the first write are not undone.** In an Object after a key, `add` of a
`None` value toggles `_keyWritten` back before `set` throws, and the cleanup pops the key's
offset although this call pushed none; a named add whose value throws keeps the key's bytes
and `_keyWritten`. -/
theorem failed_adds_keep_partial_writes :
    let obj : Builder := run Options.defaults (fun _ _ => []) [.openObject false] empty
    let keyed : Builder := run Options.defaults (fun _ _ => []) [.add (.value (.string [0x61]))] obj
    keyed.indexes = [9] ∧ keyed.keyWritten = true ∧
    addInternal Options.defaults (.value .none) keyed =
      .error .builderUnexpectedType { keyed with indexes := [], keyWritten := false } ∧
    obj.keyWritten = false ∧
    addInternalAttr Options.defaults [0x62] (.serialize (throw .foreign)) obj =
      .error .foreign { obj with buffer := obj.buffer ++ [0x41, 0x62], keyWritten := true } :=
  ⟨rfl, rfl, rfl, rfl, rfl⟩

/-! ## Named adds on an empty stack -/

/-- On an empty stack, `add(attrName, v)` checks nothing: it writes the key and the value as
two top-level values and leaves `_keyWritten` set. Only an external value reads the options. -/
theorem addInternalAttr_empty_stack (attrName : List UInt8) (v : Value) (b : Builder)
    (hs : b.stack = []) (htr : opts.attributeTranslator = none) (hv : v.IsScalar)
    (hx : ∀ addr, v = .external addr → opts.disallowExternals = false) :
    addInternalAttr opts attrName (.value v) b =
      .ok () { b with buffer := encodeString b.buffer attrName ++ v.encode, keyWritten := true } := by
  rw [addInternalAttr, addInternalKeyed_empty_stack opts hs htr]
  simp only [writeValue, bind_apply, modify_apply, set]
  exact setValue_scalar opts hv hx (isOpenObject_of_stack_nil hs)

/-- `addInternalAttr_empty_stack` at a fresh builder whose options forbid externals. -/
theorem addInternalAttr_fresh_null :
    addInternalAttr { disallowExternals := true } [0x61] (.value .null) empty =
      .ok () { empty with buffer := encodeString empty.buffer [0x61] ++ Value.null.encode,
                          keyWritten := true } :=
  addInternalAttr_empty_stack { disallowExternals := true } [0x61] .null empty rfl rfl trivial
    fun _ h => Value.noConfusion h

/-- **A key at the top level breaks the next Array.** After `add("a", 1)` on a fresh builder
the flag stays set. On an empty stack `openCompoundValue` goes straight to `addCompoundValue`
without looking at it, so the Array opens with the flag still set: its first child is taken
for a key's value and not reported, and `close` seals the Array with no children, for every
layout. -/
theorem named_add_on_empty_stack_keeps_keyWritten :
    let top : Builder := run Options.defaults (fun _ _ => [])
      [.addAttr [0x61] (.value (.int ⟨1, by decide, by decide⟩))] empty
    let arr : Builder := run Options.defaults (fun _ _ => [])
      [.openArray false, .add (.value (.int ⟨2, by decide, by decide⟩))] top
    top.stack = [] ∧ top.keyWritten = true ∧
    isOpenArray arr = true ∧ arr.keyWritten = true ∧ arr.indexes = [] ∧
    arr.buffer = [0x41, 0x61, 0x31, 0x06, 0, 0, 0, 0, 0, 0, 0, 0, 0x32] ∧
    ∀ layout : Sealer, (after (close Options.defaults layout arr)).buffer =
      [0x41, 0x61, 0x31] ++ layout 0x06 [] :=
  ⟨rfl, rfl, rfl, rfl, rfl, rfl, fun _ => rfl⟩

end Builder

end VelocyPack