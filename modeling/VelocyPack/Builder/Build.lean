import VelocyPack.Builder.Refinement

/-!
# Building a value through the public calls

How a caller builds a value: a `Slice` is added as it is; an Array or an Object is opened, its
members are built in turn (in an Object each under its attribute name, with
`add(attrName, Value(ValueType::Array))` and the like for a compound member), and it is closed.
These are the calls nested `ArrayBuilder` and `ObjectBuilder` scopes make: the constructor
opens, with `openArray(allowUnindexed)` or, under a name, `add(attributeName,
Value(ValueType::Array, allowUnindexed))`, and the destructor calls `close()` when the builder is
not closed, as it is not while the scope's own frame is open.

* `Leaf`, `Tree`, `Forest`, `Members` — the values a caller builds, and `Tree.ops`, the calls
  that build one;
* `Tree.encode` — the bytes the value stands for, each compound sealed by the layout;
* `Tree.passesUniqueness` — every Object of the value passes the check of its keys that the
  options ask for;
* `Forest.run_ops`, `Members.run_ops`, `Tree.run_top` — every call returns within the document
  contract, and the calls put the value's bytes where the value goes;
* `build_tree` — from a fresh builder, every call that builds such a value returns, and the
  calls end on a sealed builder that holds exactly its bytes.
-/

namespace VelocyPack

namespace Document

open Builder

/-! ## Values to build -/

/-- A value added whole: a `Slice`, or a scalar `Value`, which carries the proof that it is one. -/
inductive Leaf where
  | slice (s : Slice)
  | value (v : Value) (hv : v.IsScalar)

namespace Leaf

/-- The argument the leaf is added with. -/
def item : Leaf → Item
  | .slice s => .slice s
  | .value v _ => .value v

/-- The bytes `add` writes for the leaf. -/
def bytes : Leaf → List UInt8
  | .slice s => s.bytes
  | .value v _ => v.encode

/-- Whether the key check accepts the leaf as a key. -/
def isKey : Leaf → Bool
  | .slice s => s.isValidKey
  | .value v _ => v.isValidKey

/-- A leaf is written whole, where externals are allowed. -/
theorem piece_item {opts : Options} (l : Leaf) (hx : opts.disallowExternals = false) :
    l.item.piece opts = some (.complete l.bytes l.isKey) := by
  cases l with
  | slice s => rfl
  | value v hv => exact Item.piece_of_scalar hv hx

end Leaf

mutual

/-- A value a caller builds: a leaf added whole, or an Array or Object opened, filled and
closed. -/
inductive Tree where
  | leaf (l : Leaf)
  | array (unindexed : Bool) (members : Forest)
  | object (unindexed : Bool) (members : Members)

/-- The members of an Array, in order. -/
inductive Forest where
  | nil
  | cons (t : Tree) (ts : Forest)

/-- The members of an Object, in order, each under its attribute name. -/
inductive Members where
  | nil
  | cons (attrName : List UInt8) (t : Tree) (ms : Members)

end

namespace Tree

/-- The call that starts `t` as an Array member or at the top: its `add`, or the `openArray` or
`openObject` that opens it. -/
def first : Tree → Op
  | .leaf l => .add l.item
  | .array u _ => .openArray u
  | .object u _ => .openObject u

/-- The call that starts `t` as the value of `attrName` in an Object. -/
def named (attrName : List UInt8) : Tree → Op
  | .leaf l => .addAttr attrName l.item
  | .array u _ => .addAttr attrName (.value (.array u))
  | .object u _ => .addAttr attrName (.value (.object u))

end Tree

mutual

/-- The calls after the first that build `t`: its members, then `close()`. -/
def Tree.rest : Tree → List Op
  | .leaf _ => []
  | .array _ ts => ts.ops ++ [.close]
  | .object _ ms => ms.ops ++ [.close]

/-- The calls that build the members of an Array. -/
def Forest.ops : Forest → List Op
  | .nil => []
  | .cons t ts => (t.first :: t.rest) ++ ts.ops

/-- The calls that build the members of an Object. -/
def Members.ops : Members → List Op
  | .nil => []
  | .cons a t ms => (t.named a :: t.rest) ++ ms.ops

end

/-- The calls that build `t` at the top or as an Array member. -/
def Tree.ops (t : Tree) : List Op := t.first :: t.rest

section Encode

variable (opts : Options) (layout : Sealer)

mutual

/-- The bytes `t` stands for: a compound is its head and its members' bytes, sealed by the
layout. -/
def Tree.encode : Tree → List UInt8
  | .leaf l => l.bytes
  | .array u ts => layout (if u then 0x13 else 0x06) (ts.encode)
  | .object u ms => layout (if u then 0x14 else 0x0b) (ms.encode)

/-- The bytes of each member of an Array. -/
def Forest.encode : Forest → List (List UInt8)
  | .nil => []
  | .cons t ts => t.encode :: ts.encode

/-- The bytes of each member of an Object: its key, then its value. -/
def Members.encode : Members → List (List UInt8)
  | .nil => []
  | .cons a t ms => (Doc.keyBytes opts a ++ t.encode) :: ms.encode

end

mutual

/-- Every Object of `t` passes the uniqueness check the options ask for: where they ask for it,
the keys its members are built under, as the check reads them, are distinct. -/
def Tree.passesUniqueness : Tree → Bool
  | .leaf _ => true
  | .array _ ts => ts.passesUniqueness
  | .object _ ms => !uniquenessFails opts true (ms.encode opts layout) && ms.passesUniqueness

/-- Every member of an Array passes the uniqueness check. -/
def Forest.passesUniqueness : Forest → Bool
  | .nil => true
  | .cons t ts => t.passesUniqueness && ts.passesUniqueness

/-- Every member of an Object passes the uniqueness check. -/
def Members.passesUniqueness : Members → Bool
  | .nil => true
  | .cons _ t ms => t.passesUniqueness && ms.passesUniqueness

end

mutual

/-- Where the options do not ask for the check, every value passes it. -/
theorem Tree.passesUniqueness_uncheck {opts : Options} (hc : opts.checkAttributeUniqueness = false) :
    ∀ t : Tree, t.passesUniqueness opts layout = true
  | .leaf _ => rfl
  | .array _ ts => Forest.passesUniqueness_uncheck hc ts
  | .object _ ms => by
    simp [Tree.passesUniqueness, uniquenessFails, hc, Members.passesUniqueness_uncheck hc ms]

theorem Forest.passesUniqueness_uncheck {opts : Options} (hc : opts.checkAttributeUniqueness = false) :
    ∀ ts : Forest, ts.passesUniqueness opts layout = true
  | .nil => rfl
  | .cons t ts => by
    simp [Forest.passesUniqueness, Tree.passesUniqueness_uncheck hc t,
      Forest.passesUniqueness_uncheck hc ts]

theorem Members.passesUniqueness_uncheck {opts : Options} (hc : opts.checkAttributeUniqueness = false) :
    ∀ ms : Members, ms.passesUniqueness opts layout = true
  | .nil => rfl
  | .cons _ t ms => by
    simp [Members.passesUniqueness, Tree.passesUniqueness_uncheck hc t,
      Members.passesUniqueness_uncheck hc ms]

end

mutual

/-- The bytes a value stands for do not depend on the uniqueness check. -/
theorem Tree.encode_uncheck :
    ∀ t : Tree, t.encode { opts with checkAttributeUniqueness := false } layout = t.encode opts layout
  | .leaf _ => rfl
  | .array _ ts => by rw [Tree.encode, Tree.encode, Forest.encode_uncheck ts]
  | .object _ ms => by rw [Tree.encode, Tree.encode, Members.encode_uncheck ms]

theorem Forest.encode_uncheck :
    ∀ ts : Forest, ts.encode { opts with checkAttributeUniqueness := false } layout = ts.encode opts layout
  | .nil => rfl
  | .cons t ts => by rw [Forest.encode, Forest.encode, Tree.encode_uncheck t, Forest.encode_uncheck ts]

theorem Members.encode_uncheck :
    ∀ ms : Members, ms.encode { opts with checkAttributeUniqueness := false } layout = ms.encode opts layout
  | .nil => rfl
  | .cons _ t ms => by
    rw [Members.encode, Members.encode, Tree.encode_uncheck t, Members.encode_uncheck ms]
    rfl

end

end Encode

/-! ## One call in each place a value goes

An Array `⟨h, cs, none⟩` takes its next member; an Object `⟨h, cs, none⟩` with no key waiting
takes its next key and value; a frame just filled is closed into the place below it. -/

section Steps

variable {opts : Options} {layout : Sealer} {top : List UInt8} {h h' : UInt8}
  {cs cs' : List (List UInt8)} {below : List Frame}

theorem run_cons_ok (op : Op) {ops : List Op} {d d' : Doc} (hs : d.step opts layout op = some (.ok d')) :
    Doc.runOk opts layout (op :: ops) d = Doc.runOk opts layout ops d' := by
  simp [Doc.runOk, hs]

/-- An argument written whole, added at the top, is the next finished value. -/
theorem step_add_top (x : Item) {c : List UInt8} {k : Bool} (hx : x.piece opts = some (.complete c k)) :
    (⟨top, []⟩ : Doc).step opts layout (.add x) = some (.ok ⟨top ++ c, []⟩) := by
  simp [Doc.step, hx, Doc.addItem]

theorem step_openArray_top (u : Bool) :
    (⟨top, []⟩ : Doc).step opts layout (.openArray u) =
      some (.ok ⟨top, [⟨if u then 0x13 else 0x06, [], none⟩]⟩) :=
  rfl

theorem step_openObject_top (u : Bool) :
    (⟨top, []⟩ : Doc).step opts layout (.openObject u) =
      some (.ok ⟨top, [⟨if u then 0x14 else 0x0b, [], none⟩]⟩) :=
  rfl

/-- An argument written whole, added to an Array, is its next member. -/
theorem step_add_member (x : Item) {c : List UInt8} {k : Bool} (hx : x.piece opts = some (.complete c k))
    (ha : (⟨h, cs, none⟩ : Frame).isArray = true) :
    (⟨top, ⟨h, cs, none⟩ :: below⟩ : Doc).step opts layout (.add x) =
      some (.ok ⟨top, ⟨h, cs ++ [c], none⟩ :: below⟩) := by
  simp [Doc.step, hx, Doc.addItem, Frame.isObject_of_isArray ha, ha, Doc.completeIn]

theorem openCompound_member (ha : (⟨h, cs, none⟩ : Frame).isArray = true) :
    (⟨top, ⟨h, cs, none⟩ :: below⟩ : Doc).openCompound h' =
      some (.ok ⟨top, ⟨h', [], none⟩ :: ⟨h, cs, some []⟩ :: below⟩) := by
  simp [Doc.openCompound, ha, Doc.openIn]

theorem step_openArray_member (u : Bool) (ha : (⟨h, cs, none⟩ : Frame).isArray = true) :
    (⟨top, ⟨h, cs, none⟩ :: below⟩ : Doc).step opts layout (.openArray u) =
      some (.ok ⟨top, ⟨if u then 0x13 else 0x06, [], none⟩ :: ⟨h, cs, some []⟩ :: below⟩) :=
  openCompound_member ha

theorem step_openObject_member (u : Bool) (ha : (⟨h, cs, none⟩ : Frame).isArray = true) :
    (⟨top, ⟨h, cs, none⟩ :: below⟩ : Doc).step opts layout (.openObject u) =
      some (.ok ⟨top, ⟨if u then 0x14 else 0x0b, [], none⟩ :: ⟨h, cs, some []⟩ :: below⟩) :=
  openCompound_member ha

/-- A named add of an argument written whole completes the key with its value. -/
theorem step_named_add (a : List UInt8) (x : Item) {c : List UInt8} {k : Bool}
    (hx : x.piece opts = some (.complete c k)) (ho : (⟨h, cs, none⟩ : Frame).isObject = true) :
    (⟨top, ⟨h, cs, none⟩ :: below⟩ : Doc).step opts layout (.addAttr a x) =
      some (.ok ⟨top, ⟨h, cs ++ [Doc.keyBytes opts a ++ c], none⟩ :: below⟩) := by
  have hk : (⟨h, cs, some (Doc.keyBytes opts a)⟩ : Frame).keyWritten = true := by
    simpa [Frame.keyWritten] using ho
  simp [Doc.step, hx, Doc.addNamed, Doc.addItem, ho, hk, Doc.completeIn]

/-- A named add of an argument that opens a compound opens it as the value of the key. -/
theorem step_named_opens (a : List UInt8) (x : Item) (hx : x.piece opts = some (.opens h'))
    (ho : (⟨h, cs, none⟩ : Frame).isObject = true) :
    (⟨top, ⟨h, cs, none⟩ :: below⟩ : Doc).step opts layout (.addAttr a x) =
      some (.ok ⟨top, ⟨h', [], none⟩ :: ⟨h, cs, some (Doc.keyBytes opts a)⟩ :: below⟩) := by
  have hk : (⟨h, cs, some (Doc.keyBytes opts a)⟩ : Frame).keyWritten = true := by
    simpa [Frame.keyWritten] using ho
  simp [Doc.step, hx, Doc.addNamed, Doc.addItem, ho, hk, Doc.openIn]

theorem step_close_top (hu : uniquenessFails opts (⟨h, cs, none⟩ : Frame).isObject cs = false) :
    (⟨top, [⟨h, cs, none⟩]⟩ : Doc).step opts layout .close = some (.ok ⟨top ++ layout h cs, []⟩) := by
  simp [Doc.step, Doc.close, hu]

theorem step_close_member (part : List UInt8)
    (hu : uniquenessFails opts (⟨h', cs', none⟩ : Frame).isObject cs' = false) :
    (⟨top, ⟨h', cs', none⟩ :: ⟨h, cs, some part⟩ :: below⟩ : Doc).step opts layout .close =
      some (.ok ⟨top, ⟨h, cs ++ [part ++ layout h' cs'], none⟩ :: below⟩) := by
  simp [Doc.step, Doc.close, hu, Doc.completeIn]

theorem isArray_head (u : Bool) (cs : List (List UInt8)) (p : Option (List UInt8)) :
    (⟨if u then 0x13 else 0x06, cs, p⟩ : Frame).isArray = true := by
  cases u <;> rfl

theorem isObject_head (u : Bool) (cs : List (List UInt8)) (p : Option (List UInt8)) :
    (⟨if u then 0x14 else 0x0b, cs, p⟩ : Frame).isObject = true := by
  cases u <;> rfl

/-- An Array never reports duplicate keys. -/
theorem uniquenessFails_array (u : Bool) (cs cs' : List (List UInt8)) :
    uniquenessFails opts (⟨if u then 0x13 else 0x06, cs, none⟩ : Frame).isObject cs' = false := by
  simp [uniquenessFails, Frame.isObject_of_isArray (isArray_head u cs none)]

/-- An Object passes the check when its own keys and each of its members do. -/
theorem passesUniqueness_object {u : Bool} {ms : Members} :
    (Tree.object u ms).passesUniqueness opts layout = true ↔
      uniquenessFails opts true (ms.encode opts layout) = false ∧
        ms.passesUniqueness opts layout = true := by
  simp [Tree.passesUniqueness]

/-- The Object `Tree.object u ms`, filled with its members, does not report duplicate keys. -/
theorem uniquenessFails_object {u : Bool} {ms : Members}
    (hu : (Tree.object u ms).passesUniqueness opts layout = true) :
    uniquenessFails opts (⟨if u then 0x14 else 0x0b, [], none⟩ : Frame).isObject
      ([] ++ ms.encode opts layout) = false := by
  simpa [isObject_head] using (passesUniqueness_object.mp hu).1

end Steps

/-! ## The calls that build a value -/

section Runs

variable (opts : Options) (layout : Sealer)

mutual

/-- The calls that build an Array's members, run in that Array, all return and append the
members' bytes to its children. -/
theorem Forest.run_ops (hx : opts.disallowExternals = false) : ∀ (ts : Forest) (top : List UInt8)
    (h : UInt8) (cs : List (List UInt8)) (below : List Frame) (more : List Op),
    ts.passesUniqueness opts layout = true → (⟨h, cs, none⟩ : Frame).isArray = true →
    Doc.runOk opts layout (ts.ops ++ more) ⟨top, ⟨h, cs, none⟩ :: below⟩ =
      Doc.runOk opts layout more ⟨top, ⟨h, cs ++ ts.encode opts layout, none⟩ :: below⟩
  | .nil, _, _, _, _, _, _, _ => by simp [Forest.ops, Forest.encode]
  | .cons (.leaf l) ts, top, h, cs, below, more, hu, ha => by
    simp only [Forest.passesUniqueness, Bool.and_eq_true] at hu
    simp only [Forest.ops, Tree.first, Tree.rest, List.cons_append, List.nil_append]
    rw [run_cons_ok _ (step_add_member _ (l.piece_item hx) ha),
      Forest.run_ops hx ts _ _ (cs ++ _) _ _ hu.2 ha]
    simp [Forest.encode, Tree.encode]
  | .cons (.array u ts') ts, top, h, cs, below, more, hu, ha => by
    simp only [Forest.passesUniqueness, Tree.passesUniqueness, Bool.and_eq_true] at hu
    simp only [Forest.ops, Tree.first, Tree.rest, List.cons_append, List.append_assoc,
      List.nil_append]
    rw [run_cons_ok _ (step_openArray_member u ha),
      Forest.run_ops hx ts' _ _ _ _ _ hu.1 (isArray_head u [] none),
      run_cons_ok _ (step_close_member [] (uniquenessFails_array u _ _)),
      Forest.run_ops hx ts _ _ (cs ++ _) _ _ hu.2 ha]
    simp [Forest.encode, Tree.encode]
  | .cons (.object u ms) ts, top, h, cs, below, more, hu, ha => by
    simp only [Forest.passesUniqueness, Bool.and_eq_true] at hu
    have hms := (passesUniqueness_object.mp hu.1).2
    simp only [Forest.ops, Tree.first, Tree.rest, List.cons_append, List.append_assoc,
      List.nil_append]
    rw [run_cons_ok _ (step_openObject_member u ha),
      Members.run_ops hx ms _ _ _ _ _ hms (isObject_head u [] none),
      run_cons_ok _ (step_close_member [] (uniquenessFails_object hu.1)),
      Forest.run_ops hx ts _ _ (cs ++ _) _ _ hu.2 ha]
    simp [Forest.encode, Tree.encode]

/-- The calls that build an Object's members, run in that Object with no key waiting, all
return and append each member's key and value to its children. -/
theorem Members.run_ops (hx : opts.disallowExternals = false) : ∀ (ms : Members) (top : List UInt8)
    (h : UInt8) (cs : List (List UInt8)) (below : List Frame) (more : List Op),
    ms.passesUniqueness opts layout = true → (⟨h, cs, none⟩ : Frame).isObject = true →
    Doc.runOk opts layout (ms.ops ++ more) ⟨top, ⟨h, cs, none⟩ :: below⟩ =
      Doc.runOk opts layout more ⟨top, ⟨h, cs ++ ms.encode opts layout, none⟩ :: below⟩
  | .nil, _, _, _, _, _, _, _ => by simp [Members.ops, Members.encode]
  | .cons a (.leaf l) ms, top, h, cs, below, more, hu, ho => by
    simp only [Members.passesUniqueness, Bool.and_eq_true] at hu
    simp only [Members.ops, Tree.named, Tree.rest, List.cons_append, List.nil_append]
    rw [run_cons_ok _ (step_named_add a _ (l.piece_item hx) ho),
      Members.run_ops hx ms _ _ (cs ++ _) _ _ hu.2 ho]
    simp [Members.encode, Tree.encode]
  | .cons a (.array u ts) ms, top, h, cs, below, more, hu, ho => by
    simp only [Members.passesUniqueness, Tree.passesUniqueness, Bool.and_eq_true] at hu
    simp only [Members.ops, Tree.named, Tree.rest, List.cons_append, List.append_assoc,
      List.nil_append]
    rw [run_cons_ok _ (step_named_opens a (.value (.array u)) rfl ho),
      Forest.run_ops hx ts _ _ _ _ _ hu.1 (isArray_head u [] none),
      run_cons_ok _ (step_close_member _ (uniquenessFails_array u _ _)),
      Members.run_ops hx ms _ _ (cs ++ _) _ _ hu.2 ho]
    simp [Members.encode, Tree.encode]
  | .cons a (.object u ms') ms, top, h, cs, below, more, hu, ho => by
    simp only [Members.passesUniqueness, Bool.and_eq_true] at hu
    have hms := (passesUniqueness_object.mp hu.1).2
    simp only [Members.ops, Tree.named, Tree.rest, List.cons_append, List.append_assoc,
      List.nil_append]
    rw [run_cons_ok _ (step_named_opens a (.value (.object u)) rfl ho),
      Members.run_ops hx ms' _ _ _ _ _ hms (isObject_head u [] none),
      run_cons_ok _ (step_close_member _ (uniquenessFails_object hu.1)),
      Members.run_ops hx ms _ _ (cs ++ _) _ _ hu.2 ho]
    simp [Members.encode, Tree.encode]

end

/-- The calls that build a value at the top all return and append its bytes to the finished
values. -/
theorem Tree.run_top (hx : opts.disallowExternals = false) (t : Tree)
    (hu : t.passesUniqueness opts layout = true) (top : List UInt8) (more : List Op) :
    Doc.runOk opts layout (t.ops ++ more) ⟨top, []⟩ =
      Doc.runOk opts layout more ⟨top ++ t.encode opts layout, []⟩ := by
  cases t with
  | leaf l => exact run_cons_ok _ (step_add_top _ (l.piece_item hx))
  | array u ts =>
    simp only [Tree.ops, Tree.first, Tree.rest, List.cons_append, List.append_assoc, List.nil_append]
    rw [run_cons_ok _ (step_openArray_top u),
      Forest.run_ops opts layout hx ts _ _ [] _ _ hu (isArray_head u [] none),
      run_cons_ok _ (step_close_top (uniquenessFails_array u _ _))]
    rfl
  | object u ms =>
    have hms := (passesUniqueness_object.mp hu).2
    simp only [Tree.ops, Tree.first, Tree.rest, List.cons_append, List.append_assoc, List.nil_append]
    rw [run_cons_ok _ (step_openObject_top u),
      Members.run_ops opts layout hx ms _ _ [] _ _ hms (isObject_head u [] none),
      run_cons_ok _ (step_close_top (uniquenessFails_object hu))]
    rfl

/-- From the empty document, the calls that build a value all return and make the document that
holds its bytes. -/
theorem Tree.runOk_ops (hx : opts.disallowExternals = false) (t : Tree)
    (hu : t.passesUniqueness opts layout = true) :
    Doc.runOk opts layout t.ops ⟨[], []⟩ = some ⟨t.encode opts layout, []⟩ := by
  simpa [Doc.runOk] using Tree.run_top opts layout hx t hu [] []

end Runs

/-- **Building a value.** From a fresh builder, where externals are allowed and every Object of
the value passes the uniqueness check the options ask for, the public calls that build any value
(a `Slice` or a scalar `Value` added whole, or an Array or Object opened, its members built in
turn, each member of an Object under its name, and closed) return without an exception at every
call, and end on a sealed builder that holds exactly the value's bytes, with no offsets and
`_keyWritten` false. -/
theorem build_tree (opts : Options) (layout : Sealer) (hx : opts.disallowExternals = false)
    (t : Tree) (hu : t.passesUniqueness opts layout = true) :
    forM t.ops (exec opts layout) empty = .ok () ⟨t.encode opts layout, [], [], false⟩ :=
  builder_runOk opts layout t.ops ⟨[], []⟩ _ (Tree.runOk_ops opts layout hx t hu)

theorem build_tree_object :
    Options.defaults.disallowExternals = false ∧
      (Tree.object false (.cons [0x61] (.leaf (.value .null trivial))
        (.cons [0x62] (.array false (.cons (.leaf (.slice ⟨[0x31]⟩)) .nil)) .nil))).passesUniqueness
        { checkAttributeUniqueness := true } (fun h cs => h :: cs.flatten) = true ∧
      forM (Tree.object false (.cons [0x61] (.leaf (.value .null trivial))
          (.cons [0x62] (.array false (.cons (.leaf (.slice ⟨[0x31]⟩)) .nil)) .nil))).ops
        (exec { checkAttributeUniqueness := true } (fun h cs => h :: cs.flatten)) empty =
        .ok () ⟨[0x0b, 0x41, 0x61, 0x18, 0x41, 0x62, 0x06, 0x31], [], [], false⟩ :=
  ⟨rfl, rfl, build_tree { checkAttributeUniqueness := true } (fun h cs => h :: cs.flatten) rfl _ rfl⟩

end Document

end VelocyPack
