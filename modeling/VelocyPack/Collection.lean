import VelocyPack.Builder.Build

/-!
# Collection: `forEach`, `filter`, `map`

The three loops of `Collection.cpp` walk an Array with an `ArrayIterator` and count `index`
beside it; `filter` and `map` fill a fresh `Builder`: `add(Value(ValueType::Array))`, one
`add` per kept or mapped member, `close()`.

A callback is a `std::function` with whatever state it captures, so it is modelled as a
state-passing function: what it observes and what it changes is its state `σ`.

* `forEachLoop_eq`, `filterLoop_eq`, `mapLoop_eq` — the loop invariant: at iterator position
  `k`, `index = k`, so the loops call `cb` on the members paired with their positions;
* `Builder.addInternal_arrayFrame`, `Builder.close_arrayFrame` — adding to and closing the
  one open Array of such a builder, as the document layer says;
* `collection_loops` — what the three algorithms call and build;
* `map_marker_leaves_frame_open` — a callback returning an Array marker opens a frame instead.
-/

namespace VelocyPack

/-! ## A builder with one open Array -/

namespace Builder

/-- A builder whose only frame is an Array opened at position 0, holding the children `cs`. -/
def arrayFrame (cs : List (List UInt8)) : Builder :=
  ⟨0x06 :: List.replicate 8 0 ++ cs.flatten, [⟨0, 0⟩], childOffsets 9 cs, false⟩

theorem arrayFrame_empty :
    addInternal Options.defaults (.value (.array false)) empty = .ok () (arrayFrame []) := rfl

/-- The builder with one open Array holds the document with that one frame. -/
theorem arrayFrame_eq (cs : List (List UInt8)) :
    arrayFrame cs = (⟨[], [⟨0x06, cs, none⟩]⟩ : Document.Doc).builder := by
  simp [arrayFrame, Document.Doc.builder, Document.Frame.extend, Document.Frame.bytes,
    Document.Frame.entries, Document.below, pos]

/-- Adding an argument written whole to the open Array appends it as one more child. -/
theorem addInternal_arrayFrame {x : Item} {c : List UInt8} {k : Bool}
    (hx : x.piece Options.defaults = some (.complete c k)) (cs : List (List UInt8)) :
    addInternal Options.defaults x (arrayFrame cs) = .ok () (arrayFrame (cs ++ [c])) := by
  rw [arrayFrame_eq, arrayFrame_eq]
  have ha : (⟨0x06, cs, none⟩ : Document.Frame).isArray = true := rfl
  exact Document.step_refines _ (fun _ _ => []) _ (.add x) _ (Document.step_add_member x hx ha)

/-- Closing the open Array seals its children with the layout and leaves no frame. -/
theorem close_arrayFrame (layout : Sealer) (cs : List (List UInt8)) :
    close Options.defaults layout (arrayFrame cs) = .ok () ⟨layout 0x06 cs, [], [], false⟩ := by
  rw [arrayFrame_eq]
  exact Document.step_refines Options.defaults layout _ .close _ (Document.step_close_top rfl)

end Builder

namespace Collection

open Builder

/-! ## The loops -/

/-- An Array slice, by its members. Modelled from the spec: `ArrayIterator` (`Iterator.h` is not
among the repository's files) visits an Array's members in order. The loops below carry the
members not yet visited, so `valid()`, `value()` and `next()` are non-emptiness, head and tail. -/
structure ArraySlice where
  members : List Slice

/-- A `std::function<R(Slice const&, ValueLength)>`, with the state `σ` it captures. -/
abbrev Callback (σ R : Type) := Slice → Nat → StateM σ R

/-- The `while (it.valid())` loop of `Collection::forEach`, the iterator at `index`. -/
def forEachLoop (cb : Callback σ Bool) : List Slice → Nat → StateM σ Unit
  | [], _ => pure ()
  | value :: rest, index => do
    if !(← cb value index) then return
    forEachLoop cb rest (index + 1)

/-- `Collection::forEach`. -/
def forEach (slice : ArraySlice) (cb : Callback σ Bool) : StateM σ Unit :=
  forEachLoop cb slice.members 0

/-- What `filter` and `map` run in: the `Builder b` they fill, and the callback's state. -/
abbrev CollectionM (σ : Type) := EStateM ExceptionType (Builder × σ)

/-- A call on the builder `b`. -/
def onBuilder (x : BuilderM Unit) : CollectionM σ Unit := fun (b, st) =>
  match x b with
  | .ok a b => .ok a (b, st)
  | .error e b => .error e (b, st)

/-- A call of the callback. -/
def call (x : StateM σ α) : CollectionM σ α := fun (b, st) =>
  let (a, st) := x.run st
  .ok a (b, st)

/-- The `while (it.valid())` loop of `Collection::filter`. -/
def filterLoop (cb : Callback σ Bool) : List Slice → Nat → CollectionM σ Unit
  | [], _ => pure ()
  | value :: rest, index => do
    if ← call (cb value index) then onBuilder (addInternal Options.defaults (.slice value))
    filterLoop cb rest (index + 1)

/-- `Collection::filter`: a fresh `Builder b`, `b.add(Value(ValueType::Array))`, the loop,
`b.close()`; the result is `b`, or the exception. -/
def filter (layout : Sealer) (slice : ArraySlice) (cb : Callback σ Bool) (st : σ) :
    EStateM.Result ExceptionType (Builder × σ) Unit :=
  (do
    onBuilder (addInternal Options.defaults (.value (.array false)))
    filterLoop cb slice.members 0
    onBuilder (close Options.defaults layout) : CollectionM σ Unit) (empty, st)

/-- The `while (it.valid())` loop of `Collection::map`. -/
def mapLoop (cb : Callback σ Value) : List Slice → Nat → CollectionM σ Unit
  | [], _ => pure ()
  | value :: rest, index => do
    let v ← call (cb value index)
    onBuilder (addInternal Options.defaults (.value v))
    mapLoop cb rest (index + 1)

/-- `Collection::map`. -/
def map (layout : Sealer) (slice : ArraySlice) (cb : Callback σ Value) (st : σ) :
    EStateM.Result ExceptionType (Builder × σ) Unit :=
  (do
    onBuilder (addInternal Options.defaults (.value (.array false)))
    mapLoop cb slice.members 0
    onBuilder (close Options.defaults layout) : CollectionM σ Unit) (empty, st)

/-! ## Loop invariants -/

@[simp] theorem bind_apply' (x : CollectionM σ α) (f : α → CollectionM σ β) (s : Builder × σ) :
    (x >>= f) s = match x s with | .ok a s' => f a s' | .error e s' => .error e s' := by
  show EStateM.bind x f s = _
  unfold EStateM.bind
  cases x s <;> rfl

/-- At iterator position `k`, `forEach` calls `cb` on each member paired with its position,
until the first `false`. -/
theorem forEachLoop_eq (cb : Callback σ Bool) (l : List Slice) (k : Nat) :
    forEachLoop cb l k = (do let _ ← (l.enumFrom k).allM fun p => cb p.2 p.1; pure ()) := by
  induction l generalizing k with
  | nil => simp [forEachLoop, List.allM]
  | cons e rest ih =>
    simp only [forEachLoop, List.enumFrom_cons, List.allM, bind_assoc, ih]
    congr 1
    funext r
    cases r <;> simp

/-- At iterator position `k`, `filter`'s loop calls `cb` once per member with its position,
and appends the kept members, in order, to the open Array. -/
theorem filterLoop_eq (cb : Callback σ Bool) (l : List Slice) (k : Nat)
    (cs : List (List UInt8)) (st : σ) :
    filterLoop cb l k (arrayFrame cs, st) =
      let r := ((l.enumFrom k).mapM fun (p : Nat × Slice) => do pure (p.2, ← cb p.2 p.1)).run st
      .ok () (arrayFrame (cs ++ (r.1.filter (·.2)).map (·.1.bytes)), r.2) := by
  induction l generalizing k cs st with
  | nil => simp only [filterLoop, List.enumFrom_nil, List.mapM_nil, StateT.run_pure]; simp; rfl
  | cons e rest ih =>
    rcases h : (cb e k).run st with ⟨r, st1⟩
    simp only [List.enumFrom_cons, List.mapM_cons, StateT.run_bind, StateT.run_pure, h]
    cases r <;>
      simp [filterLoop, call, onBuilder, h, ih, addInternal_arrayFrame (x := .slice _) rfl]

/-- At iterator position `k`, `map`'s loop calls `cb` once per member with its position, and
appends the encodings of the values, in order, to the open Array, when every value `cb` returns
in this run is a scalar. -/
theorem mapLoop_eq (cb : Callback σ Value) (l : List Slice) (k : Nat) (cs : List (List UInt8))
    (st : σ) :
    let r := ((l.enumFrom k).mapM fun (p : Nat × Slice) => cb p.2 p.1).run st
    (∀ v ∈ r.1, v.IsScalar) →
    mapLoop cb l k (arrayFrame cs, st) = .ok () (arrayFrame (cs ++ r.1.map Value.encode), r.2) := by
  induction l generalizing k cs st with
  | nil =>
    intro r _
    simp only [r, mapLoop, List.enumFrom_nil, List.mapM_nil, StateT.run_pure]
    simp
    rfl
  | cons e rest ih =>
    rcases h : (cb e k).run st with ⟨v, st1⟩
    simp only [List.enumFrom_cons, List.mapM_cons, StateT.run_bind, StateT.run_pure, h]
    intro hr
    have hv : v.IsScalar := hr v (List.mem_cons_self _ _)
    have hrest := ih (k + 1) (cs ++ [v.encode]) st1 fun x hx => hr x (List.mem_cons_of_mem _ hx)
    simp [mapLoop, call, onBuilder, h, hrest, addInternal_arrayFrame (Item.piece_of_scalar hv rfl)]

/-- `mapM` in a state monad returns one result per element. -/
theorem length_mapM_run {α β : Type} (f : α → StateM σ β) (l : List α) (st : σ) :
    ((l.mapM f).run st).1.length = l.length := by
  induction l generalizing st with
  | nil => rfl
  | cons a l ih =>
    rcases h : (f a).run st with ⟨b, st1⟩
    simp only [List.mapM_cons, StateT.run_bind, StateT.run_pure, h]
    exact congrArg (· + 1) (ih st1)

/-- **The three loops.** `forEach` calls `cb` on `(e_i, i)` in order and stops after the first
`false`; `filter` calls `cb` once per member with its position and builds the closed Array of
the members it kept, in order; `map`, when the values `cb` returns in the run are scalars, builds
the closed Array of their `n` encodings, the `i`-th from `cb(e_i, i)`. -/
theorem collection_loops (layout : Sealer) (slice : ArraySlice) :
    (∀ cb : Callback σ Bool, forEach slice cb =
      (do let _ ← slice.members.enum.allM fun p => cb p.2 p.1; pure ())) ∧
    (∀ (cb : Callback σ Bool) (st : σ), filter layout slice cb st =
      let r := (slice.members.enum.mapM fun (p : Nat × Slice) => do pure (p.2, ← cb p.2 p.1)).run st
      .ok () (⟨layout 0x06 ((r.1.filter (·.2)).map (·.1.bytes)), [], [], false⟩, r.2)) ∧
    (∀ (cb : Callback σ Value) (st : σ),
      let r := (slice.members.enum.mapM fun (p : Nat × Slice) => cb p.2 p.1).run st
      (∀ v ∈ r.1, v.IsScalar) →
      map layout slice cb st = .ok () (⟨layout 0x06 (r.1.map Value.encode), [], [], false⟩, r.2) ∧
      r.1.length = slice.members.length) := by
  refine ⟨fun cb => forEachLoop_eq cb slice.members 0, fun cb st => ?_, fun cb st hr => ⟨?_, ?_⟩⟩
  · have := filterLoop_eq cb slice.members 0 [] st
    simp only [List.nil_append] at this
    simp [filter, onBuilder, arrayFrame_empty, List.enum, this, close_arrayFrame]
  · have := mapLoop_eq cb slice.members 0 [] st hr
    simp only [List.nil_append] at this
    simp [map, onBuilder, arrayFrame_empty, List.enum, this, close_arrayFrame]
  · exact (length_mapM_run _ _ st).trans List.enumFrom_length

/-- `collection_loops` at a callback that maps every member to `null`. -/
theorem map_null_callback :
    let cb : Callback Unit Value := fun _ _ => pure .null
    let slice : ArraySlice := ⟨[⟨[]⟩, ⟨[0x31]⟩]⟩
    (∀ v ∈ ((slice.members.enum.mapM fun (p : Nat × Slice) => cb p.2 p.1).run ()).1,
      v.IsScalar) ∧
    map (fun h cs => h :: cs.flatten) slice cb () = .ok () (⟨[0x06, 0x18, 0x18], [], [], false⟩, ()) :=
  have hr : ∀ v ∈ [Value.null, .null], v.IsScalar := by simp [Value.IsScalar]
  ⟨hr, ((collection_loops (fun h cs => h :: cs.flatten) ⟨[⟨[]⟩, ⟨[0x31]⟩]⟩).2.2
    (fun _ _ => pure .null) () hr).1⟩

/-- **`map` with a compound marker.** A callback returning `Value(ValueType::Array)` makes
`b.add` open a nested Array; `close()` then closes that one, and the builder `map` returns
still has its outer frame open, holding one empty Array. So `map` does not build, for every
callback, the closed Array of the values it returns. -/
theorem map_marker_leaves_frame_open :
    ¬ ∀ (layout : Sealer) (slice : ArraySlice) (cb : Callback Unit Value) (st : Unit),
      let r := (slice.members.enum.mapM fun (p : Nat × Slice) => cb p.2 p.1).run st
      map layout slice cb st = .ok () (⟨layout 0x06 (r.1.map Value.encode), [], [], false⟩, r.2) := by
  intro h
  have := h (fun _ _ => []) ⟨[⟨[]⟩]⟩ (fun _ _ => pure (.array false)) ()
  have hmap : map (fun _ _ => []) ⟨[⟨[]⟩]⟩ (fun _ _ => pure (.array false)) () =
      .ok () (⟨[0x06, 0, 0, 0, 0, 0, 0, 0, 0], [⟨0, 0⟩], [9], false⟩, ()) := rfl
  rw [hmap] at this
  simp at this

end Collection

end VelocyPack
