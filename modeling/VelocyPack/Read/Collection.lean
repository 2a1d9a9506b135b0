import VelocyPack.Read.Tree
import VelocyPack.Collection

/-!
# Reading Collection's results back

`Collection::filter` and `Collection::map` return a `Builder` holding one closed Array. Read
through any layout that comes with its reading, that Array is the members `filter` kept, each
read as it was, or the values `map`'s callback returned, each as the value it is.

* `mapM_run_fst`, `mem_mapM_run` — what a run of the loops' callbacks returns;
* `filter_result`, `map_result` — the builders the two algorithms return (`filterLoop_eq`,
  `mapLoop_eq` and the open Array of `Builder.arrayFrame`, closed);
* `filter_reads_back`, `map_reads_back` — the slice of that builder reads back as the Array
  of the kept members, or of the callback's values, and `size()` is its length.
-/

namespace VelocyPack

namespace Collection

open Builder

variable {σ : Type}

/-! ## Runs of the callbacks -/

/-- A run of `mapM` that pairs each element with a result keeps the elements, in order. -/
theorem mapM_run_fst {α β γ : Type} (g : α → β) (f : α → StateM σ γ) (l : List α) (st : σ) :
    ((l.mapM fun a => (do pure (g a, ← f a) : StateM σ (β × γ))).run st).1.map Prod.fst =
      l.map g := by
  induction l generalizing st with
  | nil => rfl
  | cons a l ih =>
    rcases h : (f a).run st with ⟨c, st1⟩
    simp only [List.mapM_cons, StateT.run_bind, StateT.run_pure, h]
    exact congrArg (g a :: ·) (ih st1)

/-- Every result of a run of `mapM` is a result of `f` at some element, from some state. -/
theorem mem_mapM_run {α β : Type} (f : α → StateM σ β) (l : List α) (st : σ) :
    ∀ b ∈ ((l.mapM f).run st).1, ∃ a ∈ l, ∃ st', b = ((f a).run st').1 := by
  induction l generalizing st with
  | nil => exact fun b hb => absurd hb (List.not_mem_nil b)
  | cons a l ih =>
    rcases h : (f a).run st with ⟨c, st1⟩
    intro b hb
    simp only [List.mapM_cons, StateT.run_bind, StateT.run_pure, h] at hb
    change b ∈ c :: ((l.mapM f).run st1).1 at hb
    rcases List.mem_cons.mp hb with rfl | hb
    · exact ⟨a, List.mem_cons_self a l, st, by rw [h]⟩
    · obtain ⟨a', ha', st', rfl⟩ := ih st1 b hb
      exact ⟨a', List.mem_cons_of_mem a ha', st', rfl⟩

/-! ## What the algorithms return -/

/-- `filter` returns the closed Array of the members its callback kept. -/
theorem filter_result (layout : Sealer) (slice : ArraySlice) (cb : Callback σ Bool) (st : σ) :
    let r := (slice.members.enum.mapM fun (p : Nat × Slice) => do pure (p.2, ← cb p.2 p.1)).run st
    filter layout slice cb st =
      .ok () (⟨layout 0x06 ((r.1.filter (·.2)).map (·.1.bytes)), [], [], false⟩, r.2) := by
  have hloop := filterLoop_eq cb slice.members 0 [] st
  simp only [List.nil_append] at hloop
  simp [filter, onBuilder, arrayFrame_empty, List.enum, hloop, close_arrayFrame]

/-- `map`, when the values its callback returns in the run are scalars, returns the closed
Array of their encodings. -/
theorem map_result (layout : Sealer) (slice : ArraySlice) (cb : Callback σ Value) (st : σ) :
    let r := (slice.members.enum.mapM fun (p : Nat × Slice) => cb p.2 p.1).run st
    (∀ v ∈ r.1, v.IsScalar) →
    map layout slice cb st = .ok () (⟨layout 0x06 (r.1.map Value.encode), [], [], false⟩, r.2) := by
  intro r hr
  have hloop := mapLoop_eq cb slice.members 0 [] st hr
  simp only [List.nil_append] at hloop
  simp [r, map, onBuilder, arrayFrame_empty, List.enum, hloop, close_arrayFrame]

/-! ## Reading the results -/

/-- **`filter` reads back.** Where every member of the Array reads back as one value, whatever
follows it, the builder `filter` returns is sealed, its slice reads back, in every layout that
comes with its reading, as the Array of exactly the members the callback kept, in order, and
`size()` is its length. -/
theorem filter_reads_back (c : Codec) (slice : ArraySlice) (cb : Callback σ Bool) (st : σ)
    (fuel : Nat) (read : Slice → Node)
    (hm : ∀ e ∈ slice.members, ∀ more, readNode c fuel (e.bytes ++ more) = some (read e, more)) :
    let r := (slice.members.enum.mapM fun (p : Nat × Slice) => do pure (p.2, ← cb p.2 p.1)).run st
    ∃ b, filter c.layout slice cb st = .ok () (b, r.2) ∧ ∃ s, b.slice = some s ∧
      readNode c (fuel + 1) s.bytes = some (.array ((r.1.filter (·.2)).map (read ·.1)), []) ∧
      b.size = some s.bytes.length := by
  intro r
  have hkept : ∀ p ∈ r.1.filter (·.2), p.1 ∈ slice.members := by
    intro p hp
    have := List.mem_map_of_mem (·.1) (List.mem_of_mem_filter hp)
    rwa [mapM_run_fst, List.enum_map_snd] at this
  have hread := @readNode_array_of c false ((r.1.filter (·.2)).map (·.1.bytes))
    ((r.1.filter (·.2)).map (read ·.1)) fuel (by
      rw [List.forall₂_map_left_iff, List.forall₂_map_right_iff, List.forall₂_same]
      exact fun p hp => hm p.1 (hkept p hp)) []
  rw [List.append_nil] at hread
  obtain ⟨hslice, hsize⟩ := sealed_slice (layout_ne_nil c 0x06 _ (by decide))
  exact ⟨_, filter_result c.layout slice cb st, _, hslice, hread, hsize⟩

theorem filter_reads_back_first :
    let slice : ArraySlice := ⟨[⟨[0x18]⟩, ⟨[0x19]⟩]⟩
    let cb : Callback Unit Bool := fun _ i => pure (i == 0)
    let read : Slice → Node := fun e => .scalar ((readWhole e.bytes).getD .null)
    (∀ e ∈ slice.members, ∀ more,
      readNode Codec.compact 1 (e.bytes ++ more) = some (read e, more)) ∧
    let r := (slice.members.enum.mapM fun (p : Nat × Slice) => do pure (p.2, ← cb p.2 p.1)).run ()
    ∃ b, filter Codec.compact.layout slice cb () = .ok () (b, r.2) ∧ ∃ s, b.slice = some s ∧
      readNode Codec.compact 2 s.bytes = some (.array ((r.1.filter (·.2)).map (read ·.1)), []) ∧
      b.size = some s.bytes.length := by
  intro slice cb read
  have hm : ∀ e ∈ slice.members, ∀ more,
      readNode Codec.compact 1 (e.bytes ++ more) = some (read e, more) := by
    intro e he more
    simp only [slice, List.mem_cons, List.mem_singleton, List.not_mem_nil, or_false] at he
    rcases he with rfl | rfl
    · exact @readNode_scalar Codec.compact [0x18] .null rfl 0 more
    · exact @readNode_scalar Codec.compact [0x19] (.bool false) rfl 0 more
  exact ⟨hm, filter_reads_back Codec.compact slice cb () 1 read hm⟩

/-- **`map` reads back.** Where the callback returns scalar values a reader can take back,
the builder `map` returns is sealed, its slice reads back, in every layout that comes with its
reading, as the Array of exactly the values the callback returned, in order (a small unsigned
value as the equal small integer), and `size()` is its length. -/
theorem map_reads_back (c : Codec) (slice : ArraySlice) (cb : Callback σ Value)
    (hcb : ∀ e i st, ((cb e i).run st).1.Readable) (st : σ) (fuel : Nat) :
    let r := (slice.members.enum.mapM fun (p : Nat × Slice) => cb p.2 p.1).run st
    ∃ b, map c.layout slice cb st = .ok () (b, r.2) ∧ ∃ s, b.slice = some s ∧
      readNode c (fuel + 2) s.bytes = some (.array (r.1.map (.scalar ·.canonical)), []) ∧
      b.size = some s.bytes.length := by
  intro r
  have hscalar : ∀ v ∈ r.1, v.IsScalar := fun v hv => by
    obtain ⟨p, -, st', rfl⟩ := mem_mapM_run _ _ st v hv
    exact Value.isScalar_of_readable (hcb p.2 p.1 st')
  have hread := @readNode_array_of c false (r.1.map Value.encode)
    (r.1.map (.scalar ·.canonical)) (fuel + 1) (by
      rw [List.forall₂_map_left_iff, List.forall₂_map_right_iff, List.forall₂_same]
      intro v hv more
      obtain ⟨p, -, st', rfl⟩ := mem_mapM_run _ _ st v hv
      exact readNode_scalar c (readScalar_encode_whole _ (hcb p.2 p.1 st')) fuel more) []
  rw [List.append_nil] at hread
  obtain ⟨hslice, hsize⟩ := sealed_slice (layout_ne_nil c 0x06 _ (by decide))
  exact ⟨_, map_result c.layout slice cb st hscalar, _, hslice, hread, hsize⟩

theorem map_reads_back_small_uint :
    let slice : ArraySlice := ⟨[⟨[0x18]⟩, ⟨[0x19]⟩]⟩
    let cb : Callback Unit Value := fun _ _ => pure (.uint 7)
    (∀ e i st, ((cb e i).run st).1.Readable) ∧
    let r := (slice.members.enum.mapM fun (p : Nat × Slice) => cb p.2 p.1).run ()
    ∃ b, map Codec.compact.layout slice cb () = .ok () (b, r.2) ∧ ∃ s, b.slice = some s ∧
      readNode Codec.compact 2 s.bytes = some (.array (r.1.map (.scalar ·.canonical)), []) ∧
      b.size = some s.bytes.length := by
  intro slice cb
  exact ⟨fun _ _ _ => trivial, map_reads_back Codec.compact slice cb (fun _ _ _ => trivial) () 0⟩

end Collection

end VelocyPack
