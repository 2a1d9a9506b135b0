import VelocyPack.Builder.Refinement

/-!
# The bookkeeping of a builder within the contract

What the document layer buys: the invariant is proved once on documents, where a step moves
whole frames, and carried to the builder by `builder_run`.

* `Doc.WF` — an Array never has a child in progress at the innermost frame, and every frame
  below the innermost one holds it as its child in progress; `step_wf` and `run_wf` show that
  every call keeps it;
* `Bookkeeping` — `_keyWritten` and the innermost frame's offsets, read against the document
  the builder holds;
* `contract_keeps_bookkeeping` — every script within the contract, from a fresh builder, leaves
  a builder whose `_keyWritten` is false outside an Object, and whose offsets from the innermost
  frame's `indexStartPos` cut its bytes into exactly the children written into it.
-/

namespace VelocyPack

namespace Document

open Builder

/-! ## The invariant on documents -/

/-- A document a script reaches: the innermost frame has a child in progress only if it is not
an Array (an Object's key waiting for its value), and every frame below it holds the next frame
as its child in progress. -/
structure Doc.WF (d : Doc) : Prop where
  innermost : ∀ f ∈ d.frames.head?, f.isArray = true → f.pending = none
  below : ∀ g ∈ d.frames.tail, g.pending.isSome

namespace Doc

/-! Each shape of document a step returns is well formed, given the frames below. -/

theorem top_wf (top : List UInt8) : (⟨top, []⟩ : Doc).WF := ⟨nofun, nofun⟩

theorem openAtTop_wf (top : List UInt8) (h : UInt8) : (openAtTop top h).WF :=
  ⟨by rintro _ ⟨⟩ _; rfl, nofun⟩

theorem completeIn_wf {top : List UInt8} {f : Frame} {rest : List Frame} (part c : List UInt8)
    (hrest : ∀ g ∈ rest, g.pending.isSome) : (completeIn top f part c rest).WF :=
  ⟨by rintro _ ⟨⟩ _; rfl, hrest⟩

theorem openIn_wf {top : List UInt8} {f : Frame} {rest : List Frame} (h : UInt8) (part : List UInt8)
    (hrest : ∀ g ∈ rest, g.pending.isSome) : (openIn top h f part rest).WF := by
  refine ⟨by rintro _ ⟨⟩ _; rfl, ?_⟩
  simp only [openIn, List.tail_cons, List.mem_cons, forall_eq_or_imp]
  exact ⟨rfl, hrest⟩

theorem key_wf {top : List UInt8} {f : Frame} {rest : List Frame} (ho : f.isObject = true)
    (k : List UInt8) (hrest : ∀ g ∈ rest, g.pending.isSome) :
    (⟨top, { f with pending := some k } :: rest⟩ : Doc).WF :=
  ⟨by rintro _ ⟨⟩ ha; simp [Frame.isArray_of_isObject ho] at ha, hrest⟩

/-! ## Every call keeps it -/

section

variable {d d' : Doc}

theorem openCompound_wf {h : UInt8} (hwf : d.WF) (hs : d.openCompound h = some (.ok d')) :
    d'.WF := by
  rcases d with ⟨top, _ | ⟨f, rest⟩⟩
  · simp only [openCompound, Option.some.injEq, Except.ok.injEq] at hs
    exact hs ▸ openAtTop_wf top h
  · simp only [openCompound] at hs
    split at hs
    · simp only [Option.some.injEq, Except.ok.injEq] at hs
      exact hs ▸ openIn_wf _ _ hwf.below
    · split at hs <;> simp only [Option.some.injEq, Except.ok.injEq, reduceCtorEq] at hs
      exact hs ▸ openIn_wf _ _ hwf.below
    · simp at hs

theorem addItem_wf {pre : List UInt8} {p : Piece} (hwf : d.WF)
    (hs : d.addItem pre p = some (.ok d')) : d'.WF := by
  rcases d with ⟨top, _ | ⟨f, rest⟩⟩
  · rcases p with ⟨c, _⟩ | h | e <;> simp [addItem] at hs <;> subst hs
    exacts [top_wf _, openAtTop_wf _ _]
  · have hrest := hwf.below
    simp only [addItem] at hs
    split at hs
    · -- case: a key waits for its value
      rcases p with ⟨c, _⟩ | h | e <;> simp at hs <;> subst hs
      exacts [completeIn_wf _ _ hrest, openIn_wf _ _ hrest]
    · split at hs
      · -- case: an Object's key position
        rcases p with ⟨c, _ | _⟩ | h | e <;> simp at hs
        exact hs ▸ key_wf ‹_› _ hrest
      · -- case: an Array
        split at hs
        · rcases p with ⟨c, _⟩ | h | e <;> simp at hs <;> subst hs
          exacts [completeIn_wf _ _ hrest, openIn_wf _ _ hrest]
        · simp at hs
    · simp at hs

theorem addNamed_wf {key pre : List UInt8} {p : Piece} (hwf : d.WF)
    (hs : d.addNamed key pre p = some (.ok d')) : d'.WF := by
  rcases d with ⟨top, _ | ⟨f, rest⟩⟩
  · simp [addNamed] at hs
  · simp only [addNamed] at hs
    split at hs
    · simp at hs
    split at hs
    · simp at hs
    split at hs
    · simp only [Option.some.injEq, Except.ok.injEq] at hs
      subst hs
      refine addItem_wf (key_wf ?_ _ hwf.below) ‹_›
      simpa using ‹¬(!f.isObject) = true›
    · simp at hs

theorem addUnchecked_wf {key sub : Piece} (hwf : d.WF)
    (hs : d.addUnchecked key sub = some (.ok d')) : d'.WF := by
  rcases d with ⟨top, _ | ⟨f, rest⟩⟩
  · simp [addUnchecked] at hs
  · simp only [addUnchecked] at hs
    split at hs
    · split at hs
      · exact addNamed_wf hwf hs
      · simp at hs
    · simp at hs

theorem close_wf {opts : Options} {layout : Sealer} (hwf : d.WF)
    (hs : d.close opts layout = some (.ok d')) : d'.WF := by
  rcases d with ⟨top, _ | ⟨f, _ | ⟨g, rest⟩⟩⟩
  · simp [close] at hs
  · simp only [close] at hs
    split at hs <;> simp only [Option.some.injEq, Except.ok.injEq, reduceCtorEq] at hs
    exact hs ▸ top_wf _
  · simp only [close] at hs
    split at hs <;> try split at hs
    all_goals simp only [Option.some.injEq, Except.ok.injEq, reduceCtorEq] at hs
    exact hs ▸ completeIn_wf _ _ fun g' hg' => hwf.below g' (List.mem_cons_of_mem _ hg')

end

end Doc

/-- Every call within the contract keeps a document well formed. -/
theorem step_wf {opts : Options} {layout : Sealer} {d d' : Doc} {op : Op} (hwf : d.WF)
    (hs : d.step opts layout op = some (.ok d')) : d'.WF := by
  cases op with
  | openArray _ | openObject _ => exact Doc.openCompound_wf hwf hs
  | add _ | addTagged _ _ =>
    obtain ⟨p, -, hp⟩ := Option.bind_eq_some.mp hs
    exact Doc.addItem_wf hwf hp
  | addAttr _ _ | addTaggedAttr _ _ _ =>
    obtain ⟨p, -, hp⟩ := Option.bind_eq_some.mp hs
    exact Doc.addNamed_wf hwf hp
  | addUnchecked _ _ =>
    obtain ⟨k, -, hk⟩ := Option.bind_eq_some.mp hs
    obtain ⟨p, -, hp⟩ := Option.bind_eq_some.mp hk
    exact Doc.addUnchecked_wf hwf hp
  | addExternal _ =>
    simp only [Doc.step] at hs
    split at hs
    · simp at hs
    · exact Doc.addItem_wf hwf hs
  | close => exact Doc.close_wf hwf hs
  | clear =>
    simp only [Doc.step, Option.some.injEq, Except.ok.injEq] at hs
    exact hs ▸ Doc.top_wf _

/-- Every script within the contract keeps a document well formed; a call that throws leaves
the document as it was. -/
theorem run_wf {opts : Options} {layout : Sealer} {ops : List Op} {d d' : Doc} (hwf : d.WF)
    (h : Doc.run opts layout ops d = some d') : d'.WF := by
  induction ops generalizing d with
  | nil =>
    simp only [Doc.run, Option.some.injEq] at h
    exact h ▸ hwf
  | cons op ops ih =>
    simp only [Doc.run] at h
    rcases hs : d.step opts layout op with _ | _ | d1 <;> rw [hs] at h
    · cases h
    · exact ih hwf h
    · exact ih (step_wf hwf hs) h

/-! ## The bookkeeping of the builder -/

/-- `_keyWritten` and the offsets of the innermost frame of a builder `b` that holds `d`:
`_keyWritten` is false on an empty stack and in an Array, and true in an Object exactly when a
key waits for its value; the offsets from the innermost frame's `indexStartPos` cut its bytes
into its complete children and the child in progress, and an Array has none in progress. -/
structure Bookkeeping (d : Doc) (b : Builder) : Prop where
  closed : b.stack = [] → b.keyWritten = false
  array : b.isOpenArray = true → b.keyWritten = false
  object : ∀ f ∈ d.frames.head?, b.isOpenObject = true → b.keyWritten = f.pending.isSome
  children : ∀ f ∈ d.frames.head?, ∃ c ∈ b.stack.head?,
    cutAt (b.buffer.drop c.startPos) (b.indexes.drop c.indexStartPos) = f.done ++ f.pending.toList
  array_children : ∀ f ∈ d.frames.head?, b.isOpenArray = true → f.pending = none

namespace Frame

/-- The offsets a frame records cut its bytes into its children. -/
theorem cutAt_entries (f : Frame) : cutAt f.bytes f.entries = f.done ++ f.pending.toList := by
  have h := cutAt_childOffsets (f.head :: List.replicate 8 0) (f.done ++ f.pending.toList)
  rcases hp : f.pending with _ | k <;> simp_all [bytes, entries, childOffsets_concat]

end Frame

/-- The builder of a well-formed document keeps its bookkeeping. -/
theorem bookkeeping_of_wf {d : Doc} (hwf : d.WF) : Bookkeeping d d.builder := by
  rcases d with ⟨top, _ | ⟨f, rest⟩⟩
  · exact ⟨fun _ => rfl, nofun, nofun, nofun, nofun⟩
  · refine ⟨fun h => absurd h (by simp), fun ha => ?_, ?_, ?_, ?_⟩
    · -- case: an Array's head is not an Object's
      simpa using Frame.keyWritten_of_isArray (by simpa using ha)
    · rintro _ ⟨⟩ ho
      simp_all [Frame.keyWritten]
    · rintro _ ⟨⟩
      refine ⟨_, rfl, ?_⟩
      simpa [Doc.builder, Frame.extend, pos] using Frame.cutAt_entries f
    · rintro _ ⟨⟩ ha
      exact hwf.innermost f rfl (by simpa using ha)

/-- **The bookkeeping of every script within the contract.** From a fresh builder, every
script whose calls the document contract allows (each call returns or throws an exception the
caller catches) leaves a builder with the bookkeeping of the document the script makes. -/
theorem contract_keeps_bookkeeping (opts : Options) (layout : Sealer) (ops : List Op) (d : Doc)
    (h : Doc.run opts layout ops ⟨[], []⟩ = some d) :
    Bookkeeping d (run opts layout ops empty) := by
  rw [← builder_empty, builder_run opts layout ops _ d h]
  exact bookkeeping_of_wf (run_wf (Doc.top_wf []) h)

theorem contract_keeps_bookkeeping_nested :
    let ops : List Op := [.openObject false, .addAttr [0x61] (.value (.array false)),
      .add (.value .null), .add (.value .none)]
    let d : Doc := ⟨[], [⟨0x06, [[0x18]], none⟩, ⟨0x0b, [], some [0x41, 0x61]⟩]⟩
    Doc.run Options.defaults (fun h cs => h :: cs.flatten) ops ⟨[], []⟩ = some d ∧
      Bookkeeping d (run Options.defaults (fun h cs => h :: cs.flatten) ops empty) :=
  ⟨rfl, contract_keeps_bookkeeping Options.defaults (fun h cs => h :: cs.flatten) _ _ rfl⟩

end Document

end VelocyPack
