import LayerGraph.Proofs.Layout.InPlace

/-!
# Windows of finished programs

In a finished program a convolution that takes the natural size of its window reads something whose
border covers the window, unless it reads a constant buffer: a buffer that has replaced a computed
constant has lost the border.

This needs network inputs in formats that are not changed to `bfyx` after room has been made for
windows. Without such a change no border is needed that was not needed before; with it, one may be
missing.
-/

namespace LayerGraph

open List Option

/-- A network input in another format than `bfyx` has a batch for which convolutions prefer that. -/
def Kind.SuitsBatch (kind : Kind) : Prop :=
  ∀ layout, kind = .inputLayout layout → layout.format = .bfyx ∨ 16 ≤ layout.shape.batch

namespace Program

/-- What is read by a convolution of natural size, with the window through which it is read. -/
def windowInput? (program : Program) (key : NodeKey) : Option (Window × Node) := do
  let node ← program.node? key
  let .convolution _ window none := node.kind | none
  let input ← program.dependency? key 0
  let source ← program.node? input
  return (window, source)

theorem windowInput?_eq_some {program : Program} {k : NodeKey} {win : Window} {src : Node} :
    program.windowInput? k = some (win, src) ↔ ∃ n features i,
      program.node? k = some n ∧ n.kind = .convolution features win none ∧
      program.dependency? k 0 = some i ∧ program.node? i = some src := by
  constructor
  · intro e
    simp only [windowInput?, bind, bind_eq_some_iff] at e
    obtain ⟨n, hk, rest⟩ := e
    split at rest
    · next features h kind =>
      simp only [bind_eq_some_iff, pure, some.injEq, Prod.mk.injEq] at rest
      obtain ⟨i, hr, _, foundSrc, rfl, rfl⟩ := rest
      exact ⟨n, features, i, hk, kind, hr, foundSrc⟩
    · cases rest
  · rintro ⟨n, features, i, hk, kind, hr, foundSrc⟩
    simp [windowInput?, hk, kind, hr, foundSrc]

/-- Every convolution of natural size that reads the format `bfyx` reads inside of a border that is wide
enough for its window. -/
def CoversWindows (program : Program) : Prop :=
  ∀ key window source layout size needed, program.windowInput? key = some (window, source) →
    source.layout = some layout → layout.format = .bfyx → window.outputSize layout.shape.spatial = .ok
    size → window.neededPadding layout.shape.spatial size = .ok needed → source.padding.Covers needed

end Program

namespace Topology

variable {topology : Topology} {opts : Options} {env : Surroundings} {number : Nat}
  {finished : Program}

/-- **In a finished program everything that windows read has room for them,** but for constant
buffers. -/
theorem fitsCached_of_build (unreserved : ∀ prim ∈ topology.primitives, ¬ Program.Reserved prim.id)
    (optimizes : opts.noOptimizations = false)
    (enabled : ∀ pass ∈ [Pass.setUp, .prepareWindows, .cleanUp], opts.enables pass.name)
    (suits : opts.optimizeData → ∀ prim ∈ topology.primitives, prim.kind.SuitsBatch)
    (built : (topology.build opts env number).outcome = .ok finished) :
    finished.layering.FitsCached := by
  obtain ⟨-, complete⟩ := sound_of_build (enabled .setUp (by decide)) built
  obtain ⟨program, s, accepted, finishes, rfl, -⟩ := exists_of_build built
  obtain ⟨wf, rfl⟩ := consistent_ofTopology accepted
  have declares := Program.declares_of_ofTopology accepted
  have crops : ∀ (split crop : Primitive) part offset features, split.kind.SuitsBatch →
      crop.id = splitPartId split.id part → crop.kind = .crop offset features →
      crop.kind.SuitsBatch := by
    rintro split crop part offset features - - kind lay isInput
    rw [kind] at isInput
    cases isInput
  let holds : NodeKey → Node → Prop := fun _ node => node.runsInPlace = false ∧
    (program.options.optimizeData → node.kind.SuitsBatch)
  have lasting : Node.Lasting holds :=
    { marked := fun _ _ _ _ h => h
      fused := fun _ _ _ h => h
      widened := fun _ _ _ h => h
      reorder := fun _ prim _ _ _ kind _ => ⟨rfl, fun _ lay isInput => by
        cases kind.symm.trans isInput⟩
      buffer := fun _ _ _ => ⟨rfl, fun _ lay isInput => by cases isInput⟩
      replaced := fun _ _ _ h => h }
  have each : program.EachNode holds := fun k n hk =>
    ⟨congrArg Node.runsInPlace (declares.marked k n hk), fun optimizesData =>
      declares.primitives (·.kind.SuitsBatch) (suits optimizesData) crops hk⟩
  have ends : Ensures Build.build (.start env program number) _ fun _ => True :=
    Build.ensures_build_justified lasting (fun _ _ h => h) (fun _ _ _ h => h) (fun _ _ h => h.1) wf
      each optimizes enabled
  obtain ⟨folded, sound, eachFolded, justified, solved, roomy⟩ := ends.of_ok finishes
  obtain ⟨lays, inside, settled, fits⟩ := roomy fun _ _ => declares.unreserved unreserved
  refine justified.reordered.fits settled fits solved complete.isTopological (fun k layer hk => ?_) ?_
  · obtain ⟨node, found, -⟩ := Program.layer?_eq_some.mp hk
    exact complete.mem_of_node? found
  rintro new i fmt hi reorders rfl
  obtain ⟨src, hd, foundSrc, kind, differs, preferred⟩ := reorders.declared settled hi
  obtain ⟨node, hk, rfl⟩ := Program.layer?_eq_some.mp foundSrc
  cases optimizesData : program.options.optimizeData with
  | false =>
    -- No reads have changed, so the reorder has been there before.
    have reads : folded.dependencies new = [i] :=
      (congrFun (justified.same optimizesData) new).symm.trans reorders.reads
    obtain ⟨-, live⟩ := sound.consistent.reads_live new i (reads ▸ mem_singleton_self i)
    obtain ⟨was, found⟩ := Program.contains_iff.mp live
    cases reorders.vacant.symm.trans (Program.layer?_of_node? found)
  | true =>
    rcases (eachFolded i node hk).2 optimizesData hd kind with isBfyx | large
    · exact differs isBfyx
    · rw [preferredFormat, if_pos large] at preferred
      cases preferred

/-! ### Two topologies with images -/

/-- Two convolutions of natural size, the first over the activation of an input and the second over
the activation of a constant. -/
def activatedImages : Topology where
  primitives := [
    .inputLayout "picture" ⟨.bfyx, ⟨1, 1, 4, 4⟩, {}⟩,
    .data "background" ⟨.bfyx, ⟨1, 1, 4, 4⟩, {}⟩,
    { id := "shade", kind := .activation .relu, inputs := ["picture"] },
    { id := "dark", kind := .activation .relu, inputs := ["background"] },
    { id := "near", kind := .convolution 1 overEdges none, inputs := ["shade"] },
    { id := "far", kind := .convolution 1 overEdges none, inputs := ["dark", "picture"] }]
  outputs := ["near", "far"]

/-- A convolution of natural size over an input whose format is changed to `bfyx`. -/
def reformattedImage : Topology where
  primitives := [
    .inputLayout "x" ⟨.yxfb, ⟨1, 1, 4, 4⟩, {}⟩,
    { id := "y", kind := .convolution 1 overEdges none, inputs := ["x"] }]
  outputs := ["y"]

/-- As much of what a convolution of natural size reads as tells whether its window stays inside. -/
def seenBy (finished : Program) (key : NodeKey) :
    Option (Window × KindTag × Padding × Option Layout) :=
  (finished.windowInput? key).map fun read =>
    (read.1, read.2.tag, read.2.padding, read.2.layout.map Layout.bare)

variable {k : NodeKey} {tag : KindTag}

theorem exists_of_seenBy {border : Padding} (seen : seenBy finished k = some (overEdges, tag, border,
    some image)) : ∃ src lay, finished.windowInput? k = some (overEdges, src) ∧ src.tag = tag ∧
    src.padding = border ∧ src.layout = some lay ∧ lay.format = .bfyx ∧ lay.shape = image.shape
    := by
  simp only [seenBy, map_eq_some_iff, Prod.mk.injEq] at seen
  obtain ⟨⟨win, src⟩, hr, rfl, sameTag, sameBorder, lay, kn, bare⟩ := seen
  have fmt : lay.bare.format = .bfyx := congrArg Layout.format bare
  have shape : lay.bare.shape = image.shape := congrArg Layout.shape bare
  exact ⟨src, lay, hr, sameTag, sameBorder, kn, fmt, shape⟩

theorem not_coversWindows_of_seenBy (seen : seenBy finished k = some (overEdges, tag, {}, some image)) :
    ¬ finished.CoversWindows := by
  intro covers
  obtain ⟨src, lay, hr, -, border, kn, fmt, shape⟩ := exists_of_seenBy seen
  have covered := covers k overEdges src lay ⟨4, 4⟩ ⟨⟨1, 1⟩, ⟨1, 1⟩⟩ hr kn fmt
    (by rw [shape]; rfl) (by rw [shape]; rfl)
  rw [border] at covered
  revert covered
  decide

set_option synthInstance.maxSize 256 in
theorem exists_activatedImages : ∃ finished,
    (activatedImages.build {} {} 0).outcome = .ok finished ∧
      seenBy finished 4 = some (overEdges, .activation, ⟨⟨1, 1⟩, ⟨1, 1⟩⟩, some image) ∧
      seenBy finished 5 = some (overEdges, .data, {}, some image) :=
  exists_of_outcome (by decide +kernel)

/-! ### Windows of finished programs -/

/-- **Convolutions read inside of borders, unless they read constant buffers.** In a finished program
the border of what a convolution of natural size reads in the format `bfyx` is wide enough for its
window, except for the border of a constant buffer, which is so only when none is needed. Network
inputs in other formats need a batch for which convolutions prefer these, since a reorder to `bfyx`
comes after borders have been decided. -/
theorem covers_windows_unless_constant (topology : Topology) (options : Options)
    (surroundings : Surroundings) (number : Nat) (finished : Program)
    (unreserved : ∀ primitive ∈ topology.primitives, ¬ primitive.id.startsWith "_const_prop_")
    (optimizes : options.noOptimizations = false)
    (enabled : ∀ pass ∈ [Pass.setUp, .prepareWindows, .cleanUp], options.enables pass.name)
    (suits : options.optimizeData → ∀ primitive ∈ topology.primitives, ∀ layout,
      primitive.kind = .inputLayout layout → layout.format = .bfyx ∨ 16 ≤ layout.shape.batch)
    (built : (topology.build options surroundings number).outcome = .ok finished) :
    ∀ key window source layout, finished.windowInput? key = some (window, source) →
      source.layout = some layout → layout.format = .bfyx →
      ∃ size needed, window.outputSize layout.shape.spatial = .ok size ∧
        window.neededPadding layout.shape.spatial size = .ok needed ∧
        (source.padding.Covers needed ↔ source.tag ≠ .data ∨ needed.isZero) := by
  intro key window source layout seen known format
  obtain ⟨node, features, input, found, kind, reads, foundSource⟩ :=
    Program.windowInput?_eq_some.mp seen
  have fits := fitsCached_of_build unreserved optimizes enabled suits built
  have cached : finished.layering.known input = some layout.bare := by
    rw [Program.known_of_node? foundSource, known, Option.map_some]
  obtain ⟨size, needed, sized, needs, room⟩ := fits key node.layer features window input source.layer
    layout.bare (Program.layer?_of_node? found) kind reads (Program.layer?_of_node? foundSource) cached
    format
  exact ⟨size, needed, sized, needs, room.covers_iff⟩

/-- The border that was made around the second image is gone: it was around a computed constant. -/
theorem covers_windows_unless_constant_activatedImages :
    ∃ finished, (activatedImages.build {} {} 0).outcome = .ok finished ∧
      (∃ source, finished.windowInput? 4 = some (overEdges, source) ∧
        source.padding.Covers ⟨⟨1, 1⟩, ⟨1, 1⟩⟩) ∧
      ∃ source, finished.windowInput? 5 = some (overEdges, source) ∧
        ¬ source.padding.Covers ⟨⟨1, 1⟩, ⟨1, 1⟩⟩ := by
  obtain ⟨finished, built, first, second⟩ := exists_activatedImages
  have suits : ∀ primitive ∈ activatedImages.primitives, ∀ layout,
      primitive.kind = .inputLayout layout → layout.format = .bfyx ∨ 16 ≤ layout.shape.batch := by
    simp [activatedImages, Primitive.inputLayout, Primitive.data]
  have covers_iff : ∀ key tag border,
      seenBy finished key = some (overEdges, tag, border, some image) →
      ∃ source, finished.windowInput? key = some (overEdges, source) ∧
        (source.padding.Covers ⟨⟨1, 1⟩, ⟨1, 1⟩⟩ ↔ tag ≠ .data) := by
    intro key tag border seen
    obtain ⟨source, layout, reads, rfl, -, known, format, shape⟩ := exists_of_seenBy seen
    obtain ⟨size, needed, sized, needs, room⟩ := covers_windows_unless_constant activatedImages {} {}
      0 finished (by decide) rfl (by decide) (fun _ => suits) built key overEdges source layout reads
      known format
    rw [shape] at sized needs
    cases sized
    cases needs
    exact ⟨source, reads, room.trans (or_iff_left (by decide))⟩
  obtain ⟨near, readsNear, coversNear⟩ := covers_iff 4 _ _ first
  obtain ⟨far, readsFar, coversFar⟩ := covers_iff 5 _ _ second
  exact ⟨finished, built, ⟨near, readsNear, coversNear.mpr (by decide)⟩, far, readsFar,
    fun covers => coversFar.mp covers rfl⟩

/-- **A border can be missing**, around a constant that the build has computed and around an input
whose format it has changed. -/
theorem not_coversWindows_of_replaced_input :
    (∃ finished, (activatedImages.build {} {} 0).outcome = .ok finished ∧
      ¬ finished.CoversWindows) ∧
    ∃ finished, (reformattedImage.build {} {} 0).outcome = .ok finished ∧
      ¬ finished.CoversWindows := by
  constructor
  · obtain ⟨finished, built, -, second⟩ := exists_activatedImages
    exact ⟨finished, built, not_coversWindows_of_seenBy second⟩
  · obtain ⟨finished, built, seen⟩ : ∃ fin, (reformattedImage.build {} {} 0).outcome = .ok fin ∧
        seenBy fin 1 = some (overEdges, .reorder, {}, some image) :=
      exists_of_outcome (by decide +kernel)
    exact ⟨finished, built, not_coversWindows_of_seenBy seen⟩

end Topology

end LayerGraph
