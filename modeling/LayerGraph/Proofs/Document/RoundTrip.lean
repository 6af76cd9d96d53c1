import LayerGraph.Document.Options
import LayerGraph.Document.Topology
import LayerGraph.Proofs.Json.Codec

/-!
# Documents are read as they were written

Every record of a topology and the build options get a codec here, which lists the fields with what they
hold and, for those that may be left out, with the value that they have then. A primitive is one object
for the fields of the primitive and those of its kind, which are told apart by their names.
-/

namespace LayerGraph

open Options SplitPart Format

variable {members : List (String × Json)}

open Json (Codec Field Abridged bind_eq)

/-! ## Geometry -/

namespace Spatial

variable {α : Type}

/-- Pairs are arrays of two. -/
def codec (codec : Codec α) : Codec (Spatial α) where
  Writes pair json := ∃ x y, json = .array [x, y] ∧ codec.Writes pair.x x ∧ codec.Writes pair.y y
  read := ofJson? codec.read
  depth := codec.depth + 1
  reads := by
    rintro pair json ⟨x, y, rfl, first, second⟩
    exact bind_eq (codec.reads first) (bind_eq (codec.reads second) rfl)
  writable := by
    rintro pair json ⟨x, y, rfl, first, second⟩
    simp [Json.writable, Json.writableItems, codec.writable first, codec.writable second]

def sizesCodec : Codec (Spatial UInt32) := codec .uint32

def offsetsCodec : Codec (Spatial Int32) := codec .int32

end Spatial

theorem Format.ofName?_name (fmt : Format) : ofName? fmt.name = some fmt := by
  cases fmt <;> rfl

/-- Formats are names. -/
def Format.codec (form : Json.NameForm) : Codec Format := .name form name ofName? ofName?_name

namespace Shape

/-- A shape is given completely. -/
def fields (shape : Shape) : List Field :=
  [.required "batch" .uint32 shape.batch, .required "features" .uint32 shape.features,
    .required "y" .uint32 shape.y, .required "x" .uint32 shape.x]

theorem ofJson?_of_abridged {shape : Shape}
    (abridged : Abridged shape.fields members) : ofJson? (.object members) = some shape := by
  have nd : (shape.fields.map Field.name).Nodup := (by decide : fieldNames.Nodup)
  refine bind_eq (abridged.fields? nd _) ?_
  refine bind_eq (abridged.required nd .uint32 0) ?_
  refine bind_eq (abridged.required nd .uint32 1) ?_
  refine bind_eq (abridged.required nd .uint32 2) ?_
  exact bind_eq (abridged.required nd .uint32 3) rfl

def codec : Codec Shape := .record fields ofJson? 0 (fun _ => rfl) ofJson?_of_abridged

end Shape

namespace Padding

/-- A side of a border that is left out is zero. -/
def fields (padding : Padding) : List Field :=
  [.optional "lower" Spatial.sizesCodec padding.lower ⟨0, 0⟩,
    .optional "upper" Spatial.sizesCodec padding.upper ⟨0, 0⟩]

theorem ofJson?_of_abridged {pad : Padding}
    (abridged : Abridged pad.fields members) : ofJson? (.object members) = some pad := by
  have nd : (pad.fields.map Field.name).Nodup := (by decide : fieldNames.Nodup)
  refine bind_eq (abridged.fields? nd _) ?_
  refine bind_eq (abridged.optional nd Spatial.sizesCodec 0) ?_
  exact bind_eq (abridged.optional nd Spatial.sizesCodec 1) rfl

def codec : Codec Padding := .record fields ofJson? 1 (fun _ => rfl) ofJson?_of_abridged

end Padding

namespace Layout

/-- A layout has the format `bfyx` and no border unless it says otherwise. -/
def fields (form : Json.NameForm) (layout : Layout) : List Field :=
  [.optional "format" (codec form) layout.format .bfyx,
    .required "shape" Shape.codec layout.shape,
    .optional "padding" Padding.codec layout.padding { lower := ⟨0, 0⟩, upper := ⟨0, 0⟩ }]

theorem ofJson?_of_abridged {form : Json.NameForm} {lay : Layout}
    (abridged : Abridged (lay.fields form) members) :
    ofJson? form (.object members) = some lay := by
  have nd : ((lay.fields form).map Field.name).Nodup := (by decide : fieldNames.Nodup)
  refine bind_eq (abridged.fields? nd _) ?_
  refine bind_eq (abridged.optional nd (codec form) 0) ?_
  refine bind_eq (abridged.required nd Shape.codec 1) ?_
  exact bind_eq (abridged.optional nd Padding.codec 2) rfl

def codec (form : Json.NameForm) : Codec Layout :=
  .record (fields form) (ofJson? form) 2 (fun _ => rfl) ofJson?_of_abridged

end Layout

namespace Window

/-- A window moves by one and leaves nothing out unless it says otherwise. -/
def fields (window : Window) : List Field :=
  [.required "kernel" Spatial.sizesCodec window.kernel,
    .optional "stride" Spatial.sizesCodec window.stride ⟨1, 1⟩,
    .optional "dilation" Spatial.sizesCodec window.dilation ⟨1, 1⟩,
    .optional "input_offset" Spatial.offsetsCodec window.inputOffset ⟨0, 0⟩]

theorem ofJson?_of_abridged {win : Window}
    (abridged : Abridged win.fields members) : ofJson? (.object members) = some win := by
  have nd : (win.fields.map Field.name).Nodup := (by decide : fieldNames.Nodup)
  refine bind_eq (abridged.fields? nd _) ?_
  refine bind_eq (abridged.required nd Spatial.sizesCodec 0) ?_
  refine bind_eq (abridged.optional nd Spatial.sizesCodec 1) ?_
  refine bind_eq (abridged.optional nd Spatial.sizesCodec 2) ?_
  exact bind_eq (abridged.optional nd Spatial.offsetsCodec 3) rfl

def codec : Codec Window := .record fields ofJson? 1 (fun _ => rfl) ofJson?_of_abridged

end Window

/-! ## Kinds -/

namespace SplitPart

def fields (part : SplitPart) : List Field :=
  [.required "name" .text part.name, .required "feature_offset" .uint32 part.featureOffset]

theorem ofJson?_of_abridged {part : SplitPart}
    (abridged : Abridged part.fields members) : ofJson? (.object members) = some part := by
  have nd : (part.fields.map Field.name).Nodup := (by decide : fieldNames.Nodup)
  refine bind_eq (abridged.fields? nd _) ?_
  refine bind_eq (abridged.required nd .text 0) ?_
  exact bind_eq (abridged.required nd .uint32 1) rfl

def codec : Codec SplitPart := .record fields ofJson? 0 (fun _ => rfl) ofJson?_of_abridged

end SplitPart

theorem PoolingMode.ofName?_name (mode : PoolingMode) : ofName? mode.name = some mode := by
  cases mode <;> rfl

theorem EltwiseMode.ofName?_name (mode : EltwiseMode) : ofName? mode.name = some mode := by
  cases mode <;> rfl

theorem Activation.ofName?_name (fn : Activation) : ofName? fn.name = some fn := by
  cases fn <;> rfl

theorem KindTag.ofName?_name (tag : KindTag) : ofName? tag.name = some tag := by
  cases tag <;> rfl

/-- The name of a kind inside a primitive. -/
def KindTag.codec : Codec KindTag :=
  .single toJson Primitive.tag? 0 ofName?_name fun _ => rfl

/-- A size that may be missing. -/
def Spatial.sizeCodec : Codec (Option (Spatial UInt32)) :=
  sizesCodec.option (by rintro value ⟨x, y, same, _⟩; cases same)

namespace Kind

/-- The parameters of a kind. No output size and no number of features is written as null. -/
def fields : Kind → List Field
  | inputLayout layout => [.required "layout" (Layout.codec .lenient) layout]
  | data layout => [.required "layout" (Layout.codec .lenient) layout]
  | convolution outputFeatures window outputSize =>
    [.required "output_features" .uint32 outputFeatures, .required "window" Window.codec window,
      .optional "output_size" Spatial.sizeCodec outputSize none]
  | pooling mode window outputSize =>
    [.required "mode" (.name .lenient PoolingMode.name _ PoolingMode.ofName?_name) mode,
      .required "window" Window.codec window,
      .optional "output_size" Spatial.sizeCodec outputSize none]
  | activation function =>
    [.required "func" (.name .lenient Activation.name _ Activation.ofName?_name) function]
  | eltwise mode => [.required "mode" (.name .lenient EltwiseMode.name _ EltwiseMode.ofName?_name) mode]
  | fullyConnected outputFeatures => [.required "output_features" .uint32 outputFeatures]
  | softmax => []
  | reorder format => [.required "format" (codec .lenient) format]
  | reshape shape => [.required "shape" Shape.codec shape]
  | concatenation => []
  | split parts => [.required "outputs" codec.list parts]
  | crop featureOffset features =>
    [.required "feature_offset" .uint32 featureOffset,
      .optional "features" (Codec.uint32.option fun _ => Json.noConfusion) features none]

/-- The kind is named by the member `type`. -/
def tagField (kind : Kind) : Field :=
  .required "type" KindTag.codec kind.tag

theorem names_fields (kind : Kind) : kind.fields.map Field.name = fieldNames kind.tag := by
  cases kind <;> rfl

theorem distinct_fields (kind : Kind) : ((kind.tagField :: kind.fields).map Field.name).Nodup := by
  rw [List.map_cons, names_fields]
  show ("type" :: fieldNames kind.tag).Nodup
  cases kind.tag <;> decide

variable {kind : Kind}

/-- The parameters of a kind are read as this kind, next to its name. -/
theorem ofFields?_of_abridged (abridged : Abridged (kind.tagField :: kind.fields) members) : ofFields?
    kind.tag (.object members) = some kind := by
  have nd := kind.distinct_fields
  refine bind_eq (abridged.fields? nd _) ?_
  cases kind with
  | inputLayout lay =>
    exact congrArg (inputLayout <$> ·) (abridged.required nd (Layout.codec .lenient) 1)
  | data lay =>
    exact congrArg (data <$> ·) (abridged.required nd (Layout.codec .lenient) 1)
  | convolution outputFeatures win outputSize =>
    refine bind_eq (abridged.required nd .uint32 1) ?_
    refine bind_eq (abridged.required nd Window.codec 2) ?_
    exact bind_eq (abridged.optional nd Spatial.sizeCodec 3) rfl
  | pooling mode win outputSize =>
    refine bind_eq (abridged.required nd (.name .lenient _ _ PoolingMode.ofName?_name) 1) ?_
    refine bind_eq (abridged.required nd Window.codec 2) ?_
    exact bind_eq (abridged.optional nd Spatial.sizeCodec 3) rfl
  | activation fn =>
    exact congrArg (activation <$> ·)
      (abridged.required nd (.name .lenient _ _ Activation.ofName?_name) 1)
  | eltwise mode =>
    exact congrArg (eltwise <$> ·)
      (abridged.required nd (.name .lenient _ _ EltwiseMode.ofName?_name) 1)
  | fullyConnected outputFeatures =>
    exact congrArg (fullyConnected <$> ·) (abridged.required nd .uint32 1)
  | softmax => rfl
  | reorder fmt =>
    exact congrArg (reorder <$> ·) (abridged.required nd (codec .lenient) 1)
  | reshape shape =>
    exact congrArg (reshape <$> ·) (abridged.required nd Shape.codec 1)
  | concatenation => rfl
  | split parts =>
    exact congrArg (split <$> ·) (abridged.required nd codec.list 1)
  | crop featureOffset features =>
    refine bind_eq (abridged.required nd .uint32 1) ?_
    exact bind_eq (abridged.optional nd (Codec.uint32.option fun _ => Json.noConfusion) 2) rfl

theorem ofMembers?_of_abridged (abridged : Abridged (kind.tagField :: kind.fields) members) : ofMembers?
    Primitive.tag? members = some kind := by
  refine bind_eq (abridged.fields? kind.distinct_fields _) ?_
  refine bind_eq (abridged.required kind.distinct_fields KindTag.codec 0) ?_
  exact ofFields?_of_abridged abridged

end Kind

/-! ## Primitives and topologies -/

namespace Primitive

/-- The fields of a primitive, with those of its kind among them. -/
def fields (primitive : Primitive) : List Field :=
  .required "id" .text primitive.id :: primitive.kind.tagField :: (primitive.kind.fields ++
    [.optional "inputs" Codec.text.list primitive.inputs [],
      .optional "output_padding" Padding.codec primitive.outputPadding
        { lower := ⟨0, 0⟩, upper := ⟨0, 0⟩ }])

/-- No parameter of a kind has the name of a field of the primitive itself. -/
theorem distinct_fields (prim : Primitive) : (prim.fields.map Field.name).Nodup := by
  have names : prim.fields.map Field.name =
      "id" :: "type" :: (Kind.fieldNames prim.kind.tag ++ ["inputs", "output_padding"]) := by
    rw [fields, List.map_cons, List.map_cons, List.map_append, Kind.names_fields]
    rfl
  rw [names]
  cases prim.kind.tag <;> decide

/-- What is set aside are the members that describe the kind. -/
theorem filter_fields (prim : Primitive) :
    (prim.fields.filter fun field => !fieldNames.contains field.name) =
      prim.kind.tagField :: prim.kind.fields := by
  obtain ⟨_, kind, _, _⟩ := prim
  cases kind <;> rfl

theorem bounded_fields (prim : Primitive) : prim.fields.all fun field => field.depth ≤ 3 := by
  obtain ⟨_, kind, _, _⟩ := prim
  cases kind <;> rfl

theorem ofJson?_of_abridged {prim : Primitive} (abridged : Abridged prim.fields members) :
    ofJson? 3 (.object members) = some prim := by
  have nd := prim.distinct_fields
  have aside := abridged.filter fun name => !fieldNames.contains name
  rw [filter_fields] at aside
  have bounded : (prim.kind.tagField :: prim.kind.fields).all fun field => field.depth ≤ 3 := by
    rw [← filter_fields, List.all_filter]
    exact List.all_eq_true.mpr fun field mem => by
      simp [of_decide_eq_true (List.all_eq_true.mp prim.bounded_fields field mem)]
  have readable := (Json.writableMembers_mono _ (by decide : 3 ≤ Json.nestingLimit - 3)
    (aside.writableMembers bounded)).2
  have inputs : prim.fields[prim.kind.fields.length + 2]? =
      some (.optional "inputs" Codec.text.list prim.inputs []) := by
    simp [fields]
  have outputPadding : prim.fields[prim.kind.fields.length + 3]? =
      some (.optional "output_padding" Padding.codec prim.outputPadding
        { lower := ⟨0, 0⟩, upper := ⟨0, 0⟩ }) := by
    simp [fields]
  refine bind_eq (if_pos readable) ?_
  refine bind_eq (abridged.fields? nd _) ?_
  refine bind_eq (abridged.required nd .text 0) ?_
  refine bind_eq (Kind.ofMembers?_of_abridged aside) ?_
  refine bind_eq (abridged.optional nd Codec.text.list _ inputs) ?_
  exact bind_eq (abridged.optional nd Padding.codec _ outputPadding) rfl

def codec : Codec Primitive := .record fields (ofJson? 3) 3 bounded_fields ofJson?_of_abridged

end Primitive

namespace Topology

/-- Only the primitives of a topology have to be given. -/
def fields (topology : Topology) : List Field :=
  [.required "primitives" Primitive.codec.list topology.primitives,
    .optional "inputs" Codec.text.list topology.inputs [],
    .optional "outputs" Codec.text.list topology.outputs []]

theorem ofJson?_of_abridged {topo : Topology}
    (abridged : Abridged topo.fields members) : ofJson? (.object members) = some topo := by
  have nd : (topo.fields.map Field.name).Nodup := (by decide : fieldNames.Nodup)
  refine bind_eq (abridged.fields? nd _) ?_
  refine bind_eq (abridged.required nd Primitive.codec.list 0) ?_
  refine bind_eq (abridged.optional nd Codec.text.list 1) ?_
  exact bind_eq (abridged.optional nd Codec.text.list 2) rfl

def codec : Codec Topology := .record fields ofJson? 5 (fun _ => rfl) ofJson?_of_abridged

end Topology

/-! ## Build options -/

theorem QueueType.ofName?_name (queue : QueueType) : ofName? queue.name = some queue := by
  cases queue <;> rfl

theorem MemoryStrategy.ofName?_name (strat : MemoryStrategy) : ofName? strat.name = some strat := by
  cases strat <;> rfl

def MemoryStrategy.codec : Codec MemoryStrategy := .name .strict name ofName? ofName?_name

namespace Options

/-- Every option may be left out. -/
def fields (options : Options) : List Field :=
  [.optional "debug" .bool options.debug false,
    .optional "no_optimizations" .bool options.noOptimizations false,
    .optional "optimize_data" .bool options.optimizeData true,
    .optional "output_size_handling" (Codec.bool.option fun _ => Json.noConfusion)
      options.outputSizeHandling none,
    .optional "enable_memory_pool" .bool options.enableMemoryPool true,
    .optional "queue_type" (.name .strict _ _ QueueType.ofName?_name) options.queueType .inOrder,
    .optional "memory_dependency_strategy" (MemoryStrategy.codec.option fun _ => Json.noConfusion)
      options.chosenStrategy none,
    .optional "disabled_passes" Codec.text.list options.disabledPasses [],
    .optional "graph_dumps_dir" (Codec.text.option fun _ => Json.noConfusion)
      options.dumpDirectory none]

theorem ofJson?_of_abridged {opts : Options}
    (abridged : Abridged opts.fields members) : ofJson? (.object members) = some opts := by
  have nd : (opts.fields.map Field.name).Nodup := (by decide : fieldNames.Nodup)
  refine bind_eq (abridged.fields? nd _) ?_
  refine bind_eq (abridged.optional nd .bool 0) ?_
  refine bind_eq (abridged.optional nd .bool 1) ?_
  refine bind_eq (abridged.optional nd .bool 2) ?_
  refine bind_eq (abridged.optional nd (Codec.bool.option fun _ => Json.noConfusion) 3) ?_
  refine bind_eq (abridged.optional nd .bool 4) ?_
  refine bind_eq (abridged.optional nd (.name .strict _ _ QueueType.ofName?_name) 5) ?_
  refine bind_eq (abridged.optional nd (MemoryStrategy.codec.option fun _ => Json.noConfusion) 6) ?_
  refine bind_eq (abridged.optional nd Codec.text.list 7) ?_
  exact bind_eq (abridged.optional nd (Codec.text.option fun _ => Json.noConfusion) 8) rfl

def codec : Codec Options := .record fields ofJson? 1 (fun _ => rfl) ofJson?_of_abridged

end Options

/-! ## Nothing left out -/

theorem Spatial.codec_writes_toJson {α : Type} {codec : Codec α} {write : α → Json}
    (writes : ∀ v, codec.Writes v (write v)) (pair : Spatial α) :
    (Spatial.codec codec).Writes pair (pair.toJson write) :=
  ⟨_, _, rfl, writes _, writes _⟩

theorem Spatial.writes_sizesToJson (sizes : Spatial UInt32) : sizesCodec.Writes sizes sizes.sizesToJson :=
  codec_writes_toJson (fun _ => rfl) sizes

theorem Spatial.writes_offsetsToJson (offsets : Spatial Int32) :
    offsetsCodec.Writes offsets offsets.offsetsToJson :=
  codec_writes_toJson (fun _ => rfl) offsets

theorem Shape.writes_toJson (shape : Shape) : codec.Writes shape shape.toJson :=
  ⟨_, rfl, .keep rfl (.keep rfl (.keep rfl (.keep rfl .nil)))⟩

theorem Padding.writes_toJson (pad : Padding) : codec.Writes pad pad.toJson :=
  ⟨_, rfl, .keep pad.lower.writes_sizesToJson (.keep pad.upper.writes_sizesToJson .nil)⟩

theorem Layout.writes_toJson (form : Json.NameForm) (lay : Layout) :
    (codec form).Writes lay lay.toJson :=
  ⟨_, rfl, .keep rfl (.keep lay.shape.writes_toJson (.keep lay.padding.writes_toJson .nil))⟩

theorem Window.writes_toJson (win : Window) : codec.Writes win win.toJson :=
  ⟨_, rfl, .keep win.kernel.writes_sizesToJson (.keep win.stride.writes_sizesToJson
    (.keep win.dilation.writes_sizesToJson (.keep win.inputOffset.writes_offsetsToJson .nil)))⟩

theorem SplitPart.writes_toJson (part : SplitPart) : codec.Writes part part.toJson :=
  ⟨_, rfl, .keep rfl (.keep rfl .nil)⟩

theorem Spatial.writes_nullable (size : Option (Spatial UInt32)) :
    sizeCodec.Writes size (Json.nullable sizesToJson size) :=
  sizesCodec.option_nullable _ writes_sizesToJson size

theorem Kind.abridged_members (kind : Kind) : Abridged kind.fields kind.members := by
  cases kind with
  | inputLayout lay => exact .keep (lay.writes_toJson .lenient) .nil
  | data lay => exact .keep (lay.writes_toJson .lenient) .nil
  | convolution outputFeatures win outputSize =>
    exact .keep rfl (.keep win.writes_toJson (.keep (Spatial.writes_nullable outputSize) .nil))
  | pooling mode win outputSize =>
    exact .keep rfl (.keep win.writes_toJson (.keep (Spatial.writes_nullable outputSize) .nil))
  | activation fn => exact .keep rfl .nil
  | eltwise mode => exact .keep rfl .nil
  | fullyConnected outputFeatures => exact .keep rfl .nil
  | softmax => exact .nil
  | reorder fmt => exact .keep rfl .nil
  | reshape shape => exact .keep shape.writes_toJson .nil
  | concatenation => exact .nil
  | split parts => exact .keep (codec.list_map writes_toJson parts) .nil
  | crop featureOffset features =>
    have written := Codec.uint32.option_nullable (fun _ => Json.noConfusion) (fun _ => rfl) features
    exact .keep rfl (.keep written .nil)

theorem Primitive.writes_toJson (prim : Primitive) : codec.Writes prim prim.toJson :=
  ⟨_, rfl, .keep rfl (.keep rfl (prim.kind.abridged_members.append (.keep (Codec.text.list_map (fun _ =>
    rfl) prim.inputs) (.keep prim.outputPadding.writes_toJson .nil))))⟩

theorem Topology.writes_toJson (topo : Topology) : codec.Writes topo topo.toJson :=
  ⟨_, rfl, .keep (Primitive.codec.list_map Primitive.writes_toJson topo.primitives)
    (.keep (Codec.text.list_map (fun _ => rfl) topo.inputs)
      (.keep (Codec.text.list_map (fun _ => rfl) topo.outputs) .nil))⟩

theorem Options.writes_toJson (opts : Options) : codec.Writes opts opts.toJson := by
  have handling := Codec.bool.option_nullable (fun _ => Json.noConfusion) (fun _ => rfl)
    opts.outputSizeHandling
  have strat := MemoryStrategy.codec.option_nullable (fun _ => Json.noConfusion) (fun _ => rfl)
    opts.chosenStrategy
  have disabled := Codec.text.list_map (fun _ => rfl) opts.disabledPasses
  have directory := Codec.text.option_nullable (fun _ => Json.noConfusion) (fun _ => rfl)
    opts.dumpDirectory
  exact ⟨_, rfl, .keep rfl (.keep rfl (.keep rfl (.keep handling (.keep rfl (.keep rfl
    (.keep strat (.keep disabled (.keep directory .nil))))))))⟩

/-- **Reading undoes writing.** A topology and build options are read back from their documents, whether
all fields are given or some that hold their defaults are left out at any place. -/
theorem documents_read_as_written :
    (∀ topology : Topology, Topology.codec.Writes topology topology.toJson) ∧
    (∀ (topology : Topology) (json : Json), Topology.codec.Writes topology json →
      Topology.ofText? json.render = some topology ∧ Topology.ofText? json.pretty = some topology) ∧
    (∀ options : Options, codec.Writes options options.toJson) ∧
    ∀ (options : Options) (json : Json), codec.Writes options json →
      ofText? json.render = some options ∧ ofText? json.pretty = some options :=
  ⟨Topology.writes_toJson, fun _ _ writes => Topology.codec.read_written writes,
    writes_toJson, fun _ _ writes => codec.read_written writes⟩

/-- An input, a convolution that reads it, and a part of the result. -/
def partOfConvolution : Topology where
  primitives := [
    .inputLayout "in" { format := .bfyx, shape := ⟨1, 3, 8, 8⟩, padding := { upper := ⟨1, 2⟩ } },
    { id := "conv", kind := .convolution 4 { kernel := ⟨3, 3⟩, inputOffset := ⟨-1, -1⟩ } none,
      inputs := ["in"] },
    { id := "part", kind := .crop 1 none, inputs := ["conv"] }]
  outputs := ["part"]

/-- The document of `partOfConvolution` without the fields that hold their defaults. -/
def partOfConvolutionJson : Json :=
  .object [("primitives", .array [
      .object [("id", .text "in"), ("type", .text "input_layout"),
        ("layout", .object [("shape", (⟨1, 3, 8, 8⟩ : Shape).toJson),
          ("padding", .object [("upper", .array [.integer 1, .integer 2])])])],
      .object [("id", .text "conv"), ("type", .text "convolution"), ("output_features", .integer 4),
        ("window", .object [("kernel", .array [.integer 3, .integer 3]),
          ("input_offset", .array [.integer (-1), .integer (-1)])]),
        ("inputs", .array [.text "in"])],
      .object [("id", .text "part"), ("type", .text "crop"), ("feature_offset", .integer 1),
        ("inputs", .array [.text "conv"])]]),
    ("outputs", .array [.text "part"])]

theorem writes_partOfConvolutionJson : Topology.codec.Writes partOfConvolution partOfConvolutionJson := by
  have texts : ∀ content : String, Codec.text.list.Writes [content] (.array [.text content]) :=
    fun content => ⟨_, rfl, .cons rfl .nil⟩
  have i : Primitive.codec.Writes (partOfConvolution.primitives.head (by decide)) _ := ⟨_, rfl, .keep rfl
    (.keep rfl (.keep ⟨_, rfl, .drop rfl (.keep (Shape.writes_toJson _) (.keep ⟨_, rfl, .drop rfl (.keep
    (Spatial.writes_sizesToJson ⟨1, 2⟩) .nil)⟩ .nil))⟩ (.drop rfl (.drop rfl .nil))))⟩
  have convolution : Primitive.codec.Writes
      { id := "conv", kind := .convolution 4 { kernel := ⟨3, 3⟩, inputOffset := ⟨-1, -1⟩ } none,
        inputs := ["in"] } _ :=
    ⟨_, rfl, .keep rfl (.keep rfl (.keep rfl (.keep
      ⟨_, rfl, .keep (Spatial.writes_sizesToJson ⟨3, 3⟩) (.drop rfl (.drop rfl
        (.keep (Spatial.writes_offsetsToJson ⟨-1, -1⟩) .nil)))⟩
      (.drop rfl (.keep (texts "in") (.drop rfl .nil))))))⟩
  have part : Primitive.codec.Writes { id := "part", kind := .crop 1 none, inputs := ["conv"] } _ :=
    ⟨_, rfl, .keep rfl (.keep rfl (.keep rfl (.drop rfl (.keep (texts "conv") (.drop rfl .nil)))))⟩
  exact ⟨_, rfl, .keep ⟨_, rfl, .cons i (.cons convolution (.cons part .nil))⟩
    (.drop rfl (.keep (texts "part") .nil))⟩

/-- Options with two fields that do not hold their defaults, without the others. -/
def dumpedOptionsJson : Json :=
  .object [("optimize_data", .bool false), ("graph_dumps_dir", .text "dumps")]

theorem writes_dumpedOptionsJson :
    codec.Writes { optimizeData := false, dumpDirectory := some "dumps" } dumpedOptionsJson :=
  ⟨_, rfl, .drop rfl (.drop rfl (.keep rfl (.drop rfl (.drop rfl (.drop rfl (.drop rfl (.drop rfl
    (.keep rfl .nil))))))))⟩

theorem documents_read_as_written_partOfConvolution :
    Topology.codec.Writes partOfConvolution partOfConvolutionJson ∧
      Topology.ofText? partOfConvolutionJson.render = some partOfConvolution ∧
      codec.Writes { optimizeData := false, dumpDirectory := some "dumps" } dumpedOptionsJson ∧
      ofText? dumpedOptionsJson.pretty =
        some { optimizeData := false, dumpDirectory := some "dumps" } :=
  ⟨writes_partOfConvolutionJson, (documents_read_as_written.2.1 _ _ writes_partOfConvolutionJson).1,
    writes_dumpedOptionsJson, (documents_read_as_written.2.2.2 _ _ writes_dumpedOptionsJson).2⟩

end LayerGraph
