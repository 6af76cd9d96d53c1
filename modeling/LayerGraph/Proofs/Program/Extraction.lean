import LayerGraph.Proofs.Program.Rewiring

/-!
# Extracting nodes

A program is made from some nodes of another one (`Program.ofNodes`). It is a copy of the part that these
nodes span (`Extracts`): it has their ids in the order of the list, and every copy reads the copies of
what its model reads, at the same slots. Copies are like their models (`Node.IsCopyOf`), but for constant
buffers, which become inputs.

This works exactly when everything that the nodes read is among them. Otherwise the program is refused
for a dependency that is not.
-/

namespace LayerGraph

open List

/-- A node is like another one, but an input in the place of a constant buffer. -/
structure Node.IsCopyOf (copy original : Node) : Prop where
  id : copy.id = original.id
  kind : copy.kind = match original.kind with
    | .data layout => .inputLayout layout
    | kind => kind
  fused : copy.fused = original.fused
  padding : copy.padding = original.padding

namespace Program

variable {p source q : Program} {key user model : NodeKey} {models : List NodeKey}
  {id : String}

/-- A program is a copy of what some nodes of another one span. -/
structure Extracts (source : Program) (models : List NodeKey) (program : Program) : Prop where
  consistent : program.Consistent
  internal : program.isInternal
  ids : program.names.map Prod.fst = models.map source.idOf
  nodes : ∀ model ∈ models, ∃ key copy original, program.keyOf? (source.idOf model) = some key ∧
    program.node? key = some copy ∧ source.node? model = some original ∧ copy.IsCopyOf original ∧
    (program.dependencies key).map program.idOf = (source.dependencies model).map source.idOf
  outputs : program.outputs = []
  order : program.order.toList = []
  inputs : program.InputsExact

theorem kind_copiedPrimitive (n : Node) : (copiedPrimitive n).kind = match n.kind with
    | .data lay => .inputLayout lay
    | kind => kind := by
  rw [copiedPrimitive]
  cases kind : n.kind with
  | data lay => rfl
  | _ => exact kind

/-- What a copy of different live nodes looks like. -/
theorem IsCopy.extracts {num : Nat} {opts : Options} (isCopy : IsCopy (blank num opts) source models p)
    (wf : source.Consistent) : Extracts source models p := by
  have rest := isCopy.rest
  refine ⟨isCopy.consistent, ?_, isCopy.ids, fun model mem => ?_, ?_, ?_, isCopy.inputs⟩
  · rw [rest]
    rfl
  · obtain ⟨key, copy, hk, copies⟩ := isCopy.present model mem
    obtain ⟨m, -, copiesToo, lists⟩ := isCopy.copies key copy hk
    obtain rfl := copiesToo.unique wf copies rfl
    have named := isCopy.consistent.keyOf?_id hk
    rw [copies.id_eq] at named
    obtain ⟨orig, foundOrig, rfl⟩ := copies
    exact ⟨key, _, orig, named, hk, foundOrig,
      ⟨id_copiedPrimitive orig, kind_copiedPrimitive orig, rfl, rfl⟩, lists⟩
  · rw [rest]
    rfl
  · rw [rest]
    rfl

/-- **A program of nodes is a copy of what they span.** It can be made when everything they read is among
them, and is refused for something that is not otherwise. -/
theorem ofNodes_extracts (consistent : source.Consistent) (nodup : models.Nodup)
    (live : ∀ model ∈ models, source.contains model) (number : Nat) (options : Options) :
    ((∀ model ∈ models, source.dependencies model ⊆ models) →
      ∃ program, ofNodes number source models options = .ok program ∧
        Extracts source models program) ∧
    ((¬ ∀ model ∈ models, source.dependencies model ⊆ models) →
      ∃ model ∈ models, ∃ dependency ∈ source.dependencies model, dependency ∉ models ∧
        ofNodes number source models options =
          .error (.unresolvedDependency (source.idOf model) (source.idOf dependency))) := by
  rcases ofNodes_cases consistent nodup live number options with
    ⟨program, result, closed⟩ | ⟨model, member, dependency, reads, missing, refused⟩
  · exact ⟨fun _ => ⟨program, result, (isCopy_ofNodes consistent nodup result).extracts consistent⟩,
      fun lacks => absurd closed lacks⟩
  · exact ⟨fun closed => absurd (closed model member reads) missing,
      fun _ => ⟨model, member, dependency, reads, missing, refused⟩⟩

open Rewiring

/-- The reader, listed first, reads the copies of both other nodes. -/
theorem ofNodes_extracts_orderedReadings :
    orderedReadings.Consistent ∧ ∃ program, ofNodes 1 orderedReadings [2, 1, 0] {} = .ok program ∧
      program.names.map Prod.fst = ["reader", "middle", "source"] ∧
      ∃ key, program.keyOf? "reader" = some key ∧
        (program.dependencies key).map program.idOf = ["source", "middle", "source"] := by
  obtain ⟨program, result, extracts⟩ := (ofNodes_extracts consistent_orderedReadings
    (by decide : [2, 1, 0].Nodup) (by decide) 1 {}).1 (by decide)
  obtain ⟨key, copy, original, named, -, -, -, lists⟩ := extracts.nodes 2 (by decide)
  exact ⟨consistent_orderedReadings, program, result, extracts.ids, key, named, lists⟩

end Program

end LayerGraph
