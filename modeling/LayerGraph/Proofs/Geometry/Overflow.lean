import LayerGraph.Pass.Windows

/-!
# Sizes are only cut short by overflow

Sizes of windows, shapes and borders are computed in machine words, and such a computation is cut
short only when a word overflows (`Checked.OnlyOverflows`). None of them follows a key.
-/

namespace LayerGraph

section

variable {ε α β : Type} {a : Except ε α} {b : α → Except ε β}

theorem bind_eq_ok {v : β} : (a >>= b) = .ok v ↔ ∃ mid, a = .ok mid ∧ b mid = .ok v := by
  cases a with
  | error error => simp [bind, Except.bind]
  | ok mid => simp [bind, Except.bind]

theorem bind_eq_error {error : ε} :
    (a >>= b) = .error error ↔ a = .error error ∨ ∃ mid, a = .ok mid ∧ b mid = .error error := by
  cases a with
  | error cause => simp [bind, Except.bind]
  | ok mid => simp [bind, Except.bind]

end

namespace Checked

variable {α β : Type}

/-- The only reason for which there is no value is an overflow. -/
def OnlyOverflows (result : Checked α) : Prop := ∀ cause, result = .error cause → cause = .overflow

namespace OnlyOverflows

theorem pure (v : α) : OnlyOverflows (Pure.pure v : Checked α) := nofun

theorem bind {a : Checked α} {b : α → Checked β} (one : a.OnlyOverflows)
    (two : ∀ v, (b v).OnlyOverflows) : OnlyOverflows (a >>= b) := by
  cases a with
  | ok v => exact two v
  | error cause =>
    intro o e
    cases e
    exact one cause rfl

theorem map {a : Checked α} (one : a.OnlyOverflows) (change : α → β) :
    OnlyOverflows (change <$> a) := by
  cases a with
  | ok v => exact nofun
  | error cause =>
    intro o e
    cases e
    exact one cause rfl

end OnlyOverflows

theorem onlyOverflows_signed64 (v : Int) : (signed64 v).OnlyOverflows := by
  rw [signed64]
  split
  · exact nofun
  · rintro _ ⟨⟩
    rfl

theorem onlyOverflows_unsigned32 (v : Nat) : (unsigned32 v).OnlyOverflows := by
  rw [unsigned32]
  split
  · exact nofun
  · rintro _ ⟨⟩
    rfl

end Checked

open Checked

/-! ## Windows -/

theorem WindowAxis.onlyOverflows_outputSize (axis : WindowAxis) (i : UInt32) :
    (axis.outputSize i).OnlyOverflows := by
  refine .bind (onlyOverflows_signed64 _) fun extent => ?_
  dsimp only
  split
  · exact .pure _
  · exact .pure _

theorem WindowAxis.onlyOverflows_neededPadding (axis : WindowAxis) (i output : UInt32) :
    (axis.neededPadding i output).OnlyOverflows := by
  refine .bind ?_ fun limit => .pure _
  refine .bind (onlyOverflows_signed64 _) fun steps => .bind (onlyOverflows_signed64 _) fun last =>
    .bind (onlyOverflows_signed64 _) fun extent => onlyOverflows_signed64 _

theorem Window.onlyOverflows_outputSize (win : Window) (i : Spatial UInt32) :
    (win.outputSize i).OnlyOverflows :=
  .bind (win.alongX.onlyOverflows_outputSize _) fun _ =>
    .bind (win.alongY.onlyOverflows_outputSize _) fun _ => .pure _

theorem Window.onlyOverflows_neededPadding (win : Window) (i output : Spatial UInt32) :
    (win.neededPadding i output).OnlyOverflows :=
  .bind (win.alongX.onlyOverflows_neededPadding _ _) fun _ =>
    .bind (win.alongY.onlyOverflows_neededPadding _ _) fun _ => .pure _

/-! ## Layouts and borders -/

namespace Kind

theorem onlyOverflows_windowSize (win : Window) (asked : Option (Spatial UInt32))
    (i : Shape) : (windowSize win asked i).OnlyOverflows := by
  cases asked with
  | some size => exact .pure size
  | none => exact win.onlyOverflows_outputSize _

theorem onlyOverflows_outputShapeFrom (kind : Kind) (i : Shape) (rest : List Shape) :
    (kind.outputShapeFrom i rest).OnlyOverflows := by
  cases kind with
  | convolution outputFeatures win asked =>
    exact .bind (onlyOverflows_windowSize win asked i) fun _ => .pure _
  | pooling mode win asked =>
    exact .bind (onlyOverflows_windowSize win asked i) fun _ => .pure _
  | concatenation => exact .bind (onlyOverflows_unsigned32 _) fun _ => .pure _
  | _ => exact .pure _

theorem onlyOverflows_outputShape (kind : Kind) (inputs : List Shape) :
    (kind.outputShape inputs).OnlyOverflows := by
  rw [outputShape.eq_def]
  split
  case h_5 => exact .map (onlyOverflows_outputShapeFrom _ _ _) _
  all_goals exact .pure _

theorem onlyOverflows_neededBorder (handling : Bool) (kind : Kind) (i : Layout) :
    (kind.neededBorder handling i).OnlyOverflows := by
  have explicit : ∀ (win : Window) (size : Spatial UInt32),
      (if handling then some <$> win.neededPadding i.shape.spatial size
        else Pure.pure none : Checked (Option Padding)).OnlyOverflows := by
    intro win size
    split
    · exact .map (win.onlyOverflows_neededPadding _ _) _
    · exact .pure _
  cases kind with
  | convolution outputFeatures win asked =>
    cases asked with
    | some size => exact explicit win size
    | none =>
      rw [neededBorder]
      split
      · exact .bind (win.onlyOverflows_outputSize _) fun _ =>
          .map (win.onlyOverflows_neededPadding _ _) _
      · exact .pure _
  | pooling mode win asked =>
    cases asked with
    | some size => exact explicit win size
    | none => exact .pure _
  | _ => exact .pure _

end Kind

theorem Program.onlyOverflows_inferLayout (p : Program) (k : NodeKey) (n : Node) :
    (p.inferLayout k n).OnlyOverflows := by
  rw [inferLayout]
  split
  · exact .pure _
  · exact .bind (n.kind.onlyOverflows_outputShape _) fun _ => .pure _

end LayerGraph
