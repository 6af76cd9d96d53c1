import LayerGraph.Proofs.Geometry.Overflow
import Mathlib.Order.Bounds.Basic

/-!
# Exact window geometry

Both questions about a window are answered in machine words. Here they are compared with the geometry
of its taps in numbers without bounds: `tap i j` is the position of tap `j` of window `i`, `span` the
number of elements that a window spans, and `upperReach` what windows read behind the last element of
an input.

A signed word of 64 bits does not hold every span, and a border is cut to 32 bits. Both are harmless
exactly as long as the border itself fits: then no step of the computation leaves its word either
(`Window.answers_exact_iff`). As long as it fits, the border is the least one that holds every tap,
and the natural number of windows is the largest one that a border as wide on either side admits
(`WindowAxis.border_and_size_agree`).
-/

namespace LayerGraph

open Int64 Checked

theorem Checked.signed64_eq_ok {v r : Int} (low : -2147483648 ≤ v) :
    signed64 v = .ok r ↔ v ≤ maxValue.toInt ∧ r = v := by
  have bottom : minValue.toInt ≤ -2147483648 := by decide
  have above : minValue.toInt ≤ v := Int.le_trans bottom low
  rw [signed64]
  simp only [above, true_and]
  split
  · next high => simp [high, eq_comm]
  · next high => simp [high]

namespace WindowAxis

/-- The number of elements from the first tap of a window to the last, without a bound. -/
def span (axis : WindowAxis) : Nat := (axis.kernel.toNat - 1) * axis.dilation.toNat + 1

/-- The elements from the start of the first of `output` windows to the start of the last. -/
def travel (axis : WindowAxis) (output : UInt32) : Nat := (output.toNat - 1) * axis.stride.toNat

/-- The end of the last of `output` windows, counted from the first element of the input. -/
def farEnd (axis : WindowAxis) (output : UInt32) : Int :=
  axis.offset.toInt + axis.travel output + axis.span

/-- The elements that `output` windows read after the last one of the input. -/
def upperReach (axis : WindowAxis) (input output : UInt32) : Nat :=
  (axis.farEnd output - input.toNat).toNat

/-- Signed words of 64 bits hold the extent of a window and the way of `output` windows. -/
def IsMeasured (axis : WindowAxis) (output : UInt32) : Prop :=
  axis.span ≤ maxValue.toInt ∧ axis.travel output ≤ maxValue.toInt ∧
    axis.farEnd output ≤ maxValue.toInt

variable {axis : WindowAxis} {input output size lower upper : UInt32}

theorem offset_ge (axis : WindowAxis) : -2147483648 ≤ axis.offset.toInt := axis.offset.le_toInt

/-! ## Answers in words -/

theorem extent_eq_ok {e : Int} :
    axis.extent = .ok e ↔ axis.span ≤ maxValue.toInt ∧ e = axis.span :=
  signed64_eq_ok (Int.le_trans (by decide) (Int.natCast_nonneg _))

theorem limit_eq_ok {e : Int} :
    axis.limit output = .ok e ↔ axis.IsMeasured output ∧ e = axis.farEnd output := by
  have low := axis.offset_ge
  have steps : -2147483648 ≤ (axis.travel output : Int) := by omega
  have last : -2147483648 ≤ axis.offset.toInt + axis.travel output := by omega
  have whole : -2147483648 ≤ axis.farEnd output := by
    rw [farEnd]
    omega
  simp only [limit, bind_eq_ok]
  constructor
  · rintro ⟨_, one, _, two, _, three, four⟩
    obtain ⟨travelFits, rfl⟩ := (signed64_eq_ok steps).mp one
    obtain ⟨-, rfl⟩ := (signed64_eq_ok last).mp two
    obtain ⟨spanFits, rfl⟩ := extent_eq_ok.mp three
    obtain ⟨endFits, rfl⟩ := (signed64_eq_ok whole).mp four
    exact ⟨⟨spanFits, travelFits, endFits⟩, rfl⟩
  · rintro ⟨⟨spanFits, travelFits, endFits⟩, rfl⟩
    have lastFits : axis.offset.toInt + axis.travel output ≤ maxValue.toInt := by
      rw [farEnd] at endFits
      omega
    exact ⟨_, (signed64_eq_ok steps).mpr ⟨travelFits, rfl⟩, _,
      (signed64_eq_ok last).mpr ⟨lastFits, rfl⟩, _, extent_eq_ok.mpr ⟨spanFits, rfl⟩,
      (signed64_eq_ok whole).mpr ⟨endFits, rfl⟩⟩

/-- The needed border is known when everything fits into signed words; it is then cut to 32 bits. -/
theorem neededPadding_eq_ok : axis.neededPadding input output = .ok (lower, upper) ↔
    axis.IsMeasured output ∧ lower = UInt32.ofNat axis.lowerReach ∧
      upper = UInt32.ofNat (axis.upperReach input output) := by
  simp only [neededPadding, bind_eq_ok, limit_eq_ok]
  constructor
  · rintro ⟨_, ⟨measured, rfl⟩, known⟩
    cases known
    exact ⟨measured, rfl, rfl⟩
  · rintro ⟨measured, rfl, rfl⟩
    exact ⟨_, ⟨measured, rfl⟩, rfl⟩

/-- A lower border is never cut. -/
theorem toNat_lowerReach (axis : WindowAxis) :
    (UInt32.ofNat axis.lowerReach).toNat = axis.lowerReach := by
  have low := axis.offset_ge
  refine UInt32.toNat_ofNat_of_lt' ?_
  rw [lowerReach, UInt32.size]
  omega

/-- The number of windows is known when the extent of a window is. -/
theorem isOk_outputSize (axis : WindowAxis) (input : UInt32) :
    (∃ size, axis.outputSize input = .ok size) ↔ axis.span ≤ maxValue.toInt := by
  simp only [outputSize, bind_eq_ok, extent_eq_ok]
  constructor
  · rintro ⟨_, _, ⟨spanFits, -⟩, -⟩
    exact spanFits
  · intro spanFits
    by_cases room : (axis.span : Int) ≤ input.toNat + 2 * axis.lowerReach
    · exact ⟨_, _, ⟨spanFits, rfl⟩, if_pos room⟩
    · exact ⟨_, _, ⟨spanFits, rfl⟩, if_neg room⟩

/-- The number of windows on an input that is stepped over as far on either side, without a bound. -/
def naturalSize (axis : WindowAxis) (input : UInt32) : Nat :=
  (input.toNat + 2 * axis.lowerReach - axis.span) / axis.stride.toNat + 1

theorem outputSize_of_fits (stride : 1 ≤ axis.stride.toNat)
    (room : axis.span ≤ input.toNat + 2 * axis.lowerReach)
    (fits : axis.naturalSize input < UInt32.size) :
    axis.outputSize input = .ok (UInt32.ofNat (axis.naturalSize input)) := by
  have low := axis.offset_ge
  have word : input.toNat < UInt32.size := input.toNat_lt_size
  have top : maxValue.toInt = 9223372036854775807 := by decide
  have spanFits : axis.span ≤ maxValue.toInt := by
    rw [lowerReach] at room
    rw [UInt32.size] at word
    omega
  have roomInt : (axis.span : Int) ≤ input.toNat + 2 * axis.lowerReach := by omega
  have rest : ((input.toNat + 2 * axis.lowerReach : Int) - axis.span).toNat =
      input.toNat + 2 * axis.lowerReach - axis.span := by omega
  simp only [outputSize, bind_eq_ok, extent_eq_ok]
  refine ⟨_, ⟨spanFits, rfl⟩, ?_⟩
  rw [if_pos roomInt, rest, Nat.max_eq_left stride]
  exact congrArg (fun n => Except.ok (UInt32.ofNat n)) (Nat.min_eq_left (Nat.le_pred_of_lt fits))

/-- Where a border fits into its word, every step on the way to it does. -/
theorem isMeasured_of_lt (fits : axis.upperReach input output < UInt32.size) :
    axis.IsMeasured output := by
  have low := axis.offset_ge
  have top : maxValue.toInt = 9223372036854775807 := by decide
  have word : input.toNat < UInt32.size := input.toNat_lt_size
  rw [UInt32.size] at word
  rw [upperReach, farEnd, UInt32.size] at fits
  rw [IsMeasured, farEnd, top]
  omega

/-- A border as wide as the windows reach over the input on either side. -/
def IsExact (axis : WindowAxis) (input output lower upper : UInt32) : Prop :=
  (lower.toNat : Int) = max (-axis.offset.toInt) 0 ∧
    (upper.toNat : Int) = max (axis.farEnd output - input.toNat) 0

/-- The border that is computed is exact when it is not cut. -/
theorem isExact_iff : axis.IsExact input output (UInt32.ofNat axis.lowerReach)
    (UInt32.ofNat (axis.upperReach input output)) ↔ axis.upperReach input output < UInt32.size := by
  rw [IsExact, toNat_lowerReach, lowerReach, Int.toNat_eq_max]
  constructor
  · rintro ⟨-, exactly⟩
    rw [← Int.toNat_eq_max, ← upperReach, Int.ofNat_inj] at exactly
    exact exactly ▸ UInt32.toNat_lt_size _
  · intro fits
    rw [UInt32.toNat_ofNat_of_lt' fits, upperReach, Int.toNat_eq_max]
    exact ⟨rfl, rfl⟩

/-! ## Taps -/

/-- The position of a tap of a window, counted from the first element of the input. -/
def tap (axis : WindowAxis) (window index : Nat) : Int :=
  axis.offset.toInt + window * axis.stride.toNat + index * axis.dilation.toNat

/-- Every tap of the first `output` windows lies in the input with a border around it. -/
def Holds (axis : WindowAxis) (input output : UInt32) (border : Nat × Nat) : Prop :=
  ∀ window < output.toNat, ∀ index < axis.kernel.toNat,
    -(border.1 : Int) ≤ axis.tap window index ∧ axis.tap window index < input.toNat + border.2

section

variable (kernel : 1 ≤ axis.kernel.toNat) (some : 1 ≤ output.toNat)

include kernel some

/-- The reach of the windows on either side is the least border that holds every tap. -/
theorem isLeast_reach : IsLeast {border | axis.Holds input output border}
    (axis.lowerReach, axis.upperReach input output) := by
  constructor
  · intro window bound index under
    have travel : window * axis.stride.toNat ≤ axis.travel output :=
      Nat.mul_le_mul_right _ (by omega)
    have taps : index * axis.dilation.toNat + 1 ≤ axis.span :=
      Nat.succ_le_succ (Nat.mul_le_mul_right _ (by omega))
    dsimp only
    rw [tap, lowerReach, upperReach, farEnd]
    omega
  · rintro ⟨lower, upper⟩ holds
    have first := (holds 0 some 0 kernel).1
    have last := (holds (output.toNat - 1) (by omega) (axis.kernel.toNat - 1) (by omega)).2
    have travel : ((output.toNat - 1 : Nat) * axis.stride.toNat : Int) = axis.travel output :=
      (Int.natCast_mul ..).symm
    have taps : ((axis.kernel.toNat - 1 : Nat) * axis.dilation.toNat : Int) + 1 = axis.span := by
      rw [← Int.natCast_mul, span, Int.natCast_add, Int.natCast_one]
    simp only [tap, Int.natCast_zero, Int.zero_mul, Int.add_zero] at first last
    rw [Prod.mk_le_mk, lowerReach, upperReach, farEnd]
    omega

end

/-- The natural number of windows is the largest one for which they end no later than the input does
with the lower border on either side. -/
theorem isGreatest_naturalSize (input : UInt32) (stride : 1 ≤ axis.stride.toNat)
    (room : axis.span ≤ input.toNat + 2 * axis.lowerReach) :
    IsGreatest {count : Int | (count - 1) * axis.stride.toNat + axis.span ≤
      input.toNat + 2 * axis.lowerReach} (axis.naturalSize input : Nat) := by
  have positive : (0 : Int) < axis.stride.toNat := by omega
  have whole : ((axis.naturalSize input : Nat) : Int) - 1 =
      (input.toNat + 2 * axis.lowerReach - axis.span : Int) / axis.stride.toNat := by
    rw [naturalSize, Int.natCast_add, Int.natCast_ediv, Int.ofNat_sub room]
    simp
  constructor
  · have below := Int.ediv_mul_le (input.toNat + 2 * axis.lowerReach - axis.span : Int) positive.ne'
    rw [Set.mem_ofPred_eq, whole]
    omega
  · intro count fits
    rw [Set.mem_ofPred_eq] at fits
    have steps := (Int.le_ediv_iff_mul_le positive).mpr
      (show (count - 1) * axis.stride.toNat ≤ input.toNat + 2 * axis.lowerReach - axis.span by omega)
    omega

/-- **The two answers agree.** The needed border is the least one that holds every tap. On an input
that the first window fits into, when the border is as wide on either side as the first window needs
it, the natural size is the largest number of windows that end inside, and they need no wider
border. -/
theorem border_and_size_agree (axis : WindowAxis) (input output : UInt32)
    (kernel : 1 ≤ axis.kernel.toNat) (stride : 1 ≤ axis.stride.toNat) (some : 1 ≤ output.toNat) :
    (axis.upperReach input output < UInt32.size →
      ∃ lower upper, axis.neededPadding input output = .ok (lower, upper) ∧
        IsLeast {border | axis.Holds input output border} (lower.toNat, upper.toNat)) ∧
    (axis.offset.toInt ≤ 0 → axis.span ≤ input.toNat + 2 * -axis.offset.toInt →
      axis.naturalSize input < UInt32.size →
      ∃ size lower upper, axis.outputSize input = .ok size ∧
        IsGreatest {count : Int | (count - 1) * axis.stride.toNat + axis.span ≤
          input.toNat + 2 * -axis.offset.toInt} size.toNat ∧
        axis.neededPadding input size = .ok (lower, upper) ∧
        (lower.toNat : Int) = -axis.offset.toInt ∧ (upper.toNat : Int) ≤ -axis.offset.toInt) := by
  constructor
  · intro fits
    refine ⟨_, _, neededPadding_eq_ok.mpr ⟨isMeasured_of_lt fits, rfl, rfl⟩, ?_⟩
    rw [toNat_lowerReach, UInt32.toNat_ofNat_of_lt' fits]
    exact isLeast_reach kernel some
  · intro before roomInt fits
    have reach : (axis.lowerReach : Int) = -axis.offset.toInt := by
      rw [lowerReach]
      omega
    rw [← reach] at roomInt ⊢
    have room : axis.span ≤ input.toNat + 2 * axis.lowerReach := by omega
    have greatest := isGreatest_naturalSize input stride room
    have size : (UInt32.ofNat (axis.naturalSize input)).toNat = axis.naturalSize input :=
      UInt32.toNat_ofNat_of_lt' fits
    -- The windows of the natural size end inside the symmetric border, so that they need no more.
    have inside : axis.upperReach input (UInt32.ofNat (axis.naturalSize input)) ≤ axis.lowerReach := by
      have ends := greatest.1
      have steps : ((axis.naturalSize input : Int) - 1) * axis.stride.toNat =
          axis.travel (UInt32.ofNat (axis.naturalSize input)) := by
        rw [travel, size, naturalSize, Nat.add_sub_cancel, Int.natCast_mul]
        simp
      rw [Set.mem_ofPred_eq, steps] at ends
      rw [upperReach, farEnd]
      omega
    have narrow : axis.upperReach input (UInt32.ofNat (axis.naturalSize input)) < UInt32.size :=
      Nat.lt_of_le_of_lt inside (axis.toNat_lowerReach ▸ UInt32.toNat_lt_size _)
    refine ⟨_, _, _, outputSize_of_fits stride room fits, by rwa [size],
      neededPadding_eq_ok.mpr ⟨isMeasured_of_lt narrow, rfl, rfl⟩, ?_, ?_⟩
    · rw [toNat_lowerReach]
    · rw [UInt32.toNat_ofNat_of_lt' narrow]
      exact Int.ofNat_le.mpr inside

/-- Windows with three taps, two elements apart, the first of which begins before the input. -/
def strided : WindowAxis := ⟨3, 2, 1, -1⟩

theorem border_and_size_agree_strided :
    (∃ lower upper, strided.neededPadding 8 5 = .ok (lower, upper) ∧
      IsLeast {border | strided.Holds 8 5 border} (lower.toNat, upper.toNat)) ∧
    ∃ size lower upper, strided.outputSize 8 = .ok size ∧
      IsGreatest {count : Int | (count - 1) * strided.stride.toNat + strided.span ≤
        (8 : UInt32).toNat + 2 * -strided.offset.toInt} size.toNat ∧
      strided.neededPadding 8 size = .ok (lower, upper) ∧
      (lower.toNat : Int) = -strided.offset.toInt ∧ (upper.toNat : Int) ≤ -strided.offset.toInt :=
  have agree := border_and_size_agree strided 8 5 (by decide) (by decide) (by decide)
  ⟨agree.1 (by decide), agree.2 (by decide) (by decide) (by decide)⟩

end WindowAxis

namespace Window

variable {window : Window} {input output : Spatial UInt32}

theorem isOk_outputSize : (∃ size, window.outputSize input = .ok size) ↔
    window.alongX.span ≤ maxValue.toInt ∧ window.alongY.span ≤ maxValue.toInt := by
  rw [← window.alongX.isOk_outputSize input.x, ← window.alongY.isOk_outputSize input.y]
  simp only [outputSize, bind_eq_ok]
  constructor
  · rintro ⟨_, x, alongX, y, alongY, -⟩
    exact ⟨⟨x, alongX⟩, y, alongY⟩
  · rintro ⟨⟨x, alongX⟩, y, alongY⟩
    exact ⟨⟨x, y⟩, x, alongX, y, alongY, rfl⟩

/-- The border that the windows reach over, cut to words of 32 bits. -/
def cutBorder (window : Window) (input output : Spatial UInt32) : Padding where
  lower := ⟨UInt32.ofNat window.alongX.lowerReach, UInt32.ofNat window.alongY.lowerReach⟩
  upper := ⟨UInt32.ofNat (window.alongX.upperReach input.x output.x),
    UInt32.ofNat (window.alongY.upperReach input.y output.y)⟩

theorem neededPadding_eq_ok {padding : Padding} : window.neededPadding input output = .ok padding ↔
    (window.alongX.IsMeasured output.x ∧ window.alongY.IsMeasured output.y) ∧
      padding = window.cutBorder input output := by
  simp only [neededPadding, bind_eq_ok, Prod.exists, WindowAxis.neededPadding_eq_ok]
  constructor
  · rintro ⟨_, _, ⟨x, rfl, rfl⟩, _, _, ⟨y, rfl, rfl⟩, known⟩
    cases known
    exact ⟨⟨x, y⟩, rfl⟩
  · rintro ⟨⟨x, y⟩, rfl⟩
    exact ⟨_, _, ⟨x, rfl, rfl⟩, _, _, ⟨y, rfl, rfl⟩, rfl⟩

/-- Both questions about a window have an answer, and the border is the exact one. -/
def AnswersExactly (window : Window) (input output : Spatial UInt32) : Prop :=
  (∃ size, window.outputSize input = .ok size) ∧
  ∃ padding, window.neededPadding input output = .ok padding ∧
    window.alongX.IsExact input.x output.x padding.lower.x padding.upper.x ∧
    window.alongY.IsExact input.y output.y padding.lower.y padding.upper.y

/-- **The answers are exact when the border fits into its words.** In general the number of windows is
known when signed words hold the extent of a window, the border is known when they also hold the way
of all windows, and of what the windows reach over the input the border has the lowest 32 bits. -/
theorem answers_exact_iff (window : Window) (input output : Spatial UInt32) :
    (window.AnswersExactly input output ↔
      window.alongX.upperReach input.x output.x < UInt32.size ∧
        window.alongY.upperReach input.y output.y < UInt32.size) ∧
    ((∃ size, window.outputSize input = .ok size) ↔
      window.alongX.span ≤ maxValue.toInt ∧ window.alongY.span ≤ maxValue.toInt) ∧
    ∀ padding, window.neededPadding input output = .ok padding ↔
      (window.alongX.IsMeasured output.x ∧ window.alongY.IsMeasured output.y) ∧
        padding = window.cutBorder input output := by
  refine ⟨?_, isOk_outputSize, fun padding => neededPadding_eq_ok⟩
  constructor
  · rintro ⟨-, padding, known, alongX, alongY⟩
    obtain ⟨-, rfl⟩ := neededPadding_eq_ok.mp known
    exact ⟨WindowAxis.isExact_iff.mp alongX, WindowAxis.isExact_iff.mp alongY⟩
  · rintro ⟨fitsX, fitsY⟩
    have x := WindowAxis.isMeasured_of_lt fitsX
    have y := WindowAxis.isMeasured_of_lt fitsY
    exact ⟨isOk_outputSize.mpr ⟨x.1, y.1⟩, _, neededPadding_eq_ok.mpr ⟨⟨x, y⟩, rfl⟩,
      WindowAxis.isExact_iff.mpr fitsX, WindowAxis.isExact_iff.mpr fitsY⟩

/-- Windows with one tap that are as far apart as half of the words reach. -/
def scattered : Window := { kernel := ⟨1, 1⟩, stride := ⟨2147483648, 1⟩ }

/-- The window with the most taps, as far apart as can be. -/
def widest : Window := { kernel := ⟨4294967295, 1⟩, dilation := ⟨4294967295, 1⟩ }

/-- A border of 2³² elements is cut to nothing, and the extent of a window may overflow. -/
theorem border_cut_to_nothing :
    scattered.neededPadding ⟨1, 1⟩ ⟨3, 1⟩ = .ok {} ∧ scattered.alongX.upperReach 1 3 = 4294967296 ∧
      ¬ scattered.AnswersExactly ⟨1, 1⟩ ⟨3, 1⟩ ∧ widest.outputSize ⟨1, 1⟩ = .error .overflow := by
  refine ⟨by decide, by decide, ?_, by decide⟩
  rintro ⟨-, padding, known, ⟨-, upper⟩, -⟩
  obtain ⟨-, rfl⟩ := neededPadding_eq_ok.mp known
  revert upper
  decide

end Window

end LayerGraph
