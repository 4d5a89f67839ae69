import Mathlib.Logic.Basic

/-!
# Integer range steps

What one step of an integer range means, apart from how a backend computes it:
the successor is the exact sum, and the sign of the step alone says on which
side of the end it has to be.
-/

namespace Moth.Hir

/-- Whether a value is within the bound, in the direction of the step. -/
def RangeWithin (inclusive : Bool) (step value last : Int) : Prop :=
  if 0 < step then if inclusive then value ≤ last else value < last
  else if inclusive then last ≤ value else last < value

instance (inclusive : Bool) (step value last : Int) :
    Decidable (RangeWithin inclusive step value last) := by
  unfold RangeWithin
  infer_instance

/-- On the loop's side of the end bound. -/
def RangeSide (step current last : Int) : Prop :=
  if 0 < step then current ≤ last else last ≤ current

instance (step current last : Int) : Decidable (RangeSide step current last) := by
  unfold RangeSide
  infer_instance

/-- A successor in range is between the current value and the end, so it is
wherever both of them are. -/
theorem RangeWithin.between {inclusive : Bool} {step current last low high : Int}
    (h : RangeWithin inclusive step (current + step) last)
    (hcurrent : low ≤ current ∧ current ≤ high) (hlast : low ≤ last ∧ last ≤ high) :
    low ≤ current + step ∧ current + step ≤ high := by
  unfold RangeWithin at h
  cases inclusive <;> simp only [Bool.false_eq_true, if_false, if_true] at h <;>
    split at h <;> omega

end Moth.Hir
