import Mathlib.Algebra.Order.Group.Int

/-! Quotients, remainders and sums of wrapping 64-bit integers, read as integers. -/
namespace Zuul.Lib.Ticks
variable {d r n : Int64}

/-- Where nothing is negative, the machine quotient is that of the integers. -/
theorem toInt_quot (hd : 0 ≤ d.toInt) (hn : n ≠ -1) : (d / n).toInt = d.toInt / n.toInt := by
  rw [Int64.toInt_div_of_ne_right _ _ hn,Int.tdiv_eq_ediv_of_nonneg hd]

/-- And so is the remainder. -/
theorem toInt_rem (hd : 0 ≤ d.toInt) : (d % n).toInt = d.toInt % n.toInt := by
  rw [Int64.toInt_mod,Int.tmod_eq_emod_of_nonneg hd]

/-- A sum that wraps becomes smaller, not larger. -/
theorem toInt_add_le (hd : 0 < d.toInt) : (r + d).toInt ≤ r.toInt + d.toInt := by
  have hr := r.le_toInt
  have hr' := r.toInt_lt
  have hd' := d.toInt_lt
  rw [Int64.toInt_add,Int.bmod_def]
  split
  · omega
  · omega

end Zuul.Lib.Ticks
